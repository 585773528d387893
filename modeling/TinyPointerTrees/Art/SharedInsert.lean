import TinyPointerTrees.Art.Insert
import TinyPointerTrees.Art.SharedLookup
import TinyPointerTrees.Art.SharedRestructure

/-!
# `insert`, among other threads

`insert_wp` — an insertion of a key of the universe, whose value is not in the tree, ends
with its value in the tree, or fails as `Fails` says.

Of the node that the loop reads it is known what it is, and of its parent what was
seen when its lock word was read (`Parent`). The bytes that a node does not store are
read from the key of any leaf below it: `getAnyChildTid` may end in a leaf
that was put there meanwhile, but its key goes through the node as all of them do.
-/

namespace TinyPointerTrees.Art

open Conc ArtM Protocol

variable {V : Variant} {A : Tree V} {ids : ℕ → UInt64} {U : Set Key} {t : ℕ} {x y : World V}
  {n m : Ref} {k p : Key} {π r : List UInt8} {id v tid : UInt64} {τ : NodeType} {b : UInt8}
  {o : Obj V} {c : Tree.InsertState V} {α : Type}

namespace Tree

/-! ### The whole prefix -/

/-- The node is on or below the path `p`, where the keys begin with `p ++ π`. -/
structure Descending (t : ℕ) (tid : UInt64) (p : Key) (π : List UInt8) (n : Ref) (x : World V) :
    Prop where
  holding : Holding t tid false [] [] x
  node : ∃ q π' id', x.2.kind n = some (.node q π' id') ∧ q ≠ [] ∧ p ++ π <+: q ++ π'

/-- The value of a key below the path. -/
structure Below (A : Tree V) (t : ℕ) (tid : UInt64) (p : Key) (π : List UInt8) (w : UInt64)
    (x : World V) : Prop where
  holding : Holding t tid false [] [] x
  path : p ++ π <+: A.loadKey w

theorem Descending.stable : (artProtocol A U).Stable t (Descending (V := V) t tid p π) := by
  rintro n x y ⟨hat, q, π', id', hn, hq⟩ hr -
  exact ⟨hat.rely hr, q, π', id', hr.kind n _ hn, hq⟩

theorem Below.stable :
    (artProtocol A U).Stable t (Below A t tid p π) :=
  fun _ _ _ h hr _ => ⟨h.holding.rely hr, h.path⟩

/-- `getAnyChildTid` answers the value of a key that goes through the node. -/
theorem getAnyChildTid_wp (hi : Inv A U x) (hat : Holding t tid false [] [] x)
    (hn : x.2.kind n = some (.node p π id)) (hp : p ≠ []) :
    artWp A ids U t (A.getAnyChildTid n) (Below A t tid p π) (Failing t tid k) x := by
  refine wpOr_forever (Descending t tid p π) Descending.stable Below.stable Failing.stable ?_ hi
    ⟨hat, p, π, id, hn, hp, List.prefix_rfl⟩
  rintro m y hiy ⟨hy, q, π', id', hm, hq, hpre⟩
  obtain ⟨τ, hτ⟩ := hiy.nodeType hm
  refine wpOr_bind hiy Failing.stable (wp_readLockOrRestart hiy Failing.stable Stable.wpOr hm hy
    fun z hz hiz hs => ?_)
  have hyz := hy.rely hz
  generalize z.word m = w at hs
  refine wpOr_bind hiz Failing.stable (wp_getAnyChild hiz Failing.stable Stable.wpOr hs.kind hτ
    fun z₁ h₁ hi₁ => ?_)
  have hy₁ := hyz.rely h₁
  have hs₁ : Seen m (.node q π' id') w (fun o => o.getAnyChild τ = (z₁.get m).getAnyChild τ) z₁ :=
    (hs.rely h₁).imp fun _ _ => rfl
  generalize (z₁.get m).getAnyChild τ = e at hs₁
  refine wpOr_bind hi₁ Failing.stable (wp_readUnlockOrRestart hi₁ Failing.stable Stable.wpOr hs₁ hy₁
    fun z₂ h₂ hi₂ hw he => ?_)
  have hy₂ := hy₁.rely h₂
  have hs₂ := hs₁.rely h₂
  -- the node is in the tree, and has a child there
  obtain ⟨hitem, hid, hin⟩ := hi₂.inner_of_place hs₂.kind (hs₂.placed hi₂ hw)
  have hin := hin τ hτ
  obtain ⟨c₀, -, -, hc₀, -⟩ := z₂.2.tree.branching q _ hitem rfl hq
  have hnn : (z₂.get m).getChild τ c₀ ≠ .null :=
    fun h₀ => hc₀ (hi₂.shape.eq_none_iff.mp (hin.getChild_eq_null_iff.mp h₀))
  obtain ⟨hchild, hnull⟩ := hin.sound.getAnyChild hnn
  rw [he] at hchild hnull
  obtain ⟨c, ptr⟩ := e
  dsimp only at hchild hnull ⊢
  rw [hchild] at hnull ⊢
  obtain ⟨m', hm'⟩ := Option.ne_none_iff_exists'.mp fun h₀ =>
    hnull (hin.getChild_eq_null_iff.mpr h₀)
  have hd : Denotes A.indexer ((z₂.get m).getChild τ c) (idHash id' c) (some m') :=
    hid ▸ hin.denotes hm'
  have hspecial := (dereference_of_denotes hd).2
  have hpath : p ++ π <+: q ++ π' ++ [c] := hpre.trans (List.prefix_append _ _)
  generalize (z₂.get m).getChild τ c = ptr at hd hspecial
  refine wpOr_bind hi₂ Failing.stable (wp_getId hi₂ Failing.stable Stable.wpOr hs₂.kind
    fun z₃ h₃ hi₃ => ?_)
  have hy₃ := hy₂.rely h₃
  rcases hi₂.on_edge hm' with ⟨r, v, hleaf, hk', hms⟩ | ⟨π'', id'', τ'', -, hk', hτ''⟩
  · have hisLeaf : isLeaf ptr = true := by simp [isLeaf, hspecial, hms]
    obtain ⟨rest, -, hkey⟩ := hi₂.leaf_of_place hk' hm'
    rw [if_pos hisLeaf, ← hms]
    refine wpOr_bind hi₃ Failing.stable (wp_derefTable Stable.wpOr hd (wpOr_bind hi₃ Failing.stable
      (wp_value hi₃ Failing.stable Stable.wpOr (h₃.kind m' _ hk') fun z₄ h₄ hi₄ =>
        wpOr_pure (Stable.elim Descending.stable Below.stable) ⟨hy₃.rely h₄, ?_⟩)))
    rw [hkey]
    exact hpath.trans (List.prefix_append _ _)
  · have hnleaf : ¬ isLeaf ptr = true := by
      have := V.nodeType_ne_leafS (c := m'.special) (by rw [hτ'']; exact Option.some_ne_none τ'')
      simp [isLeaf, hspecial, this]
    rw [if_neg hnleaf]
    refine wpOr_bind hi₃ Failing.stable (wp_dereference Stable.wpOr hd hτ'' (wpOr_pure
      (Stable.elim Descending.stable Below.stable) ⟨hy₃, q ++ π' ++ [c], π'', id'',
      h₃.kind m' _ hk', by simp,
        hpath.trans (List.prefix_append _ _)⟩))

/-- While `checkPrefixPessimistic` reads the node at `p`, with the prefix `π`. -/
structure Comparing (t : ℕ) (tid : UInt64) (n : Ref) (p : Key) (π : List UInt8) (id : UInt64)
    (x : World V) : Prop where
  holding : Holding t tid false [] [] x
  kind : x.2.kind n = some (.node p π id)

theorem Comparing.rely (h : Comparing t tid n p π id x) (hr : Rely t x y) :
    Comparing t tid n p π id y :=
  ⟨h.holding.rely hr, hr.kind n _ h.kind⟩

theorem Comparing.stable {P : α → Prop} :
    (artProtocol A U).Stable t fun a y => Comparing (V := V) t tid n p π id y ∧ P a :=
  fun _ _ _ h hr _ => ⟨h.1.rely hr, h.2⟩

/-- The key of a leaf below the node, if it is asked for. -/
theorem keyBelow_wp {ask : Prop} [Decidable ask] {kt : Key} {P : Key → Prop} (hi : Inv A U x)
    (hx : Comparing t tid n p π id x) (hp : p ≠ []) (hbelow : ∀ kt, p ++ π <+: kt → P kt)
    (hkt : ¬ ask → P kt) :
    artWp A ids U t (if ask then A.loadKey <$> A.getAnyChildTid n else pure kt) (fun kt y =>
      Comparing t tid n p π id y ∧ P kt) (Failing t tid k) x := by
  split_ifs with h
  · refine wpOr_map hi Failing.stable Comparing.stable
      (wpOr_mono (wp_later (fun _ _ hl => hl.kind n _) (getAnyChildTid_wp hi hx.holding hx.kind hp)
      hx.kind) (fun w y _ hy => ?_) fun _ _ _ h => h)
    exact ⟨⟨hy.1.holding, hy.2⟩, hbelow _ hy.1.path⟩
  · exact wpOr_pure Comparing.stable ⟨hx, hkt h⟩

theorem comparePrefix_wp {M : Key → Option Ref} (hin : Inner A.indexer M p π n τ o) (hp : p ≠ [])
    (hlong : ¬ k <+: p ++ π) {remaining i : ℕ} {kt : Key} (hi : Inv A U x)
    (hx : Comparing t tid n p π id x) (hsum : i + remaining = π.length) (hpre : p ++ π.take i <+: k)
    (hkt : maxStoredPrefixLength < i → p ++ π <+: kt) :
    artWp A ids U t (A.comparePrefix (A.getAnyChildTid n) o k p.length remaining i (p.length + i)
      kt) (fun res y => Comparing t tid n p π id y ∧ Compared p π k res) (Failing t tid k) x := by
  induction remaining generalizing i kt x with
  | zero =>
    obtain rfl : i = π.length := by omega
    rw [List.take_length] at hpre
    rw [comparePrefix, ← List.length_append]
    exact wpOr_pure Comparing.stable ⟨hx, .matched hpre⟩
  | succ remaining ih =>
    have hlt : i < π.length := by omega
    have hlen : (p ++ π.take i).length = p.length + i := by
      rw [List.length_append, List.length_take, min_eq_left hlt.le]
    have hπ : π = π.take i ++ π[i] :: π.drop (i + 1) := by
      rw [← List.drop_eq_getElem_cons hlt, List.take_append_drop]
    rw [comparePrefix_succ]
    refine wpOr_bind hi Failing.stable (wpOr_mono (keyBelow_wp (P := fun kt =>
      maxStoredPrefixLength ≤ i → p ++ π <+: kt) hi hx hp (fun kt hkt _ => hkt) fun hne hle =>
      hkt (by omega)) (fun kt y hiy hy => ?_) fun _ _ _ h => h)
    obtain ⟨hy, hkt⟩ := hy
    -- the byte of the prefix
    refine wpOr_bind hiy Failing.stable (wpOr_mono (Q := fun d z => Comparing t tid n p π id z ∧
      d = π[i]) ?_ (fun d z hiz hz => ?_) fun _ _ _ h => h)
    · split_ifs with hlt'
      · exact wpOr_pure Comparing.stable ⟨hy, hin.stored ⟨i, hlt'⟩ _ (List.getElem?_eq_getElem hlt)⟩
      · obtain ⟨z, rfl⟩ := hkt (by omega)
        refine wp_inBounds (b := π[i]) Comparing.stable ?_ ⟨hy, rfl⟩
        rw [List.append_assoc, List.getElem?_append_right (by omega), Nat.add_sub_cancel_left,
          List.getElem?_append_left hlt, List.getElem?_eq_getElem hlt]
    obtain ⟨hz, rfl⟩ := hz
    -- the byte of the key
    obtain ⟨d, hbyte⟩ : ∃ d, k[p.length + i]? = some d := by
      refine Option.ne_none_iff_exists'.mp fun hnone => hlong ?_
      have heq : p ++ π.take i = k := by
        refine hpre.eq_of_length (le_antisymm hpre.length_le ?_)
        rw [hlen]
        exact List.getElem?_eq_none_iff.mp hnone
      rw [← heq, List.prefix_append_right_inj]
      exact List.take_prefix i π
    have hnext : p ++ π.take i ++ [d] <+: k := Answers.isPrefix_snoc hpre (hlen ▸ hbyte)
    refine wpOr_bind hiz Failing.stable (wp_inBounds Stable.wpOr hbyte ?_)
    by_cases hsame : π[i] = d
    · rw [if_neg (not_not.mpr hsame)]
      refine ih (i := i + 1) hiz hz (by omega) ?_ fun hle => hkt (by omega)
      rw [List.take_succ_eq_append_getElem hlt, ← List.append_assoc, hsame]
      exact hnext
    rw [if_pos hsame]
    by_cases hmore : o.prefixCount > maxStoredPrefixLength
    · -- the bytes that follow are those of the key of a leaf
      rw [if_pos hmore]
      refine wpOr_bind hiz Failing.stable (wpOr_mono (keyBelow_wp (P := fun kt =>
        p ++ π <+: kt) hiz hz hp (fun kt hkt => hkt) fun hle => hkt (by omega))
        (fun kt' u hiu hu => ?_) fun _ _ _ h => h)
      obtain ⟨hu, hkt'⟩ := hu
      obtain ⟨src, hsrc, hget⟩ := slice_below hkt' hlt
      rw [hin.prefixCount, Nat.add_sub_cancel_left, hsrc]
      refine wpOr_bind hiu Failing.stable (wp_inBounds Stable.wpOr rfl
        (wpOr_pure Comparing.stable ⟨hu, ?_⟩))
      rw [← hlen]
      exact .noMatch hπ hsame hnext hget
    · rw [if_neg hmore]
      refine wpOr_pure Comparing.stable ⟨hz, ?_⟩
      rw [← hlen]
      refine .noMatch hπ hsame hnext fun j b hb => ?_
      have hj := (List.getElem?_eq_some_iff.mp hb).1
      rw [List.length_drop] at hj
      rw [hin.prefixCount] at hmore ⊢
      rw [List.getElem?_drop] at hb
      rw [List.getD_eq_getElem?_getD, List.getElem?_take_of_lt (by omega),
        List.getElem?_drop, ← List.getD_eq_getElem?_getD]
      exact hin.getD_getPrefix ⟨i + 1 + j.val, by omega⟩ hb

theorem checkPrefixPessimistic_wp (hi : Inv A U x) (hx : Comparing t tid n p π id x)
    (hroot : p = [] → π = []) (hlong : p ≠ [] → ¬ k <+: p ++ π) (hpk : p <+: k) :
    artWp A ids U t (A.checkPrefixPessimistic n k p.length) (fun res y =>
      Comparing t tid n p π id y ∧ Compared p π k res) (Failing t tid k) x := by
  refine wpOr_bind hi Failing.stable (wp_read hi Failing.stable Stable.wpOr (hi.live n _ hx.kind)
    fun y hy hiy => ?_)
  have hxy := hx.rely hy
  obtain ⟨M, τ, hin, -⟩ := hiy.node hxy.kind
  rw [hin.prefixCount]
  by_cases hp : p = []
  · -- the root has no prefix
    obtain rfl := hroot hp
    subst hp
    exact wpOr_pure Comparing.stable ⟨hxy, .matched List.nil_prefix⟩
  · exact comparePrefix_wp (i := 0) hin hp (hlong hp) hiy hxy (Nat.zero_add _)
      (by simpa using hpk) fun hlt =>
      absurd hlt (Nat.not_lt_zero _)

/-! ### The way down -/

/-- What is known of the parent, at the head of the loop, of the node at `p` with the prefix `π`. -/
inductive Parent (A : Tree V) (c : InsertState V) (p : Key) (π : List UInt8) (x : World V) : Prop
  /-- There is none. -/
  | root (hp : p = []) (hπ : π = []) (hnode : c.node = none) (hnext : c.nextNode.special = V.n256S)
  /-- Its word was read before the pointer to the node. -/
  | edge {p₀ : Key} {π₀ : List UInt8} {id₀ : UInt64} {n₀ : Ref} (hp : p₀ ++ π₀ ++ [c.nodeKey] = p)
      (hnode : c.node = some n₀) (hs : Seen n₀ (.node p₀ π₀ id₀) c.parentVersion (fun _ => True) x)
      (hd : Denotes A.indexer c.nextNodeTinyPtr (idHash id₀ c.nodeKey) (some c.nextNode))

theorem Parent.later (h : Parent A c p π x) (hl : Later x y) : Parent A c p π y := by
  cases h with
  | root hp hπ hnode hnext => exact .root hp hπ hnode hnext
  | edge hp hnode hs hd => exact .edge hp hnode (hs.later hl) hd

/-- The word of the parent, if there is one, was seen. -/
theorem Parent.seen (h : Parent A c p π x) :
    ∀ m ∈ c.node, ∃ κ, Seen m κ c.parentVersion (fun _ => True) x := by
  intro m hm
  cases h with
  | root hp hπ hnode hnext =>
    rw [hnode] at hm
    cases hm
  | edge hp hnode hs hd =>
    rw [hnode] at hm
    cases hm
    exact ⟨_, hs⟩

/-- The head of the loop: the path of the node is on that of the key. -/
structure InsertHead (A : Tree V) (t : ℕ) (tid : UInt64) (k : Key) (c : InsertState V)
    (x : World V) : Prop where
  holding : Holding t tid false [] [] x
  node : ∃ p π id, x.2.kind c.nextNode = some (.node p π id) ∧ p <+: k ∧ c.level = p.length ∧
    Parent A c p π x

theorem InsertHead.stable : (artProtocol A U).Stable t (InsertHead A t tid k) := by
  rintro c x y ⟨hat, p, π, id, hn, hpk, hlevel, hc⟩ hr -
  exact ⟨hat.rely hr, p, π, id, hr.kind _ _ hn, hpk, hlevel, hc.later hr.toLater⟩

/-- What a pass of the loop ends in. -/
abbrev InsertPassed (A : Tree V) (t : ℕ) (tid : UInt64) (k : Key) (r : InsertState V ⊕ Unit)
    (x : World V) : Prop :=
  Sum.elim (fun c => InsertHead A t tid k c x) (fun _ => Holding t tid true [] [] x) r

theorem InsertPassed.stable : (artProtocol A U).Stable t (InsertPassed A t tid k) :=
  Stable.elim InsertHead.stable Holding.stable

theorem insertAndUnlock_wp (hi : Inv A U x) (hat : Holding t tid false [] [] x)
    (hc : Parent A c p π x) (hτ : V.nodeType c.nextNode.special = some τ)
    (hs : Seen c.nextNode (.node p π id) v (fun o => o.getChild τ b = .null) x)
    (hload : A.loadKey tid = p ++ π ++ [b] ++ r) :
    artWp A ids U t (insertAndUnlock tid c.nextNode c.nextNodeTinyPtr v c.node c.parentVersion
      c.nodeKey b) (fun _ => Holding t tid true [] []) (Failing t tid k) x := by
  unfold insertAndUnlock
  by_cases hV : V.typed = true
  · rw [if_pos hV]
    refine wpOr_bind hi Failing.stable (wp_read hi Failing.stable Stable.wpOr (hi.live _ _ hs.kind)
      fun y hy hiy => ?_)
    obtain ⟨M, τ', hin, -⟩ := hiy.node (hs.rely hy).kind
    obtain rfl : τ' = τ := Option.some.inj (hin.nodeType.symm.trans hτ)
    refine wpOr_bind hiy Failing.stable (wp_defined Stable.wpOr hin.classOf
      (wpOr_bind hiy Failing.stable (wp_read hiy Failing.stable Stable.wpOr
      (hiy.live _ _ (hs.rely hy).kind) fun z hz hiz => ?_)))
    have hz := hy.trans hz
    have hsz := hs.rely hz
    have hcz := hc.later hz.toLater
    cases hfull : (z.get c.nextNode).isFull τ' with
    | false =>
      rw [Bool.not_false, if_pos rfl]
      exact insertInPlace_wp hiz (hat.rely hz) hτ (hsz.imp fun _ hnull =>
        ⟨hfull, hnull⟩) hload hcz.seen
    | true =>
      rw [Bool.not_true, if_neg Bool.false_ne_true]
      cases hcz with
      | root hp hπ hnode hnext =>
        -- the root is never full
        rw [hnext, V.nodeType_n256S] at hτ
        cases hτ
        cases hfull
      | edge hp hnode hs₀ hd =>
        rw [hnode]
        exact grow_wp hiz (hat.rely hz) hs₀ hp hτ (hsz.imp fun _ hnull => ⟨hfull, hnull⟩) hload
  · rw [if_neg hV]
    exact insertInPlace_wp hi hat hτ (hs.imp fun _ hnull =>
      ⟨isFull_of_not_typed hτ (Bool.not_eq_true _ ▸ hV), hnull⟩) hload hc.seen

theorem insertChildRound_wp (hU : PrefixFree U) (hi : Inv A U x) (hat : Holding t tid false [] [] x)
    (hload : A.loadKey tid = k) (hc : Parent A c p π x)
    (hs : Seen c.nextNode (.node p π id) v (fun _ => True) x) (hpre : p ++ π <+: k)
    (hlong : p ≠ [] → ¬ k <+: p ++ π) :
    artWp A ids U t (A.insertChildRound k tid c v (p ++ π).length) (InsertPassed A t tid k)
      (Failing t tid k) x := by
  obtain ⟨τ, hτ⟩ := hi.nodeType hs.kind
  unfold insertChildRound
  cases hbyte : k[(p ++ π).length]? with
  | none =>
    -- the key ends at the node, which is the root
    have heq : p ++ π = k := hpre.eq_of_length (le_antisymm hpre.length_le
      (List.getElem?_eq_none_iff.mp hbyte))
    refine wpOr_bind hi Failing.stable (wp_outOfBounds Failing.stable hbyte ?_)
    cases hc with
    | root hp hπ hnode hnext =>
      subst hp hπ
      exact ⟨heq.symm, hat⟩
    | edge hp hnode hs hd =>
      refine absurd (heq ▸ List.prefix_rfl) (hlong ?_)
      rw [← hp]
      simp
  | some b =>
    obtain ⟨r, hr⟩ : p ++ π ++ [b] <+: k := Answers.isPrefix_snoc hpre hbyte
    refine wpOr_bind hi Failing.stable (wp_inBounds Stable.wpOr hbyte (wpOr_bind hi Failing.stable
      (wp_getChild hi Failing.stable Stable.wpOr hs.kind hτ fun y hy hiy => ?_)))
    have hsy : Seen c.nextNode (.node p π id) v (fun o =>
      o.getChild τ b = (y.get c.nextNode).getChild τ b) y :=
      (hs.rely hy).imp fun _ _ => rfl
    have haty := hat.rely hy
    have hcy := hc.later hy.toLater
    generalize (y.get c.nextNode).getChild τ b = q at hsy
    refine wpOr_bind hiy Failing.stable (wp_readUnlockOrRestart hiy Failing.stable Stable.wpOr hsy
      haty fun z hz hiz hw _ => ?_)
    have hatz := haty.rely hz
    have hcz := hcy.later hz.toLater
    have hsz := hsy.rely hz
    obtain ⟨-, ⟨rfl, -⟩ | ⟨m, hd, hm⟩⟩ := hsz.child hiz hw hτ
    · rw [if_pos rfl]
      exact wpOr_bind hiz Failing.stable (wpOr_mono (insertAndUnlock_wp hiz hatz hcz hτ hsz
        (hload.trans hr.symm)) (fun _ u _ hu => wpOr_pure InsertPassed.stable hu) fun _ _ _ h => h)
    rw [if_neg hd.1]
    have hspecial := (dereference_of_denotes hd).2
    have hkinds := hiz.on_edge hm
    have hnext : ∀ u, Rely t z u → Inv A U u → artWp A ids U t (if isLeaf q = true then do
          A.splitLeaf k tid c.nextNode v q b (p ++ π).length
          pure (Sum.inr ())
        else do
          let id ← getId c.nextNode
          let nextNode ← A.dereference q (idHash id b)
          pure (Sum.inl ⟨some c.nextNode, b, q, nextNode, v, (p ++ π).length + 1⟩))
        (InsertPassed A t tid k) (Failing t tid k) u := by
      intro u hu hiu
      have hatu := hatz.rely hu
      have hsu := hsz.rely hu
      rcases hkinds with ⟨rest, w, -, hkm, hms⟩ | ⟨π', id', τ', -, hkm, hτ'⟩
      · rw [if_pos (by simp [isLeaf, hspecial, hms])]
        exact wpOr_bind hiu Failing.stable (wpOr_mono (splitLeaf_wp hU hiu hatu hτ hsu rfl
          (hu.kind m _ hkm) hd hload ⟨r, hr⟩) (fun _ z _ hz => wpOr_pure InsertPassed.stable hz)
          fun _ _ _ h => h)
      · have hne : ¬ isLeaf q = true := by
          have := V.nodeType_ne_leafS (c := m.special) (by rw [hτ']; exact Option.some_ne_none τ')
          simp [isLeaf, hspecial, this]
        rw [if_neg hne]
        refine wpOr_bind hiu Failing.stable (wp_getId hiu Failing.stable Stable.wpOr hsu.kind
          fun u₁ h₁ hi₁ => ?_)
        refine wpOr_bind hi₁ Failing.stable (wp_dereference Stable.wpOr hd hτ'
          (wpOr_pure InsertPassed.stable ?_))
        refine ⟨hatu.rely h₁, _, π', id', h₁.kind m _ (hu.kind m _ hkm), ⟨r, hr⟩, ?_,
          .edge rfl rfl ?_ hd⟩
        · simp only [List.length_append, List.length_singleton]
        · exact (hsu.rely h₁).imp fun _ _ => trivial
    cases hcn : c.node with
    | none => exact hnext z (Rely.refl t z) hiz
    | some n₀ =>
      obtain ⟨κ, hs₀⟩ := hcz.seen n₀ hcn
      exact wpOr_bind hiz Failing.stable (wp_readUnlockOrRestart hiz Failing.stable Stable.wpOr hs₀
        hatz fun u hu hiu _ _ =>
        hnext u hu hiu)

theorem insertRound_wp (hU : PrefixFree U) (hi : Inv A U x) (hload : A.loadKey tid = k)
    (hc : InsertHead A t tid k c x) :
    artWp A ids U t (A.insertRound k tid c) (InsertPassed A t tid k) (Failing t tid k) x := by
  obtain ⟨p, π, id, hn, hpk, hlevel, hparent⟩ := hc.node
  refine wpOr_bind hi Failing.stable (wp_readLockOrRestart hi Failing.stable Stable.wpOr hn
    hc.holding fun y hy hiy hs => ?_)
  have haty := hc.holding.rely hy
  have hkU : k ∈ U := hload ▸ (hiy.insertions.mem _ _ (hiy.doing t tid haty.doing)).1
  have hroot : p = [] → π = [] := by
    intro hp
    cases hparent with
    | root _ hπ => exact hπ
    | edge hp' =>
      rw [hp] at hp'
      simp at hp'
  have hlong : p ≠ [] → ¬ k <+: p ++ π := not_prefix_of_node hU hkU hiy hs.kind
  generalize y.word c.nextNode = v at hs
  rw [hlevel]
  refine wpOr_bind hiy Failing.stable
    (wpOr_mono (wp_later (K := fun z => Seen c.nextNode (.node p π id) v (fun _ => True) z ∧
    Parent A c p π z) (fun _ _ hl h => ⟨h.1.later hl, h.2.later hl⟩)
    (checkPrefixPessimistic_wp hiy ⟨haty, hs.kind⟩ hroot hlong hpk) ⟨hs, hparent.later hy.toLater⟩)
    (fun res z hiz hz => ?_) fun _ _ _ h => h)
  obtain ⟨⟨hatz, hres⟩, hsz, hcz⟩ := hz
  rw [← hlevel]
  cases hres with
  | matched hpre => exact insertChildRound_wp hU hiz hatz.holding hload hcz hsz hpre hlong
  | @noMatch μ r rest a d hπ had hkd hrest =>
    subst hπ
    obtain ⟨r', hr'⟩ := hkd
    cases hcz with
    | root _ hπ =>
      -- the root has no prefix
      simp at hπ
    | edge hp hnode hs₀ hd =>
      rw [hnode, hlevel]
      exact wpOr_bind hiz Failing.stable
        (wpOr_mono (splitPrefix_wp hiz hatz.holding hs₀ hp hsz hd had hload hr'.symm hrest)
          (fun _ u _ hu => wpOr_pure InsertPassed.stable hu) fun _ _ _ h => h)

/-! ### The whole call -/

theorem insertAttempt_wp (hU : PrefixFree U) (hi : Inv A U x) (hat : Holding t tid false [] [] x)
    (hload : A.loadKey tid = k) :
    artWp A ids U t (A.insertAttempt k tid) (fun _ => Holding t tid true [] [])
      (Failing t tid k) x := by
  obtain ⟨id, hroot⟩ := kind_root hi
  exact wpOr_forever (InsertHead A t tid k) InsertHead.stable Holding.stable Failing.stable
    (fun c z hiz hc => insertRound_wp hU hiz hload hc) hi
    ⟨hat, [], [], id, hroot, List.nil_prefix, rfl, .root rfl rfl rfl hi.shape.root_special⟩

/-- A call under `EpocheGuard`. -/
theorem wp_guarded {f : ArtM V α} {Q : α → World V → Prop} {E : Leave → World V → Prop}
    (hi : Inv A U x) (hQ : (artProtocol A U).Stable t Q) (hE : (artProtocol A U).Stable t E)
    (h : ∀ y, Rely t x y → Inv A U y → artWp A ids U t f Q E y) :
    artWp A ids U t (guarded f) Q E x := by
  have hout : ∀ r y z, Throwing.Outcome Q E r y → Rely t y z → Inv A U z →
    Throwing.Outcome Q E r z := by
    intro r y z hr hz hiz
    cases r with
    | ok a => exact hQ a y z hr hz hiz
    | error e => exact hE e y z hr hz hiz
  refine wp_bind hi (wp_call fun y hy hiy b s' hs => ?_)
  obtain ⟨-, -, rfl⟩ := hs
  obtain ⟨hi', hr⟩ := quiet_step hiy (show (y.1.heap.enter t).tables = _ from rfl)
  refine ⟨y.2, hi', fun u _ => hr u, wp_ret fun z hz hiz =>
    wp_bind hiz (wp_mono (h z ((hy.trans (hr t)).trans hz) hiz) fun r y hiy hout' =>
    wp_bind hiy (wp_call fun z hz hiz e s' hs => ?_))⟩
  obtain ⟨⟨s, hs, htables⟩, rfl, rfl⟩ := hs
  rw [Option.mem_def] at hs
  simp only [ArtOp.exec, hs]
  obtain ⟨hi', hr⟩ := quiet_step hiz htables
  exact ⟨z.2, hi', fun u _ => hr u, wp_ret fun w hw hiw => wp_ret fun w' hw' hiw' =>
    hout _ _ _ hout' (((hz.trans (hr t)).trans hw).trans hw') hiw'⟩

/-- How an insertion of `k` fails, with nothing inserted. -/
structure Failed (t : ℕ) (tid : UInt64) (k : Key) (e : Leave) (x : World V) : Prop where
  fails : Fails k e
  holding : Holding t tid false [] [] x

theorem Failed.stable :
    (artProtocol A U).Stable t (Failed (V := V) t tid k) :=
  fun _ _ _ h hr _ => ⟨h.fails, h.holding.rely hr⟩

/-- An insertion of a key of the universe puts it into the tree, unless a table is full or the key
is empty. -/
theorem insert_wp (hU : PrefixFree U) (hi : Inv A U x) (hat : Holding t tid false [] [] x)
    (hload : A.loadKey tid = k) :
    artWp A ids U t (A.insert k tid) (fun _ => Holding t tid true [] []) (Failed t tid k) x := by
  have hE : (artProtocol A U).Stable t (Failed (V := V) t tid k) := Failed.stable
  refine wp_guarded hi Holding.stable hE fun y hy hiy => ?_
  refine wpOr_retrying (Holding t tid false [] []) Holding.stable Holding.stable hE
    (fun z hiz hz => ?_) hiy (hat.rely hy)
  refine wpOr_mono (insertAttempt_wp hU hiz hz hload) (fun _ _ _ h => h) fun e u _ he => ?_
  cases e with
  | restart => exact he
  | overflow f => exact ⟨trivial, he⟩
  | outOfBounds => exact ⟨he.1, he.2⟩
  | _ => exact he.elim

end Tree

end TinyPointerTrees.Art
