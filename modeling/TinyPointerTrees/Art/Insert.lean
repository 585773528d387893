import TinyPointerTrees.Art.Answers
import TinyPointerTrees.Art.Restructure

/-!
# `insert`, alone

`insert_spec` — an insertion ends: the tree has the key, or it is left as `Left` says.
It reads keys out of bounds exactly when the key does not fit, which is when it is in
the tree, extends a key of the tree, or is extended by one.
-/

namespace TinyPointerTrees.Art

open Conc ArtM

variable {V : Variant} {A : Tree V} {ids : ℕ → UInt64} {s s' : Heap V}
  {R R' : RadixTree UInt8 UInt64} {M M' : Key → Option Ref} {b : ℕ} {k p : Key} {π : List UInt8}
  {n m : Ref} {t : NodeType} {o : Obj V} {tid : UInt64}

namespace Tree

/-! ### A leaf below a node -/

/-- `getAnyChildTid` answers the value of a key that goes through the node. -/
theorem getAnyChildTid_spec (h : Settled A s R M b) (hp : R.item p = some ⟨π, none⟩)
    (hn : M p = some n) (hne : p ≠ []) :
    EndsOr (artHandler A.indexer ids 0) (A.getAnyChildTid n) s (fun v s' => s' = s ∧
      ∃ k', R.Maps k' v ∧ p ++ π <+: k') (Stuck s M) := by
  obtain ⟨N, hN⟩ := R.bounded
  refine EndsOr.forever (fun m n s' => s' = s ∧ ∃ q π', M q = some n ∧
    R.item q = some ⟨π', none⟩ ∧ q ≠ [] ∧ p ++ π <+: q ++ π' ∧ m = N - q.length) ?_
      (m := N - p.length) ⟨rfl, p, π, hn, hp, hne, List.prefix_rfl, rfl⟩
  rintro _ n s' ⟨rfl, q, π', hq, hitem, hq0, hpre, rfl⟩
  obtain ⟨n', t, hn', hl, hi⟩ := h.shape.inner hitem
  rw [hq] at hn'
  cases hn'
  -- the node has a child, so `getAnyChild` answers one
  obtain ⟨c₀, -, -, hc₀, -⟩ := R.branching q _ hitem rfl hq0
  have hnn : (s'.get n).getChild t c₀ ≠ .null := fun h₀ =>
    hc₀ (h.shape.eq_none_iff.mp (hi.getChild_eq_null_iff.mp h₀))
  obtain ⟨hchild, hnull⟩ := hi.sound.getAnyChild hnn
  unfold anyChildRound
  refine EndsOr.bind (h.ends_readLockOrRestart hq (fun _ =>
    EndsOr.bind (ends_getAnyChild hl hi.classOf (EndsOr.bind (ends_readUnlockOrRestart hl rfl
    (EndsOr.bind (ends_getId hl ?_)))))) id)
  generalize (s'.get n).getAnyChild t = e at hchild hnull
  obtain ⟨c, ptr⟩ := e
  dsimp only at hchild hnull ⊢
  rw [hchild] at hnull ⊢
  obtain ⟨m, hm⟩ := Option.ne_none_iff_exists'.mp fun h₀ => hnull (hi.getChild_eq_null_iff.mpr h₀)
  have hd : Denotes A.indexer ((s'.get n).getChild t c) (idHash (s'.get n).id c) (some m) :=
    hi.denotes hm
  have hspecial := (dereference_of_denotes hd).2
  have hml := h.shape.live hm
  have hpath : p ++ π <+: q ++ π' ++ [c] := hpre.trans (List.prefix_append _ _)
  rcases h.shape.item hm with ⟨r, v, hleaf, hms, hmv⟩ | ⟨π'', t', hinner, hi'⟩
  · have hisLeaf : isLeaf ((s'.get n).getChild t c) = true := by simp [isLeaf, hspecial, hms]
    rw [if_pos hisLeaf, ← hms]
    refine EndsOr.bind (ends_derefTable hd (EndsOr.bind (ends_value hml (EndsOr.pure ⟨rfl, ?_⟩))))
    rw [hmv]
    exact ⟨_, ⟨_, _, hleaf, rfl, rfl⟩, hpath.trans (List.prefix_append _ _)⟩
  · have hnleaf : ¬ isLeaf ((s'.get n).getChild t c) = true := by
      have := V.nodeType_ne_leafS (c := m.special)
        (by rw [hi'.nodeType]; exact Option.some_ne_none t')
      simp [isLeaf, hspecial, this]
    rw [if_neg hnleaf]
    refine EndsOr.bind (ends_dereference hd hi'.nodeType (EndsOr.pure ?_))
    have hlen := hN _ _ hinner
    simp only [List.length_append, List.length_singleton] at hlen
    refine ⟨N - (q ++ π' ++ [c]).length, ?_, rfl, q ++ π' ++ [c], π'', hm, hinner, by simp, ?_, rfl⟩
    · simp only [List.length_append, List.length_singleton]
      omega
    · exact hpath.trans (List.prefix_append _ _)

/-! ### Comparing the whole prefix -/

/-- What `checkPrefixPessimistic` answers at the node at `p` with prefix `π`. -/
inductive Compared (p : Key) (π : List UInt8) (k : Key) : PessimisticResult → Prop
  /-- The key goes on behind the prefix. -/
  | matched (h : p ++ π <+: k) : Compared p π k (.matched (p ++ π).length)
  /-- The key leaves the prefix behind `μ`; of what follows there, the bytes that are stored are
  given. -/
  | noMatch {μ r rest : List UInt8} {a d : UInt8} (hπ : π = μ ++ a :: r) (had : a ≠ d)
      (hk : p ++ μ ++ [d] <+: k)
      (hrest : ∀ j : Fin maxStoredPrefixLength, ∀ b, r[j.val]? = some b →
        rest.getD j.val 0 = b) : Compared p π k (.noMatch (p ++ μ).length a rest)

/-- A byte of the loop of `checkPrefixPessimistic`. -/
theorem comparePrefix_succ (pick : ArtM V UInt64) (prevLevel remaining i level : ℕ) (kt : Key) :
    A.comparePrefix pick o k prevLevel (remaining + 1) i level kt =
      (if i = maxStoredPrefixLength then A.loadKey <$> pick else pure kt) >>= fun kt =>
      (if h : i < maxStoredPrefixLength then pure (o.prefixBytes ⟨i, h⟩) else byteAt kt level) >>=
      fun curKey => byteAt k level >>= fun b => if curKey ≠ b then
        if o.prefixCount > maxStoredPrefixLength then
          (if i < maxStoredPrefixLength then A.loadKey <$> pick else pure kt) >>= fun kt =>
          inBounds (slice kt (level + 1) (min (o.prefixCount - (level - prevLevel) - 1)
            maxStoredPrefixLength)) >>= fun src =>
          pure (.noMatch level curKey src)
        else pure (.noMatch level curKey ((o.getPrefix.drop (i + 1)).take (o.prefixCount - i - 1)))
      else A.comparePrefix pick o k prevLevel remaining (i + 1) (level + 1) kt := by
  rw [comparePrefix]
  split_ifs <;> rfl

/-- The bytes that are copied from the key of a leaf below the node. -/
theorem slice_below {i : ℕ} {kt : Key} (hkt : p ++ π <+: kt) (hi : i < π.length) :
    ∃ src, slice kt (p.length + i + 1) (min (π.length - i - 1) maxStoredPrefixLength) = some src ∧
      ∀ j : Fin maxStoredPrefixLength, ∀ b, (π.drop (i + 1))[j.val]? = some b →
      src.getD j.val 0 = b := by
  obtain ⟨z, rfl⟩ := hkt
  have hle : p.length + i + 1 + min (π.length - i - 1) maxStoredPrefixLength ≤
    (p ++ π ++ z).length := by
    simp only [List.length_append]
    omega
  refine ⟨_, if_pos hle, fun j b hb => ?_⟩
  have hj := (List.getElem?_eq_some_iff.mp hb).1
  rw [List.length_drop] at hj
  have hdrop : (p ++ π ++ z).drop (p.length + i + 1) = π.drop (i + 1) ++ z := by
    rw [List.append_assoc, Nat.add_assoc, List.drop_append, List.drop_eq_nil_of_le (by omega),
      List.nil_append, Nat.add_sub_cancel_left, List.drop_append_of_le_length (by omega)]
  rw [hdrop, List.getD_eq_getElem?_getD, List.getElem?_take_of_lt (lt_min (by omega) j.isLt),
    List.getElem?_append_left (by rw [List.length_drop]; omega), hb]
  rfl

/-- The key of a leaf below the node, if it is asked for. -/
theorem ends_keyBelow {pick : ArtM V UInt64} {q : Key} {c : Prop} [Decidable c] {kt : Key}
    {Q : Key → Heap V → Prop} {E : Leave → Heap V → Prop}
    (hpick : EndsOr (artHandler A.indexer ids 0) pick s (fun v s' => s' = s ∧ q <+: A.loadKey v) E)
    (hq : ∀ kt, q <+: kt → Q kt s) (hkt : ¬ c → Q kt s) :
    EndsOr (artHandler A.indexer ids 0) (if c then A.loadKey <$> pick else pure kt) s Q E := by
  split_ifs with hc
  · refine EndsOr.map (hpick.mono (fun v s' hv => ?_) fun _ _ => id)
    obtain ⟨rfl, hpre⟩ := hv
    exact hq _ hpre
  · exact EndsOr.pure (hkt hc)

/-- The loop answers right, whichever leaf is picked, and reads out of bounds only if the key ends
inside of the prefix. -/
theorem comparePrefix_spec {pick : ArtM V UInt64} {E : Leave → Heap V → Prop}
    (hin : Inner A.indexer M p π n t o)
    (hpick : EndsOr (artHandler A.indexer ids 0) pick s (fun v s' => s' = s ∧
      p ++ π <+: A.loadKey v) E)
    (hshort : k <+: p ++ π → k.length < (p ++ π).length → E .outOfBounds s) {remaining i : ℕ}
    {kt : Key} (hsum : i + remaining = π.length) (hpre : p ++ π.take i <+: k)
    (hkt : maxStoredPrefixLength < i → p ++ π <+: kt) :
    EndsOr (artHandler A.indexer ids 0) (A.comparePrefix pick o k p.length remaining i
      (p.length + i) kt) s (fun r s' => s' = s ∧ Compared p π k r) E := by
  induction remaining generalizing i kt with
  | zero =>
    obtain rfl : i = π.length := by omega
    rw [List.take_length] at hpre
    rw [comparePrefix, ← List.length_append]
    exact EndsOr.pure ⟨rfl, .matched hpre⟩
  | succ remaining ih =>
    have hi : i < π.length := by omega
    have hlen : (p ++ π.take i).length = p.length + i := by
      rw [List.length_append, List.length_take, min_eq_left hi.le]
    have hπ : π = π.take i ++ π[i] :: π.drop (i + 1) := by
      rw [← List.drop_eq_getElem_cons hi, List.take_append_drop]
    rw [comparePrefix_succ]
    refine EndsOr.bind (EndsOr.mono (Q := fun kt s' => s' = s ∧
      (maxStoredPrefixLength ≤ i → p ++ π <+: kt)) (ends_keyBelow hpick (fun kt hkt =>
      ⟨rfl, fun _ => hkt⟩) fun hi => ⟨rfl, fun hle => hkt (by omega)⟩)
      ?_ fun _ _ => id)
    rintro kt s' ⟨rfl, hkt⟩
    -- the byte of the prefix
    refine EndsOr.bind (EndsOr.mono (Q := fun c s'' => s'' = s' ∧ c = π[i])
      (E := fun _ _ => False) ?_ ?_ fun _ _ => False.elim)
    · split_ifs with hlt
      · exact EndsOr.pure ⟨rfl, hin.stored ⟨i, hlt⟩ _ (List.getElem?_eq_getElem hi)⟩
      · obtain ⟨z, rfl⟩ := hkt (by omega)
        refine ends_inBounds (b := π[i]) ?_ ⟨rfl, rfl⟩
        rw [List.append_assoc, List.getElem?_append_right (by omega), Nat.add_sub_cancel_left,
          List.getElem?_append_left hi, List.getElem?_eq_getElem hi]
    rintro _ s'' ⟨rfl, rfl⟩
    -- the byte of the key
    cases hbyte : k[p.length + i]? with
    | none =>
      have heq : p ++ π.take i = k := by
        refine hpre.eq_of_length (le_antisymm hpre.length_le ?_)
        rw [hlen]
        exact List.getElem?_eq_none_iff.mp hbyte
      refine EndsOr.bind (ends_outOfBounds hbyte (hshort ?_ ?_))
      · rw [← heq, List.prefix_append_right_inj]
        exact List.take_prefix i π
      · rw [← heq, hlen, List.length_append]
        omega
    | some d =>
      have hnext : p ++ π.take i ++ [d] <+: k := by
        obtain ⟨z, rfl⟩ := hpre
        rw [← hlen] at hbyte
        cases z with
        | nil => simp at hbyte
        | cons d' z =>
          obtain rfl : d' = d := by simpa using hbyte
          simp
      refine EndsOr.bind (ends_inBounds hbyte ?_)
      by_cases hsame : π[i] = d
      · rw [if_neg (not_not.mpr hsame)]
        refine ih (i := i + 1) (by omega) ?_ fun hlt => hkt (by omega)
        rw [List.take_succ_eq_append_getElem hi, ← List.append_assoc, hsame]
        exact hnext
      rw [if_pos hsame]
      by_cases hlong : o.prefixCount > maxStoredPrefixLength
      · -- the bytes that follow are those of the key of a leaf
        rw [if_pos hlong]
        refine EndsOr.bind (EndsOr.mono (Q := fun kt u => u = s'' ∧ p ++ π <+: kt)
          (ends_keyBelow hpick (fun kt hkt => ⟨rfl, hkt⟩) fun hi => ⟨rfl, hkt (by omega)⟩)
          ?_ fun _ _ => id)
        rintro kt' u ⟨rfl, hkt'⟩
        obtain ⟨src, hsrc, hget⟩ := slice_below hkt' hi
        rw [hin.prefixCount, Nat.add_sub_cancel_left, hsrc]
        refine EndsOr.bind (ends_inBounds rfl (EndsOr.pure ⟨rfl, ?_⟩))
        rw [← hlen]
        exact .noMatch hπ hsame hnext hget
      · rw [if_neg hlong]
        refine EndsOr.pure ⟨rfl, ?_⟩
        rw [← hlen]
        refine .noMatch hπ hsame hnext fun j b hb => ?_
        have hj := (List.getElem?_eq_some_iff.mp hb).1
        rw [List.length_drop] at hj
        rw [hin.prefixCount] at hlong ⊢
        rw [List.getElem?_drop] at hb
        rw [List.getD_eq_getElem?_getD, List.getElem?_take_of_lt (by omega),
          List.getElem?_drop, ← List.getD_eq_getElem?_getD]
        exact hin.getD_getPrefix ⟨i + 1 + j.val, by omega⟩ hb

theorem comparePrefix_getAnyChildTid (h : Settled A s R M b) (hb : b + 4 ≤ 2 ^ 62)
    (hp : R.item p = some ⟨π, none⟩) (hn : M p = some n) (hne : p ≠ []) {remaining i : ℕ} {kt : Key}
    (hsum : i + remaining = π.length) (hpre : p ++ π.take i <+: k)
    (hkt : maxStoredPrefixLength < i → p ++ π <+: kt) :
    EndsOr (artHandler A.indexer ids 0) (A.comparePrefix (A.getAnyChildTid n) (s.get n) k p.length
      remaining i (p.length + i) kt) s (fun r s' => s' = s ∧ Compared p π k r)
      (Left A s R M k b) := by
  obtain ⟨n', t, hn', hl, hin⟩ := h.shape.inner hp
  obtain rfl : n = n' := Option.some.inj (hn.symm.trans hn')
  refine comparePrefix_spec hin ?_ (fun hends _ => ?_) hsum hpre hkt
  · refine (getAnyChildTid_spec h hp hn hne).mono (fun v s' hv => ?_) fun e s' => .restart
    obtain ⟨rfl, k', hk', hbelow⟩ := hv
    exact ⟨rfl, h.shape.keyed k' v hk' ▸ hbelow⟩
  · exact (Locked.refl h.wf).left_outOfBounds h hb (RadixTree.not_fits_of_ends hp hne hends)

theorem checkPrefixPessimistic_spec (h : Settled A s R M b) (hb : b + 4 ≤ 2 ^ 62)
    (hp : R.item p = some ⟨π, none⟩) (hn : M p = some n) (hpk : p <+: k) :
    EndsOr (artHandler A.indexer ids 0) (A.checkPrefixPessimistic n k p.length) s (fun r s' =>
      s' = s ∧ Compared p π k r) (Left A s R M k b) := by
  obtain ⟨n', t, hn', hl, hin⟩ := h.shape.inner hp
  obtain rfl : n = n' := Option.some.inj (hn.symm.trans hn')
  unfold checkPrefixPessimistic
  refine EndsOr.bind (ends_read hl ?_)
  rw [hin.prefixCount]
  by_cases hne : p = []
  · -- the root has no prefix
    subst hne
    rw [R.root] at hp
    cases hp
    exact EndsOr.pure ⟨rfl, .matched List.nil_prefix⟩
  · exact comparePrefix_getAnyChildTid (i := 0) h hb hp hn hne (Nat.zero_add _) (by simpa using hpk)
      fun hlt => absurd hlt (Nat.not_lt_zero _)

/-! ### The way down -/

/-- The variables of `insert` at the head of the loop: the node is at the path `p` of the key, and
the variables for its parent are right. -/
structure Walking (A : Tree V) (s : Heap V) (R : RadixTree UInt8 UInt64) (M : Key → Option Ref)
    (k p : Key) (c : InsertState V) : Prop where
  node : M p = some c.nextNode
  item : ∃ π, R.item p = some ⟨π, none⟩
  path : p <+: k
  level : c.level = p.length
  parent : (p = [] ∧ c.node = none) ∨ ∃ p₀ π₀ n₀, R.item p₀ = some ⟨π₀, none⟩ ∧ M p₀ = some n₀ ∧
    p₀ ++ π₀ ++ [c.nodeKey] = p ∧ c.node = some n₀ ∧
    c.parentVersion = (s.get n₀).typeVersionLockObsolete ∧ Free (s.get n₀).typeVersionLockObsolete ∧
    Denotes A.indexer c.nextNodeTinyPtr (idHash (s.get n₀).id c.nodeKey) (some c.nextNode)

/-- What a pass of the loop does: it goes on one level below, or the key is inserted. -/
def Walked (A : Tree V) (s : Heap V) (R : RadixTree UInt8 UInt64) (M : Key → Option Ref) (k : Key)
    (tid : UInt64) (b level : ℕ) (r : InsertState V ⊕ Unit) (s' : Heap V) : Prop :=
  Sum.elim (fun c => s' = s ∧ level < c.level ∧ c.level ≤ k.length ∧ ∃ p, Walking A s R M k p c)
    (fun _ => Inserted A s R M k tid b s') r

variable {c : InsertState V} {d : UInt8} {r : List UInt8}

/-- A class that is told by no switch is never full. -/
theorem isFull_of_not_typed (ht : V.nodeType n.special = some t) (hV : V.typed = false) :
    o.isFull t = false := by
  rw [V.nodeType_of_not_typed hV ht]
  rfl

theorem insertAndUnlock_spec (h : Settled A s R M b) (hb : b + 4 ≤ 2 ^ 62)
    (hc : Walking A s R M k p c) (hp : R.item p = some ⟨π, none⟩)
    (hfree : Free (s.get c.nextNode).typeVersionLockObsolete)
    (hnone : R.item (p ++ π ++ [d]) = none) (hk : k = p ++ π ++ [d] ++ r)
    (hload : A.loadKey tid = k) :
    EndsOr (artHandler A.indexer ids 0) (insertAndUnlock tid c.nextNode c.nextNodeTinyPtr
      (s.get c.nextNode).typeVersionLockObsolete c.node c.parentVersion c.nodeKey d) s (fun _ s' =>
      Inserted A s R M k tid b s') (Left A s R M k b) := by
  obtain ⟨n', t, hn', hl, hin⟩ := h.shape.inner hp
  obtain rfl : c.nextNode = n' := Option.some.inj (hc.node.symm.trans hn')
  have hplace : (s.get c.nextNode).isFull t = false → EndsOr (artHandler A.indexer ids 0)
    (insertInPlace tid c.nextNode
      (s.get c.nextNode).typeVersionLockObsolete c.node c.parentVersion d) s
      (fun _ s' => Inserted A s R M k tid b s') (Left A s R M k b) := by
    intro hfull
    refine insertInPlace_spec h hb hp hc.node hin.nodeType hfull hnone hk hload hfree fun m hm => ?_
    rcases hc.parent with ⟨-, hparent⟩ | ⟨p₀, π₀, n₀, -, hn₀, -, hparent, hv, -, -⟩
    · rw [hparent] at hm
      cases hm
    · rw [hparent] at hm
      cases hm
      exact ⟨h.shape.live hn₀, hv.symm⟩
  unfold insertAndUnlock
  by_cases hV : V.typed = true
  · rw [if_pos hV]
    refine EndsOr.bind (ends_read hl
      (EndsOr.bind (ends_defined hin.classOf (EndsOr.bind (ends_read hl ?_)))))
    by_cases hfull : (s.get c.nextNode).isFull t = false
    · rw [hfull, Bool.not_false, if_pos rfl]
      exact hplace hfull
    · rw [Bool.not_eq_false] at hfull
      rw [hfull, Bool.not_true, if_neg Bool.false_ne_true]
      rcases hc.parent with ⟨rfl, -⟩ | ⟨p₀, π₀, n₀, hp₀, hn₀, hx, hparent, hv, hfree₀, hold⟩
      · -- the root is never full
        have hroot := h.shape.root.symm.trans hc.node
        have hspecial := h.shape.root_special
        rw [Option.some.inj hroot] at hspecial
        have ht := hin.nodeType
        rw [hspecial, V.nodeType_n256S] at ht
        cases ht
        cases hfull
      · rw [hparent, hv]
        exact grow_spec h hb hp₀ hn₀ hx hp hc.node hin.nodeType hfull hnone hk hload
          hfree₀ hfree hold
  · rw [if_neg hV]
    exact hplace (isFull_of_not_typed hin.nodeType (Bool.not_eq_true _ ▸ hV))

theorem insertChildRound_spec (h : Settled A s R M b) (hb : b + 4 ≤ 2 ^ 62) (hk0 : k ≠ [])
    (hload : A.loadKey tid = k) (hc : Walking A s R M k p c) (hp : R.item p = some ⟨π, none⟩)
    (hfree : Free (s.get c.nextNode).typeVersionLockObsolete) (hpre : p ++ π <+: k) :
    EndsOr (artHandler A.indexer ids 0) (A.insertChildRound k tid c
      (s.get c.nextNode).typeVersionLockObsolete (p ++ π).length) s (Walked A s R M k tid b c.level)
      (Left A s R M k b) := by
  obtain ⟨n', t, hn', hl, hin⟩ := h.shape.inner hp
  obtain rfl : c.nextNode = n' := Option.some.inj (hc.node.symm.trans hn')
  unfold insertChildRound
  cases hbyte : k[(p ++ π).length]? with
  | none =>
    -- the key ends at the node
    have heq : p ++ π = k := hpre.eq_of_length (le_antisymm hpre.length_le
      (List.getElem?_eq_none_iff.mp hbyte))
    refine EndsOr.bind (ends_outOfBounds hbyte ((Locked.refl h.wf).left_outOfBounds h hb ?_))
    by_cases hp0 : p = []
    · subst hp0
      rw [R.root] at hp
      cases hp
      exact absurd heq.symm hk0
    · exact RadixTree.not_fits_of_ends hp hp0 (by rw [heq])
  | some d =>
    obtain ⟨r, hr⟩ : p ++ π ++ [d] <+: k := Answers.isPrefix_snoc hpre hbyte
    refine EndsOr.bind (ends_inBounds hbyte (EndsOr.bind (ends_getChild hl hin.classOf (EndsOr.bind
      (ends_readUnlockOrRestart hl rfl ?_)))))
    by_cases hnull : (s.get c.nextNode).getChild t d = .null
    · rw [if_pos hnull]
      have hnone := h.shape.eq_none_iff.mp (hin.getChild_eq_null_iff.mp hnull)
      exact EndsOr.bind ((insertAndUnlock_spec h hb hc hp hfree hnone hr.symm hload).mono
        (fun _ s' hs' => EndsOr.pure hs') fun _ _ => id)
    rw [if_neg hnull]
    obtain ⟨m, hm⟩ := Option.ne_none_iff_exists'.mp fun h₀ =>
      hnull (hin.getChild_eq_null_iff.mpr h₀)
    have hd : Denotes A.indexer ((s.get c.nextNode).getChild t d) (idHash (s.get c.nextNode).id d)
      (some m) := hin.denotes hm
    have hspecial := (dereference_of_denotes hd).2
    have hnext : EndsOr (artHandler A.indexer ids 0)
        (if isLeaf ((s.get c.nextNode).getChild t d) = true then do
          A.splitLeaf k tid c.nextNode (s.get c.nextNode).typeVersionLockObsolete
            ((s.get c.nextNode).getChild t d) d (p ++ π).length
          pure (Sum.inr ())
        else do
          let id ← getId c.nextNode
          let nextNode ← A.dereference ((s.get c.nextNode).getChild t d) (idHash id d)
          pure (Sum.inl ⟨some c.nextNode, d, (s.get c.nextNode).getChild t d, nextNode,
            (s.get c.nextNode).typeVersionLockObsolete, (p ++ π).length + 1⟩)) s
        (Walked A s R M k tid b c.level) (Left A s R M k b) := by
      rcases h.shape.item hm with ⟨rest, w, hleaf, hms, -⟩ | ⟨π', t', hinner, hin'⟩
      · rw [if_pos (by simp [isLeaf, hspecial, hms])]
        exact EndsOr.bind ((splitLeaf_spec h hb hp hc.node rfl hleaf hm hr.symm hload hfree hd).mono
          (fun _ s' hs' => EndsOr.pure hs') fun _ _ => id)
      · have hne : ¬ isLeaf ((s.get c.nextNode).getChild t d) = true := by
          simp [isLeaf, hspecial, h.shape.special_ne hinner hm]
        rw [if_neg hne]
        refine EndsOr.bind (ends_getId hl (EndsOr.bind (ends_dereference hd hin'.nodeType
          (EndsOr.pure ?_))))
        have hlen : (p ++ π ++ [d]).length = (p ++ π).length + 1 := by
          simp only [List.length_append, List.length_singleton]
        refine ⟨rfl, ?_, ?_, p ++ π ++ [d], hm, ⟨π', hinner⟩, ⟨r, hr⟩, hlen.symm,
          Or.inr ⟨p, π, c.nextNode, hp, hc.node, rfl, rfl, rfl, hfree, hd⟩⟩
        · show c.level < (p ++ π).length + 1
          rw [hc.level, List.length_append]
          omega
        · show (p ++ π).length + 1 ≤ k.length
          rw [← hlen, ← hr]
          exact (List.prefix_append _ _).length_le
    cases hcn : c.node with
    | none => exact hnext
    | some n₀ =>
      rcases hc.parent with ⟨-, hparent⟩ | ⟨p₀, π₀, n₀', -, hn₀, -, hparent, hv, -, -⟩
      · rw [hcn] at hparent
        cases hparent
      · rw [hcn] at hparent
        cases hparent
        exact EndsOr.bind (ends_readUnlockOrRestart (h.shape.live hn₀) hv.symm hnext)

theorem insertRound_spec (h : Settled A s R M b) (hb : b + 4 ≤ 2 ^ 62) (hk0 : k ≠ [])
    (hload : A.loadKey tid = k) (hc : Walking A s R M k p c) :
    EndsOr (artHandler A.indexer ids 0) (A.insertRound k tid c) s (Walked A s R M k tid b c.level)
      (Left A s R M k b) := by
  obtain ⟨π, hp⟩ := hc.item
  refine EndsOr.bind (h.ends_readLockOrRestart hc.node (fun hfree => EndsOr.bind ?_) .restart)
  rw [hc.level]
  refine (checkPrefixPessimistic_spec h hb hp hc.node hc.path).mono
    (fun res s' hres => ?_) fun _ _ => id
  obtain ⟨rfl, hres⟩ := hres
  rw [← hc.level]
  cases hres with
  | matched hpre => exact insertChildRound_spec h hb hk0 hload hc hp hfree hpre
  | @noMatch μ r rest a d hπ had hkd hrest =>
    subst hπ
    obtain ⟨r', hr'⟩ := hkd
    rcases hc.parent with ⟨rfl, -⟩ | ⟨p₀, π₀, n₀, hp₀, hn₀, hx, hparent, hv, hfree₀, hold⟩
    · -- the root has no prefix
      rw [R.root] at hp
      simp at hp
    · rw [hparent, hv, hc.level]
      exact EndsOr.bind ((splitPrefix_spec h hb hp₀ hn₀ hx hp hc.node had hr'.symm hload hrest
        hfree₀ hfree hold).mono (fun _ s' hs' => EndsOr.pure hs') fun _ _ => id)

variable (ids) in
theorem insertAttempt_spec (h : Settled A s R M b) (hb : b + 4 ≤ 2 ^ 62) (hk0 : k ≠ [])
    (hload : A.loadKey tid = k) :
    EndsOr (artHandler A.indexer ids 0) (A.insertAttempt k tid) s (fun _ s' =>
      Inserted A s R M k tid b s') (Left A s R M k b) := by
  refine EndsOr.forever (fun m c s' => s' = s ∧ m = k.length - c.level ∧ c.level ≤ k.length ∧
    ∃ p, Walking A s R M k p c) ?_ (m := k.length) ⟨rfl, rfl, Nat.zero_le _, [], h.shape.root,
    ⟨[], R.root⟩, List.nil_prefix, rfl, Or.inl ⟨rfl, rfl⟩⟩
  rintro m c s' ⟨rfl, rfl, -, p, hc⟩
  refine EndsOr.mono (insertRound_spec h hb hk0 hload hc) (fun res s'' hres => ?_) fun _ _ => id
  cases res with
  | inl c' =>
    obtain ⟨rfl, hlt, hle, hc'⟩ := hres
    exact ⟨k.length - c'.level, by omega, rfl, rfl, hle, hc'⟩
  | inr _ => exact hres

/-! ### The whole call -/

theorem runs_op {β : Type} {X : ℕ → BucketIndexer} {op : ArtOp V β} {v : β} :
    Prog.Runs (artHandler X ids 0) (Prog.op op) s v s' ↔ op.exec X ids 0 s = (v, s') := by
  refine (Prog.runs_call _).trans ⟨?_, fun h =>
    ⟨_, congrArg some h, (Prog.runs_ret _).mpr ⟨rfl, rfl⟩⟩⟩
  rintro ⟨⟨v', s''⟩, hx, h⟩
  obtain ⟨rfl, rfl⟩ := (Prog.runs_ret _).mp h
  exact Option.some.inj hx

/-- A call under `EpocheGuard`, when the end of its epoch is defined. -/
theorem runs_guarded {α : Type} {X : ℕ → BucketIndexer} {x : ArtM V α} {r : Except Leave α}
    (h : Prog.Runs (artHandler X ids 0) x.run (s.enter 0) r s₁)
    (hexit : s₁.exitEpocheAndCleanup X 0 = some s₂) :
    Prog.Runs (artHandler X ids 0) (guarded x).run s r s₂ := by
  refine (Prog.runs_bind _).mpr ⟨(), s.enter 0, runs_op.mpr rfl,
    (Prog.runs_bind _).mpr ⟨r, s₁, h, ?_⟩⟩
  refine (Prog.runs_bind _).mpr ⟨some (), s₂, runs_op.mpr ?_, (Prog.runs_ret _).mpr ⟨rfl, rfl⟩⟩
  rw [ArtOp.exec, hexit]

theorem exists_of_runs_guarded {α : Type} {X : ℕ → BucketIndexer} {x : ArtM V α}
    {r : Except Leave α} (h : Prog.Runs (artHandler X ids 0) (guarded x).run s r s') :
    ∃ r₀ s₁, Prog.Runs (artHandler X ids 0) x.run (s.enter 0) r₀ s₁ := by
  obtain ⟨_, _, hop, h⟩ := (Prog.runs_bind _).mp h
  cases runs_op.mp hop
  obtain ⟨r₀, s₁, h, -⟩ := (Prog.runs_bind _).mp h
  exact ⟨r₀, s₁, h⟩

theorem Inserted.cleaned (h : Inserted A (s.enter 0) R M k tid b s₁) :
    ∃ s', s₁.exitEpocheAndCleanup A.indexer 0 = some s' ∧ Inserted A s R M k tid b s' := by
  obtain ⟨hfits, R', M', hs, hmaps, hrest, hfilled⟩ := h
  obtain ⟨s', F, hexit, hc⟩ := hs.wf.exitEpocheAndCleanup (t := 0) hs.freeable
  exact ⟨s', hexit, hfits, R', M', hs.cleaned hc, hmaps, fun h =>
    (hrest (h.congr rfl Heap.pending_enter)).cleaned hs hc, hfilled⟩

theorem Failed.cleaned {e : Leave} (h : Failed A (s.enter 0) R M k b e s₁) :
    ∃ s', s₁.exitEpocheAndCleanup A.indexer 0 = some s' ∧ Failed A s R M k b e s' := by
  cases h with
  | outOfBounds hfits hs =>
    obtain ⟨s', F, hexit, hc⟩ := hs.wf.exitEpocheAndCleanup (t := 0) hs.freeable
    exact ⟨s', hexit, .outOfBounds hfits (hs.cleaned hc)⟩
  | overflow hfits hfull hs hheld =>
    obtain ⟨s', F, hexit, hc⟩ := hs.wf.exitEpocheAndCleanup (t := 0) hs.freeable
    exact ⟨s', hexit, .overflow hfits hfull (hs.cleaned hc) (hheld.cleaned hs hc)⟩

variable (ids) in
/-- An insertion into a tree at rest ends. -/
theorem insert_spec (h : AtRest A s R M b) (hb : b + 4 ≤ 2 ^ 62) (hk0 : k ≠ [])
    (hload : A.loadKey tid = k) :
    EndsOr (artHandler A.indexer ids 0) (A.insert k tid) s (fun _ s' => Inserted A s R M k tid b s')
      (Failed A s R M k b) := by
  have h' : AtRest A (s.enter 0) R M b := h.congr rfl Heap.pending_enter
  have hattempt : EndsOr (artHandler A.indexer ids 0) (Throwing.retrying Leave.isRestart
    (A.insertAttempt k tid)) (s.enter 0)
      (fun _ s' => Inserted A (s.enter 0) R M k tid b s') (Failed A (s.enter 0) R M k b) := by
    refine EndsOr.retrying ((insertAttempt_spec ids h'.toSettled hb hk0 hload).mono
      (fun _ _ => id) fun e s' he => ?_)
    cases he with
    | restart hstuck => exact absurd hstuck.2.2 h'.not_held
    | failed hfail => exact ⟨by cases hfail <;> rfl, hfail⟩
  obtain ⟨r, s₁, hr, hq⟩ := hattempt
  cases r with
  | ok u =>
    obtain ⟨s', hexit, hs'⟩ := Inserted.cleaned hq
    exact ⟨_, s', runs_guarded hr hexit, hs'⟩
  | error e =>
    obtain ⟨s', hexit, hs'⟩ := Failed.cleaned hq
    exact ⟨_, s', runs_guarded hr hexit, hs'⟩

/-- Even if nodes are locked, an insertion that ends has inserted the key, or it has failed. -/
theorem insert_runs (h : Settled A s R M b) (hb : b + 4 ≤ 2 ^ 62) (hk0 : k ≠ [])
    (hload : A.loadKey tid = k) {r : Except Leave Unit}
    (hr : Prog.Runs (artHandler A.indexer ids 0) (A.insert k tid).run s r s') :
    Throwing.Outcome (fun _ s' => Inserted A s R M k tid b s') (Failed A s R M k b) r s' := by
  have h' : Settled A (s.enter 0) R M b := h.congr rfl Heap.pending_enter
  obtain ⟨r₀, s₁, hr₀⟩ := exists_of_runs_guarded hr
  have hq := ((insertAttempt_spec ids h' hb hk0 hload).mono (fun _ _ => id) fun e s' he => by
    cases he with
    | restart hstuck =>
      rw [hstuck.1]
      exact hstuck.2.1
    | failed hfail =>
      rw [if_neg (by cases hfail <;> exact Bool.false_ne_true)]
      exact hfail).of_runs_retrying hr₀
  cases r₀ with
  | ok u =>
    obtain ⟨s₂, hexit, hs₂⟩ := Inserted.cleaned hq
    obtain ⟨rfl, rfl⟩ := Prog.Runs.unique _ (runs_guarded hr₀ hexit) hr
    exact hs₂
  | error e =>
    obtain ⟨s₂, hexit, hs₂⟩ := Failed.cleaned hq
    obtain ⟨rfl, rfl⟩ := Prog.Runs.unique _ (runs_guarded hr₀ hexit) hr
    exact hs₂

end Tree

end TinyPointerTrees.Art
