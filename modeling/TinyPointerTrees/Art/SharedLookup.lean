import TinyPointerTrees.Art.Lookup
import TinyPointerTrees.Art.SharedAccess

/-!
# `lookup`, among other threads

`lookup_wp` — a lookup of a key of the universe answers the value with which the key was in
the tree when the lookup began, and never a value of another key. The answer is
decided when the lock word of the last inner node is found valid: that node is then in
the tree, and so is every key that was there when the lookup began.
-/

namespace TinyPointerTrees.Art

open Conc ArtM Protocol

variable {V : Variant} {A : Tree V} {ids : ℕ → UInt64} {U : Set Key} {t : ℕ} {x y : World V}
  {n m : Ref} {k p : Key} {π : List UInt8} {id v : UInt64} {τ : NodeType} {b : UInt8}
  {q : ArtTinyPtr V} {K : UInt64 → Prop}

/-- The pointer that was seen in a node which is still in the tree. -/
theorem Seen.child (hs : Seen n (.node p π id) v (fun o => o.getChild τ b = q) x) (hi : Inv A U x)
    (hw : x.word n = v) (hτ : V.nodeType n.special = some τ) :
    x.2.tree.item p = some ⟨π, none⟩ ∧ ((q = .null ∧ x.2.tree.item (p ++ π ++ [b]) = none) ∨
        ∃ m, Denotes A.indexer q (idHash id b) (some m) ∧ x.2.place (p ++ π ++ [b]) = some m) := by
  obtain ⟨hitem, hid, hin⟩ := hi.inner_of_place hs.kind (hs.placed hi hw)
  have hin := hin τ hτ
  refine ⟨hitem, ?_⟩
  have hq := hs.holds hw
  cases hm : x.2.place (p ++ π ++ [b]) with
  | none =>
    refine Or.inl ⟨?_, hi.shape.eq_none_iff.mp hm⟩
    rw [← hq]
    exact hin.getChild_eq_null hm
  | some m =>
    refine Or.inr ⟨m, ?_, rfl⟩
    rw [← hq, ← hid]
    exact hin.denotes hm

namespace Tree

/-- During a lookup of `k` by thread `t`: `K` are the values that the key had when the lookup
began. -/
structure LookingUp (t : ℕ) (k : Key) (K : UInt64 → Prop) (x : World V) : Prop where
  maps : ∀ v, K v → x.2.tree.Maps k v
  returned : ∀ i ∈ x.1.returned, ∀ v, i.call = .insert k v → i.answer = .ok none →
    i.ended < x.1.began t → K v
  read : ∀ l ∈ x.1.returned, ∀ v, l.call = .lookup k → l.answer = .ok (some v) → v ≠ 0 →
    l.ended < x.1.began t → K v

theorem LookingUp.rely (h : LookingUp t k K x) (hr : Rely t x y) : LookingUp t k K y := by
  have hold : ∀ i ∈ y.1.returned, i.ended < x.1.began t → i ∈ x.1.returned := by
    intro i hi hlt
    rcases hr.returned i hi with hi | hle
    · exact hi
    · omega
  refine ⟨fun v hv => hr.maps k v (h.maps v hv), fun i hi v hc ha hlt => ?_,
    fun l hl v hc ha h0 hlt => ?_⟩
  · rw [hr.began] at hlt
    exact h.returned i (hold i hi hlt) v hc ha hlt
  · rw [hr.began] at hlt
    exact h.read l (hold l hl hlt) v hc ha h0 hlt

/-- What a lookup answers. -/
structure LookedUp (t : ℕ) (k : Key) (K : UInt64 → Prop) (r : UInt64) (x : World V) :
    Prop extends LookingUp t k K x where
  found : ∀ v, K v → r = v
  own : r ≠ 0 → (k, r) ∈ x.1.called
  stored : r ≠ 0 → x.2.tree.Maps k r

theorem LookedUp.stable : (artProtocol A U).Stable t (LookedUp (V := V) t k K) :=
  fun _ _ _ h hr _ => ⟨h.toLookingUp.rely hr, h.found, fun h0 => hr.called _ (h.own h0), fun h0 =>
    hr.maps _ _ (h.stored h0)⟩

/-- The head of the loop: the node was in the tree with this word. If no bytes were skipped, or the
key is to be found, its path is on that of the key. -/
structure LookupHead (t : ℕ) (k : Key) (K : UInt64 → Prop) (c : LookupState) (x : World V) :
    Prop extends LookingUp t k K x where
  node : ∃ p π id, Seen c.node (.node p π id) c.v (fun _ => True) x ∧ c.level = p.length ∧
    (c.optimisticPrefixMatch = false ∨ (∃ v, K v) → p <+: k)

theorem LookupHead.stable : (artProtocol A U).Stable t (LookupHead (V := V) t k K) := by
  intro c x y h hr _
  obtain ⟨p, π, id, hs, hc⟩ := h.node
  exact ⟨h.toLookingUp.rely hr, p, π, id, hs.rely hr, hc⟩

/-- What a pass of the loop ends in. -/
abbrev LookupPassed (t : ℕ) (k : Key) (K : UInt64 → Prop) (r : LookupState ⊕ UInt64) (x : World V) :
    Prop :=
  Sum.elim (fun c => LookupHead t k K c x) (fun r => LookedUp t k K r x) r

theorem LookupPassed.stable : (artProtocol A U).Stable t (LookupPassed (V := V) t k K) :=
  Stable.elim LookupHead.stable LookedUp.stable

/-- A lookup is only left to start again. -/
abbrev Restarts (t : ℕ) (k : Key) (K : UInt64 → Prop) (e : Leave) (x : World V) : Prop :=
  e = .restart ∧ LookingUp t k K x

theorem Restarts.stable : (artProtocol A U).Stable t (Restarts (V := V) t k K) :=
  fun _ _ _ h hr _ => ⟨h.1, h.2.rely hr⟩

variable {optimistic : Bool}

/-- The answer that a leaf gives, unless it is zero: its key is checked, or its path is the whole
key. -/
theorem leaf_answer {e r : Key} {w a : UInt64} {level : ℕ} (hU : PrefixFree U) (hk : k ∈ U)
    (hw : A.loadKey w ∈ U) (hload : A.loadKey w = e ++ r) (he : e.length = level + 1)
    (hlt : level < k.length) (hpath : optimistic = false → e <+: k)
    (ha : a = if level < k.length - 1 ∨ optimistic = true then A.checkKey w k else w) (h0 : a ≠ 0) :
    k = A.loadKey w ∧ a = w := by
  subst ha
  unfold checkKey at h0 ⊢
  by_cases hcheck : level < k.length - 1 ∨ optimistic = true
  · rw [if_pos hcheck] at h0 ⊢
    split_ifs at h0 ⊢ with hk
    · exact ⟨hk, rfl⟩
    · exact absurd rfl h0
  · rw [if_neg hcheck]
    rw [not_or, Bool.not_eq_true] at hcheck
    have hpre := hpath hcheck.2
    have hek : e = k := by
      apply hpre.eq_of_length
      have := hpre.length_le
      omega
    refine ⟨hU k hk _ hw ?_, rfl⟩
    rw [hload, hek]
    exact List.prefix_append _ _

theorem lookupChild_wp (hU : PrefixFree U) (hk : k ∈ U) (hi : Inv A U x) (hl : LookingUp t k K x)
    (hs : Seen n (.node p π id) v (fun _ => True) x) (hpass : Passes k p π)
    (hpath : (optimistic = false → p ++ π <+: k) ∧ ∀ v, K v → p <+: k) :
    artWp A ids U t (A.lookupChild k n v (p ++ π).length optimistic) (LookupPassed t k K)
      (Restarts t k K) x := by
  have hE : (artProtocol A U).Stable t (Restarts t k K) := Restarts.stable
  have hlt := hpass.1
  obtain ⟨M, τ, hin, -⟩ := hi.node hs.kind
  have hτ := hin.nodeType
  obtain ⟨b, hb⟩ : ∃ b, k[(p ++ π).length]? = some b := ⟨_, List.getElem?_eq_getElem hlt⟩
  unfold lookupChild
  rw [if_neg (by omega)]
  refine wpOr_bind hi hE (wp_inBounds Stable.wpOr hb
    (wpOr_bind hi hE (wp_getChild hi hE Stable.wpOr hs.kind hτ fun y hy hiy => ?_)))
  have hly := hl.rely hy
  have hsy : Seen n (.node p π id) v (fun o => o.getChild τ b = (y.get n).getChild τ b) y :=
    (hs.rely hy).imp fun _ _ => rfl
  generalize (y.get n).getChild τ b = q at hsy
  refine wpOr_bind hiy hE (wp_readUnlockOrRestart hiy hE Stable.wpOr hsy ⟨rfl, hly⟩
    fun z hz hiz hw _ => ?_)
  have hlz := hly.rely hz
  have hsz := hsy.rely hz
  obtain ⟨hitem, hchild⟩ := hsz.child hiz hw hτ
  -- a key that is to be found is under the edge
  have hunder : ∀ v, K v → z.2.tree.item (p ++ π ++ [b]) ≠ none ∧ p ++ π ++ [b] <+: k := by
    intro v hv
    obtain ⟨d, hd, hpre⟩ := (hlz.maps v hv).of_inner (i := ⟨π, none⟩) hitem rfl (hpath.2 v hv)
    have := Answers.byte_of_snoc hpre
    rw [hb] at this
    cases this
    exact ⟨hd, hpre⟩
  have hedge : optimistic = false ∨ (∃ v, K v) → p ++ π ++ [b] <+: k := by
    rintro (h | ⟨v, hv⟩)
    · exact Answers.isPrefix_snoc (hpath.1 h) hb
    · exact (hunder v hv).2
  obtain ⟨rfl, hnone⟩ | ⟨m, hd, hm⟩ := hchild
  · -- there is no such edge
    rw [if_pos rfl]
    exact wpOr_pure LookupPassed.stable ⟨hlz, fun w hw => absurd hnone (hunder w hw).1,
      fun h0 => absurd rfl h0, fun h0 => absurd rfl h0⟩
  rw [if_neg hd.1]
  have hspecial := (dereference_of_denotes hd).2
  rcases hiz.on_edge hm with ⟨r, w, hleaf, hkm, hms⟩ | ⟨π', id', τ', hinner, hkm, hτ'⟩
  · have hisLeaf : isLeaf q = true := by simp [isLeaf, hspecial, hms]
    rw [if_pos hisLeaf]
    have hmaps : z.2.tree.Maps (p ++ π ++ [b] ++ r) w := ⟨_, _, hleaf, rfl, rfl⟩
    have hload := hiz.shape.keyed _ w hmaps
    have hcalled : (A.loadKey w, w) ∈ z.1.called := hload ▸ hiz.maps _ w hmaps
    have hfound : ∀ v, K v → v = w ∧ k = A.loadKey w := by
      intro v hv
      obtain ⟨hk, hvw⟩ := (hlz.maps v hv).of_leaf hleaf rfl (hedge (Or.inr ⟨v, hv⟩))
      exact ⟨hvw, hk.trans hload.symm⟩
    refine wpOr_bind hiz hE (wp_readUnlockOrRestart hiz hE Stable.wpOr hsz ⟨rfl, hlz⟩
      fun z₁ h₁ hi₁ _ _ => ?_)
    refine wpOr_bind hi₁ hE (wp_getId hi₁ hE Stable.wpOr (hsz.rely h₁).kind fun z₂ h₂ hi₂ => ?_)
    rw [← hms]
    refine wpOr_bind hi₂ hE (wp_derefTable Stable.wpOr hd ?_)
    have h₂ := h₁.trans h₂
    refine wpOr_bind hi₂ hE (wp_readLockOrRestart hi₂ hE Stable.wpOr (h₂.kind m _ hkm)
      ⟨rfl, hlz.rely h₂⟩ fun z₃ h₃ hi₃ hs₃ => ?_)
    have h₃ := h₂.trans h₃
    refine wpOr_bind hi₃ hE (wp_value hi₃ hE Stable.wpOr (h₃.kind m _ hkm) fun z₄ h₄ hi₄ => ?_)
    have h₄' := h₃.trans h₄
    refine wpOr_bind hi₄ hE (wp_readUnlockOrRestart hi₄ hE Stable.wpOr (hs₃.rely h₄)
      ⟨rfl, hlz.rely h₄'⟩ fun z₅ h₅ hi₅ _ _ => ?_)
    have h₅ := h₄'.trans h₅
    have hcalled := h₅.called _ hcalled
    have hlen : (p ++ π ++ [b]).length = (p ++ π).length + 1 := List.length_append
    have hanswer := fun a => leaf_answer (a := a) hU hk
      (hi₅.insertions.mem _ _ hcalled).1 hload hlen hlt fun h => hedge (Or.inl h)
    refine wpOr_pure LookupPassed.stable ⟨hlz.rely h₅, fun v hv => ?_, fun h0 => ?_, fun h0 => ?_⟩
    · obtain ⟨rfl, hk⟩ := hfound v hv
      simp [checkKey, hk]
    · obtain ⟨hkw, hw⟩ := hanswer _ rfl h0
      rw [hw, hkw]
      exact hcalled
    · obtain ⟨hkw, hw⟩ := hanswer _ rfl h0
      rw [hw, hkw]
      exact h₅.maps _ _ (hload ▸ hmaps)
  · have hnot : ¬ isLeaf q = true := by
      have := V.nodeType_ne_leafS (c := m.special) (by rw [hτ']; exact Option.some_ne_none τ')
      simp [isLeaf, hspecial, this]
    rw [if_neg hnot]
    refine wpOr_bind hiz hE (wp_getId hiz hE Stable.wpOr hsz.kind fun z₁ h₁ hi₁ => ?_)
    refine wpOr_bind hi₁ hE (wp_dereference Stable.wpOr hd hτ' ?_)
    refine wpOr_bind hi₁ hE (wp_readLockOrRestart hi₁ hE Stable.wpOr (h₁.kind m _ hkm)
      ⟨rfl, hlz.rely h₁⟩ fun z₂ h₂ hi₂ hs₂ => ?_)
    have h₂' := h₁.trans h₂
    refine wpOr_bind hi₂ hE (wp_readUnlockOrRestart hi₂ hE Stable.wpOr (hsz.rely h₂')
      ⟨rfl, hlz.rely h₂'⟩ fun z₃ h₃ hi₃ _ _ => ?_)
    refine wpOr_pure LookupPassed.stable ⟨hlz.rely (h₂'.trans h₃), _, _, _, hs₂.rely h₃, ?_, hedge⟩
    simp only [List.length_append, List.length_singleton]

/-- No key of the universe ends at an inner node, or above. -/
theorem not_prefix_of_node (hU : PrefixFree U) (hk : k ∈ U) (hi : Inv A U x)
    (hn : x.2.kind n = some (.node p π id)) (hp : p ≠ []) : ¬ k <+: p ++ π := by
  intro hpre
  obtain ⟨M, τ, -, -, -, hkey⟩ := hi.node hn
  obtain ⟨c, k', -, ⟨v, hk'⟩, hpre'⟩ := hkey hp
  have heq := hU k hk k' (hi.insertions.mem _ _ (hi.maps _ _ hk')).1
    (hpre.trans ((List.prefix_append _ _).trans hpre'))
  have hle := hpre.length_le
  have hle' := hpre'.length_le
  rw [← heq, List.length_append, List.length_singleton] at hle'
  omega

theorem lookupRound_wp {c : LookupState} (hU : PrefixFree U) (hk : k ∈ U) (hi : Inv A U x)
    (hc : LookupHead t k K c x) :
    artWp A ids U t (A.lookupRound k c) (LookupPassed t k K) (Restarts t k K) x := by
  have hE : (artProtocol A U).Stable t (Restarts t k K) := Restarts.stable
  have hl := hc.toLookingUp
  obtain ⟨p, π, id, hs, hlevel, hpath⟩ := hc.node
  unfold lookupRound
  rw [hlevel]
  refine wpOr_bind hi hE (wp_read hi hE Stable.wpOr (hi.live _ _ hs.kind) fun y hy hiy => ?_)
  have hly := hl.rely hy
  have hsy := hs.rely hy
  obtain ⟨M, τ, hin, -⟩ := hiy.node hsy.kind
  -- a key that is to be found passes
  have hgone : ∀ z, Inv A U z → LookingUp t k K z → z.2.kind c.node = some (.node p π id) →
    z.2.place p = some c.node →
      ¬ Passes k p π → LookedUp t k K 0 z := by
    intro z hiz hlz hkind hplace hno
    refine ⟨hlz, fun v hv => ?_, fun h0 => absurd rfl h0, fun h0 => absurd rfl h0⟩
    obtain ⟨hitem, -⟩ := hiz.inner_of_place hkind hplace
    obtain ⟨d, -, hpre⟩ := (hlz.maps v hv).of_inner (i := ⟨π, none⟩) hitem rfl
      (hpath (Or.inr ⟨v, hv⟩))
    refine absurd (Answers.passes_of_path ((List.prefix_append _ _).trans hpre) ?_) hno
    have := hpre.length_le
    simp only [List.length_append, List.length_singleton] at this ⊢
    omega
  rcases checkPrefix_spec hin k with ⟨hno, hr | ⟨hlen, hr⟩⟩ | ⟨hpass, hr⟩
  · refine wpOr_bind hiy hE (wp_inBounds Stable.wpOr hr
      (wpOr_bind hiy hE (wp_readUnlockOrRestart hiy hE Stable.wpOr hsy
      ⟨rfl, hly⟩ fun z hz hiz hw _ => ?_)))
    have hsz := hsy.rely hz
    exact wpOr_pure LookupPassed.stable (hgone z hiz (hly.rely hz) hsz.kind (hsz.placed hiz hw) hno)
  · -- the key ends above the node, which has no prefix
    have hπ : π = [] := by
      by_contra hne
      have hpos : π.length > 0 := List.length_pos_iff.mpr hne
      unfold checkPrefix Obj.hasPrefix at hr
      rw [hin.prefixCount] at hr
      simp only [hpos, decide_true, if_true] at hr
      rw [List.length_append] at hlen
      rw [if_pos hlen] at hr
      cases hr
    refine wpOr_bind hiy hE (wp_inBounds Stable.wpOr hr ?_)
    dsimp only
    unfold lookupChild
    rw [if_pos hlen]
    refine wpOr_pure LookupPassed.stable ⟨hly, fun v hv => ?_, fun h0 => absurd rfl h0,
      fun h0 => absurd rfl h0⟩
    subst hπ
    rw [List.append_nil] at hlen
    obtain rfl : p = k := (hpath (Or.inr ⟨v, hv⟩)).eq_of_length
      (le_antisymm (hpath (Or.inr ⟨v, hv⟩)).length_le hlen)
    by_cases hp : p = []
    · subst hp
      obtain ⟨d, -, hpre⟩ := (hly.maps v hv).of_inner y.2.tree.root rfl List.nil_prefix
      simp at hpre
    · exact absurd (List.prefix_append p []) (not_prefix_of_node hU hk hiy hsy.kind hp)
  · have hpath' : ∀ o : Bool, o = (c.optimisticPrefixMatch || decide
      (maxStoredPrefixLength < π.length)) →
        (o = false → p ++ π <+: k) ∧ ∀ v, K v → p <+: k := by
      rintro o rfl
      refine ⟨fun h => ?_, fun v hv => hpath (Or.inr ⟨v, hv⟩)⟩
      rw [Bool.or_eq_false_iff, decide_eq_false_iff_not] at h
      exact Answers.prefix_of_passes hpass (by omega) (hpath (Or.inl h.1))
    refine wpOr_bind hiy hE (wp_inBounds Stable.wpOr hr ?_)
    by_cases hlong : maxStoredPrefixLength < π.length
    · simp only [hlong, if_true]
      exact lookupChild_wp hU hk hiy hly hsy hpass (hpath' true (by simp [hlong]))
    · simp only [hlong, if_false]
      exact lookupChild_wp hU hk hiy hly hsy hpass (hpath' _ (by simp [hlong]))

/-- The root. -/
theorem kind_root (hi : Inv A U x) : ∃ id, x.2.kind A.root.2 = some (.node [] [] id) :=
  ⟨_, hi.place_node [] [] _ x.2.tree.root hi.shape.root⟩

theorem lookupAttempt_wp (hU : PrefixFree U) (hk : k ∈ U) (hi : Inv A U x)
    (hl : LookingUp t k K x) :
    artWp A ids U t (A.lookupAttempt k) (LookedUp t k K) (Restarts t k K) x := by
  have hE : (artProtocol A U).Stable t (Restarts t k K) := Restarts.stable
  obtain ⟨id, hroot⟩ := kind_root hi
  refine wpOr_bind hi hE (wp_readLockOrRestart hi hE Stable.wpOr hroot ⟨rfl, hl⟩
    fun y hy hiy hs => ?_)
  exact wpOr_forever (LookupHead t k K) LookupHead.stable LookedUp.stable hE (fun c z hiz hc =>
    lookupRound_wp hU hk hiz hc) hiy ⟨hl.rely hy, [], [], id, hs, rfl, fun _ => List.nil_prefix⟩

/-- A lookup answers what its key was mapped to when it began, if it was; it is never left early. -/
theorem lookup_wp (hU : PrefixFree U) (hk : k ∈ U) (hi : Inv A U x) (hl : LookingUp t k K x) :
    artWp A ids U t (A.lookup k) (LookedUp t k K) (fun _ _ => False) x := by
  have hE : (artProtocol A U).Stable t (fun (_ : Leave) (_ : World V) => False) :=
    fun _ _ _ h _ _ => h
  refine wpOr_bind hi hE (wp_quiet Stable.wpOr (fun _ => rfl) fun _ y hy hiy => ?_)
  refine wpOr_retrying (LookingUp t k K) (fun _ _ _ h hr _ => h.rely hr) LookedUp.stable hE
    (fun z hiz hlz => ?_) hiy (hl.rely hy)
  refine wpOr_mono (lookupAttempt_wp hU hk hiz hlz) (fun _ _ _ => id) ?_
  rintro e u - ⟨rfl, hlu⟩
  exact hlu

end Tree

end TinyPointerTrees.Art
