import TinyPointerTrees.Art.Publication

/-!
# Accesses to a shared tiny ART

The rules by which a thread executes a stretch of code while others work on the
tree: `artWp t p Q E x` says that `p`, run by thread `t` from `x`, keeps the invariant
and ends in `Q`, or is left early in `E`.

A reader knows of a node only what held when it read the lock word (`Seen`): while the
word is still the same, so is the node. A writer knows the objects that it has
allocated and not yet published, and the nodes that it has locked (`At`).
-/

namespace TinyPointerTrees.Art

open Conc ArtM Protocol

variable {V : Variant} {A : Tree V} {ids : ℕ → UInt64} {U : Set Key} {t u : ℕ} {x y : World V}
  {α : Type} {n m : Ref} {o : Obj V} {κ : Kind} {p : Key} {π : List UInt8} {id v : UInt64}
  {E : Leave → World V → Prop}

variable (A ids U) in
/-- Thread `t` can run the code from `x`, and it ends in `Q`, or is left early in `E`. -/
abbrev artWp (t : ℕ) (c : ArtM V α) (Q : α → World V → Prop) (E : Leave → World V → Prop)
    (x : World V) : Prop :=
  (artProtocol A U).wpOr (boundedMachine A ids U) t c Q E x

theorem later_of_guar (h : ∀ u, u ≠ t → Rely u x y) : Later x y :=
  (h (t + 1) (Nat.succ_ne_self t)).toLater

/-- What no thread undoes still holds at the end. -/
theorem wp_later {c : ArtM V α} {Q : α → World V → Prop} {K : World V → Prop}
    (hK : ∀ x y, Later x y → K x → K y) (h : artWp A ids U t c Q E x) (hx : K x) :
    artWp A ids U t c (fun a y => Q a y ∧ K y) E x :=
  wpOr_frame (fun x y hr => hK x y hr.toLater) (fun x y hg => hK x y (later_of_guar hg)) h hx

section Reads

theorem wp_access {op : ArtOp V (Option α)} {Q : α → World V → Prop} (hi : Inv A U x)
    (hE : (artProtocol A U).Stable t E) (hQ : (artProtocol A U).Stable t Q)
    (h : ∀ y, Rely t x y → Inv A U y → Bounded A t op y.1 →
      ∃ a s' g', op.exec A.indexer ids t y.1.heap = (some a, s') ∧
      Inv A U ({ y.1 with heap := s' }, g') ∧
      (∀ u, u ≠ t → Rely u y ({ y.1 with heap := s' }, g')) ∧ Q a ({ y.1 with heap := s' }, g')) :
    artWp A ids U t (access op) Q E x := by
  refine wpOr_bind hi hE (wpOr_op Stable.wpOr fun y hy hiy b s' hs => ?_)
  obtain ⟨a, s₁, g', hexec, hi', hg, hq⟩ := h y hy hiy hs.1
  obtain ⟨-, hb, hs'⟩ := hs
  rw [hexec] at hb hs'
  subst hb hs'
  exact ⟨g', hi', hg, wpOr_pure hQ hq⟩

theorem wp_read {Q : Obj V → World V → Prop} (hi : Inv A U x) (hE : (artProtocol A U).Stable t E)
    (hQ : (artProtocol A U).Stable t Q) (hn : x.1.heap.Live n)
    (h : ∀ y, Rely t x y → Inv A U y → Q (y.get n) y) : artWp A ids U t (read n) Q E x :=
  wp_access hi hE hQ fun y hy hiy _ =>
    ⟨y.get n, y.1.heap, y.2, by simp [ArtOp.exec, hy.live n hn, World.get], hiy,
    fun u _ => Rely.refl u y, h y hy hiy⟩

theorem wp_load {Q : UInt64 → World V → Prop} (hi : Inv A U x) (hE : (artProtocol A U).Stable t E)
    (hQ : (artProtocol A U).Stable t Q) (hn : x.1.heap.Live n)
    (h : ∀ y, Rely t x y → Inv A U y → Q (y.word n) y) : artWp A ids U t (load n) Q E x :=
  wp_access hi hE hQ fun y hy hiy _ =>
    ⟨y.word n, y.1.heap, y.2, by simp [ArtOp.exec, hy.live n hn, World.word, World.get],
    hiy, fun u _ => Rely.refl u y, h y hy hiy⟩

theorem wp_defined {a : Option α} {b : α} {Q : α → World V → Prop}
    (hQ : (artProtocol A U).Stable t Q) (ha : a = some b) (h : Q b x) :
    artWp A ids U t (defined a) Q E x := by
  subst ha
  exact wpOr_pure hQ h

theorem wp_inBounds {a : Option α} {b : α} {Q : α → World V → Prop}
    (hQ : (artProtocol A U).Stable t Q) (ha : a = some b) (h : Q b x) :
    artWp A ids U t (inBounds a) Q E x := by
  subst ha
  exact wpOr_pure hQ h

theorem wp_outOfBounds {a : Option α} {Q : α → World V → Prop} (hE : (artProtocol A U).Stable t E)
    (ha : a = none) (h : E .outOfBounds x) : artWp A ids U t (inBounds a) Q E x := by
  subst ha
  exact wpOr_throw hE h

/-- What is known of an inner node, also if it is no longer in the tree. -/
theorem Inv.node (h : Inv A U x) (hk : x.2.kind n = some (.node p π id)) :
    ∃ M τ, Inner A.indexer M p π n τ (x.get n) ∧ (x.get n).id = id ∧
      (∀ c m, M (p ++ π ++ [c]) = some m → OnEdge A x.2.kind (p ++ π ++ [c]) m) ∧
      (p ≠ [] → ∃ c k, M (p ++ π ++ [c]) ≠ none ∧ k ∈ x.2.tree.keys ∧ p ++ π ++ [c] <+: k) := by
  cases h.ofKind n _ hk with
  | node hi hid hM hkey => exact ⟨_, _, hi, hid, hM, hkey⟩

theorem Inv.nodeType (h : Inv A U x) (hk : x.2.kind n = some (.node p π id)) :
    ∃ τ, V.nodeType n.special = some τ := by
  obtain ⟨M, τ, hin, -⟩ := h.node hk
  exact ⟨τ, hin.nodeType⟩

theorem Inv.leaf_value (h : Inv A U x) (hk : x.2.kind n = some (.leaf v)) :
    n.special = leafS ∧ (x.get n).value = v := by
  cases h.ofKind n _ hk with
  | leaf hn hv => exact ⟨hn, hv⟩

/-- A leaf that is in the tree. -/
theorem Inv.leaf_of_place {q : Key} (h : Inv A U x) (hk : x.2.kind n = some (.leaf v))
    (hq : x.2.place q = some n) :
    ∃ rest, x.2.tree.item q = some ⟨rest, some v⟩ ∧ A.loadKey v = q ++ rest := by
  rcases h.on_edge hq with ⟨rest, v', hitem, hk', -⟩ | ⟨π, id, τ, -, hk', -⟩
  · cases hk.symm.trans hk'
    exact ⟨rest, hitem, h.shape.keyed _ v ⟨q, _, hitem, rfl, rfl⟩⟩
  · cases hk.symm.trans hk'

theorem wp_getChild {Q : ArtTinyPtr V → World V → Prop} {τ : NodeType} {b : UInt8} (hi : Inv A U x)
    (hE : (artProtocol A U).Stable t E) (hQ : (artProtocol A U).Stable t Q)
    (hk : x.2.kind n = some (.node p π id)) (hτ : V.nodeType n.special = some τ)
    (h : ∀ y, Rely t x y → Inv A U y → Q ((y.get n).getChild τ b) y) :
    artWp A ids U t (getChild b n) Q E x := by
  refine wpOr_bind hi hE (wp_read hi hE Stable.wpOr (hi.live n _ hk) fun y hy hiy => ?_)
  obtain ⟨M, τ', hin, -⟩ := hiy.node (hy.kind n _ hk)
  obtain rfl : τ' = τ := Option.some.inj (hin.nodeType.symm.trans hτ)
  exact wpOr_bind hiy hE (wp_defined Stable.wpOr hin.classOf (wpOr_pure hQ (h y hy hiy)))

theorem wp_getAnyChild {Q : UInt8 × ArtTinyPtr V → World V → Prop} {τ : NodeType} (hi : Inv A U x)
    (hE : (artProtocol A U).Stable t E) (hQ : (artProtocol A U).Stable t Q)
    (hk : x.2.kind n = some (.node p π id)) (hτ : V.nodeType n.special = some τ)
    (h : ∀ y, Rely t x y → Inv A U y → Q ((y.get n).getAnyChild τ) y) :
    artWp A ids U t (getAnyChild n) Q E x := by
  refine wpOr_bind hi hE (wp_read hi hE Stable.wpOr (hi.live n _ hk) fun y hy hiy => ?_)
  obtain ⟨M, τ', hin, -⟩ := hiy.node (hy.kind n _ hk)
  obtain rfl : τ' = τ := Option.some.inj (hin.nodeType.symm.trans hτ)
  exact wpOr_bind hiy hE (wp_defined Stable.wpOr hin.classOf (wpOr_pure hQ (h y hy hiy)))

theorem wp_getId {Q : UInt64 → World V → Prop} (hi : Inv A U x) (hE : (artProtocol A U).Stable t E)
    (hQ : (artProtocol A U).Stable t Q) (hk : x.2.kind n = some (.node p π id))
    (h : ∀ y, Rely t x y → Inv A U y → Q id y) : artWp A ids U t (getId n) Q E x := by
  refine wpOr_bind hi hE (wp_read hi hE Stable.wpOr (hi.live n _ hk) fun y hy hiy =>
    wpOr_pure hQ ?_)
  obtain ⟨M, τ, -, hid, -⟩ := hiy.node (hy.kind n _ hk)
  rw [hid]
  exact h y hy hiy

theorem wp_value {Q : UInt64 → World V → Prop} (hi : Inv A U x) (hE : (artProtocol A U).Stable t E)
    (hQ : (artProtocol A U).Stable t Q) (hk : x.2.kind n = some (.leaf v))
    (h : ∀ y, Rely t x y → Inv A U y → Q v y) : artWp A ids U t (value n) Q E x := by
  refine wpOr_bind hi hE (wp_read hi hE Stable.wpOr (hi.live n _ hk) fun y hy hiy =>
    wpOr_pure hQ ?_)
  rw [(hiy.leaf_value (hy.kind n _ hk)).2]
  exact h y hy hiy

theorem wp_derefTable {Q : Ref → World V → Prop} {q : ArtTinyPtr V} {h : TinyPtrHashes}
    (hQ : (artProtocol A U).Stable t Q) (hd : Denotes A.indexer q h (some m)) (hq : Q m x) :
    artWp A ids U t (A.derefTable m.special q h) Q E x := by
  unfold Tree.derefTable
  rw [(dereference_of_denotes hd).1]
  exact wpOr_pure hQ hq

theorem wp_dereference {Q : Ref → World V → Prop} {q : ArtTinyPtr V} {h : TinyPtrHashes}
    {τ : NodeType} (hQ : (artProtocol A U).Stable t Q) (hd : Denotes A.indexer q h (some m))
    (hτ : V.nodeType m.special = some τ) (hq : Q m x) :
    artWp A ids U t (A.dereference q h) Q E x := by
  unfold Tree.dereference
  rw [(dereference_of_denotes hd).2, hτ, Option.isSome_some, if_pos rfl]
  exact wp_derefTable hQ hd hq

/-- An operation that leaves the tables as they are. -/
theorem quiet_step {s' : Heap V} (hi : Inv A U x) (hs : s'.tables = x.1.heap.tables) :
    Inv A U (x.step s' x.2.owner) ∧ ∀ u, Rely u x (x.step s' x.2.owner) := by
  have hlive : ∀ n, s'.Live n ↔ x.1.heap.Live n := by
    intro n
    unfold Heap.Live
    rw [hs]
  have hget : ∀ n, s'.get n = x.get n := by
    intro n
    unfold World.get Heap.get
    rw [hs]
  refine ⟨hi.step_private (fun c => ?_) (fun n => (hlive n).mpr) (fun n _ _ => hget n) fun n t hn =>
    Or.inl hn, fun u =>
    .of_private (fun n => (hlive n).mpr) (fun n _ _ => hget n) fun n hn => ⟨hn, hget n⟩⟩
  rw [hs]
  exact hi.wf c

theorem wp_quiet {op : ArtOp V α} {Q : α → World V → Prop} (hQ : (artProtocol A U).Stable t Q)
    (hop : ∀ s, (op.exec A.indexer ids t s).2.tables = s.tables)
    (h : ∀ a z, Rely t x z → Inv A U z → Q a z) : artWp A ids U t (Throwing.op op) Q E x := by
  refine wpOr_op hQ fun y hy hiy a s' hs => ?_
  obtain ⟨-, rfl, rfl⟩ := hs
  obtain ⟨hi', hr⟩ := quiet_step hiy (hop y.1.heap)
  exact ⟨y.2, hi', fun u _ => hr u, h _ _ (hy.trans (hr t)) hi'⟩

/-! ### Optimistic reads -/

/-- The word of the object was `v`, and as long as it is, `P` holds of the object. -/
structure Seen (n : Ref) (κ : Kind) (v : UInt64) (P : Obj V → Prop) (x : World V) : Prop where
  kind : x.2.kind n = some κ
  free : Free v
  le : v.toNat ≤ (x.word n).toNat
  holds : x.word n = v → P (x.get n)

namespace Seen

variable {P P' : Obj V → Prop}

theorem later (h : Seen n κ v P x) (hr : Later x y) : Seen n κ v P y := by
  have hle := hr.word_le n κ h.kind
  refine ⟨hr.kind n κ h.kind, h.free, h.le.trans hle, fun hw => ?_⟩
  have hx : x.word n = v := by
    have hv := h.le
    rw [← UInt64.toNat_inj] at hw ⊢
    omega
  rw [hr.same n κ h.kind (hx ▸ h.free) (hw.trans hx.symm)]
  exact h.holds hx

theorem rely (h : Seen n κ v P x) (hr : Rely t x y) : Seen n κ v P y := h.later hr.toLater

theorem stable : (artProtocol A U).Stable t fun _ : α => Seen n κ v P :=
  fun _ _ _ h hr _ => h.rely hr

theorem imp (h : Seen n κ v P x) (hP : x.word n = v → P (x.get n) → P' (x.get n)) :
    Seen n κ v P' x :=
  ⟨h.kind, h.free, h.le, fun hw => hP hw (h.holds hw)⟩

/-- An inner node whose word is still the same is in the tree. -/
theorem placed (h : Seen n (.node p π id) v P x) (hi : Inv A U x) (hw : x.word n = v) :
    x.2.place p = some n :=
  hi.free n p π id h.kind (hw ▸ h.free)

end Seen

theorem wp_readLockOrRestart {Q : UInt64 → World V → Prop} (hi : Inv A U x)
    (hE : (artProtocol A U).Stable t E) (hQ : (artProtocol A U).Stable t Q)
    (hk : x.2.kind n = some κ) (hR : E .restart x)
    (h : ∀ y, Rely t x y → Inv A U y → Seen n κ (y.word n) (fun _ => True) y → Q (y.word n) y) :
    artWp A ids U t (readLockOrRestart n) Q E x := by
  refine wpOr_bind hi hE (wp_load hi hE Stable.wpOr (hi.live n _ hk) fun y hy hiy => ?_)
  by_cases hfree : Free (y.word n)
  · rw [(free_iff _).mp hfree]
    exact wpOr_pure hQ (h y hy hiy ⟨hy.kind n κ hk, hfree, le_rfl, fun _ => trivial⟩)
  · rw [Bool.eq_true_of_not_eq_false (mt (free_iff _).mpr hfree)]
    exact wpOr_throw hE (hE _ x y hR hy hiy)

theorem wp_readUnlockOrRestart {Q : Unit → World V → Prop} {P : Obj V → Prop} (hi : Inv A U x)
    (hE : (artProtocol A U).Stable t E) (hQ : (artProtocol A U).Stable t Q) (hs : Seen n κ v P x)
    (hR : E .restart x) (h : ∀ y, Rely t x y → Inv A U y → y.word n = v → P (y.get n) → Q () y) :
    artWp A ids U t (readUnlockOrRestart n v) Q E x := by
  refine wpOr_bind hi hE (wp_load hi hE Stable.wpOr (hi.live n _ hs.kind) fun y hy hiy => ?_)
  by_cases hw : v = y.word n
  · rw [if_neg (not_not.mpr hw)]
    exact wpOr_pure hQ (h y hy hiy hw.symm ((hs.rely hy).holds hw.symm))
  · rw [if_pos hw]
    exact wpOr_throw hE (hE _ x y hR hy hiy)

end Reads

end TinyPointerTrees.Art
