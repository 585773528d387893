import Mathlib.Data.Set.Card
import TinyPointerTrees.Art.Settled

/-!
# The addresses in a tree

What the pointers of a tree lead to, read off the tables and the nodes alone.
`Edge` is a child pointer in a node that can be reached, and `Addressed` what is
expected of all of them: every pointer denotes, under the id of its owner and its key
byte, an object of the table it names, different pointers different objects, and
whatever is allocated is reached or pending.

`AtRest.addressed` — this is so of every tree at rest.
-/

namespace TinyPointerTrees.Art

open Conc

variable {V : Variant} {X : ℕ → BucketIndexer} {A : Tree V} {s : Heap V}
  {R : RadixTree UInt8 UInt64} {M : Key → Option Ref} {b : ℕ} {q : Key} {n m : Ref} {c : UInt8}
  {p : ArtTinyPtr V} {t : NodeType}

/-- The object that a child pointer `p` in the node `n` denotes, at the key byte `c`. -/
def Heap.child (X : ℕ → BucketIndexer) (s : Heap V) (n : Ref) (c : UInt8) (p : ArtTinyPtr V) :
    Ref :=
  Heap.refOf X p (idHash (s.get n).id c)

/-- The nodes and the leaves that can be reached from the root. -/
inductive Reachable (A : Tree V) (s : Heap V) : Ref → Prop
  /-- The root. -/
  | root : Reachable A s A.root.2
  /-- What a pointer in an inner node leads to. -/
  | child {n : Ref} {t : NodeType} {c : UInt8} (hn : Reachable A s n)
      (ht : V.nodeType n.special = some t) (hp : (s.get n).getChild t c ≠ .null) :
      Reachable A s (s.child A.indexer n c ((s.get n).getChild t c))

/-- A node that can be reached has the pointer `p` at the key byte `c`. -/
structure Edge (A : Tree V) (s : Heap V) (n : Ref) (c : UInt8) (p : ArtTinyPtr V) : Prop where
  reachable : Reachable A s n
  getChild : ∃ t, V.nodeType n.special = some t ∧ (s.get n).getChild t c = p
  ne_null : p ≠ .null

/-- What is expected of the addresses in a tree. -/
structure Addressed (A : Tree V) (s : Heap V) : Prop where
  /-- The root is allocated. -/
  root : s.Live A.root.2
  /-- A pointer denotes an object that is allocated. -/
  live : ∀ n c p, Edge A s n c p → s.Live (s.child A.indexer n c p) ∧
    DerefTable.dereference (A.indexer p.special) p (idHash (s.get n).id c) =
    .ok (some (s.child A.indexer n c p).slot)
  /-- A pointer has the class of the node. -/
  type : V.typed = true → ∀ n c p, Edge A s n c p → p.special ≠ leafS →
    (s.get (s.child A.indexer n c p)).getType = p.special
  /-- Different pointers denote different objects, and none the root. -/
  inj : ∀ n c p n' c' p', Edge A s n c p → Edge A s n' c' p' →
    s.child A.indexer n c p = s.child A.indexer n' c' p' → n = n' ∧ c = c'
  ne_root : ∀ n c p, Edge A s n c p → s.child A.indexer n c p ≠ A.root.2
  /-- What is pending is allocated, is not reached, and is pending once. -/
  pending : ∀ e ∈ (s.deletionLists 0).pending, s.Live (Heap.refOf A.indexer e.1 e.2) ∧
    ¬ Reachable A s (Heap.refOf A.indexer e.1 e.2)
  pending_nodup : (Heap.refsOf A.indexer (s.deletionLists 0).pending).Nodup
  /-- Nothing is leaked. -/
  count : ∀ c, (s.tables c).held.length = {n | Reachable A s n ∧ n.special = c}.ncard +
    ((s.deletionLists 0).pending.filter fun e => e.1.special = c).length

namespace Shape

theorem exists_path (h : Shape A s R M) (hn : Reachable A s n) : ∃ q, M q = some n := by
  induction hn with
  | root => exact ⟨[], h.root⟩
  | @child n t c _ ht hp ih =>
    obtain ⟨q, hq⟩ := ih
    rcases h.item hq with ⟨_, _, -, hleaf, -⟩ | ⟨π, t', -, hi⟩
    · refine absurd hleaf (V.nodeType_ne_leafS ?_)
      rw [ht]
      exact Option.some_ne_none t
    · obtain rfl : t = t' := Option.some.inj (ht.symm.trans hi.nodeType)
      obtain ⟨m, hm⟩ := Option.ne_none_iff_exists'.mp fun h₀ => hp (hi.getChild_eq_null h₀)
      refine ⟨q ++ π ++ [c], ?_⟩
      rw [hm, ← (hi.denotes hm).2.2]
      rfl

/-- By induction on the length of the path. -/
theorem reachable (h : Shape A s R M) (hM : M q = some n) : Reachable A s n := by
  induction hlen : q.length using Nat.strong_induction_on generalizing q n with
  | _ l ih =>
    subst hlen
    by_cases hq : q = []
    · subst hq
      rw [h.root] at hM
      cases hM
      exact .root
    · obtain ⟨i, hi⟩ := Option.ne_none_iff_exists'.mp
        (mt h.eq_none_iff.mpr (by rw [hM]; exact Option.some_ne_none n))
      obtain ⟨p, ⟨π, value⟩, c, hp, hv, rfl⟩ := R.edge q i hi hq
      obtain rfl : value = none := hv
      obtain ⟨m, t, hm, -, hin⟩ := h.inner hp
      have hmr : Reachable A s m := ih p.length (by simp) hm rfl
      have hd := hin.denotes hM
      rw [← hd.2.2]
      exact .child hmr hin.nodeType hd.1

theorem reachable_iff (h : Shape A s R M) : Reachable A s n ↔ ∃ q, M q = some n :=
  ⟨h.exists_path, fun ⟨_, hq⟩ => h.reachable hq⟩

/-- A pointer in the tree is one of the edges of the radix tree. -/
theorem edge (h : Shape A s R M) (he : Edge A s n c p) :
    ∃ q π t, R.item q = some ⟨π, none⟩ ∧ M q = some n ∧ Inner A.indexer M q π n t (s.get n) ∧
      (s.get n).getChild t c = p ∧ M (q ++ π ++ [c]) = some (s.child A.indexer n c p) := by
  obtain ⟨hr, ⟨t, ht, hp⟩, hne⟩ := he
  obtain ⟨q, hq⟩ := h.exists_path hr
  rcases h.item hq with ⟨_, _, -, hleaf, -⟩ | ⟨π, t', hitem, hi⟩
  · refine absurd hleaf (V.nodeType_ne_leafS ?_)
    rw [ht]
    exact Option.some_ne_none t
  · obtain rfl : t = t' := Option.some.inj (ht.symm.trans hi.nodeType)
    obtain ⟨m, hm⟩ := Option.ne_none_iff_exists'.mp fun h₀ => hne (hp ▸ hi.getChild_eq_null h₀)
    refine ⟨q, π, t, hitem, hq, hi, hp, ?_⟩
    rw [hm, ← (hi.denotes hm).2.2, hp]
    rfl

end Shape

/-- The objects of a table that are allocated. -/
theorem ncard_live (h : s.Wf X) (c : ℕ) :
    {n | s.Live n ∧ n.special = c}.ncard = (s.tables c).held.length := by
  have himage : {n | s.Live n ∧ n.special = c} = (fun slot => (⟨c, slot⟩ : Ref)) ''
    {slot | slot ∈ (s.tables c).held} := by
    ext ⟨d, slot⟩
    constructor
    · rintro ⟨hl, rfl⟩
      exact ⟨slot, hl, rfl⟩
    · rintro ⟨slot', hl, heq⟩
      cases heq
      exact ⟨hl, rfl⟩
  have hinj : Function.Injective fun slot : Slot => (⟨c, slot⟩ : Ref) := by
    intro slot slot' heq
    exact congrArg Ref.slot heq
  rw [himage, Set.ncard_image_of_injective _ hinj, ← List.coe_toFinset, Set.ncard_coe_finset,
    List.toFinset_card_of_nodup (h c).held_nodup]

/-- What is pending, of one table. -/
theorem ncard_pending (h : Heap.Freeable X s (s.deletionLists 0).pending) (c : ℕ) :
    {n | n ∈ Heap.refsOf X (s.deletionLists 0).pending ∧ n.special = c}.ncard =
      ((s.deletionLists 0).pending.filter fun e => e.1.special = c).length := by
  have hnd := h.nodup
  unfold Heap.refsOf at hnd ⊢
  generalize (s.deletionLists 0).pending = l at hnd
  have hset : {n | n ∈ l.map (fun e => Heap.refOf X e.1 e.2) ∧ n.special = c} =
      {n | n ∈ (l.filter fun e => e.1.special = c).map fun e => Heap.refOf X e.1 e.2} := by
    ext n
    simp only [List.mem_map, List.mem_filter, decide_eq_true_eq, Set.mem_ofPred_eq]
    constructor
    · rintro ⟨⟨e, he, rfl⟩, hs⟩
      exact ⟨e, ⟨he, hs⟩, rfl⟩
    · rintro ⟨e, ⟨he, hs⟩, rfl⟩
      exact ⟨⟨e, he, rfl⟩, hs⟩
  have hsub := hnd.sublist (List.filter_sublist (l := l) (p := fun e => e.1.special = c) |>.map _)
  rw [hset, ← List.coe_toFinset, Set.ncard_coe_finset, List.toFinset_card_of_nodup hsub,
    List.length_map]

namespace AtRest

/-- What is allocated in one table is reached or pending. -/
theorem count (h : AtRest A s R M b) (c : ℕ) :
    (s.tables c).held.length = {n | Reachable A s n ∧ n.special = c}.ncard +
      ((s.deletionLists 0).pending.filter fun e => e.1.special = c).length := by
  have hunion : {n | s.Live n ∧ n.special = c} = {n | Reachable A s n ∧ n.special = c} ∪
      {n | n ∈ Heap.refsOf A.indexer (s.deletionLists 0).pending ∧ n.special = c} := by
    ext n
    constructor
    · rintro ⟨hl, hc⟩
      rcases h.owned n hl with hq | hp
      · exact Or.inl ⟨h.shape.reachable_iff.mpr hq, hc⟩
      · exact Or.inr ⟨hp, hc⟩
    · rintro (⟨hr, hc⟩ | ⟨hp, hc⟩)
      · obtain ⟨q, hq⟩ := h.shape.exists_path hr
        exact ⟨h.shape.live hq, hc⟩
      · obtain ⟨e, he, rfl⟩ := List.mem_map.mp hp
        exact ⟨h.freeable.live e he, hc⟩
  have hdisj : Disjoint {n | Reachable A s n ∧ n.special = c}
      {n | n ∈ Heap.refsOf A.indexer (s.deletionLists 0).pending ∧ n.special = c} := by
    rw [Set.disjoint_left]
    rintro n ⟨hr, -⟩ ⟨hp, -⟩
    obtain ⟨q, hq⟩ := h.shape.exists_path hr
    exact h.apart q n hq hp
  have hfin : {n | s.Live n ∧ n.special = c}.Finite := by
    refine ((s.tables c).held.finite_toSet.image fun slot => (⟨c, slot⟩ : Ref)).subset ?_
    rintro ⟨d, slot⟩ ⟨hl, rfl⟩
    exact ⟨slot, hl, rfl⟩
  rw [← ncard_live h.wf c, ← ncard_pending h.freeable c, hunion]
  rw [hunion, Set.finite_union] at hfin
  exact Set.ncard_union_eq hdisj hfin.1 hfin.2

theorem addressed (h : AtRest A s R M b) : Addressed A s := by
  refine ⟨h.shape.live h.shape.root, fun n c p he => ?_, fun hV n c p he hp => ?_,
    fun n c p n' c' p' he he' heq => ?_, fun n c p he heq => ?_, fun e he => ?_,
    h.freeable.nodup, h.count⟩
  · obtain ⟨q, π, t, -, -, hi, rfl, hm⟩ := h.shape.edge he
    have hd := hi.kids c
    rw [hm] at hd
    exact ⟨h.shape.live hm, (dereference_of_denotes hd).1⟩
  · obtain ⟨q, π, t, -, -, -, -, hm⟩ := h.shape.edge he
    rcases h.shape.item hm with ⟨_, _, -, hleaf, -⟩ | ⟨π', t', -, hi⟩
    · exact absurd hleaf hp
    · exact hi.type hV
  · obtain ⟨q, π, t, hitem, hq, -, -, hm⟩ := h.shape.edge he
    obtain ⟨q', π', t', hitem', hq', -, -, hm'⟩ := h.shape.edge he'
    rw [heq] at hm
    have hpath := h.shape.inj _ _ _ hm hm'
    obtain ⟨rfl, hc⟩ := RadixTree.edge_inj hitem hitem' hpath
    exact ⟨Option.some.inj (hq.symm.trans hq'), hc⟩
  · obtain ⟨q, π, t, -, -, -, -, hm⟩ := h.shape.edge he
    rw [heq] at hm
    have := h.shape.inj _ _ _ hm h.shape.root
    simp at this
  · refine ⟨h.freeable.live e he, fun hr => ?_⟩
    obtain ⟨q, hq⟩ := h.shape.exists_path hr
    exact h.apart q _ hq (List.mem_map_of_mem he)

end AtRest

end TinyPointerTrees.Art
