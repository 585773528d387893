import TinyPointerTrees.Art.Runs
import TinyPointerTrees.Library.RadixSize

/-!
# How many nodes a tree has

There is a leaf for each key, and the inner nodes are filled (`Filled`), so that the
children they have beyond the first one pay for the leaves.

`Reach.space_bounded` — of `N4`, `N16` and `N256` there are fewer than keys, than a fourth of
them, and than a sixteenth of them, and even together, when each is counted by what it
saves; and so for the other trees. The root does not count.
-/

namespace TinyPointerTrees.Art

variable {V : Variant} {A : Tree V} {ids : ℕ → UInt64} {s : Heap V} {R : RadixTree UInt8 UInt64}
  {M : Key → Option Ref} {thrown : Bool} {l : List (Key × UInt64)} {c : ℕ} {q : Key} {n : Ref}

/-- How many children a node of this table has at least, beyond the first one. -/
def Variant.saved (V : Variant) (c : ℕ) : ℕ := (V.nodeType c).elim 0 fun t => V.leastCount t - 1

variable (A s) in
/-- The nodes in a table that can be reached, but for the root. -/
def nodesIn (c : ℕ) : Set Ref := {n | Reachable A s n ∧ n ≠ A.root.2 ∧ n.special = c}

/-- The tree has no more nodes than its keys need. -/
structure Compact (A : Tree V) (l : List (Key × UInt64)) (s : Heap V) : Prop where
  /-- There is one leaf for each key. -/
  leaves : (nodesIn A s leafS).ncard = l.length
  /-- A node that has room for many children replaces many. -/
  inner : ∑ c ∈ Finset.range 4, V.saved c * (nodesIn A s c).ncard ≤ l.length - 1

/-- In which table the node of this path is. -/
def tableOf (M : Key → Option Ref) (q : Key) : ℕ := (M q).elim 0 Ref.special

namespace Shape

/-- Nodes that can be reached are counted by their paths. -/
theorem ncard_eq_card {S : Set Ref} {F : Finset Key} (h : Shape A s R M)
    (hS : ∀ n, n ∈ S ↔ ∃ q ∈ F, M q = some n) (hF : ∀ q ∈ F, M q ≠ none) : S.ncard = F.card := by
  have himage : some '' S = M '' (F : Set Key) := by
    ext o
    constructor
    · rintro ⟨n, hn, rfl⟩
      obtain ⟨q, hq, hM⟩ := (hS n).mp hn
      exact ⟨q, hq, hM⟩
    · rintro ⟨q, hq, rfl⟩
      obtain ⟨n, hn⟩ := Option.ne_none_iff_exists'.mp (hF q hq)
      exact ⟨n, (hS n).mpr ⟨q, hq, hn⟩, hn.symm⟩
  have hinj : Set.InjOn M (F : Set Key) := by
    intro p hp q _ heq
    obtain ⟨n, hn⟩ := Option.ne_none_iff_exists'.mp (hF p hp)
    exact h.inj p q n hn (heq ▸ hn)
  rw [← Set.ncard_image_of_injective S (Option.some_injective Ref), himage, hinj.ncard_image,
    Set.ncard_coe_finset]

/-- The paths of the inner nodes in a table. -/
theorem ncard_nodesIn (h : Shape A s R M) (hc : V.nodeType c ≠ none) :
    (nodesIn A s c).ncard = ((R.inner.erase []).filter fun q => tableOf M q = c).card := by
  refine h.ncard_eq_card (fun n => ?_) fun q hq => ?_
  · rw [nodesIn, Set.mem_ofPred_eq, h.reachable_iff]
    constructor
    · rintro ⟨⟨q, hq⟩, hne, rfl⟩
      refine ⟨q, Finset.mem_filter.mpr ⟨Finset.mem_erase.mpr ⟨?_, ?_⟩, by rw [tableOf, hq]; rfl⟩,
        hq⟩
      · rintro rfl
        rw [h.root] at hq
        exact hne (Option.some.inj hq).symm
      · rcases h.item hq with ⟨r, v, -, hleaf, -⟩ | ⟨π, t, hitem, -⟩
        · exact absurd hleaf (V.nodeType_ne_leafS hc)
        · exact RadixTree.mem_inner.mpr ⟨_, hitem, rfl⟩
    · rintro ⟨q, hq, hM⟩
      obtain ⟨hq, htable⟩ := Finset.mem_filter.mp hq
      rw [tableOf, hM] at htable
      refine ⟨⟨q, hM⟩, ?_, htable⟩
      rintro rfl
      exact Finset.ne_of_mem_erase hq (h.inj q [] _ hM h.root)
  · obtain ⟨i, hi, -⟩ := RadixTree.mem_inner.mp (Finset.mem_of_mem_erase
      (Finset.mem_filter.mp hq).1)
    rw [Ne, h.eq_none_iff, hi]
    exact Option.some_ne_none i

theorem ncard_leaves (h : Shape A s R M) : (nodesIn A s leafS).ncard = R.leaves.card := by
  refine h.ncard_eq_card (fun n => ?_) fun q hq => ?_
  · rw [nodesIn, Set.mem_ofPred_eq, h.reachable_iff]
    constructor
    · rintro ⟨⟨q, hq⟩, -, hleaf⟩
      refine ⟨q, ?_, hq⟩
      rcases h.item hq with ⟨r, v, hitem, -, -⟩ | ⟨π, t, -, hi⟩
      · exact RadixTree.mem_leaves.mpr ⟨_, hitem, Option.some_ne_none v⟩
      · exact absurd hleaf (V.nodeType_ne_leafS (by rw [hi.nodeType]; exact Option.some_ne_none t))
    · rintro ⟨q, hq, hM⟩
      obtain ⟨i, hi, hv⟩ := RadixTree.mem_leaves.mp hq
      rcases h.item hM with ⟨r, v, hitem, hleaf, -⟩ | ⟨π, t, hitem, -⟩
      · refine ⟨⟨q, hM⟩, ?_, hleaf⟩
        rintro rfl
        obtain rfl : q = [] := h.inj q [] _ hM h.root
        rw [R.root] at hitem
        cases hitem
      · rw [hitem] at hi
        cases hi
        exact absurd rfl hv
  · obtain ⟨i, hi, -⟩ := RadixTree.mem_leaves.mp hq
    rw [Ne, h.eq_none_iff, hi]
    exact Option.some_ne_none i

end Shape

namespace Stores

theorem card_leaves (h : Stores A s R M thrown l) : R.leaves.card = l.length := by
  have hkeys : R.keys = ↑(l.map Prod.fst).toFinset := by
    rw [h.keys]
    ext k
    simp
  rw [RadixTree.card_leaves, hkeys, Set.ncard_coe_finset, List.toFinset_card_of_nodup h.nodup,
    List.length_map]

/-- An inner node saves what it has beyond one child. -/
theorem saved_lt_degree (h : Stores A s R M thrown l) (hq : q ∈ R.inner) (hne : q ≠ []) :
    tableOf M q < 4 ∧ V.saved (tableOf M q) + 1 ≤ R.degree q := by
  obtain ⟨⟨π, _⟩, hitem, rfl⟩ := RadixTree.mem_inner.mp hq
  obtain ⟨n, t, hM, -, hi⟩ := h.shape.inner hitem
  have hkids : V.leastCount t ≤ R.degree q := by
    rw [RadixTree.degree_eq hitem]
    exact h.filled q π n t hne hitem hM hi.nodeType
  have hpos : 1 ≤ V.leastCount t := by
    unfold Variant.leastCount
    split <;> omega
  rw [tableOf, hM, Option.elim_some]
  refine ⟨(V.nodeType_lt (by rw [hi.nodeType]; exact Option.some_ne_none t)).2, ?_⟩
  rw [Variant.saved, hi.nodeType, Option.elim_some]
  omega

theorem compact (h : Stores A s R M thrown l) : Compact A l s := by
  refine ⟨by rw [h.shape.ncard_leaves, h.card_leaves], ?_⟩
  have hterm : ∀ c ∈ Finset.range 4, V.saved c * (nodesIn A s c).ncard =
      ∑ q ∈ (R.inner.erase []).filter (fun q => tableOf M q = c), V.saved (tableOf M q) := by
    intro c _
    rw [Finset.sum_congr rfl fun q hq => by rw [(Finset.mem_filter.mp hq).2],
      Finset.sum_const, smul_eq_mul]
    by_cases hc : V.nodeType c = none
    · simp [Variant.saved, hc]
    · rw [h.shape.ncard_nodesIn hc, mul_comm]
  calc ∑ c ∈ Finset.range 4, V.saved c * (nodesIn A s c).ncard
      = ∑ q ∈ R.inner.erase [], V.saved (tableOf M q) := by
        rw [Finset.sum_congr rfl hterm]
        refine Finset.sum_fiberwise_of_maps_to (fun q hq => ?_) _
        exact Finset.mem_range.mpr (h.saved_lt_degree (Finset.mem_of_mem_erase hq)
          (Finset.ne_of_mem_erase hq)).1
    _ ≤ R.leaves.card - 1 := RadixTree.sum_weight_le fun q hq hne => (h.saved_lt_degree hq hne).2
    _ = l.length - 1 := by rw [h.card_leaves]

end Stores

/-- Every tree that is reached is compact, even if insertions have thrown. -/
theorem Reach.space_bounded (h : Reach A ids thrown l s) : Compact A l s := by
  obtain ⟨R, M, hst⟩ := h.stores
  exact hst.compact

open Several in
theorem Reach.space_bounded_several :
    ∃ (A : Tree .olc) (s : Heap .olc), Reach A nodeIds false entries s ∧ Compact A entries s := by
  obtain ⟨A, s, -, h, -⟩ := Several.exists_reach .olc
  exact ⟨A, s, h, h.space_bounded⟩

end TinyPointerTrees.Art
