import Mathlib.Data.Set.Finite.List
import TinyPointerTrees.Library.RadixTree

/-!
# How many nodes a radix tree has

A tree over a finite alphabet has finitely many nodes, and every one of them but the
root is at the end of one edge. So all inner nodes together have one edge less than
there are nodes (`sum_degree`), and the edges they have beyond the first pay for the
leaves.

`sum_weight_le` — if every inner node but the root has more edges than its weight, the
weights add up to less than there are keys.
-/

namespace RadixTree

variable {κ ν : Type*} {T : RadixTree κ ν} {p s : List κ} {i : RadixItem κ ν} {π : List κ}

/-- The edges of a node: the paths that lead over them. -/
def edges (T : RadixTree κ ν) (p : List κ) : Set (List κ) :=
  {s | T.item s ≠ none ∧ ∃ i c, T.item p = some i ∧ s = p ++ i.stem ++ [c]}

variable (T) in
/-- How many edges a node has. -/
noncomputable def degree (p : List κ) : ℕ := (T.edges p).ncard

theorem degree_eq (hp : T.item p = some i) :
    T.degree p = {c | T.item (p ++ i.stem ++ [c]) ≠ none}.ncard := by
  have himage : T.edges p = (fun c => p ++ i.stem ++ [c]) ''
    {c | T.item (p ++ i.stem ++ [c]) ≠ none} := by
    ext s
    constructor
    · rintro ⟨hs, j, c, hj, rfl⟩
      obtain rfl : i = j := Option.some.inj (hp.symm.trans hj)
      exact ⟨c, hs, rfl⟩
    · rintro ⟨c, hc, rfl⟩
      exact ⟨hc, i, c, hp, rfl⟩
  rw [degree, himage, Set.ncard_image_of_injective _ fun c d hcd => by simpa using hcd]

section Finite

variable [Finite κ]

theorem finite_nodes (T : RadixTree κ ν) : {s | T.item s ≠ none}.Finite := by
  obtain ⟨n, hn⟩ := T.bounded
  refine (List.finite_length_le κ n).subset fun s hs => ?_
  obtain ⟨i, hi⟩ := Option.ne_none_iff_exists'.mp hs
  exact hn s i hi

variable (T) in
/-- The paths of the nodes. -/
noncomputable def nodes : Finset (List κ) := T.finite_nodes.toFinset

theorem mem_nodes : s ∈ T.nodes ↔ T.item s ≠ none := Set.Finite.mem_toFinset _

open scoped Classical in
variable (T) in
/-- The paths of the inner nodes. -/
noncomputable def inner : Finset (List κ) :=
  T.nodes.filter fun s => ∃ i, T.item s = some i ∧ i.value = none

open scoped Classical in
variable (T) in
/-- The paths of the leaves. -/
noncomputable def leaves : Finset (List κ) :=
  T.nodes.filter fun s => ∃ i, T.item s = some i ∧ i.value ≠ none

theorem mem_inner : p ∈ T.inner ↔ ∃ i, T.item p = some i ∧ i.value = none := by
  rw [inner, Finset.mem_filter, mem_nodes, and_iff_right_iff_imp]
  rintro ⟨i, hi, -⟩
  rw [hi]
  exact Option.some_ne_none i

theorem mem_leaves : p ∈ T.leaves ↔ ∃ i, T.item p = some i ∧ i.value ≠ none := by
  rw [leaves, Finset.mem_filter, mem_nodes, and_iff_right_iff_imp]
  rintro ⟨i, hi, -⟩
  rw [hi]
  exact Option.some_ne_none i

theorem nil_mem_inner : [] ∈ T.inner := mem_inner.mpr ⟨_, T.root, rfl⟩

theorem card_nodes : T.nodes.card = T.inner.card + T.leaves.card := by
  classical
  rw [← Finset.card_union_of_disjoint]
  · congr 1
    ext s
    rw [Finset.mem_union, mem_inner, mem_leaves, mem_nodes, Option.ne_none_iff_exists']
    constructor
    · rintro ⟨i, hi⟩
      exact (eq_or_ne i.value none).imp (fun h => ⟨i, hi, h⟩) fun h => ⟨i, hi, h⟩
    · rintro (⟨i, hi, -⟩ | ⟨i, hi, -⟩) <;> exact ⟨i, hi⟩
  · rw [Finset.disjoint_left]
    intro s hs hs'
    obtain ⟨i, hi, h⟩ := mem_inner.mp hs
    obtain ⟨j, hj, h'⟩ := mem_leaves.mp hs'
    rw [hi] at hj
    cases hj
    exact h' h

theorem finite_edges (T : RadixTree κ ν) (p : List κ) : (T.edges p).Finite :=
  T.finite_nodes.subset fun _ hs => hs.1

/-- Every node but the root is at the end of one edge. -/
theorem sum_degree (T : RadixTree κ ν) :
    ∑ p ∈ T.inner, T.degree p + 1 = T.inner.card + T.leaves.card := by
  classical
  have hunion : T.nodes.erase [] = T.inner.biUnion fun p => (T.finite_edges p).toFinset := by
    ext s
    simp only [Finset.mem_erase, mem_nodes, Finset.mem_biUnion, Set.Finite.mem_toFinset]
    constructor
    · rintro ⟨hne, hs⟩
      obtain ⟨j, hj⟩ := Option.ne_none_iff_exists'.mp hs
      obtain ⟨p, i, c, hp, hi, rfl⟩ := T.edge s j hj hne
      exact ⟨p, mem_inner.mpr ⟨i, hp, hi⟩, hs, i, c, hp, rfl⟩
    · rintro ⟨p, -, hs, i, c, -, rfl⟩
      exact ⟨by simp, hs⟩
  have hdisjoint : (T.inner : Set (List κ)).PairwiseDisjoint fun p =>
    (T.finite_edges p).toFinset := by
    intro p _ q _ hne
    rw [Function.onFun, Finset.disjoint_left]
    intro s hs hs'
    rw [Set.Finite.mem_toFinset] at hs hs'
    obtain ⟨-, i, c, hp, rfl⟩ := hs
    obtain ⟨-, j, d, hq, heq⟩ := hs'
    exact hne (edge_inj hp hq heq).1
  have hcard : (T.nodes.erase []).card = ∑ p ∈ T.inner, T.degree p := by
    rw [hunion, Finset.card_biUnion hdisjoint]
    exact Finset.sum_congr rfl fun p _ => (Set.ncard_eq_toFinset_card _ _).symm
  have hroot : [] ∈ T.nodes := mem_nodes.mpr (by rw [T.root]; exact Option.some_ne_none _)
  rw [← hcard, Finset.card_erase_add_one hroot, card_nodes]

/-- A tree with a leaf has an edge at the root. -/
theorem degree_root_pos (h : T.leaves.Nonempty) : 0 < T.degree [] := by
  obtain ⟨s, hs⟩ := h
  obtain ⟨i, hi, hv⟩ := mem_leaves.mp hs
  have hne : [] ≠ s := by
    rintro rfl
    rw [T.root] at hi
    cases hi
    exact hv rfl
  obtain ⟨-, c, hc, -⟩ := below T.root hi List.nil_prefix hne
  exact (Set.ncard_pos (T.finite_edges [])).mpr ⟨_, hc, _, c, T.root, rfl⟩

/-- Inner nodes that have more edges than their weight weigh less, all together, than there are
leaves. -/
theorem sum_weight_le [DecidableEq κ] {w : List κ → ℕ}
    (hw : ∀ p ∈ T.inner, p ≠ [] → w p + 1 ≤ T.degree p) :
    ∑ p ∈ T.inner.erase [], w p ≤ T.leaves.card - 1 := by
  have hroot : ∑ p ∈ T.inner.erase [], T.degree p + T.degree [] = ∑ p ∈ T.inner, T.degree p :=
    Finset.sum_erase_add _ _ nil_mem_inner
  have hle : ∑ p ∈ T.inner.erase [], (w p + 1) ≤ ∑ p ∈ T.inner.erase [], T.degree p :=
    Finset.sum_le_sum fun p hp => hw p (Finset.mem_of_mem_erase hp) (Finset.ne_of_mem_erase hp)
  have hcard : (T.inner.erase []).card + 1 = T.inner.card := Finset.card_erase_add_one nil_mem_inner
  rw [Finset.sum_add_distrib, Finset.sum_const, smul_eq_mul, mul_one] at hle
  have hsum := T.sum_degree
  rcases T.leaves.eq_empty_or_nonempty with h | h
  · rw [h, Finset.card_empty] at hsum ⊢
    omega
  · have := degree_root_pos h
    omega

/-- Every key has a leaf of its own. -/
theorem card_leaves (T : RadixTree κ ν) : T.leaves.card = T.keys.ncard := by
  classical
  have hkey : ∀ s ∈ T.leaves, ∃ i v, T.item s = some i ∧ i.value = some v := by
    intro s hs
    obtain ⟨i, hi, hv⟩ := mem_leaves.mp hs
    obtain ⟨v, hv⟩ := Option.ne_none_iff_exists'.mp hv
    exact ⟨i, v, hi, hv⟩
  have hset : T.keys = (fun s => s ++ ((T.item s).elim [] RadixItem.stem)) ''
    (T.leaves : Set (List κ)) := by
    ext k
    constructor
    · rintro ⟨v, s, i, hs, hv, rfl⟩
      have hmem : s ∈ T.leaves := mem_leaves.mpr ⟨i, hs, by rw [hv]; exact Option.some_ne_none v⟩
      refine ⟨s, Finset.mem_coe.mpr hmem, ?_⟩
      simp only [hs]
      rfl
    · rintro ⟨s, hs, rfl⟩
      obtain ⟨i, v, hi, hv⟩ := hkey s (Finset.mem_coe.mp hs)
      exact ⟨v, s, i, hi, hv, by simp only [hi]; rfl⟩
  have hinj : Set.InjOn (fun s => s ++ ((T.item s).elim [] RadixItem.stem))
    (T.leaves : Set (List κ)) := by
    intro s hs s' hs' heq
    obtain ⟨i, v, hi, hv⟩ := hkey s (Finset.mem_coe.mp hs)
    obtain ⟨j, v', hj, hv'⟩ := hkey s' (Finset.mem_coe.mp hs')
    simp only [hi, hj, Option.elim_some] at heq
    have hpre : s' <+: s ++ i.stem := heq ▸ List.prefix_append _ _
    rcases List.prefix_or_prefix_of_prefix (List.prefix_append s i.stem) hpre with h | h
    · exact eq_of_leaf hi (by rw [hv]; exact Option.some_ne_none v) hj h
    · exact (eq_of_leaf hj (by rw [hv']; exact Option.some_ne_none v') hi h).symm
  rw [hset, hinj.ncard_image, Set.ncard_coe_finset]

end Finite

end RadixTree
