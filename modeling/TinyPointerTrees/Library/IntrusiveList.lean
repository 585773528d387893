import Mathlib.Data.List.Iterate
import Mathlib.Data.Set.Insert
import Mathlib.Tactic

/-!
# Free lists threaded through the slots they list

A free list without a terminator: a head, a link in every slot, and a counter.
The list is what following the links from the head visits, counter many times;
where the links lead after that is not part of it, and is only required to be a
slot. `IsFreeList valid link head count free` says that the list visits exactly
the slots of `free`, each once.

* `IsFreeList.take`, `IsFreeList.give` — the two operations.
* `IsFreeList.congr` — links outside the list do not matter.
-/

namespace FreeList

variable {α : Type*}

/-- What following the links visits, from `head`, `count` times. -/
abbrev visits (link : α → α) (head : α) (count : ℕ) : List α := List.iterate link head count

/-- Following the links from `head`, `count` times, visits the slots of `free`, each once. -/
structure IsFreeList (valid : Set α) (link : α → α) (head : α) (count : ℕ) (free : Set α) :
    Prop where
  /-- No slot is visited twice. -/
  nodup : (visits link head count).Nodup
  /-- The free slots are visited. -/
  mem_iff : ∀ i, i ∈ visits link head count ↔ i ∈ free
  /-- Free slots are slots. -/
  free_valid : free ⊆ valid
  /-- After the last one the links lead to some slot. -/
  last_valid : link^[count] head ∈ valid

theorem visits_congr {link link' : α → α} {head : α} {count : ℕ}
    (h : ∀ i ∈ visits link head count, link' i = link i) :
    visits link' head count = visits link head count ∧ link'^[count] head = link^[count] head := by
  induction count generalizing head with
  | zero => exact ⟨rfl, rfl⟩
  | succ n ih =>
    have h₀ : link' head = link head := h head List.mem_cons_self
    have h₁ : ∀ i ∈ visits link (link head) n, link' i = link i :=
      fun i hi => h i (List.mem_cons_of_mem _ hi)
    obtain ⟨hv, hl⟩ := ih h₁
    refine ⟨?_, ?_⟩
    · show head :: visits link' (link' head) n = head :: visits link (link head) n
      rw [h₀, hv]
    · rw [Function.iterate_succ_apply, Function.iterate_succ_apply, h₀, hl]

/-- A slot in front of the list. -/
theorem visits_push [DecidableEq α] {link : α → α} {head i : α} {count : ℕ}
    (hi : i ∉ visits link head count) :
    visits (Function.update link i head) i (count + 1) = i :: visits link head count := by
  have hsame : visits (Function.update link i head) head count = visits link head count := by
    refine (visits_congr fun j hj => ?_).1
    have hji : j ≠ i := fun e => hi (e ▸ hj)
    exact Function.update_of_ne hji _ _
  show i :: visits _ (Function.update link i head i) count = _
  rw [Function.update_self, hsame]

namespace IsFreeList

variable {valid free : Set α} {link link' : α → α} {head i : α} {count : ℕ}

/-- The head is a slot, even when the list is empty. -/
theorem head_valid (h : IsFreeList valid link head count free) : head ∈ valid := by
  cases count with
  | zero => exact h.last_valid
  | succ n => exact h.free_valid ((h.mem_iff head).mp List.mem_cons_self)

theorem head_free (h : IsFreeList valid link head count free) (hc : count ≠ 0) : head ∈ free := by
  obtain ⟨n, rfl⟩ := Nat.exists_eq_succ_of_ne_zero hc
  exact (h.mem_iff head).mp List.mem_cons_self

/-- Only the links of free slots matter. -/
theorem congr (h : IsFreeList valid link head count free) (hl : ∀ i ∈ free, link' i = link i) :
    IsFreeList valid link' head count free := by
  obtain ⟨hv, hn⟩ := visits_congr fun i hi => hl i ((h.mem_iff i).mp hi)
  exact ⟨hv ▸ h.nodup, fun i => by rw [hv, h.mem_iff], h.free_valid, hn ▸ h.last_valid⟩

/-- Taking the head. -/
theorem take (h : IsFreeList valid link head count free) (hc : count ≠ 0) :
    IsFreeList valid link (link head) (count - 1) (free \ {head}) := by
  obtain ⟨n, rfl⟩ := Nat.exists_eq_succ_of_ne_zero hc
  obtain ⟨hnot, hnd⟩ := List.nodup_cons.mp h.nodup
  refine ⟨hnd, fun i => ?_, fun i hi => h.free_valid hi.1, h.last_valid⟩
  have hi : i ∈ free ↔ i = head ∨ i ∈ visits link (link head) n :=
    (h.mem_iff i).symm.trans List.mem_cons
  simp only [Nat.add_one_sub_one, Set.mem_sdiff, Set.mem_singleton_iff, hi]
  constructor
  · intro hm
    exact ⟨Or.inr hm, fun e => hnot (e ▸ hm)⟩
  · rintro ⟨hm | hm, hne⟩
    · exact absurd hm hne
    · exact hm

/-- Giving a slot back: it becomes the head, and links to the old head. -/
theorem give [DecidableEq α] (h : IsFreeList valid link head count free) (hi : i ∉ free)
    (hv : i ∈ valid) :
    IsFreeList valid (Function.update link i head) i (count + 1) (insert i free) := by
  have hne : ∀ j ∈ free, Function.update link i head j = link j := by
    intro j hj
    have hji : j ≠ i := fun e => hi (e ▸ hj)
    exact Function.update_of_ne hji _ _
  have hold := h.congr hne
  have hlink : Function.update link i head i = head := Function.update_self ..
  have hvis : visits (Function.update link i head) i (count + 1) =
      i :: visits (Function.update link i head) head count := by
    show i :: visits _ (Function.update link i head i) count = _
    rw [hlink]
  refine ⟨?_, fun j => ?_, ?_, ?_⟩
  · rw [hvis]
    exact List.nodup_cons.mpr ⟨fun hm => hi ((hold.mem_iff i).mp hm), hold.nodup⟩
  · rw [hvis, List.mem_cons, hold.mem_iff, Set.mem_insert_iff]
  · exact Set.insert_subset hv h.free_valid
  · rw [Function.iterate_succ_apply, hlink]
    exact hold.last_valid

/-- The counter says how many slots are free. -/
theorem count_eq (h : IsFreeList valid link head count free) : free.ncard = count := by
  classical
  have hf : free = ((visits link head count).toFinset : Set α) := by
    ext i
    rw [List.coe_toFinset]
    exact (h.mem_iff i).symm
  rw [hf, Set.ncard_coe_finset, List.toFinset_card_of_nodup h.nodup, List.length_iterate]

end IsFreeList

/-- The slots below `n`, linked in order, the last one to the first. -/
theorem isFreeList_range {n : ℕ} {link : ℕ → ℕ} (hn : 0 < n) (hl : ∀ i, i + 1 < n → link i = i + 1)
    (hlast : link (n - 1) = 0) : IsFreeList {i | i < n} link 0 n {i | i < n} := by
  have hiter : ∀ m, m < n → link^[m] 0 = m := by
    intro m
    induction m with
    | zero => exact fun _ => rfl
    | succ m ih =>
      intro hm
      rw [Function.iterate_succ_apply', ih (by omega), hl m hm]
  have hvis : visits link 0 n = List.range n := by
    rw [visits, ← List.range_map_iterate]
    calc (List.range n).map (link^[·] 0) = (List.range n).map id :=
          List.map_congr_left fun m hm => hiter m (List.mem_range.mp hm)
      _ = List.range n := List.map_id _
  refine ⟨hvis ▸ List.nodup_range, fun i => by rw [hvis, List.mem_range]; rfl, subset_rfl, ?_⟩
  obtain ⟨m, rfl⟩ := Nat.exists_eq_succ_of_ne_zero hn.ne'
  rw [Function.iterate_succ_apply', hiter m (by omega), show link m = 0 from hlast]
  exact hn

end FreeList
