import Mathlib.Data.List.Nodup
import Mathlib.Logic.Function.Basic
import Mathlib.Tactic

/-!
# Linked lists

Lists that end in a null pointer, threaded through cells. `IsList next p l` says that
following `next` from `p` visits the cells of `l`, one after the other, and then ends. Such
a list is the only one from `p`, and has no cell twice.

* `IsList.push` — a cell in front of the list.
* `IsList.unlink` — the predecessor of a cell leads past it.
* `IsList.congr` — links of other cells do not matter.
-/

namespace LinkedLists

variable {α : Type*}

/-- Following `next` from a pointer visits some cells, and then ends. -/
def IsList (next : α → Option α) : Option α → List α → Prop
  | p, [] => p = none
  | p, c :: l => p = some c ∧ IsList next (next c) l

namespace IsList

variable {next next' : α → Option α} {p : Option α} {b c : α} {l l' : List α}

/-- The pointer is to the first cell. -/
theorem eq_head? (h : IsList next p l) : p = l.head? := by
  cases l with
  | nil => exact h
  | cons c l => exact h.1

/-- A cell leads to the one behind it. -/
theorem next_eq (h : IsList next p (l ++ c :: l')) : next c = l'.head? := by
  induction l generalizing p with
  | nil => exact h.2.eq_head?
  | cons b l ih => exact ih h.2

/-- There is only one list from a pointer. -/
theorem unique (h : IsList next p l) (h' : IsList next p l') : l = l' := by
  induction l generalizing p l' with
  | nil =>
    cases l' with
    | nil => rfl
    | cons c l' =>
      have hnone : p = none := h
      rw [h'.1] at hnone
      cases hnone
  | cons c l ih =>
    cases l' with
    | nil =>
      have hnone : p = none := h'
      rw [h.1] at hnone
      cases hnone
    | cons d l' =>
      have heq := h.1.symm.trans h'.1
      cases heq
      rw [ih h.2 h'.2]

/-- What follows a cell. -/
theorem of_append (h : IsList next p (l ++ c :: l')) : IsList next (some c) (c :: l') := by
  induction l generalizing p with
  | nil => exact ⟨rfl, h.2⟩
  | cons b l ih => exact ih h.2

/-- No cell is visited twice: what follows it would be longer than itself. -/
theorem nodup (h : IsList next p l) : l.Nodup := by
  induction l generalizing p with
  | nil => exact List.nodup_nil
  | cons c l ih =>
    apply List.nodup_cons.2
    refine ⟨fun hc => ?_, ih h.2⟩
    obtain ⟨l₁, l₂, rfl⟩ := List.append_of_mem hc
    have heq := of_append (l := []) h |>.unique (of_append h.2)
    have hlen := congrArg List.length heq
    simp only [List.length_cons, List.length_append] at hlen
    omega

/-- Only the links of the cells visited matter. -/
theorem congr (h : IsList next p l) (hnext : ∀ c ∈ l, next' c = next c) : IsList next' p l := by
  induction l generalizing p with
  | nil => exact h
  | cons c l ih =>
    refine ⟨h.1, ?_⟩
    rw [hnext c List.mem_cons_self]
    exact ih h.2 fun b hb => hnext b (List.mem_cons_of_mem c hb)

variable [DecidableEq α]

/-- A link of a cell that is not visited is changed. -/
theorem update (h : IsList next p l) (hc : c ∉ l) (q : Option α) :
    IsList (Function.update next c q) p l := by
  apply h.congr
  intro b hb
  apply Function.update_of_ne
  rintro rfl
  exact hc hb

/-- A cell is put in front. -/
theorem push (h : IsList next p l) (hc : c ∉ l) :
    IsList (Function.update next c p) (some c) (c :: l) := by
  refine ⟨rfl, ?_⟩
  rw [Function.update_self]
  exact h.update hc p

/-- A cell is taken out from behind another. -/
theorem unlink (h : IsList next p (l ++ b :: c :: l')) :
    IsList (Function.update next b (next c)) p (l ++ b :: l') := by
  have hnd := h.nodup
  induction l generalizing p with
  | nil =>
    have hb : b ∉ l' := fun hb => (List.nodup_cons.1 hnd).1 (List.mem_cons_of_mem c hb)
    refine ⟨h.1, ?_⟩
    rw [Function.update_self]
    exact h.2.2.update hb _
  | cons a l ih =>
    have hab : a ≠ b := by
      rintro rfl
      exact (List.nodup_cons.1 hnd).1 (List.mem_append_right l List.mem_cons_self)
    refine ⟨h.1, ?_⟩
    rw [Function.update_of_ne hab]
    exact ih h.2 (List.nodup_cons.1 hnd).2

end IsList

end LinkedLists
