import Mathlib.Data.List.Sort
import Mathlib.Data.Prod.Lex
import Mathlib.Data.Set.Finite.List
import Mathlib.Data.Set.Finite.Lattice

/-!
# Linearizability

A history says of every operation which call it makes, when it began, and what it has
answered, and when, if it has. It is linearizable if the operations that have been
answered, and perhaps some that have not, can be put into one order in which each
takes effect at once: in which an operation that ended before another began comes
before it, and in which a sequential object gives the same answers (`Legal`).

* `Chronological` — the histories of runs in which calls begin and end one at a time.
* `linearizable_of_points` — it is enough to say of each operation when it took effect.
-/

namespace Conc

variable {Call Ans S : Type}

/-- An operation of a history. -/
structure Operation (Call Ans : Type) where
  /-- What it calls. -/
  call : Call
  /-- When it began. -/
  began : ℕ
  /-- What it has answered, and when. -/
  answered : Option (Ans × ℕ)

/-- The operation has ended before the other began. -/
def Operation.Precedes (o o' : Operation Call Ans) : Prop :=
  ∃ a e, o.answered = some (a, e) ∧ e < o'.began

section Object

variable (step : S → Call → Ans → S → Prop)

/-- A sequential object answers the calls in this way. -/
inductive Legal : S → List (Operation Call Ans × Ans) → Prop where
  /-- Nothing is called. -/
  | nil {s : S} : Legal s []
  /-- One call, and those after it. -/
  | cons {s s' : S} {o : Operation Call Ans} {a : Ans} {l : List (Operation Call Ans × Ans)} :
      step s o.call a s' → Legal s' l → Legal s ((o, a) :: l)

/-- The operations take effect in this order, with these answers. -/
structure Linearizes (s : S) (H : Set (Operation Call Ans)) (l : List (Operation Call Ans × Ans)) :
    Prop where
  nodup : (l.map Prod.fst).Nodup
  mem : ∀ e ∈ l, e.1 ∈ H
  complete : ∀ o ∈ H, ∀ a e, o.answered = some (a, e) → (o, a) ∈ l
  order : l.Pairwise fun e e' => ¬ e'.1.Precedes e.1
  legal : Legal step s l

/-- The operations can take effect one after another. -/
def Linearizable (s : S) (H : Set (Operation Call Ans)) : Prop := ∃ l, Linearizes step s H l

variable {step}

/-- The state after each operation, from the operations before it. -/
theorem Legal.of_after {l : List (Operation Call Ans × Ans)}
    (after : List (Operation Call Ans × Ans) → S)
    (h : ∀ l₁ o a l₂, l = l₁ ++ (o, a) :: l₂ → step (after l₁) o.call a (after (l₁ ++ [(o, a)]))) :
    Legal step (after []) l := by
  have hfrom : ∀ l₂ l₁, l = l₁ ++ l₂ → Legal step (after l₁) l₂ := by
    intro l₂
    induction l₂ with
    | nil => exact fun _ _ => .nil
    | cons e l₂ ih =>
      intro l₁ hl
      exact .cons (h l₁ e.1 e.2 l₂ hl)
        (ih (l₁ ++ [e]) (by rw [hl, List.append_assoc, List.singleton_append]))
  exact hfrom l [] rfl

end Object

/-! ### Runs -/

/-- The histories when `n` calls have begun or ended. -/
inductive Chronological : ℕ → Set (Operation Call Ans) → Prop where
  /-- Nothing has been called. -/
  | empty : Chronological 0 ∅
  /-- A call begins. -/
  | begin {n : ℕ} {H : Set (Operation Call Ans)} (a : Call) : Chronological n H →
      Chronological (n + 1) (insert ⟨a, n, none⟩ H)
  /-- A call ends. -/
  | finish {n : ℕ} {H : Set (Operation Call Ans)} {o : Operation Call Ans} (r : Ans) :
      Chronological n H → o ∈ H → o.answered = none →
      Chronological (n + 1) (insert { o with answered := some (r, n) } (H \ {o}))

namespace Chronological

variable {n : ℕ} {H : Set (Operation Call Ans)} {o o' : Operation Call Ans} {a : Ans} {e : ℕ}

theorem finite (h : Chronological n H) : H.Finite := by
  induction h with
  | empty => exact Set.finite_empty
  | begin a _ ih => exact ih.insert _
  | finish r _ _ _ ih => exact ih.sdiff.insert _

theorem began_lt (h : Chronological n H) (ho : o ∈ H) : o.began < n := by
  induction h generalizing o with
  | empty => cases ho
  | begin a _ ih =>
    rcases ho with rfl | ho
    · exact Nat.lt_succ_self _
    · exact (ih ho).trans (Nat.lt_succ_self _)
  | finish r _ hmem _ ih =>
    rcases ho with rfl | ho
    · exact (ih hmem).trans (Nat.lt_succ_self _)
    · exact (ih ho.1).trans (Nat.lt_succ_self _)

theorem ended (h : Chronological n H) (ho : o ∈ H) (ha : o.answered = some (a, e)) :
    o.began < e ∧ e < n := by
  induction h generalizing o with
  | empty => cases ho
  | begin a _ ih =>
    rcases ho with rfl | ho
    · cases ha
    · exact ⟨(ih ho ha).1, (ih ho ha).2.trans (Nat.lt_succ_self _)⟩
  | finish r h hmem _ ih =>
    have hlt := h.began_lt hmem
    rcases ho with rfl | ho
    · obtain ⟨rfl, rfl⟩ := Prod.mk.inj (Option.some.inj ha)
      exact ⟨hlt, Nat.lt_succ_self _⟩
    · exact ⟨(ih ho.1 ha).1, (ih ho.1 ha).2.trans (Nat.lt_succ_self _)⟩

/-- No two operations begin at the same time. -/
theorem began_inj (h : Chronological n H) (ho : o ∈ H) (ho' : o' ∈ H) (heq : o.began = o'.began) :
    o = o' := by
  induction h generalizing o o' with
  | empty => cases ho
  | begin a h ih =>
    rcases ho with rfl | ho <;> rcases ho' with rfl | ho'
    · rfl
    · exact absurd heq (h.began_lt ho').ne'
    · exact absurd heq (h.began_lt ho).ne
    · exact ih ho ho' heq
  | finish r _ hmem _ ih =>
    rcases ho with rfl | ho <;> rcases ho' with rfl | ho'
    · rfl
    · exact absurd (ih ho'.1 hmem heq.symm) ho'.2
    · exact absurd (ih ho.1 hmem heq) ho.2
    · exact ih ho.1 ho'.1 heq

/-- No operation begins when one ends. -/
theorem ended_ne_began (h : Chronological n H) (ho : o ∈ H) (ho' : o' ∈ H)
    (ha : o.answered = some (a, e)) : e ≠ o'.began := by
  induction h generalizing o o' with
  | empty => cases ho
  | begin a h ih =>
    rcases ho with rfl | ho
    · cases ha
    rcases ho' with rfl | ho'
    · exact (h.ended ho ha).2.ne
    · exact ih ho ho' ha
  | @finish n H p r h hmem _ ih =>
    obtain ⟨q, hq, hb⟩ : ∃ q ∈ H, q.began = o'.began := by
      rcases ho' with rfl | ho'
      · exact ⟨p, hmem, rfl⟩
      · exact ⟨o', ho'.1, rfl⟩
    rw [← hb]
    rcases ho with rfl | ho
    · obtain ⟨rfl, rfl⟩ := Prod.mk.inj (Option.some.inj ha)
      exact (h.began_lt hq).ne'
    · exact ih ho.1 hq ha

end Chronological

/-! ### Points -/

/-- When operations take effect; `rank` decides between those that take effect at the same time. -/
def NotAfter (point rank : Operation Call Ans → ℕ) (e e' : Operation Call Ans × Ans) : Prop :=
  toLex (point e.1, rank e.1) ≤ toLex (point e'.1, rank e'.1)

variable {point rank : Operation Call Ans → ℕ} {e e' : Operation Call Ans × Ans}
  {step : S → Call → Ans → S → Prop}

theorem notAfter_iff :
    NotAfter point rank e e' ↔ point e.1 < point e'.1 ∨ point e.1 = point e'.1 ∧
      rank e.1 ≤ rank e'.1 :=
  Prod.Lex.toLex_le_toLex

/-- **Linearization points**: every operation that is answered, and some that are not, takes effect
after it began and before it ended, and in this order the answers are those of the object. -/
theorem linearizable_of_points {s : S} {H : Set (Operation Call Ans)}
    {answer : Operation Call Ans → Option Ans} (hfin : H.Finite)
    (hanswer : ∀ o ∈ H, ∀ a e, o.answered = some (a, e) → answer o = some a)
    (hafter : ∀ o ∈ H, answer o ≠ none → o.began ≤ point o)
    (hbefore : ∀ o ∈ H, ∀ a e, o.answered = some (a, e) → point o ≤ e)
    (hlegal : ∀ l : List (Operation Call Ans × Ans), (∀ o a, (o, a) ∈ l ↔ o ∈ H ∧
      answer o = some a) → (l.map Prod.fst).Nodup → l.Pairwise (NotAfter point rank) →
      Legal step s l) : Linearizable step s H := by
  classical
  -- the operations that take effect, with their answers
  let L : List (Operation Call Ans × Ans) := hfin.toFinset.toList.filterMap fun o =>
    (answer o).map fun a => (o, a)
  have hL : ∀ o a, (o, a) ∈ L ↔ o ∈ H ∧ answer o = some a := by
    intro o a
    simp only [L, List.mem_filterMap, Finset.mem_toList, Set.Finite.mem_toFinset,
      Option.map_eq_some_iff, Prod.mk.injEq]
    constructor
    · rintro ⟨o', ho', a', ha', rfl, rfl⟩
      exact ⟨ho', ha'⟩
    · rintro ⟨ho, ha⟩
      exact ⟨o, ho, a, ha, rfl, rfl⟩
  have hnodup : (L.map Prod.fst).Nodup := by
    refine List.Nodup.sublist ?_ hfin.toFinset.nodup_toList
    have hmap : L.map Prod.fst = hfin.toFinset.toList.filter fun o => (answer o).isSome := by
      simp only [L, List.map_filterMap]
      rw [← List.filterMap_eq_filter]
      refine List.filterMap_congr fun o _ => ?_
      cases h : answer o <;> simp [h, Option.guard]
    rw [hmap]
    exact List.filter_sublist
  -- in the order of their points
  have htotal : Std.Total
    (NotAfter point rank : Operation Call Ans × Ans → Operation Call Ans × Ans → Prop) :=
    ⟨fun _ _ => le_total _ _⟩
  have htrans : IsTrans (Operation Call Ans × Ans) (NotAfter point rank) := ⟨fun _ _ _ => le_trans⟩
  have hperm := List.perm_insertionSort (NotAfter point rank) L
  have hsorted := List.pairwise_insertionSort (NotAfter point rank) L
  generalize List.insertionSort (NotAfter point rank) L = l at hperm hsorted
  have hl : ∀ o a, (o, a) ∈ l ↔ o ∈ H ∧ answer o = some a := fun o a => hperm.mem_iff.trans (hL o a)
  have hl_nodup := (hperm.map Prod.fst).nodup_iff.mpr hnodup
  refine ⟨l, hl_nodup, fun e he => ((hl e.1 e.2).mp he).1, fun o ho a e ha =>
    (hl o a).mpr ⟨ho, hanswer o ho a e ha⟩, ?_, hlegal l hl hl_nodup hsorted⟩
  refine hsorted.imp_of_mem fun {e e'} he he' hle => ?_
  rintro ⟨a, t, ha, hlt⟩
  obtain ⟨hmem, hans⟩ := (hl e.1 e.2).mp he
  obtain ⟨hmem', -⟩ := (hl e'.1 e'.2).mp he'
  have h₁ := hafter e.1 hmem (by rw [hans]; exact Option.some_ne_none _)
  have h₂ := hbefore e'.1 hmem' a t ha
  rcases notAfter_iff.mp hle with h | ⟨h, -⟩ <;> omega

end Conc
