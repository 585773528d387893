import Mathlib.Tactic

/-!
# Division by multiplication

To divide by a number that is known beforehand one can multiply by a fraction `m / P`
that is a little larger than its reciprocal, and round down. `Reciprocal` says how
little is little enough for all numbers below a bound.
-/

/-- The fraction `m / P` is the reciprocal of `d`, or so little above it that numbers below `N` do
not tell. -/
structure Reciprocal (N d m P : ℕ) : Prop where
  pos : 0 < d
  le : d ≤ N
  low : P ≤ m * d
  high : N / d * (m * d - P) < m

namespace Reciprocal

variable {N d m P x : ℕ}

instance : Decidable (Reciprocal N d m P) :=
  decidable_of_iff (0 < d ∧ d ≤ N ∧ P ≤ m * d ∧ N / d * (m * d - P) < m)
    ⟨fun ⟨h₁, h₂, h₃, h₄⟩ => ⟨h₁, h₂, h₃, h₄⟩, fun ⟨h₁, h₂, h₃, h₄⟩ => ⟨h₁, h₂, h₃, h₄⟩⟩

/-- What is above the reciprocal is less than `m`. -/
theorem excess_lt (h : Reciprocal N d m P) : m * d - P < m := by
  have hone : 1 ≤ N / d := (Nat.one_le_div_iff h.pos).mpr h.le
  exact (Nat.le_mul_of_pos_left _ hone).trans_lt h.high

/-- The quotient is exact. -/
theorem div_eq (h : Reciprocal N d m P) (hx : x < N) : x * m / P = x / d := by
  obtain ⟨e, he⟩ : ∃ e, m * d = P + e := ⟨m * d - P, by have := h.low; omega⟩
  have hhigh := h.high
  have hexcess := h.excess_lt
  rw [he, Nat.add_sub_cancel_left] at hhigh hexcess
  have hxe : x = d * (x / d) + x % d := (Nat.div_add_mod x d).symm
  have hr : x % d < d := Nat.mod_lt _ h.pos
  have hq : x / d ≤ N / d := Nat.div_le_div_right hx.le
  generalize x / d = q at *
  generalize x % d = r at *
  have hxm : x * m = q * P + q * e + r * m := by
    rw [hxe]
    calc (d * q + r) * m = q * (m * d) + r * m := by ring
      _ = q * P + q * e + r * m := by rw [he]; ring
  refine Nat.div_eq_of_lt_le ?_ ?_
  · rw [hxm]
    omega
  rw [hxm, Nat.succ_mul]
  suffices q * e + r * m < P by omega
  by_cases hlast : r + 1 = d
  · -- then so many whole blocks of `d` numbers are below `N`
    have hle : q + 1 ≤ N / d := by
      rw [Nat.le_div_iff_mul_le h.pos]
      calc (q + 1) * d = d * q + d := by ring
        _ ≤ N := by omega
    have hmul : (q + 1) * e ≤ N / d * e := Nat.mul_le_mul_right _ hle
    have hdm : (r + 1) * m = P + e := by rw [hlast, mul_comm]; exact he
    rw [Nat.succ_mul] at hmul hdm
    omega
  · have hdm : (r + 2) * m ≤ P + e := by
      rw [← he, mul_comm m d]
      exact Nat.mul_le_mul_right _ (by omega)
    have hmul : q * e ≤ N / d * e := Nat.mul_le_mul_right _ hq
    have hsplit : (r + 2) * m = r * m + 2 * m := by ring
    omega

end Reciprocal
