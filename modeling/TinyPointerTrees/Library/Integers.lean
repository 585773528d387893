import Mathlib.Data.Int.Bitwise
import Mathlib.Tactic

/-!
# Integer promotion

The arithmetic of C++ on operands of unsigned types and on `int` literals, where
`int` has 32 bits. An operand of a type with fewer bits is promoted to `int`, and
computations on `int` that leave its range are undefined; an operand of another
unsigned type keeps its type, and computations on it are modulo a power of two. Of
two operands of different types the `int` is converted to the unsigned type.

`Value.binary_promote` and the lemmas after it say that operations on promoted values
are those on natural numbers, as long as nothing leaves the type that was promoted.
-/

namespace Cpp

/-- The type of an operand after promotion. -/
inductive Promoted where
  /-- `int`. -/
  | int
  /-- An unsigned type with so many bits, at least 32. -/
  | unsigned (w : ℕ)
  deriving DecidableEq

namespace Promoted

/-- The number of bits. -/
def width : Promoted → ℕ
  | int => 32
  | unsigned w => w

/-- The type in which two operands are combined. -/
def common : Promoted → Promoted → Promoted
  | int, t => t
  | unsigned w, int => unsigned w
  | unsigned w, unsigned w' => unsigned (max w w')

/-- An operand is converted to the common type. -/
def convert (v : ℤ) : Promoted → ℤ
  | int => v
  | unsigned w => v % 2 ^ w

/-- What an operation yields; nothing when `int` overflows. -/
def result (v : ℤ) : Promoted → Option ℤ
  | int => if -2 ^ 31 ≤ v ∧ v < 2 ^ 31 then some v else none
  | unsigned w => some (v % 2 ^ w)

/-- What a shift to the left yields, which does not overflow. -/
def wrap (v : ℤ) : Promoted → ℤ
  | int => Int.bmod v (2 ^ 32)
  | unsigned w => v % 2 ^ w

end Promoted

/-- An operand. -/
structure Value where
  /-- Its type. -/
  type : Promoted
  /-- Its value. -/
  val : ℤ
  deriving DecidableEq

namespace Value

/-- An `int`. -/
def int (v : ℤ) : Value := ⟨.int, v⟩

/-- An operand of an unsigned type with `w` bits, promoted. -/
def promote (w n : ℕ) : Value := if w < 32 then ⟨.int, n⟩ else ⟨.unsigned w, n⟩

/-- A binary operation. -/
def binary (f : ℤ → ℤ → ℤ) (a b : Value) : Option Value :=
  let t := a.type.common b.type
  (t.result (f (t.convert a.val) (t.convert b.val))).map (Value.mk t)

/-- `a < b`. -/
def less (a b : Value) : Bool :=
  let t := a.type.common b.type
  decide (t.convert a.val < t.convert b.val)

/-- `a << n`, which is undefined when there are not so many bits. -/
def shiftLeft (a : Value) (n : ℕ) : Option Value :=
  if n < a.type.width then some ⟨a.type, a.type.wrap (a.val * 2 ^ n)⟩ else none

/-- `a >> n`. -/
def shiftRight (a : Value) (n : ℕ) : Option Value :=
  if n < a.type.width then some ⟨a.type, a.val / 2 ^ n⟩ else none

/-- The conversion to an unsigned type with `w` bits. -/
def toUnsigned (w : ℕ) (a : Value) : BitVec w := BitVec.ofInt w a.val

variable {w a b c n : ℕ}

theorem lt_int (hw : w < 32) (ha : a < 2 ^ w) : (a : ℤ) < 2 ^ 31 := by
  have h : 2 ^ w ≤ 2 ^ 31 := Nat.pow_le_pow_right (by norm_num) (by omega)
  exact_mod_cast ha.trans_le h

theorem convert_unsigned (ha : a < 2 ^ w) : Promoted.convert (a : ℤ) (.unsigned w) = a := by
  unfold Promoted.convert
  exact Int.emod_eq_of_lt (by positivity) (by exact_mod_cast ha)

theorem result_int (hw : w < 32) (ha : a < 2 ^ w) :
    Promoted.result (a : ℤ) .int = some (a : ℤ) := by
  have h := lt_int hw ha
  have h0 : (0 : ℤ) ≤ a := by positivity
  unfold Promoted.result
  rw [if_pos ⟨by omega, h⟩]

theorem result_unsigned (ha : a < 2 ^ w) :
    Promoted.result (a : ℤ) (.unsigned w) = some (a : ℤ) := by
  simp only [Promoted.result]
  rw [Int.emod_eq_of_lt (by positivity) (by exact_mod_cast ha)]

/-- An operation on two promoted values. -/
theorem binary_promote {f : ℤ → ℤ → ℤ} (hf : f a b = c) (ha : a < 2 ^ w) (hb : b < 2 ^ w)
    (hc : c < 2 ^ w) : binary f (promote w a) (promote w b) = some (promote w c) := by
  by_cases hw : w < 32
  · simp only [binary, promote, if_pos hw, Promoted.common, Promoted.convert, hf, result_int hw hc]
    rfl
  · simp only [binary, promote, if_neg hw, Promoted.common, max_self, convert_unsigned ha,
      convert_unsigned hb, hf, result_unsigned hc]
    rfl

/-- An operation on a promoted value and an `int`. -/
theorem binary_promote_int {f : ℤ → ℤ → ℤ} (hf : f a b = c) (ha : a < 2 ^ w) (hb : b < 2 ^ w)
    (hc : c < 2 ^ w) : binary f (promote w a) (int b) = some (promote w c) := by
  by_cases hw : w < 32
  · simp only [binary, promote, int, if_pos hw, Promoted.common, Promoted.convert, hf,
      result_int hw hc]
    rfl
  · simp only [binary, promote, int, if_neg hw, Promoted.common, convert_unsigned ha,
      convert_unsigned hb, hf, result_unsigned hc]
    rfl

theorem binary_promote_one {f : ℤ → ℤ → ℤ} (hf : f a 1 = c) (hw : 0 < w) (ha : a < 2 ^ w)
    (hc : c < 2 ^ w) : binary f (promote w a) (int 1) = some (promote w c) :=
  binary_promote_int (b := 1) (by exact_mod_cast hf) ha (Nat.one_lt_two_pow hw.ne') hc

theorem less_promote_int (ha : a < 2 ^ w) (hb : b < 2 ^ w) :
    less (promote w a) (int b) = decide (a < b) := by
  by_cases hw : w < 32
  · simp [less, promote, int, hw, Promoted.common, Promoted.convert]
  · simp only [less, promote, int, if_neg hw, Promoted.common, convert_unsigned ha,
      convert_unsigned hb, Nat.cast_lt]

theorem width_promote (n : ℕ) : w ≤ (promote w n).type.width := by
  unfold promote
  split_ifs with hw
  · exact hw.le
  · exact le_rfl

theorem shiftLeft_promote (hn : n < w) (ha : a * 2 ^ n < 2 ^ w) :
    (promote w a).shiftLeft n = some (promote w (a * 2 ^ n)) := by
  rw [shiftLeft, if_pos (hn.trans_le (width_promote a))]
  by_cases hw : w < 32
  · have h := lt_int hw ha
    have h0 : (0 : ℤ) ≤ (a * 2 ^ n : ℕ) := by positivity
    simp only [promote, if_pos hw, Promoted.wrap, Option.some.injEq, mk.injEq, true_and]
    rw [← Nat.cast_ofNat, ← Nat.cast_pow, ← Nat.cast_mul, Int.bmod_eq_of_le (by omega) (by omega)]
  · simp only [promote, if_neg hw, Promoted.wrap, Option.some.injEq, mk.injEq, true_and]
    rw [← Nat.cast_ofNat, ← Nat.cast_pow, ← Nat.cast_mul, ← Nat.cast_pow]
    exact_mod_cast Nat.mod_eq_of_lt ha

theorem shiftRight_promote (hn : n < w) :
    (promote w a).shiftRight n = some (promote w (a / 2 ^ n)) := by
  rw [shiftRight, if_pos (hn.trans_le (width_promote a))]
  unfold promote
  split_ifs <;> simp

/-- A non-negative `int` is a promoted value. -/
theorem int_eq_promote (a : ℕ) : int a = promote 31 a := rfl

theorem toUnsigned_promote : (promote w a).toUnsigned w = BitVec.ofNat w a := by
  unfold promote
  split_ifs <;> simp [toUnsigned]

end Value

end Cpp
