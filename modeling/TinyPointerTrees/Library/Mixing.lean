import Mathlib.Data.Int.CardIntervalMod
import Mathlib.SetTheory.Cardinal.Finite
import Mathlib.Tactic

/-!
# Words that are mixed

Functions on words that lose nothing: `x ^ (x >> s)`, and multiplication by an odd
number, which loses nothing of the lower bits either. A counter that is increased by
an odd number takes all values before it takes one again (`add_mul_inj`).

`card_halves` — how many words have given lower bits in both halves.
-/

namespace Mixing

variable {w s k : ℕ}

/-! ### Permutations -/

/-- Where `x` and `y` differ would be where they differ, shifted. -/
theorem xorShift_injective (hs : 0 < s) :
    Function.Injective fun x : BitVec w => x ^^^ (x >>> s) := by
  intro x y h
  have hd : x ^^^ y = (x ^^^ y) >>> s := by
    have hxor : x ^^^ (x >>> s) ^^^ (y ^^^ (y >>> s)) = 0#w := BitVec.xor_eq_zero_iff.2 h
    have hassoc : x ^^^ (x >>> s) ^^^ (y ^^^ (y >>> s)) = x ^^^ y ^^^ (x ^^^ y) >>> s := by
      rw [BitVec.ushiftRight_xor_distrib]
      ac_rfl
    exact BitVec.xor_eq_zero_iff.1 (hassoc ▸ hxor)
  have hzero : x ^^^ y = 0#w := by
    refine BitVec.eq_of_toNat_eq ?_
    have hn := congrArg BitVec.toNat hd
    rw [BitVec.toNat_ushiftRight, Nat.shiftRight_eq_div_pow] at hn
    have hpow : 1 < 2 ^ s := Nat.one_lt_two_pow hs.ne'
    by_contra hne
    exact absurd hn (Nat.div_lt_self (Nat.pos_of_ne_zero hne) hpow).ne'
  exact BitVec.xor_eq_zero_iff.1 hzero

/-- The lower bits of a product with an odd number tell the lower bits of the factor. -/
theorem mul_mod_inj {m a b : ℕ} (hm : m % 2 = 1) :
    a * m % 2 ^ k = b * m % 2 ^ k ↔ a % 2 ^ k = b % 2 ^ k := by
  have hcop : Nat.gcd (2 ^ k) m = 1 := ((Nat.coprime_two_left.2 (Nat.odd_iff.2 hm)).pow_left k)
  constructor
  · intro h
    exact Nat.ModEq.cancel_right_of_coprime hcop h
  · intro h
    exact Nat.ModEq.mul_right m h

theorem mul_injective {m : BitVec w} (hm : m.toNat % 2 = 1) :
    Function.Injective fun x : BitVec w => x * m := by
  intro x y h
  have hn := congrArg BitVec.toNat h
  simp only [BitVec.toNat_mul] at hn
  rw [mul_mod_inj hm, Nat.mod_eq_of_lt x.isLt, Nat.mod_eq_of_lt y.isLt] at hn
  exact BitVec.eq_of_toNat_eq hn

/-- A counter that is increased by an odd number. -/
theorem add_mul_inj {c m : BitVec w} (hm : m.toNat % 2 = 1) (i j : ℕ) :
    c + BitVec.ofNat w i * m = c + BitVec.ofNat w j * m ↔ i % 2 ^ w = j % 2 ^ w := by
  rw [BitVec.add_right_inj, (mul_injective hm).eq_iff, ← BitVec.toNat_inj, BitVec.toNat_ofNat,
    BitVec.toNat_ofNat]

/-! ### Counting -/

/-- How many numbers have given lower bits. -/
theorem card_residues {n v : ℕ} (hk : k ≤ n) (hv : v < 2 ^ k) :
    ((Finset.range (2 ^ n)).filter fun i => i % 2 ^ k = v).card = 2 ^ (n - k) := by
  have hcount := Nat.count_modEq_card (2 ^ n) (Nat.two_pow_pos k) v
  rw [Nat.count_eq_card_filter_range] at hcount
  have hdvd : 2 ^ k ∣ 2 ^ n := Nat.pow_dvd_pow 2 hk
  rw [Nat.mod_eq_zero_of_dvd hdvd, if_neg (Nat.not_lt_zero _), Nat.add_zero,
    Nat.pow_div hk (by norm_num)] at hcount
  rw [← hcount]
  congr 1
  refine Finset.filter_congr fun i _ => ?_
  unfold Nat.ModEq
  rw [Nat.mod_eq_of_lt hv]

/-- How many numbers have given lower bits in their lower and in their upper half. -/
theorem card_halves {n a b : ℕ} (hk : k ≤ n) (ha : a < 2 ^ k) (hb : b < 2 ^ k) :
    ((Finset.range (2 ^ n * 2 ^ n)).filter fun x => x % 2 ^ n % 2 ^ k = a ∧
      x / 2 ^ n % 2 ^ k = b).card = 2 ^ (2 * n - 2 * k) := by
  have hpow : 2 ^ (2 * n - 2 * k) = 2 ^ (n - k) * 2 ^ (n - k) := by
    rw [← pow_add]
    congr 1
    omega
  calc _ = (((Finset.range (2 ^ n)).filter fun i => i % 2 ^ k = a) ×ˢ
        (Finset.range (2 ^ n)).filter fun i => i % 2 ^ k = b).card := by
        refine Finset.card_nbij' (fun x => (x % 2 ^ n, x / 2 ^ n)) (fun x =>
          x.1 + 2 ^ n * x.2) ?_ ?_ ?_ ?_
        · intro x hx
          obtain ⟨hlt, hlow, hhigh⟩ : x < 2 ^ n * 2 ^ n ∧ _ ∧ _ := by simpa using hx
          simpa using ⟨⟨Nat.mod_lt _ (Nat.two_pow_pos n), hlow⟩, Nat.div_lt_of_lt_mul hlt, hhigh⟩
        · rintro ⟨x, y⟩ hxy
          obtain ⟨⟨hx, hlow⟩, hy, hhigh⟩ : (x < 2 ^ n ∧ _) ∧ y < 2 ^ n ∧ _ := by simpa using hxy
          have hlt : x + 2 ^ n * y < 2 ^ n * 2 ^ n := by
            calc x + 2 ^ n * y < 2 ^ n + 2 ^ n * y := Nat.add_lt_add_right hx _
              _ = 2 ^ n * (y + 1) := by ring
              _ ≤ 2 ^ n * 2 ^ n := Nat.mul_le_mul_left _ hy
          have hmod : (x + 2 ^ n * y) % 2 ^ n =
            x := by rw [Nat.add_mul_mod_self_left, Nat.mod_eq_of_lt hx]
          have hdiv : (x + 2 ^ n * y) / 2 ^ n = y := by
            rw [Nat.add_mul_div_left _ _ (Nat.two_pow_pos n), Nat.div_eq_of_lt hx, Nat.zero_add]
          simpa [hmod, hdiv] using ⟨hlt, hlow, hhigh⟩
        · exact fun x _ => Nat.mod_add_div x (2 ^ n)
        · rintro ⟨x, y⟩ hxy
          obtain ⟨⟨hx, -⟩, -⟩ : (x < 2 ^ n ∧ _) ∧ y < 2 ^ n ∧ _ := by simpa using hxy
          simp [Nat.add_mul_mod_self_left, Nat.mod_eq_of_lt hx, Nat.add_mul_div_left _ _
            (Nat.two_pow_pos n), Nat.div_eq_of_lt hx]
    _ = 2 ^ (2 * n - 2 * k) := by rw [Finset.card_product, card_residues hk ha,
    card_residues hk hb, hpow]

end Mixing
