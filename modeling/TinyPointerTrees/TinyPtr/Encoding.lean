import TinyPointerTrees.Library.Integers
import TinyPointerTrees.TinyPtr.TinyPtr

/-!
# How a tiny pointer is computed

The constructors and the accessors of `TinyPtr` with their assertions, operation by
operation: operands are promoted, the literal `1` is an `int`, and what is computed is
narrowed to `T`. A computation is `none` if it is undefined or if an assertion fails.

* `construct_eq`, `readIndex_eq`, `readSpecial_eq`, `readHashFn_eq` — what is computed
  is what `TinyPtr.ofFields` and the fields of a tiny pointer say, if all bounds are
  within `int`.
* `bijective_iff` — this is so, and the encoding a bijection, exactly for the layouts of
  less than 32 bits and those of 32 bits that have special bits.
-/

namespace TinyPointerTrees.TinyPtr

open Cpp Cpp.Value

variable {L : Layout}

/-! ### The constructors -/

/-- `((index + 1) << (1 + S)) | (special << 1) | h`. -/
def encode (L : Layout) (index special : ℕ) (h : Bool) : Option (TinyPtr L) := do
  let biased ← binary (· + ·) (promote L.w index) (int 1)
  let i ← biased.shiftLeft (1 + L.S)
  let s ← (promote L.w special).shiftLeft 1
  let v ← binary Int.lor i s
  let v ← binary Int.lor v (int h.toNat)
  return ⟨v.toUnsigned L.w⟩

/-- `index < (1 << (sizeof(T) * 8 - S - 1)) - 1`. -/
def indexInBounds (L : Layout) (index : ℕ) : Option Bool := do
  let bound ← (int 1).shiftLeft (L.w - L.S - 1)
  let bound ← binary (· - ·) bound (int 1)
  return less (promote L.w index) bound

/-- `special < (1 << S)`. -/
def specialInBounds (L : Layout) (special : ℕ) : Option Bool := do
  let bound ← (int 1).shiftLeft L.S
  return less (promote L.w special) bound

/-- An assertion. -/
def assert (b : Option Bool) : Option Unit := b.bind fun b => if b then some () else none

/-- `TinyPtr(index, special, h)`. -/
def construct (L : Layout) (index special : ℕ) (h : Bool) : Option (TinyPtr L) := do
  let p ← encode L index special h
  assert (indexInBounds L index)
  assert (specialInBounds L special)
  return p

/-! ### The accessors -/

/-- A tiny pointer that is neither null nor tagged. -/
def Ordinary (p : TinyPtr L) : Prop := p ≠ .null ∧ p ≠ .tagged

instance (p : TinyPtr L) : Decidable p.Ordinary := inferInstanceAs (Decidable (_ ∧ _))

/-- `hash_fn()`. -/
def readHashFn (p : TinyPtr L) : Option Bool := do
  assert (some (decide p.Ordinary))
  let v ← binary Int.land (promote L.w p.value.toNat) (int 1)
  return decide (v.val ≠ 0)

/-- `index()`. -/
def readIndex (p : TinyPtr L) : Option ℕ := do
  assert (some (decide p.Ordinary))
  let v ← (promote L.w p.value.toNat).shiftRight (1 + L.S)
  let v ← binary (· - ·) v (int 1)
  return (v.toUnsigned L.w).toNat

/-- `special()`. -/
def readSpecial (p : TinyPtr L) : Option ℕ := do
  assert (some (decide p.Ordinary))
  let v ← (promote L.w p.value.toNat).shiftRight 1
  let mask ← (int 1).shiftLeft L.S
  let mask ← binary (· - ·) mask (int 1)
  let v ← binary Int.land v mask
  return (v.toUnsigned L.w).toNat

/-- The encoding is a bijection between the admissible fields and the ordinary pointers. -/
structure Bijective (L : Layout) : Prop where
  decode_encode : ∀ index special h, index < 2 ^ (L.w - 1 - L.S) - 1 → special < 2 ^ L.S →
    ∃ p : TinyPtr L, construct L index special h = some p ∧ p ≠ .null ∧ p ≠ .tagged ∧
      p.readIndex = some index ∧ p.readSpecial = some special ∧ p.readHashFn = some h
  encode_decode : ∀ p : TinyPtr L, p.value >>> (1 + L.S) ≠ 0 →
    ∃ index special h, p.readIndex = some index ∧ p.readSpecial = some special ∧
      p.readHashFn = some h ∧ construct L index special h = some p

/-! ### What is computed -/

/-- The bounds that the assertions and `special()` compute are within `int`. -/
structure Bounded (L : Layout) : Prop where
  index : L.w - L.S - 1 < 31
  special : L.S < 31

theorem lor_cast (a b : ℕ) : Int.lor a b = ((a ||| b : ℕ) : ℤ) := rfl

theorem land_cast (a b : ℕ) : Int.land a b = ((a &&& b : ℕ) : ℤ) := rfl

theorem shiftLeft_one {n : ℕ} (hn : n < 31) : (int 1).shiftLeft n = some (int (2 ^ n : ℕ)) := by
  have h : 1 * 2 ^ n < 2 ^ 31 := by
    rw [one_mul]
    exact Nat.pow_lt_pow_right (by norm_num) hn
  have := shiftLeft_promote (w := 31) hn h
  rwa [one_mul] at this

theorem sub_one {w a : ℕ} (ha : a < 2 ^ w) (ha0 : 0 < a) (hw : 0 < w) :
    binary (· - ·) (promote w a) (int 1) = some (promote w (a - 1)) := by
  refine binary_promote_one ?_ hw ha (by omega)
  rw [Nat.cast_sub (Nat.one_le_iff_ne_zero.2 ha0.ne'), Nat.cast_one]

theorem mask_eq {n : ℕ} (hn : n < 31) :
    ((int 1).shiftLeft n).bind (fun b => binary (· - ·) b (int 1)) =
      some (int (2 ^ n - 1 : ℕ)) := by
  rw [shiftLeft_one hn, Option.bind_some, int_eq_promote]
  exact sub_one (Nat.pow_lt_pow_right (by norm_num) hn) (by positivity) (by norm_num)

variable {index special : ℕ} {h : Bool}

theorem biased_lt (hi : index < L.entriesPerBinCount) : (index + 1) * 2 ^ (1 + L.S) < 2 ^ L.w :=
  calc (index + 1) * 2 ^ (1 + L.S) ≤ (index + 1) * 2 ^ (1 + L.S) +
    (0 * 2 + (false).toNat) := Nat.le_add_right _ _
    _ < 2 ^ L.w := packed_lt hi (by positivity)

theorem index_lt (hi : index < L.entriesPerBinCount) : index + 1 < 2 ^ L.w :=
  (Nat.le_mul_of_pos_right _ (by positivity)).trans_lt (biased_lt hi)

theorem special_lt (hs : special < 2 ^ L.S) : special * 2 ^ 1 < 2 ^ L.w := by
  have := L.index_bit
  calc special * 2 ^ 1 < 2 ^ L.S * 2 ^ 1 := by omega
    _ = 2 ^ (L.S + 1) := (pow_add ..).symm
    _ ≤ 2 ^ L.w := Nat.pow_le_pow_right (by norm_num) (by omega)

/-- The word is computed without overflow for every layout. -/
theorem encode_eq (hi : index < L.entriesPerBinCount) (hs : special < 2 ^ L.S) :
    encode L index special h = some (.ofFields index special h) := by
  have hw := L.index_bit
  have hone : 1 < 2 ^ L.w := Nat.one_lt_two_pow (by omega)
  have hh : h.toNat < 2 ^ L.w := by
    cases h
    · exact Nat.zero_lt_of_lt hone
    · exact hone
  have hor := Nat.or_lt_two_pow (biased_lt hi) (special_lt hs)
  have h₁ : binary (· + ·) (promote L.w index) (int 1) = some (promote L.w (index + 1)) :=
    binary_promote_one (by push_cast; rfl) (by omega) ((Nat.lt_succ_self _).trans
      (index_lt hi)) (index_lt hi)
  have h₂ := shiftLeft_promote (by omega) (biased_lt hi)
  have h₃ := shiftLeft_promote (by omega) (special_lt hs)
  have h₄ := binary_promote (lor_cast _ _) (biased_lt hi) (special_lt hs) hor
  have h₅ := binary_promote_int (lor_cast _ _) hor hh (Nat.or_lt_two_pow hor hh)
  simp only [encode, Option.bind_eq_bind, h₁, h₂, h₃, h₄, h₅, Option.bind_some,
    toUnsigned_promote, ofFields, Nat.shiftLeft_eq]
  rfl

theorem indexInBounds_eq (hL : Bounded L) (hi : index < 2 ^ L.w) :
    indexInBounds L index = some (decide (index < L.entriesPerBinCount)) := by
  have hw := L.index_bit
  have hbits : L.w - L.S - 1 = L.bucketIndexBits := by
    unfold Layout.bucketIndexBits
    omega
  have hlt : L.entriesPerBinCount < 2 ^ L.w :=
    L.entriesPerBinCount_lt.trans_le (Nat.pow_le_pow_right (by norm_num) (by rw [L.w_eq]; omega))
  have hmask := mask_eq hL.index
  unfold indexInBounds
  rw [Option.bind_eq_bind, ← Option.bind_assoc, hmask, Option.bind_some,
    hbits, ← Layout.entriesPerBinCount, less_promote_int hi hlt]
  rfl

theorem specialInBounds_eq (hL : Bounded L) (hs : special < 2 ^ L.w) :
    specialInBounds L special = some (decide (special < 2 ^ L.S)) := by
  have hw := L.index_bit
  unfold specialInBounds
  rw [Option.bind_eq_bind, shiftLeft_one hL.special, Option.bind_some,
    less_promote_int hs (Nat.pow_lt_pow_right (by norm_num) (by omega))]
  rfl

theorem construct_eq (hL : Bounded L) (hi : index < L.entriesPerBinCount) (hs : special < 2 ^ L.S) :
    construct L index special h = some (.ofFields index special h) := by
  have hi' : index < 2 ^ L.w := by
    have := index_lt hi
    omega
  have hs' : special < 2 ^ L.w :=
    (Nat.le_mul_of_pos_right _ (by positivity)).trans_lt (special_lt hs)
  unfold construct
  rw [encode_eq hi hs, indexInBounds_eq hL hi', specialInBounds_eq hL hs', decide_eq_true hi,
    decide_eq_true hs]
  rfl

/-! ### The fields as numbers -/

variable {p : TinyPtr L}

/-- The index field is at least one. -/
def IndexField (p : TinyPtr L) : Prop := p.value >>> (1 + L.S) ≠ 0

theorem IndexField.pos (hp : p.IndexField) : 0 < p.value.toNat / 2 ^ (1 + L.S) := by
  rw [Nat.pos_iff_ne_zero]
  intro h
  refine hp (BitVec.eq_of_toNat_eq ?_)
  rw [BitVec.toNat_ushiftRight, Nat.shiftRight_eq_div_pow, h]
  rfl

theorem field_lt (p : TinyPtr L) : p.value.toNat / 2 ^ (1 + L.S) < 2 ^ L.w :=
  (Nat.div_le_self _ _).trans_lt p.value.isLt

theorem IndexField.ordinary (hp : p.IndexField) : p.Ordinary := by
  have hpos := hp.pos
  have hle : 2 ^ (1 + L.S) ≤ p.value.toNat := (Nat.div_pos_iff.1 hpos).2
  have htwo : 2 ^ 1 ≤ 2 ^ (1 + L.S) := Nat.pow_le_pow_right (by norm_num) (by omega)
  have hone : 1 % 2 ^ L.w ≤ 1 := Nat.mod_le _ _
  constructor
  · rintro rfl
    simp [null] at hle
  · rintro rfl
    simp only [tagged, BitVec.ofNat_eq_ofNat, BitVec.toNat_ofNat] at hle
    omega

theorem IndexField.index_eq (hp : p.IndexField) : p.index = p.value.toNat / 2 ^ (1 + L.S) - 1 := by
  have h1 : (1 : BitVec L.w).toNat = 1 := by
    rw [BitVec.ofNat_eq_ofNat, BitVec.toNat_ofNat, Nat.mod_eq_of_lt L.two_le_two_pow]
  have hpos := hp.pos
  have hlt := field_lt p
  unfold index
  rw [BitVec.toNat_sub, BitVec.toNat_ushiftRight, Nat.shiftRight_eq_div_pow, h1,
    show 2 ^ L.w - 1 + p.value.toNat / 2 ^ (1 + L.S) = p.value.toNat / 2 ^ (1 + L.S) - 1 +
    2 ^ L.w by omega,
    Nat.add_mod_right, Nat.mod_eq_of_lt (by omega)]

theorem IndexField.index_lt (hp : p.IndexField) : p.index < L.entriesPerBinCount := by
  have hlt : p.value.toNat / 2 ^ (1 + L.S) < 2 ^ L.bucketIndexBits := by
    refine Nat.div_lt_of_lt_mul ?_
    rw [← pow_add, Nat.add_comm, ← L.w_eq]
    exact p.value.isLt
  have hpos := hp.pos
  rw [hp.index_eq]
  unfold Layout.entriesPerBinCount
  omega

theorem special_eq (p : TinyPtr L) : p.special = p.value.toNat / 2 % 2 ^ L.S := by
  have hw := L.index_bit
  have hmask : 2 ^ L.S - 1 < 2 ^ L.w := by
    have : 2 ^ L.S ≤ 2 ^ L.w := Nat.pow_le_pow_right (by norm_num) (by omega)
    have : 0 < 2 ^ L.S := by positivity
    omega
  unfold special
  rw [BitVec.toNat_and, BitVec.toNat_ushiftRight, BitVec.toNat_ofNat, Nat.mod_eq_of_lt hmask,
    Nat.and_two_pow_sub_one_eq_mod, Nat.shiftRight_eq_div_pow, pow_one]

theorem special_lt_two_pow (p : TinyPtr L) : p.special < 2 ^ L.S := by
  rw [special_eq]
  exact Nat.mod_lt _ (by positivity)

theorem toNat_hashFn (p : TinyPtr L) : p.hashFn.toNat = p.value.toNat % 2 := by
  unfold hashFn
  rw [BitVec.getLsbD, Nat.testBit_zero]
  rcases Nat.mod_two_eq_zero_or_one p.value.toNat with h | h <;> simp [h]

/-! ### What is read -/

theorem readHashFn_eq (hp : p.Ordinary) : p.readHashFn = some p.hashFn := by
  have hw := L.index_bit
  have hone : 1 < 2 ^ L.w := Nat.one_lt_two_pow (by omega)
  have hlt : p.value.toNat &&& 1 < 2 ^ L.w := Nat.and_lt_two_pow _ hone
  unfold readHashFn
  rw [binary_promote_one (land_cast _ 1) (by omega) p.value.isLt hlt]
  have hval : (promote L.w (p.value.toNat &&& 1)).val = ((p.value.toNat &&& 1 : ℕ) : ℤ) := by
    unfold promote
    split_ifs <;> rfl
  simp only [decide_eq_true hp, assert, Option.bind_some, if_true, Option.bind_eq_bind, hval,
    Nat.cast_ne_zero]
  rw [Nat.and_one_is_mod, ← toNat_hashFn]
  cases p.hashFn <;> rfl

theorem readIndex_eq (hp : p.Ordinary) (hf : p.IndexField) : p.readIndex = some p.index := by
  have hw := L.index_bit
  unfold readIndex
  rw [shiftRight_promote (by omega)]
  simp only [decide_eq_true hp, assert, Option.bind_some, if_true, Option.bind_eq_bind]
  rw [sub_one (field_lt p) hf.pos (by omega), Option.bind_some, toUnsigned_promote]
  rw [BitVec.toNat_ofNat, Nat.mod_eq_of_lt ((Nat.sub_le _ _).trans_lt (field_lt p)), hf.index_eq]
  rfl

theorem readSpecial_eq (hL : Bounded L) (hp : p.Ordinary) : p.readSpecial = some p.special := by
  have hw := L.index_bit
  have hmask := mask_eq hL.special
  have hlt : 2 ^ L.S - 1 < 2 ^ L.w := by
    have : 2 ^ L.S ≤ 2 ^ L.w := Nat.pow_le_pow_right (by norm_num) (by omega)
    have : 0 < 2 ^ L.S := by positivity
    omega
  unfold readSpecial
  rw [shiftRight_promote (by omega)]
  simp only [decide_eq_true hp, assert, Option.bind_some, if_true, Option.bind_eq_bind]
  rw [← Option.bind_assoc, hmask, Option.bind_some, binary_promote_int (land_cast _ _)
    ((Nat.div_le_self _ _).trans_lt p.value.isLt) hlt (Nat.and_lt_two_pow _ hlt), Option.bind_some,
    toUnsigned_promote]
  rw [BitVec.toNat_ofNat, Nat.mod_eq_of_lt (Nat.and_lt_two_pow _ hlt),
    Nat.and_two_pow_sub_one_eq_mod, special_eq, pow_one]
  rfl

/-! ### From the fields back to the pointer -/

theorem IndexField.ofFields_eq (hp : p.IndexField) : .ofFields p.index p.special p.hashFn = p := by
  have hpos := hp.pos
  have hvalue : (ofFields p.index p.special p.hashFn : TinyPtr L).value.toNat = p.value.toNat := by
    rw [toNat_ofFields hp.index_lt (special_lt_two_pow p), hp.index_eq, special_eq, toNat_hashFn,
      Nat.sub_add_cancel hpos, pow_add, pow_one, ← Nat.div_div_eq_div_mul]
    have h₁ := Nat.div_add_mod (p.value.toNat / 2) (2 ^ L.S)
    have h₂ := Nat.div_add_mod p.value.toNat 2
    calc p.value.toNat / 2 / 2 ^ L.S * (2 * 2 ^ L.S) +
          (p.value.toNat / 2 % 2 ^ L.S * 2 + p.value.toNat % 2)
        = 2 * (2 ^ L.S * (p.value.toNat / 2 / 2 ^ L.S) + p.value.toNat / 2 % 2 ^ L.S) +
        p.value.toNat % 2 := by ring
      _ = p.value.toNat := by rw [h₁, h₂]
  have hbits := BitVec.eq_of_toNat_eq hvalue
  calc (ofFields p.index p.special p.hashFn : TinyPtr L)
      = ⟨(ofFields p.index p.special p.hashFn : TinyPtr L).value⟩ := rfl
    _ = ⟨p.value⟩ := by rw [hbits]

/-! ### Where it is a bijection -/

theorem Bounded.bijective (hL : Bounded L) : Bijective L where
  decode_encode index special h hi hs := by
    have hi' : index < L.entriesPerBinCount := hi
    have hnull := ofFields_ne_null (h := h) hi' hs
    have htagged := ofFields_ne_tagged (h := h) hi' hs
    have hfield : (ofFields index special h : TinyPtr L).IndexField := by
      intro h0
      have h1 := congrArg BitVec.toNat h0
      rw [BitVec.toNat_ushiftRight, toNat_ofFields hi' hs, Nat.shiftRight_eq_div_pow] at h1
      have hle : 1 ≤ ((index + 1) * 2 ^ (1 + L.S) + (special * 2 + h.toNat)) / 2 ^ (1 + L.S) := by
        rw [Nat.one_le_div_iff (by positivity)]
        nlinarith [Nat.two_pow_pos (1 + L.S)]
      simp only [BitVec.ofNat_eq_ofNat, BitVec.toNat_ofNat, Nat.zero_mod] at h1
      omega
    refine ⟨_, construct_eq hL hi' hs, hnull, htagged, ?_, ?_, ?_⟩
    · rw [readIndex_eq ⟨hnull, htagged⟩ hfield, index_ofFields hi' hs]
    · rw [readSpecial_eq hL ⟨hnull, htagged⟩, special_ofFields hi' hs]
    · rw [readHashFn_eq ⟨hnull, htagged⟩, hashFn_ofFields]
  encode_decode p hp := by
    have hp' : p.IndexField := hp
    refine ⟨p.index, p.special, p.hashFn, readIndex_eq hp'.ordinary hp',
      readSpecial_eq hL hp'.ordinary, readHashFn_eq hp'.ordinary, ?_⟩
    rw [construct_eq hL hp'.index_lt (special_lt_two_pow p), hp'.ofFields_eq]

/-- A bound that leaves `int` is undefined. -/
theorem bound_eq_none {n : ℕ} (hn : 31 ≤ n) :
    ((int 1).shiftLeft n).bind (fun b => binary (· - ·) b (int 1)) = none := by
  unfold shiftLeft
  split_ifs with h
  · have hn' : n = 31 := by
      have h' : n < 32 := h
      omega
    subst hn'
    decide
  · rfl

theorem indexInBounds_eq_none (h : 31 ≤ L.w - L.S - 1) : indexInBounds L index = none := by
  unfold indexInBounds
  rw [Option.bind_eq_bind, ← Option.bind_assoc, bound_eq_none h]
  rfl

theorem specialInBounds_eq_none (h : 32 ≤ L.S) : specialInBounds L special = none := by
  have hn : ¬L.S < (int 1).type.width := by
    show ¬L.S < 32
    omega
  unfold specialInBounds shiftLeft
  rw [if_neg hn]
  rfl

/-- No constructor with an unbounded layout is defined. -/
theorem construct_eq_none (h : 31 ≤ L.w - L.S - 1 ∨ 32 ≤ L.S) (b : Bool) :
    construct L index special b = none := by
  unfold construct
  cases encode L index special b with
  | none => rfl
  | some p =>
    rcases h with h | h
    · rw [indexInBounds_eq_none h]
      rfl
    · rw [specialInBounds_eq_none h]
      cases assert (indexInBounds L index) <;> rfl

/-- Which layouts have their bounds within `int`. -/
theorem bounded_iff (L : Layout) : Bounded L ↔ L.w < 32 ∨ L.w = 32 ∧ 0 < L.S := by
  have hw := L.index_bit
  have hwidth := L.unsigned_integral
  constructor
  · rintro ⟨hindex, hspecial⟩
    omega
  · intro h
    exact ⟨by omega, by omega⟩

theorem construct_eq_none_of_not (h : ¬Bounded L) {b : Bool} :
    construct L index special b = none := by
  have hw := L.index_bit
  have hwidth := L.unsigned_integral
  rw [bounded_iff] at h
  exact construct_eq_none (by omega) b

theorem eq_of_construct {p : TinyPtr L} (hi : index < L.entriesPerBinCount) (hs : special < 2 ^ L.S)
    (hp : construct L index special h = some p) : p = .ofFields index special h := by
  by_cases hL : Bounded L
  · rw [construct_eq hL hi hs] at hp
    exact (Option.some.inj hp).symm
  · rw [construct_eq_none_of_not hL] at hp
    cases hp

/-- The encoding is a bijection for the layouts of which no bound leaves `int`. -/
theorem bijective_iff (L : Layout) : Bijective L ↔ L.w < 32 ∨ L.w = 32 ∧ 0 < L.S := by
  rw [← bounded_iff]
  constructor
  · intro h
    by_contra hn
    have hw := L.index_bit
    have hbits : 2 ^ 1 ≤ 2 ^ (L.w - 1 - L.S) := Nat.pow_le_pow_right (by norm_num) (by omega)
    obtain ⟨p, hp, -⟩ := h.decode_encode 0 0 false (by omega) (by positivity)
    rw [construct_eq_none_of_not hn] at hp
    cases hp
  · exact Bounded.bijective

/-- `TinyPtr<uint64_t>` is no bijection: the bound of its assertion is `1 << 63`, in `int`. -/
theorem not_bijective : ¬∀ L : Layout, Bijective L := by
  intro h
  obtain ⟨p, hp, -⟩ := (h ⟨64, 0, by decide, by decide⟩).decode_encode 0 0 false
    (by decide) (by decide)
  rw [construct_eq_none (.inl (by decide))] at hp
  cases hp

end TinyPointerTrees.TinyPtr
