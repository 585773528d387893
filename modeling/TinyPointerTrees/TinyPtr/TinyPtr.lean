import Mathlib.Tactic

/-!
# Tiny pointers

`tiny_ptr/tiny_ptr.h`: a tiny pointer is a word of type `T` whose lowest bit says
which of the two hash values is meant, whose next `S` bits are special
information, and whose remaining bits are an index starting at one. The two
values with index field `0` and no special bits are `null` and `tagged`.

A `Layout` is an instantiation `TinyPtr<T, S>` that the class's static assertion
admits. Words are `BitVec`s; the constructors compute in a wider type and narrow
the result, here as there.

* `index_ofFields`, `special_ofFields`, `hashFn_ofFields` — the fields of a
  constructed pointer, the first two for arguments that pass the constructor's assertions.
* `ofFields_ne_null`, `ofFields_ne_tagged` — it is neither special value.
-/

namespace TinyPointerTrees

/-- The bits of `smallest_uint_t<NBits>`. -/
def smallestUint (n : ℕ) : ℕ :=
  if n ≤ 8 then 8 else if n ≤ 16 then 16 else if n ≤ 32 then 32 else 64

/-- An instantiation `TinyPtr<T, S>`: `T` has `w` bits, `S` of them special. -/
structure Layout where
  /-- The bits of `T`. -/
  w : ℕ
  /-- The special bits. -/
  S : ℕ
  /-- `T` is an unsigned integer type. -/
  unsigned_integral : w = 8 ∨ w = 16 ∨ w = 32 ∨ w = 64
  /-- "there must be at least one bit left for the index". -/
  index_bit : S + 1 < w
  deriving DecidableEq

namespace Layout

/-- `TinyPtr<uint8_t, S>`. -/
abbrev byte (S : ℕ) (h : S + 1 < 8) : Layout := ⟨8, S, Or.inl rfl, h⟩

variable (L : Layout)

/-- `BUCKET_INDEX_BITS`, what is left of a tiny pointer for the entry index. -/
def bucketIndexBits : ℕ := L.w - 1 - L.S

/-- `ENTRIES_PER_BIN_COUNT`; minus one to preserve null and tagged. -/
def entriesPerBinCount : ℕ := 2 ^ L.bucketIndexBits - 1

/-- The bits of `BucketIndexT`, which can be fewer than those of `T`. -/
def bucketIndexWidth : ℕ := smallestUint L.bucketIndexBits

theorem w_eq : L.w = L.bucketIndexBits + (1 + L.S) := by
  have := L.index_bit
  unfold bucketIndexBits
  omega

theorem two_le_two_pow : 2 ≤ 2 ^ L.w := by
  have := L.index_bit
  calc 2 = 2 ^ 1 := rfl
    _ ≤ 2 ^ L.w := Nat.pow_le_pow_right (by norm_num) (by omega)

theorem bucketIndexBits_pos : 0 < L.bucketIndexBits := by
  have := L.index_bit
  unfold bucketIndexBits
  omega

theorem bucketIndexBits_le : L.bucketIndexBits ≤ L.bucketIndexWidth := by
  have h : L.bucketIndexBits < 64 := by
    rcases L.unsigned_integral with h | h | h | h <;> unfold bucketIndexBits <;> omega
  unfold bucketIndexWidth smallestUint
  split_ifs <;> omega

theorem entriesPerBinCount_pos : 0 < L.entriesPerBinCount := by
  have : 2 ^ 1 ≤ 2 ^ L.bucketIndexBits := Nat.pow_le_pow_right (by norm_num) L.bucketIndexBits_pos
  unfold entriesPerBinCount
  omega

theorem entriesPerBinCount_lt : L.entriesPerBinCount < 2 ^ L.bucketIndexBits := by
  have : 0 < 2 ^ L.bucketIndexBits := by positivity
  unfold entriesPerBinCount
  omega

/-- An entry index, and the number of entries, fit in `BucketIndexT`. -/
theorem entriesPerBinCount_lt_width : L.entriesPerBinCount < 2 ^ L.bucketIndexWidth :=
  L.entriesPerBinCount_lt.trans_le (Nat.pow_le_pow_right (by norm_num) L.bucketIndexBits_le)

end Layout

/-- A tiny pointer. -/
structure TinyPtr (L : Layout) where
  /-- The word. -/
  value : BitVec L.w
  deriving DecidableEq

/-- The two hash values of a tiny pointer. -/
abbrev TinyPtrHashes := UInt64 × UInt64

namespace TinyPtr

variable {L : Layout}

/-- The null tiny pointer. -/
def null : TinyPtr L := ⟨0⟩

/-- The tagged tiny pointer. -/
def tagged : TinyPtr L := ⟨1⟩

/-- `TinyPtr(index, special, h)`: plus one on the index preserves null and tagged. -/
def ofFields (index special : ℕ) (h : Bool) : TinyPtr L :=
  ⟨BitVec.ofNat L.w ((index + 1) <<< (1 + L.S) ||| special <<< 1 ||| h.toNat)⟩

/-- Which hash value is used: the second one if set. -/
def hashFn (p : TinyPtr L) : Bool := p.value.getLsbD 0

/-- The index, minus one as it is stored plus one. -/
def index (p : TinyPtr L) : ℕ := ((p.value >>> (1 + L.S)) - 1).toNat

/-- The special bits. -/
def special (p : TinyPtr L) : ℕ := ((p.value >>> 1) &&& BitVec.ofNat L.w (2 ^ L.S - 1)).toNat

/-! ### The fields of a constructed pointer -/

variable {index special : ℕ} {h : Bool}

/-- The constructor's packing, as a sum. -/
theorem packed_eq (hs : special < 2 ^ L.S) :
    (index + 1) <<< (1 + L.S) ||| special <<< 1 ||| h.toNat =
      (index + 1) * 2 ^ (1 + L.S) + (special * 2 + h.toNat) := by
  have hb : h.toNat < 2 ^ 1 := Bool.toNat_lt h
  have hlow : special <<< 1 ||| h.toNat = special * 2 + h.toNat := by
    rw [← Nat.shiftLeft_add_eq_or_of_lt hb, Nat.shiftLeft_eq, pow_one]
  have hlt : special * 2 + h.toNat < 2 ^ (1 + L.S) := by rw [pow_add, pow_one]; omega
  rw [Nat.or_assoc, hlow, ← Nat.shiftLeft_add_eq_or_of_lt hlt, Nat.shiftLeft_eq]

theorem packed_lt (hi : index < L.entriesPerBinCount) (hs : special < 2 ^ L.S) :
    (index + 1) * 2 ^ (1 + L.S) + (special * 2 + h.toNat) < 2 ^ L.w := by
  have hb : h.toNat < 2 := Bool.toNat_lt h
  have hlt : special * 2 + h.toNat < 2 ^ (1 + L.S) := by rw [pow_add, pow_one]; omega
  have hidx : index + 2 ≤ 2 ^ L.bucketIndexBits := by
    unfold Layout.entriesPerBinCount at hi
    omega
  calc (index + 1) * 2 ^ (1 + L.S) + (special * 2 + h.toNat)
      < (index + 2) * 2 ^ (1 + L.S) := by ring_nf at hlt ⊢; omega
    _ ≤ 2 ^ L.bucketIndexBits * 2 ^ (1 + L.S) := Nat.mul_le_mul_right _ hidx
    _ = 2 ^ L.w := by rw [← pow_add, ← L.w_eq]

theorem toNat_ofFields (hi : index < L.entriesPerBinCount) (hs : special < 2 ^ L.S) :
    (ofFields index special h : TinyPtr L).value.toNat =
      (index + 1) * 2 ^ (1 + L.S) + (special * 2 + h.toNat) := by
  rw [ofFields, packed_eq hs, BitVec.toNat_ofNat, Nat.mod_eq_of_lt (packed_lt hi hs)]

theorem index_ofFields (hi : index < L.entriesPerBinCount) (hs : special < 2 ^ L.S) :
    (ofFields index special h : TinyPtr L).index = index := by
  have hb : h.toNat < 2 := Bool.toNat_lt h
  have hlt : special * 2 + h.toNat < 2 ^ (1 + L.S) := by rw [pow_add, pow_one]; omega
  have hw : index + 1 < 2 ^ L.w := by
    have h₁ := L.entriesPerBinCount_lt
    have h₂ : 2 ^ L.bucketIndexBits ≤ 2 ^ L.w := Nat.pow_le_pow_right (by norm_num) (by
      rw [L.w_eq]; omega)
    omega
  have h1 : (1 : BitVec L.w).toNat = 1 := by
    rw [BitVec.ofNat_eq_ofNat, BitVec.toNat_ofNat, Nat.mod_eq_of_lt L.two_le_two_pow]
  unfold TinyPtr.index
  rw [BitVec.toNat_sub, BitVec.toNat_ushiftRight, toNat_ofFields hi hs, Nat.shiftRight_eq_div_pow,
    Nat.mul_comm, Nat.mul_add_div (by positivity), Nat.div_eq_of_lt hlt, h1]
  rw [show 2 ^ L.w - 1 + (index + 1 + 0) = index + 2 ^ L.w by omega, Nat.add_mod_right,
    Nat.mod_eq_of_lt (Nat.lt_of_succ_lt hw)]

theorem special_ofFields (hi : index < L.entriesPerBinCount) (hs : special < 2 ^ L.S) :
    (ofFields index special h : TinyPtr L).special = special := by
  have hb : h.toNat < 2 := Bool.toNat_lt h
  have hmask : 2 ^ L.S - 1 < 2 ^ L.w := by
    have : 2 ^ L.S ≤ 2 ^ L.w := Nat.pow_le_pow_right (by norm_num) (by have := L.index_bit; omega)
    have : 0 < 2 ^ L.S := by positivity
    omega
  unfold TinyPtr.special
  rw [BitVec.toNat_and, BitVec.toNat_ushiftRight, toNat_ofFields hi hs, BitVec.toNat_ofNat,
    Nat.mod_eq_of_lt hmask, Nat.and_two_pow_sub_one_eq_mod, Nat.shiftRight_eq_div_pow, pow_one]
  rw [show (index + 1) * 2 ^ (1 + L.S) + (special * 2 + h.toNat) =
      h.toNat + 2 * ((index + 1) * 2 ^ L.S + special) by rw [pow_add, pow_one]; ring,
    Nat.add_mul_div_left _ _ (by norm_num), Nat.div_eq_of_lt hb, Nat.zero_add,
    Nat.mul_add_mod', Nat.mod_eq_of_lt hs]

theorem hashFn_ofFields : (ofFields index special h : TinyPtr L).hashFn = h := by
  have hw : 0 < L.w := Nat.lt_of_lt_of_le (Nat.succ_pos _) L.index_bit.le
  have hi : ((index + 1) <<< (1 + L.S)).testBit 0 = false := by
    rw [Nat.testBit_shiftLeft]
    simp
  have hs : (special <<< 1).testBit 0 = false := by
    rw [Nat.testBit_shiftLeft]
    simp
  unfold hashFn ofFields
  rw [BitVec.getLsbD_ofNat, Nat.testBit_or, Nat.testBit_or, hi, hs]
  cases h <;> simp [hw]

/-- A constructed pointer is at least `2`. -/
theorem two_le_ofFields (hi : index < L.entriesPerBinCount) (hs : special < 2 ^ L.S) :
    2 ≤ (ofFields index special h : TinyPtr L).value.toNat := by
  rw [toNat_ofFields hi hs]
  have : 2 ^ 1 ≤ 2 ^ (1 + L.S) := Nat.pow_le_pow_right (by norm_num) (by omega)
  nlinarith

theorem ofFields_ne_null (hi : index < L.entriesPerBinCount) (hs : special < 2 ^ L.S) :
    (ofFields index special h : TinyPtr L) ≠ null := by
  intro e
  have := two_le_ofFields (h := h) hi hs
  rw [e] at this
  simp [null] at this

theorem ofFields_ne_tagged (hi : index < L.entriesPerBinCount) (hs : special < 2 ^ L.S) :
    (ofFields index special h : TinyPtr L) ≠ tagged := by
  intro e
  have := two_le_ofFields (h := h) hi hs
  rw [e] at this
  have hw := L.index_bit
  simp only [tagged, BitVec.ofNat_eq_ofNat, BitVec.toNat_ofNat] at this
  have : 1 % 2 ^ L.w ≤ 1 := Nat.mod_le _ _
  omega

theorem null_ne_tagged : (null : TinyPtr L) ≠ tagged := by
  intro e
  have e' := congrArg (fun p : TinyPtr L => p.value.toNat) e
  simp only [null, tagged, BitVec.ofNat_eq_ofNat, BitVec.toNat_ofNat, Nat.zero_mod,
    Nat.mod_eq_of_lt L.two_le_two_pow] at e'
  omega

end TinyPtr

end TinyPointerTrees
