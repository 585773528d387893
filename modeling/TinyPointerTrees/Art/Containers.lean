import TinyPointerTrees.Art.Node
import TinyPointerTrees.Library.ParallelArrays

/-!
# The children of a node

The arrays `keys` and `children` of `N4`, `N16` and `N64` with all their elements, whether
they are in use or not, and the array `children` of `N256`. `N16` and `N64` flip the sign of
keys, and find positions by masks over all lanes of a vector; `N64` has loops for machines
that have no such vectors.

`N64.avx512_eq` — the masks of `N64` are as good as its loops.
-/

namespace TinyPointerTrees.Art

open ParallelArrays

/-- `keys` and `children`, of length `n`. -/
abbrev KeyArrays (V : Variant) (n : ℕ) : Type := Arrays UInt8 (ArtTinyPtr V) n

variable {V : Variant} {n : ℕ}

namespace N4

/-- The loop for the position of a new key. -/
def insertPos (key : UInt8) (a : KeyArrays V 4) : ℕ :=
  (a.live.takeWhile fun i => decide (a.keys i < key)).length

/-- `insert`. -/
def insert (key : UInt8) (p : ArtTinyPtr V) (a : KeyArrays V 4) : Option (KeyArrays V 4) :=
  a.insertAt (insertPos key a) key p

/-- The loop for the position of a key. -/
def childPos (k : UInt8) (a : KeyArrays V 4) : Option (Fin 4) := a.live.find? fun i => a.keys i == k

/-- `getChild`. -/
def getChild (k : UInt8) (a : KeyArrays V 4) : ArtTinyPtr V :=
  match childPos k a with
  | some i => a.children i
  | none => .null

/-- `change`, which asserts that the key is there. -/
def change (key : UInt8) (val : ArtTinyPtr V) (a : KeyArrays V 4) : Option (KeyArrays V 4) :=
  (childPos key a).map fun i => a.setChild i val

/-- `remove`. -/
def remove (k : UInt8) (a : KeyArrays V 4) : Option (KeyArrays V 4) :=
  match childPos k a with
  | some i => a.removeAt i
  | none => some a

/-- `getAnyChild`. -/
def getAnyChild (a : KeyArrays V 4) : ArtTinyPtr V × UInt8 :=
  match a.live.find? fun i => isLeaf (a.children i) with
  | some i => (a.children i, a.keys i)
  | none =>
    match a.live.getLast? with
    | some i => (a.children i, a.keys i)
    | none => (.null, 0)

/-- `getChildren`, as the pairs it writes. -/
def getChildren (start stop : UInt8) (a : KeyArrays V 4) : List (UInt8 × ArtTinyPtr V) :=
  (a.live.filter fun i => decide (a.keys i ≥ start ∧ a.keys i ≤ stop)).map fun i =>
    (a.keys i, a.children i)

end N4

/-- `flipSign`, of `N16` and of `N64`. -/
def flipSign (keyByte : UInt8) : UInt8 := keyByte ^^^ 128

/-- The lanes of `_mm_cmplt_epi8` and `_mm512_cmplt_epi8_mask`: where a signed byte is less. -/
def cmplt (b : UInt8) (keys : Fin n → UInt8) : Fin n → Bool :=
  fun i => decide (b.toInt8 < (keys i).toInt8)

/-- The lanes of `_mm_cmpeq_epi8` and `_mm512_cmpeq_epi8_mask`. -/
def cmpeq (b : UInt8) (keys : Fin n → UInt8) : Fin n → Bool := fun i => b == keys i

/-- How a class that flips the sign of keys finds positions. -/
structure Search (V : Variant) (n : ℕ) where
  /-- `pos`, in `insert`. -/
  insertPos : UInt8 → KeyArrays V n → ℕ
  /-- `getChildPos`. -/
  getChildPos : UInt8 → KeyArrays V n → Option (Fin n)

namespace Search

variable (s : Search V n)

/-- `insert`. -/
def insert (key : UInt8) (p : ArtTinyPtr V) (a : KeyArrays V n) : Option (KeyArrays V n) :=
  a.insertAt (s.insertPos key a) (flipSign key) p

/-- `getChild`. -/
def getChild (k : UInt8) (a : KeyArrays V n) : ArtTinyPtr V :=
  match s.getChildPos k a with
  | some i => a.children i
  | none => .null

/-- `change`, which asserts that the key is there. -/
def change (key : UInt8) (val : ArtTinyPtr V) (a : KeyArrays V n) : Option (KeyArrays V n) :=
  (s.getChildPos key a).map fun i => a.setChild i val

/-- `remove`, which asserts that the key is there, and that it is gone afterwards. -/
def remove (k : UInt8) (a : KeyArrays V n) : Option (KeyArrays V n) := do
  let pos ← s.getChildPos k a
  let a ← a.removeAt pos
  if s.getChild k a = .null then return a else none

/-- `getAnyChild`. -/
def getAnyChild [NeZero n] (a : KeyArrays V n) : ArtTinyPtr V × UInt8 :=
  match a.live.find? fun i => isLeaf (a.children i) with
  | some i => (a.children i, flipSign (a.keys i))
  | none => (a.children 0, flipSign (a.keys 0))

/-- `getChildren`, as the pairs it writes: those from `startPos` to `endPos`. -/
def getChildren (start stop : UInt8) (a : KeyArrays V n) : List (UInt8 × ArtTinyPtr V) :=
  let startPos : ℤ := (s.getChildPos start a).elim 0 fun i => i.val
  let endPos : ℤ := (s.getChildPos stop a).elim (a.count - 1 : ℤ) fun i => i.val
  ((List.finRange n).filter fun i => decide (startPos ≤ i.val ∧ i.val ≤ endPos)).map fun i =>
    (flipSign (a.keys i), a.children i)

end Search

/-- `pos`, by a mask: the lowest bit, or `count`. -/
def maskPos (count : ℕ) (bitfield : BitVec n) : ℕ := (lowest bitfield).elim count Fin.val

/-- `N16`. The masks are an `int`, and narrowed to the `uint16_t` that `ctz` takes. -/
def N16.search : Search V 16 where
  insertPos key a :=
    let cmp := (movemask (cmplt (flipSign key) a.keys)).setWidth 32
    maskPos a.count ((cmp &&& (0xFFFF#32 >>> (16 - a.count))).setWidth 16)
  getChildPos k a :=
    let cmp := (movemask (cmpeq (flipSign k) a.keys)).setWidth 32
    lowest ((cmp &&& ((1#32 <<< a.count) - 1#32)).setWidth 16)

namespace N64

/-- `validMask`, in `getChildPos`. -/
def validMask (count : ℕ) : BitVec 64 := if count = 64 then ~~~0#64 else (1#64 <<< count) - 1#64

/-- `N64`, with `__AVX512F__` and `__AVX512BW__`, or without them. -/
def search (avx512 : Bool) : Search V 64 where
  insertPos key a :=
    let keyByteFlipped := flipSign key
    if avx512 then
      maskPos a.count (movemask (cmplt keyByteFlipped a.keys) &&& ((1#64 <<< a.count) - 1#64))
    else (a.live.takeWhile fun i => decide ((a.keys i).toInt8 ≤ keyByteFlipped.toInt8)).length
  getChildPos k a :=
    let keyByteFlipped := flipSign k
    if avx512 then lowest (movemask (cmpeq keyByteFlipped a.keys) &&& validMask a.count)
    else a.live.find? fun i => a.keys i == keyByteFlipped

/-- The loop of `ctz`, for compilers that do not have it built in. -/
def ctz : (fuel n : ℕ) → (x : BitVec 64) → ℕ
  | 0, n, _ => n
  | fuel + 1, n, x => if x &&& 1#64 = 0#64 then ctz fuel (n + 1) (x >>> 1) else n

end N64

/-- `N256`. -/
structure N256 (V : Variant) where
  children : UInt8 → ArtTinyPtr V
  /-- `count`, which is a `uint8_t`. -/
  count : UInt8

namespace N256

variable (a : N256 V)

/-- `insert`. -/
def insert (key : UInt8) (val : ArtTinyPtr V) : N256 V :=
  ⟨Function.update a.children key val, a.count + 1⟩

/-- `change`. -/
def change (key : UInt8) (p : ArtTinyPtr V) : N256 V :=
  { a with children := Function.update a.children key p }

/-- `getChild`. -/
def getChild (k : UInt8) : ArtTinyPtr V := a.children k

/-- `remove`. -/
def remove (k : UInt8) : N256 V := ⟨Function.update a.children k .null, a.count - 1⟩

/-- The loops over all children that are not null, from one byte to another. -/
def listed (first last : ℕ) : List (UInt8 × ArtTinyPtr V) :=
  ((List.range' first (last + 1 - first)).map fun i =>
    (UInt8.ofNat i, a.children (UInt8.ofNat i))).filter fun e => e.2 ≠ .null

/-- `getAnyChild`. -/
def getAnyChild : ArtTinyPtr V × UInt8 :=
  match (a.listed 0 255).find? fun e => isLeaf e.2 with
  | some e => (e.2, e.1)
  | none => (a.listed 0 255).getLast?.elim (.null, 0) fun e => (e.2, e.1)

/-- `getChildren`, as the pairs it writes. -/
def getChildren (start stop : UInt8) : List (UInt8 × ArtTinyPtr V) :=
  a.listed start.toNat stop.toNat

end N256

/-! ### Flipped keys -/

@[simp] theorem flipSign_flipSign (b : UInt8) : flipSign (flipSign b) = b := by
  unfold flipSign
  rw [UInt8.xor_assoc, UInt8.xor_self, UInt8.xor_zero]

/-- With the sign flipped a byte is compared as a signed one. -/
theorem toInt_flipSign (b : UInt8) : (flipSign b).toInt8.toInt = (b.toNat : ℤ) - 128 := by
  have hall : ∀ n < 256, (flipSign (UInt8.ofNat n)).toInt8.toInt =
    (n : ℤ) - 128 := by decide +kernel
  have hb := hall b.toNat b.toNat_lt
  rwa [UInt8.ofNat_toNat] at hb

theorem flipSign_lt {b c : UInt8} : (flipSign b).toInt8 < (flipSign c).toInt8 ↔ b < c := by
  rw [Int8.lt_iff_toInt_lt, toInt_flipSign, toInt_flipSign, UInt8.lt_iff_toNat_lt]
  omega

/-! ### Masks and loops -/

theorem getLsbD_lowMask {w c i : ℕ} (hc : c < w) :
    ((1#w <<< c) - 1#w).getLsbD i = decide (i < c) := by
  have hlt : 2 ^ c < 2 ^ w := Nat.pow_lt_pow_right (by omega) hc
  have hone : 1 < 2 ^ w := Nat.one_lt_two_pow (by omega)
  have hshift : (1#w <<< c).toNat = 2 ^ c := by
    rw [BitVec.toNat_shiftLeft, BitVec.toNat_ofNat, Nat.mod_eq_of_lt hone,
      Nat.shiftLeft_eq, Nat.one_mul, Nat.mod_eq_of_lt hlt]
  have hpos := Nat.two_pow_pos c
  have hmask : ((1#w <<< c) - 1#w).toNat = 2 ^ c - 1 := by
    have hsum : 2 ^ w - 1 + 2 ^ c = 2 ^ w + (2 ^ c - 1) := by omega
    rw [BitVec.toNat_sub, hshift, BitVec.toNat_ofNat, Nat.mod_eq_of_lt hone, hsum, Nat.add_mod_left,
      Nat.mod_eq_of_lt (by omega)]
  rw [BitVec.getLsbD, hmask, Nat.testBit_two_pow_sub_one]

theorem N16.getLsbD_shifted :
    ∀ c ≤ 16, ∀ i < 16, (0xFFFF#32 >>> (16 - c)).getLsbD i = decide (i < c) := by decide

theorem N64.getLsbD_validMask {c i : ℕ} (hc : c ≤ 64) (hi : i < 64) :
    (validMask c).getLsbD i = decide (i < c) := by
  unfold validMask
  split_ifs with h
  · rw [BitVec.getLsbD_not, BitVec.getLsbD_zero, h, decide_eq_true hi]
    rfl
  · exact getLsbD_lowMask (by omega)

/-- The lanes of a comparison at the positions in use, as an `int` of which 16 bits are left. -/
theorem lowest_narrowed {a : KeyArrays V 16} {f : Fin 16 → Bool} {mask : BitVec 32}
    (hmask : ∀ i < 16, mask.getLsbD i = decide (i < a.count)) :
    lowest (((movemask f).setWidth 32 &&& mask).setWidth 16) = a.live.find? f := by
  refine lowest_eq_find? fun i => ?_
  have hi : i.val < 32 := by omega
  rw [BitVec.getLsbD_setWidth, BitVec.getLsbD_and, BitVec.getLsbD_setWidth,
    getLsbD_movemask, hmask i i.isLt, decide_eq_true i.isLt, decide_eq_true hi, Bool.true_and,
    Bool.true_and, Bool.and_comm]

theorem lowest_masked {a : KeyArrays V 64} {f : Fin 64 → Bool} {mask : BitVec 64}
    (hmask : ∀ i < 64, mask.getLsbD i = decide (i < a.count)) :
    lowest (movemask f &&& mask) = a.live.find? f := by
  refine lowest_eq_find? fun i => ?_
  rw [BitVec.getLsbD_and, getLsbD_movemask, hmask i i.isLt, Bool.and_comm]

namespace Search

/-- The position of a new key is the first one of a larger key, or behind all keys, and the position
of a key is the first one. -/
structure Correct (s : Search V n) : Prop where
  insertPos : ∀ key (a : KeyArrays V n), a.count < n →
    s.insertPos key a =
      (a.live.find? fun i => decide (key < flipSign (a.keys i))).elim a.count Fin.val
  getChildPos : ∀ k (a : KeyArrays V n),
    s.getChildPos k a = a.live.find? fun i => flipSign (a.keys i) == k

theorem cmplt_flipSign {key : UInt8} {keys : Fin n → UInt8} :
    cmplt (flipSign key) keys = fun i => decide (key < flipSign (keys i)) := by
  funext i
  have h := flipSign_lt (b := key) (c := flipSign (keys i))
  rw [flipSign_flipSign] at h
  exact decide_eq_decide.2 h

theorem cmpeq_flipSign {k : UInt8} {keys : Fin n → UInt8} :
    cmpeq (flipSign k) keys = fun i => flipSign (keys i) == k := by
  funext i
  have h : flipSign k = keys i ↔ flipSign (keys i) = k :=
    ⟨fun h => by rw [← h, flipSign_flipSign], fun h => by rw [← h, flipSign_flipSign]⟩
  simp only [cmpeq, Bool.beq_eq_decide_eq]
  exact decide_eq_decide.2 h

end Search

theorem N16.correct : (N16.search (V := V)).Correct := by
  refine ⟨fun key a _ => ?_, fun k a => ?_⟩
  · simp only [N16.search, maskPos]
    rw [lowest_narrowed (N16.getLsbD_shifted a.count a.count_le), Search.cmplt_flipSign]
  · simp only [N16.search]
    rw [lowest_narrowed fun i _ => getLsbD_lowMask (a.count_le.trans_lt (by norm_num)),
      Search.cmpeq_flipSign]

theorem N64.correct (avx512 : Bool) : (N64.search (V := V) avx512).Correct := by
  refine ⟨fun key a ha => ?_, fun k a => ?_⟩
  · cases avx512 with
    | true =>
      simp only [N64.search, if_true, maskPos]
      rw [lowest_masked fun i _ => getLsbD_lowMask ha, Search.cmplt_flipSign]
    | false =>
      simp only [N64.search, Bool.false_eq_true, if_false]
      rw [← Arrays.length_takeWhile_live]
      congr 2
      funext i
      have h := flipSign_lt (b := key) (c := flipSign (a.keys i))
      rw [flipSign_flipSign] at h
      rw [← decide_not]
      refine decide_eq_decide.2 ?_
      rw [← h, Int8.not_lt]
  · cases avx512 with
    | true =>
      simp only [N64.search, if_true]
      rw [lowest_masked fun i hi => N64.getLsbD_validMask a.count_le hi, Search.cmpeq_flipSign]
    | false =>
      simp only [N64.search, Bool.false_eq_true, if_false, ← Search.cmpeq_flipSign]
      congr 1
      funext i
      exact Bool.beq_comm

/-- A new key goes in front of those that are larger. -/
theorem Search.Correct.insertPos_le {s : Search V n} (hs : s.Correct) {a : KeyArrays V n}
    (ha : a.count < n) (key : UInt8) : s.insertPos key a ≤ a.count := by
  rw [hs.insertPos key a ha, ← Arrays.length_takeWhile_live, ← Arrays.length_live]
  exact (List.takeWhile_sublist _).length_le

/-- With and without the vector instructions `N64` finds the same positions, whatever is in the
arrays, and does the same insertions. -/
theorem N64.avx512_eq (V : Variant) (a : KeyArrays V 64) (key : UInt8) :
    (N64.search true).getChildPos key a = (N64.search false).getChildPos key a ∧
      (a.count < 64 → ∀ p, ∃ a', (N64.search true).insert key p a = some a' ∧
        (N64.search false).insert key p a = some a') := by
  have htrue := N64.correct (V := V) true
  have hfalse := N64.correct (V := V) false
  refine ⟨by rw [htrue.getChildPos, hfalse.getChildPos], fun ha p => ?_⟩
  obtain ⟨a', ha', -⟩ := Arrays.insertAt_spec (hfalse.insertPos_le ha key) ha (flipSign key) p
  refine ⟨a', ?_, ha'⟩
  unfold Search.insert
  rw [htrue.insertPos key a ha, ← hfalse.insertPos key a ha]
  exact ha'

theorem N64.avx512_eq_stale :
    ∃ a', (N64.search (V := .olc64) true).insert 9 .tagged ⟨fun i => flipSign (UInt8.ofNat (5 * i)),
      fun _ => .null, 3, by decide⟩ = some a' ∧ (N64.search false).insert 9 .tagged ⟨fun i =>
      flipSign (UInt8.ofNat (5 * i)), fun _ => .null, 3, by decide⟩ = some a' :=
  (N64.avx512_eq .olc64 ⟨fun i => flipSign (UInt8.ofNat (5 * i)), fun _ => .null, 3, by decide⟩ 9).2
    (by decide) .tagged

theorem and_one_eq_zero {x : BitVec 64} : x &&& 1#64 = 0#64 ↔ x.getLsbD 0 = false := by
  constructor
  · intro h
    have h0 := congrArg (fun y : BitVec 64 => y.getLsbD 0) h
    simpa using h0
  · intro h
    refine BitVec.eq_of_getLsbD_eq fun i hi => ?_
    rw [BitVec.getLsbD_and, BitVec.getLsbD_zero, BitVec.getLsbD_one]
    cases i with
    | zero => rw [h, Bool.false_and]
    | succ i => simp

/-- The loop of `ctz` ends at the lowest bit. -/
theorem N64.ctz_eq {x : BitVec 64} {i : Fin 64} (h : lowest x = some i) : ctz 64 0 x = i := by
  obtain ⟨hi, hbefore⟩ : x.getLsbD i = true ∧ ∀ j < i.val, x.getLsbD j = false := by
    obtain ⟨hbit, j, hj, rfl, hlow⟩ := List.find?_eq_some_iff_getElem.1 h
    rw [List.getElem_finRange] at hbit ⊢
    refine ⟨hbit, fun k hk => ?_⟩
    have := hlow k hk
    rw [List.getElem_finRange] at this
    simpa using this
  -- `n` bits have been shifted out
  have hrun : ∀ fuel n, n ≤ i.val → i.val < n + fuel → ctz fuel n (x >>> n) = i := by
    intro fuel
    induction fuel with
    | zero => exact fun n hn hlt => absurd hlt (by omega)
    | succ fuel ih =>
      intro n hn hlt
      rw [ctz]
      have hbit : (x >>> n).getLsbD 0 = x.getLsbD n := by
        rw [BitVec.getLsbD_ushiftRight, Nat.add_zero]
      rcases hn.eq_or_lt with rfl | hn
      · rw [if_neg]
        rw [and_one_eq_zero, hbit, hi]
        exact Bool.noConfusion
      · rw [if_pos (and_one_eq_zero.2 (hbit.trans (hbefore n hn))), ← BitVec.shiftRight_add]
        exact ih (n + 1) hn (by omega)
  have hzero := hrun 64 0 (Nat.zero_le _) (by omega)
  rwa [BitVec.ushiftRight_zero] at hzero

end TinyPointerTrees.Art
