import Mathlib.Data.Nat.Bitwise
import TinyPointerTrees.Library.Mixing
import TinyPointerTrees.TinyPtr.Sizing
import TinyPointerTrees.TinyPtr.Util

/-!
# Node ids and the buckets they lead to

`next_node_id` of `art/tiny_art_common.hpp`, and `id_hash` of `tiny_ptr/util.h` when
hash values are reduced by a mask.

* `nodeIds_distinct` — the ids of a thread do not repeat: `mix64` is a bijection, and
  the counter goes through all words.
* `idHash_independent` — over all ids each pair of buckets is met equally often, and
  the key bytes of a node have different buckets if there are enough of them.
-/

namespace TinyPointerTrees

open Mixing

/-! ### Node ids -/

/-- `next_node_id`: the id, and the counter that is left. -/
def nextNodeId (counter : UInt64) : UInt64 × UInt64 :=
  let counter := counter + 0x9E3779B97F4A7C15
  let z := counter
  let z := (z ^^^ (z >>> 30)) * 0xBF58476D1CE4E5B9
  let z := (z ^^^ (z >>> 27)) * 0x94D049BB133111EB
  (z ^^^ (z >>> 31), counter)

/-- The counter of a thread after some calls. -/
def counterAfter (seed : UInt64) : ℕ → UInt64
  | 0 => seed
  | n + 1 => (nextNodeId (counterAfter seed n)).2

/-- The id that a thread gets after some calls. -/
def nodeId (seed : UInt64) (n : ℕ) : UInt64 := (nextNodeId (counterAfter seed n)).1

theorem xorShift64_injective {s : UInt64} (hs : 0 < s.toBitVec.toNat % 64) :
    Function.Injective fun x : UInt64 => x ^^^ (x >>> s) := by
  intro x y h
  have hb := congrArg UInt64.toBitVec h
  simp only [UInt64.toBitVec_xor, UInt64.toBitVec_shiftRight] at hb
  refine UInt64.toBitVec_inj.1 (xorShift_injective hs ?_)
  simpa using hb

theorem mul64_injective {m : UInt64} (hm : m.toNat % 2 = 1) :
    Function.Injective fun x : UInt64 => x * m := by
  intro x y h
  have hb := congrArg UInt64.toBitVec h
  simp only [UInt64.toBitVec_mul] at hb
  exact UInt64.toBitVec_inj.1 (mul_injective (m := m.toBitVec) hm hb)

theorem mix64_injective : Function.Injective mix64 :=
  (xorShift64_injective (s := 31) (by decide)).comp <|
    (mul64_injective (m := 0x94D049BB133111EB) (by decide)).comp <|
      (xorShift64_injective (s := 27) (by decide)).comp <|
        (mul64_injective (m := 0xBF58476D1CE4E5B9) (by decide)).comp
        (xorShift64_injective (s := 30) (by decide))

theorem counterAfter_eq (seed : UInt64) (n : ℕ) :
    counterAfter seed n = seed + UInt64.ofNat n * 0x9E3779B97F4A7C15 := by
  induction n with
  | zero => simp [counterAfter]
  | succ n ih =>
    show counterAfter seed n + 0x9E3779B97F4A7C15 = _
    rw [ih, UInt64.ofNat_add, UInt64.add_mul, UInt64.add_assoc]
    rfl

/-- Two counters of a thread are the same after a full period. -/
theorem counterAfter_inj {seed : UInt64} {i j : ℕ} :
    counterAfter seed i = counterAfter seed j ↔ i % 2 ^ 64 = j % 2 ^ 64 := by
  rw [counterAfter_eq, counterAfter_eq, ← UInt64.toBitVec_inj]
  exact add_mul_inj (m := (0x9E3779B97F4A7C15 : UInt64).toBitVec) (by decide) i j

theorem nextNodeId_eq (counter : UInt64) :
    nextNodeId counter = (mix64 (counter + 0x9E3779B97F4A7C15), counter + 0x9E3779B97F4A7C15) := rfl

theorem nodeId_eq (seed : UInt64) (n : ℕ) : nodeId seed n = mix64 (counterAfter seed (n + 1)) := rfl

/-- The ids of a thread do not repeat before its counter has gone through all words. -/
theorem nodeIds_distinct :
    (∀ (seed : UInt64) (i j : ℕ), i < j → j - i < 2 ^ 64 → nodeId seed i ≠ nodeId seed j) ∧
      (∀ counter, nextNodeId counter =
        (mix64 (counter + 0x9E3779B97F4A7C15), counter + 0x9E3779B97F4A7C15)) ∧
      Function.Bijective mix64 ∧
      ∀ (seed : UInt64) (n : ℕ), counterAfter seed n = seed ↔ 2 ^ 64 ∣ n := by
  refine ⟨fun seed i j hij hlt h => ?_, nextNodeId_eq, ?_, fun seed n => ?_⟩
  · rw [nodeId_eq, nodeId_eq, mix64_injective.eq_iff, counterAfter_inj] at h
    omega
  · have : Finite UInt64 := Finite.of_injective UInt64.toFin fun _ _ => UInt64.toFin_inj.1
    exact Finite.injective_iff_bijective.1 mix64_injective
  · have hzero : counterAfter seed n = counterAfter seed 0 ↔ n % 2 ^ 64 = 0 % 2 ^ 64 :=
      counterAfter_inj
    rw [Nat.zero_mod] at hzero
    rw [Nat.dvd_iff_mod_eq_zero]
    exact hzero

theorem nodeIds_distinct_two : nodeId 7 0 ≠ nodeId 7 (2 ^ 64 - 1) :=
  nodeIds_distinct.1 7 0 (2 ^ 64 - 1) (by norm_num) (by norm_num)

/-! ### Buckets -/

theorem toNat_rotl32_mod {id : UInt64} {k : ℕ} (hk : k ≤ 32) :
    (rotl32 id).toNat % 2 ^ k = id.toNat / 2 ^ 32 % 2 ^ k := by
  have hdvd : 2 ^ k ∣ 2 ^ 32 := Nat.pow_dvd_pow 2 hk
  have hlow : id.toNat * 2 ^ 32 % 2 ^ 64 % 2 ^ k = 0 := by
    rw [Nat.mod_mod_of_dvd _ (hdvd.trans (Nat.pow_dvd_pow 2 (by norm_num)))]
    exact Nat.mod_eq_zero_of_dvd (hdvd.mul_left _)
  unfold rotl32
  rw [UInt64.toNat_or, UInt64.toNat_shiftLeft, UInt64.toNat_shiftRight, Nat.or_mod_two_pow]
  have h32 : (32 : UInt64).toNat % 64 = 32 := by decide
  rw [h32, Nat.shiftLeft_eq, Nat.shiftRight_eq_div_pow, hlow, Nat.zero_or]

theorem xor_mod_eq_iff {x m a k : ℕ} (ha : a < 2 ^ k) :
    (x ^^^ m) % 2 ^ k = a ↔ x % 2 ^ k = a ^^^ m % 2 ^ k := by
  rw [Nat.xor_mod_two_pow]
  constructor
  · rintro rfl
    rw [Nat.xor_assoc, Nat.xor_self, Nat.xor_zero]
  · intro h
    rw [h, Nat.xor_assoc, Nat.xor_self, Nat.xor_zero]

variable {n : UInt32} {k : ℕ} {shift shift' : UInt8} {id : UInt64}

theorem le_of_rounded_eq (hn : Mode.mask.rounded n = 2 ^ k) : k ≤ 32 := by
  have hle := Mode.bitCeil_le n.toNat_lt
  rw [show bitCeil n.toNat = 2 ^ k from hn] at hle
  exact (Nat.pow_le_pow_iff_right (by norm_num)).1 hle

theorem index_first (hn : Mode.mask.rounded n = 2 ^ k) :
    Mode.mask.index n (idHash id shift).1 =
      (id.toNat ^^^ (shift.toUInt64 * idHashK1).toNat) % 2 ^ k := by
  rw [Mode.index_eq, hn, idHash, UInt64.toNat_xor]

theorem index_second (hn : Mode.mask.rounded n = 2 ^ k) : Mode.mask.index n (idHash id shift).2 =
    ((rotl32 id).toNat ^^^ (shift.toUInt64 * idHashK2).toNat) % 2 ^ k := by
  rw [Mode.index_eq, hn, idHash, UInt64.toNat_xor]

/-- How many ids lead to a pair of buckets. -/
theorem card_ids (hn : Mode.mask.rounded n = 2 ^ k) {a b : ℕ} (ha : a < 2 ^ k) (hb : b < 2 ^ k) :
    Nat.card {id : UInt64 // Mode.mask.index n (idHash id shift).1 = a ∧
      Mode.mask.index n (idHash id shift).2 = b} = 2 ^ (64 - 2 * k) := by
  have hk := le_of_rounded_eq hn
  -- the lower bits of both halves of the id
  set a' := a ^^^ (shift.toUInt64 * idHashK1).toNat % 2 ^ k with ha'
  set b' := b ^^^ (shift.toUInt64 * idHashK2).toNat % 2 ^ k with hb'
  have hiff : ∀ id : UInt64, (Mode.mask.index n (idHash id shift).1 = a ∧
    Mode.mask.index n (idHash id shift).2 = b) ↔
      id.toNat % 2 ^ 32 % 2 ^ k = a' ∧ id.toNat / 2 ^ 32 % 2 ^ k = b' := fun id => by
    rw [index_first hn, index_second hn, xor_mod_eq_iff ha, xor_mod_eq_iff hb, toNat_rotl32_mod hk,
      Nat.mod_mod_of_dvd _ (Nat.pow_dvd_pow 2 hk)]
  have ha'' : a' < 2 ^ k := Nat.xor_lt_two_pow ha (Nat.mod_lt _ (Nat.two_pow_pos k))
  have hb'' : b' < 2 ^ k := Nat.xor_lt_two_pow hb (Nat.mod_lt _ (Nat.two_pow_pos k))
  have hcard := card_halves hk ha'' hb''
  rw [← Nat.card_eq_finsetCard] at hcard
  rw [show 64 - 2 * k = 2 * 32 - 2 * k from rfl, ← hcard]
  refine Nat.card_eq_of_bijective (fun id => ⟨id.1.toNat, Finset.mem_filter.2
    ⟨Finset.mem_range.2 id.1.toNat_lt, (hiff id.1).1 id.2⟩⟩) ⟨fun id id' h => ?_, fun ⟨x, hx⟩ => ?_⟩
  · exact Subtype.ext (UInt64.toNat_inj.1 (congrArg Subtype.val h))
  · obtain ⟨hlt, hhalves⟩ := Finset.mem_filter.1 hx
    have hx : (UInt64.ofNat x).toNat = x := by
      rw [UInt64.toNat_ofNat']
      exact Nat.mod_eq_of_lt (Finset.mem_range.1 hlt)
    exact ⟨⟨UInt64.ofNat x, (hiff _).2 (by rwa [hx])⟩, Subtype.ext hx⟩

/-- An odd multiplier keeps the key bytes apart, in the lower eight bits already. -/
theorem shift_mul_inj {m : UInt64} (hm : m.toNat % 2 = 1) (hk : 8 ≤ k) (hk' : k ≤ 64) (x : ℕ)
    (h : (x ^^^ (shift.toUInt64 * m).toNat) % 2 ^ k = (x ^^^ (shift'.toUInt64 * m).toNat) % 2 ^ k) :
    shift = shift' := by
  rw [Nat.xor_mod_two_pow, Nat.xor_mod_two_pow] at h
  have hmul := Nat.xor_right_inj.1 h
  simp only [UInt64.toNat_mul, UInt8.toNat_toUInt64] at hmul
  rw [Nat.mod_mod_of_dvd _ (Nat.pow_dvd_pow 2 hk'), Nat.mod_mod_of_dvd _ (Nat.pow_dvd_pow 2 hk'),
    mul_mod_inj hm] at hmul
  have hlt : 2 ^ 8 ≤ 2 ^ k := Nat.pow_le_pow_right (by norm_num) hk
  rw [Nat.mod_eq_of_lt (shift.toNat_lt.trans_le hlt),
    Nat.mod_eq_of_lt (shift'.toNat_lt.trans_le hlt)] at hmul
  exact UInt8.toNat_inj.1 hmul

/-- With `2 ^ k` buckets every pair of them has the same number of ids, and from 256 buckets on the
key bytes of a node differ in both. -/
theorem idHash_independent (hn : Mode.mask.rounded n = 2 ^ k) :
    (∀ (shift : UInt8) (a b : ℕ), a < 2 ^ k → b < 2 ^ k →
      Nat.card {id : UInt64 // Mode.mask.index n (idHash id shift).1 = a ∧
        Mode.mask.index n (idHash id shift).2 = b} = 2 ^ (64 - 2 * k)) ∧
      (8 ≤ k → ∀ (id : UInt64) (shift shift' : UInt8), shift ≠ shift' →
        Mode.mask.index n (idHash id shift).1 ≠ Mode.mask.index n (idHash id shift').1 ∧
        Mode.mask.index n (idHash id shift).2 ≠ Mode.mask.index n (idHash id shift').2) := by
  have hk := le_of_rounded_eq hn
  refine ⟨fun shift a b ha hb => card_ids hn ha hb, fun h8 id shift shift' hne =>
    ⟨fun h => hne ?_, fun h => hne ?_⟩⟩
  · rw [index_first hn, index_first hn] at h
    exact shift_mul_inj (m := idHashK1) (by decide) h8 (by omega) _ h
  · rw [index_second hn, index_second hn] at h
    exact shift_mul_inj (m := idHashK2) (by decide) h8 (by omega) _ h

theorem idHash_independent_256 :
    Nat.card {id : UInt64 // Mode.mask.index 256 (idHash id 7).1 = 3 ∧
      Mode.mask.index 256 (idHash id 7).2 = 200} = 2 ^ 48 ∧
    Mode.mask.index 256 (idHash 5 0).1 ≠ Mode.mask.index 256 (idHash 5 255).1 := by
  have hn : Mode.mask.rounded 256 = 2 ^ 8 := congrArg (2 ^ ·) (Nat.clog_pow 2 8 (by norm_num))
  have h := idHash_independent hn
  exact ⟨h.1 7 3 200 (by norm_num) (by norm_num), (h.2 le_rfl 5 0 255 (by decide)).1⟩

end TinyPointerTrees
