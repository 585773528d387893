import TinyPointerTrees.TinyPtr.TinyPtr

/-!
# Hash values of tiny pointers

`tiny_ptr/util.h`: the hash functions under which the containers allocate. A
`char` is signed, so as a summand of a 64-bit hash it is extended with its sign;
a byte given as `uint8_t` is not.
-/

namespace TinyPointerTrees

/-- A `char` as a summand of a `uint64_t`. -/
def signExtend (c : UInt8) : UInt64 := if c < 128 then c.toUInt64 else c.toUInt64 - 256

/-- `djb2_hash_init`. -/
def djb2HashInit : UInt64 := 5381

/-- `sdbm_hash_init`. -/
def sdbmHashInit : UInt64 := 0

/-- `djb2_hash`. -/
def djb2Hash (c : UInt8) (h : UInt64) : UInt64 := (h <<< 5) + h + signExtend c

/-- `sdbm_hash`. -/
def sdbmHash (c : UInt8) (h : UInt64) : UInt64 := (h <<< 6) + (h <<< 16) - h + signExtend c

/-- `djb2_sdbm_hash`. -/
def djb2SdbmHash (c : UInt8) (h : TinyPtrHashes) : TinyPtrHashes := (djb2Hash c h.1, sdbmHash c h.2)

/-- `address_hash`, of a pointer as a number. -/
def addressHash (ptr : UInt64) (shift : UInt8) : TinyPtrHashes :=
  (ptr + shift.toUInt64, ptr - shift.toUInt64)

/-- `mix64`. -/
def mix64 (z : UInt64) : UInt64 :=
  let z := (z ^^^ (z >>> 30)) * 0xBF58476D1CE4E5B9
  let z := (z ^^^ (z >>> 27)) * 0x94D049BB133111EB
  z ^^^ (z >>> 31)

/-- `id_hash_k1`. -/
def idHashK1 : UInt64 := 0x2545F4914F6CDD1D

/-- `id_hash_k2`. -/
def idHashK2 : UInt64 := 0x9E3779B97F4A7C15

/-- `std::rotl` by 32. -/
def rotl32 (x : UInt64) : UInt64 := (x <<< 32) ||| (x >>> 32)

/-- `id_hash`. -/
def idHash (id : UInt64) (shift : UInt8) : TinyPtrHashes :=
  (id ^^^ (shift.toUInt64 * idHashK1), rotl32 id ^^^ (shift.toUInt64 * idHashK2))

end TinyPointerTrees
