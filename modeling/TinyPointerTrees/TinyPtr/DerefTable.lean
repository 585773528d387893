import TinyPointerTrees.Library.Prog
import TinyPointerTrees.TinyPtr.Encoding

/-!
# The dereference table

`tiny_ptr/deref_table.h` and the lock of `tiny_ptr/sequence_lock.h`. A table has
a bucket for each value of its indexer; a bucket has a sequence lock, the number
of its free entries, the index of the first of them, and the entries. A free
entry holds the index of the next free entry in its first bytes, the bytes that
belong to the object while the entry is allocated.

`allocate` and `free` are programs over the atomic operations `DtOp`: each load,
store and read-modify-write, each link read or written in an entry, each
operation of the lock, and each load of a thread's counter in the loop of `size()`.
`DtOp.exec` says what one operation does; it serves the calls of a single thread
and the interleavings of many. A call goes no further (`stop`) where an assertion
fails or the behaviour is undefined: in `size()` when both buckets are full, in
`allocate_impl` if the head of the free list is no entry, and in the constructor
of the tiny pointer.

`Table.allocate` and `Table.free` are what the calls of a single thread compute;
`runs_allocate` and `runs_free` say when they do.

The lock word has eight bits. The model counts the increments of the word
without bound (`Bucket.version`), and the code sees the count modulo `256`.
-/

namespace TinyPointerTrees

open Conc Conc.Prog

/-- The storage of an entry: an object of type `ω` whose first bytes can be read
and written as a `BucketIndexT`. -/
class Storage (L : Layout) (ω : Type) where
  /-- `get_next_free_slot_index`. -/
  getLink : ω → ℕ
  /-- `set_next_free_slot_index`. -/
  setLink : ω → ℕ → ω
  getLink_lt : ∀ o, getLink o < 2 ^ L.bucketIndexWidth
  getLink_setLink : ∀ o n, n < 2 ^ L.bucketIndexWidth → getLink (setLink o n) = n

attribute [simp] Storage.getLink_lt

/-- A trivially destructible `TObject`, as the number of its bytes. -/
structure ObjectType (L : Layout) where
  /-- `sizeof(TObject)`. -/
  sizeof : ℕ
  /-- "DerefTable requires TObject to be at least as large as BucketIndexT". -/
  sizeof_ge : L.bucketIndexWidth ≤ 8 * sizeof

/-- An object as its bytes. -/
def ObjectType.Bytes {L : Layout} (τ : ObjectType L) : Type := Fin τ.sizeof → UInt8

/-- The number in the first `m` bytes, the lowest byte first. -/
def loadBytes {n : ℕ} (m : ℕ) (o : Fin n → UInt8) : ℕ :=
  ∑ k ∈ Finset.range m, (if h : k < n then (o ⟨k, h⟩).toNat else 0) * 256 ^ k

/-- The first `m` bytes overwritten by those of a number. -/
def storeBytes {n : ℕ} (m : ℕ) (o : Fin n → UInt8) (v : ℕ) : Fin n → UInt8 :=
  fun k => if k < m then UInt8.ofNat (v / 256 ^ k.val) else o k

theorem sum_digits (m v : ℕ) :
    ∑ k ∈ Finset.range m, (v / 256 ^ k % 256) * 256 ^ k = v % 256 ^ m := by
  induction m with
  | zero => simp [Nat.mod_one]
  | succ m ih =>
    rw [Finset.sum_range_succ, ih, Nat.mod_pow_succ]
    ring

theorem loadBytes_lt {n : ℕ} (m : ℕ) (o : Fin n → UInt8) : loadBytes m o < 256 ^ m := by
  induction m with
  | zero => simp [loadBytes]
  | succ m ih =>
    have hd : (if h : m < n then (o ⟨m, h⟩).toNat else 0) ≤ 255 := by
      split_ifs
      · exact Nat.le_of_lt_succ (UInt8.toNat_lt _)
      · exact Nat.zero_le _
    have hm := Nat.mul_le_mul_right (256 ^ m) hd
    have hs : loadBytes (m + 1) o =
        loadBytes m o + (if h : m < n then (o ⟨m, h⟩).toNat else 0) * 256 ^ m :=
        Finset.sum_range_succ ..
    rw [hs, pow_succ]
    omega

theorem loadBytes_storeBytes {n m v : ℕ} (hm : m ≤ n) (hv : v < 256 ^ m) (o : Fin n → UInt8) :
    loadBytes m (storeBytes m o v) = v := by
  calc loadBytes m (storeBytes m o v)
      = ∑ k ∈ Finset.range m, (v / 256 ^ k % 256) * 256 ^ k := by
        refine Finset.sum_congr rfl fun k hk => ?_
        have hk' := Finset.mem_range.mp hk
        simp [storeBytes, hk', hk'.trans_le hm]
    _ = v := by rw [sum_digits, Nat.mod_eq_of_lt hv]

theorem Layout.bucketIndexWidth_eq (L : Layout) :
    2 ^ L.bucketIndexWidth = 256 ^ (L.bucketIndexWidth / 8) := by
  unfold bucketIndexWidth smallestUint
  split_ifs <;> norm_num

/-- A link in the first bytes of an object. -/
instance {L : Layout} (τ : ObjectType L) : Storage L τ.Bytes where
  getLink o := loadBytes (L.bucketIndexWidth / 8) o
  setLink o n := storeBytes (L.bucketIndexWidth / 8) o n
  getLink_lt o := by
    rw [L.bucketIndexWidth_eq]
    exact loadBytes_lt _ o
  getLink_setLink o n hn := by
    have := τ.sizeof_ge
    rw [L.bucketIndexWidth_eq] at hn
    exact loadBytes_storeBytes (by omega) hn o

/-- `BucketIndexer`: the number of buckets, and the reduction of a hash value to
one of them. -/
structure BucketIndexer where
  /-- `buckets()`, which is a `uint32_t`. -/
  buckets : ℕ
  /-- `operator()`. -/
  index : UInt64 → ℕ
  buckets_lt : buckets < 2 ^ 32
  index_lt : ∀ h, index h < buckets

/-- Where an entry is: the pointer that `get_data_object` makes. -/
structure Slot where
  /-- The bucket. -/
  bucket : ℕ
  /-- The entry in the bucket. -/
  index : ℕ
  deriving DecidableEq, Repr

/-- A bucket: a `MetaTableEntry` and a `DataTableEntry`. -/
structure Bucket (ω : Type) where
  /-- How often the lock word was incremented. -/
  version : ℕ
  /-- `free_slot_count`. -/
  freeSlotCount : ℕ
  /-- `free_slot_index`. -/
  freeSlotIndex : ℕ
  /-- The entries; those from `ENTRIES_PER_BIN_COUNT` on are not there. -/
  entries : ℕ → ω

/-- `SizeCounters`, of one thread. -/
structure SizeCounters where
  /-- Objects allocated, less objects freed. -/
  size : ℤ := 0
  /-- The largest `size` so far. -/
  maxReachedSize : ℤ := 0
  deriving DecidableEq, Repr

/-- What a critical section has done, which its `unlock` records in `Table.held`. -/
inductive Section where
  /-- Nothing. -/
  | none
  /-- Taken the entry from the free list. -/
  | took (index : ℕ)
  /-- Put the entry on the free list. -/
  | gave (index : ℕ)

/-- The state of a table. `held` is not in the code: it lists the entries that
finished allocations hold, each once for every time it is held. -/
structure Table (ω : Type) where
  /-- `meta_table` and `data_table`. -/
  bucket : ℕ → Bucket ω
  /-- `thread_counters`, of the threads that have one. -/
  threadCounters : List (ℕ × SizeCounters)
  /-- The entries held. -/
  held : List Slot

/-- `OptimisticLock`: the count of the lock word when it was taken. -/
structure OptimisticLock where
  /-- The bucket whose lock it is. -/
  bucket : ℕ
  /-- How often the word had been incremented. -/
  seen : ℕ

/-- The lock word, a `uint8_t`. -/
def lockWord (version : ℕ) : ℕ := version % 256

/-- `lockedVersion`. -/
def OptimisticLock.lockedVersion (l : OptimisticLock) : ℕ := lockWord l.seen

/-- The exception of `abort_overflow`, with the numbers its text reports. -/
structure OverflowError where
  /-- `size()`. -/
  size : ℕ
  /-- `_capacity`. -/
  capacity : ℕ
  deriving DecidableEq, Repr

/-- The atomic operations of a table. -/
inductive DtOp (ω : Type) : Type → Type where
  /-- `lock_optimistically`, which waits for an even word. -/
  | lockOptimistically (b : ℕ) : DtOp ω OptimisticLock
  /-- `lock_exclusive`, which waits for an even word and makes it odd. -/
  | lockExclusive (b : ℕ) : DtOp ω Unit
  /-- `validate`. -/
  | validate (l : OptimisticLock) : DtOp ω Bool
  /-- `try_upgrade_to_exclusive`. -/
  | tryUpgradeToExclusive (l : OptimisticLock) : DtOp ω Bool
  /-- `unlock`. -/
  | unlock (b : ℕ) (did : Section) : DtOp ω Unit
  /-- `free_slot_count.load`. -/
  | loadFreeSlotCount (b : ℕ) : DtOp ω ℕ
  /-- `free_slot_index.load`. -/
  | loadFreeSlotIndex (b : ℕ) : DtOp ω ℕ
  /-- `free_slot_index.store`. -/
  | storeFreeSlotIndex (b i : ℕ) : DtOp ω Unit
  /-- `free_slot_count.fetch_sub(1)`. -/
  | fetchSubFreeSlotCount (b : ℕ) : DtOp ω Unit
  /-- `free_slot_count.fetch_add(1)`. -/
  | fetchAddFreeSlotCount (b : ℕ) : DtOp ω Unit
  /-- `get_next_free_slot_index`. -/
  | getNextFreeSlotIndex (b i : ℕ) : DtOp ω ℕ
  /-- `set_next_free_slot_index`. -/
  | setNextFreeSlotIndex (b i n : ℕ) : DtOp ω Unit
  /-- `thread_counters.end()`, when the loop of `size()` begins. -/
  | countersEnd : DtOp ω ℕ
  /-- The load of one counter in that loop. -/
  | loadCounter (i : ℕ) : DtOp ω ℤ
  /-- The condition of `assert(result >= 0 && result <= _capacity)`. -/
  | assertSum (result : ℤ) (capacity : ℕ) : DtOp ω Bool
  /-- `increment_size`. -/
  | incrementSize : DtOp ω Unit
  /-- `decrement_size`. -/
  | decrementSize : DtOp ω Unit
  /-- An assertion fails, or the behaviour is undefined. -/
  | stop : DtOp ω Empty

/-! ### What an operation does -/

namespace Table

variable {ω : Type}

/-- Change one bucket. -/
def modify (T : Table ω) (b : ℕ) (f : Bucket ω → Bucket ω) : Table ω :=
  { T with bucket := Function.update T.bucket b (f (T.bucket b)) }

@[simp] theorem modify_bucket_self (T : Table ω) (b : ℕ) (f : Bucket ω → Bucket ω) :
    (T.modify b f).bucket b = f (T.bucket b) := by simp [modify]

@[simp] theorem modify_bucket_ne (T : Table ω) {b c : ℕ} (h : c ≠ b) (f : Bucket ω → Bucket ω) :
    (T.modify b f).bucket c = T.bucket c := by simp [modify, h]

theorem modify_bucket (T : Table ω) (b c : ℕ) (f : Bucket ω → Bucket ω) :
    (T.modify b f).bucket c = if c = b then f (T.bucket b) else T.bucket c := by
  simp [modify, Function.update_apply]

@[simp] theorem modify_held (T : Table ω) (b : ℕ) (f : Bucket ω → Bucket ω) :
    (T.modify b f).held = T.held := rfl

@[simp] theorem modify_threadCounters (T : Table ω) (b : ℕ) (f : Bucket ω → Bucket ω) :
    (T.modify b f).threadCounters = T.threadCounters := rfl

@[simp] theorem modify_modify (T : Table ω) (b : ℕ) (f g : Bucket ω → Bucket ω) :
    (T.modify b f).modify b g = T.modify b (g ∘ f) := by simp [modify]

/-- `thread_counters.local()`, changed by `f`. -/
def modifyLocal (f : SizeCounters → SizeCounters) (t : ℕ) :
    List (ℕ × SizeCounters) → List (ℕ × SizeCounters)
  | [] => [(t, f {})]
  | (u, c) :: l => if u = t then (u, f c) :: l else (u, c) :: modifyLocal f t l

/-- The counters of one thread after `increment_size`. -/
def incremented (c : SizeCounters) : SizeCounters :=
  ⟨c.size + 1, if c.size + 1 > c.maxReachedSize then c.size + 1 else c.maxReachedSize⟩

/-- The counters of one thread after `decrement_size`. -/
def decremented (c : SizeCounters) : SizeCounters := { c with size := c.size - 1 }

/-- The sum that `size()` computes. -/
def totalSize (T : Table ω) : ℤ := (T.threadCounters.map fun c => c.2.size).sum

/-- That sum as a `uint32_t`. -/
def narrowSize (T : Table ω) : ℕ := (T.totalSize % 2 ^ 32).toNat

/-- `held` after a critical section of bucket `b`. -/
def recordHeld (b : ℕ) (held : List Slot) : Section → List Slot
  | .none => held
  | .took i => ⟨b, i⟩ :: held
  | .gave i => held.erase ⟨b, i⟩

end Table

section Exec

variable (L : Layout) {ω : Type} [Storage L ω]

/-- Thread `t` executes an operation; nothing when it has to wait, or goes no further. -/
def DtOp.exec (t : ℕ) : {β : Type} → DtOp ω β → Table ω → Option (β × Table ω)
  | _, .lockOptimistically b, T =>
    if lockWord (T.bucket b).version % 2 = 1 then none else some (⟨b, (T.bucket b).version⟩, T)
  | _, .lockExclusive b, T =>
    if lockWord (T.bucket b).version % 2 = 1 then none
    else some ((), T.modify b fun B => { B with version := B.version + 1 })
  | _, .validate l, T => some (lockWord (T.bucket l.bucket).version == l.lockedVersion, T)
  | _, .tryUpgradeToExclusive l, T =>
    if lockWord (T.bucket l.bucket).version = l.lockedVersion then
      some (true, T.modify l.bucket fun B => { B with version := B.version + 1 })
    else some (false, T)
  | _, .unlock b did, T =>
    some ((), { T.modify b fun B => { B with version := B.version + 1 } with
      held := Table.recordHeld b T.held did })
  | _, .loadFreeSlotCount b, T => some ((T.bucket b).freeSlotCount, T)
  | _, .loadFreeSlotIndex b, T => some ((T.bucket b).freeSlotIndex, T)
  | _, .storeFreeSlotIndex b i, T => some ((), T.modify b fun B => { B with freeSlotIndex := i })
  | _, .fetchSubFreeSlotCount b, T =>
    some ((), T.modify b fun B => { B with
      freeSlotCount := (B.freeSlotCount + (2 ^ L.bucketIndexWidth - 1)) % 2 ^ L.bucketIndexWidth })
  | _, .fetchAddFreeSlotCount b, T =>
    some ((), T.modify b fun B => { B with
      freeSlotCount := (B.freeSlotCount + 1) % 2 ^ L.bucketIndexWidth })
  | _, .getNextFreeSlotIndex b i, T => some (Storage.getLink L ((T.bucket b).entries i), T)
  | _, .setNextFreeSlotIndex b i n, T =>
    some ((), T.modify b fun B => { B with
      entries := Function.update B.entries i (Storage.setLink L (B.entries i) n) })
  | _, .countersEnd, T => some (T.threadCounters.length, T)
  | _, .loadCounter i, T => some ((T.threadCounters[i]?.map fun c => c.2.size).getD 0, T)
  | _, .assertSum result capacity, T => some (decide (0 ≤ result ∧ result ≤ capacity), T)
  | _, .incrementSize, T =>
    some ((), { T with
      threadCounters := Table.modifyLocal Table.incremented t T.threadCounters })
  | _, .decrementSize, T =>
    some ((), { T with
      threadCounters := Table.modifyLocal Table.decremented t T.threadCounters })
  | _, .stop, _ => none

/-- The operations, executed by thread `t` alone. -/
def dtHandler (t : ℕ) : Handler (DtOp ω) (Table ω) := ⟨DtOp.exec L t⟩

end Exec

/-! ### The operations of the table -/

namespace DerefTable

variable (L : Layout) (ω : Type) (X : BucketIndexer)

/-- `_capacity`, which is a `uint32_t`. -/
def capacity : ℕ := X.buckets * L.entriesPerBinCount % 2 ^ 32

/-- The value of an expression, if it has one. -/
def value {α : Type} : Option α → Prog (DtOp ω) α
  | some a => return a
  | none => do
    let e ← op .stop
    nomatch e

/-- `assert`. -/
def assert (holds : Bool) : Prog (DtOp ω) Unit := value ω (if holds then some () else none)

/-- A round of the loop of `size()`: which counter is next, and the sum so far. -/
def sizeRound (n : ℕ) (p : ℕ × ℤ) : Prog (DtOp ω) ((ℕ × ℤ) ⊕ ℤ) :=
  if p.1 < n then do
    let c ← op (.loadCounter p.1)
    return .inl (p.1 + 1, p.2 + c)
  else return .inr p.2

/-- `size()`, which narrows the sum to a `uint32_t`. -/
def size : Prog (DtOp ω) ℕ := do
  let n ← op .countersEnd
  let result ← iter (sizeRound ω n) (0, 0)
  let holds ← op (.assertSum result (capacity L X))
  assert ω holds
  return (result % 2 ^ 32).toNat

/-- The end of `allocate_impl`, from the upgrade on: the exclusive section of bucket `hIndex`, in
which the entry is taken unless there is none. -/
def takeHead (hIndex : ℕ) (hBit : Bool) (special objectIndex nextFreeSlotIndex : ℕ) :
    Prog (DtOp ω) (Except OverflowError (TinyPtr L × Slot)) := do
  let freeCount ← op (.loadFreeSlotCount hIndex)
  if freeCount = 0 then
    let size ← size L ω X
    -- the destructor of the exclusive lock, as the exception passes
    op (.unlock hIndex .none)
    return .error ⟨size, capacity L X⟩
  else
    assert ω (objectIndex < L.entriesPerBinCount)
    op (.fetchSubFreeSlotCount hIndex)
    op (.storeFreeSlotIndex hIndex nextFreeSlotIndex)
    op (.unlock hIndex (.took objectIndex))
    op .incrementSize
    let p ← value ω (TinyPtr.construct L objectIndex special hBit)
    return .ok (p, ⟨hIndex, objectIndex⟩)

/-- The middle of `allocate_impl`, once it has chosen a bucket; `inl` is `goto retry`. -/
def attempt (hIndex : ℕ) (hBit : Bool) (special : ℕ) (hLock otherLock : OptimisticLock) :
    Prog (DtOp ω) (Unit ⊕ Except OverflowError (TinyPtr L × Slot)) := do
  let objectIndex ← op (.loadFreeSlotIndex hIndex)
  let nextFreeSlotIndex ← op (.getNextFreeSlotIndex hIndex objectIndex)
  -- for equal buckets the other lock has to be validated before the upgrade
  let valid ← op (.validate otherLock)
  if !valid then return .inl () else
  let upgraded ← op (.tryUpgradeToExclusive hLock)
  if !upgraded then return .inl () else
  let r ← takeHead L ω X hIndex hBit special objectIndex nextFreeSlotIndex
  return .inr r

/-- One pass of `allocate_impl` from the label `retry` on. -/
def round (h : TinyPtrHashes) (special : ℕ) :
    Prog (DtOp ω) (Unit ⊕ Except OverflowError (TinyPtr L × Slot)) := do
  let h1Index := X.index h.1
  let h2Index := X.index h.2
  let h1OptLock ← op (.lockOptimistically h1Index)
  let h2OptLock ← op (.lockOptimistically h2Index)
  let h1FreeCount ← op (.loadFreeSlotCount h1Index)
  let h2FreeCount ← op (.loadFreeSlotCount h2Index)
  if h1FreeCount ≥ h2FreeCount then attempt L ω X h1Index false special h1OptLock h2OptLock
  else attempt L ω X h2Index true special h2OptLock h1OptLock

/-- `allocate`: `allocate_impl` with `ZERO_NEW_ALLOCATED_MEMORY`, which is false. It answers
the tiny pointer and the address of the object. -/
def allocate (h : TinyPtrHashes) (special : ℕ) :
    Prog (DtOp ω) (Except OverflowError (TinyPtr L × Slot)) :=
  iter (fun () => round L ω X h special) ()

/-- `free`. -/
def free (p : TinyPtr L) (h : TinyPtrHashes) : Prog (DtOp ω) Unit := do
  let hash := if p.hashFn then h.2 else h.1
  let index := p.index
  let hIndex := X.index hash
  op (.lockExclusive hIndex)
  let head ← op (.loadFreeSlotIndex hIndex)
  op (.setNextFreeSlotIndex hIndex index head)
  op (.storeFreeSlotIndex hIndex index)
  op (.fetchAddFreeSlotCount hIndex)
  op (.unlock hIndex (.gave index))
  op .decrementSize

/-- The address a tiny pointer that is neither null nor tagged denotes. -/
def slotOf {L : Layout} (p : TinyPtr L) (h : TinyPtrHashes) : Slot :=
  ⟨X.index (if p.hashFn then h.2 else h.1), p.index⟩

/-- `dereference`: no address for the null pointer, an exception for the tagged one. -/
def dereference {L : Layout} (p : TinyPtr L) (h : TinyPtrHashes) : Except String (Option Slot) :=
  if p = .null then .ok none
  else if p = .tagged then .error "Cannot dereference tagged tinyptr"
  else .ok (some (slotOf X p h))

/-! ### Construction -/

/-- The largest `int`. -/
def intMax : ℕ := 2 ^ 31 - 1

variable {ω} [Storage L ω]

/-- `for (int i = 0; i < n; ++i) set_next_free_slot_index(i, i + 1)`, with `remaining` rounds
to go; nothing when the counter leaves `int`, where the behaviour is undefined. -/
def linkEntries : (remaining i : ℕ) → (ℕ → ω) → Option (ℕ → ω)
  | 0, _, e => some e
  | remaining + 1, i, e =>
    if i + 1 ≤ intMax then
      linkEntries remaining (i + 1) (Function.update e i (Storage.setLink L (e i) (i + 1)))
    else none

/-- A bucket as the constructor leaves it, over storage `e` that nobody has written. -/
def initBucket (e : ℕ → ω) : Option (Bucket ω) :=
  (linkEntries L (L.entriesPerBinCount - 1) 0 e).map fun e' =>
    { version := 0, freeSlotCount := L.entriesPerBinCount, freeSlotIndex := 0,
      entries := Function.update e' (L.entriesPerBinCount - 1)
        (Storage.setLink L (e' (L.entriesPerBinCount - 1)) 0) }

/-- The first `n` buckets, one after the other; the others are not there. -/
def initBuckets (storage : ℕ → ℕ → ω) : ℕ → Option (ℕ → Bucket ω)
  | 0 => some fun b => ⟨0, 0, 0, storage b⟩
  | n + 1 => do
    let buckets ← initBuckets storage n
    let B ← initBucket L (storage n)
    return Function.update buckets n B

/-- `DerefTable(ht_bucket_count)`, over storage that nobody has written. -/
def construct (storage : ℕ → ℕ → ω) : Option (Table ω) :=
  (initBuckets L storage X.buckets).map fun buckets => ⟨buckets, [], []⟩

end DerefTable

/-! ### The calls of a single thread -/

section Sequential

variable (L : Layout) {ω : Type} (X : BucketIndexer) [Storage L ω]

/-- A bucket after the head of its free list was taken. -/
def Bucket.take (B : Bucket ω) : Bucket ω :=
  { B with
    version := B.version + 2
    freeSlotCount := (B.freeSlotCount + (2 ^ L.bucketIndexWidth - 1)) % 2 ^ L.bucketIndexWidth
    freeSlotIndex := Storage.getLink L (B.entries B.freeSlotIndex) }

/-- A bucket after entry `i` was put on its free list. -/
def Bucket.give (B : Bucket ω) (i : ℕ) : Bucket ω :=
  { version := B.version + 2
    freeSlotCount := (B.freeSlotCount + 1) % 2 ^ L.bucketIndexWidth
    freeSlotIndex := i
    entries := Function.update B.entries i (Storage.setLink L (B.entries i) B.freeSlotIndex) }

/-- A bucket that was locked and unlocked. -/
def Bucket.touch (B : Bucket ω) : Bucket ω := { B with version := B.version + 2 }

namespace Table

/-- No thread is in a critical section. -/
def Quiet (T : Table ω) : Prop := ∀ b, (T.bucket b).version % 2 = 0

/-- Which hash value `allocate` uses: the second one if its bucket has more free entries. -/
def hashBit (T : Table ω) (h : TinyPtrHashes) : Bool :=
  decide (¬ (T.bucket (X.index h.1)).freeSlotCount ≥ (T.bucket (X.index h.2)).freeSlotCount)

/-- The bucket `allocate` takes from. -/
def chosen (T : Table ω) (h : TinyPtrHashes) : ℕ :=
  if T.hashBit X h then X.index h.2 else X.index h.1

/-- The first free entry of bucket `b`. -/
def headSlot (T : Table ω) (b : ℕ) : Slot := ⟨b, (T.bucket b).freeSlotIndex⟩

/-- `size()`, called by itself; nothing when its assertion fails. -/
def size (T : Table ω) : Option ℕ :=
  if 0 ≤ T.totalSize ∧ T.totalSize ≤ DerefTable.capacity L X then some T.narrowSize else none

/-- Taking an entry of bucket `b` stops at no assertion: that of `size()` holds if there is none,
and otherwise the layout is one whose tiny pointers can be constructed. -/
def Passes (T : Table ω) (b : ℕ) : Prop :=
  if (T.bucket b).freeSlotCount = 0 then (T.size L X).isSome = true else TinyPtr.Bounded L

/-- What taking an entry of bucket `b` answers and leaves behind, if it stops at no assertion. -/
def take (T : Table ω) (t b : ℕ) (bit : Bool) (special : ℕ) :
    Except OverflowError (TinyPtr L × Slot) × Table ω :=
  if (T.bucket b).freeSlotCount = 0 then
    (.error ⟨T.narrowSize, DerefTable.capacity L X⟩, T.modify b Bucket.touch)
  else
    (.ok (.ofFields (T.headSlot b).index special bit, T.headSlot b),
      { T.modify b (Bucket.take L) with
        held := T.headSlot b :: T.held
        threadCounters := modifyLocal incremented t T.threadCounters })

/-- What `allocate` by thread `t` answers and leaves behind, if it stops at no assertion. -/
def allocate (T : Table ω) (t : ℕ) (h : TinyPtrHashes) (special : ℕ) :
    Except OverflowError (TinyPtr L × Slot) × Table ω :=
  T.take L X t (T.chosen X h) (T.hashBit X h) special

/-- What putting the entry at `s` on its free list leaves behind. -/
def give (T : Table ω) (t : ℕ) (s : Slot) : Table ω :=
  { T.modify s.bucket (fun B => B.give L s.index) with
    held := T.held.erase s
    threadCounters := modifyLocal decremented t T.threadCounters }

/-- What `free` by thread `t` leaves behind. -/
def free (T : Table ω) (t : ℕ) (p : TinyPtr L) (h : TinyPtrHashes) : Table ω :=
  T.give L t (DerefTable.slotOf X p h)

variable {L X} {T T' : Table ω} {t : ℕ} {h : TinyPtrHashes} {special : ℕ}

theorem Quiet.lockWord_ne (hT : T.Quiet) (b : ℕ) : ¬ lockWord (T.bucket b).version % 2 = 1 := by
  have := hT b
  unfold lockWord
  omega

omit [Storage L ω] in
/-- `size()` answers the sum of the counters, if that is within the capacity. -/
theorem size_eq_some_iff {n : ℕ} :
    T.size L X = some n ↔ (n : ℤ) = T.totalSize ∧ T.totalSize ≤ DerefTable.capacity L X := by
  have hcap : DerefTable.capacity L X < 2 ^ 32 := Nat.mod_lt _ (by norm_num)
  rw [size, Option.ite_none_right_eq_some, Option.some.injEq, narrowSize]
  omega

/-- The rounds of the loop of `size()` that are left. -/
theorem runs_sizeRounds {k : ℤ → Prog (DtOp ω) α} {i : ℕ} (hi : i ≤ T.threadCounters.length) {a : α}
    {U : Table ω} : Runs (dtHandler L t) (.loop (DerefTable.sizeRound ω T.threadCounters.length)
        (i, ((T.threadCounters.take i).map fun c => c.2.size).sum) k) T a U ↔
      Runs (dtHandler L t) (k T.totalSize) T a U := by
  induction hn : T.threadCounters.length - i generalizing i with
  | zero =>
    rw [runs_loop, unroll, DerefTable.sizeRound, if_neg (by simp only; omega),
      List.take_of_length_le (by omega)]
    rfl
  | succ n ih =>
    have hlt : i < T.threadCounters.length := by omega
    have hnext : ((T.threadCounters.take (i + 1)).map fun c => c.2.size).sum =
        ((T.threadCounters.take i).map fun c => c.2.size).sum +
          (T.threadCounters[i]?.map fun c => c.2.size).getD 0 := by
      rw [List.take_add_one, List.map_append, List.sum_append, List.getElem?_eq_getElem hlt]
      simp
    rw [runs_loop, unroll, DerefTable.sizeRound, if_pos hlt]
    simp only [bind_eq, op_bind, call_bind, pure_eq, ret_bind, runs_call, dtHandler, DtOp.exec,
      Option.some.injEq, exists_eq_left', again]
    rw [← hnext]
    exact ih (by omega) (by omega)

/-- An assertion that holds does nothing, and one that fails is the end. -/
theorem runs_assert {k : Unit → Prog (DtOp ω) α} {holds : Bool} {a : α} :
    Runs (dtHandler L t) (Prog.bind (DerefTable.assert ω holds) k) T a T' ↔
      holds = true ∧ Runs (dtHandler L t) (k ()) T a T' := by
  cases holds with
  | false => simp [DerefTable.assert, DerefTable.value, op, dtHandler, DtOp.exec]
  | true => simp [DerefTable.assert, DerefTable.value]

/-- Alone, `size()` is the sum of the counters, if its assertion holds. -/
theorem runs_size {k : ℕ → Prog (DtOp ω) α} {a : α} :
    Runs (dtHandler L t) (Prog.bind (DerefTable.size L ω X) k) T a T' ↔
      (T.size L X).isSome ∧ Runs (dtHandler L t) (k T.narrowSize) T a T' := by
  have hsum := runs_sizeRounds (L := L) (t := t) (T := T) (a := a) (U := T') (Nat.zero_le _)
    (k := fun result => .call (.assertSum result (DerefTable.capacity L X)) fun holds =>
      Prog.bind (DerefTable.assert ω holds) fun _ => k (result % 2 ^ 32).toNat)
  rw [List.take_zero, List.map_nil, List.sum_nil] at hsum
  unfold DerefTable.size
  simp only [bind_eq, op_bind, call_bind, iter_bind, loop_bind, pure_eq, Prog.bind_assoc, ret_bind,
    runs_call, dtHandler, DtOp.exec, Option.some.injEq, exists_eq_left'] at hsum ⊢
  change Runs (dtHandler L t) _ _ _ _ ↔ _ at hsum
  change Runs (dtHandler L t) _ _ _ _ ↔ _
  rw [hsum]
  change Runs (dtHandler L t) _ _ _ _ ↔ _
  simp only [size, Option.isSome_ite, runs_assert, decide_eq_true_eq]
  rfl

/-- Constructing a tiny pointer to an entry of a bucket. -/
theorem runs_value {k : TinyPtr L → Prog (DtOp ω) α} {i : ℕ} {bit : Bool}
    (hi : i < L.entriesPerBinCount) (hs : special < 2 ^ L.S) {a : α} :
    Runs (dtHandler L t) (Prog.bind (DerefTable.value ω (TinyPtr.construct L i special bit)) k) T a
      T' ↔ TinyPtr.Bounded L ∧ Runs (dtHandler L t) (k (.ofFields i special bit)) T a T' := by
  by_cases hL : TinyPtr.Bounded L
  · rw [TinyPtr.construct_eq hL hi hs, and_iff_right hL]
    rfl
  · rw [TinyPtr.construct_eq_none_of_not hL]
    simp [DerefTable.value, op, dtHandler, DtOp.exec, hL]

/-- Alone, an attempt succeeds, unless it stops at an assertion. -/
theorem runs_attempt {b : ℕ} {bit : Bool} {l : OptimisticLock}
    (hl : (T.bucket l.bucket).version = l.seen)
    (hi : (T.bucket b).freeSlotCount ≠ 0 → (T.bucket b).freeSlotIndex < L.entriesPerBinCount)
    (hs : special < 2 ^ L.S) {r : Unit ⊕ Except OverflowError (TinyPtr L × Slot)} :
    Runs (dtHandler L t) (DerefTable.attempt L ω X b bit special ⟨b, (T.bucket b).version⟩ l) T r
      T' ↔ T.Passes L X b ∧ Sum.inr (T.take L X t b bit special).1 = r ∧
      (T.take L X t b bit special).2 = T' := by
  have hl' : lockWord (T.bucket l.bucket).version = lockWord l.seen := by rw [hl]
  by_cases h0 : (T.bucket b).freeSlotCount = 0
  · simp only [take, Passes, h0, if_true]
    simp [DerefTable.attempt, DerefTable.takeHead, op, dtHandler, DtOp.exec,
      OptimisticLock.lockedVersion, hl', h0, Prog.bind_assoc]
    change Runs (dtHandler L t) _ _ _ _ ↔ _
    rw [runs_size]
    simp [dtHandler, DtOp.exec, recordHeld]
    rfl
  · simp only [take, Passes, h0, if_false]
    simp [DerefTable.attempt, DerefTable.takeHead, op, dtHandler, DtOp.exec,
      OptimisticLock.lockedVersion, hl', h0, Prog.bind_assoc]
    change Runs (dtHandler L t) _ _ _ _ ↔ _
    rw [runs_assert, and_iff_right (decide_eq_true (hi h0))]
    simp [dtHandler, DtOp.exec, recordHeld]
    change Runs (dtHandler L t) _ _ _ _ ↔ _
    rw [runs_value (hi h0) hs]
    simp
    intro _
    rfl

theorem chosen_lt : T.chosen X h < X.buckets := by
  unfold chosen
  split <;> exact X.index_lt _

/-- A single thread's `allocate` takes one round. -/
theorem runs_round (hT : T.Quiet)
    (hi : (T.bucket (T.chosen X h)).freeSlotCount ≠ 0 →
      (T.bucket (T.chosen X h)).freeSlotIndex < L.entriesPerBinCount)
    (hs : special < 2 ^ L.S) {r : Unit ⊕ Except OverflowError (TinyPtr L × Slot)} :
    Runs (dtHandler L t) (DerefTable.round L ω X h special) T r T' ↔ T.Passes L X (T.chosen X h) ∧
      Sum.inr (T.allocate L X t h special).1 = r ∧
        (T.allocate L X t h special).2 = T' := by
  have hb : ∀ b, ¬ lockWord (T.bucket b).version % 2 = 1 := hT.lockWord_ne
  unfold DerefTable.round allocate
  unfold chosen hashBit at hi ⊢
  by_cases hc : (T.bucket (X.index h.1)).freeSlotCount ≥ (T.bucket (X.index h.2)).freeSlotCount
  · simp only [op, dtHandler, DtOp.exec, hb, hc, bind_eq, call_bind, ret_bind, runs_call,
      if_false, if_true, Option.some.injEq, exists_eq_left', not_true, decide_false,
      Bool.false_eq_true] at hi ⊢
    exact runs_attempt rfl hi hs
  · simp only [op, dtHandler, DtOp.exec, hb, hc, bind_eq, call_bind, ret_bind, runs_call,
      if_false, if_true, Option.some.injEq, exists_eq_left', not_false_eq_true, decide_true] at hi ⊢
    exact runs_attempt rfl hi hs

/-- What a single thread's call of `allocate` does. -/
theorem runs_allocate (hT : T.Quiet)
    (hi : (T.bucket (T.chosen X h)).freeSlotCount ≠ 0 →
      (T.bucket (T.chosen X h)).freeSlotIndex < L.entriesPerBinCount)
    (hs : special < 2 ^ L.S) {r : Except OverflowError (TinyPtr L × Slot)} :
    Runs (dtHandler L t) (DerefTable.allocate L ω X h special) T r T' ↔
      T.Passes L X (T.chosen X h) ∧ T.allocate L X t h special = (r, T') := by
  rw [DerefTable.allocate, iter, runs_loop_iff]
  simp only [runs_round hT hi hs, runs_ret, Prod.ext_iff]
  constructor
  · rintro (⟨_, _, ⟨-, h₁, _⟩, _⟩ | ⟨c, u, ⟨hp, h₁, h₂⟩, rfl, rfl⟩)
    · cases h₁
    · exact ⟨hp, Sum.inr_injective h₁, h₂⟩
  · rintro ⟨hp, rfl, rfl⟩
    exact Or.inr ⟨_, _, ⟨hp, rfl, rfl⟩, rfl, rfl⟩

theorem runs_free (hT : T.Quiet) {p : TinyPtr L} {u : Unit} :
    Runs (dtHandler L t) (DerefTable.free L ω X p h) T u T' ↔ T.free L X t p h = T' := by
  simp [DerefTable.free, dtHandler, DtOp.exec, hT.lockWord_ne, Table.free, Table.give,
    DerefTable.slotOf, op]
  rfl

end Table

end Sequential

end TinyPointerTrees
