import TinyPointerTrees.Library.IntrusiveList
import TinyPointerTrees.TinyPtr.DerefTable

/-!
# The free lists of a dereference table

In every bucket the links visit, from `free_slot_index` on and
`free_slot_count` times, exactly the entries that no allocation holds, each once.
`Table.Wf` is that invariant of a table that a single thread uses, between two
calls; `Wf.allocate`, `Wf.free` and `Wf.write` are its step lemmas, for the two
operations and for a client that writes into an object it holds.

A run makes calls from a freshly constructed table. The constructor numbers the
entries of a bucket with an `int`, so it constructs a table only when an entry
index has at most 31 bits, though the class admits wider ones; and no entry is ever
allocated where the constructor of the tiny pointer is undefined.

* `construct_eq_none` — the tables that are not constructed.
* `freeListSafe_iff` — the other tables are safe over whole runs.
-/

namespace TinyPointerTrees

open Conc Conc.Prog FreeList

variable {L : Layout} {ω : Type} [Storage L ω] {X : BucketIndexer}

/-- The next links of a bucket. -/
def Bucket.links (L : Layout) [Storage L ω] (B : Bucket ω) (i : ℕ) : ℕ :=
  Storage.getLink L (B.entries i)

/-- The free list of the bucket lists the entries of `free`. -/
def Bucket.Lists (L : Layout) [Storage L ω] (B : Bucket ω) (free : Set ℕ) : Prop :=
  IsFreeList {i | i < L.entriesPerBinCount} (B.links L) B.freeSlotIndex B.freeSlotCount free

namespace Bucket

variable {B : Bucket ω} {free : Set ℕ} {i : ℕ}

theorem ncard_entries (L : Layout) :
    {i | i < L.entriesPerBinCount}.ncard = L.entriesPerBinCount := by
  have hset : {i | i < L.entriesPerBinCount} = ↑(Finset.range L.entriesPerBinCount) := by
    ext i
    simp
  rw [hset, Set.ncard_coe_finset, Finset.card_range]

theorem count_le {links : ℕ → ℕ} {head count : ℕ}
    (h : IsFreeList {i | i < L.entriesPerBinCount} links head count free) :
    count ≤ L.entriesPerBinCount := by
  calc count = free.ncard := h.count_eq.symm
    _ ≤ {i | i < L.entriesPerBinCount}.ncard := Set.ncard_le_ncard h.free_valid (Set.finite_Iio _)
    _ = L.entriesPerBinCount := ncard_entries L

/-- A `BucketIndexT` that counts free entries is counted up as a number. -/
theorem fetchAdd_eq {links : ℕ → ℕ} {head count : ℕ}
    (h : IsFreeList {i | i < L.entriesPerBinCount} links head (count + 1) free) :
    (count + 1) % 2 ^ L.bucketIndexWidth = count + 1 :=
  Nat.mod_eq_of_lt ((count_le h).trans_lt L.entriesPerBinCount_lt_width)

/-- A link survives in an entry: indices fit in a `BucketIndexT`. -/
theorem getLink_setLink (o : ω) (hi : i < L.entriesPerBinCount) :
    Storage.getLink L (Storage.setLink L o i) = i :=
  Storage.getLink_setLink o i (hi.trans L.entriesPerBinCount_lt_width)

theorem links_setLink {e : ℕ → ω} {j n : ℕ} (hn : n < L.entriesPerBinCount) {v c h : ℕ} :
    (Bucket.links L ⟨v, c, h, Function.update e j (Storage.setLink L (e j) n)⟩) =
      Function.update (Bucket.links L ⟨v, c, h, e⟩) j n := by
  funext i
  by_cases hij : i = j
  · subst hij
    simp [links, getLink_setLink _ hn]
  · simp [links, hij]

theorem Lists.touch (h : B.Lists L free) : B.touch.Lists L free := h

/-- A `BucketIndexT` that is not zero is counted down as a number. -/
theorem Lists.fetchSub (h : B.Lists L free) (h0 : B.freeSlotCount ≠ 0) :
    (B.freeSlotCount + (2 ^ L.bucketIndexWidth - 1)) % 2 ^ L.bucketIndexWidth =
      B.freeSlotCount - 1 := by
  have hlt := (count_le h).trans_lt L.entriesPerBinCount_lt_width
  rw [show B.freeSlotCount + (2 ^ L.bucketIndexWidth - 1) =
    B.freeSlotCount - 1 + 2 ^ L.bucketIndexWidth by omega, Nat.add_mod_right,
    Nat.mod_eq_of_lt (by omega)]

theorem Lists.take (h : B.Lists L free) (h0 : B.freeSlotCount ≠ 0) :
    (B.take L).Lists L (free \ {B.freeSlotIndex}) := by
  have ht := IsFreeList.take h h0
  unfold Lists
  simp only [Bucket.take, h.fetchSub h0]
  exact ht

theorem Lists.give (h : B.Lists L free) (hi : i < L.entriesPerBinCount) (hf : i ∉ free) :
    (B.give L i).Lists L (insert i free) := by
  have hg := IsFreeList.give h hf hi
  unfold Lists
  simp only [Bucket.give, fetchAdd_eq hg]
  rw [links_setLink h.head_valid]
  exact hg

/-- Writing into an entry that is not free leaves the list alone. -/
theorem Lists.write (h : B.Lists L free) (hf : i ∉ free) (o : ω) :
    ({ B with entries := Function.update B.entries i o }).Lists L free := by
  refine IsFreeList.congr h fun j hj => ?_
  have hji : j ≠ i := fun e => hf (e ▸ hj)
  simp [links, hji]

end Bucket

/-! ### The invariant of a table -/

namespace Table

/-- The entries of bucket `b` that no allocation holds. -/
def freeIn (L : Layout) (held : List Slot) (b : ℕ) : Set ℕ :=
  {i | i < L.entriesPerBinCount ∧ ⟨b, i⟩ ∉ held}

/-- The invariant of a table that no thread is working on. -/
structure Wf (L : Layout) [Storage L ω] (X : BucketIndexer) (T : Table ω) : Prop where
  /-- No lock is held. -/
  quiet : T.Quiet
  /-- No entry is held twice. -/
  held_nodup : T.held.Nodup
  /-- What is held is an entry of the table. -/
  held_lt : ∀ s ∈ T.held, s.bucket < X.buckets ∧ s.index < L.entriesPerBinCount
  /-- Every bucket lists the entries that are not held. -/
  lists : ∀ b < X.buckets, (T.bucket b).Lists L (freeIn L T.held b)
  /-- The counters of the threads say how many entries are held. -/
  balanced : T.totalSize = T.held.length

variable {T : Table ω} {t : ℕ} {h : TinyPtrHashes} {special : ℕ} {s : Slot} {p : TinyPtr L}

/-- Change the object at an address. -/
def write (T : Table ω) (s : Slot) (o : ω) : Table ω :=
  T.modify s.bucket fun B => { B with entries := Function.update B.entries s.index o }

/-- The object at an address. -/
def read (T : Table ω) (s : Slot) : ω := (T.bucket s.bucket).entries s.index

theorem sum_modifyLocal {f : SizeCounters → SizeCounters} {d : ℤ}
    (hf : ∀ c, (f c).size = c.size + d) (t : ℕ) (l : List (ℕ × SizeCounters)) :
    ((modifyLocal f t l).map fun c => c.2.size).sum = (l.map fun c => c.2.size).sum + d := by
  induction l with
  | nil => simp [modifyLocal, hf]
  | cons u l ih =>
    unfold modifyLocal
    split_ifs with hu
    · simp only [List.map_cons, List.sum_cons, hf]
      ring
    · simp only [List.map_cons, List.sum_cons, ih]
      ring

theorem Quiet.modify {b : ℕ} {f : Bucket ω → Bucket ω} (hT : T.Quiet)
    (hf : (f (T.bucket b)).version % 2 = 0) : (T.modify b f).Quiet := by
  intro c
  by_cases hc : c = b
  · subst hc
    simpa using hf
  · simpa [hc] using hT c

theorem Wf.touch (hT : T.Wf L X) {b : ℕ} : (T.modify b Bucket.touch).Wf L X := by
  refine ⟨hT.quiet.modify ?_, hT.held_nodup, hT.held_lt, fun c hc => ?_, hT.balanced⟩
  · have := hT.quiet b
    simp only [Bucket.touch]
    omega
  · by_cases hcb : c = b
    · subst hcb
      rw [modify_bucket_self]
      exact (hT.lists c hc).touch
    · rw [modify_bucket_ne T hcb]
      exact hT.lists c hc

/-- The head of a list that is not empty is an entry that is not held. -/
theorem Wf.headSlot (hT : T.Wf L X) {b : ℕ} (hb : b < X.buckets)
    (h0 : (T.bucket b).freeSlotCount ≠ 0) :
    (T.headSlot b).index < L.entriesPerBinCount ∧ T.headSlot b ∉ T.held :=
  (hT.lists b hb).head_free h0

theorem Wf.take (hT : T.Wf L X) {b : ℕ} (hb : b < X.buckets) {bit : Bool} :
    (T.take L X t b bit special).2.Wf L X := by
  unfold Table.take
  split_ifs with h0
  · exact hT.touch
  obtain ⟨hlt, hnot⟩ := hT.headSlot hb h0
  refine ⟨hT.quiet.modify ?_, List.nodup_cons.mpr ⟨hnot, hT.held_nodup⟩, ?_, fun c hc => ?_, ?_⟩
  · have := hT.quiet b
    simp only [Bucket.take]
    omega
  · intro s hs
    rcases List.mem_cons.mp hs with rfl | hs
    · exact ⟨hb, hlt⟩
    · exact hT.held_lt s hs
  · by_cases hcb : c = b
    · subst hcb
      have hfree : freeIn L (T.headSlot c :: T.held) c =
          freeIn L T.held c \ {(T.bucket c).freeSlotIndex} := by
        ext i
        simp [freeIn, Table.headSlot]
        tauto
      simp only [modify_bucket_self, hfree]
      exact (hT.lists c hc).take h0
    · have hfree : freeIn L (T.headSlot b :: T.held) c = freeIn L T.held c := by
        ext i
        simp [freeIn, Table.headSlot, hcb]
      simp only [modify_bucket_ne T hcb, hfree]
      exact hT.lists c hc
  · have hb := hT.balanced
    unfold totalSize at hb ⊢
    rw [sum_modifyLocal (d := 1) (fun _ => rfl), hb]
    simp

theorem Wf.allocate (hT : T.Wf L X) : (T.allocate L X t h special).2.Wf L X := hT.take chosen_lt

theorem Wf.of_allocate (hT : T.Wf L X) {r : Except OverflowError (TinyPtr L × Slot)} {T' : Table ω}
    (ha : T.allocate L X t h special = (r, T')) : T'.Wf L X := by
  have hwf : (T.allocate L X t h special).2.Wf L X := hT.allocate
  rwa [ha] at hwf

theorem Wf.give (hT : T.Wf L X) (hs : s ∈ T.held) : (T.give L t s).Wf L X := by
  obtain ⟨-, hlt⟩ := hT.held_lt s hs
  have herase : ∀ s', s' ∈ T.held.erase s ↔ s' ≠ s ∧ s' ∈ T.held :=
    fun _ => hT.held_nodup.mem_erase_iff
  have hquiet : (T.modify s.bucket fun B => B.give L s.index).Quiet := by
    refine hT.quiet.modify ?_
    have := hT.quiet s.bucket
    simp only [Bucket.give]
    omega
  unfold Table.give
  refine ⟨hquiet, hT.held_nodup.erase _, ?_, fun c hc => ?_, ?_⟩
  · exact fun s' hs' => hT.held_lt s' ((herase s').mp hs').2
  · by_cases hcb : c = s.bucket
    · subst hcb
      have hfree : freeIn L (T.held.erase s) s.bucket = insert s.index
        (freeIn L T.held s.bucket) := by
        ext i
        simp only [freeIn, Set.mem_ofPred_eq, herase, Set.mem_insert_iff]
        by_cases hi : i = s.index
        · subst hi
          simp [hlt]
        · have hne : (⟨s.bucket, i⟩ : Slot) ≠ s := fun e => hi (congrArg Slot.index e)
          simp [hi, hne]
      simp only [modify_bucket_self, hfree]
      exact (hT.lists _ hc).give hlt fun hf => hf.2 hs
    · have hfree : freeIn L (T.held.erase s) c = freeIn L T.held c := by
        ext i
        have hne : (⟨c, i⟩ : Slot) ≠ s := fun e => hcb (congrArg Slot.bucket e)
        simp [freeIn, herase, hne]
      simp only [modify_bucket_ne T hcb, hfree]
      exact hT.lists c hc
  · have hb := hT.balanced
    have hlen := List.length_erase_of_mem hs
    have hpos := List.length_pos_of_mem hs
    unfold totalSize at hb ⊢
    rw [sum_modifyLocal (d := -1) (fun _ => rfl), hb]
    simp only
    omega

theorem Wf.free (hT : T.Wf L X) (hs : DerefTable.slotOf X p h ∈ T.held) :
    (T.free L X t p h).Wf L X :=
  hT.give hs

theorem Wf.write (hT : T.Wf L X) (hs : s ∈ T.held) (o : ω) : (T.write s o).Wf L X := by
  refine ⟨hT.quiet.modify (hT.quiet s.bucket), hT.held_nodup, hT.held_lt,
    fun c hc => ?_, hT.balanced⟩
  by_cases hcs : c = s.bucket
  · subst hcs
    simp only [Table.write, modify_bucket_self, modify_held]
    exact (hT.lists _ hc).write (fun hf => hf.2 hs) o
  · simp only [Table.write, modify_bucket_ne T hcs, modify_held]
    exact hT.lists c hc

/-! ### What a call answers -/

@[simp] theorem read_touch {b : ℕ} : (T.modify b Bucket.touch).read s = T.read s := by
  unfold read
  rw [modify_bucket]
  split_ifs with hs
  · rw [hs]
    rfl
  · rfl

/-- `allocate` leaves every object as it is. -/
@[simp] theorem read_allocate : (T.allocate L X t h special).2.read s = T.read s := by
  unfold Table.allocate Table.take
  split_ifs
  · exact read_touch
  · simp only [read, modify_bucket]
    split_ifs with hs
    · rw [hs]
      rfl
    · rfl

theorem read_of_allocate {r : Except OverflowError (TinyPtr L × Slot)} {T' : Table ω}
    (ha : T.allocate L X t h special = (r, T')) (s : Slot) : T'.read s = T.read s := by
  have hread : (T.allocate L X t h special).2.read s = T.read s := read_allocate
  rwa [ha] at hread

/-- `free` leaves every other object as it is. -/
theorem read_give {s' : Slot} (hs : s' ≠ s) : (T.give L t s).read s' = T.read s' := by
  simp only [Table.give, read, modify_bucket]
  split_ifs with hb
  · have hi : s'.index ≠ s.index := by
      intro hi
      exact hs (by cases s; cases s'; simp_all)
    simp [Bucket.give, hi, hb]
  · rfl

theorem read_write_self (o : ω) : (T.write s o).read s = o := by simp [Table.write, read]

theorem read_write_ne {s' : Slot} (hs : s' ≠ s) (o : ω) : (T.write s o).read s' = T.read s' := by
  simp only [Table.write, read, modify_bucket]
  split_ifs with hb
  · have hi : s'.index ≠ s.index := by
      intro hi
      exact hs (by cases s; cases s'; simp_all)
    simp [hi, hb]
  · rfl

theorem dereference_ofFields {i : ℕ} {bit : Bool} (hi : i < L.entriesPerBinCount)
    (hs : special < 2 ^ L.S) :
    DerefTable.dereference X (.ofFields i special bit : TinyPtr L) h =
      .ok (some ⟨X.index (if bit then h.2 else h.1), i⟩) := by
  unfold DerefTable.dereference DerefTable.slotOf
  rw [if_neg (TinyPtr.ofFields_ne_null hi hs), if_neg (TinyPtr.ofFields_ne_tagged hi hs),
    TinyPtr.hashFn_ofFields, TinyPtr.index_ofFields hi hs]

/-- No more is held than there are entries. -/
theorem Wf.length_held_le (hT : T.Wf L X) : T.held.length ≤ X.buckets * L.entriesPerBinCount := by
  have hsub : (T.held.map fun s => (s.bucket, s.index)).toFinset ⊆
      Finset.range X.buckets ×ˢ Finset.range L.entriesPerBinCount := by
    intro a ha
    rw [List.mem_toFinset, List.mem_map] at ha
    obtain ⟨s, hs, rfl⟩ := ha
    simpa using hT.held_lt s hs
  have hinj : Function.Injective fun s : Slot => (s.bucket, s.index) := by
    rintro ⟨b, i⟩ ⟨b', i'⟩ h
    simpa using h
  have hcard := Finset.card_le_card hsub
  rwa [List.toFinset_card_of_nodup (hT.held_nodup.map hinj), List.length_map, Finset.card_product,
    Finset.card_range, Finset.card_range] at hcard

/-- If fewer entries are held than there are, a bucket has a free one. -/
theorem Wf.exists_free (hT : T.Wf L X) (hlt : T.held.length < X.buckets * L.entriesPerBinCount) :
    ∃ b < X.buckets, (T.bucket b).freeSlotCount ≠ 0 := by
  by_contra hfull
  push Not at hfull
  have hheld : ∀ b < X.buckets, ∀ i < L.entriesPerBinCount, (⟨b, i⟩ : Slot) ∈ T.held := by
    intro b hb i hi
    by_contra hfree
    have hvisit := ((hT.lists b hb).mem_iff i).mpr ⟨hi, hfree⟩
    rw [hfull b hb] at hvisit
    cases hvisit
  have hsub : Finset.range X.buckets ×ˢ Finset.range L.entriesPerBinCount ⊆
      (T.held.map fun s => (s.bucket, s.index)).toFinset := by
    rintro ⟨b, i⟩ hbi
    rw [Finset.mem_product, Finset.mem_range, Finset.mem_range] at hbi
    exact List.mem_toFinset.mpr (List.mem_map_of_mem (hheld b hbi.1 i hbi.2))
  have hcard := (Finset.card_le_card hsub).trans (List.toFinset_card_le _)
  rw [Finset.card_product, Finset.card_range, Finset.card_range, List.length_map] at hcard
  omega

/-- What an allocation that succeeds answers: an entry that was not held, and a tiny pointer
that denotes it. -/
structure Allocated (L : Layout) (X : BucketIndexer) (T T' : Table ω) (h : TinyPtrHashes)
    (special : ℕ) (p : TinyPtr L) (s : Slot) : Prop where
  fresh : s ∉ T.held
  held : T'.held = s :: T.held
  slotOf : DerefTable.slotOf X p h = s
  dereference : DerefTable.dereference X p h = .ok (some s)
  special : p.special = special
  ne_null : p ≠ .null
  ne_tagged : p ≠ .tagged

theorem Wf.allocated (hT : T.Wf L X) (hs : special < 2 ^ L.S) {T' : Table ω}
    (ha : T.allocate L X t h special = (.ok (p, s), T')) : Allocated L X T T' h special p s := by
  unfold Table.allocate Table.take at ha
  split_ifs at ha with h0
  · simp at ha
  obtain ⟨hlt, hnot⟩ := hT.headSlot chosen_lt h0
  simp only [Prod.mk.injEq, Except.ok.injEq] at ha
  obtain ⟨⟨rfl, rfl⟩, rfl⟩ := ha
  have hslot : (⟨X.index (if T.hashBit X h then h.2 else h.1),
    (T.headSlot (T.chosen X h)).index⟩ : Slot) =
      T.headSlot (T.chosen X h) := by
    unfold Table.headSlot chosen
    split_ifs <;> rfl
  refine ⟨hnot, rfl, ?_, ?_, ?_, ?_, ?_⟩
  · unfold DerefTable.slotOf
    rw [TinyPtr.hashFn_ofFields, TinyPtr.index_ofFields hlt hs, hslot]
  · rw [dereference_ofFields hlt hs, hslot]
  · exact TinyPtr.special_ofFields hlt hs
  · exact TinyPtr.ofFields_ne_null hlt hs
  · exact TinyPtr.ofFields_ne_tagged hlt hs

/-- What a call of `allocate` does between two others: what `Table.allocate` says, unless it stops
at an assertion. -/
theorem Wf.runs_allocate (hT : T.Wf L X) (hs : special < 2 ^ L.S)
    {r : Except OverflowError (TinyPtr L × Slot)} {T' : Table ω} :
    Runs (dtHandler L t) (DerefTable.allocate L ω X h special) T r T' ↔
      T.Passes L X (T.chosen X h) ∧ T.allocate L X t h special = (r, T') :=
  Table.runs_allocate hT.quiet (fun h0 => (hT.headSlot chosen_lt h0).1) hs

theorem Wf.size_isSome_iff (hT : T.Wf L X) :
    (T.size L X).isSome ↔ T.held.length ≤ DerefTable.capacity L X := by
  have hlen := hT.balanced
  rw [size, Option.isSome_ite]
  omega

/-- `size()` answers how many entries are held. -/
theorem Wf.size_eq_some_iff {n : ℕ} (hT : T.Wf L X) :
    T.size L X = some n ↔ n = T.held.length ∧ T.held.length ≤ DerefTable.capacity L X := by
  have hlen := hT.balanced
  rw [Table.size_eq_some_iff]
  omega

/-- `capacity()` is not narrowed in a table of fewer than 2^32 entries. -/
theorem Wf.length_held_le_capacity (hT : T.Wf L X)
    (hX : X.buckets * L.entriesPerBinCount < 2 ^ 32) : T.held.length ≤ DerefTable.capacity L X := by
  rw [DerefTable.capacity, Nat.mod_eq_of_lt hX]
  exact hT.length_held_le

/-- In a table of fewer than 2^32 entries, whose tiny pointers can be constructed, no call stops. -/
theorem Wf.passes (hT : T.Wf L X) (hL : TinyPtr.Bounded L)
    (hX : X.buckets * L.entriesPerBinCount < 2 ^ 32) (b : ℕ) : T.Passes L X b := by
  unfold Passes
  split_ifs
  · exact hT.size_isSome_iff.mpr (hT.length_held_le_capacity hX)
  · exact hL

/-- Where the chosen bucket has a free entry, an allocation succeeds. -/
theorem exists_allocate_ok (h0 : (T.bucket (T.chosen X h)).freeSlotCount ≠ 0) :
    ∃ r T', T.allocate L X t h special = (.ok r, T') := by
  unfold Table.allocate Table.take
  rw [if_neg h0]
  exact ⟨_, _, rfl⟩

/-- Where nothing is held, an allocation succeeds. -/
theorem Wf.allocate_ok (hT : T.Wf L X) (hheld : T.held = []) :
    ∃ r T', T.allocate L X t h special = (.ok r, T') := by
  have hcount : (T.bucket (T.chosen X h)).freeSlotCount ≠ 0 := by
    have hfree : freeIn L T.held (T.chosen X h) = {i | i < L.entriesPerBinCount} := by
      ext i
      simp [freeIn, hheld]
    have hlist := hT.lists (T.chosen X h) chosen_lt
    rw [hfree] at hlist
    have hpos := L.entriesPerBinCount_pos
    rw [← hlist.count_eq, Bucket.ncard_entries]
    omega
  exact exists_allocate_ok hcount

/-- An allocation that fails holds nothing more. -/
theorem held_of_error {e : OverflowError} {T' : Table ω}
    (ha : T.allocate L X t h special = (.error e, T')) : T'.held = T.held := by
  unfold Table.allocate Table.take at ha
  split_ifs at ha with h0
  · simp only [Prod.mk.injEq] at ha
    rw [← ha.2]
    rfl
  · simp at ha

/-- The number of free entries of the bucket of the first hash value. -/
def freeCount₁ (X : BucketIndexer) (T : Table ω) (h : TinyPtrHashes) : ℕ :=
  (T.bucket (X.index h.1)).freeSlotCount

/-- The number of free entries of the bucket of the second hash value. -/
def freeCount₂ (X : BucketIndexer) (T : Table ω) (h : TinyPtrHashes) : ℕ :=
  (T.bucket (X.index h.2)).freeSlotCount

theorem hashBit_iff : T.hashBit X h = true ↔ T.freeCount₁ X h < T.freeCount₂ X h := by
  simp [hashBit, freeCount₁, freeCount₂]

/-- The chosen bucket has no free entry exactly when neither of the two has. -/
theorem chosen_full_iff : (T.bucket (T.chosen X h)).freeSlotCount = 0 ↔
    T.freeCount₁ X h = 0 ∧ T.freeCount₂ X h = 0 := by
  have hbit : T.hashBit X h = true ↔ T.freeCount₁ X h < T.freeCount₂ X h := hashBit_iff
  unfold chosen
  split_ifs with h₁
  · have hlt := hbit.mp h₁
    change T.freeCount₂ X h = 0 ↔ _
    omega
  · have hlt : ¬ T.freeCount₁ X h < T.freeCount₂ X h := fun hlt => h₁ (hbit.mpr hlt)
    change T.freeCount₁ X h = 0 ↔ _
    omega

/-- An allocation is refused when neither bucket has a free entry. -/
theorem allocate_eq_error_iff :
    (∃ e, (T.allocate L X t h special).1 = .error e) ↔ T.freeCount₁ X h = 0 ∧
      T.freeCount₂ X h = 0 := by
  rw [← chosen_full_iff, allocate, take]
  by_cases h0 : (T.bucket (T.chosen X h)).freeSlotCount = 0
  · rw [if_pos h0]
    exact iff_of_true ⟨_, rfl⟩ h0
  · rw [if_neg h0]
    refine iff_of_false ?_ h0
    rintro ⟨e, he⟩
    cases he

/-- An allocation fails only when both buckets of its hash values are full. -/
theorem full_of_error {e : OverflowError} {T' : Table ω}
    (ha : T.allocate L X t h special = (.error e, T')) :
    (T'.bucket (X.index h.1)).freeSlotCount = 0 ∧ (T'.bucket (X.index h.2)).freeSlotCount = 0 := by
  unfold Table.allocate Table.take at ha
  split_ifs at ha with h0
  · simp only [Prod.mk.injEq] at ha
    have hcount : ∀ b, (T'.bucket b).freeSlotCount = (T.bucket b).freeSlotCount := by
      intro b
      rw [← ha.2, modify_bucket]
      split_ifs with hb
      · rw [hb]
        rfl
      · rfl
    rw [hcount, hcount]
    exact chosen_full_iff.mp h0
  · simp at ha

end Table

/-! ### Construction -/

namespace DerefTable

theorem linkEntries_eq_none {e : ℕ → ω} {remaining i : ℕ} :
    linkEntries L remaining i e = none ↔ remaining ≠ 0 ∧ intMax < i + remaining := by
  induction remaining generalizing i e with
  | zero => simp [linkEntries]
  | succ n ih =>
    unfold linkEntries
    split_ifs with hi
    · rw [ih]
      omega
    · simp
      omega

/-- The links that the loop has written, and the entries it has not reached. -/
theorem linkEntries_eq_some {e e' : ℕ → ω} {remaining i : ℕ}
    (hr : i + remaining < L.entriesPerBinCount) (h : linkEntries L remaining i e = some e') :
    (∀ j, i ≤ j → j < i + remaining → Storage.getLink L (e' j) = j + 1) ∧ ∀ j, j < i ∨
      i + remaining ≤ j → e' j = e j := by
  induction remaining generalizing i e with
  | zero =>
    cases h
    exact ⟨fun j h₁ h₂ => by omega, fun j _ => rfl⟩
  | succ n ih =>
    unfold linkEntries at h
    split_ifs at h
    obtain ⟨hl, hf⟩ := ih (by omega) h
    refine ⟨fun j h₁ h₂ => ?_, fun j hj => ?_⟩
    · rcases Nat.lt_or_eq_of_le h₁ with hlt | rfl
      · exact hl j hlt (by omega)
      · rw [hf i (Or.inl (Nat.lt_succ_self i)), Function.update_self]
        exact Bucket.getLink_setLink _ (by omega)
    · rw [hf j (by omega), Function.update_of_ne (by omega)]

theorem initBucket_eq_none {e : ℕ → ω} : initBucket L e = none ↔ 31 < L.bucketIndexBits := by
  rw [initBucket, Option.map_eq_none_iff, linkEntries_eq_none]
  unfold intMax Layout.entriesPerBinCount
  rcases Nat.lt_or_ge 31 L.bucketIndexBits with h | h
  · have : 2 ^ 32 ≤ 2 ^ L.bucketIndexBits := Nat.pow_le_pow_right (by norm_num) h
    omega
  · have : 2 ^ L.bucketIndexBits ≤ 2 ^ 31 := Nat.pow_le_pow_right (by norm_num) h
    omega

/-- A bucket as the constructor leaves it: its entries linked in order. -/
structure Fresh (L : Layout) [Storage L ω] (B : Bucket ω) : Prop where
  version : B.version = 0
  count : B.freeSlotCount = L.entriesPerBinCount
  head : B.freeSlotIndex = 0
  links : ∀ i, i + 1 < L.entriesPerBinCount → B.links L i = i + 1
  last : B.links L (L.entriesPerBinCount - 1) = 0

theorem Fresh.lists {B : Bucket ω} (h : Fresh L B) : B.Lists L {i | i < L.entriesPerBinCount} := by
  unfold Bucket.Lists
  rw [h.head, h.count]
  exact isFreeList_range L.entriesPerBinCount_pos h.links h.last

theorem initBucket_eq_some {e : ℕ → ω} {B : Bucket ω} (h : initBucket L e = some B) :
    Fresh L B := by
  obtain ⟨e', he, rfl⟩ := Option.map_eq_some_iff.mp h
  have hpos := L.entriesPerBinCount_pos
  obtain ⟨hl, -⟩ := linkEntries_eq_some (by omega) he
  refine ⟨rfl, rfl, rfl, fun i hi => ?_, ?_⟩
  · rw [Bucket.links_setLink hpos, Function.update_of_ne (by omega)]
    exact hl i (Nat.zero_le i) (by omega)
  · rw [Bucket.links_setLink hpos, Function.update_self]

theorem initBuckets_eq_none {storage : ℕ → ℕ → ω} {n : ℕ} :
    initBuckets L storage n = none ↔ n ≠ 0 ∧ 31 < L.bucketIndexBits := by
  induction n with
  | zero => simp [initBuckets]
  | succ n ih =>
    unfold initBuckets
    cases hn : initBuckets L storage n with
    | none =>
      have := ih.mp hn
      simp [this.2]
    | some f =>
      cases hB : initBucket L (storage n) with
      | none => simp [initBucket_eq_none.mp hB]
      | some B =>
        have : ¬ 31 < L.bucketIndexBits := fun h => by simp [initBucket_eq_none.mpr h] at hB
        simp [this]

theorem initBuckets_eq_some {storage : ℕ → ℕ → ω} {n : ℕ} {f : ℕ → Bucket ω}
    (h : initBuckets L storage n = some f) : (∀ b, (f b).version = 0) ∧ ∀ b < n, Fresh L (f b) := by
  induction n generalizing f with
  | zero =>
    cases h
    exact ⟨fun _ => rfl, fun b hb => absurd hb (Nat.not_lt_zero b)⟩
  | succ n ih =>
    unfold initBuckets at h
    simp only [Option.bind_eq_bind, Option.bind_eq_some_iff, Option.pure_def,
      Option.some.injEq] at h
    obtain ⟨g, hg, B, hB, rfl⟩ := h
    obtain ⟨hv, hl⟩ := ih hg
    have hfresh := initBucket_eq_some hB
    refine ⟨fun b => ?_, fun b hb => ?_⟩
    · by_cases hbn : b = n
      · subst hbn
        simpa using hfresh.version
      · simpa [hbn] using hv b
    · by_cases hbn : b = n
      · subst hbn
        simpa using hfresh
      · simpa [hbn] using hl b (by omega)

/-- The constructor overflows its `int` exactly when an entry index has more than 31 bits. -/
theorem construct_eq_none {storage : ℕ → ℕ → ω} :
    construct L X storage = none ↔ 31 < L.bucketIndexBits := by
  have hX : X.buckets ≠ 0 := Nat.ne_zero_of_lt (X.index_lt 0)
  rw [construct, Option.map_eq_none_iff, initBuckets_eq_none]
  exact and_iff_right hX

/-- The buckets of a constructed table. -/
theorem construct_fresh {storage : ℕ → ℕ → ω} {T : Table ω} (h : construct L X storage = some T) :
    ∀ b < X.buckets, Fresh L (T.bucket b) := by
  obtain ⟨f, hf, rfl⟩ := Option.map_eq_some_iff.mp h
  exact (initBuckets_eq_some hf).2

/-- A constructed table satisfies the invariant, and nothing of it is held. -/
theorem construct_eq_some {storage : ℕ → ℕ → ω} {T : Table ω} (h : construct L X storage = some T) :
    T.Wf L X ∧ T.held = [] := by
  have hfresh := construct_fresh h
  obtain ⟨f, hf, rfl⟩ := Option.map_eq_some_iff.mp h
  refine ⟨⟨fun b => by simp [(initBuckets_eq_some hf).1 b], List.nodup_nil, by simp,
    fun b hb => ?_, rfl⟩, rfl⟩
  have hfree : Table.freeIn L [] b = {i | i < L.entriesPerBinCount} := by
    ext i
    simp [Table.freeIn]
  rw [hfree]
  exact (hfresh b hb).lists

/-- The first call in a constructed table finds a free entry, so it returns only if tiny pointers
can be constructed. -/
theorem bounded_of_runs {storage : ℕ → ℕ → ω} {T T' : Table ω} (h : construct L X storage = some T)
    {t special : ℕ} {hashes : TinyPtrHashes} (hs : special < 2 ^ L.S)
    {r : Except OverflowError (TinyPtr L × Slot)}
    (hr : Runs (dtHandler L t) (allocate L ω X hashes special) T r T') : TinyPtr.Bounded L := by
  have hcount := (construct_fresh h _ (Table.chosen_lt (T := T) (h := hashes))).count
  have hpos := L.entriesPerBinCount_pos
  have hpasses := ((construct_eq_some h).1.runs_allocate hs).mp hr
  have hbounded := hpasses.1
  unfold Table.Passes at hbounded
  rwa [if_neg (by omega)] at hbounded

end DerefTable

/-! ### Runs of a client -/

/-- An allocation: the pointers that `allocate` answered, and the hash values it was given. -/
structure Allocation (L : Layout) where
  /-- The tiny pointer. -/
  ptr : TinyPtr L
  /-- The hash values. -/
  hashes : TinyPtrHashes
  /-- The address. -/
  slot : Slot
  deriving DecidableEq

/-- A table, and the allocations of its client that are live. -/
structure Client (L : Layout) (ω : Type) where
  /-- The table. -/
  table : Table ω
  /-- The live allocations. -/
  live : List (Allocation L)

namespace Client

/-- The addresses of the live allocations. -/
def slots (c : Client L ω) : List Slot := c.live.map Allocation.slot

variable (X)

/-- One step of a single-threaded client. -/
inductive Step : Client L ω → Client L ω → Prop where
  /-- An allocation; the special value is in range, as the constructor of `TinyPtr` asserts. -/
  | allocate {c : Client L ω} {h : TinyPtrHashes} {special : ℕ} {p : TinyPtr L} {s : Slot}
      {T' : Table ω} : special < 2 ^ L.S →
      Runs (dtHandler L 0) (DerefTable.allocate L ω X h special) c.table (.ok (p, s)) T' →
      Step c ⟨T', ⟨p, h, s⟩ :: c.live⟩
  /-- An allocation that throws. -/
  | overflow {c : Client L ω} {h : TinyPtrHashes} {special : ℕ} {e : OverflowError} {T' : Table ω} :
      special < 2 ^ L.S →
      Runs (dtHandler L 0) (DerefTable.allocate L ω X h special) c.table (.error e) T' →
      Step c ⟨T', c.live⟩
  /-- A live allocation is freed, with the hash values it was allocated under. -/
  | free {c : Client L ω} {a : Allocation L} {T' : Table ω} :
      a ∈ c.live → Runs (dtHandler L 0) (DerefTable.free L ω X a.ptr a.hashes) c.table () T' →
      Step c ⟨T', c.live.erase a⟩
  /-- Any bytes are written into a live object. -/
  | write {c : Client L ω} {a : Allocation L} {o : ω} :
      a ∈ c.live → Step c ⟨c.table.write a.slot o, c.live⟩

/-- The client can get from a table nothing of which is live to `c`. -/
def Reachable (T₀ : Table ω) (c : Client L ω) : Prop := Relation.ReflTransGen (Step X) ⟨T₀, []⟩ c

/-- What a client does next: it allocates, or frees the live allocation with this index. -/
inductive Action where
  /-- `allocate(h, special)`. -/
  | allocate (h : TinyPtrHashes) (special : ℕ)
  /-- `free`. -/
  | free (i : ℕ)

/-- A step, executed with fuel for the operations of the call. -/
def act (fuel : ℕ) (c : Client L ω) : Action → Option (Client L ω)
  | .allocate h special =>
    if special < 2 ^ L.S then
      (run (dtHandler L 0) fuel (DerefTable.allocate L ω X h special) c.table).map fun r =>
        match r.1 with
        | .ok (p, s) => ⟨r.2, ⟨p, h, s⟩ :: c.live⟩
        | .error _ => ⟨r.2, c.live⟩
    else none
  | .free i => do
    let a ← c.live[i]?
    let r ← run (dtHandler L 0) fuel (DerefTable.free L ω X a.ptr a.hashes) c.table
    return ⟨r.2, c.live.erase a⟩

variable {X} in
theorem step_of_act {fuel : ℕ} {c c' : Client L ω} {a : Action} (h : c.act X fuel a = some c') :
    Step X c c' := by
  cases a with
  | allocate hashes special =>
    change (if special < 2 ^ L.S then _ else none) = _ at h
    split_ifs at h with hs
    obtain ⟨⟨r, T'⟩, hr, rfl⟩ := Option.map_eq_some_iff.mp h
    match r with
    | .ok (p, s) => exact .allocate hs ⟨fuel, hr⟩
    | .error e => exact .overflow hs ⟨fuel, hr⟩
  | free i =>
    simp only [act, Option.bind_eq_bind, Option.bind_eq_some_iff, Option.pure_def,
      Option.some.injEq] at h
    obtain ⟨a, ha, ⟨u, T'⟩, hr, rfl⟩ := h
    exact .free (List.mem_of_getElem? ha) ⟨fuel, hr⟩

variable {X} in
/-- What is executed is reached. -/
theorem reachable_of_acts {fuel : ℕ} {T₀ : Table ω} {c : Client L ω} {actions : List Action}
    (h : actions.foldlM (act X fuel) ⟨T₀, []⟩ = some c) : Reachable X T₀ c := by
  unfold Reachable
  generalize (⟨T₀, []⟩ : Client L ω) = c₀ at h ⊢
  induction actions generalizing c₀ with
  | nil =>
    cases h
    exact .refl
  | cons a actions ih =>
    simp only [List.foldlM_cons, Option.bind_eq_bind, Option.bind_eq_some_iff] at h
    obtain ⟨c₁, ha, h⟩ := h
    exact .head (step_of_act ha) (ih c₁ h)

/-- What the client relies on. -/
structure Safe (c : Client L ω) : Prop where
  /-- The free list of a bucket visits no entry twice. -/
  nodup : ∀ b < X.buckets,
    (visits ((c.table.bucket b).links L) (c.table.bucket b).freeSlotIndex
    (c.table.bucket b).freeSlotCount).Nodup
  /-- It visits exactly the entries that are not live. -/
  mem_iff : ∀ b < X.buckets, ∀ i,
    i ∈ visits ((c.table.bucket b).links L) (c.table.bucket b).freeSlotIndex
    (c.table.bucket b).freeSlotCount ↔
      i < L.entriesPerBinCount ∧ (⟨b, i⟩ : Slot) ∉ c.slots
  /-- Calls return, but for the assertion of `size()` when both buckets are full. -/
  returns : ∀ h special, special < 2 ^ L.S →
    (c.table.freeCount₁ X h = 0 ∧ c.table.freeCount₂ X h = 0 →
    c.live.length ≤ DerefTable.capacity L X) →
    ∃ r T', Runs (dtHandler L 0) (DerefTable.allocate L ω X h special) c.table r T'
  /-- An allocation that does not throw answers an entry that was not live. -/
  fresh : ∀ h special p s T', special < 2 ^ L.S →
    Runs (dtHandler L 0) (DerefTable.allocate L ω X h special) c.table (.ok (p, s)) T' →
    s ∉ c.slots ∧ DerefTable.dereference X p h = .ok (some s)
  /-- While it is live, its tiny pointer denotes that entry. -/
  denotes : ∀ a ∈ c.live, DerefTable.dereference X a.ptr a.hashes = .ok (some a.slot)
  /-- Different live allocations denote different entries. -/
  distinct : c.slots.Nodup
  /-- An allocation changes no live object. -/
  allocate_frame : ∀ h special r T', special < 2 ^ L.S →
    Runs (dtHandler L 0) (DerefTable.allocate L ω X h special) c.table r T' →
    ∀ a ∈ c.live, T'.read a.slot = c.table.read a.slot
  /-- Freeing one allocation changes no other live object. -/
  free_frame : ∀ a ∈ c.live, ∀ T',
    Runs (dtHandler L 0) (DerefTable.free L ω X a.ptr a.hashes) c.table () T' →
    ∀ a' ∈ c.live, a' ≠ a → T'.read a'.slot = c.table.read a'.slot

/-- The invariant of a run: the table holds what is live. -/
structure Inv (c : Client L ω) : Prop where
  wf : c.table.Wf L X
  held : ∀ s, s ∈ c.table.held ↔ s ∈ c.slots
  distinct : c.slots.Nodup
  denotes : ∀ a ∈ c.live, DerefTable.slotOf X a.ptr a.hashes = a.slot ∧
    DerefTable.dereference X a.ptr a.hashes = .ok (some a.slot)

variable {X} {c c' : Client L ω}

theorem Inv.slot_inj (hc : Inv X c) {a a' : Allocation L} (ha : a ∈ c.live) (ha' : a' ∈ c.live)
    (h : a.slot = a'.slot) : a = a' := List.inj_on_of_nodup_map hc.distinct ha ha' h

theorem Inv.step (hc : Inv X c) (h : Step X c c') : Inv X c' := by
  cases h with
  | @allocate h special p s T' hs hr =>
    obtain ⟨-, hr⟩ := (hc.wf.runs_allocate hs).mp hr
    have ha := hc.wf.allocated hs hr
    refine ⟨?_, fun s' => ?_, ?_, ?_⟩
    · have hwf : (c.table.allocate L X 0 h special).2.Wf L X := hc.wf.allocate
      rwa [hr] at hwf
    · simp [ha.held, slots, hc.held s']
    · exact List.nodup_cons.mpr ⟨fun hm => ha.fresh ((hc.held s).mpr hm), hc.distinct⟩
    · intro a hm
      rcases List.mem_cons.mp hm with rfl | hm
      · exact ⟨ha.slotOf, ha.dereference⟩
      · exact hc.denotes a hm
  | @overflow h special e T' hs hr =>
    obtain ⟨-, hr⟩ := (hc.wf.runs_allocate hs).mp hr
    refine ⟨?_, fun s' => ?_, hc.distinct, hc.denotes⟩
    · have hwf : (c.table.allocate L X 0 h special).2.Wf L X := hc.wf.allocate
      rwa [hr] at hwf
    · rw [Table.held_of_error hr]
      exact hc.held s'
  | @free a T' ha hr =>
    rw [Table.runs_free hc.wf.quiet] at hr
    subst hr
    have hheld : DerefTable.slotOf X a.ptr a.hashes ∈ c.table.held := by
      rw [(hc.denotes a ha).1, hc.held]
      exact List.mem_map_of_mem ha
    have hlive : c.live.Nodup := hc.distinct.of_map
    have hmem : ∀ s, s ∈ (c.live.erase a).map Allocation.slot ↔ s ≠ a.slot ∧ s ∈ c.slots := by
      intro s
      simp only [slots, List.mem_map, hlive.mem_erase_iff]
      constructor
      · rintro ⟨a', ⟨hne, ha'⟩, rfl⟩
        exact ⟨fun e => hne (hc.slot_inj ha' ha e), a', ha', rfl⟩
      · rintro ⟨hne, a', ha', rfl⟩
        exact ⟨a', ⟨fun e => hne (congrArg Allocation.slot e), ha'⟩, rfl⟩
    refine ⟨hc.wf.free hheld, fun s => ?_, ?_, fun a' ha' =>
      hc.denotes a' (List.mem_of_mem_erase ha')⟩
    · show s ∈ c.table.held.erase (DerefTable.slotOf X a.ptr a.hashes) ↔ _
      rw [hc.wf.held_nodup.mem_erase_iff, (hc.denotes a ha).1, hc.held]
      exact (hmem s).symm
    · exact hc.distinct.sublist (List.erase_sublist.map _)
  | @write a o ha =>
    refine ⟨hc.wf.write ?_ o, hc.held, hc.distinct, hc.denotes⟩
    rw [hc.held]
    exact List.mem_map_of_mem ha

theorem Inv.length_held (hc : Inv X c) : c.table.held.length = c.live.length := by
  have hperm : c.table.held.Perm c.slots :=
    (List.perm_ext_iff_of_nodup hc.wf.held_nodup hc.distinct).mpr hc.held
  rw [hperm.length_eq, slots, List.length_map]

/-- A call stops at no assertion where that of `size()` holds if it throws, and tiny pointers can be
constructed if it does not. -/
theorem Inv.passes_iff (hc : Inv X c) {h : TinyPtrHashes} :
    c.table.Passes L X (c.table.chosen X h) ↔ if c.table.freeCount₁ X h = 0 ∧
      c.table.freeCount₂ X h = 0 then c.live.length ≤ DerefTable.capacity L X else
      TinyPtr.Bounded L := by
  simp only [Table.Passes, hc.wf.size_isSome_iff, hc.length_held, Table.chosen_full_iff]

theorem Inv.safe (hL : TinyPtr.Bounded L) (hc : Inv X c) : Safe X c := by
  have hfree : ∀ b i, i ∈ Table.freeIn L c.table.held b ↔
      i < L.entriesPerBinCount ∧ (⟨b, i⟩ : Slot) ∉ c.slots :=
      fun b i => by simp [Table.freeIn, hc.held]
  refine ⟨fun b hb => (hc.wf.lists b hb).nodup, fun b hb i => ?_, fun h special hs hfull => ?_, ?_,
    ?_, hc.distinct, ?_, ?_⟩
  · rw [(hc.wf.lists b hb).mem_iff, hfree]
  · refine ⟨_, _, (hc.wf.runs_allocate hs).mpr ⟨hc.passes_iff.mpr ?_, rfl⟩⟩
    split_ifs with h0
    · exact hfull h0
    · exact hL
  · intro h special p s T' hs hr
    have ha := hc.wf.allocated hs ((hc.wf.runs_allocate hs).mp hr).2
    exact ⟨fun hm => ha.fresh ((hc.held s).mpr hm), ha.dereference⟩
  · exact fun a ha => (hc.denotes a ha).2
  · intro h special r T' hs hr a _
    have hT : (c.table.allocate L X 0 h special).2 = T' :=
      congrArg Prod.snd ((hc.wf.runs_allocate hs).mp hr).2
    rw [← hT, Table.read_allocate]
  · intro a ha T' hr a' ha' hne
    rw [Table.runs_free hc.wf.quiet] at hr
    rw [← hr]
    refine Table.read_give fun e => hne (hc.slot_inj ha' ha ?_)
    rw [e, (hc.denotes a ha).1]

theorem Reachable.inv {T₀ : Table ω} (h₀ : T₀.Wf L X) (hheld : T₀.held = [])
    (h : Reachable X T₀ c) : Inv X c := by
  induction h with
  | refl => exact ⟨h₀, fun s => by simp [hheld, slots], List.nodup_nil, by simp⟩
  | tail _ hs ih => exact ih.step hs

end Client

/-- Every table of this instantiation and geometry is constructed, and serves its client
safely in every reachable state. -/
def FreeListSafe (L : Layout) (τ : ObjectType L) (X : BucketIndexer) : Prop :=
  ∀ storage : ℕ → ℕ → τ.Bytes, ∃ T₀, DerefTable.construct L X storage = some T₀ ∧
    ∀ c : Client L τ.Bytes, Client.Reachable X T₀ c → Client.Safe X c

/-- A client cannot allocate in a table whose tiny pointers cannot be constructed. -/
theorem FreeListSafe.bounded {τ : ObjectType L} (h : FreeListSafe L τ X) : TinyPtr.Bounded L := by
  let zeros : τ.Bytes := fun _ => 0
  obtain ⟨T₀, hT₀, hsafe⟩ := h fun _ _ => zeros
  have hs : 0 < 2 ^ L.S := by positivity
  obtain ⟨r, T', hr⟩ := (hsafe _ .refl).returns (0, 0) 0 hs fun _ => Nat.zero_le _
  exact DerefTable.bounded_of_runs hT₀ hs hr

/-- A table serves every run of its client safely if and only if its tiny pointers have less than 32
bits, or 32 with special ones: for others the constructor of the table or that of a tiny pointer
leaves `int`. -/
theorem freeListSafe_iff (L : Layout) (τ : ObjectType L) (X : BucketIndexer) :
    FreeListSafe L τ X ↔ L.w < 32 ∨ L.w = 32 ∧ 0 < L.S := by
  rw [← TinyPtr.bounded_iff]
  constructor
  · exact FreeListSafe.bounded
  · intro hL storage
    cases hT : DerefTable.construct L X storage with
    | none =>
      have hbits := DerefTable.construct_eq_none.mp hT
      have hindex := hL.index
      unfold Layout.bucketIndexBits at hbits
      omega
    | some T₀ =>
      obtain ⟨hwf, hheld⟩ := DerefTable.construct_eq_some hT
      exact ⟨T₀, rfl, fun c hc => (hc.inv hwf hheld).safe hL⟩

/-- `DerefTable<TObject, uint32_t>` with one bucket of four-byte objects: the first `allocate`
constructs a tiny pointer, and the assertion of its constructor leaves `int`. -/
theorem not_freeListSafe_wide :
    ¬ ∀ (L : Layout) (τ : ObjectType L) (X : BucketIndexer), FreeListSafe L τ X := by
  intro h
  have hbounded := (h ⟨32, 0, by decide, by decide⟩ ⟨4, by decide⟩
    ⟨1, fun _ => 0, by decide, fun _ => by decide⟩).bounded
  exact absurd hbounded.index (by decide)

end TinyPointerTrees
