import TinyPointerTrees.TinyPtr.Hashing
import TinyPointerTrees.TinyPtr.TwoChoice

/-!
# The placement simulator

`tools/hash_distribution_sim.cpp` replays `allocate_impl` on counters, to see whether a
hash overflows a bucket. It has its own reducers, counts free entries in 16 bits, and
stops where the table throws. What it computes in floating point is left out.

* `simulate_replays` — after every prefix of the workload its counters are those of the
  table, and it fails where `allocate` throws, if and only if no call of `allocate`
  stops at an assertion.
* `not_simulate_replays` — in a table of more than 2^32 entries one does.
-/

namespace TinyPointerTrees

open Conc Conc.Prog

/-! ### Reducers -/

/-- What `simulate` uses of a reducer. -/
structure Reduce where
  /-- `buckets()`. -/
  buckets : UInt32
  /-- `operator()`. -/
  index : UInt64 → UInt32

/-- `pick`, of any 64-bit number: the last prime if all are smaller. -/
def Primes.pick64 (P : Primes) (desiredSize : UInt64) : ℕ :=
  let last := P.table.max?.getD 0
  if desiredSize.toNat ≥ last then last else P.pick desiredSize.toNat

/-- `PrimeReduce`, unless its assertion fails. -/
def primeReduce (P : Primes) (desired : UInt64) : Option Reduce :=
  let prime := P.pick64 desired
  if prime ≤ 2 ^ 32 - 1 then
    some ⟨UInt32.ofNat prime, fun h => UInt32.ofNat (h.toNat % prime)⟩
  else none

/-- `MaskReduce`, unless its assertion fails. -/
def maskReduce (desired : UInt64) : Option Reduce :=
  if bitCeil desired.toNat ≤ 2 ^ 32 - 1 then
    let count := UInt32.ofNat (bitCeil desired.toNat)
    some ⟨count, fun h => (h &&& (count - 1).toUInt64).toUInt32⟩
  else none

/-- The reducer for a mode of the table. -/
def Mode.reduce : Mode → UInt64 → Option Reduce
  | primes P => primeReduce P
  | mask => maskReduce

theorem Primes.pick64_pos (P : Primes) (desired : UInt64) : 0 < P.pick64 desired := by
  obtain ⟨p, hp, -⟩ := P.large
  obtain ⟨last, hlast⟩ : ∃ last, P.table.max? = some last := by
    rw [← Option.isSome_iff_exists, List.isSome_max?_iff]
    exact List.ne_nil_of_mem hp
  have hmem := List.max?_mem hlast
  simp only [pick64, hlast, Option.getD_some]
  split_ifs with hle
  · exact P.pos last hmem
  · obtain ⟨hpick, -⟩ := P.pick_mem_of hmem (not_le.1 hle).le
    exact P.pos _ hpick

/-- Both reducers compute the remainder. -/
theorem Mode.reduce_index {m : Mode} {desired : UInt64} {R : Reduce}
    (hR : m.reduce desired = some R) (h : UInt64) :
    (R.index h).toNat = h.toNat % R.buckets.toNat := by
  cases m with
  | primes P =>
    simp only [reduce, primeReduce, Option.ite_none_right_eq_some] at hR
    have hpos := P.pick64_pos desired
    obtain ⟨hle, hR⟩ := hR
    cases hR
    have hmod := Nat.mod_lt h.toNat hpos
    simp only [UInt32.toNat_ofNat']
    rw [Nat.mod_eq_of_lt (by omega), Nat.mod_eq_of_lt (by omega : P.pick64 desired < 2 ^ 32)]
  | mask =>
    simp only [reduce, maskReduce, Option.ite_none_right_eq_some] at hR
    obtain ⟨hle, hR⟩ := hR
    cases hR
    have hpos : 0 < bitCeil desired.toNat := Nat.two_pow_pos _
    have hcount : (UInt32.ofNat (bitCeil desired.toNat)).toNat = bitCeil desired.toNat := by
      rw [UInt32.toNat_ofNat', Nat.mod_eq_of_lt (by omega)]
    have hsub : (UInt32.ofNat (bitCeil desired.toNat) - 1).toNat = bitCeil desired.toNat - 1 := by
      rw [UInt32.toNat_sub_of_le _ _ (by rw [UInt32.le_iff_toNat_le, hcount]; exact hpos), hcount]
      rfl
    simp only [UInt64.toNat_toUInt32, UInt64.toNat_and, UInt32.toNat_toUInt64, hsub, hcount]
    unfold bitCeil
    rw [Nat.and_two_pow_sub_one_eq_mod]
    have hmod := Nat.mod_lt h.toNat hpos
    unfold bitCeil at hle hmod
    rw [Nat.mod_eq_of_lt (by omega)]

/-- The reduction of a table does so, too. -/
theorem Mode.index_of_indexer {X : BucketIndexer} {m : Mode} {n : UInt32}
    (hbuckets : X.buckets = m.buckets n) (hindex : X.index = m.index n) (h : UInt64) :
    X.index h = h.toNat % X.buckets := by
  have hlt : m.rounded n < 2 ^ 32 := rounded_lt_of_index_lt fun hash =>
    hbuckets ▸ hindex ▸ X.index_lt hash
  rw [hindex, hbuckets, index_eq, buckets_eq, Nat.mod_eq_of_lt hlt]

/-! ### The simulation -/

/-- `Item`. -/
structure Item where
  /-- The index of the id of the parent. -/
  parent : UInt32
  /-- The key byte. -/
  shift : UInt8

/-- `Workload`. -/
structure Workload where
  /-- The ids of the parents. -/
  ids : List UInt64
  /-- What is placed. -/
  items : List Item
  parent_lt : ∀ item ∈ items, item.parent.toNat < ids.length

/-- The hash values of the items. -/
def Workload.hashes (w : Workload) (hash : UInt64 → UInt8 → TinyPtrHashes) : List TinyPtrHashes :=
  w.items.attach.map fun item =>
    hash (w.ids.get ⟨item.1.parent.toNat, w.parent_lt item.1 item.2⟩) item.1.shift

/-- `h_current`. -/
def hCurrent (id : UInt64) (shift : UInt8) : TinyPtrHashes := idHash id shift

/-- What a snapshot records. -/
structure Snapshot where
  /-- `max_load`. -/
  maxLoad : ℕ
  /-- `full_buckets`. -/
  fullBuckets : ℕ

/-- `snapshot`. -/
def takeSnapshot (epb : UInt32) (freeSlots : List UInt16) : Snapshot :=
  let hist := fun load => freeSlots.countP fun freeCount => epb.toNat - freeCount.toNat = load
  { maxLoad := (List.range (epb.toNat + 1)).foldl
      (fun maxLoad load => if hist load ≠ 0 then load else maxLoad) 0
    fullBuckets := hist epb.toNat }

/-- The variables of the loop of `simulate`. -/
structure Placement where
  /-- `free_slots`. -/
  freeSlots : List UInt16
  /-- `placed`. -/
  placed : ℕ := 0
  /-- `degenerate`. -/
  degenerate : ℕ := 0
  /-- The snapshot, when it was taken. -/
  snapshot : Option Snapshot := none
  /-- `failed`. -/
  failed : Bool := false
  /-- `reached_target`. -/
  reachedTarget : Bool := true

/-- `Result`. -/
structure Result where
  /-- `buckets`. -/
  buckets : UInt32
  /-- `max_load` and `full_buckets`. -/
  snapshot : Snapshot
  /-- `degenerate`. -/
  degenerate : ℕ
  /-- `failed`. -/
  failed : Bool
  /-- `reached_target`. -/
  reachedTarget : Bool

namespace Placement

variable (R : Reduce) (epb : UInt32) (target : ℕ)

/-- All entries are free. -/
def initial : Placement := { freeSlots := List.replicate R.buckets.toNat epb.toUInt16 }

/-- The free entries of a bucket. -/
def freeCount (s : Placement) (i : ℕ) : UInt16 := s.freeSlots.getD i 0

/-- `chosen`; ties go to the first hash value. -/
def chosen (s : Placement) (h : TinyPtrHashes) : ℕ :=
  let i₁ := (R.index h.1).toNat
  let i₂ := (R.index h.2).toNat
  if s.freeCount i₁ ≥ s.freeCount i₂ then i₁ else i₂

/-- The body of the loop. -/
def step (s : Placement) (h : TinyPtrHashes) : Placement :=
  let degenerate := if R.index h.1 = R.index h.2 then s.degenerate + 1 else s.degenerate
  let chosen := s.chosen R h
  if s.freeCount chosen = 0 then
    { s with
      degenerate
      failed := true
      reachedTarget := decide (s.placed ≥ target)
      snapshot := some (s.snapshot.getD (takeSnapshot epb s.freeSlots)) }
  else
    let freeSlots := s.freeSlots.set chosen (s.freeCount chosen - 1)
    let placed := s.placed + 1
    { s with
      degenerate
      freeSlots
      placed
      snapshot := if placed = target then some (takeSnapshot epb freeSlots) else s.snapshot }

/-- The loop; it is left when an item cannot be placed. -/
def place : List TinyPtrHashes → Placement → Placement
  | [], s => s
  | h :: hs, s =>
    let s := s.step R epb target h
    if s.failed then s else place hs s

end Placement

/-- `simulate`. -/
def simulate (w : Workload) (hash : UInt64 → UInt8 → TinyPtrHashes) (R : Reduce) (epb : UInt32)
    (target : ℕ) : Result :=
  let s := Placement.place R epb target (w.hashes hash) (.initial R epb)
  { buckets := R.buckets
    snapshot := s.snapshot.getD (takeSnapshot epb s.freeSlots)
    degenerate := s.degenerate
    failed := s.failed
    reachedTarget := s.reachedTarget }

/-! ### The table -/

variable {ω : Type}

/-- `allocate` is called for hash values one after another, with any special values, until it
throws. It does not go on from a call that stops at an assertion. -/
inductive Replay (L : Layout) [Storage L ω] (X : BucketIndexer) (t : ℕ) (T₀ : Table ω) :
    List TinyPtrHashes → Table ω → Bool → Prop
  /-- Nothing has been allocated. -/
  | start : Replay L X t T₀ [] T₀ false
  /-- The next object is allocated. -/
  | allocate {hs : List TinyPtrHashes} {T T' : Table ω} {h : TinyPtrHashes} {special : ℕ}
      {p : TinyPtr L} {s : Slot} : special < 2 ^ L.S → Replay L X t T₀ hs T false →
      Runs (dtHandler L t) (DerefTable.allocate L ω X h special) T (.ok (p, s)) T' →
      Replay L X t T₀ (hs ++ [h]) T' false
  /-- The next object cannot be allocated. -/
  | throw {hs : List TinyPtrHashes} {T T' : Table ω} {h : TinyPtrHashes} {special : ℕ}
      {e : OverflowError} : special < 2 ^ L.S → Replay L X t T₀ hs T false →
      Runs (dtHandler L t) (DerefTable.allocate L ω X h special) T (.error e) T' →
      Replay L X t T₀ (hs ++ [h]) T' true
  /-- The exception has ended the calls. -/
  | stopped {hs : List TinyPtrHashes} {T : Table ω} {h : TinyPtrHashes} :
      Replay L X t T₀ hs T true → Replay L X t T₀ (hs ++ [h]) T true

namespace Placement

variable {L : Layout} [Storage L ω] {X : BucketIndexer} {R : Reduce} {epb : UInt32} {target : ℕ}
  {s : Placement} {T T' : Table ω} {t : ℕ} {h : TinyPtrHashes} {special : ℕ}

/-- A last item is placed if the loop is not left before. -/
theorem place_append (hs : s.failed = false) (l : List TinyPtrHashes) (h : TinyPtrHashes) :
    place R epb target (l ++ [h]) s = if (place R epb target l s).failed = true then
      place R epb target l s else (place R epb target l s).step R epb target h := by
  induction l generalizing s with
  | nil =>
    simp only [List.nil_append, place, hs, ite_self, Bool.false_eq_true, if_false]
  | cons a l ih =>
    simp only [List.cons_append, place]
    by_cases hfailed : (s.step R epb target a).failed = true
    · simp only [hfailed, if_true]
    · simp only [hfailed]
      exact ih (Bool.eq_false_iff.2 hfailed)

theorem freeCount_set {i : ℕ} (hi : i < s.freeSlots.length) (v : UInt16) (b : ℕ) :
    (s.freeSlots.set i v).getD b 0 = if i = b then v else s.freeCount b := by
  unfold freeCount
  rw [List.getD_eq_getElem?_getD, List.getD_eq_getElem?_getD, List.getElem?_set]
  split_ifs <;> rfl

theorem freeSlots_step : (s.step R epb target h).freeSlots =
    if s.freeCount (s.chosen R h) = 0 then s.freeSlots
    else s.freeSlots.set (s.chosen R h) (s.freeCount (s.chosen R h) - 1) := by
  simp only [step]
  split_ifs <;> rfl

theorem failed_step :
    (s.step R epb target h).failed = if s.freeCount (s.chosen R h) = 0 then true else s.failed := by
  simp only [step]
  split_ifs <;> rfl

theorem length_step : (s.step R epb target h).freeSlots.length = s.freeSlots.length := by
  rw [freeSlots_step]
  split_ifs
  · rfl
  · exact List.length_set

/-- The bucket that is chosen loses an entry if it has one. -/
theorem freeCount_step (hlt : s.chosen R h < s.freeSlots.length) (b : ℕ) :
    ((s.step R epb target h).freeCount b).toNat =
      if s.chosen R h = b then (s.freeCount b).toNat - 1 else (s.freeCount b).toNat := by
  change ((s.step R epb target h).freeSlots.getD b 0).toNat = _
  rw [freeSlots_step]
  by_cases hzero : s.freeCount (s.chosen R h) = 0
  · rw [if_pos hzero]
    split_ifs with hb
    · subst hb
      rw [hzero]
      exact congrArg UInt16.toNat hzero
    · rfl
  · rw [if_neg hzero, freeCount_set hlt]
    split_ifs with hb
    · subst hb
      refine UInt16.toNat_sub_of_le _ _ ?_
      rw [UInt16.le_iff_toNat_le]
      exact Nat.one_le_iff_ne_zero.2 fun h0 => hzero (UInt16.toNat_inj.1 h0)
    · rfl

/-- So does that of the table. -/
theorem freeSlotCount_allocate (hT : T.Wf L X) (b : ℕ) :
    ((T.allocate L X t h special).2.bucket b).freeSlotCount = if T.chosen X h = b then
      (T.bucket b).freeSlotCount - 1 else (T.bucket b).freeSlotCount := by
  unfold Table.allocate Table.take
  by_cases hzero : (T.bucket (T.chosen X h)).freeSlotCount = 0
  · rw [if_pos hzero, Table.modify_bucket]
    by_cases hb : T.chosen X h = b
    · subst hb
      rw [if_pos rfl, if_pos rfl, hzero]
      exact hzero
    · rw [if_neg (Ne.symm hb), if_neg hb]
  · rw [if_neg hzero]
    change ((T.modify _ _).bucket b).freeSlotCount = _
    rw [Table.modify_bucket]
    by_cases hb : T.chosen X h = b
    · subst hb
      rw [if_pos rfl, if_pos rfl]
      exact (hT.lists _ Table.chosen_lt).fetchSub hzero
    · rw [if_neg (Ne.symm hb), if_neg hb]

/-- The counters are those of the table. -/
structure Agrees (X : BucketIndexer) (s : Placement) (T : Table ω) : Prop where
  length : s.freeSlots.length = X.buckets
  freeCount : ∀ b < X.buckets, (s.freeCount b).toNat = (T.bucket b).freeSlotCount

namespace Agrees

/-- The simulator chooses the bucket that the table chooses. -/
theorem chosen (hs : s.Agrees X T) (hR : ∀ hash, (R.index hash).toNat = X.index hash) :
    s.chosen R h = T.chosen X h := by
  have hge : s.freeCount (X.index h.1) ≥ s.freeCount (X.index h.2) ↔
      (T.bucket (X.index h.1)).freeSlotCount ≥ (T.bucket (X.index h.2)).freeSlotCount := by
    rw [ge_iff_le, UInt16.le_iff_toNat_le, hs.freeCount _ (X.index_lt _),
      hs.freeCount _ (X.index_lt _)]
  unfold Placement.chosen Table.chosen Table.hashBit
  simp only [hR, hge, decide_eq_true_eq, ite_not]

/-- It fails where the table throws. -/
theorem failed_iff (hs : s.Agrees X T) (hR : ∀ hash, (R.index hash).toNat = X.index hash)
    (hfailed : s.failed = false) :
    (s.step R epb target h).failed = true ↔ ∃ e, (T.allocate L X t h special).1 = .error e := by
  have hzero : s.freeCount (s.chosen R h) = 0 ↔ (T.bucket (T.chosen X h)).freeSlotCount = 0 := by
    rw [← hs.freeCount _ Table.chosen_lt, ← hs.chosen hR, ← UInt16.toNat_inj]
    rfl
  rw [Table.allocate_eq_error_iff, ← Table.chosen_full_iff, ← hzero]
  rw [failed_step, hfailed]
  split_ifs with h0
  · exact iff_of_true rfl h0
  · exact iff_of_false not_false h0

/-- An item changes the counters as `allocate` changes those of the table. -/
theorem step (hs : s.Agrees X T) (hT : T.Wf L X)
    (hR : ∀ hash, (R.index hash).toNat = X.index hash) :
    (s.step R epb target h).Agrees X (T.allocate L X t h special).2 := by
  have hchosen := hs.chosen hR (h := h)
  have hlt : s.chosen R h < s.freeSlots.length := by
    rw [hchosen, hs.length]
    exact Table.chosen_lt
  refine ⟨length_step.trans hs.length, fun b hb => ?_⟩
  rw [freeCount_step hlt, freeSlotCount_allocate hT, hchosen, hs.freeCount b hb]

/-- A call of `allocate` and the item for it. -/
theorem runs (hs : s.Agrees X T) (hT : T.Wf L X) (hR : ∀ hash, (R.index hash).toNat = X.index hash)
    (hfailed : s.failed = false) (hspecial : special < 2 ^ L.S)
    {r : Except OverflowError (TinyPtr L × Slot)}
    (hr : Runs (dtHandler L t) (DerefTable.allocate L ω X h special) T r T') :
    ((s.step R epb target h).failed = true ↔ ∃ e, r = .error e) ∧
      (s.step R epb target h).Agrees X T' ∧ T'.Wf L X := by
  replace hr := ((hT.runs_allocate hspecial).mp hr).2
  have hiff : (s.step R epb target h).failed = true ↔
    ∃ e, (T.allocate L X t h special).1 = .error e :=
    hs.failed_iff hR hfailed
  have hstep : (s.step R epb target h).Agrees X (T.allocate L X t h special).2 := hs.step hT hR
  have hwf : (T.allocate L X t h special).2.Wf L X := hT.allocate
  rw [hr] at hiff hstep hwf
  exact ⟨hiff, hstep, hwf⟩

omit [Storage L ω] in
/-- Counters of 16 bits can count the entries of a new table. -/
theorem initial (hbuckets : R.buckets.toNat = X.buckets) (hE : L.entriesPerBinCount ≤ 65535)
    (hT : ∀ b < X.buckets, (T.bucket b).freeSlotCount = L.entriesPerBinCount) :
    (Placement.initial R (UInt32.ofNat L.entriesPerBinCount)).Agrees X T := by
  refine ⟨List.length_replicate.trans hbuckets, fun b hb => ?_⟩
  have hepb : (UInt32.ofNat L.entriesPerBinCount).toUInt16.toNat = L.entriesPerBinCount := by
    rw [UInt32.toNat_toUInt16, UInt32.toNat_ofNat', Nat.mod_mod_of_dvd _ (by norm_num),
      Nat.mod_eq_of_lt (by omega)]
  rw [hT b hb]
  refine Eq.trans ?_ hepb
  unfold Placement.freeCount Placement.initial
  rw [List.getD_eq_getElem?_getD, List.getElem?_replicate, if_pos (hbuckets ▸ hb)]
  rfl

end Agrees

end Placement

section

variable {L : Layout} [Storage L ω] {X : BucketIndexer} {R : Reduce} {target t : ℕ} {T₀ T : Table ω}
  {failed : Bool} {hs : List TinyPtrHashes}

/-- The simulator goes with the table. -/
theorem Replay.agrees (h : Replay L X t T₀ hs T failed) {s₀ : Placement} {epb : UInt32}
    (hs₀ : s₀.Agrees X T₀) (hfailed : s₀.failed = false) (hT₀ : T₀.Wf L X)
    (hR : ∀ hash, (R.index hash).toNat = X.index hash) :
    (s₀.place R epb target hs).failed = failed ∧
      (s₀.place R epb target hs).Agrees X T ∧ T.Wf L X := by
  induction h with
  | start => exact ⟨hfailed, hs₀, hT₀⟩
  | allocate hspecial _ hr ih =>
    obtain ⟨hno, hagrees, hT⟩ := ih
    obtain ⟨hiff, hstep, hwf⟩ := hagrees.runs hT hR hno hspecial hr
    rw [Placement.place_append hfailed, hno, if_neg Bool.false_ne_true]
    refine ⟨Bool.eq_false_iff.2 fun hfails => ?_, hstep, hwf⟩
    obtain ⟨e, he⟩ := hiff.1 hfails
    cases he
  | throw hspecial _ hr ih =>
    obtain ⟨hno, hagrees, hT⟩ := ih
    obtain ⟨hiff, hstep, hwf⟩ := hagrees.runs hT hR hno hspecial hr
    rw [Placement.place_append hfailed, hno, if_neg Bool.false_ne_true]
    exact ⟨hiff.2 ⟨_, rfl⟩, hstep, hwf⟩
  | stopped _ ih =>
    obtain ⟨hfails, hagrees, hT⟩ := ih
    rw [Placement.place_append hfailed, hfails, if_pos rfl]
    exact ⟨hfails, hagrees, hT⟩

theorem Replay.wf (h : Replay L X t T₀ hs T failed) (hT₀ : T₀.Wf L X) : T.Wf L X := by
  induction h with
  | start => exact hT₀
  | allocate hspecial _ hr ih => exact ih.of_allocate ((ih.runs_allocate hspecial).mp hr).2
  | throw hspecial _ hr ih => exact ih.of_allocate ((ih.runs_allocate hspecial).mp hr).2
  | stopped _ ih => exact ih

/-- A call that has been replayed stopped at no assertion. -/
theorem Replay.of_append {h : TinyPtrHashes} (hreplay : Replay L X t T₀ (hs ++ [h]) T failed)
    (hT₀ : T₀.Wf L X) :
    Replay L X t T₀ hs T true ∧ failed = true ∨ ∃ U special r, Replay L X t T₀ hs U false ∧
      U.Passes L X (U.chosen X h) ∧
        U.allocate L X t h special = (r, T) ∧ (failed = true ↔ ∃ e, r = .error e) := by
  generalize hl : hs ++ [h] = l at hreplay
  cases hreplay with
  | start => exact absurd hl (by simp)
  | allocate hspecial hU hr =>
    obtain ⟨rfl, heq⟩ := List.append_inj' hl rfl
    cases heq
    obtain ⟨hpasses, ha⟩ := ((hU.wf hT₀).runs_allocate hspecial).mp hr
    exact Or.inr ⟨_, _, _, hU, hpasses, ha, by simp⟩
  | throw hspecial hU hr =>
    obtain ⟨rfl, heq⟩ := List.append_inj' hl rfl
    cases heq
    obtain ⟨hpasses, ha⟩ := ((hU.wf hT₀).runs_allocate hspecial).mp hr
    exact Or.inr ⟨_, _, _, hU, hpasses, ha, by simp⟩
  | stopped hU =>
    obtain ⟨rfl, -⟩ := List.append_inj' hl rfl
    exact Or.inl ⟨hU, rfl⟩

/-- The special value matters for the tiny pointer alone. -/
theorem allocate_special {h : TinyPtrHashes} (special special' : ℕ) :
    (T.allocate L X t h special).2 = (T.allocate L X t h special').2 ∧
      ((∃ e, (T.allocate L X t h special).1 = .error e) ↔
      ∃ e, (T.allocate L X t h special').1 = .error e) := by
  unfold Table.allocate Table.take
  split_ifs
  · exact ⟨rfl, by simp⟩
  · exact ⟨rfl, by simp⟩

/-- The special values do not matter for the table. -/
theorem Replay.unique {T' : Table ω} {failed' : Bool} (h : Replay L X t T₀ hs T failed)
    (h' : Replay L X t T₀ hs T' failed') (hT₀ : T₀.Wf L X) : T = T' ∧ failed = failed' := by
  induction hs using List.reverseRecOn generalizing T T' failed failed' with
  | nil =>
    have hstart : ∀ {U f}, Replay L X t T₀ [] U f → U = T₀ ∧ f = false := by
      intro U f hU
      generalize hl : ([] : List TinyPtrHashes) = l at hU
      cases hU with
      | start => exact ⟨rfl, rfl⟩
      | allocate => exact absurd hl (by simp)
      | throw => exact absurd hl (by simp)
      | stopped => exact absurd hl (by simp)
    obtain ⟨rfl, rfl⟩ := hstart h
    obtain ⟨rfl, rfl⟩ := hstart h'
    exact ⟨rfl, rfl⟩
  | append_singleton hs a ih =>
    rcases h.of_append hT₀ with ⟨hU, rfl⟩ | ⟨U, special, r, hU, -, hr, hfailed⟩ <;>
      rcases h'.of_append hT₀ with ⟨hU', rfl⟩ | ⟨U', special', r', hU', -, hr', hfailed'⟩
    · exact ih hU hU'
    · cases (ih hU hU').2
    · cases (ih hU hU').2
    · obtain ⟨rfl, -⟩ := ih hU hU'
      obtain ⟨htable, herror⟩ := allocate_special (L := L) (X := X) (T := U) (t := t)
        (h := a) special special'
      rw [hr, hr'] at htable herror
      exact ⟨htable, Bool.eq_iff_iff.mpr (hfailed.trans (herror.trans hfailed'.symm))⟩

/-- One more call, which stops at no assertion. -/
theorem Replay.exists_append {h : TinyPtrHashes} (hreplay : Replay L X t T₀ hs T false)
    (hT₀ : T₀.Wf L X) (hpasses : T.Passes L X (T.chosen X h)) :
    ∃ T' failed, Replay L X t T₀ (hs ++ [h]) T' failed := by
  have hspecial : 0 < 2 ^ L.S := Nat.two_pow_pos _
  have hr : Runs (dtHandler L t) (DerefTable.allocate L ω X h 0) T (T.allocate L X t h 0).1
      (T.allocate L X t h 0).2 := ((hreplay.wf hT₀).runs_allocate hspecial).mpr ⟨hpasses, rfl⟩
  rcases hres : (T.allocate L X t h 0).1 with e | ⟨p, s⟩
  · rw [hres] at hr
    exact ⟨_, true, .throw hspecial hreplay hr⟩
  · rw [hres] at hr
    exact ⟨_, false, .allocate hspecial hreplay hr⟩

/-- If no call stops, every prefix of a workload can be replayed. -/
theorem exists_replay (hT₀ : T₀.Wf L X)
    (hpasses : ∀ n h, hs[n]? = some h → ∀ T, Replay L X t T₀ (hs.take n) T false →
      T.Passes L X (T.chosen X h))
    (n : ℕ) : ∃ T failed, Replay L X t T₀ (hs.take n) T failed := by
  induction n with
  | zero => exact ⟨T₀, false, .start⟩
  | succ n ih =>
    obtain ⟨T, failed, hreplay⟩ := ih
    rw [List.take_add_one]
    cases hn : hs[n]? with
    | none => exact ⟨T, failed, by rwa [Option.toList_none, List.append_nil]⟩
    | some h =>
      rw [Option.toList_some]
      cases failed with
      | true => exact ⟨T, true, .stopped hreplay⟩
      | false => exact hreplay.exists_append hT₀ (hpasses n h hn T hreplay)

end

/-- What is expected of the simulator, for buckets of a table that is new. -/
structure Replays (L : Layout) [Storage L ω] (X : BucketIndexer) (t : ℕ) (T₀ : Table ω) (R : Reduce)
    (w : Workload) (target : ℕ) : Prop where
  /-- Calls of `allocate` return or throw. -/
  replay : ∀ n, ∃ T failed, Replay L X t T₀ ((w.hashes idHash).take n) T failed
  /-- After every prefix the counters are those of the table. -/
  freeSlots : ∀ n T failed, Replay L X t T₀ ((w.hashes idHash).take n) T failed →
    let s := (Placement.initial R (UInt32.ofNat L.entriesPerBinCount)).place R
      (UInt32.ofNat L.entriesPerBinCount) target ((w.hashes hCurrent).take n)
    s.failed = failed ∧ ∀ b < X.buckets, (s.freeSlots.getD b 0).toNat = (T.bucket b).freeSlotCount
  /-- The next item fails when `allocate` throws. -/
  failed_iff : ∀ n h, (w.hashes idHash)[n]? = some h →
    ∀ T, Replay L X t T₀ ((w.hashes idHash).take n) T false → ∀ special < 2 ^ L.S, ∀ r T',
    Runs (dtHandler L t) (DerefTable.allocate L ω X h special) T r T' →
      (((Placement.initial R (UInt32.ofNat L.entriesPerBinCount)).place R
        (UInt32.ofNat L.entriesPerBinCount) target ((w.hashes hCurrent).take (n + 1))).failed =
        true ↔ ∃ e, r = .error e)
  /-- `simulate` reports whether `allocate` has thrown. -/
  reports : ∀ T failed, Replay L X t T₀ (w.hashes idHash) T failed →
    (simulate w hCurrent R (UInt32.ofNat L.entriesPerBinCount) target).failed = failed

/-- Reducers with as many buckets as a table replay it for every workload, if no item comes to a
table in which `allocate` stops at an assertion, and only then. -/
theorem simulate_replays {L : Layout} [Storage L ω] (hE : L.entriesPerBinCount ≤ 65535)
    {m m' : Mode} {n : UInt32} {desired : UInt64} {X : BucketIndexer} {R : Reduce}
    (hX : X.buckets = m.buckets n ∧ X.index = m.index n)
    (hR : m'.reduce desired = some R) (hbuckets : R.buckets.toNat = X.buckets)
    {storage : ℕ → ℕ → ω} {T₀ : Table ω}
    (h₀ : DerefTable.construct L X storage = some T₀) (w : Workload) (t target : ℕ) :
    Replays L X t T₀ R w target ↔ ∀ k h, (w.hashes idHash)[k]? = some h →
      ∀ T, Replay L X t T₀ ((w.hashes idHash).take k) T false → T.Passes L X (T.chosen X h) := by
  obtain ⟨hT₀, -⟩ := DerefTable.construct_eq_some h₀
  have hs₀ : (Placement.initial R (UInt32.ofNat L.entriesPerBinCount)).Agrees X T₀ :=
    .initial hbuckets hE fun b hb => (DerefTable.construct_fresh h₀ b hb).count
  have hindex : ∀ hash, (R.index hash).toNat = X.index hash := fun hash => by
    rw [Mode.reduce_index hR, Mode.index_of_indexer hX.1 hX.2, hbuckets]
  constructor
  · intro hreplays k h hk T hreplay
    obtain ⟨T', failed, hnext⟩ := hreplays.replay (k + 1)
    rw [List.take_add_one, hk, Option.toList_some] at hnext
    rcases hnext.of_append hT₀ with ⟨hU, -⟩ | ⟨U, -, -, hU, hpasses, -⟩
    · cases (hU.unique hreplay hT₀).2
    · rwa [← (hU.unique hreplay hT₀).1]
  intro hpasses
  refine ⟨exists_replay hT₀ hpasses, fun k T failed hreplay =>
    ?_, fun k h hk T hreplay special hspecial r T' hr => ?_,
    fun T failed hreplay => ?_⟩
  · obtain ⟨hfailed, hagrees, -⟩ := hreplay.agrees hs₀ rfl hT₀ hindex
    exact ⟨hfailed, hagrees.freeCount⟩
  · obtain ⟨hno, hagrees, hT⟩ := hreplay.agrees hs₀ rfl hT₀ hindex
    change ((Placement.initial R _).place R _ target ((w.hashes idHash).take (k + 1))).failed =
      true ↔ _
    rw [List.take_add_one, hk, Option.toList_some, Placement.place_append rfl, hno,
      if_neg Bool.false_ne_true]
    exact (hagrees.runs hT hindex hno hspecial hr).1
  · exact (hreplay.agrees hs₀ rfl hT₀ hindex).1

/-- Two buckets of seven entries, and two children of a node. -/
theorem simulate_replays_two : ∃ (X : BucketIndexer) (R : Reduce) (T₀ : Table Small.object.Bytes),
    DerefTable.construct Small.layout X (fun _ _ => Small.zeros) = some T₀ ∧ R.buckets = 2 ∧
      Replays Small.layout X 0 T₀ R ⟨[7], [⟨0, 1⟩, ⟨0, 2⟩], by decide⟩ 1 := by
  have hceil : bitCeil 2 = 2 := congrArg (2 ^ ·) (Nat.clog_eq_one le_rfl le_rfl)
  have hrounded : Mode.mask.rounded 2 = 2 := hceil
  have hbuckets : 2 = Mode.mask.buckets 2 := by
    rw [Mode.buckets_eq, hrounded]
    decide
  have hexact : Mode.mask.Exact Small.layout 2 := by
    apply Mode.exact_of_rounded
    rw [hrounded]
    decide
  have hreduce : Mode.mask.reduce 2 = some ⟨2, fun h => (h &&& 1).toUInt32⟩ := by
    simp only [Mode.reduce, maskReduce, UInt64.reduceToNat, hceil]
    rfl
  let X : BucketIndexer := Mode.toBucketIndexer hexact
  have hX : X.buckets = Mode.mask.buckets 2 ∧ X.index = Mode.mask.index 2 := ⟨rfl, rfl⟩
  obtain ⟨T₀, h₀⟩ : ∃ T₀, DerefTable.construct Small.layout X
      (fun _ _ => Small.zeros) = some T₀ := by
    rw [← Option.ne_none_iff_exists', Ne, DerefTable.construct_eq_none]
    decide
  obtain ⟨hT₀, -⟩ := DerefTable.construct_eq_some h₀
  have hbounded : TinyPtr.Bounded Small.layout := (TinyPtr.bounded_iff _).mpr (.inl (by decide))
  have hentries : X.buckets * Small.layout.entriesPerBinCount < 2 ^ 32 := by
    rw [hX.1, ← hbuckets]
    decide
  refine ⟨X, ⟨2, fun h => (h &&& 1).toUInt32⟩, T₀, h₀, rfl,
    (simulate_replays (by decide) hX hreduce (hbuckets.trans hX.1.symm) h₀ _ 0 1).mpr
    fun k h _ T hreplay => ?_⟩
  exact (hreplay.wf hT₀).passes hbounded hentries _

/-! ### More than 2^32 entries -/

namespace Overfull

theorem index_bit : 0 + 1 < 8 := by decide

/-- `TinyPtr<uint8_t, 0>`: 127 entries to a bucket. -/
def layout : Layout := .byte 0 index_bit

theorem sizeof_ge : layout.bucketIndexWidth ≤ 8 * 1 := by decide

/-- Objects of one byte. -/
def object : ObjectType layout := ⟨1, sizeof_ge⟩

/-- Storage that nobody has written. -/
def zeros : object.Bytes := fun _ => 0

theorem buckets_lt : 2 ^ 26 < 2 ^ 32 := by norm_num

theorem rounded : Mode.mask.rounded 67108864 = 2 ^ 26 := by
  change 2 ^ Nat.clog 2 (2 ^ 26) = 2 ^ 26
  rw [Nat.clog_pow 2 26 Nat.one_lt_two]

theorem index_lt (hash : UInt64) : Mode.mask.index 67108864 hash < 2 ^ 26 := by
  rw [Mode.index_eq, rounded]
  exact Nat.mod_lt _ (Nat.two_pow_pos 26)

/-- 2^26 buckets. -/
def indexer : BucketIndexer := ⟨2 ^ 26, Mode.mask.index 67108864, buckets_lt, index_lt⟩

theorem exists_construct :
    ∃ T₀, DerefTable.construct layout indexer (fun _ _ => zeros) = some T₀ := by
  rw [← Option.ne_none_iff_exists', Ne, DerefTable.construct_eq_none]
  decide

/-- There is a parent whose child has a bucket for both of its hash values. -/
theorem exists_id (b : ℕ) :
    ∃ id, b < 2 ^ 26 → indexer.index (idHash id 0).1 = b ∧ indexer.index (idHash id 0).2 = b := by
  by_cases hb : b < 2 ^ 26
  swap
  · exact ⟨0, fun h => absurd h hb⟩
  have hpos : 0 < Nat.card {id : UInt64 // indexer.index (idHash id 0).1 = b ∧
    indexer.index (idHash id 0).2 = b} :=
    (Nat.two_pow_pos _).trans_eq (card_ids rounded hb hb).symm
  obtain ⟨⟨id, hid⟩⟩ := (Nat.card_pos_iff.mp hpos).1
  exact ⟨id, fun _ => hid⟩

/-- A child of such a parent for each of these buckets. -/
def workload (idOf : ℕ → UInt64) (buckets : List ℕ) (hb : ∀ b ∈ buckets, b < 2 ^ 26) :
    Workload where
  ids := (List.range (2 ^ 26)).map idOf
  items := buckets.map fun b => ⟨UInt32.ofNat b, 0⟩
  parent_lt := by
    intro item hitem
    obtain ⟨b, hmem, rfl⟩ := List.mem_map.mp hitem
    have hlt := hb b hmem
    rw [List.length_map, List.length_range]
    exact (Nat.mod_le b (2 ^ 32)).trans_lt hlt

theorem hashes_workload {idOf : ℕ → UInt64} {buckets : List ℕ} {hb : ∀ b ∈ buckets, b < 2 ^ 26} :
    (workload idOf buckets hb).hashes idHash = buckets.map fun b => idHash (idOf b) 0 := by
  apply List.ext_getElem
  · simp [Workload.hashes, workload]
  · intro i h₁ h₂
    have hi : i < buckets.length := by simpa using h₂
    have hlt : buckets[i] < 2 ^ 32 := (hb _ (List.getElem_mem hi)).trans (by norm_num)
    have hmod : buckets[i] % 4294967296 = buckets[i] := Nat.mod_eq_of_lt hlt
    simp [Workload.hashes, workload, hmod]

/-- Any number of objects up to the number of entries. -/
theorem exists_filled {idOf : ℕ → UInt64} {T₀ : Table object.Bytes} (hT₀ : T₀.Wf layout indexer)
    (hheld : T₀.held = [])
    (hid : ∀ b < 2 ^ 26, indexer.index (idHash (idOf b) 0).1 = b ∧
      indexer.index (idHash (idOf b) 0).2 = b)
    {n : ℕ} (hn : n ≤ 2 ^ 26 * 127) :
    ∃ (buckets : List ℕ) (T : Table object.Bytes), (∀ b ∈ buckets, b < 2 ^ 26) ∧
      Replay layout indexer 0 T₀ (buckets.map fun b => idHash (idOf b) 0) T false ∧
      T.held.length = n := by
  induction n with
  | zero => exact ⟨[], T₀, by simp, .start, by rw [hheld, List.length_nil]⟩
  | succ n ih =>
    obtain ⟨buckets, T, hbuckets, hreplay, hlen⟩ := ih (by omega)
    have hT := hreplay.wf hT₀
    obtain ⟨b, hb, hfree⟩ := hT.exists_free (by rw [hlen]; exact hn)
    have hchosen : T.chosen indexer (idHash (idOf b) 0) = b := by
      rw [Table.chosen, (hid b hb).1, (hid b hb).2, ite_self]
    have hfree' : (T.bucket (T.chosen indexer (idHash (idOf b) 0))).freeSlotCount ≠
      0 := by rwa [hchosen]
    obtain ⟨⟨p, s⟩, T', ha⟩ : ∃ r T', T.allocate layout indexer 0 (idHash (idOf b) 0)
      0 = (.ok r, T') :=
      Table.exists_allocate_ok hfree'
    have hpasses : T.Passes layout indexer (T.chosen indexer (idHash (idOf b) 0)) := by
      rw [Table.Passes, hchosen, if_neg hfree]
      exact (TinyPtr.bounded_iff layout).mpr (.inl (by decide))
    have hr := (hT.runs_allocate (by decide)).mpr ⟨hpasses, ha⟩
    refine ⟨buckets ++ [b], T', ?_, ?_, ?_⟩
    · intro c hc
      rcases List.mem_append.mp hc with hc | hc
      · exact hbuckets c hc
      · exact List.mem_singleton.mp hc ▸ hb
    · rw [List.map_append, List.map_singleton]
      exact .allocate (by decide) hreplay hr
    · rw [(hT.allocated (by decide) ha).held, List.length_cons, hlen]

end Overfull

open Overfull in
/-- A table of 2^26 buckets with 127 entries each is filled, and the assertion in `size()` fails
where the simulator reports that the next item cannot be placed. -/
theorem not_simulate_replays :
    ¬ ∀ (L : Layout) (τ : ObjectType L) (m m' : Mode) (n : UInt32) (desired : UInt64)
      (X : BucketIndexer) (R : Reduce) (storage : ℕ → ℕ → τ.Bytes) (T₀ : Table τ.Bytes)
      (w : Workload) (t target : ℕ),
      L.entriesPerBinCount ≤ 65535 → X.buckets = m.buckets n ∧ X.index = m.index n →
      m'.reduce desired = some R → R.buckets.toNat = X.buckets →
      DerefTable.construct L X storage = some T₀ → Replays L X t T₀ R w target := by
  intro hreplays
  obtain ⟨T₀, h₀⟩ := exists_construct
  obtain ⟨hT₀, hheld⟩ := DerefTable.construct_eq_some h₀
  choose idOf hid using exists_id
  obtain ⟨buckets, T, hbuckets, hreplay, hlen⟩ := exists_filled hT₀ hheld hid le_rfl
  have hT := hreplay.wf hT₀
  have hbuckets' : ∀ b ∈ buckets ++ [0], b < 2 ^ 26 := by
    intro b hb
    rcases List.mem_append.mp hb with hb | hb
    · exact hbuckets b hb
    · rw [List.mem_singleton.mp hb]
      norm_num
  have hsize : indexer.buckets = Mode.mask.buckets 67108864 := by
    rw [Mode.buckets_eq, rounded]
    rfl
  have hreduce : Mode.mask.reduce 67108864 = some ⟨67108864, fun h =>
    (h &&& 67108863).toUInt32⟩ := by
    have hceil : bitCeil 67108864 = 67108864 := rounded
    simp only [Mode.reduce, maskReduce, UInt64.reduceToNat, hceil]
    rfl
  have hall := (hreplays layout object .mask .mask 67108864 67108864 indexer _ _ T₀
    (workload idOf (buckets ++ [0]) hbuckets') 0 0 (by decide) ⟨hsize, rfl⟩ hreduce rfl h₀).replay
    (buckets ++ [0]).length
  rw [hashes_workload, List.take_of_length_le (by rw [List.length_map]), List.map_append,
    List.map_singleton] at hall
  obtain ⟨T', failed, hnext⟩ := hall
  rcases hnext.of_append hT₀ with ⟨hU, -⟩ | ⟨U, -, -, hU, hpasses, -⟩
  · cases (hU.unique hreplay hT₀).2
  obtain ⟨rfl, -⟩ := hU.unique hreplay hT₀
  -- nothing is free any more, so that the sum of the counters is asserted
  have hfull : (U.bucket (U.chosen indexer (idHash (idOf 0) 0))).freeSlotCount = 0 := by
    by_contra hfree
    obtain ⟨⟨p, s⟩, V, ha⟩ : ∃ r V, U.allocate layout indexer 0 (idHash (idOf 0) 0)
      0 = (.ok r, V) :=
      Table.exists_allocate_ok hfree
    have hle := (hT.of_allocate ha).length_held_le
    rw [(hT.allocated (by decide) ha).held, List.length_cons, hlen] at hle
    exact absurd hle (by decide)
  rw [Table.Passes, if_pos hfull, hT.size_isSome_iff, hlen] at hpasses
  exact absurd (hpasses.trans_lt (Nat.mod_lt _ (by norm_num))) (by norm_num)

end TinyPointerTrees
