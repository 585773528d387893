import TinyPointerTrees.TinyPtr.Concurrent

/-!
# Counting under concurrency

Any number of threads call `allocate` and `free`, and a record is kept of what their
critical sections commit, and of the sums that `size()` asserts to be in range.

`Tallied` says what the counters are good for: `free_slot_count` of a bucket that
nobody has locked agrees with what was committed there, and once all calls have
returned `size()` and `max_reached_size()` agree with the record. The invariant says
of each thread how much of what it has committed it has not yet counted (`pending`):
the counters are right up to that, at every moment. None of it depends on the lock
words not going round.
-/

namespace TinyPointerTrees

open Conc Conc.Prog

variable {L : Layout} {ω : Type}

/-! ### The record -/

/-- What a critical section of a bucket has committed. -/
inductive Commit where
  /-- An allocation. -/
  | took (b : ℕ)
  /-- A `free`. -/
  | gave (b : ℕ)
  deriving DecidableEq

/-- The bucket. -/
def Commit.bucket : Commit → ℕ
  | .took b => b
  | .gave b => b

/-- It is an allocation. -/
def Commit.isTook : Commit → Bool
  | .took _ => true
  | .gave _ => false

/-! The commits of a run are a list, the last of them first. -/

/-- The allocations committed in a bucket. -/
def allocs (H : List Commit) (b : ℕ) : ℕ := H.count (.took b)

/-- The frees committed in a bucket. -/
def frees (H : List Commit) (b : ℕ) : ℕ := H.count (.gave b)

/-- The allocations committed. -/
def allocated (H : List Commit) : ℕ := H.countP Commit.isTook

/-- The frees committed. -/
def freed (H : List Commit) : ℕ := H.countP fun e => !e.isTook

/-- The objects that are allocated at the end. -/
def inUse (H : List Commit) : ℤ := allocated H - freed H

/-- The largest number of objects that were allocated at once. -/
def peak : List Commit → ℤ
  | [] => 0
  | e :: H => max (inUse (e :: H)) (peak H)

/-- What the threads share, and a record of what they have done. -/
structure Recorded (L : Layout) (ω : Type) extends Shared L ω where
  /-- What was committed. -/
  history : List Commit := []
  /-- The threads that are adding up the counters. -/
  summing : Finset ℕ := ∅
  /-- The threads that have put an entry back and not yet counted it. -/
  freeing : Finset ℕ := ∅
  /-- The sums whose range was asserted. -/
  sums : List ℤ := []

/-- `max_reached_size()`. -/
def Table.maxReachedSize (T : Table ω) : ℤ := (T.threadCounters.map fun c => c.2.maxReachedSize).sum

section Machine

variable (L) (X : BucketIndexer) [Storage L ω]

/-- The record after thread `t` executes an operation. -/
def Recorded.record (t : ℕ) {β : Type} (x : Recorded L ω) : DtOp ω β → Recorded L ω
  | .unlock b (.took _) => { x with history := .took b :: x.history }
  | .unlock b (.gave _) =>
    { x with history := .gave b :: x.history, freeing := insert t x.freeing }
  | .decrementSize => { x with freeing := x.freeing.erase t }
  | .countersEnd => { x with summing := insert t x.summing }
  | .assertSum result _ =>
    { x with summing := x.summing.erase t, sums := result :: x.sums }
  | _ => x

/-- Thread `t` executes an operation; nothing when it has to wait, or goes no further. -/
def Recorded.exec (t : ℕ) {β : Type} (x : Recorded L ω) (o : DtOp ω β) :
    Option (β × Recorded L ω) :=
  (DtOp.exec L t o x.table).map fun r => (r.1, { x.record L t o with table := r.2 })

/-- Threads that share a dereference table, with a record. -/
def countMachine : Machine (DtOp ω) (Recorded L ω) ℕ (DtCall L ω) (DtRet L) where
  sem t o x b y := x.exec L t o = some (b, y)
  code := dtCode L X
  invoke t a x y := ∃ z, dtInvoke L t a x.toShared z ∧ y = { x with toShared := z }
  finish t a r x y := ∃ z, dtFinish L t a r x.toShared z ∧ y = { x with toShared := z }

/-- The steps of these threads, computed. -/
def countExecutor : (countMachine L X (ω := ω)).Executor where
  exec t o x := x.exec L t o
  invoke t a x := ((dtExecutor L X).invoke t a x.toShared).map fun z => { x with toShared := z }
  finish t a r x := ((dtExecutor L X).finish t a r x.toShared).map fun z => { x with toShared := z }
  exec_sound h := h
  invoke_sound h := by
    obtain ⟨z, hz, rfl⟩ := Option.map_eq_some_iff.mp h
    exact ⟨z, (dtExecutor L X).invoke_sound hz, rfl⟩
  finish_sound h := by
    obtain ⟨z, hz, rfl⟩ := Option.map_eq_some_iff.mp h
    exact ⟨z, (dtExecutor L X).finish_sound hz, rfl⟩

/-- A configuration of these threads. -/
abbrev CountCfg (L : Layout) (ω : Type) :=
  Machine.Cfg (DtOp ω) (Recorded L ω) ℕ (DtCall L ω) (DtRet L)

end Machine

theorem Recorded.record_owned {β : Type} (x : Recorded L ω) (t : ℕ) (o : DtOp ω β) :
    (x.record L t o).owned = x.owned := by
  cases o
  case unlock b did => cases did <;> rfl
  all_goals rfl

/-- No counter is changed while a thread adds them up; when a thread begins to, every entry that
was put back is counted, and the objects are no more than `capacity()` says. -/
def Undisturbed (X : BucketIndexer) {β : Type} (x : Recorded L ω) : DtOp ω β → Prop
  | .incrementSize => x.summing = ∅
  | .decrementSize => x.summing = ∅
  | .countersEnd => x.freeing = ∅ ∧ inUse x.history ≤ DerefTable.capacity L X
  | _ => True

/-- `Undisturbed`, computed. -/
def checkUndisturbed (X : BucketIndexer) {β : Type} (x : Recorded L ω) : DtOp ω β → Bool
  | .incrementSize => decide (x.summing = ∅)
  | .decrementSize => decide (x.summing = ∅)
  | .countersEnd => decide (x.freeing = ∅ ∧ inUse x.history ≤ DerefTable.capacity L X)
  | _ => true

theorem undisturbed_of_check {X : BucketIndexer} {β : Type} {x : Recorded L ω} {o : DtOp ω β}
    (h : checkUndisturbed X x o = true) : Undisturbed X x o := by
  cases o
  case incrementSize | decrementSize | countersEnd =>
    simp only [checkUndisturbed, decide_eq_true_eq] at h
    exact h
  all_goals trivial

/-- What the counters are good for. -/
structure Tallied (X : BucketIndexer) (c : CountCfg L ω) : Prop where
  /-- The count of a bucket that nobody has locked agrees with what was committed there; it does
  not wrap. -/
  count : ∀ b < X.buckets, lockWord (c.st.table.bucket b).version % 2 = 0 →
    (c.st.table.bucket b).freeSlotCount + allocs c.st.history b =
      L.entriesPerBinCount + frees c.st.history b ∧
      frees c.st.history b ≤ allocs c.st.history b
  /-- Once all calls have returned, `size()` is right. -/
  size : (∀ t, c.run t = none) → ∃ n, c.st.table.size L X = some n ∧ n = inUse c.st.history
  /-- The objects are then what the clients hold. -/
  held : (∀ t, c.run t = none) → inUse c.st.history = c.st.owned.length
  /-- So is `max_reached_size()`. -/
  maxReachedSize : (∀ t, c.run t = none) → peak c.st.history ≤ c.st.table.maxReachedSize
  maxReachedSize_of_grown : (∀ t, c.run t = none) → freed c.st.history = 0 →
    ∀ n, c.st.table.size L X = some n → c.st.table.maxReachedSize = n

/-! ### The counters of a thread -/

namespace Table

/-- `thread_counters.local()` of thread `u`. -/
def counters (l : List (ℕ × SizeCounters)) (u : ℕ) : SizeCounters := (l.lookup u).getD {}

variable {l : List (ℕ × SizeCounters)} {f : SizeCounters → SizeCounters} {t u : ℕ}

theorem mem_keys_modifyLocal :
    u ∈ (modifyLocal f t l).map Prod.fst ↔ u = t ∨ u ∈ l.map Prod.fst := by
  induction l with
  | nil => simp [modifyLocal]
  | cons c l ih =>
    obtain ⟨v, c⟩ := c
    by_cases hv : v = t
    · subst hv
      simp [modifyLocal]
    · rw [modifyLocal, if_neg hv, List.map_cons, List.mem_cons, ih, List.map_cons, List.mem_cons]
      tauto

theorem nodup_modifyLocal (h : (l.map Prod.fst).Nodup) :
    ((modifyLocal f t l).map Prod.fst).Nodup := by
  induction l with
  | nil => simp [modifyLocal]
  | cons c l ih =>
    obtain ⟨v, c⟩ := c
    rw [List.map_cons, List.nodup_cons] at h
    by_cases hv : v = t
    · subst hv
      simpa [modifyLocal] using h
    · rw [modifyLocal, if_neg hv, List.map_cons, List.nodup_cons, mem_keys_modifyLocal]
      exact ⟨not_or.mpr ⟨hv, h.1⟩, ih h.2⟩

theorem counters_modifyLocal_self : counters (modifyLocal f t l) t = f (counters l t) := by
  induction l with
  | nil => simp [modifyLocal, counters]
  | cons c l ih =>
    obtain ⟨v, c⟩ := c
    by_cases hv : v = t
    · subst hv
      simp [modifyLocal, counters]
    · have hvt : (t == v) = false := by simpa using Ne.symm hv
      simp only [modifyLocal, if_neg hv, counters, List.lookup_cons, hvt] at ih ⊢
      exact ih

theorem counters_modifyLocal_ne (h : u ≠ t) : counters (modifyLocal f t l) u = counters l u := by
  induction l with
  | nil =>
    have hut : (u == t) = false := by simpa using h
    simp [modifyLocal, counters, List.lookup_cons, hut]
  | cons c l ih =>
    obtain ⟨v, c⟩ := c
    by_cases hv : v = t
    · subst hv
      have huv : (u == v) = false := by simpa using h
      simp [modifyLocal, counters, List.lookup_cons, huv]
    · simp only [modifyLocal, if_neg hv, counters, List.lookup_cons] at ih ⊢
      cases u == v with
      | true => rfl
      | false => exact ih

theorem counters_of_not_mem (h : u ∉ l.map Prod.fst) : counters l u = {} := by
  have : l.lookup u = none := by
    rw [List.lookup_eq_none_iff]
    intro c hc
    apply bne_iff_ne.mpr
    intro e
    apply h
    rw [e]
    exact List.mem_map_of_mem hc
  rw [counters, this]
  rfl

/-- A sum over the counters is a sum over the threads. -/
theorem sum_counters {g : SizeCounters → ℤ} (hg : g {} = 0) (hl : (l.map Prod.fst).Nodup)
    {S : Finset ℕ} (hS : ∀ u ∈ l.map Prod.fst, u ∈ S) :
    (l.map fun c => g c.2).sum = ∑ u ∈ S, g (counters l u) := by
  induction l generalizing S with
  | nil =>
    have hzero : ∀ u, g (counters [] u) = 0 := fun u => hg
    simp [hzero]
  | cons c l ih =>
    obtain ⟨v, c⟩ := c
    rw [List.map_cons, List.nodup_cons] at hl
    have hv : v ∈ S := hS v (by simp)
    have hrest : ∀ u ∈ S.erase v, g (counters ((v, c) :: l) u) = g (counters l u) := by
      intro u hu
      have huv : (u == v) = false := by simpa using Finset.ne_of_mem_erase hu
      simp [counters, List.lookup_cons, huv]
    have hself : counters ((v, c) :: l) v = c := by simp [counters]
    rw [List.map_cons, List.sum_cons, ← Finset.add_sum_erase S _ hv, hself,
      Finset.sum_congr rfl hrest, ih hl.2 fun u hu =>
      Finset.mem_erase.mpr ⟨?_, hS u (List.mem_cons_of_mem _ hu)⟩]
    rintro rfl
    exact hl.1 hu

end Table

/-- A sum in which one term changes. -/
theorem sum_change {S : Finset ℕ} {f f' : ℕ → ℤ} {t : ℕ} (ht : t ∈ S)
    (h : ∀ u, u ≠ t → f' u = f u) : ∑ u ∈ S, f' u = ∑ u ∈ S, f u + (f' t - f t) := by
  have hrest : ∑ u ∈ S.erase t, f' u = ∑ u ∈ S.erase t, f u :=
    Finset.sum_congr rfl fun u hu => h u (Finset.ne_of_mem_erase hu)
  rw [← Finset.add_sum_erase S f' ht, ← Finset.add_sum_erase S f ht, hrest]
  ring

/-! ### The protocol -/

/-- The ghost state. -/
structure CountGhost where
  /-- The thread in the critical section of a bucket. -/
  owner : ℕ → Option ℕ
  /-- The bucket of the entry that a thread has taken and not returned, or is about to put back. -/
  flight : ℕ → Option ℕ
  /-- What a thread has committed and not yet counted. -/
  pending : ℕ → ℤ
  /-- The threads that have made a call. -/
  threads : Finset ℕ

/-- What the counters `l` say of a record `H`, if `pending` was committed and not yet counted. -/
structure Counters (l : List (ℕ × SizeCounters)) (H : List Commit) (pending : ℕ → ℤ)
    (threads : Finset ℕ) : Prop where
  nodup : (l.map Prod.fst).Nodup
  keys : ∀ u ∈ l.map Prod.fst, u ∈ threads
  pending_mem : ∀ u ∉ threads, pending u = 0
  le : ∀ u, (Table.counters l u).size ≤ (Table.counters l u).maxReachedSize
  nonneg : ∀ u, 0 ≤ (Table.counters l u).maxReachedSize
  sum : ∑ u ∈ threads, ((Table.counters l u).size + pending u) = inUse H
  peak : peak H ≤ ∑ u ∈ threads, max (Table.counters l u).maxReachedSize
    ((Table.counters l u).size + pending u)
  grown : freed H = 0 → ∀ u, (Table.counters l u).maxReachedSize = (Table.counters l u).size ∧
    0 ≤ pending u

/-- The bucket that `free` of an allocation works on. -/
def Allocation.bucket (X : BucketIndexer) (a : Allocation L) : ℕ :=
  (DerefTable.slotOf X a.ptr a.hashes).bucket

/-- How many of the threads have an entry of bucket `b` in flight. -/
def inFlight (g : CountGhost) (b : ℕ) : ℤ := ∑ u ∈ g.threads, if g.flight u = some b then 1 else 0

variable (X : BucketIndexer) (strict : Prop)

/-- The invariant. -/
structure CountInv (x : Recorded L ω × CountGhost) : Prop where
  counters : Counters x.1.table.threadCounters x.1.history x.2.pending x.2.threads
  lock : ∀ b, (x.1.table.bucket b).version % 2 = 0 ↔ x.2.owner b = none
  count : ∀ b < X.buckets, x.2.owner b = none →
    (x.1.table.bucket b).freeSlotCount + allocs x.1.history b =
      L.entriesPerBinCount + frees x.1.history b
  room : ∀ b, allocs x.1.history b ≤ L.entriesPerBinCount + frees x.1.history b
  commits : ∀ e ∈ x.1.history, e.bucket < X.buckets
  balance : ∀ b, (allocs x.1.history b : ℤ) =
    frees x.1.history b + x.1.owned.countP (fun a => a.bucket X = b) + inFlight x.2 b
  flight : ∀ u b, x.2.flight u = some b → u ∈ x.2.threads ∧ b < X.buckets
  pending : ∀ u, x.2.pending u = 0 ∨ (x.2.pending u = 1 ∧ ∃ b, x.2.flight u = some b) ∨
    (x.2.pending u = -1 ∧ u ∈ x.1.freeing)
  sums : strict → ∀ s ∈ x.1.sums, 0 ≤ s ∧ s ≤ DerefTable.capacity L X

/-- What thread `t` relies on. -/
structure CountRely (t : ℕ) (x y : Recorded L ω × CountGhost) : Prop where
  /-- The others do not make this thread lock or unlock. -/
  owner : ∀ b, y.2.owner b = some t ↔ x.2.owner b = some t
  /-- Nothing is counted or committed in a bucket that this thread has locked. -/
  locked : ∀ b, x.2.owner b = some t →
    (y.1.table.bucket b).freeSlotCount = (x.1.table.bucket b).freeSlotCount ∧
    allocs y.1.history b = allocs x.1.history b ∧
    frees y.1.history b = frees x.1.history b
  flight : y.2.flight t = x.2.flight t
  pending : y.2.pending t = x.2.pending t
  threads : x.2.threads ⊆ y.2.threads
  summing : t ∈ y.1.summing ↔ t ∈ x.1.summing
  /-- While this thread adds up the counters, they stay as they are. -/
  still : strict → t ∈ x.1.summing → y.1.table.threadCounters = x.1.table.threadCounters

/-- The rely/guarantee account of the counters. -/
def countProtocol : Protocol (Recorded L ω) CountGhost ℕ where
  inv := CountInv X strict
  rely := CountRely strict
  idle t x := x.2.flight t = none ∧ x.2.pending t = 0 ∧ ∀ b, x.2.owner b ≠ some t
  rely_refl t x := ⟨fun _ => Iff.rfl, fun _ _ => ⟨rfl, rfl, rfl⟩, rfl, rfl, subset_rfl,
    Iff.rfl, fun _ _ => rfl⟩
  rely_trans := by
    intro t x y z h₁ h₂
    refine ⟨fun b => (h₂.owner b).trans (h₁.owner b), fun b hb => ?_, h₂.flight.trans h₁.flight,
      h₂.pending.trans h₁.pending, h₁.threads.trans h₂.threads, h₂.summing.trans h₁.summing,
      fun hs hx => ?_⟩
    · obtain ⟨hc₁, ha₁, hf₁⟩ := h₁.locked b hb
      obtain ⟨hc₂, ha₂, hf₂⟩ := h₂.locked b ((h₁.owner b).mpr hb)
      exact ⟨hc₂.trans hc₁, ha₂.trans ha₁, hf₂.trans hf₁⟩
    · exact (h₂.still hs (h₁.summing.mpr hx)).trans (h₁.still hs hx)
  idle_rely := by
    intro t x y hx h
    exact ⟨h.flight.trans hx.1, h.pending.trans hx.2.1, fun b hb => hx.2.2 b ((h.owner b).mp hb)⟩

/-! ### The record and the counters -/

/-- What the commit changes in the number of objects. -/
def Commit.change : Commit → ℤ
  | .took _ => 1
  | .gave _ => -1

@[simp] theorem allocated_took (H : List Commit) (b : ℕ) :
    allocated (.took b :: H) = allocated H + 1 :=
  List.countP_cons_of_pos rfl

@[simp] theorem allocated_gave (H : List Commit) (b : ℕ) : allocated (.gave b :: H) = allocated H :=
  List.countP_cons_of_neg (by simp [Commit.isTook])

@[simp] theorem freed_took (H : List Commit) (b : ℕ) : freed (.took b :: H) = freed H :=
  List.countP_cons_of_neg (by simp [Commit.isTook])

@[simp] theorem freed_gave (H : List Commit) (b : ℕ) : freed (.gave b :: H) = freed H + 1 :=
  List.countP_cons_of_pos rfl

theorem inUse_cons (e : Commit) (H : List Commit) : inUse (e :: H) = inUse H + e.change := by
  unfold inUse
  cases e <;> simp [Commit.change] <;> ring

@[simp] theorem allocs_took (H : List Commit) (b c : ℕ) :
    allocs (.took c :: H) b = allocs H b + if c = b then 1 else 0 := by
  simp [allocs, List.count_cons]

@[simp] theorem allocs_gave (H : List Commit) (b c : ℕ) : allocs (.gave c :: H) b = allocs H b := by
  simp [allocs]

@[simp] theorem frees_took (H : List Commit) (b c : ℕ) : frees (.took c :: H) b = frees H b := by
  simp [frees]

@[simp] theorem frees_gave (H : List Commit) (b c : ℕ) :
    frees (.gave c :: H) b = frees H b + if c = b then 1 else 0 := by
  simp [frees, List.count_cons]

/-- The objects, bucket by bucket. -/
theorem inUse_eq_sum {n : ℕ} {H : List Commit} (hH : ∀ e ∈ H, e.bucket < n) :
    inUse H = ∑ b ∈ Finset.range n, ((allocs H b : ℤ) - frees H b) := by
  induction H with
  | nil => simp [inUse, allocated, freed, allocs, frees]
  | cons e H ih =>
    have he : e.bucket ∈ Finset.range n := Finset.mem_range.mpr (hH e List.mem_cons_self)
    have hne : ∀ b, b ≠ e.bucket →
      ((allocs (e :: H) b : ℤ) - frees (e :: H) b) = allocs H b - frees H b := by
      intro b hb
      cases e <;> simp [Commit.bucket] at hb ⊢ <;> exact fun h => hb h.symm
    have hself : ((allocs (e :: H) e.bucket : ℤ) - frees (e :: H) e.bucket) - (allocs H
      e.bucket - frees H e.bucket) =
        e.change := by
      cases e <;> simp [Commit.bucket, Commit.change]
    rw [inUse_cons, ih fun e' he' => hH e' (List.mem_cons_of_mem _ he'),
      sum_change he hne, hself]

namespace Counters

variable {l : List (ℕ × SizeCounters)} {H : List Commit} {pending : ℕ → ℤ} {threads : Finset ℕ}
  {t : ℕ}

/-- A thread makes its first call. -/
theorem enter (h : Counters l H pending threads) : Counters l H pending (insert t threads) := by
  have hzero : t ∉ threads → Table.counters l t = {} ∧ pending t = 0 := fun ht =>
    ⟨Table.counters_of_not_mem fun hm => ht (h.keys t hm), h.pending_mem t ht⟩
  refine { h with
    keys := fun u hu => Finset.mem_insert_of_mem (h.keys u hu)
    pending_mem := fun u hu => h.pending_mem u fun hm => hu (Finset.mem_insert_of_mem hm)
    sum := ?_
    peak := ?_ }
  · rw [Finset.sum_insert_of_eq_zero_if_notMem fun ht => ?_, h.sum]
    obtain ⟨hc, hp⟩ := hzero ht
    rw [hc, hp]
    rfl
  · rw [Finset.sum_insert_of_eq_zero_if_notMem fun ht => ?_]
    · exact h.peak
    · obtain ⟨hc, hp⟩ := hzero ht
      rw [hc, hp]
      rfl

/-- A thread commits. -/
theorem commit (h : Counters l H pending threads) (ht : t ∈ threads) (hp : pending t = 0)
    (e : Commit) : Counters l (e :: H) (Function.update pending t e.change) threads := by
  have hne : ∀ u, u ≠ t → Function.update pending t e.change u = pending u :=
    fun u hu => Function.update_of_ne hu _ _
  have hsum : ∑ u ∈ threads, ((Table.counters l u).size + Function.update pending t e.change u) =
    inUse (e :: H) := by
    rw [sum_change (f := fun u => (Table.counters l u).size + pending u) ht, h.sum,
      Function.update_self, hp, inUse_cons]
    · ring
    · intro u hu
      simp only [hne u hu]
  refine { h with pending_mem := ?_, sum := hsum, peak := ?_, grown := ?_ }
  · intro u hu
    have hut : u ≠ t := fun hut => hu (hut ▸ ht)
    rw [hne u hut]
    exact h.pending_mem u hu
  · apply max_le
    · rw [← hsum]
      exact Finset.sum_le_sum fun u _ => le_max_right _ _
    · apply h.peak.trans
      apply Finset.sum_le_sum
      intro u _
      by_cases hu : u = t
      · subst hu
        have hle := h.le u
        rw [hp, add_zero, max_eq_left hle]
        exact le_max_left _ _
      · rw [hne u hu]
  · intro hf u
    cases e with
    | gave b => simp at hf
    | took b =>
      obtain ⟨hc, hpu⟩ := h.grown (by simpa using hf) u
      refine ⟨hc, ?_⟩
      by_cases hu : u = t
      · subst hu
        simp [Commit.change]
      · rwa [hne u hu]

/-- A thread counts what it has committed. -/
theorem counted (h : Counters l H pending threads) (ht : t ∈ threads)
    {f : SizeCounters → SizeCounters} (hsize : ∀ c, (f c).size = c.size + pending t)
    (hmax : ∀ c, c.size ≤ c.maxReachedSize → (f c).maxReachedSize = max c.maxReachedSize
      (c.size + pending t)) :
    Counters (Table.modifyLocal f t l) H (Function.update pending t 0) threads := by
  have hne : ∀ u, u ≠ t → Table.counters (Table.modifyLocal f t l) u = Table.counters l u ∧
      Function.update pending t 0 u = pending u :=
    fun u hu => ⟨Table.counters_modifyLocal_ne hu, Function.update_of_ne hu _ _⟩
  have hself : Table.counters (Table.modifyLocal f t l) t = f (Table.counters l t) :=
    Table.counters_modifyLocal_self
  have hmax' := hmax _ (h.le t)
  have hsize' := hsize (Table.counters l t)
  refine ⟨Table.nodup_modifyLocal h.nodup, ?_, ?_, ?_, ?_, ?_, ?_, ?_⟩
  · intro u hu
    rcases Table.mem_keys_modifyLocal.mp hu with rfl | hu
    · exact ht
    · exact h.keys u hu
  · intro u hu
    have hut : u ≠ t := fun hut => hu (hut ▸ ht)
    rw [(hne u hut).2]
    exact h.pending_mem u hu
  · intro u
    by_cases hu : u = t
    · subst hu
      rw [hself, hmax', hsize']
      exact le_max_right _ _
    · rw [(hne u hu).1]
      exact h.le u
  · intro u
    by_cases hu : u = t
    · subst hu
      rw [hself, hmax']
      exact (h.nonneg u).trans (le_max_left _ _)
    · rw [(hne u hu).1]
      exact h.nonneg u
  · rw [← h.sum]
    refine Finset.sum_congr rfl fun u _ => ?_
    by_cases hu : u = t
    · subst hu
      rw [hself, hsize', Function.update_self, add_zero]
    · rw [(hne u hu).1, (hne u hu).2]
  · apply h.peak.trans_eq
    refine Finset.sum_congr rfl fun u _ => ?_
    by_cases hu : u = t
    · subst hu
      rw [hself, hmax', hsize', Function.update_self, add_zero, max_eq_left (le_max_right _ _)]
    · rw [(hne u hu).1, (hne u hu).2]
  · intro hf u
    obtain ⟨hc, hp⟩ := h.grown hf u
    by_cases hu : u = t
    · subst hu
      rw [hself, hmax', hsize', Function.update_self, hc]
      exact ⟨max_eq_right (le_add_of_nonneg_right hp), le_rfl⟩
    · rw [(hne u hu).1, (hne u hu).2]
      exact ⟨hc, hp⟩

theorem increment (h : Counters l H pending threads) (ht : t ∈ threads) (hp : pending t = 1) :
    Counters (Table.modifyLocal Table.incremented t l) H (Function.update pending t 0) threads := by
  apply h.counted ht
  · intro c
    rw [hp]
    rfl
  · intro c _
    rw [hp]
    simp only [Table.incremented]
    split_ifs <;> omega

theorem decrement (h : Counters l H pending threads) (ht : t ∈ threads) (hp : pending t = -1) :
    Counters (Table.modifyLocal Table.decremented t l) H (Function.update pending t 0) threads := by
  apply h.counted ht
  · intro c
    rw [hp]
    rfl
  · intro c hc
    rw [hp]
    unfold Table.decremented
    simp only
    omega

theorem totalSize_eq (h : Counters l H pending threads) :
    (l.map fun c => c.2.size).sum = inUse H - ∑ u ∈ threads, pending u := by
  rw [Table.sum_counters (g := SizeCounters.size) rfl h.nodup h.keys, ← h.sum,
    Finset.sum_add_distrib]
  ring

end Counters

/-! ### What a step does -/

namespace CountProof

variable {X strict} {t b n : ℕ} {x y : Recorded L ω × CountGhost} {own fl : Option ℕ} {p d : ℤ}

/-- What thread `t` knows of itself: the bucket it has locked, the bucket of the entry it has in
flight, and what it has not yet counted. -/
structure Self (t : ℕ) (own fl : Option ℕ) (p : ℤ) (x : Recorded L ω × CountGhost) : Prop where
  mem : t ∈ x.2.threads
  owner : ∀ b, x.2.owner b = some t ↔ own = some b
  flight : x.2.flight t = fl
  pending : x.2.pending t = p

/-- Thread `t` has the lock of bucket `b`, whose count is `n`, which is `d` more than what was
committed. -/
structure Locked (t b : ℕ) (fl : Option ℕ) (n : ℕ) (d : ℤ) (x : Recorded L ω × CountGhost) : Prop
    extends Self t (some b) fl 0 x where
  free : (x.1.table.bucket b).freeSlotCount = n
  count : (n : ℤ) + allocs x.1.history b = L.entriesPerBinCount + frees x.1.history b + d

theorem Self.rely (h : Self t own fl p x) (hr : CountRely strict t x y) : Self t own fl p y :=
  ⟨hr.threads h.mem, fun c => (hr.owner c).trans (h.owner c), hr.flight.trans h.flight,
    hr.pending.trans h.pending⟩

theorem Locked.rely (h : Locked t b fl n d x) (hr : CountRely strict t x y) :
    Locked t b fl n d y := by
  obtain ⟨hc, ha, hf⟩ := hr.locked b ((h.owner b).mpr rfl)
  refine ⟨h.toSelf.rely hr, hc.trans h.free, ?_⟩
  rw [ha, hf]
  exact h.count

theorem Self.idle (h : Self t none none 0 x) : (countProtocol X strict).idle t x :=
  ⟨h.flight, h.pending, fun c hc => by cases (h.owner c).mp hc⟩

/-- Taking the lock of a bucket. -/
theorem lock_step (hx : CountInv X strict x) (ho : x.2.owner b = none) :
    let y := (({ x.1 with table := x.1.table.modify b DtProof.bump } : Recorded L ω),
      ({ x.2 with owner := Function.update x.2.owner b (some t) } : CountGhost))
    CountInv X strict y ∧ (countProtocol X strict).guar t x y := by
  have heven := (hx.lock b).mpr ho
  constructor
  · refine { hx with lock := fun c => ?_, count :=
      fun c hc (hoc : Function.update x.2.owner b (some t) c = none) => ?_ }
    · by_cases hcb : c = b
      · subst hcb
        simp only [Table.modify_bucket_self, Function.update_self, reduceCtorEq, iff_false]
        omega
      · simpa [hcb] using hx.lock c
    · have hcb : c ≠ b := by
        intro hcb
        rw [hcb, Function.update_self] at hoc
        cases hoc
      rw [Function.update_of_ne hcb] at hoc
      simpa only [Table.modify_bucket_ne _ hcb] using hx.count c hc hoc
  · intro u hu
    refine ⟨fun c => ?_, fun c hc => ?_, rfl, rfl, subset_rfl, Iff.rfl, fun _ _ => rfl⟩
    · by_cases hcb : c = b
      · subst hcb
        simp [ho, Ne.symm hu]
      · simp [hcb]
    · have hcb : c ≠ b := by
        intro hcb
        rw [hcb, ho] at hc
        cases hc
      simp [hcb]

/-- Working on a bucket with its lock. -/
theorem work_step {f : Bucket ω → Bucket ω} (hx : CountInv X strict x) (ho : x.2.owner b = some t)
    (hv : ∀ B, (f B).version = B.version) :
    let y := (({ x.1 with table := x.1.table.modify b f } : Recorded L ω), x.2)
    CountInv X strict y ∧ (countProtocol X strict).guar t x y := by
  have hother : ∀ c, x.2.owner c ≠ some t →
    (x.1.table.modify b f).bucket c = x.1.table.bucket c := by
    intro c hc
    apply Table.modify_bucket_ne
    intro hcb
    exact hc (hcb ▸ ho)
  constructor
  · refine { hx with lock := fun c => ?_, count := fun c hc hoc => ?_ }
    · have hver : ((x.1.table.modify b f).bucket c).version = (x.1.table.bucket c).version := by
        rw [Table.modify_bucket]
        split_ifs with hcb
        · rw [hv, hcb]
        · rfl
      simpa only [hver] using hx.lock c
    · have hne : x.2.owner c ≠ some t := by
        rw [hoc]
        simp
      simpa only [hother c hne] using hx.count c hc hoc
  · intro u hu
    refine ⟨fun _ => Iff.rfl, fun c hc => ?_, rfl, rfl, subset_rfl, Iff.rfl, fun _ _ => rfl⟩
    have hne : x.2.owner c ≠ some t := by
      rw [hc]
      simpa using hu
    simp only [hother c hne, and_self]

theorem inFlight_nonneg (g : CountGhost) (b : ℕ) : 0 ≤ inFlight g b := by
  apply Finset.sum_nonneg
  intro u _
  split_ifs <;> norm_num

/-- No more was freed in a bucket than allocated. -/
theorem frees_le (hx : CountInv X strict x)
    (b : ℕ) : frees x.1.history b ≤ allocs x.1.history b := by
  have hbal := hx.balance b
  have hfl := inFlight_nonneg x.2 b
  omega

/-- What is in flight is not freed. -/
theorem frees_lt (hx : CountInv X strict x)
    (h : x.2.flight t = some b) : frees x.1.history b < allocs x.1.history b := by
  have hbal := hx.balance b
  have hfl : 1 ≤ inFlight x.2 b := by
    have hsingle := Finset.single_le_sum
      (f := fun u => if x.2.flight u = some b then (1 : ℤ) else 0)
      (fun u _ => by split_ifs <;> norm_num) (hx.flight t b h).1
    rw [if_pos h] at hsingle
    exact hsingle
  omega

/-- The flights after that of thread `t` is another. -/
theorem inFlight_update {g : CountGhost} (ht : t ∈ g.threads) (fl : Option ℕ) (pending : ℕ → ℤ)
    (b : ℕ) :
    inFlight { g with flight := Function.update g.flight t fl, pending := pending } b =
      inFlight g b + ((if fl = some b then 1 else 0) - if g.flight t = some b then 1 else 0) := by
  simp only [inFlight]
  rw [sum_change (f := fun u => if g.flight u = some b then (1 : ℤ) else 0) ht]
  · simp only [Function.update_self]
  intro u hu
  simp only [Function.update_of_ne hu]

/-- Committing an allocation, under the lock. -/
theorem took_step (hx : CountInv X strict x) (h : Locked t b none n (-1) x) (hb : b < X.buckets) :
    CountInv X strict (({ x.1 with history := .took b :: x.1.history } : Recorded L ω),
      { x.2 with flight := Function.update x.2.flight t (some b), pending :=
      Function.update x.2.pending t 1 }) := by
  have ho := (h.owner b).mpr rfl
  refine ⟨hx.counters.commit h.mem h.pending (.took b), hx.lock, fun c hc hoc => ?_,
    fun c => ?_, fun e he => ?_, fun c => ?_, fun u c hu => ?_, fun u => ?_, hx.sums⟩
  · have hcb : b ≠ c := by
      intro hcb
      simp only [← hcb, ho] at hoc
      cases hoc
    simpa [hcb] using hx.count c hc hoc
  · by_cases hcb : b = c
    · subst hcb
      have hcount := h.count
      simp
      omega
    · simpa [hcb] using hx.room c
  · rcases List.mem_cons.mp he with rfl | he
    · exact hb
    · exact hx.commits e he
  · rw [inFlight_update h.mem, h.flight]
    have hbal := hx.balance c
    by_cases hcb : b = c
    · subst hcb
      simp
      omega
    · simpa [hcb] using hbal
  · by_cases hut : u = t
    · subst hut
      have hbc : b = c := by simpa using hu
      exact ⟨h.mem, hbc ▸ hb⟩
    · exact hx.flight u c (by simpa [hut] using hu)
  · by_cases hut : u = t
    · subst hut
      exact Or.inr (Or.inl (by simp))
    · simpa [hut] using hx.pending u

/-- Committing a `free`, under the lock. -/
theorem gave_step (hx : CountInv X strict x) (h : Locked t b (some b) n 1 x) :
    CountInv X strict (({ x.1 with
        history := .gave b :: x.1.history
        freeing := insert t x.1.freeing } : Recorded L ω),
      { x.2 with flight := Function.update x.2.flight t none, pending :=
        Function.update x.2.pending t (-1) }) := by
  have ho := (h.owner b).mpr rfl
  refine ⟨hx.counters.commit h.mem h.pending (.gave b), hx.lock, fun c hc hoc => ?_,
    fun c => ?_, fun e he => ?_, fun c => ?_, fun u c hu => ?_, fun u => ?_, hx.sums⟩
  · have hcb : b ≠ c := by
      intro hcb
      simp only [← hcb, ho] at hoc
      cases hoc
    simpa [hcb] using hx.count c hc hoc
  · have hroom := hx.room c
    simp
    omega
  · rcases List.mem_cons.mp he with rfl | he
    · exact (hx.flight t b h.flight).2
    · exact hx.commits e he
  · rw [inFlight_update h.mem, h.flight]
    have hbal := hx.balance c
    by_cases hcb : b = c
    · subst hcb
      simp
      omega
    · simpa [hcb] using hbal
  · by_cases hut : u = t
    · subst hut
      simp at hu
    · exact hx.flight u c (by simpa [hut] using hu)
  · by_cases hut : u = t
    · subst hut
      exact Or.inr (Or.inr (by simp))
    · simpa [hut] using hx.pending u

/-- Giving up the lock of a bucket whose count agrees with what was committed. -/
theorem unlock_step (held : List Slot) (hx : CountInv X strict x) (ho : x.2.owner b = some t)
    (hc : (x.1.table.bucket b).freeSlotCount + allocs x.1.history b = L.entriesPerBinCount + frees
      x.1.history b) :
    CountInv X strict (({ x.1 with table := { x.1.table.modify b DtProof.bump with held :=
      held } } : Recorded L ω), { x.2 with owner := Function.update x.2.owner b none }) := by
  have hodd : ¬ (x.1.table.bucket b).version % 2 = 0 := by
    rw [hx.lock b, ho]
    simp
  refine { hx with lock := fun c => ?_, count :=
    fun c hcX (hoc : Function.update x.2.owner b none c = none) => ?_ }
  · by_cases hcb : c = b
    · subst hcb
      simp only [Table.modify_bucket_self, Function.update_self, iff_true]
      omega
    · simpa [hcb] using hx.lock c
  · by_cases hcb : c = b
    · subst hcb
      simpa only [Table.modify_bucket_self] using hc
    · rw [Function.update_of_ne hcb] at hoc
      simpa only [Table.modify_bucket_ne _ hcb] using hx.count c hcX hoc

/-- Taking the lock of a bucket, by one of the two operations that do. -/
theorem lock_spec (hx : Self t none fl 0 x) (hy : CountRely strict t x y) (hi : CountInv X strict y)
    (hb : b < X.buckets) (hw : lockWord (y.1.table.bucket b).version % 2 = 0) :
    let z := (({ y.1 with table := y.1.table.modify b DtProof.bump } : Recorded L ω),
      ({ y.2 with owner := Function.update y.2.owner b (some t) } : CountGhost))
    CountInv X strict z ∧ (countProtocol X strict).guar t y z ∧ ∃ n, Locked t b fl n 0 z := by
  have heven : (y.1.table.bucket b).version % 2 = 0 := by
    unfold lockWord at hw
    omega
  have hno := (hi.lock b).mp heven
  have hy' := hx.rely hy
  obtain ⟨hi', hg⟩ := lock_step (t := t) hi hno
  refine ⟨hi', hg, _, ⟨⟨hy'.mem, fun c => ?_, hy'.flight, hy'.pending⟩, rfl, ?_⟩⟩
  · by_cases hcb : c = b
    · subst hcb
      simp
    · have hc : y.2.owner c ≠ some t := fun hc => by cases (hy'.owner c).mp hc
      simp [hcb, hc, Ne.symm hcb]
  · have hcount := hi.count b hb hno
    simp only [Table.modify_bucket_self]
    omega

/-- Giving up the lock. -/
theorem guar_unlock {T : Table ω} {H : List Commit} {F : Finset ℕ} {fl' : ℕ → Option ℕ} {p' : ℕ → ℤ}
    (ho : x.2.owner b = some t) (hT : ∀ c, c ≠ b → T.bucket c = x.1.table.bucket c)
    (hcounters : T.threadCounters = x.1.table.threadCounters)
    (hH : ∀ c, c ≠ b → allocs H c = allocs x.1.history c ∧ frees H c = frees x.1.history c)
    (hfl : ∀ u, u ≠ t → fl' u = x.2.flight u) (hp : ∀ u, u ≠ t → p' u = x.2.pending u) :
    (countProtocol X strict).guar t x (({ x.1 with table := T, history := H, freeing := F } :
      Recorded L ω), ⟨Function.update x.2.owner b none, fl', p', x.2.threads⟩) := by
  intro u hu
  refine ⟨fun c => ?_, fun c hc => ?_, hfl u hu, hp u hu, subset_rfl, Iff.rfl, fun _ _ => hcounters⟩
  · by_cases hcb : c = b
    · subst hcb
      simp [ho, Ne.symm hu]
    · simp [hcb]
  · have hcb : c ≠ b := by
      intro hcb
      rw [hcb, ho] at hc
      exact hu (Option.some.inj hc).symm
    simp only [hT c hcb, hH c hcb, and_self]

/-- What a thread knows of itself after the end of its critical section. -/
theorem self_unlock {T : Table ω} {H : List Commit} {F : Finset ℕ} (h : Locked t b fl n d x)
    (fl' : Option ℕ) (p' : ℤ) :
    Self t none fl' p' (({ x.1 with table := T, history := H, freeing := F } : Recorded L ω),
      ⟨Function.update x.2.owner b none, Function.update x.2.flight t fl',
      Function.update x.2.pending t p', x.2.threads⟩) := by
  refine ⟨h.mem, fun c => ?_, by simp, by simp⟩
  by_cases hcb : c = b
  · subst hcb
    simp
  · have hc : x.2.owner c ≠ some t := fun hc => hcb (Option.some.inj ((h.owner c).mp hc)).symm
    simp [hcb, hc]

/-! ### Adding up the counters -/

/-- The objects that are taken and not counted are objects. -/
theorem sum_pending_le (hx : CountInv X strict x) (hf : x.1.freeing = ∅) :
    0 ≤ ∑ u ∈ x.2.threads, x.2.pending u ∧
      ∑ u ∈ x.2.threads, x.2.pending u ≤ inUse x.1.history := by
  have hpending : ∀ u, x.2.pending u = 0 ∨ x.2.pending u = 1 ∧ ∃ b, x.2.flight u = some b := by
    intro u
    rcases hx.pending u with h | h | h
    · exact Or.inl h
    · exact Or.inr h
    · rw [hf] at h
      exact absurd h.2 (Finset.notMem_empty u)
  constructor
  · apply Finset.sum_nonneg
    intro u _
    rcases hpending u with h | ⟨h, -⟩ <;> omega
  · have hle : ∀ u ∈ x.2.threads,
        x.2.pending u ≤ ∑ b ∈ Finset.range X.buckets, if x.2.flight u = some b then
        (1 : ℤ) else 0 := by
      intro u _
      have hnonneg : ∀ b ∈ Finset.range X.buckets, (0 : ℤ) ≤ if x.2.flight u =
        some b then 1 else 0 := by
        intro b _
        split_ifs <;> norm_num
      rcases hpending u with h | ⟨h, b, hb⟩
      · rw [h]
        exact Finset.sum_nonneg hnonneg
      · have hmem : b ∈ Finset.range X.buckets := Finset.mem_range.mpr (hx.flight u b hb).2
        have hsingle := Finset.single_le_sum hnonneg hmem
        rw [if_pos hb] at hsingle
        rw [h]
        exact hsingle
    calc ∑ u ∈ x.2.threads, x.2.pending u
        ≤ ∑ u ∈ x.2.threads, ∑ b ∈ Finset.range X.buckets, if x.2.flight u = some b then
        (1 : ℤ) else 0 :=
          Finset.sum_le_sum hle
      _ = ∑ b ∈ Finset.range X.buckets, inFlight x.2 b := Finset.sum_comm
      _ ≤ ∑ b ∈ Finset.range X.buckets, ((allocs x.1.history b : ℤ) - frees x.1.history b) := by
          refine Finset.sum_le_sum fun b _ => ?_
          have hbal := hx.balance b
          omega
      _ = inUse x.1.history := (inUse_eq_sum hx.commits).symm

/-- The counters add up to a number of objects when every entry that was put back is counted. -/
theorem totalSize_range (hx : CountInv X strict x) (hf : x.1.freeing = ∅) :
    0 ≤ x.1.table.totalSize ∧ x.1.table.totalSize ≤ inUse x.1.history := by
  obtain ⟨h₀, h₁⟩ := sum_pending_le hx hf
  have htotal : x.1.table.totalSize = inUse x.1.history - ∑ u ∈ x.2.threads, x.2.pending u :=
    hx.counters.totalSize_eq
  omega

/-- Thread `t` has added up the first `i` of the `n` counters, undisturbed. -/
structure Adding (X : BucketIndexer) (t n i : ℕ) (result : ℤ) (x : Recorded L ω) : Prop where
  summing : t ∈ x.summing
  length : x.table.threadCounters.length = n
  range : 0 ≤ x.table.totalSize ∧ x.table.totalSize ≤ DerefTable.capacity L X
  le : i ≤ n
  result : result = ((x.table.threadCounters.take i).map fun c => c.2.size).sum

theorem Adding.rely {n i : ℕ} {result : ℤ} (h : Adding X t n i result x.1) (hs : strict)
    (hr : CountRely strict t x y) : Adding X t n i result y.1 := by
  have hsame := hr.still hs h.summing
  obtain ⟨hsum, hlen, hrange, hle, hres⟩ := h
  unfold Table.totalSize at hrange
  rw [← hsame] at hlen hrange hres
  exact ⟨hr.summing.mpr hsum, hlen, hrange, hle, hres⟩

theorem Adding.next {n i : ℕ} {result : ℤ} {x : Recorded L ω} (h : Adding X t n i result x)
    (hi : i < n) :
    Adding X t n (i + 1)
      (result + ((x.table.threadCounters[i]?.map fun c => c.2.size).getD 0)) x := by
  refine { h with le := hi, result := ?_ }
  have hlt : i < x.table.threadCounters.length := h.length ▸ hi
  rw [List.take_add_one, List.map_append, List.sum_append, ← h.result, List.getElem?_eq_getElem hlt]
  simp

theorem Adding.total {n i : ℕ} {result : ℤ} {x : Recorded L ω} (h : Adding X t n i result x)
    (hi : ¬ i < n) : result = x.table.totalSize := by
  have hlen : x.table.threadCounters.length ≤ i := by
    rw [h.length]
    omega
  rw [h.result, List.take_of_length_le hlen]
  rfl

/-! ### The programs -/

variable [Storage L ω]

variable (L X strict) in
/-- The machine; a thread is not disturbed when it adds up the counters if `strict`. -/
abbrev counting (ω : Type) [Storage L ω] :
    Machine (DtOp ω) (Recorded L ω) ℕ (DtCall L ω) (DtRet L) :=
  (countMachine L X).restrict fun _ o x => strict → Undisturbed X x o

variable {α β : Type} {Q : α → Recorded L ω × CountGhost → Prop}

/-- One operation, with what is known of the state it meets. -/
theorem wp_call {o : DtOp ω β} {k : β → Prog (DtOp ω) α}
    (h : ∀ y, CountRely strict t x y → CountInv X strict y → (strict → Undisturbed X y.1 o) →
      ∀ c s', Recorded.exec L t y.1 o = some (c, s') → ∃ g', CountInv X strict (s', g') ∧
        (countProtocol X strict).guar t y (s', g') ∧
          (countProtocol X strict).wp (counting L X strict ω) t (k c) Q (s', g')) :
    (countProtocol X strict).wp (counting L X strict ω) t (.call o k) Q x :=
  Protocol.wp_call fun y hy hi c s' hs => h y hy hi hs.1 c s' hs.2

/-- An operation that leaves the table as it is. -/
theorem wp_read {o : DtOp ω β} {k : β → Prog (DtOp ω) α}
    (hread : ∀ (z z' : Recorded L ω) c, Recorded.exec L t z o = some (c, z') → z' = z ∧
      DtOp.exec L t o z.table = some (c, z.table))
    (h : ∀ y, CountRely strict t x y → CountInv X strict y →
      ∀ c, DtOp.exec L t o y.1.table = some (c, y.1.table) →
      (countProtocol X strict).wp (counting L X strict ω) t (k c) Q y) :
    (countProtocol X strict).wp (counting L X strict ω) t (.call o k) Q x := by
  refine wp_call fun y hy hi _ c s' hs => ?_
  obtain ⟨rfl, hc⟩ := hread _ _ _ hs
  exact ⟨y.2, hi, (countProtocol X strict).guar_refl t y, h y hy hi c hc⟩

/-- An operation on the bucket whose lock the thread has. -/
theorem wp_work {o : DtOp ω Unit} {k : Unit → Prog (DtOp ω) α} {f : Bucket ω → Bucket ω} (n' : ℕ)
    (d' : ℤ) (ho : ∀ T, DtOp.exec L t o T = some ((), T.modify b f))
    (hr : ∀ z : Recorded L ω, z.record L t o = z) (hv : ∀ B, (f B).version = B.version)
    (hx : Locked t b fl n d x) (hf : ∀ B, B.freeSlotCount = n → (f B).freeSlotCount = n')
    (hd : (n' : ℤ) + d = n + d')
    (h : ∀ y, CountInv X strict y → Locked t b fl n' d' y →
      (countProtocol X strict).wp (counting L X strict ω) t (k ()) Q y) :
    (countProtocol X strict).wp (counting L X strict ω) t (.call o k) Q x := by
  refine wp_call fun y hy hi _ c s' hs => ?_
  rw [Recorded.exec, ho, hr] at hs
  simp only [Option.map_some, Option.some.injEq, Prod.mk.injEq, true_and] at hs
  subst hs
  have hy' := hx.rely hy
  obtain ⟨hi', hg⟩ := work_step hi ((hy'.owner b).mpr rfl) hv
  refine ⟨y.2, hi', hg, h _ hi' ⟨⟨hy'.mem, hy'.owner, hy'.flight, hy'.pending⟩, ?_, ?_⟩⟩
  · rw [Table.modify_bucket_self, hf _ hy'.free]
  · have hcount := hy'.count
    simp only
    omega

theorem wp_unlock_none {k : Unit → Prog (DtOp ω) α} (hx : Locked t b none n 0 x)
    (h : ∀ y, CountInv X strict y → Self t none none 0 y →
      (countProtocol X strict).wp (counting L X strict ω) t (k ()) Q y) :
    (countProtocol X strict).wp (counting L X strict ω) t (.call (.unlock b .none) k) Q x := by
  refine wp_call fun y hy hi _ c s' hs => ?_
  simp only [Recorded.exec,
    DtOp.exec, Option.map_some, Option.some.injEq, Prod.mk.injEq, true_and] at hs
  subst hs
  have hy' := hx.rely hy
  have ho := (hy'.owner b).mpr rfl
  have hcount := hy'.count
  have hfree := hy'.free
  have hi' := unlock_step (Table.recordHeld b y.1.table.held .none) hi ho (by omega)
  have hself := self_unlock (T := { y.1.table.modify b
    DtProof.bump with held := Table.recordHeld b y.1.table.held .none })
    (H := y.1.history) (F := y.1.freeing) hy' none 0
  rw [← hy'.flight, ← hy'.pending, Function.update_eq_self, Function.update_eq_self, hy'.flight,
    hy'.pending] at hself
  refine ⟨_, hi', ?_, h _ hi' hself⟩
  exact guar_unlock ho (fun c hc => Table.modify_bucket_ne y.1.table hc DtProof.bump) rfl
    (fun _ _ => ⟨rfl, rfl⟩) (fun _ _ => rfl) fun _ _ => rfl

theorem wp_unlock_took {i : ℕ} {k : Unit → Prog (DtOp ω) α}
    (hb : b < X.buckets) (hx : Locked t b none n (-1) x)
    (h : ∀ y, CountInv X strict y → Self t none (some b) 1 y →
      (countProtocol X strict).wp (counting L X strict ω) t (k ()) Q y) :
    (countProtocol X strict).wp (counting L X strict ω) t (.call (.unlock b (.took i)) k) Q x := by
  refine wp_call fun y hy hi _ c s' hs => ?_
  simp only [Recorded.exec, DtOp.exec, Option.map_some, Option.some.injEq,
    Prod.mk.injEq, true_and] at hs
  subst hs
  have hy' := hx.rely hy
  have ho := (hy'.owner b).mpr rfl
  have hcount := hy'.count
  have hfree := hy'.free
  have hi' := unlock_step (Table.recordHeld b y.1.table.held (.took i)) (took_step hi hy'
    hb) ho (by simp; omega)
  refine ⟨_, hi', ?_, h _ hi' (self_unlock hy' (some b) 1)⟩
  refine guar_unlock ho (fun c hc => Table.modify_bucket_ne y.1.table hc DtProof.bump) rfl
    (fun c hc => ?_) (fun u hu => Function.update_of_ne hu _ _) fun u hu =>
    Function.update_of_ne hu _ _
  simp [Recorded.record, Ne.symm hc]

theorem wp_unlock_gave {i : ℕ} {k : Unit → Prog (DtOp ω) α} (hx : Locked t b (some b) n 1 x)
    (h : ∀ y, CountInv X strict y → Self t none none (-1) y →
      (countProtocol X strict).wp (counting L X strict ω) t (k ()) Q y) :
    (countProtocol X strict).wp (counting L X strict ω) t (.call (.unlock b (.gave i)) k) Q x := by
  refine wp_call fun y hy hi _ c s' hs => ?_
  simp only [Recorded.exec, DtOp.exec, Option.map_some,
    Option.some.injEq, Prod.mk.injEq, true_and] at hs
  subst hs
  have hy' := hx.rely hy
  have ho := (hy'.owner b).mpr rfl
  have hcount := hy'.count
  have hfree := hy'.free
  have hi' := unlock_step (Table.recordHeld b y.1.table.held (.gave i))
    (gave_step hi hy') ho (by simp; omega)
  refine ⟨_, hi', ?_, h _ hi' (self_unlock hy' none (-1))⟩
  refine guar_unlock ho (fun c hc => Table.modify_bucket_ne y.1.table hc DtProof.bump) rfl
    (fun c hc => ?_) (fun u hu => Function.update_of_ne hu _ _) fun u hu =>
    Function.update_of_ne hu _ _
  simp [Recorded.record, Ne.symm hc]

theorem wp_tryUpgrade {l : OptimisticLock} {k : Bool → Prog (DtOp ω) α} (hb : l.bucket < X.buckets)
    (heven : lockWord l.seen % 2 = 0) (hx : Self t none none 0 x)
    (hyes : ∀ n y, CountInv X strict y → Locked t l.bucket none n 0 y →
      (countProtocol X strict).wp (counting L X strict ω) t (k true) Q y)
    (hno : ∀ y, CountInv X strict y → Self t none none 0 y →
      (countProtocol X strict).wp (counting L X strict ω) t (k false) Q y) :
    (countProtocol X strict).wp (counting L X strict ω) t
      (.call (.tryUpgradeToExclusive l) k) Q x := by
  refine wp_call fun y hy hi _ c s' hs => ?_
  simp only [Recorded.exec, DtOp.exec] at hs
  split_ifs at hs with hw
  · simp only [Option.map_some, Option.some.injEq, Prod.mk.injEq] at hs
    obtain ⟨rfl, rfl⟩ := hs
    obtain ⟨hi', hg, n, hl⟩ := lock_spec hx hy hi hb (by rw [hw]; exact heven)
    exact ⟨_, hi', hg, hyes n _ hi' hl⟩
  · simp only [Option.map_some, Option.some.injEq, Prod.mk.injEq] at hs
    obtain ⟨rfl, rfl⟩ := hs
    exact ⟨y.2, hi, (countProtocol X strict).guar_refl t y, hno y hi (hx.rely hy)⟩

theorem wp_lockExclusive {k : Unit → Prog (DtOp ω) α} (hb : b < X.buckets) (hx : Self t none fl 0 x)
    (h : ∀ n y, CountInv X strict y → Locked t b fl n 0 y →
      (countProtocol X strict).wp (counting L X strict ω) t (k ()) Q y) :
    (countProtocol X strict).wp (counting L X strict ω) t (.call (.lockExclusive b) k) Q x := by
  refine wp_call fun y hy hi _ c s' hs => ?_
  simp only [Recorded.exec, DtOp.exec] at hs
  split_ifs at hs with hw
  · cases hs
  · simp only [Option.map_some, Option.some.injEq, Prod.mk.injEq, true_and] at hs
    subst hs
    obtain ⟨hi', hg, n, hl⟩ := lock_spec hx hy hi hb (by omega)
    exact ⟨_, hi', hg, h n _ hi' hl⟩

/-- Counting what was committed. -/
theorem wp_count {o : DtOp ω Unit} {k : Unit → Prog (DtOp ω) α}
    {f : SizeCounters → SizeCounters} {F : Finset ℕ → Finset ℕ}
    (ho : ∀ z : Recorded L ω, Recorded.exec L t z o = some ((), { z with
      table := { z.table with threadCounters := Table.modifyLocal f t z.table.threadCounters }
      freeing := F z.freeing }))
    (hF : ∀ G u, u ≠ t → (u ∈ F G ↔ u ∈ G))
    (hund : ∀ z : Recorded L ω, Undisturbed X z o → z.summing = ∅)
    (hf : ∀ {l H pending threads}, Counters l H pending threads → t ∈ threads → pending t = p →
      Counters (Table.modifyLocal f t l) H (Function.update pending t 0) threads)
    (hx : Self t none fl p x)
    (h : ∀ y, CountInv X strict y → Self t none fl 0 y →
      (countProtocol X strict).wp (counting L X strict ω) t (k ()) Q y) :
    (countProtocol X strict).wp (counting L X strict ω) t (.call o k) Q x := by
  refine wp_call fun y hy hi hun c s' hs => ?_
  rw [ho] at hs
  simp only [Option.some.injEq, Prod.mk.injEq, true_and] at hs
  subst hs
  have hy' := hx.rely hy
  have hi' : CountInv X strict (({ y.1 with
      table := { y.1.table with threadCounters := Table.modifyLocal f t y.1.table.threadCounters }
      freeing := F y.1.freeing } : Recorded L ω),
        { y.2 with pending := Function.update y.2.pending t 0 }) := by
    refine { hi with counters := hf hi.counters hy'.mem hy'.pending, pending := fun u => ?_ }
    by_cases hu : u = t
    · subst hu
      exact Or.inl (by simp)
    · simpa [hu, hF] using hi.pending u
  refine ⟨_, hi', fun u hu => ?_, h _ hi' ⟨hy'.mem, hy'.owner, hy'.flight, by simp⟩⟩
  refine ⟨fun _ => Iff.rfl, fun _ _ => ⟨rfl, rfl, rfl⟩, rfl, Function.update_of_ne hu _ _,
    subset_rfl, Iff.rfl, fun hs hu' => ?_⟩
  rw [hund _ (hun hs)] at hu'
  exact absurd hu' (Finset.notMem_empty u)

theorem wp_incrementSize {k : Unit → Prog (DtOp ω) α} (hx : Self t none fl 1 x)
    (h : ∀ y, CountInv X strict y → Self t none fl 0 y →
      (countProtocol X strict).wp (counting L X strict ω) t (k ()) Q y) :
    (countProtocol X strict).wp (counting L X strict ω) t (.call .incrementSize k) Q x :=
  wp_count (F := id) (fun _ => rfl) (fun _ _ _ => Iff.rfl) (fun _ hun => hun)
    (fun h => h.increment) hx h

theorem wp_decrementSize {k : Unit → Prog (DtOp ω) α} (hx : Self t none fl (-1) x)
    (h : ∀ y, CountInv X strict y → Self t none fl 0 y →
      (countProtocol X strict).wp (counting L X strict ω) t (k ()) Q y) :
    (countProtocol X strict).wp (counting L X strict ω) t (.call .decrementSize k) Q x :=
  wp_count (F := fun G => G.erase t) (fun _ => rfl) (fun _ _ hu => by simp [hu])
    (fun _ hun => hun) (fun h => h.decrement) hx h

theorem wp_size {k : ℕ → Prog (DtOp ω) α} (hx : Locked t b fl n d x)
    (h : ∀ s y, CountInv X strict y → Locked t b fl n d y →
      (countProtocol X strict).wp (counting L X strict ω) t (k s) Q y) :
    (countProtocol X strict).wp (counting L X strict ω) t
      (Prog.bind (DerefTable.size L ω X) k) Q x := by
  unfold DerefTable.size
  simp only [bind_eq, op_bind, call_bind, iter_bind, loop_bind, pure_eq, Prog.bind_assoc, ret_bind]
  refine wp_call fun y hy hi hun len s' hs => ?_
  simp only [Recorded.exec, DtOp.exec, Recorded.record, Option.map_some, Option.some.injEq,
    Prod.mk.injEq] at hs
  obtain ⟨rfl, rfl⟩ := hs
  have hy' := hx.rely hy
  refine ⟨y.2, { hi with }, fun u hu => ?_, ?_⟩
  · exact ⟨fun _ => Iff.rfl, fun _ _ => ⟨rfl, rfl, rfl⟩, rfl, rfl,
      subset_rfl, by simp [hu], fun _ _ => rfl⟩
  have hbegin : strict → Adding X t y.1.table.threadCounters.length 0 0
      ({ y.1 with summing := insert t y.1.summing } : Recorded L ω) := by
    intro hs
    obtain ⟨hfree, hcap⟩ := hun hs
    have hrange := totalSize_range hi hfree
    exact ⟨Finset.mem_insert_self .., rfl, ⟨hrange.1, hrange.2.trans hcap⟩, Nat.zero_le _, rfl⟩
  refine Protocol.wp_loop (fun p z => Locked t b fl n d z ∧
    (strict → Adding X t y.1.table.threadCounters.length p.1 p.2 z.1))
    { hi with } ⟨⟨⟨hy'.mem, hy'.owner, hy'.flight, hy'.pending⟩, hy'.free, hy'.count⟩, hbegin⟩
    fun p z hz hp => ?_
  unfold DerefTable.sizeRound
  split_ifs with hlt
  · simp only [bind_eq, op_bind, pure_eq]
    refine wp_call fun v hv hiv _ c s' hs => ?_
    simp only [Recorded.exec, DtOp.exec, Recorded.record, Option.map_some,
      Option.some.injEq, Prod.mk.injEq] at hs
    obtain ⟨rfl, rfl⟩ := hs
    refine ⟨v.2, hiv, (countProtocol X strict).guar_refl t v, Protocol.wp_ret fun w hw _ => ?_⟩
    exact ⟨(hp.1.rely hv).rely hw, fun hs => (((hp.2 hs).rely hs hv).next hlt).rely hs hw⟩
  · simp only [pure_eq]
    refine Protocol.wp_ret fun v hv hiv => ?_
    refine wp_call fun w hw hiw _ c s' hs => ?_
    simp only [Recorded.exec, DtOp.exec, Recorded.record, Option.map_some, Option.some.injEq,
      Prod.mk.injEq] at hs
    obtain ⟨rfl, rfl⟩ := hs
    have hl := (hp.1.rely hv).rely hw
    have hi' :
      CountInv X strict (({ w.1 with summing := w.1.summing.erase t, sums := p.2 :: w.1.sums } :
        Recorded L ω), w.2) := by
      refine { hiw with sums := fun hs s hmem => ?_ }
      rcases List.mem_cons.mp hmem with rfl | hmem
      · have hadd := ((hp.2 hs).rely hs hv).rely hs hw
        rw [hadd.total hlt]
        exact hadd.range
      · exact hiw.sums hs s hmem
    refine ⟨w.2, hi', fun u hu => ?_, wp_assert fun _ =>
      h _ _ hi' ⟨⟨hl.mem, hl.owner, hl.flight, hl.pending⟩, hl.free, hl.count⟩⟩
    exact ⟨fun _ => Iff.rfl, fun _ _ => ⟨rfl, rfl, rfl⟩, rfl, rfl,
      subset_rfl, by simp [hu], fun _ _ => rfl⟩

/-! ### `allocate` and `free` -/

/-- What `allocate` establishes before it returns. -/
def AllocPost (X : BucketIndexer) (t : ℕ) (h : TinyPtrHashes) :
    Except OverflowError (TinyPtr L × Slot) → Recorded L ω × CountGhost → Prop
  | .ok (p, _), y => Self t none (some (DerefTable.slotOf X p h).bucket) 0 y
  | .error _, y => Self t none none 0 y

omit [Storage L ω] in
theorem AllocPost.rely {h : TinyPtrHashes} {r : Except OverflowError (TinyPtr L × Slot)}
    (hx : AllocPost X t h r x) (hr : CountRely strict t x y) : AllocPost X t h r y := by
  cases r with
  | error e => exact Self.rely hx hr
  | ok r => exact Self.rely hx hr

variable {h : TinyPtrHashes} {special obj next : ℕ} {bit : Bool}

theorem wp_takeHead (hb : b = X.index (if bit then h.2 else h.1)) (hs : special < 2 ^ L.S)
    (hi : CountInv X strict x) (hx : Locked t b none n 0 x) :
    (countProtocol X strict).wp (counting L X strict ω) t (DerefTable.takeHead L ω X b bit special
      obj next) (AllocPost X t h) x := by
  have hbX : b < X.buckets := hb ▸ X.index_lt _
  have hle : n ≤ L.entriesPerBinCount := by
    have hcount := hx.count
    have hfrees := frees_le hi b
    omega
  have hlt := L.entriesPerBinCount_lt_width
  unfold DerefTable.takeHead
  simp only [bind_eq, op_bind, pure_eq]
  refine wp_read (fun z z' c => by simp [Recorded.exec, DtOp.exec, Recorded.record]; tauto)
    fun y hy hi count hcount => ?_
  have hy' := hx.rely hy
  simp only [DtOp.exec, Option.some.injEq, Prod.mk.injEq, and_true, hy'.free] at hcount
  subst hcount
  split_ifs with h0
  · refine wp_size hy' fun s z hi hz => ?_
    refine wp_unlock_none hz fun z hi hz => ?_
    exact Protocol.wp_ret fun w hw _ => AllocPost.rely (r := .error _) hz hw
  · refine wp_assert fun hobj => ?_
    refine wp_work (n - 1) (-1) (fun _ => rfl) (fun _ => rfl) (fun _ => rfl) hy' (fun B hB => ?_)
      (by omega) fun z hi hz => ?_
    · simp only [hB]
      rw [show n + (2 ^ L.bucketIndexWidth - 1) = n - 1 + 2 ^ L.bucketIndexWidth by omega,
        Nat.add_mod_right]
      exact Nat.mod_eq_of_lt (by omega)
    refine wp_work _ _ (fun _ => rfl) (fun _ => rfl) (fun _ => rfl) hz
      (fun B hB => hB) rfl fun z hi hz => ?_
    refine wp_unlock_took hbX hz fun z hi hz => ?_
    refine wp_incrementSize hz fun z hi hz => ?_
    refine wp_value fun p hp => ?_
    obtain rfl := TinyPtr.eq_of_construct (of_decide_eq_true hobj) hs hp
    refine Protocol.wp_ret fun w hw _ => AllocPost.rely (r := .ok _) ?_ hw
    show Self t none (some (X.index (if (TinyPtr.ofFields obj special bit : TinyPtr L).hashFn then
      h.2 else h.1))) 0 z
    rw [TinyPtr.hashFn_ofFields, ← hb]
    exact hz

/-- What a round establishes: it goes back to `retry`, or it has what `allocate` answers. -/
abbrev RoundPost (X : BucketIndexer) (t : ℕ) (h : TinyPtrHashes)
    (r : Unit ⊕ Except OverflowError (TinyPtr L × Slot)) (y : Recorded L ω × CountGhost) : Prop :=
  Sum.elim (fun _ => Self t none none 0 y) (fun r => AllocPost X t h r y) r

theorem wp_attempt {l l' : OptimisticLock} (hb : l.bucket = X.index (if bit then h.2 else h.1))
    (heven : lockWord l.seen % 2 = 0) (hs : special < 2 ^ L.S) (hx : Self t none none 0 x) :
    (countProtocol X strict).wp (counting L X strict ω) t
      (DerefTable.attempt L ω X l.bucket bit special l l') (RoundPost X t h) x := by
  have hbX : l.bucket < X.buckets := hb ▸ X.index_lt _
  unfold DerefTable.attempt
  simp only [bind_eq, op_bind, pure_eq]
  refine wp_read (fun z z' c => by simp [Recorded.exec, DtOp.exec, Recorded.record]; tauto)
    fun y hy hi obj _ => ?_
  refine wp_read (fun z z' c => by simp [Recorded.exec, DtOp.exec, Recorded.record]; tauto)
    fun z hz hi next _ => ?_
  refine wp_read (fun z z' c => by simp [Recorded.exec, DtOp.exec, Recorded.record]; tauto)
    fun v hv hi valid _ => ?_
  have hxv := ((hx.rely hy).rely hz).rely hv
  cases valid with
  | false => exact Protocol.wp_ret fun w hw _ => hxv.rely hw
  | true =>
    simp only [Bool.not_true, Bool.false_eq_true, if_false]
    refine wp_tryUpgrade hbX heven hxv (fun n w hi hw => ?_) fun w hi hw => ?_
    · refine Protocol.wp_bind hi (Protocol.wp_mono (wp_takeHead hb hs hi hw) fun r v hv hr => ?_)
      exact Protocol.wp_ret fun w hw _ => hr.rely hw
    · exact Protocol.wp_ret fun v hv _ => hw.rely hv

theorem wp_lockOptimistically {k : OptimisticLock → Prog (DtOp ω) α}
    (h : ∀ y, CountRely strict t x y → CountInv X strict y → ∀ l : OptimisticLock, l.bucket = b →
      lockWord l.seen % 2 = 0 → (countProtocol X strict).wp (counting L X strict ω) t (k l) Q y) :
    (countProtocol X strict).wp (counting L X strict ω) t
      (.call (.lockOptimistically b) k) Q x := by
  refine wp_read (fun z z' c => ?_) fun y hy hi l hl => ?_
  · simp only [Recorded.exec, DtOp.exec, Recorded.record]
    split_ifs
    · simp
    · simp
      tauto
  · simp only [DtOp.exec] at hl
    split_ifs at hl with hodd
    simp only [Option.some.injEq, Prod.mk.injEq, and_true] at hl
    subst hl
    refine h y hy hi _ rfl ?_
    simp only
    omega

theorem wp_round (hs : special < 2 ^ L.S) (hx : Self t none none 0 x) :
    (countProtocol X strict).wp (counting L X strict ω) t (DerefTable.round L ω X h special)
      (RoundPost X t h) x := by
  unfold DerefTable.round
  simp only [bind_eq, op_bind]
  refine wp_lockOptimistically fun y hy hi l₁ hb₁ he₁ => ?_
  refine wp_lockOptimistically fun z hz hi l₂ hb₂ he₂ => ?_
  refine wp_read (fun z z' c => by simp [Recorded.exec, DtOp.exec, Recorded.record]; tauto)
    fun v hv hi c₁ _ => ?_
  refine wp_read (fun z z' c => by simp [Recorded.exec, DtOp.exec, Recorded.record]; tauto)
    fun w hw hi c₂ _ => ?_
  have hxw := (((hx.rely hy).rely hz).rely hv).rely hw
  split_ifs
  · rw [← hb₁]
    exact wp_attempt hb₁ he₁ hs hxw
  · rw [← hb₂]
    exact wp_attempt hb₂ he₂ hs hxw

theorem wp_allocate (hs : special < 2 ^ L.S) (hi : CountInv X strict x)
    (hx : Self t none none 0 x) :
    (countProtocol X strict).wp (counting L X strict ω) t (DerefTable.allocate L ω X h special)
      (AllocPost X t h) x := by
  unfold DerefTable.allocate iter
  refine Protocol.wp_loop (fun _ y => Self t none none 0 y) hi hx fun _ y hi hy => ?_
  refine Protocol.wp_mono (wp_round hs hy) fun r z hz hr => ?_
  cases r with
  | inl u => exact hr
  | inr r => exact Protocol.wp_ret fun w hw _ => AllocPost.rely hr hw

theorem wp_free {p : TinyPtr L} (hx : Self t none (some (DerefTable.slotOf X p h).bucket) 0 x) :
    (countProtocol X strict).wp (counting L X strict ω) t (DerefTable.free L ω X p h)
      (fun _ y => Self t none none 0 y) x := by
  unfold DerefTable.free
  simp only [bind_eq, op, call_bind, ret_bind]
  refine wp_lockExclusive (X.index_lt _) hx fun n y hi hy => ?_
  have hlt : n < L.entriesPerBinCount := by
    have hcount := hy.count
    have hfrees := frees_lt hi hy.flight
    simp only [DerefTable.slotOf] at hfrees
    omega
  have hwidth := L.entriesPerBinCount_lt_width
  refine wp_read (fun z z' c => by simp [Recorded.exec, DtOp.exec, Recorded.record]; tauto)
    fun z hz hi head _ => ?_
  refine wp_work _ _ (fun _ => rfl) (fun _ => rfl) (fun _ => rfl) (hy.rely hz)
    (fun B hB => hB) rfl fun z hi hz => ?_
  refine wp_work _ _ (fun _ => rfl) (fun _ => rfl) (fun _ => rfl) hz
    (fun B hB => hB) rfl fun z hi hz => ?_
  refine wp_work (n + 1) 1 (fun _ => rfl) (fun _ => rfl) (fun _ => rfl) hz (fun B hB => ?_)
    (by omega) fun z hi hz => ?_
  · simp only [hB]
    exact Nat.mod_eq_of_lt (by omega)
  refine wp_unlock_gave hz fun z hi hz => ?_
  refine wp_decrementSize hz fun z hi hz => ?_
  exact Protocol.wp_ret fun w hw _ => hz.rely hw

/-! ### The calls -/

omit [Storage L ω] in
/-- A thread that makes a call is one of those that have made one. -/
theorem enter (hx : CountInv X strict x) (hidle : (countProtocol X strict).idle t x) :
    let y := (x.1, ({ x.2 with threads := insert t x.2.threads } : CountGhost))
    CountInv X strict y ∧ (countProtocol X strict).guar t x y ∧ Self t none none 0 y := by
  obtain ⟨hfl, hp, ho⟩ := hidle
  refine ⟨{ hx with counters := hx.counters.enter, balance := fun b => ?_, flight :=
    fun u b hu => ?_ },
    fun u hu => ?_, Finset.mem_insert_self .., fun b => ?_, hfl, hp⟩
  · have hsame : inFlight { x.2 with threads := insert t x.2.threads } b = inFlight x.2 b :=
      Finset.sum_insert_of_eq_zero_if_notMem fun _ => by simp [hfl]
    rw [hsame]
    exact hx.balance b
  · obtain ⟨hmem, hb⟩ := hx.flight u b hu
    exact ⟨Finset.mem_insert_of_mem hmem, hb⟩
  · exact ⟨fun _ => Iff.rfl, fun _ _ => ⟨rfl, rfl, rfl⟩, rfl, rfl, Finset.subset_insert ..,
      Iff.rfl, fun _ _ => rfl⟩
  · simpa using ho b

omit [Storage L ω] in
/-- The client gives up an allocation, or gets one. -/
theorem hand_over (owned : List (Allocation L)) (fl' : Option ℕ) (hx : CountInv X strict x)
    (h : Self t none fl 0 x) (hfl : ∀ b, fl' = some b → b < X.buckets)
    (hbal : ∀ b, (owned.countP (fun a => a.bucket X = b) : ℤ) + (if fl' = some b then 1 else 0) =
      x.1.owned.countP (fun a => a.bucket X = b) + if fl = some b then 1 else 0) :
    let y := (({ x.1 with owned := owned } : Recorded L ω),
      ({ x.2 with flight := Function.update x.2.flight t fl' } : CountGhost))
    CountInv X strict y ∧ (countProtocol X strict).guar t x y ∧ Self t none fl' 0 y := by
  refine ⟨{ hx with balance := fun b => ?_, flight := fun u b hu => ?_, pending := fun u => ?_ },
    fun u hu => ?_, h.mem, h.owner, by simp, h.pending⟩
  · have hupd : inFlight { x.2 with flight := Function.update x.2.flight t fl' } b = _ :=
      inFlight_update h.mem fl' x.2.pending b
    rw [hupd, h.flight]
    have hb := hx.balance b
    have hb' := hbal b
    simp only
    omega
  · by_cases hut : u = t
    · subst hut
      exact ⟨h.mem, hfl b (by simpa using hu)⟩
    · exact hx.flight u b (by simpa [hut] using hu)
  · by_cases hut : u = t
    · subst hut
      exact Or.inl h.pending
    · simpa [hut] using hx.pending u
  · exact ⟨fun _ => Iff.rfl, fun _ _ => ⟨rfl, rfl, rfl⟩, Function.update_of_ne hu _ _, rfl,
      subset_rfl, Iff.rfl, fun _ _ => rfl⟩

omit [Storage L ω] in
/-- A client writes into an object: no lock and no count changes. -/
theorem write_step (hx : CountInv X strict x) (s : Slot) (o : ω) :
    let y := (({ x.1 with table := x.1.table.write s o } : Recorded L ω), x.2)
    CountInv X strict y ∧ (countProtocol X strict).guar t x y := by
  have hsame : ∀ c, ((x.1.table.write s o).bucket c).version = (x.1.table.bucket c).version ∧
      ((x.1.table.write s o).bucket c).freeSlotCount = (x.1.table.bucket c).freeSlotCount := by
    intro c
    rw [Table.write, Table.modify_bucket]
    split_ifs with hc
    · rw [hc]
      exact ⟨rfl, rfl⟩
    · exact ⟨rfl, rfl⟩
  refine ⟨{ hx with lock := fun c => ?_, count := fun c hc ho => ?_ }, fun u hu => ?_⟩
  · simpa only [hsame] using hx.lock c
  · simpa only [hsame] using hx.count c hc ho
  · exact ⟨fun _ => Iff.rfl, fun c _ => ⟨(hsame c).2, rfl, rfl⟩, rfl, rfl, subset_rfl,
      Iff.rfl, fun _ _ => rfl⟩

theorem call_allocate (hs : special < 2 ^ L.S) (hi : CountInv X strict x)
    (hx : Self t none none 0 x) :
    (countProtocol X strict).wp (counting L X strict ω) t ((counting L X strict ω).code
      (.allocate h special)) (Protocol.post (counting L X strict ω) (countProtocol X strict) t
      (.allocate h special)) x := by
  show (countProtocol X strict).wp _ t (Prog.bind _ _) _ x
  refine Protocol.wp_bind hi (Protocol.wp_mono (wp_allocate hs hi hx) fun r y hy hr => ?_)
  refine Protocol.wp_ret fun z hz hiz s' hfin => ?_
  have hr' := hr.rely hz
  obtain ⟨w, hw, rfl⟩ := hfin
  cases r with
  | error e =>
    have hw' : w = z.1.toShared := hw
    subst hw'
    exact ⟨z.2, hiz, (countProtocol X strict).guar_refl t z, Self.idle hr'⟩
  | ok r =>
    have hself : Self t none (some (Allocation.bucket X ⟨r.1, h, r.2⟩)) 0 z := hr'
    have hw' : w = { z.1.toShared with owned := ⟨r.1, h, r.2⟩ :: z.1.owned } := hw
    subst hw'
    obtain ⟨hi', hg, hs⟩ := hand_over (⟨r.1, h, r.2⟩ :: z.1.owned) none hiz hself
      (by simp) fun b => by
      rw [List.countP_cons]
      simp
    exact ⟨_, hi', hg, hs.idle⟩

theorem call_free {a : Allocation L} (hi : CountInv X strict x)
    (hx : Self t none (some (a.bucket X)) 0 x) :
    (countProtocol X strict).wp (counting L X strict ω) t ((counting L X strict ω).code (.free a))
      (Protocol.post (counting L X strict ω) (countProtocol X strict) t (.free a)) x := by
  show (countProtocol X strict).wp _ t (Prog.bind _ _) _ x
  refine Protocol.wp_bind hi (Protocol.wp_mono (wp_free hx) fun r y hy hr => ?_)
  refine Protocol.wp_ret fun z hz hiz s' hfin => ?_
  obtain ⟨w, hw, rfl⟩ := hfin
  have hw' : w = z.1.toShared := hw
  subst hw'
  exact ⟨z.2, hiz, (countProtocol X strict).guar_refl t z, Self.idle (hr.rely hz)⟩

/-- Every call that a thread may make is verified. -/
theorem calls (t : ℕ) (a : DtCall L ω) (x : Recorded L ω × CountGhost) (s' : Recorded L ω)
    (hx : CountInv X strict x) (hidle : (countProtocol X strict).idle t x)
    (ha : (counting L X strict ω).invoke t a x.1 s') :
    ∃ g', CountInv X strict (s', g') ∧ (countProtocol X strict).guar t x (s', g') ∧
      (countProtocol X strict).wp (counting L X strict ω) t ((counting L X strict ω).code a)
        (Protocol.post (counting L X strict ω) (countProtocol X strict) t a) (s', g') := by
  obtain ⟨hi, hg, hself⟩ := enter hx hidle
  obtain ⟨w, ha, rfl⟩ := ha
  cases a with
  | allocate h special =>
    obtain ⟨hs, rfl⟩ : special < 2 ^ L.S ∧ w = x.1.toShared := ha
    exact ⟨_, hi, hg, call_allocate hs hi hself⟩
  | free a =>
    obtain ⟨ha, rfl⟩ : a ∈ x.1.owned ∧ w = { x.1.toShared with owned := x.1.owned.erase a } := ha
    have hmem : a.bucket X < X.buckets := X.index_lt _
    obtain ⟨hi', hg', hself'⟩ := hand_over (x.1.owned.erase a) (some (a.bucket X)) hi hself
      (fun b hb => Option.some.inj hb ▸ hmem) fun b => by
        rw [(List.perm_cons_erase ha).countP_eq, List.countP_cons]
        simp
    exact ⟨_, hi', fun u hu => (countProtocol X strict).rely_trans (hg u hu) (hg' u hu),
      call_free hi' hself'⟩
  | write a o =>
    obtain ⟨-, rfl⟩ : a ∈ x.1.owned ∧
      w = { x.1.toShared with table := x.1.table.write a.slot o } := ha
    obtain ⟨hi', hg'⟩ := write_step (t := t) hx a.slot o
    have hidle' : (countProtocol X strict).idle t
      (({ x.1 with table := x.1.table.write a.slot o } : Recorded L ω), x.2) := hidle
    refine ⟨x.2, hi', hg', Protocol.wp_ret fun z hz hiz s' hfin => ?_⟩
    obtain ⟨w, hw, rfl⟩ := hfin
    have hw' : w = z.1.toShared := hw
    subst hw'
    exact ⟨z.2, hiz, (countProtocol X strict).guar_refl t z,
      (countProtocol X strict).idle_rely hidle' hz⟩

end CountProof

variable {X strict}

theorem CountInv.inUse_nonneg {x : Recorded L ω × CountGhost} (hx : CountInv X strict x) :
    0 ≤ inUse x.1.history := by
  rw [inUse_eq_sum hx.commits]
  refine Finset.sum_nonneg fun b _ => ?_
  have hle := CountProof.frees_le hx b
  omega

/-- When nothing is pending, the counters are exact. -/
theorem CountInv.settled {x : Recorded L ω × CountGhost} (hx : CountInv X strict x)
    (hp : ∀ u, x.2.pending u = 0) :
    x.1.table.totalSize = inUse x.1.history ∧ peak x.1.history ≤ x.1.table.maxReachedSize ∧
      (freed x.1.history = 0 → x.1.table.maxReachedSize = x.1.table.totalSize) := by
  have hsize : x.1.table.totalSize = ∑ u ∈ x.2.threads,
    (Table.counters x.1.table.threadCounters u).size :=
    Table.sum_counters rfl hx.counters.nodup hx.counters.keys
  have hmax : x.1.table.maxReachedSize = ∑ u ∈ x.2.threads,
    (Table.counters x.1.table.threadCounters u).maxReachedSize :=
    Table.sum_counters rfl hx.counters.nodup hx.counters.keys
  refine ⟨?_, ?_, fun hf => ?_⟩
  · rw [hsize, ← hx.counters.sum]
    exact Finset.sum_congr rfl fun u _ => by rw [hp u, add_zero]
  · rw [hmax]
    apply hx.counters.peak.trans_eq
    refine Finset.sum_congr rfl fun u _ => ?_
    rw [hp u, add_zero, max_eq_left (hx.counters.le u)]
  · rw [hsize, hmax]
    exact Finset.sum_congr rfl fun u _ => (hx.counters.grown hf u).1

/-- Each allocation is in one bucket. -/
theorem sum_countP (owned : List (Allocation L)) :
    ∑ b ∈ Finset.range X.buckets, (owned.countP (fun a => a.bucket X = b) : ℤ) = owned.length := by
  induction owned with
  | nil => simp
  | cons a owned ih =>
    have ha : a.bucket X < X.buckets := X.index_lt _
    simp only [List.countP_cons, decide_eq_true_eq, Nat.cast_add, Nat.cast_ite,
      Nat.cast_one, Nat.cast_zero, Finset.sum_add_distrib, ih, Finset.sum_ite_eq, Finset.mem_range,
      ha, if_true, List.length_cons]

/-- When nothing is in flight, the objects are what the clients hold. -/
theorem CountInv.inUse_eq_length {x : Recorded L ω × CountGhost} (hx : CountInv X strict x)
    (hfl : ∀ u, x.2.flight u = none) : inUse x.1.history = x.1.owned.length := by
  rw [inUse_eq_sum hx.commits, ← sum_countP (X := X)]
  refine Finset.sum_congr rfl fun b _ => ?_
  have hbal := hx.balance b
  have hzero : inFlight x.2 b = 0 := Finset.sum_eq_zero fun u _ => by simp [hfl u]
  omega

/-- There are no more objects than entries. -/
theorem CountInv.inUse_le {x : Recorded L ω × CountGhost} (hx : CountInv X strict x) :
    inUse x.1.history ≤ (X.buckets * L.entriesPerBinCount : ℕ) := by
  have hle : ∀ b ∈ Finset.range X.buckets, ((allocs x.1.history b : ℤ) - frees x.1.history b) ≤
    L.entriesPerBinCount := by
    intro b _
    have hroom := hx.room b
    omega
  rw [inUse_eq_sum hx.commits]
  apply (Finset.sum_le_sum hle).trans_eq
  simp

variable [Storage L ω]

/-- The ghost state in the beginning. -/
def CountGhost.start : CountGhost := ⟨fun _ => none, fun _ => none, fun _ => 0, ∅⟩

theorem countInv_start {storage : ℕ → ℕ → ω} {T₀ : Table ω}
    (h₀ : DerefTable.construct L X storage = some T₀) :
    CountInv X strict (({ table := T₀, owned := [] } : Recorded L ω), CountGhost.start) := by
  have hcounters : T₀.threadCounters = [] := by
    obtain ⟨f, -, rfl⟩ := Option.map_eq_some_iff.mp h₀
    rfl
  have hzero : ∀ u, Table.counters T₀.threadCounters u = {} := by
    intro u
    rw [hcounters]
    rfl
  refine ⟨⟨?_, ?_, fun _ _ => rfl, ?_, ?_, rfl, le_rfl, ?_⟩, fun b => ?_, fun b hb _ => ?_, ?_,
    ?_, ?_, ?_, ?_, ?_⟩
  · simp [hcounters]
  · simp [hcounters]
  · simp [hzero]
  · simp [hzero]
  · simp [hzero, CountGhost.start]
  · simpa [CountGhost.start] using (DerefTable.construct_eq_some h₀).1.quiet b
  · simpa [allocs, frees] using (DerefTable.construct_fresh h₀ b hb).count
  · simp [allocs, frees]
  · simp
  · simp [allocs, frees, inFlight, CountGhost.start]
  · simp [CountGhost.start]
  · simp [CountGhost.start]
  · simp

/-- The invariant holds in every configuration of every run. -/
theorem exists_countInv (strict : Prop) {storage : ℕ → ℕ → ω} {T₀ : Table ω}
    (h₀ : DerefTable.construct L X storage = some T₀) {c : CountCfg L ω}
    (hc : ((countMachine L X).restrict fun _ o x => strict → Undisturbed X x o).Steps
      (Machine.idleCfg { table := T₀, owned := [] }) c) :
    ∃ g, CountInv X strict (c.st, g) ∧ ∀ t, c.run t = none →
      (countProtocol X strict).idle t (c.st, g) :=
  Protocol.sound (P := countProtocol X strict) (countInv_start h₀) (fun _ =>
    ⟨rfl, rfl, by simp [CountGhost.start]⟩)
    CountProof.calls hc

end TinyPointerTrees
