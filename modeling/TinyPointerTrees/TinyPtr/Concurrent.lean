import TinyPointerTrees.Library.Schedule
import TinyPointerTrees.TinyPtr.FreeList

/-!
# Concurrent allocation

Any number of threads call `allocate` and `free`, and their operations
interleave. `allocate` reads the head of a free list and its link without the
lock, and commits them if the lock word is what it was before the reads. The
word has eight bits, so it is also what it was after 128 critical sections.

`NoWrap` rules that out: an upgrade does not succeed on a word that has gone
round. `concurrent_safe` is what then holds in every configuration of every run:
no entry is held twice, and the free list of a bucket that nobody has locked
lists the entries that are not held. Without the condition an entry can be held
twice (`concurrent_unsafe`).

The proof is by rely/guarantee. The ghost state says which thread is in the
critical section of a bucket, and which entry a thread has taken and not yet
returned, or is about to put back. A thread relies on this: while the version of
a bucket stays what it was, and nobody else has locked it, its free list stays
what it was (`BucketRely`).
-/

namespace TinyPointerTrees

open Conc Conc.Prog FreeList

variable {L : Layout} {ω : Type}

/-- What the threads share: the table, and the allocations their clients hold. -/
structure Shared (L : Layout) (ω : Type) where
  /-- The table. -/
  table : Table ω
  /-- What was returned and not yet freed. -/
  owned : List (Allocation L)

/-- The addresses of what the clients hold. -/
def Shared.slots (x : Shared L ω) : List Slot := x.owned.map Allocation.slot

/-- What a thread may call. -/
inductive DtCall (L : Layout) (ω : Type) where
  /-- `allocate(h, special)`. -/
  | allocate (h : TinyPtrHashes) (special : ℕ)
  /-- `free`, of an allocation. -/
  | free (a : Allocation L)
  /-- A client writes into an object it holds. -/
  | write (a : Allocation L) (o : ω)

/-- What a call answers. -/
inductive DtRet (L : Layout) where
  /-- From `allocate`. -/
  | allocated (r : Except OverflowError (TinyPtr L × Slot))
  /-- From a call that answers nothing. -/
  | done

section Machine

variable (L) (X : BucketIndexer) [Storage L ω]

/-- The program of a call. -/
def dtCode : DtCall L ω → Prog (DtOp ω) (DtRet L)
  | .allocate h special => do
    let r ← DerefTable.allocate L ω X h special
    return .allocated r
  | .free a => do
    DerefTable.free L ω X a.ptr a.hashes
    return .done
  | .write _ _ => return .done

/-- A call of `free` takes the allocation from its client, so each is freed at most once; a
client writes only into what it holds. -/
def dtInvoke (_ : ℕ) : DtCall L ω → Shared L ω → Shared L ω → Prop
  | .allocate _ special, x, y => special < 2 ^ L.S ∧ y = x
  | .free a, x, y => a ∈ x.owned ∧ y = { x with owned := x.owned.erase a }
  | .write a o, x, y => a ∈ x.owned ∧ y = { x with table := x.table.write a.slot o }

/-- What `allocate` returns belongs to its client. -/
def dtFinish (_ : ℕ) : DtCall L ω → DtRet L → Shared L ω → Shared L ω → Prop
  | .allocate h _, .allocated (.ok (p, s)), x, y => y = { x with owned := ⟨p, h, s⟩ :: x.owned }
  | _, _, x, y => y = x

/-- Threads that share a dereference table. -/
def dtMachine : Machine (DtOp ω) (Shared L ω) ℕ (DtCall L ω) (DtRet L) where
  sem t o x b y := DtOp.exec L t o x.table = some (b, y.table) ∧ y.owned = x.owned
  code := dtCode L X
  invoke := dtInvoke L
  finish := dtFinish L

/-- The steps of these threads, computed. -/
def dtExecutor : (dtMachine L X (ω := ω)).Executor where
  exec t o x := (DtOp.exec L t o x.table).map fun r => (r.1, { x with table := r.2 })
  invoke
    | _, .allocate _ special, x => if special < 2 ^ L.S then some x else none
    | _, .free a, x => if a ∈ x.owned then some { x with owned := x.owned.erase a } else none
    | _, .write a o, x =>
        if a ∈ x.owned then some { x with table := x.table.write a.slot o } else none
  finish
    | _, .allocate h _, .allocated (.ok (p, s)), x => some { x with owned := ⟨p, h, s⟩ :: x.owned }
    | _, _, _, x => some x
  exec_sound h := by
    obtain ⟨r, hr, hx⟩ := Option.map_eq_some_iff.mp h
    cases hx
    exact ⟨hr, rfl⟩
  invoke_sound {t a s s'} h := by
    cases a <;> dsimp only at h <;> split_ifs at h with hc <;> exact ⟨hc, (Option.some.inj h).symm⟩
  finish_sound {t a r s s'} h := by
    rcases a with _ | _ | _ <;> rcases r with (_ | _) | _ <;> exact (Option.some.inj h).symm

end Machine

/-- An upgrade succeeds only if the word was never locked since it was read, and not when it
was locked 128 times, or another multiple of it. -/
def NoWrap {β : Type} (_ : ℕ) : DtOp ω β → Shared L ω → Prop
  | .tryUpgradeToExclusive l, x =>
    lockWord (x.table.bucket l.bucket).version = l.lockedVersion →
      (x.table.bucket l.bucket).version = l.seen
  | _, _ => True

/-- `NoWrap`, computed. -/
def checkNoWrap {β : Type} (_ : ℕ) : DtOp ω β → Shared L ω → Bool
  | .tryUpgradeToExclusive l, x =>
    decide (lockWord (x.table.bucket l.bucket).version = l.lockedVersion →
      (x.table.bucket l.bucket).version = l.seen)
  | _, _ => true

theorem noWrap_of_check {β : Type} {t : ℕ} {o : DtOp ω β} {x : Shared L ω}
    (h : checkNoWrap t o x = true) : NoWrap t o x := by
  cases o
  case tryUpgradeToExclusive l =>
    simp only [checkNoWrap, decide_eq_true_eq] at h
    exact h
  all_goals trivial

/-- What the clients rely on, in every configuration. -/
structure Shared.Safe (L : Layout) [Storage L ω] (X : BucketIndexer) (x : Shared L ω) : Prop where
  /-- No entry is held twice, counting allocations that have not yet returned and ones that are
  being freed. -/
  held_nodup : x.table.held.Nodup
  /-- No entry was returned by two allocations that are not freed. -/
  slots_nodup : x.slots.Nodup
  /-- What the clients have is held. -/
  slots_held : ∀ s ∈ x.slots, s ∈ x.table.held
  /-- The free list of a bucket that nobody has locked visits no entry twice. -/
  nodup : ∀ b < X.buckets, lockWord (x.table.bucket b).version % 2 = 0 →
    (visits ((x.table.bucket b).links L) (x.table.bucket b).freeSlotIndex
    (x.table.bucket b).freeSlotCount).Nodup
  /-- It visits exactly the entries that are not held. -/
  mem_iff : ∀ b < X.buckets, lockWord (x.table.bucket b).version % 2 = 0 → ∀ i,
    i ∈ visits ((x.table.bucket b).links L) (x.table.bucket b).freeSlotIndex
    (x.table.bucket b).freeSlotCount ↔
      i < L.entriesPerBinCount ∧ (⟨b, i⟩ : Slot) ∉ x.table.held

/-! ### Where a call goes no further -/

section Stop

variable {σ γ Tid Call Ret α β : Type} {M : Machine (DtOp ω) σ Tid Call Ret} {P : Protocol σ γ Tid}
  {t : Tid} {Q : α → σ × γ → Prop} {x : σ × γ}

theorem wp_value {v : Option β} {k : β → Prog (DtOp ω) α}
    (h : ∀ a, v = some a → P.wp M t (k a) Q x) :
    P.wp M t (Prog.bind (DerefTable.value ω v) k) Q x := by
  cases v with
  | some a => exact h a rfl
  | none => exact Protocol.wp_call fun _ _ _ e => e.elim

theorem wp_assert {holds : Bool} {k : Unit → Prog (DtOp ω) α}
    (h : holds = true → P.wp M t (k ()) Q x) :
    P.wp M t (Prog.bind (DerefTable.assert ω holds) k) Q x := by
  refine wp_value fun _ hv => ?_
  split_ifs at hv with hh
  exact h hh

end Stop

/-! ### The protocol -/

/-- The ghost state. -/
structure DtGhost where
  /-- The thread in the critical section of a bucket. -/
  owner : ℕ → Option ℕ
  /-- The entry that a thread has taken and not returned, or is about to put back. -/
  flight : ℕ → Option Slot

variable [Storage L ω] (X : BucketIndexer)

/-- The free list of bucket `b` is the same in both tables. -/
structure Table.SameIn (L : Layout) [Storage L ω] (b : ℕ) (T T' : Table ω) : Prop where
  count : (T'.bucket b).freeSlotCount = (T.bucket b).freeSlotCount
  head : (T'.bucket b).freeSlotIndex = (T.bucket b).freeSlotIndex
  held : ∀ i, (⟨b, i⟩ : Slot) ∈ T'.held ↔ (⟨b, i⟩ : Slot) ∈ T.held
  links : ∀ i, (⟨b, i⟩ : Slot) ∉ T.held → (T'.bucket b).links L i = (T.bucket b).links L i

/-- What thread `t` relies on about bucket `b`. -/
structure BucketRely (t b : ℕ) (x y : Shared L ω × DtGhost) : Prop where
  /-- The others do not make this thread lock or unlock. -/
  owner : y.2.owner b = some t ↔ x.2.owner b = some t
  /-- The version does not decrease. -/
  version_le : (x.1.table.bucket b).version ≤ (y.1.table.bucket b).version
  /-- It stays as it is while this thread has the lock. -/
  version_eq : x.2.owner b = some t → (y.1.table.bucket b).version = (x.1.table.bucket b).version
  /-- A bucket nobody has locked is not locked at the same version. -/
  unlocked : x.2.owner b = none → (y.1.table.bucket b).version = (x.1.table.bucket b).version →
    y.2.owner b = none
  /-- The free list stays as it is at the same version, unless another thread has the lock. -/
  same : x.2.owner b = none ∨ x.2.owner b = some t →
    (y.1.table.bucket b).version = (x.1.table.bucket b).version → x.1.table.SameIn L b y.1.table

/-- What thread `t` relies on about the entry it has taken, or is about to put back. -/
def FlightRely (t : ℕ) (x y : Shared L ω × DtGhost) : Prop :=
  y.2.flight t = x.2.flight t ∧ ∀ s, x.2.flight t = some s → y.1.table.read s = x.1.table.read s

/-- The invariant. -/
structure DtInv (x : Shared L ω × DtGhost) : Prop where
  lock : ∀ b, (x.1.table.bucket b).version % 2 = 0 ↔ x.2.owner b = none
  lists : ∀ b < X.buckets, x.2.owner b = none →
    (x.1.table.bucket b).Lists L (Table.freeIn L x.1.table.held b)
  held_nodup : x.1.table.held.Nodup
  held_lt : ∀ s ∈ x.1.table.held, s.bucket < X.buckets ∧ s.index < L.entriesPerBinCount
  slots_nodup : x.1.slots.Nodup
  slots_held : ∀ s ∈ x.1.slots, s ∈ x.1.table.held
  slotOf : ∀ a ∈ x.1.owned, DerefTable.slotOf X a.ptr a.hashes = a.slot
  flight : ∀ t s, x.2.flight t = some s → s ∈ x.1.table.held ∧ s ∉ x.1.slots
  flight_inj : ∀ t u s, x.2.flight t = some s → x.2.flight u = some s → t = u

theorem Table.SameIn.refl (b : ℕ) (T : Table ω) : T.SameIn L b T :=
  ⟨rfl, rfl, fun _ => Iff.rfl, fun _ _ => rfl⟩

theorem Table.SameIn.trans {b : ℕ} {T T' T'' : Table ω} (h : T.SameIn L b T')
    (h' : T'.SameIn L b T'') : T.SameIn L b T'' :=
  ⟨h'.count.trans h.count, h'.head.trans h.head, fun i => (h'.held i).trans (h.held i), fun i hi =>
    (h'.links i fun hm => hi ((h.held i).mp hm)).trans (h.links i hi)⟩

/-- The rely/guarantee account of the table. -/
def dtProtocol : Protocol (Shared L ω) DtGhost ℕ where
  inv := DtInv X
  rely t x y := (∀ b, BucketRely t b x y) ∧ FlightRely t x y
  idle t x := x.2.flight t = none ∧ ∀ b, x.2.owner b ≠ some t
  rely_refl t x := ⟨fun b => ⟨Iff.rfl, le_rfl, fun _ => rfl, fun h _ => h, fun _ _ => .refl b _⟩,
    rfl, fun _ _ => rfl⟩
  rely_trans := by
    rintro t x y z ⟨hxy, hf, hr⟩ ⟨hyz, hf', hr'⟩
    refine ⟨fun b => ?_, hf'.trans hf, fun s hs => (hr' s (hf.trans hs)).trans (hr s hs)⟩
    have h₁ := hxy b
    have h₂ := hyz b
    refine ⟨h₂.owner.trans h₁.owner, h₁.version_le.trans h₂.version_le, fun ho => ?_,
      fun ho hv => ?_, fun ho hv => ?_⟩
    · exact (h₂.version_eq (h₁.owner.mpr ho)).trans (h₁.version_eq ho)
    · have := h₁.version_le
      have := h₂.version_le
      exact h₂.unlocked (h₁.unlocked ho (by omega)) (by omega)
    · have hle₁ := h₁.version_le
      have hle₂ := h₂.version_le
      have hv₁ : (y.1.table.bucket b).version = (x.1.table.bucket b).version := by omega
      refine (h₁.same ho hv₁).trans (h₂.same ?_ (by omega))
      rcases ho with ho | ho
      · exact Or.inl (h₁.unlocked ho hv₁)
      · exact Or.inr (h₁.owner.mpr ho)
  idle_rely := by
    rintro t x y ⟨hf, ho⟩ ⟨hr, hf', -⟩
    exact ⟨hf'.trans hf, fun b hb => ho b ((hr b).owner.mp hb)⟩

/-! ### What a step does -/

namespace DtProof

variable {X} {t : ℕ} {x y : Shared L ω × DtGhost}

/-- What thread `t` may do to bucket `b`: leave it, work on it with the lock, or lock it. -/
inductive BucketGuar (t b : ℕ) (x y : Shared L ω × DtGhost) : Prop where
  /-- Its lock and its free list stay as they are. -/
  | frame : y.2.owner b = x.2.owner b →
      (y.1.table.bucket b).version = (x.1.table.bucket b).version →
      x.1.table.SameIn L b y.1.table → BucketGuar t b x y
  /-- The thread has the lock, and keeps it or gives it up. -/
  | work : x.2.owner b = some t → y.2.owner b = some t ∨ y.2.owner b = none →
      (x.1.table.bucket b).version ≤ (y.1.table.bucket b).version → BucketGuar t b x y
  /-- The thread takes the lock. -/
  | acquire : x.2.owner b = none → y.2.owner b = some t →
      (x.1.table.bucket b).version < (y.1.table.bucket b).version → BucketGuar t b x y

theorem guar_of_bucketGuar (hb : ∀ b, BucketGuar t b x y) (hf : ∀ u, u ≠ t → FlightRely u x y) :
    (dtProtocol X).guar t x y := by
  intro u hu
  refine ⟨fun b => ?_, hf u hu⟩
  have hne : some t ≠ some u := fun e => hu (Option.some.inj e).symm
  rcases hb b with ⟨ho, hv, hs⟩ | ⟨ho, ho', hv⟩ | ⟨ho, ho', hv⟩
  · exact ⟨by rw [ho], hv.ge, fun _ => hv, fun h _ => ho.trans h, fun _ _ => hs⟩
  · refine ⟨?_, hv, fun h => ?_, fun h => ?_, fun h => ?_⟩
    · rw [ho]
      rcases ho' with ho' | ho' <;> simp [ho', hne]
    · exact absurd (ho.symm.trans h) hne
    · simp [ho] at h
    · simp [ho, hne] at h
  · refine ⟨?_, hv.le, fun h => ?_, fun _ h => ?_, fun _ h => ?_⟩
    · simp [ho, ho', hne]
    · simp [ho] at h
    · omega
    · omega

/-- What a thread knows of bucket `b` while it has its lock: `P count head links free`. The
entry `mine` is the one it is about to put back. -/
structure Locked (L : Layout) [Storage L ω] (t b : ℕ) (mine : Option ℕ)
    (P : ℕ → ℕ → (ℕ → ℕ) → Set ℕ → Prop) (x : Shared L ω × DtGhost) : Prop where
  owner : x.2.owner b = some t
  only : ∀ c, x.2.owner c = some t → c = b
  flight : x.2.flight t = mine.map (Slot.mk b)
  knows : P (x.1.table.bucket b).freeSlotCount (x.1.table.bucket b).freeSlotIndex
    ((x.1.table.bucket b).links L) (Table.freeIn L x.1.table.held b)

/-- `P` depends on the links of free entries and of `mine` only. -/
def OnFree (mine : Option ℕ) (P : ℕ → ℕ → (ℕ → ℕ) → Set ℕ → Prop) : Prop :=
  ∀ c h l l' f, (∀ i, i ∈ f ∨ mine = some i → l' i = l i) → P c h l f → P c h l' f

theorem Locked.rely {b : ℕ} {mine : Option ℕ} {P : ℕ → ℕ → (ℕ → ℕ) → Set ℕ → Prop}
    (hP : OnFree mine P) (h : Locked L t b mine P x) (hr : (dtProtocol X).rely t x y) :
    Locked L t b mine P y := by
  have hb := hr.1 b
  have hs := hb.same (Or.inr h.owner) (hb.version_eq h.owner)
  have hfree : Table.freeIn L y.1.table.held b = Table.freeIn L x.1.table.held b := by
    ext i
    simp [Table.freeIn, hs.held]
  refine ⟨hb.owner.mpr h.owner, fun c hc => h.only c ((hr.1 c).owner.mp hc),
    hr.2.1.trans h.flight, ?_⟩
  rw [hs.count, hs.head, hfree]
  refine hP _ _ _ _ _ (fun i hi => ?_) h.knows
  rcases hi with hi | hi
  · exact hs.links i hi.2
  · refine congrArg (Storage.getLink L) (hr.2.2 ⟨b, i⟩ ?_)
    rw [h.flight, hi]
    rfl

/-- The world with another table and other ghost state. -/
def put (x : Shared L ω × DtGhost) (T : Table ω) (g : DtGhost) : Shared L ω × DtGhost :=
  (⟨T, x.1.owned⟩, g)

/-- Working on a bucket with its lock. -/
theorem work_step {b : ℕ} {mine : Option ℕ} {f : Bucket ω → Bucket ω} (hx : DtInv X x)
    (ho : x.2.owner b = some t) (hmine : x.2.flight t = mine.map (Slot.mk b))
    (hv : ∀ B, (f B).version = B.version)
    (he : ∀ B i, mine ≠ some i → (f B).entries i = B.entries i) :
    DtInv X (put x (x.1.table.modify b f) x.2) ∧
      (dtProtocol X).guar t x (put x (x.1.table.modify b f) x.2) := by
  have hver : ∀ c, ((x.1.table.modify b f).bucket c).version = (x.1.table.bucket c).version := by
    intro c
    rw [Table.modify_bucket]
    split_ifs with hc
    · rw [hv, hc]
    · rfl
  constructor
  · refine { hx with lock := fun c => ?_, lists := fun c hc hoc => ?_ }
    · simpa only [put, hver] using hx.lock c
    · have hcb : c ≠ b := by
        rintro rfl
        rw [show x.2.owner c = none from hoc] at ho
        cases ho
      have hl := hx.lists c hc hoc
      simpa [put, hcb] using hl
  · refine guar_of_bucketGuar (fun c => ?_) fun u hu => ⟨rfl, fun s hs => ?_⟩
    · by_cases hcb : c = b
      · subst hcb
        exact .work ho (Or.inl ho) (hver c).ge
      · have hbc : (x.1.table.modify b f).bucket c = x.1.table.bucket c :=
          Table.modify_bucket_ne _ hcb f
        refine .frame rfl (hver c) ⟨?_, ?_, fun _ => Iff.rfl, fun i _ => ?_⟩ <;>
          simp only [put, hbc]
    · by_cases hsb : s.bucket = b
      · have hi : mine ≠ some s.index := by
          intro hi
          have hs' : x.2.flight t = some s := by
            rw [hmine, hi, ← hsb]
            rfl
          exact hu (hx.flight_inj u t s hs hs')
        subst hsb
        simp only [put, Table.read, Table.modify_bucket_self]
        exact he _ _ hi
      · simp only [put, Table.read, Table.modify_bucket_ne _ hsb]

/-- The version of a bucket counted up. -/
abbrev bump (B : Bucket ω) : Bucket ω := { B with version := B.version + 1 }

@[simp] theorem read_bump (T : Table ω) (b : ℕ) (s : Slot) :
    (T.modify b bump).read s = T.read s := by
  unfold Table.read
  rw [Table.modify_bucket]
  split_ifs with hs
  · rw [hs]
  · rfl

/-- Taking the lock of a bucket. -/
theorem lock_step {b : ℕ} (hx : DtInv X x) (ho : x.2.owner b = none) :
    let x' := put x (x.1.table.modify b bump)
      { x.2 with owner := Function.update x.2.owner b (some t) }
    DtInv X x' ∧ (dtProtocol X).guar t x x' := by
  have heven := (hx.lock b).mpr ho
  constructor
  · refine { hx with lock := fun c => ?_, lists := fun c hc hoc => ?_ }
    · by_cases hcb : c = b
      · subst hcb
        simp only [put, Table.modify_bucket_self, Function.update_self]
        constructor
        · intro h
          omega
        · intro h
          cases h
      · simpa [put, hcb] using hx.lock c
    · have hcb : c ≠ b := by
        rintro rfl
        simp [put] at hoc
      have hl := hx.lists c hc (by simpa [put, hcb] using hoc)
      simpa [put, hcb] using hl
  · refine guar_of_bucketGuar (fun c => ?_) fun _ _ => ⟨rfl, fun s _ => read_bump _ b s⟩
    by_cases hcb : c = b
    · subst hcb
      refine .acquire ho ?_ ?_ <;> simp [put]
    · have hbc : (x.1.table.modify b bump).bucket c = x.1.table.bucket c :=
        Table.modify_bucket_ne _ hcb _
      refine .frame ?_ ?_ ⟨?_, ?_, fun _ => Iff.rfl, fun i _ => ?_⟩ <;> simp only [put, hbc]
      exact Function.update_of_ne hcb _ _

/-- What thread `t` must have done in bucket `b` before it unlocks it, if `held` is held then
and `f` is its own. -/
structure Done (X : BucketIndexer) (t b : ℕ) (held : List Slot) (f : Option Slot)
    (x : Shared L ω × DtGhost) : Prop where
  lists : b < X.buckets → (x.1.table.bucket b).Lists L (Table.freeIn L held b)
  other : ∀ s : Slot, s.bucket ≠ b → (s ∈ held ↔ s ∈ x.1.table.held)
  nodup : held.Nodup
  lt : ∀ s ∈ held, s.bucket < X.buckets ∧ s.index < L.entriesPerBinCount
  slots : ∀ s ∈ x.1.slots, s ∈ held
  flights : ∀ u s, u ≠ t → x.2.flight u = some s → s ∈ held ∧ f ≠ some s
  flight : ∀ s, f = some s → s ∈ held ∧ s ∉ x.1.slots

/-- Giving up the lock of a bucket, with a change of what is held. -/
theorem unlock_step {b : ℕ} {held : List Slot} {f : Option Slot}
    (hx : DtInv X x) (ho : x.2.owner b = some t)
    (hd : Done X t b held f x) :
    let x' := put x { x.1.table.modify b bump with held := held }
      ⟨Function.update x.2.owner b none, Function.update x.2.flight t f⟩
    DtInv X x' ∧ (dtProtocol X).guar t x x' := by
  have hodd : ¬ (x.1.table.bucket b).version % 2 = 0 := by
    rw [hx.lock b, ho]
    simp
  constructor
  · refine ⟨fun c => ?_, fun c hc hoc => ?_, hd.nodup, hd.lt, hx.slots_nodup, hd.slots, hx.slotOf,
      fun u s hu => ?_, fun u v s hu hv => ?_⟩
    · by_cases hcb : c = b
      · subst hcb
        simp only [put, Table.modify_bucket_self, Function.update_self, iff_true]
        omega
      · simpa [put, hcb] using hx.lock c
    · by_cases hcb : c = b
      · subst hcb
        simp only [put, Table.modify_bucket_self]
        exact hd.lists hc
      · have hfree : Table.freeIn L held c = Table.freeIn L x.1.table.held c := by
          ext i
          simp [Table.freeIn, hd.other ⟨c, i⟩ hcb]
        have hlc := hx.lists c hc (by simpa [put, hcb] using hoc)
        simpa [put, hcb, hfree] using hlc
    · by_cases hut : u = t
      · subst hut
        exact hd.flight s (by simpa [put] using hu)
      · have hu' : x.2.flight u = some s := by simpa [put, hut] using hu
        exact ⟨(hd.flights u s hut hu').1, (hx.flight u s hu').2⟩
    · by_cases hut : u = t
      · by_cases hvt : v = t
        · exact hut.trans hvt.symm
        · have hv' : x.2.flight v = some s := by simpa [put, hvt] using hv
          exact absurd (by simpa [put, hut] using hu) (hd.flights v s hvt hv').2
      · have hu' : x.2.flight u = some s := by simpa [put, hut] using hu
        by_cases hvt : v = t
        · exact absurd (by simpa [put, hvt] using hv) (hd.flights u s hut hu').2
        · exact hx.flight_inj u v s hu' (by simpa [put, hvt] using hv)
  · refine guar_of_bucketGuar (fun c => ?_) fun u hu => ⟨?_, fun s _ => read_bump _ b s⟩
    · by_cases hcb : c = b
      · subst hcb
        refine .work ho (Or.inr ?_) ?_ <;> simp [put]
      · have hbc : (x.1.table.modify b bump).bucket c = x.1.table.bucket c :=
          Table.modify_bucket_ne _ hcb _
        refine .frame ?_ ?_ ⟨?_, ?_, fun i => hd.other _ hcb, fun i _ => ?_⟩ <;>
          simp only [put, hbc]
        exact Function.update_of_ne hcb _ _
    · simp [put, hu]

/-! ### The programs -/

variable (L X) in
/-- The machine, in runs in which no word goes round under a reader. -/
abbrev noWrap (ω : Type) [Storage L ω] : Machine (DtOp ω) (Shared L ω) ℕ (DtCall L ω) (DtRet L) :=
  (dtMachine L X).restrict fun t o x => NoWrap t o x

variable {α β : Type} {Q : α → Shared L ω × DtGhost → Prop}

/-- An operation that leaves the table as it is. -/
theorem wp_read {o : DtOp ω β} {k : β → Prog (DtOp ω) α}
    (hread : ∀ T b T', DtOp.exec L t o T = some (b, T') → T' = T)
    (h : ∀ y, (dtProtocol X).rely t x y → DtInv X y →
      ∀ b, DtOp.exec L t o y.1.table = some (b, y.1.table) →
      (dtProtocol X).wp (noWrap L X ω) t (k b) Q y) :
    (dtProtocol X).wp (noWrap L X ω) t (.call o k) Q x := by
  refine Protocol.wp_call fun y hy hi b s' hs => ?_
  obtain ⟨-, hs, howned⟩ := hs
  have hT := hread _ _ _ hs
  have hs' : s' = y.1 := by
    cases s'
    cases hy : y.1
    simp_all
  subst hs'
  exact ⟨y.2, hi, (dtProtocol X).guar_refl t y, h y hy hi b (hT ▸ hs)⟩

/-- `size()` only reads. -/
theorem onlyReads_size : Protocol.OnlyReads (dtMachine L X) (DerefTable.size L ω X) := by
  have hread : ∀ {β : Type} {o : DtOp ω β},
    (∀ t T b T', DtOp.exec L t o T = some (b, T') → T' = T) →
      ∀ t s b s', (dtMachine L X).sem t o s b s' → s' = s := by
    rintro β o ho t ⟨T, owned⟩ b ⟨T', owned'⟩ ⟨hT, rfl⟩
    cases ho t T b T' hT
    rfl
  refine ⟨hread fun t T b T' h => ?_, fun n => ⟨fun p => ?_, fun r => ⟨hread fun t T b T' h => ?_,
    fun holds => ?_⟩⟩⟩
  · exact (Prod.mk.inj (Option.some.inj h)).2.symm
  · unfold DerefTable.sizeRound
    split_ifs
    · exact ⟨hread fun t T b T' h => (Prod.mk.inj (Option.some.inj h)).2.symm, fun _ => trivial⟩
    · trivial
  · exact (Prod.mk.inj (Option.some.inj h)).2.symm
  · cases holds with
    | false => exact ⟨fun _ _ e => e.elim, fun e => e.elim⟩
    | true => trivial

/-- An operation that changes the counters of a thread only. -/
theorem wp_count {o : DtOp ω Unit} {k : Unit → Prog (DtOp ω) α} {f : SizeCounters → SizeCounters}
    (ho : ∀ T, DtOp.exec L t o T =
      some ((), { T with threadCounters := Table.modifyLocal f t T.threadCounters }))
    (h : ∀ y z, (dtProtocol X).rely t x y → DtInv X z → z.2 = y.2 → z.1.owned = y.1.owned →
      z.1.table.held = y.1.table.held → (dtProtocol X).wp (noWrap L X ω) t (k ()) Q z) :
    (dtProtocol X).wp (noWrap L X ω) t (.call o k) Q x := by
  refine Protocol.wp_call fun y hy hi b s' hs => ?_
  obtain ⟨-, hs, howned⟩ := hs
  rw [ho] at hs
  simp only [Option.some.injEq, Prod.mk.injEq, true_and] at hs
  obtain ⟨T', owned'⟩ := s'
  simp only at hs howned
  subst hs howned
  have hi' : DtInv X ((⟨{ y.1.table with
      threadCounters := Table.modifyLocal f t y.1.table.threadCounters },
      y.1.owned⟩ : Shared L ω), y.2) :=
    { hi with }
  refine ⟨y.2, hi', ?_, h y _ hy hi' rfl rfl rfl⟩
  exact guar_of_bucketGuar (fun c => .frame rfl rfl ⟨rfl, rfl, fun _ => Iff.rfl, fun _ _ => rfl⟩)
    fun _ _ => ⟨rfl, fun _ _ => rfl⟩

/-- An operation on the bucket whose lock the thread has. -/
theorem wp_work {b : ℕ} {o : DtOp ω Unit} {k : Unit → Prog (DtOp ω) α} {f : Bucket ω → Bucket ω}
    {mine : Option ℕ} {P : ℕ → ℕ → (ℕ → ℕ) → Set ℕ → Prop} (P' : ℕ → ℕ → (ℕ → ℕ) → Set ℕ → Prop)
    (ho : ∀ T, DtOp.exec L t o T = some ((), T.modify b f)) (hv : ∀ B, (f B).version = B.version)
    (he : ∀ B i, mine ≠ some i → (f B).entries i = B.entries i) (hP : OnFree mine P)
    (hx : Locked L t b mine P x)
    (hf : ∀ B free, P B.freeSlotCount B.freeSlotIndex (B.links L) free →
      P' (f B).freeSlotCount (f B).freeSlotIndex ((f B).links L) free)
    (h : ∀ y, DtInv X y → Locked L t b mine P' y → (dtProtocol X).wp (noWrap L X ω) t (k ()) Q y) :
    (dtProtocol X).wp (noWrap L X ω) t (.call o k) Q x := by
  refine Protocol.wp_call fun y hy hi u s' hs => ?_
  obtain ⟨-, hs, howned⟩ := hs
  rw [ho] at hs
  simp only [Option.some.injEq, Prod.mk.injEq, true_and] at hs
  obtain ⟨T', owned'⟩ := s'
  simp only at hs howned
  subst hs howned
  have hy' := hx.rely hP hy
  obtain ⟨hi', hg⟩ := work_step hi hy'.owner hy'.flight hv he
  refine ⟨y.2, hi', hg, h _ hi' ⟨hy'.owner, hy'.only, hy'.flight, ?_⟩⟩
  simpa [put] using hf _ _ hy'.knows

/-- The end of a critical section. -/
theorem wp_unlock {b : ℕ} {mine : Option ℕ} {did : Section}
    {k : Unit → Prog (DtOp ω) α} {f : Option Slot}
    {P : ℕ → ℕ → (ℕ → ℕ) → Set ℕ → Prop} (hP : OnFree mine P) (hx : Locked L t b mine P x)
    (hd : ∀ y : Shared L ω × DtGhost, DtInv X y → Locked L t b mine P y →
      Done X t b (Table.recordHeld b y.1.table.held did) f y)
    (h : ∀ z, DtInv X z → z.2.flight t = f → (∀ c, z.2.owner c ≠ some t) →
      (dtProtocol X).wp (noWrap L X ω) t (k ()) Q z) :
    (dtProtocol X).wp (noWrap L X ω) t (.call (.unlock b did) k) Q x := by
  refine Protocol.wp_call fun y hy hi u s' hs => ?_
  obtain ⟨-, hs, howned⟩ := hs
  simp only [DtOp.exec, Option.some.injEq, Prod.mk.injEq, true_and] at hs
  obtain ⟨T', owned'⟩ := s'
  simp only at hs howned
  subst hs howned
  have hy' := hx.rely hP hy
  obtain ⟨hi', hg⟩ := unlock_step hi hy'.owner (hd y hi hy')
  refine ⟨_, hi', hg, h _ hi' (by simp) fun c hc => ?_⟩
  by_cases hcb : c = b
  · subst hcb
    simp at hc
  · have hc' : y.2.owner c = some t := by simpa [put, hcb] using hc
    exact hcb (hy'.only c hc')

/-- A free list of bucket entries. -/
abbrev IsFree (L : Layout) (links : ℕ → ℕ) (head count : ℕ) (free : Set ℕ) : Prop :=
  IsFreeList {i | i < L.entriesPerBinCount} links head count free

/-- The thread has the lock, and the head and its link are what it read. -/
def Read (L : Layout) (obj next : ℕ) (c h : ℕ) (l : ℕ → ℕ) (f : Set ℕ) : Prop :=
  IsFree L l h c f ∧ h = obj ∧ (c ≠ 0 → l obj = next)

/-- It has counted the head off. -/
def Counted (L : Layout) (obj next : ℕ) (c _h : ℕ) (l : ℕ → ℕ) (f : Set ℕ) : Prop :=
  IsFree L l obj (c + 1) f ∧ l obj = next

/-- It has moved the head on. -/
def Moved (L : Layout) (obj next : ℕ) (c h : ℕ) (l : ℕ → ℕ) (f : Set ℕ) : Prop :=
  Counted L obj next c h l f ∧ h = next

variable {b obj next : ℕ} {bit : Bool} {h : TinyPtrHashes} {special : ℕ}

theorem Read.onFree : OnFree none (Read L obj next) := by
  rintro c h l l' f hl ⟨hf, rfl, hn⟩
  refine ⟨hf.congr fun i hi => hl i (Or.inl hi), rfl, fun hc => ?_⟩
  rw [hl h (Or.inl (hf.head_free hc)), hn hc]

theorem Counted.onFree : OnFree none (Counted L obj next) := by
  rintro c h l l' f hl ⟨hf, hn⟩
  refine ⟨hf.congr fun i hi => hl i (Or.inl hi), ?_⟩
  rw [hl obj (Or.inl (hf.head_free (Nat.succ_ne_zero c))), hn]

theorem Moved.onFree : OnFree none (Moved L obj next) :=
  fun c h l l' f hl hm => ⟨Counted.onFree c h l l' f hl hm.1, hm.2⟩

/-- What `allocate` establishes before it returns. -/
def AllocPost (X : BucketIndexer) (t : ℕ) (h : TinyPtrHashes) :
    Except OverflowError (TinyPtr L × Slot) → Shared L ω × DtGhost → Prop
  | .ok (p, s), y => y.2.flight t = some s ∧ (∀ c, y.2.owner c ≠ some t) ∧
      DerefTable.slotOf X p h = s
  | .error _, y => (dtProtocol X).idle t y

theorem AllocPost.rely {r : Except OverflowError (TinyPtr L × Slot)} (hx : AllocPost X t h r x)
    (hr : (dtProtocol X).rely t x y) : AllocPost X t h r y := by
  cases r with
  | error e => exact (dtProtocol X).idle_rely hx hr
  | ok r =>
    obtain ⟨hf, ho, hs⟩ := hx
    exact ⟨hr.2.1.trans hf, fun c hc => ho c ((hr.1 c).owner.mp hc), hs⟩

/-- A section that has done nothing may end. -/
theorem done_none {P : ℕ → ℕ → (ℕ → ℕ) → Set ℕ → Prop} (hx : DtInv X x) (hb : Locked L t b none P x)
    (hP : ∀ c h l f, P c h l f → IsFree L l h c f) : Done X t b x.1.table.held none x :=
  ⟨fun _ => hP _ _ _ _ hb.knows, fun _ _ => Iff.rfl, hx.held_nodup, hx.held_lt, hx.slots_held,
    fun u s _ hu => ⟨(hx.flight u s hu).1, by simp⟩, by simp⟩

/-- A section that has taken the head of the free list may end. -/
theorem done_took (hx : DtInv X x) (hbX : b < X.buckets)
    (hb : Locked L t b none (Moved L obj next) x) :
    Done X t b (⟨b, obj⟩ :: x.1.table.held) (some ⟨b, obj⟩) x := by
  obtain ⟨⟨hf, hl⟩, hh⟩ := hb.knows
  have hobj := hf.head_free (Nat.succ_ne_zero _)
  have hfree : Table.freeIn L (⟨b, obj⟩ :: x.1.table.held) b =
    Table.freeIn L x.1.table.held b \ {obj} := by
    ext i
    simp [Table.freeIn]
    tauto
  refine ⟨fun _ => ?_, fun s hs => ?_, ?_, fun s hs => ?_, fun s hs => ?_, fun u s _ hu =>
    ⟨?_, ?_⟩, fun s hs => ?_⟩
  · rw [hfree, Bucket.Lists, hh, ← hl]
    exact hf.take (Nat.succ_ne_zero _)
  · have hne : s ≠ ⟨b, obj⟩ := fun e => hs (congrArg Slot.bucket e)
    simp [hne]
  · exact List.nodup_cons.mpr ⟨hobj.2, hx.held_nodup⟩
  · rcases List.mem_cons.mp hs with rfl | hs
    · exact ⟨hbX, hobj.1⟩
    · exact hx.held_lt s hs
  · exact List.mem_cons_of_mem _ (hx.slots_held s hs)
  · exact List.mem_cons_of_mem _ (hx.flight u s hu).1
  · rintro ⟨⟩
    exact hobj.2 (hx.flight u _ hu).1
  · cases hs
    exact ⟨List.mem_cons_self, fun hm => hobj.2 (hx.slots_held _ hm)⟩

theorem wp_takeHead (hb : b = X.index (if bit then h.2 else h.1)) (hs : special < 2 ^ L.S)
    (hx : Locked L t b none (Read L obj next) x) :
    (dtProtocol X).wp (noWrap L X ω) t (DerefTable.takeHead L ω X b bit special obj next)
      (AllocPost X t h) x := by
  have hbX : b < X.buckets := hb ▸ X.index_lt _
  unfold DerefTable.takeHead
  simp only [bind_eq, op_bind, pure_eq]
  refine wp_read (fun T u T' => by simp [DtOp.exec]; tauto) fun y hy hi count hcount => ?_
  have hy' := hx.rely Read.onFree hy
  simp only [DtOp.exec, Option.some.injEq, Prod.mk.injEq, and_true] at hcount
  by_cases h0 : count = 0
  · rw [if_pos h0]
    refine Protocol.wp_bind hi (Protocol.wp_onlyReads onlyReads_size.restrict
      (Locked L t b none (Read L obj next)) (fun _ _ hr hx => hx.rely Read.onFree hr)
      (fun size z hiz hz => ?_) hi hy')
    refine wp_unlock Read.onFree hz
      (fun v hv hv' => done_none hv hv' fun c h l f hp => hp.1) fun v hv hvf hvo => ?_
    exact Protocol.wp_ret fun w hw _ => AllocPost.rely (r := .error _) ⟨hvf, hvo⟩ hw
  · rw [if_neg h0]
    have hc0 : Locked L t b none (fun c h l f => Read L obj next c h l f ∧ c ≠ 0) y :=
      ⟨hy'.owner, hy'.only, hy'.flight, hy'.knows, fun hc => h0 (hcount ▸ hc)⟩
    have hon : OnFree none (fun c h l f => Read L obj next c h l f ∧ c ≠ 0) :=
      fun c h l l' f hl hp => ⟨Read.onFree c h l l' f hl hp.1, hp.2⟩
    refine wp_assert fun _ => ?_
    refine wp_work (Counted L obj next) (fun T => rfl) (fun _ => rfl) (fun _ _ _ => rfl) hon hc0 ?_
      fun z hiz hz => ?_
    · rintro B free ⟨⟨hf, rfl, hn⟩, hc⟩
      rw [Counted, Bucket.Lists.fetchSub hf hc, Nat.sub_add_cancel (Nat.pos_of_ne_zero hc)]
      exact ⟨hf, hn hc⟩
    refine wp_work (Moved L obj next) (fun T => rfl) (fun _ => rfl)
      (fun _ _ _ => rfl) Counted.onFree hz (fun B free hp => ⟨hp, rfl⟩) fun v hiv hv => ?_
    refine wp_unlock (f := some ⟨b, obj⟩) Moved.onFree hv
      (fun w hw hw' => done_took hw hbX hw') fun w hiw hwf hwo => ?_
    refine wp_count (fun T => rfl) fun w' z' hw' _ hg _ _ => ?_
    have hobj : obj < L.entriesPerBinCount := (hv.knows.1.1.head_free (Nat.succ_ne_zero _)).1
    refine wp_value fun p hp => ?_
    obtain rfl := TinyPtr.eq_of_construct hobj hs hp
    refine Protocol.wp_ret fun v' hv' _ => AllocPost.rely (r := .ok _) ⟨?_, fun c hc => ?_, ?_⟩ hv'
    · rw [hg, hw'.2.1, hwf]
    · rw [hg] at hc
      exact hwo c ((hw'.1 c).owner.mp hc)
    · unfold DerefTable.slotOf
      rw [TinyPtr.hashFn_ofFields, TinyPtr.index_ofFields hobj hs, hb]

/-- What an optimistic reader of a bucket knows: while the version is what it saw, `P`. -/
structure Snap (L : Layout) [Storage L ω] (l : OptimisticLock) (P : ℕ → ℕ → (ℕ → ℕ) → Set ℕ → Prop)
    (x : Shared L ω × DtGhost) : Prop where
  even : l.seen % 2 = 0
  seen_le : l.seen ≤ (x.1.table.bucket l.bucket).version
  knows : (x.1.table.bucket l.bucket).version = l.seen →
    P (x.1.table.bucket l.bucket).freeSlotCount (x.1.table.bucket l.bucket).freeSlotIndex
      ((x.1.table.bucket l.bucket).links L) (Table.freeIn L x.1.table.held l.bucket)

variable {l : OptimisticLock} {P : ℕ → ℕ → (ℕ → ℕ) → Set ℕ → Prop}

/-- A bucket at the version that was seen is not locked. -/
theorem Snap.unlocked (h : Snap L l P x) (hx : DtInv X x)
    (hv : (x.1.table.bucket l.bucket).version = l.seen) : x.2.owner l.bucket = none :=
  (hx.lock _).mp (hv ▸ h.even)

theorem Snap.rely (hP : OnFree none P) (hx : DtInv X x) (h : Snap L l P x)
    (hr : (dtProtocol X).rely t x y) : Snap L l P y := by
  have hb := hr.1 l.bucket
  have hle := hb.version_le
  have hsl := h.seen_le
  refine ⟨h.even, hsl.trans hle, fun hv => ?_⟩
  have hvx : (x.1.table.bucket l.bucket).version = l.seen := by omega
  have hs := hb.same (Or.inl (h.unlocked hx hvx)) (by omega)
  have hfree : Table.freeIn L y.1.table.held l.bucket = Table.freeIn L x.1.table.held l.bucket := by
    ext i
    simp [Table.freeIn, hs.held]
  rw [hs.count, hs.head, hfree]
  refine hP _ _ _ _ _ (fun i hi => ?_) (h.knows hvx)
  rcases hi with hi | hi
  · exact hs.links i hi.2
  · cases hi

/-- Nothing. -/
def Any (_ _ : ℕ) (_ : ℕ → ℕ) (_ : Set ℕ) : Prop := True

theorem Any.onFree : OnFree none Any := fun _ _ _ _ _ _ _ => trivial

/-- The head is what was read. -/
def Head (obj : ℕ) (_ h : ℕ) (_ : ℕ → ℕ) (_ : Set ℕ) : Prop := h = obj

theorem Head.onFree : OnFree none (Head obj) := fun _ _ _ _ _ _ hp => hp

theorem wp_lockOptimistically {k : OptimisticLock → Prog (DtOp ω) α}
    (h : ∀ y, (dtProtocol X).rely t x y → DtInv X y → ∀ l, l.bucket = b → Snap L l Any y →
      (dtProtocol X).wp (noWrap L X ω) t (k l) Q y) :
    (dtProtocol X).wp (noWrap L X ω) t (.call (.lockOptimistically b) k) Q x := by
  refine wp_read (fun T u T' => by simp only [DtOp.exec]; split_ifs <;> simp; tauto)
    fun y hy hi l hl => ?_
  simp only [DtOp.exec] at hl
  split_ifs at hl with hodd
  simp only [Option.some.injEq, Prod.mk.injEq, and_true] at hl
  subst hl
  refine h y hy hi _ rfl ⟨?_, le_rfl, fun _ => trivial⟩
  unfold lockWord at hodd
  simp only
  omega

/-- Upgrading: either the version is still what was seen and the thread has the lock, or nothing
happens. -/
theorem wp_tryUpgrade {k : Bool → Prog (DtOp ω) α} (hP : OnFree none P) (hx : DtInv X x)
    (hidle : (dtProtocol X).idle t x) (hl : Snap L l P x)
    (hyes : ∀ z, DtInv X z → Locked L t l.bucket none P z →
      (dtProtocol X).wp (noWrap L X ω) t (k true) Q z)
    (hno : ∀ z, DtInv X z → (dtProtocol X).idle t z → (dtProtocol X).wp (noWrap L X ω) t
      (k false) Q z) :
    (dtProtocol X).wp (noWrap L X ω) t (.call (.tryUpgradeToExclusive l) k) Q x := by
  refine Protocol.wp_call fun y hy hi r s' hs => ?_
  obtain ⟨hwrap, hs, howned⟩ := hs
  obtain ⟨T', owned'⟩ := s'
  have hidle' := (dtProtocol X).idle_rely hidle hy
  have hl' := hl.rely hP hx hy
  simp only [DtOp.exec] at hs howned
  subst howned
  split_ifs at hs with hw
  · simp only [Option.some.injEq, Prod.mk.injEq] at hs
    obtain ⟨rfl, rfl⟩ := hs
    have hv : (y.1.table.bucket l.bucket).version = l.seen := hwrap hw
    obtain ⟨hi', hg⟩ := lock_step (t := t) hi (hl'.unlocked hi hv)
    refine ⟨_, hi', hg, hyes _ hi' ⟨by simp, fun c hc => ?_, hidle'.1, ?_⟩⟩
    · by_contra hcb
      exact hidle'.2 c (by simpa [hcb] using hc)
    · have hk := hl'.knows hv
      simp only [Table.modify_bucket_self, Table.modify_held]
      exact hk
  · simp only [Option.some.injEq, Prod.mk.injEq] at hs
    obtain ⟨rfl, rfl⟩ := hs
    exact ⟨y.2, hi, (dtProtocol X).guar_refl t y, hno y hi hidle'⟩

/-- What a round establishes: it goes back to `retry`, or it has what `allocate` answers. -/
abbrev RoundPost (X : BucketIndexer) (t : ℕ) (h : TinyPtrHashes)
    (r : Unit ⊕ Except OverflowError (TinyPtr L × Slot)) (y : Shared L ω × DtGhost) : Prop :=
  Sum.elim (fun _ => (dtProtocol X).idle t y) (fun r => AllocPost X t h r y) r

theorem wp_attempt {l' : OptimisticLock} (hb : l.bucket = X.index (if bit then h.2 else h.1))
    (hs : special < 2 ^ L.S) (hx : DtInv X x) (hidle : (dtProtocol X).idle t x)
    (hl : Snap L l Any x) :
    (dtProtocol X).wp (noWrap L X ω) t (DerefTable.attempt L ω X l.bucket bit special l l')
      (RoundPost X t h) x := by
  unfold DerefTable.attempt
  simp only [bind_eq, op_bind, pure_eq]
  refine wp_read (fun T u T' => by simp [DtOp.exec]; tauto) fun y hy hi obj hobj => ?_
  simp only [DtOp.exec, Option.some.injEq, Prod.mk.injEq, and_true] at hobj
  have hly := hl.rely Any.onFree hx hy
  have hhead : Snap L l (Head obj) y := ⟨hly.even, hly.seen_le, fun _ => hobj⟩
  refine wp_read (fun T u T' => by simp [DtOp.exec]; tauto) fun z hz hiz next hnext => ?_
  simp only [DtOp.exec, Option.some.injEq, Prod.mk.injEq, and_true] at hnext
  have hhz := hhead.rely Head.onFree hi hz
  have hread : Snap L l (Read L obj next) z := by
    refine ⟨hhz.even, hhz.seen_le, fun hv => ⟨?_, hhz.knows hv, fun _ => hnext⟩⟩
    exact hiz.lists _ (hb ▸ X.index_lt _) (hhz.unlocked hiz hv)
  have hidz := (dtProtocol X).idle_rely ((dtProtocol X).idle_rely hidle hy) hz
  refine wp_read (fun T u T' => by simp [DtOp.exec]; tauto) fun v hv hiv valid _ => ?_
  have hidv := (dtProtocol X).idle_rely hidz hv
  cases valid with
  | false => exact Protocol.wp_ret fun w hw _ => (dtProtocol X).idle_rely hidv hw
  | true =>
    refine wp_tryUpgrade Read.onFree hiv hidv (hread.rely Read.onFree hiz hv) (fun w hiw hw => ?_)
      fun w hiw hw => ?_
    · refine Protocol.wp_bind hiw (Protocol.wp_mono (wp_takeHead hb hs hw) fun r v' hv' hr => ?_)
      exact Protocol.wp_ret fun w' hw' _ => hr.rely hw'
    · exact Protocol.wp_ret fun v' hv' _ => (dtProtocol X).idle_rely hw hv'

theorem wp_round (hs : special < 2 ^ L.S) (hidle : (dtProtocol X).idle t x) :
    (dtProtocol X).wp (noWrap L X ω) t (DerefTable.round L ω X h special) (RoundPost X t h) x := by
  unfold DerefTable.round
  simp only [bind_eq, op_bind]
  refine wp_lockOptimistically fun y hy hi l₁ hb₁ hl₁ => ?_
  have hidy := (dtProtocol X).idle_rely hidle hy
  refine wp_lockOptimistically fun z hz hiz l₂ hb₂ hl₂ => ?_
  have hidz := (dtProtocol X).idle_rely hidy hz
  have hl₁z := hl₁.rely Any.onFree hi hz
  refine wp_read (fun T u T' => by simp [DtOp.exec]; tauto) fun v hv hiv c₁ _ => ?_
  refine wp_read (fun T u T' => by simp [DtOp.exec]; tauto) fun w hw hiw c₂ _ => ?_
  have hidw := (dtProtocol X).idle_rely ((dtProtocol X).idle_rely hidz hv) hw
  have hl₁w := (hl₁z.rely Any.onFree hiz hv).rely Any.onFree hiv hw
  have hl₂w := (hl₂.rely Any.onFree hiz hv).rely Any.onFree hiv hw
  split_ifs
  · rw [← hb₁]
    exact wp_attempt hb₁ hs hiw hidw hl₁w
  · rw [← hb₂]
    exact wp_attempt hb₂ hs hiw hidw hl₂w

theorem wp_allocate (hs : special < 2 ^ L.S) (hx : DtInv X x) (hidle : (dtProtocol X).idle t x) :
    (dtProtocol X).wp (noWrap L X ω) t (DerefTable.allocate L ω X h special)
      (AllocPost X t h) x := by
  unfold DerefTable.allocate iter
  refine Protocol.wp_loop (fun _ y => (dtProtocol X).idle t y) hx hidle fun _ y hy hidy => ?_
  refine Protocol.wp_mono (wp_round hs hidy) fun r z hz hr => ?_
  cases r with
  | inl u => exact hr
  | inr r => exact Protocol.wp_ret fun w hw _ => AllocPost.rely hr hw

/-- The thread has the lock and is about to put entry `i` back. -/
def Freeing (L : Layout) (i c h : ℕ) (l : ℕ → ℕ) (f : Set ℕ) : Prop :=
  IsFree L l h c f ∧ i ∉ f ∧ i < L.entriesPerBinCount

/-- It has read the head. -/
def FreeingHead (L : Layout) (i hd c h : ℕ) (l : ℕ → ℕ) (f : Set ℕ) : Prop :=
  Freeing L i c h l f ∧ h = hd

/-- It has linked the entry to the head. -/
def Linked (L : Layout) (i hd c h : ℕ) (l : ℕ → ℕ) (f : Set ℕ) : Prop :=
  FreeingHead L i hd c h l f ∧ l i = hd

/-- It has made the entry the head. -/
def Headed (L : Layout) (i hd c h : ℕ) (l : ℕ → ℕ) (f : Set ℕ) : Prop :=
  Linked L i hd c hd l f ∧ h = i

/-- The entry is on the free list. -/
def Given (L : Layout) (i c h : ℕ) (l : ℕ → ℕ) (f : Set ℕ) : Prop :=
  IsFree L l h c (insert i f) ∧ i < L.entriesPerBinCount

variable {i hd : ℕ}

theorem Freeing.onFree : OnFree (some i) (Freeing L i) :=
  fun _ _ _ _ _ hl ⟨hf, hi⟩ => ⟨hf.congr fun j hj => hl j (Or.inl hj), hi⟩

theorem FreeingHead.onFree : OnFree (some i) (FreeingHead L i hd) :=
  fun c h l l' f hl hp => ⟨Freeing.onFree c h l l' f hl hp.1, hp.2⟩

theorem Linked.onFree : OnFree (some i) (Linked L i hd) :=
  fun c h l l' f hl hp => ⟨FreeingHead.onFree c h l l' f hl hp.1, (hl i (Or.inr rfl)).trans hp.2⟩

theorem Headed.onFree : OnFree (some i) (Headed L i hd) :=
  fun c _ l l' f hl hp => ⟨Linked.onFree c hd l l' f hl hp.1, hp.2⟩

theorem Given.onFree : OnFree (some i) (Given L i) := by
  rintro c h l l' f hl ⟨hf, hi⟩
  refine ⟨hf.congr fun j hj => hl j ?_, hi⟩
  rcases hj with rfl | hj
  · exact Or.inr rfl
  · exact Or.inl hj

theorem Headed.given {c h : ℕ} {l : ℕ → ℕ} {f : Set ℕ} (hp : Headed L i hd c h l f) :
    Given L i ((c + 1) % 2 ^ L.bucketIndexWidth) h l f := by
  obtain ⟨⟨⟨⟨hf, hi, hlt⟩, -⟩, hl⟩, rfl⟩ := hp
  have hg := hf.give hi hlt
  have hupd : Function.update l h hd = l := by rw [← hl, Function.update_eq_self]
  rw [hupd] at hg
  rw [Given, Bucket.fetchAdd_eq hg]
  exact ⟨hg, hlt⟩

/-- A section that has put an entry back may end. -/
theorem done_gave (hx : DtInv X x) (hb : Locked L t b (some i) (Given L i) x) :
    Done X t b (x.1.table.held.erase ⟨b, i⟩) none x := by
  obtain ⟨hf, hlt⟩ := hb.knows
  have hmine : x.2.flight t = some ⟨b, i⟩ := hb.flight
  obtain ⟨hheld, hslots⟩ := hx.flight t _ hmine
  have herase : ∀ s, s ∈ x.1.table.held.erase ⟨b, i⟩ ↔ s ≠ ⟨b, i⟩ ∧ s ∈ x.1.table.held :=
    fun s => hx.held_nodup.mem_erase_iff
  have hfree : Table.freeIn L (x.1.table.held.erase ⟨b, i⟩) b = insert i
    (Table.freeIn L x.1.table.held b) := by
    ext j
    simp only [Table.freeIn, Set.mem_ofPred_eq, herase, Set.mem_insert_iff]
    by_cases hj : j = i
    · subst hj
      simp [hlt]
    · simp [hj]
  refine ⟨fun _ => ?_, fun s hs => ?_, hx.held_nodup.erase _, fun s hs => ?_, fun s hs => ?_,
    fun u s hu hus => ⟨?_, by simp⟩, by simp⟩
  · rw [hfree]
    exact hf
  · have hne : s ≠ ⟨b, i⟩ := fun e => hs (congrArg Slot.bucket e)
    simp [herase, hne]
  · exact hx.held_lt s ((herase s).mp hs).2
  · exact (herase s).mpr ⟨fun e => hslots (e ▸ hs), hx.slots_held s hs⟩
  · refine (herase s).mpr ⟨?_, (hx.flight u s hus).1⟩
    rintro rfl
    exact hu (hx.flight_inj u t _ hus hmine)

/-- Locking the bucket of an entry that the thread is about to put back. -/
theorem wp_lockExclusive {k : Unit → Prog (DtOp ω) α} (hfl : x.2.flight t = some ⟨b, i⟩)
    (ho : ∀ c, x.2.owner c ≠ some t)
    (h : ∀ z, DtInv X z → Locked L t b (some i) (Freeing L i) z →
      (dtProtocol X).wp (noWrap L X ω) t (k ()) Q z) :
    (dtProtocol X).wp (noWrap L X ω) t (.call (.lockExclusive b) k) Q x := by
  refine Protocol.wp_call fun y hy hi r s' hs => ?_
  obtain ⟨-, hs, howned⟩ := hs
  obtain ⟨T', owned'⟩ := s'
  simp only [DtOp.exec] at hs howned
  subst howned
  split_ifs at hs with hw
  simp only [Option.some.injEq, Prod.mk.injEq, true_and] at hs
  subst hs
  have heven : (y.1.table.bucket b).version % 2 = 0 := by
    unfold lockWord at hw
    omega
  have hno := (hi.lock b).mp heven
  have hfy : y.2.flight t = some ⟨b, i⟩ := hy.2.1.trans hfl
  have hheld := (hi.flight t _ hfy).1
  obtain ⟨hbX, hlt⟩ := hi.held_lt _ hheld
  obtain ⟨hi', hg⟩ := lock_step (t := t) hi hno
  refine ⟨_, hi', hg, h _ hi' ⟨by simp, fun c hc => ?_, hfy, ?_⟩⟩
  · by_contra hcb
    exact ho c ((hy.1 c).owner.mp (by simpa [put, hcb] using hc))
  · simp only [Table.modify_bucket_self, Table.modify_held]
    exact ⟨hi.lists _ hbX hno, fun hf => hf.2 hheld, hlt⟩

theorem wp_free {p : TinyPtr L} (hfl : x.2.flight t = some (DerefTable.slotOf X p h))
    (ho : ∀ c, x.2.owner c ≠ some t) :
    (dtProtocol X).wp (noWrap L X ω) t (DerefTable.free L ω X p h) (fun _ y =>
      (dtProtocol X).idle t y) x := by
  unfold DerefTable.free
  simp only [bind_eq, op_bind]
  refine wp_lockExclusive hfl ho fun y hy hlock => ?_
  refine wp_read (fun T u T' => by simp [DtOp.exec]; tauto) fun z hz hiz hd hhd => ?_
  simp only [DtOp.exec, Option.some.injEq, Prod.mk.injEq, and_true] at hhd
  have hz' := hlock.rely Freeing.onFree hz
  have hz₁ : Locked L t _ (some p.index) (FreeingHead L p.index hd) z :=
    ⟨hz'.owner, hz'.only, hz'.flight, hz'.knows, hhd⟩
  refine wp_work (Linked L p.index hd) (fun T => rfl) (fun _ => rfl) ?_ FreeingHead.onFree hz₁ ?_
    fun v hiv hv => ?_
  · intro B j hj
    exact Function.update_of_ne (fun e => hj (by rw [e])) _ _
  · rintro B free ⟨⟨hf, hi, hlt⟩, rfl⟩
    have hlinks := Bucket.links_setLink (L := L) (e := B.entries) (j := p.index) (v := B.version)
      (c := B.freeSlotCount) (h := B.freeSlotIndex) hf.head_valid
    rw [hlinks]
    refine ⟨⟨⟨hf.congr fun j hj => ?_, hi, hlt⟩, rfl⟩, Function.update_self ..⟩
    exact Function.update_of_ne (fun e => hi (by rwa [← e])) _ _
  refine wp_work (Headed L p.index hd) (fun T => rfl) (fun _ => rfl) (fun _ _ _ => rfl)
    Linked.onFree hv (fun B free hp => ⟨⟨⟨⟨hp.1.2 ▸ hp.1.1.1, hp.1.1.2⟩, rfl⟩, hp.2⟩, rfl⟩)
    fun v' hiv' hv' => ?_
  refine wp_work (Given L p.index) (fun T => rfl) (fun _ => rfl)
    (fun _ _ _ => rfl) Headed.onFree hv' (fun B free hp => hp.given) fun w hiw hw => ?_
  refine wp_unlock (f := none) Given.onFree hw (fun w' hw' hw'' => done_gave hw' hw'')
    fun w' hiw' hf ho' => ?_
  refine wp_count (fun T => rfl) fun u' z' hu' _ hg' _ _ => ?_
  refine Protocol.wp_ret fun v₁ hv₁ _ => (dtProtocol X).idle_rely ⟨?_, fun c hc => ?_⟩ hv₁
  · rw [hg', hu'.2.1, hf]
  · rw [hg'] at hc
    exact ho' c ((hu'.1 c).owner.mp hc)

/-! ### The calls -/

/-- An allocation that returns belongs to its client. -/
theorem finish_allocate {p : TinyPtr L} {s : Slot} (hx : DtInv X x) (hf : x.2.flight t = some s)
    (ho : ∀ c, x.2.owner c ≠ some t) (hs : DerefTable.slotOf X p h = s) :
    let x' := ((⟨x.1.table, ⟨p, h, s⟩ :: x.1.owned⟩ : Shared L ω),
      ({ x.2 with flight := Function.update x.2.flight t none } : DtGhost))
    DtInv X x' ∧ (dtProtocol X).guar t x x' ∧ (dtProtocol X).idle t x' := by
  obtain ⟨hheld, hnot⟩ := hx.flight t s hf
  refine ⟨{ hx with slots_nodup := ?_, slots_held := ?_, slotOf := ?_, flight := ?_, flight_inj :=
    ?_ }, ?_,
    ?_, ho⟩
  · exact List.nodup_cons.mpr ⟨hnot, hx.slots_nodup⟩
  · intro s' hs'
    rcases List.mem_cons.mp hs' with rfl | hs'
    · exact hheld
    · exact hx.slots_held s' hs'
  · intro a ha
    rcases List.mem_cons.mp ha with rfl | ha
    · exact hs
    · exact hx.slotOf a ha
  · intro u s' hu
    by_cases hut : u = t
    · subst hut
      simp at hu
    · have hu' : x.2.flight u = some s' := by simpa [hut] using hu
      refine ⟨(hx.flight u s' hu').1, fun hm => ?_⟩
      rcases List.mem_cons.mp hm with rfl | hm
      · exact hut (hx.flight_inj u t _ hu' hf)
      · exact (hx.flight u s' hu').2 hm
  · intro u v s' hu hv
    have hut : u ≠ t := by
      rintro rfl
      simp at hu
    have hvt : v ≠ t := by
      rintro rfl
      simp at hv
    exact hx.flight_inj u v s' (by simpa [hut] using hu) (by simpa [hvt] using hv)
  · refine guar_of_bucketGuar (fun c => .frame rfl rfl (.refl c _)) fun u hu => ⟨?_, fun _ _ => rfl⟩
    simp [hu]
  · simp

theorem call_allocate (hx : DtInv X x) (hidle : (dtProtocol X).idle t x) (hs : special < 2 ^ L.S) :
    (dtProtocol X).wp (noWrap L X ω) t (dtCode L X (.allocate h special))
      (Protocol.post (noWrap L X ω) (dtProtocol X) t (.allocate h special)) x := by
  unfold dtCode
  simp only [bind_eq, pure_eq]
  refine Protocol.wp_bind hx (Protocol.wp_mono (wp_allocate hs hx hidle) fun r y hy hr => ?_)
  refine Protocol.wp_ret fun z hz hiz s' hfin => ?_
  have hr' := hr.rely hz
  cases r with
  | error e =>
    have hs' : s' = z.1 := hfin
    subst hs'
    exact ⟨z.2, hiz, (dtProtocol X).guar_refl t z, hr'⟩
  | ok r =>
    obtain ⟨hf, ho, hslot⟩ := hr'
    have hs' : s' = { z.1 with owned := ⟨r.1, h, r.2⟩ :: z.1.owned } := hfin
    subst hs'
    exact ⟨_, finish_allocate hiz hf ho hslot⟩

/-- An allocation that is about to be freed leaves its client. -/
theorem invoke_free {a : Allocation L} (hx : DtInv X x) (hidle : (dtProtocol X).idle t x)
    (ha : a ∈ x.1.owned) :
    let x' := ((⟨x.1.table, x.1.owned.erase a⟩ : Shared L ω),
      ({ x.2 with flight := Function.update x.2.flight t (some a.slot) } : DtGhost))
    DtInv X x' ∧ (dtProtocol X).guar t x x' := by
  have hmem : a.slot ∈ x.1.slots := List.mem_map_of_mem ha
  have hnodup : x.1.owned.Nodup := hx.slots_nodup.of_map
  have hsub : ∀ s, s ∈ (x.1.owned.erase a).map Allocation.slot → s ∈ x.1.slots := fun s hs =>
    (List.erase_sublist.map _).subset hs
  have hnot : a.slot ∉ (x.1.owned.erase a).map Allocation.slot := by
    intro hm
    obtain ⟨a', ha', he⟩ := List.mem_map.mp hm
    obtain ⟨hne, hin⟩ := hnodup.mem_erase_iff.mp ha'
    exact hne (List.inj_on_of_nodup_map hx.slots_nodup hin ha he)
  constructor
  · refine { hx with slots_nodup := ?_, slots_held := ?_, slotOf := ?_, flight := ?_, flight_inj :=
      ?_ }
    · exact hx.slots_nodup.sublist (List.erase_sublist.map _)
    · exact fun s hs => hx.slots_held s (hsub s hs)
    · exact fun a' ha' => hx.slotOf a' (List.mem_of_mem_erase ha')
    · intro u s hu
      by_cases hut : u = t
      · subst hut
        have hs : a.slot = s := by simpa using hu
        subst hs
        exact ⟨hx.slots_held _ hmem, hnot⟩
      · have hu' : x.2.flight u = some s := by simpa [hut] using hu
        exact ⟨(hx.flight u s hu').1, fun hm => (hx.flight u s hu').2 (hsub s hm)⟩
    · have hfresh : ∀ u s, x.2.flight u = some s → a.slot ≠ s := by
        rintro u s hu rfl
        exact (hx.flight u _ hu).2 hmem
      intro u v s hu hv
      by_cases hut : u = t
      · by_cases hvt : v = t
        · exact hut.trans hvt.symm
        · exact absurd (by simpa [hut] using hu) (hfresh v s (by simpa [hvt] using hv))
      · by_cases hvt : v = t
        · exact absurd (by simpa [hvt] using hv) (hfresh u s (by simpa [hut] using hu))
        · exact hx.flight_inj u v s (by simpa [hut] using hu) (by simpa [hvt] using hv)
  · refine guar_of_bucketGuar (fun c => .frame rfl rfl (.refl c _)) fun u hu => ⟨?_, fun _ _ => rfl⟩
    simp [hu]

theorem call_free {a : Allocation L} (hx : DtInv X x)
    (hf : x.2.flight t = some (DerefTable.slotOf X a.ptr a.hashes))
    (ho : ∀ c, x.2.owner c ≠ some t) :
    (dtProtocol X).wp (noWrap L X ω) t (dtCode L X (.free a)) (Protocol.post (noWrap L X ω)
      (dtProtocol X) t (.free a)) x := by
  unfold dtCode
  simp only [bind_eq, pure_eq]
  refine Protocol.wp_bind hx (Protocol.wp_mono (wp_free hf ho) fun r y hy hr => ?_)
  refine Protocol.wp_ret fun z hz hiz s' hfin => ?_
  have hs' : s' = z.1 := hfin
  subst hs'
  exact ⟨z.2, hiz, (dtProtocol X).guar_refl t z, (dtProtocol X).idle_rely hr hz⟩

/-- A client writes into an object it holds: no free list changes. -/
theorem invoke_write {a : Allocation L} {o : ω} (hx : DtInv X x) (ha : a ∈ x.1.owned) :
    let x' := ((⟨x.1.table.write a.slot o, x.1.owned⟩ : Shared L ω), x.2)
    DtInv X x' ∧ (dtProtocol X).guar t x x' := by
  have hmem : a.slot ∈ x.1.slots := List.mem_map_of_mem ha
  have hheld := hx.slots_held _ hmem
  have hver : ∀ c, ((x.1.table.write a.slot o).bucket c).version =
    (x.1.table.bucket c).version := by
    intro c
    simp only [Table.write, Table.modify_bucket]
    split_ifs with hc
    · rw [hc]
    · rfl
  constructor
  · refine { hx with lock := fun c => ?_, lists := fun c hc hoc => ?_ }
    · simpa only [hver] using hx.lock c
    · have hl := hx.lists c hc hoc
      by_cases hcs : c = a.slot.bucket
      · subst hcs
        simp only [Table.write, Table.modify_bucket_self, Table.modify_held]
        exact hl.write (fun hf => hf.2 hheld) o
      · simpa only [Table.write, Table.modify_bucket_ne _ hcs, Table.modify_held] using hl
  · refine guar_of_bucketGuar (fun c => .frame rfl (hver c) ?_) fun u hu => ⟨rfl, fun s hs => ?_⟩
    · by_cases hcs : c = a.slot.bucket
      · subst hcs
        refine ⟨by simp [Table.write], by simp [Table.write], fun _ => Iff.rfl, fun i hi => ?_⟩
        have hia : i ≠ a.slot.index := by
          rintro rfl
          exact hi hheld
        simp [Table.write, Bucket.links, hia]
      · refine ⟨?_, ?_, fun _ => Iff.rfl, fun i _ => ?_⟩ <;>
          simp only [Table.write, Table.modify_bucket_ne _ hcs]
    · refine Table.read_write_ne ?_ o
      rintro rfl
      exact (hx.flight u _ hs).2 hmem

/-- Every call that a thread may make is verified. -/
theorem calls (t : ℕ) (a : DtCall L ω) (x : Shared L ω × DtGhost) (s' : Shared L ω) (hx : DtInv X x)
    (hidle : (dtProtocol X).idle t x) (ha : (noWrap L X ω).invoke t a x.1 s') :
    ∃ g', DtInv X (s', g') ∧ (dtProtocol X).guar t x (s', g') ∧
      (dtProtocol X).wp (noWrap L X ω) t ((noWrap L X ω).code a)
        (Protocol.post (noWrap L X ω) (dtProtocol X) t a) (s', g') := by
  cases a with
  | allocate h special =>
    obtain ⟨hs, rfl⟩ : special < 2 ^ L.S ∧ s' = x.1 := ha
    exact ⟨x.2, hx, (dtProtocol X).guar_refl t x, call_allocate hx hidle hs⟩
  | free a =>
    obtain ⟨ha, rfl⟩ : a ∈ x.1.owned ∧ s' = { x.1 with owned := x.1.owned.erase a } := ha
    obtain ⟨hi', hg⟩ := invoke_free hx hidle ha
    refine ⟨_, hi', hg, call_free hi' ?_ hidle.2⟩
    simp [hx.slotOf a ha]
  | write a o =>
    obtain ⟨ha, rfl⟩ : a ∈ x.1.owned ∧ s' = { x.1 with table := x.1.table.write a.slot o } := ha
    obtain ⟨hi', hg⟩ := invoke_write (o := o) hx ha
    have hidle' : (dtProtocol X).idle t (({ x.1 with table := x.1.table.write a.slot o } : Shared L
      ω), x.2) := hidle
    refine ⟨x.2, hi', hg, Protocol.wp_ret fun z hz hiz s' hfin => ?_⟩
    have hs' : s' = z.1 := hfin
    subst hs'
    exact ⟨z.2, hiz, (dtProtocol X).guar_refl t z, (dtProtocol X).idle_rely hidle' hz⟩

theorem DtInv.safe {g : DtGhost} {x : Shared L ω} (hx : DtInv X (x, g)) : x.Safe L X := by
  have hlists : ∀ b < X.buckets, lockWord (x.table.bucket b).version % 2 = 0 →
      (x.table.bucket b).Lists L (Table.freeIn L x.table.held b) := by
    intro b hb hw
    refine hx.lists b hb ((hx.lock b).mp ?_)
    unfold lockWord at hw
    simp only
    omega
  exact ⟨hx.held_nodup, hx.slots_nodup, hx.slots_held, fun b hb hw => (hlists b hb hw).nodup,
    fun b hb hw i => (hlists b hb hw).mem_iff i⟩

end DtProof

open DtProof in
/-- In every run in which no upgrade succeeds on a word that has gone round, no entry is held
twice, and the free list of a bucket nobody has locked lists the entries that are not held. -/
theorem concurrent_safe {storage : ℕ → ℕ → ω} {T₀ : Table ω}
    (h₀ : DerefTable.construct L X storage = some T₀)
    {c : Machine.Cfg (DtOp ω) (Shared L ω) ℕ (DtCall L ω) (DtRet L)}
    (hc : ((dtMachine L X).restrict fun t o x => NoWrap t o x).Steps (Machine.idleCfg ⟨T₀, []⟩) c) :
    c.st.Safe L X := by
  obtain ⟨hwf, hheld⟩ := DerefTable.construct_eq_some h₀
  have hinv : DtInv X ((⟨T₀, []⟩ : Shared L ω), (⟨fun _ => none, fun _ => none⟩ : DtGhost)) := by
    refine ⟨fun b => ?_, fun b hb _ => hwf.lists b hb, hwf.held_nodup, hwf.held_lt,
      List.nodup_nil, ?_, ?_, ?_, ?_⟩
    · simpa using hwf.quiet b
    all_goals simp [Shared.slots]
  have hidle : ∀ t, (dtProtocol X).idle t
      ((⟨T₀, []⟩ : Shared L ω), (⟨fun _ => none, fun _ => none⟩ : DtGhost)) :=
      fun t => ⟨rfl, by simp⟩
  obtain ⟨g, hg, -⟩ := Protocol.sound (P := dtProtocol X) hinv hidle calls hc
  exact DtInv.safe hg

/-! ### One bucket with seven entries -/

namespace WrapAround

/-- `TinyPtr<uint8_t, 4>`: seven entries to a bucket. -/
def layout : Layout := .byte 4 (by decide)

/-- One bucket. -/
def oneBucket : BucketIndexer := ⟨1, fun _ => 0, by decide, fun _ => by decide⟩

/-- Objects of one byte. -/
def oneByte : ObjectType layout := ⟨1, by decide⟩

/-- Storage that nobody has written. -/
def zeros : oneByte.Bytes := fun _ => 0

theorem bounded : TinyPtr.Bounded layout := (TinyPtr.bounded_iff layout).mpr (.inl (by decide))

theorem exists_construct :
    ∃ T₀, DerefTable.construct layout oneBucket (fun _ _ => zeros) = some T₀ := by
  rw [← Option.ne_none_iff_exists', Ne, DerefTable.construct_eq_none]
  decide

/-- What an allocation of entry `i` with this special value returns. -/
def allocationOf (i special : ℕ) : Allocation layout := ⟨.ofFields i special false, (0, 0), ⟨0, i⟩⟩

/-- Thread `1` takes entry `0` while thread `0` is reading, so that this has to begin again. Thread
`0` then waits while thread `1` puts that entry back, and takes it. -/
def schedule : List (Machine.Turn ℕ (DtCall layout oneByte.Bytes)) :=
  [.call 0 (.allocate (0, 0) 3), .goes 0 7, .call 1 (.allocate (0, 0) 9), .goes 1 20, .returns 1,
    .goes 0 40, .returns 0, .call 1 (.write (allocationOf 0 9) fun _ => 77), .returns 1,
    .call 1 (.free (allocationOf 0 9)), .goes 1 3, .call 0 (.allocate (0, 0) 15), .goes 0 40,
    .goes 1 20, .returns 1, .goes 0 40, .returns 0]

/-- What is seen of a configuration: what the clients have, what is held, and whether a thread is in
a call. -/
def seen (c : Machine.Cfg (DtOp oneByte.Bytes) (Shared layout oneByte.Bytes) ℕ
      (DtCall layout oneByte.Bytes) (DtRet layout)) :
    List (Allocation layout) × List Slot × Bool × Bool :=
  (c.st.owned, c.st.table.held, (c.run 0).isSome, (c.run 1).isSome)

theorem concurrent_safe_schedule :
    ∃ (T₀ : Table oneByte.Bytes) (c : _),
      DerefTable.construct layout oneBucket (fun _ _ => zeros) = some T₀ ∧
      ((dtMachine layout oneBucket).restrict fun t o x => NoWrap t o x).Steps
        (Machine.idleCfg ⟨T₀, []⟩) c ∧ seen c = ([allocationOf 0 15, allocationOf 1 3],
      [⟨0, 0⟩, ⟨0, 1⟩], false, false) ∧ c.st.Safe layout oneBucket := by
  obtain ⟨T₀, h₀⟩ := exists_construct
  let E := (dtExecutor layout (ω := oneByte.Bytes) oneBucket).restrict (fun t o x => NoWrap t o x)
    (fun t o x => checkNoWrap t o x) noWrap_of_check
  have hplay : ((DerefTable.construct layout oneBucket fun _ _ => zeros).bind fun T =>
      (E.play schedule (Machine.idleCfg ⟨T, []⟩)).map seen) =
        some ([allocationOf 0 15, allocationOf 1 3], [⟨0, 0⟩, ⟨0, 1⟩], false, false) := by decide
  rw [h₀, Option.bind_some] at hplay
  obtain ⟨c, hc, hseen, -⟩ := E.exists_steps schedule seen hplay
  exact ⟨T₀, c, h₀, hc, hseen, concurrent_safe oneBucket h₀ hc⟩

end WrapAround

/-! ### A word that goes round

One bucket with seven entries. Thread `0` reads the head `0` and its link `1`, and is delayed.
Thread `1` takes the entries `0`, `1` and `2`, puts `0` back, and takes it and puts it back 62 times
more: 128 critical sections. Thread `0` then upgrades, takes `0`, and makes `1` the head, which
thread `1` holds; the next call returns it a second time. -/

namespace WrapAround

variable {ω : Type} [Storage layout ω] {T T' : Table ω} {t v c i j : ℕ}

/-- The lock word, the counter and the head of the bucket. -/
structure At (v c i : ℕ) (T : Table ω) : Prop where
  quiet : T.Quiet
  version : (T.bucket 0).version = v
  count : (T.bucket 0).freeSlotCount = c
  head : (T.bucket 0).freeSlotIndex = i

/-- The next links of the bucket. -/
abbrev link (T : Table ω) : ℕ → ℕ := (T.bucket 0).links layout

/-- What an allocation of entry `i` returns. -/
def allocation (i : ℕ) : Allocation layout := ⟨.ofFields i 0 false, (0, 0), ⟨0, i⟩⟩

theorem At.allocate (hT : At v c i T) (hc : c ≠ 0) (hc' : c ≤ 7) :
    ∃ T', T.allocate layout oneBucket t (0, 0) 0 = (.ok (.ofFields i 0 false, ⟨0, i⟩), T') ∧
      At (v + 2) (c - 1) (link T i) T' ∧ link T' = link T := by
  have h0 : ¬ (T.bucket 0).freeSlotCount = 0 := hT.count ▸ hc
  have hbit : T.hashBit oneBucket (0, 0) = false := by simp [Table.hashBit]
  have heven := hT.quiet 0
  have hcount : (c + (2 ^ layout.bucketIndexWidth - 1)) % 2 ^ layout.bucketIndexWidth = c - 1 := by
    rw [show 2 ^ layout.bucketIndexWidth = 256 by rfl]
    omega
  have hquiet : (T.modify 0 (Bucket.take layout)).Quiet := by
    refine hT.quiet.modify ?_
    simp only [Bucket.take]
    omega
  have hval : T.allocate layout oneBucket t (0, 0) 0 = (.ok (.ofFields i 0 false, ⟨0, i⟩),
      { T.modify 0 (Bucket.take layout) with
        held := T.headSlot 0 :: T.held
        threadCounters := Table.modifyLocal Table.incremented t T.threadCounters }) := by
    unfold Table.allocate Table.chosen Table.take Table.headSlot
    rw [hbit]
    rw [if_neg Bool.false_ne_true, show oneBucket.index (0, 0).1 = 0 from rfl, if_neg h0, hT.head]
  refine ⟨_, hval, ⟨hquiet, ?_, ?_, ?_⟩, ?_⟩
  · simp [Bucket.take, hT.version]
  · simp [Bucket.take, hT.count, hcount]
  · simp [Bucket.take, hT.head, link, Bucket.links]
  · simp only [link, Table.modify_bucket_self]
    rfl

theorem slotOf_allocation (hi : i < 7) :
    DerefTable.slotOf oneBucket (allocation i).ptr (allocation i).hashes = ⟨0, i⟩ := by
  have hlt : i < layout.entriesPerBinCount := hi
  unfold DerefTable.slotOf allocation
  rw [TinyPtr.index_ofFields hlt (by decide)]
  rfl

theorem At.free (hT : At v c i T) (hc : c < 7) (hi : i < 7) (hj : j < 7) :
    let T' := T.free layout oneBucket t (allocation j).ptr (allocation j).hashes
    At (v + 2) (c + 1) j T' ∧ link T' = Function.update (link T) j i := by
  have hcount : (c + 1) % 2 ^ layout.bucketIndexWidth = c + 1 := by
    rw [show 2 ^ layout.bucketIndexWidth = 256 by rfl]
    omega
  have heven := hT.quiet 0
  have hquiet : (T.modify 0 fun B => B.give layout j).Quiet := by
    refine hT.quiet.modify ?_
    simp only [Bucket.give]
    omega
  unfold Table.free
  rw [slotOf_allocation hj]
  refine ⟨⟨hquiet, ?_, ?_, ?_⟩, ?_⟩
  · simp [Table.give, Bucket.give, hT.version]
  · simp [Table.give, Bucket.give, hT.count, hcount]
  · simp [Table.give, Bucket.give]
  · have hlt : i < layout.entriesPerBinCount := hi
    simp only [link, Table.give, Table.modify_bucket_self, Bucket.give]
    rw [Bucket.links_setLink (hT.head ▸ hlt), hT.head]
    rfl

/-- A configuration of the threads. -/
abbrev Cfg (ω : Type) := Machine.Cfg (DtOp ω) (Shared layout ω) ℕ (DtCall layout ω) (DtRet layout)

/-- The machine of the example. -/
abbrev machine (ω : Type) [Storage layout ω] :
    Machine (DtOp ω) (Shared layout ω) ℕ (DtCall layout ω) (DtRet layout) :=
  dtMachine layout oneBucket

variable {run : ℕ → Option (DtCall layout ω × Prog (DtOp ω) (DtRet layout))}
  (owned : List (Allocation layout))

/-- A whole call of a thread, while the others wait. -/
theorem steps_call {a : DtCall layout ω} {r : DtRet layout} {y z : Shared layout ω}
    (hrun : run t = none) (hinv : (machine ω).invoke t a ⟨T, owned⟩ y)
    (hcode : Runs (dtHandler layout t) ((machine ω).code a) y.table r T')
    (hfin : (machine ω).finish t a r ⟨T', y.owned⟩ z) :
    (machine ω).Steps ⟨⟨T, owned⟩, run⟩ ⟨z, run⟩ := by
  have h₁ : (machine ω).Step ⟨⟨T, owned⟩, run⟩ (Machine.Cfg.put ⟨⟨T, owned⟩, run⟩ t y
    (some (a, (machine ω).code a))) :=
    .invoke hrun hinv
  have h₂ := Machine.steps_of_reaches (machine ω) (fun T =>
    (⟨T, y.owned⟩ : Shared layout ω)) (t := t) (fun o s b s' h => ⟨h, rfl⟩) ⟨⟨T, owned⟩, run⟩
      (a := a) hcode.reaches
  have h₃ := Machine.Step.finish (M := machine ω) (c := Machine.Cfg.put ⟨⟨T, owned⟩,
    run⟩ t ⟨T', y.owned⟩ (some (a, .ret r))) (Machine.Cfg.put_run_self ..) hfin
  have hput : (Machine.Cfg.put (Machine.Cfg.put ⟨⟨T, owned⟩, run⟩ t ⟨T', y.owned⟩
    (some (a, .ret r))) t z none : Cfg ω) =
      ⟨z, run⟩ := by
    rw [Machine.Cfg.put_put, Machine.Cfg.put, ← hrun, Function.update_eq_self]
  rw [hput] at h₃
  exact .head h₁ (h₂.tail h₃)

theorem steps_allocate (hrun : run t = none) (hT : At v c i T) (hc : c ≠ 0) (hc' : c ≤ 7)
    (hi : i < 7) :
    ∃ T', (machine ω).Steps ⟨⟨T, owned⟩, run⟩ ⟨⟨T', allocation i :: owned⟩, run⟩ ∧
      At (v + 2) (c - 1) (link T i) T' ∧ link T' = link T := by
  obtain ⟨T', hval, hT', hlink⟩ := hT.allocate (t := t) hc hc'
  refine ⟨T', steps_call owned (a := .allocate (0, 0) 0) (y := ⟨T, owned⟩)
    (r := .allocated (.ok (.ofFields i 0 false, ⟨0, i⟩))) hrun ⟨by decide, rfl⟩ ?_ rfl, hT', hlink⟩
  have hhead : (T.bucket (T.chosen oneBucket (0, 0))).freeSlotIndex <
    layout.entriesPerBinCount := by
    rw [show T.chosen oneBucket (0, 0) = 0 from ite_self _, hT.head]
    exact hi
  have hpasses : T.Passes layout oneBucket (T.chosen oneBucket (0, 0)) := by
    unfold Table.Passes
    rw [show T.chosen oneBucket (0, 0) = 0 from ite_self _, hT.count, if_neg hc]
    exact bounded
  show Runs _ (Prog.bind _ _) _ _ _
  rw [runs_bind]
  exact ⟨_, T', (Table.runs_allocate hT.quiet (fun _ => hhead) (by decide)).mpr ⟨hpasses, hval⟩,
    (runs_ret _).mpr ⟨rfl, rfl⟩⟩

theorem steps_free (hrun : run t = none) (hT : At v c i T) (hc : c < 7) (hi : i < 7) (hj : j < 7)
    (hmem : allocation j ∈ owned) :
    ∃ T', (machine ω).Steps ⟨⟨T, owned⟩, run⟩ ⟨⟨T', owned.erase (allocation j)⟩, run⟩ ∧
      At (v + 2) (c + 1) j T' ∧ link T' = Function.update (link T) j i := by
  obtain ⟨hT', hlink⟩ := hT.free (t := t) hc hi hj
  refine ⟨_, steps_call owned (a := .free (allocation j))
    (y := ⟨T, owned.erase (allocation j)⟩) (r := .done) hrun ⟨hmem, rfl⟩ ?_ rfl, hT', hlink⟩
  show Runs _ (Prog.bind _ _) _ _ _
  rw [runs_bind]
  exact ⟨(), _, (Table.runs_free hT.quiet).mpr rfl, (runs_ret _).mpr ⟨rfl, rfl⟩⟩

/-- Taking and putting back the head `0`, any number of times. -/
theorem steps_cycles (hrun : run t = none) (n : ℕ) (hT : At v c 0 T) (hc : c ≠ 0) (hc' : c ≤ 7)
    (hl : link T 0 = 3) :
    ∃ T', (machine ω).Steps ⟨⟨T, owned⟩, run⟩ ⟨⟨T', owned⟩, run⟩ ∧ At (v + 4 * n) c 0 T' ∧
      link T' = link T := by
  induction n with
  | zero => exact ⟨T, .refl, hT, rfl⟩
  | succ n ih =>
    obtain ⟨T₁, hs₁, hT₁, hl₁⟩ := ih
    obtain ⟨T₂, hs₂, hT₂, hl₂⟩ := steps_allocate owned hrun hT₁ hc hc' (by decide)
    rw [hl₁, hl] at hT₂
    obtain ⟨T₃, hs₃, hT₃, hl₃⟩ := steps_free (j := 0) (allocation 0 :: owned) hrun hT₂ (by omega)
      (by decide) (by decide) List.mem_cons_self
    rw [List.erase_cons_head] at hs₃
    rw [Nat.sub_add_cancel (Nat.pos_of_ne_zero hc),
      show v + 4 * n + 2 + 2 = v + 4 * (n + 1) by ring] at hT₃
    refine ⟨T₃, (hs₁.trans hs₂).trans hs₃, hT₃, ?_⟩
    rw [hl₃, hl₂, hl₁, ← hl, Function.update_eq_self]

/-- The reader reads the head `0` and its link `1`, and goes on after the word has gone round. -/
theorem reaches_attempt (hT : At 0 7 0 T) (hl : link T 0 = 1)
    (k : Unit ⊕ Except OverflowError (TinyPtr layout × Slot) → Prog (DtOp ω) (DtRet layout)) :
    ∃ P, Reaches (dtHandler layout 0)
        (Prog.bind (DerefTable.attempt layout ω oneBucket 0 false 0 ⟨0, 0⟩ ⟨0, 0⟩) k) T P T ∧
      ∀ T', At 256 5 0 T' → ∃ T'', At 258 4 1 T'' ∧
        ∀ r T₁, Runs (dtHandler layout 0) (k (.inr (.ok (.ofFields 0 0 false, ⟨0, 0⟩)))) T'' r T₁ →
          Runs (dtHandler layout 0) P T' r T₁ := by
  have hhead : DtOp.exec layout 0 (.loadFreeSlotIndex 0) T = some (0, T) := by
    simp [DtOp.exec, hT.head]
  have hnext : DtOp.exec layout 0 (.getNextFreeSlotIndex 0 0) T = some (1, T) := by
    have h1 : Storage.getLink layout ((T.bucket 0).entries 0) = 1 := hl
    simp [DtOp.exec, h1]
  refine ⟨_, .head (.call hhead) (.head (.call hnext) .refl), fun T' hT' => ?_⟩
  have hcount : (5 + (2 ^ layout.bucketIndexWidth - 1)) % 2 ^
    layout.bucketIndexWidth = 4 := by decide
  let f : Bucket ω → Bucket ω := fun B => { B with
    version := B.version + 1 + 1
    freeSlotCount := (B.freeSlotCount + (2 ^ layout.bucketIndexWidth - 1)) % 2 ^
      layout.bucketIndexWidth
    freeSlotIndex := 1 }
  have hquiet : (T'.modify 0 f).Quiet := hT'.quiet.modify (by simp [f, hT'.version])
  refine ⟨{ T'.modify 0 f with
      held := ⟨0, 0⟩ :: T'.held
      threadCounters := Table.modifyLocal Table.incremented 0 T'.threadCounters },
    ⟨hquiet, ?_, ?_, ?_⟩, fun r T₁ hr => ?_⟩
  · simp [f, hT'.version]
  · simp [f, hT'.count, hcount]
  · simp [f]
  · have hassert : DerefTable.assert ω (decide (0 < layout.entriesPerBinCount)) = .ret () := rfl
    have hvalue : DerefTable.value ω (TinyPtr.construct layout 0 0 false) =
      .ret (.ofFields 0 0 false) := by
      rw [TinyPtr.construct_eq bounded (by decide) (by decide)]
      rfl
    simp [DerefTable.takeHead, op, dtHandler, DtOp.exec, OptimisticLock.lockedVersion,
      lockWord, hT'.version, hT'.count, hassert, hvalue, Table.recordHeld]
    exact hr

/-- Before the word has gone round the reader has read; afterwards it takes the entry `0`. -/
theorem reaches_reader (hT : At 0 7 0 T) (hl : link T 0 = 1) :
    ∃ P, Reaches (dtHandler layout 0) (dtCode layout oneBucket (.allocate (0, 0) 0)) T P T ∧
      ∀ T', At 256 5 0 T' → ∃ T'', At 258 4 1 T'' ∧
        Runs (dtHandler layout 0) P T' (.allocated (.ok (.ofFields 0 0 false, ⟨0, 0⟩))) T'' := by
  have hlock : DtOp.exec layout 0 (.lockOptimistically (oneBucket.index 0)) T =
    some (⟨0, 0⟩, T) := by
    have hv : (T.bucket (oneBucket.index 0)).version = 0 := hT.version
    simp only [DtOp.exec, hv]
    rfl
  obtain ⟨P, hP, hrun⟩ := reaches_attempt hT hl
    (again (fun _ => DerefTable.round layout ω oneBucket (0, 0) 0) fun r => .ret (.allocated r))
  refine ⟨P, ?_, fun T' hT' => ?_⟩
  · refine .head .loop (.head (.call hlock)
      (.head (.call hlock) (.head (.call rfl) (.head (.call rfl) ?_))))
    simp only [ret_bind, ge_iff_le, le_refl, if_true]
    exact hP
  · obtain ⟨T'', hT'', hr⟩ := hrun T' hT'
    exact ⟨T'', hT'', hr _ _ ((runs_ret _).mpr ⟨rfl, rfl⟩)⟩

end WrapAround

open WrapAround in
/-- Without the condition on upgrades an entry can be returned to a second client while the first
still holds it. -/
theorem concurrent_unsafe :
    ¬ ∀ (L : Layout) (τ : ObjectType L) (X : BucketIndexer) (storage : ℕ → ℕ → τ.Bytes)
      (T₀ : Table τ.Bytes), DerefTable.construct L X storage = some T₀ →
      ∀ c, (dtMachine L X).Steps (Machine.idleCfg ⟨T₀, []⟩) c → c.st.Safe L X := by
  intro hsafe
  obtain ⟨T₀, h₀⟩ := exists_construct
  have hfresh := DerefTable.construct_fresh h₀ 0 (by decide)
  have hT₀ : At 0 7 0 T₀ :=
    ⟨(DerefTable.construct_eq_some h₀).1.quiet, hfresh.version, hfresh.count, hfresh.head⟩
  have hlink : ∀ i, i < 6 → link T₀ i = i + 1 := fun i hi => hfresh.links i (Nat.succ_lt_succ hi)
  -- thread 0 reads, and is delayed
  obtain ⟨P, hP, hgo⟩ := reaches_reader hT₀ (hlink 0 (by decide))
  let idle : ℕ → Option (DtCall layout oneByte.Bytes × Prog (DtOp oneByte.Bytes) (DtRet layout)) :=
    fun _ => none
  let call : DtCall layout oneByte.Bytes := .allocate (0, 0) 0
  let run := Function.update idle 0 (some (call, P))
  have s₁ : (machine oneByte.Bytes).Steps ⟨⟨T₀, []⟩, idle⟩ ⟨⟨T₀, []⟩, run⟩ := by
    have hinv : (machine oneByte.Bytes).Step ⟨⟨T₀, []⟩, idle⟩ _ :=
      .invoke (t := 0) (a := call) rfl ⟨by decide, rfl⟩
    exact .head hinv (Machine.steps_of_reaches (machine oneByte.Bytes) (fun T =>
      (⟨T, []⟩ : Shared layout oneByte.Bytes)) (fun o s b s' h => ⟨h, rfl⟩) ⟨⟨T₀, []⟩, idle⟩ hP)
  -- thread 1 takes 0, 1 and 2, and puts 0 back
  have hrun : run 1 = none := rfl
  obtain ⟨T₁, s₂, hT₁, hl₁⟩ := steps_allocate [] hrun hT₀ (by decide) (by decide) (by decide)
  rw [hlink 0 (by decide)] at hT₁
  obtain ⟨T₂, s₃, hT₂, hl₂⟩ := steps_allocate [allocation 0] hrun hT₁ (by decide)
    (by decide) (by decide)
  rw [hl₁, hlink 1 (by decide)] at hT₂
  obtain ⟨T₃, s₄, hT₃, hl₃⟩ :=
    steps_allocate [allocation 1, allocation 0] hrun hT₂ (by decide) (by decide) (by decide)
  rw [hl₂, hl₁, hlink 2 (by decide)] at hT₃
  obtain ⟨T₄, s₅, hT₄, hl₄⟩ := steps_free (j := 0) [allocation 2, allocation 1,
    allocation 0] hrun hT₃ (by decide) (by decide) (by decide) (by simp)
  have herase : [allocation 2, allocation 1, allocation 0].erase (allocation 0) = [allocation 2,
    allocation 1] := by
    decide
  rw [herase] at s₅
  -- it takes 0 and puts it back, until the word has gone round
  obtain ⟨T₅, s₆, hT₅, -⟩ := steps_cycles [allocation 2, allocation 1] hrun 62 hT₄
    (by decide) (by decide)
    (by rw [hl₄, Function.update_self])
  -- thread 0 takes 0 and makes 1 the head, and thread 1 takes it again
  obtain ⟨T₆, hT₆, hruns⟩ := hgo T₅ hT₅
  have s₇ : (machine oneByte.Bytes).Steps ⟨⟨T₅, [allocation 2, allocation 1]⟩, run⟩
      ⟨⟨T₆, [allocation 0, allocation 2, allocation 1]⟩, idle⟩ := by
    have h := Machine.steps_of_reaches (machine oneByte.Bytes)
      (fun T => (⟨T, [allocation 2, allocation 1]⟩ : Shared layout oneByte.Bytes)) (t := 0)
      (fun o s b s' h => ⟨h, rfl⟩) ⟨⟨T₅, [allocation 2, allocation 1]⟩, idle⟩
      (a := call) hruns.reaches
    have hret : (machine oneByte.Bytes).finish 0 call
      (.allocated (.ok (.ofFields 0 0 false, ⟨0, 0⟩)))
        ⟨T₆, [allocation 2, allocation 1]⟩ ⟨T₆, [allocation 0, allocation 2, allocation 1]⟩ := rfl
    have hfin := Machine.Step.finish (M := machine oneByte.Bytes)
      (c := Machine.Cfg.put ⟨⟨T₅, [allocation 2, allocation 1]⟩, idle⟩ 0 ⟨T₆,
      [allocation 2, allocation 1]⟩
        (some (call, .ret (.allocated (.ok (.ofFields 0 0 false, ⟨0, 0⟩))))))
        (Machine.Cfg.put_run_self ..) hret
    have hput : Machine.Cfg.put ⟨⟨T₅, [allocation 2, allocation 1]⟩, idle⟩ 0
        (⟨T₆, [allocation 0, allocation 2, allocation 1]⟩ : Shared layout oneByte.Bytes) none =
          ⟨⟨T₆, [allocation 0, allocation 2, allocation 1]⟩, idle⟩ := by
      rw [Machine.Cfg.put, Function.update_eq_self]
    rw [Machine.Cfg.put_put, hput] at hfin
    exact h.tail hfin
  obtain ⟨T₇, s₈, -, -⟩ := steps_allocate [allocation 0, allocation 2, allocation 1]
    (show idle 1 = none from rfl) hT₆ (by decide) (by decide) (by decide)
  have hreach := (((((((s₁.trans s₂).trans s₃).trans s₄).trans s₅).trans s₆).trans s₇)).trans s₈
  have hnodup : ([allocation 1, allocation 0, allocation 2, allocation 1].map
    Allocation.slot).Nodup :=
    (hsafe layout oneByte oneBucket _ T₀ h₀ _ hreach).slots_nodup
  revert hnodup
  decide

end TinyPointerTrees
