import TinyPointerTrees.Library.Typestate
import TinyPointerTrees.TinyPtr.Concurrent

/-!
# Threads get on

Calls of `allocate` and `free` wait for locks, and `allocate` goes back to `retry` when a lock word
is not what it was. If the bucket it has locked is full, it adds the counters of all threads before
it throws. Words may go round here, and a call may stop at an assertion.

* `derefTable_never_deadlocked` — in every configuration of every run a thread in a call is not
  blocked, or it has stopped, or it waits for a bucket that another thread has locked. If there are
  `n` counters, that thread unlocks it with at most `5 + n` operations of its own, unless it stops.
* `derefTable_ops_le` — a call does at most `13 + n` operations, and eight more for each time that
  another thread has locked a bucket in the meantime.
* `derefTable_work_le` — so the operations of all calls are bounded by the number of calls, of
  counters and of threads.

An operation that waits is counted once, when it is done.
-/

namespace TinyPointerTrees

open Conc Conc.Prog

variable {L : Layout} {ω α β : Type}

/-- Where a thread is in its call. -/
structure Place where
  /-- The operations that are left, if it does not go back to `retry`. -/
  rest : ℕ
  /-- The optimistic locks of this round. -/
  locks : List OptimisticLock
  /-- The bucket it has locked. -/
  holds : Option ℕ
  /-- It has locked no bucket in this call. -/
  fresh : Bool
  /-- It has just begun a round of a loop. -/
  turned : Bool

namespace Place

/-- In no call. -/
def idle : Place := ⟨0, [], none, false, false⟩

/-- At `retry`, where there are `N` counters: eight operations up to the upgrade, and `5 + N` from
then on. -/
def retry (N : ℕ) : Place := ⟨13 + N, [], none, true, false⟩

/-- It may do an operation here. Who has locked a bucket waits for no other. -/
def Allows (N : ℕ) : {β : Type} → DtOp ω β → Place → Prop
  | _, .lockOptimistically _, h => 0 < h.rest ∧ h.holds = none
  | _, .lockExclusive _, h => 0 < h.rest ∧ h.rest ≤ 7 + N ∧ h.holds = none ∧ h.fresh
  | _, .validate l, h => 6 + N ≤ h.rest ∧ h.holds = none ∧ l ∈ h.locks
  | _, .tryUpgradeToExclusive l, h =>
    6 + N ≤ h.rest ∧ h.rest ≤ 7 + N ∧ h.holds = none ∧ h.fresh ∧ l ∈ h.locks
  | _, .unlock b _, h => 1 < h.rest ∧ h.holds = some b
  | _, .countersEnd, h => 3 + N < h.rest
  | _, .incrementSize, h => 0 < h.rest ∧ h.holds = none
  | _, .decrementSize, h => 0 < h.rest ∧ h.holds = none
  | _, .stop, _ => True
  | _, _, h => 0 < h.rest ∧ (h.holds ≠ none → 1 < h.rest)

/-- After an operation with this answer. -/
def after (N : ℕ) : {β : Type} → DtOp ω β → Place → β → Place
  | _, .lockOptimistically _, h, l =>
      { h with rest := h.rest - 1, locks := l :: h.locks, turned := false }
  | _, .lockExclusive b, h, _ => ⟨h.rest - 1, [], some b, false, false⟩
  | _, .validate _, h, ok =>
    if ok then { h with rest := h.rest - 1, turned := false }
    else ⟨13 + N, [], none, h.fresh, false⟩
  | _, .tryUpgradeToExclusive l, h, ok =>
    if ok then ⟨h.rest - 1, [], some l.bucket, false, false⟩ else ⟨13 + N, [], none, h.fresh, false⟩
  | _, .unlock _ _, h, _ => ⟨h.rest - 1, [], none, h.fresh, false⟩
  -- the counters, the assertion and `unlock`
  | _, .countersEnd, h, n => { h with rest := 3 + n, turned := false }
  | _, _, h, _ => { h with rest := h.rest - 1, turned := false }

end Place

/-- What an operation answers if there are at most `N` counters, as far as it does not depend on the
rest of the state. -/
def DtOp.Answers (N : ℕ) : {β : Type} → DtOp ω β → β → Prop
  | _, .lockOptimistically b, l => l.bucket = b
  | _, .countersEnd, n => n ≤ N
  | _, _, _ => True

/-- An operation that locks a bucket. -/
def DtOp.locking : {β : Type} → DtOp ω β → β → ℕ
  | _, .lockExclusive _, _ => 1
  | _, .tryUpgradeToExclusive _, ok => ok.toNat
  | _, _, _ => 0

variable (L ω) in
/-- The calls of the table. -/
def tablePlaces (N : ℕ) : Typestate (DtOp ω) (DtCall L ω) Place where
  idle := .idle
  start
    | .allocate _ _ => .retry N
    | .free _ => ⟨7, [], none, true, false⟩
    | .write _ _ => .idle
  allows o h := h.Allows N o
  next o h b h' := o.Answers N b ∧ h' = h.after N o b
  turns h h' := 0 < h.rest ∧ h.turned = false ∧ h' = { h with turned := true }
  ends h := h.holds = none

namespace Place

variable {X : BucketIndexer} {N : ℕ}

/-- A step of a typed program whose answer is known to be in order. -/
theorem typed_op {o : DtOp ω β} {k : β → Prog (DtOp ω) α} {h : Place} {Q : α → Place → Prop}
    (ho : h.Allows N o)
    (hk : ∀ b, o.Answers N b → (tablePlaces L ω N).Typed (k b) (h.after N o b) Q) :
    (tablePlaces L ω N).Typed (.call o k) h Q := by
  refine ⟨ho, ?_⟩
  rintro b _ ⟨hb, rfl⟩
  exact hk b hb

/-- A program goes on from an expression that has a value. -/
theorem typed_value {v : Option α} {k : α → Prog (DtOp ω) β} {h : Place} {Q : β → Place → Prop}
    (hk : ∀ a, (tablePlaces L ω N).Typed (k a) h Q) :
    (tablePlaces L ω N).Typed (DerefTable.value ω v >>= k) h Q := by
  cases v with
  | some a => exact hk a
  | none => exact typed_op trivial fun b _ => b.elim

/-- The loop of `size()` has as many rounds as there were counters when it began. -/
theorem typed_size {b : ℕ} :
    (tablePlaces L ω N).Typed (DerefTable.size L ω X) ⟨4 + N, [], some b, false, false⟩
      fun _ h => h = ⟨2, [], some b, false, false⟩ := by
  refine typed_op (by simp [Allows]) fun n hn => ?_
  refine ⟨fun p h => p.1 ≤ n ∧ h = ⟨3 + (n - p.1), [], some b, false, false⟩,
    ⟨Nat.zero_le n, rfl⟩, ?_⟩
  rintro ⟨i, sum⟩ _ ⟨hi, rfl⟩
  refine ⟨_, ⟨by simp, rfl, rfl⟩, ?_⟩
  by_cases hin : i < n
  · rw [DerefTable.sizeRound, if_pos hin]
    refine typed_op ⟨by simp, fun _ => by simp; omega⟩ fun c _ => ⟨hin, ?_⟩
    simp only [after, Place.mk.injEq, and_true]
    omega
  · rw [DerefTable.sizeRound, if_neg hin]
    obtain rfl : i = n := by omega
    refine typed_op ⟨by simp, fun _ => by simp⟩ fun holds _ => ?_
    refine typed_value fun _ => ?_
    simp [after, Typestate.Typed]

theorem typed_takeHead {b object link : ℕ} {bit : Bool} {special : ℕ} :
    (tablePlaces L ω N).Typed (DerefTable.takeHead L ω X b bit special object link)
    ⟨5 + N, [], some b, false, false⟩
      fun _ h => h.holds = none := by
  refine typed_op ⟨by dsimp only; omega, fun _ => by dsimp only; omega⟩ fun count _ => ?_
  by_cases h0 : count = 0
  · rw [ret_bind, if_pos h0]
    apply Typestate.Typed.bind
    have hrest : 5 + N - 1 = 4 + N := by omega
    simp only [after, hrest]
    apply typed_size.mono
    rintro size _ rfl
    exact typed_op ⟨by simp, rfl⟩ fun _ _ => rfl
  · rw [ret_bind, if_neg h0]
    refine typed_value fun _ => ?_
    refine typed_op ⟨by dsimp only [after]; omega, fun _ => by dsimp only [after]; omega⟩
      fun _ _ => ?_
    refine typed_op ⟨by dsimp only [after]; omega, fun _ => by dsimp only [after]; omega⟩
      fun _ _ => ?_
    refine typed_op ⟨by dsimp only [after]; omega, rfl⟩ fun _ _ => ?_
    refine typed_op ⟨by dsimp only [after]; omega, rfl⟩ fun _ _ => ?_
    exact typed_value fun _ => rfl

/-- It is again at `retry`, or it has let go of the bucket. -/
def RoundPost {δ : Type} (N : ℕ) (r : Unit ⊕ δ) (h : Place) : Prop :=
  Sum.elim (fun _ => h = retry N) (fun _ => h.holds = none) r

theorem typed_attempt {b : ℕ} {bit : Bool} {special : ℕ}
    {locks : List OptimisticLock} {own other : OptimisticLock}
    (hown : own ∈ locks) (hother : other ∈ locks) (hb : own.bucket = b) :
    (tablePlaces L ω N).Typed (DerefTable.attempt L ω X b bit special own other) ⟨9 + N, locks,
      none, true, false⟩
      (RoundPost N) := by
  subst hb
  refine typed_op ⟨by simp, by simp⟩ fun object _ => ?_
  refine typed_op ⟨by dsimp only [after]; omega, by simp [after]⟩ fun link _ => ?_
  refine typed_op ⟨by dsimp only [after]; omega, rfl, hother⟩ fun valid _ => ?_
  cases valid with
  | false => exact rfl
  | true =>
    have hrest : 9 + N - 1 - 1 - 1 = 6 + N := by omega
    simp only [after, if_true, hrest]
    refine typed_op ⟨le_rfl, by dsimp only; omega, rfl, rfl, hown⟩ fun upgraded _ => ?_
    cases upgraded with
    | false => exact rfl
    | true =>
      apply Typestate.Typed.bind (p := .ret true)
      apply Typestate.Typed.bind
      have hrest : 6 + N - 1 = 5 + N := by omega
      simp only [after, if_true, hrest]
      apply typed_takeHead.mono
      intro r h hh
      exact hh

theorem typed_round {hashes : TinyPtrHashes} {special : ℕ} :
    (tablePlaces L ω N).Typed (DerefTable.round L ω X hashes special)
    { retry N with turned := true } (RoundPost N) := by
  have hrest : 13 + N - 1 - 1 - 1 - 1 = 9 + N := by omega
  refine typed_op ⟨by simp [retry], rfl⟩ fun l₁ hl₁ => ?_
  refine typed_op ⟨by dsimp only [retry, after]; omega, rfl⟩ fun l₂ hl₂ => ?_
  refine typed_op ⟨by dsimp only [retry, after]; omega, by simp [retry, after]⟩ fun c₁ _ => ?_
  refine typed_op ⟨by dsimp only [retry, after]; omega, by simp [retry, after]⟩ fun c₂ _ => ?_
  simp only [after, retry, hrest]
  by_cases hc : c₁ ≥ c₂
  · rw [ret_bind, if_pos hc]
    exact typed_attempt (List.mem_cons_of_mem _ List.mem_cons_self) List.mem_cons_self hl₁
  · rw [ret_bind, if_neg hc]
    exact typed_attempt List.mem_cons_self (List.mem_cons_of_mem _ List.mem_cons_self) hl₂

/-- The calls do only what is allowed. -/
theorem typed (a : DtCall L ω) :
    (tablePlaces L ω N).Typed (dtCode L X a) ((tablePlaces L ω N).start a) fun _ =>
    (tablePlaces L ω N).ends := by
  cases a with
  | allocate hashes special =>
    refine ⟨fun _ h => h = retry N, rfl, ?_⟩
    rintro _ _ rfl
    refine ⟨_, ⟨by simp [retry], rfl, rfl⟩, typed_round.mono fun r h hr => ?_⟩
    cases r with
    | inl _ => exact hr
    | inr _ => exact hr
  | free a =>
    refine typed_op ⟨by simp [tablePlaces], by simp [tablePlaces], rfl, rfl⟩ fun _ _ => ?_
    refine typed_op ⟨by simp [after, tablePlaces], by simp [after, tablePlaces]⟩ fun _ _ => ?_
    refine typed_op ⟨by simp [after, tablePlaces], by simp [after, tablePlaces]⟩ fun _ _ => ?_
    refine typed_op ⟨by simp [after, tablePlaces], by simp [after, tablePlaces]⟩ fun _ _ => ?_
    refine typed_op ⟨by simp [after, tablePlaces], by simp [after, tablePlaces]⟩ fun _ _ => ?_
    refine typed_op ⟨by simp [after, tablePlaces], rfl⟩ fun _ _ => ?_
    exact typed_op ⟨by simp [after, tablePlaces], rfl⟩ fun _ _ => rfl
  | write a o => exact rfl

end Place

/-! ### What a step does -/

section Steps

variable {X : BucketIndexer} {N : ℕ} {x y : Shared L ω} {τ : ℕ → Place} {h : Place} {t u : ℕ}

/-- The version of a bucket. -/
def Shared.version (x : Shared L ω) (b : ℕ) : ℕ := (x.table.bucket b).version

/-- What a step does to the lock words, and to where its thread is. -/
inductive StepKind (N : ℕ) (x y : Shared L ω) (h h' : Place) : ℕ → Prop where
  /-- It locks a bucket. -/
  | lock {b : ℕ} : 0 < h.rest → h.rest ≤ 7 + N → h.holds = none → h.fresh → x.version b % 2 = 0 →
      y.version = Function.update x.version b (x.version b + 1) →
      h' = ⟨h.rest - 1, [], some b, false, false⟩ → StepKind N x y h h' 1
  /-- It unlocks its bucket. -/
  | unlock {b : ℕ} : 1 < h.rest → h.holds = some b →
      y.version = Function.update x.version b (x.version b + 1) →
      h' = ⟨h.rest - 1, [], none, h.fresh, false⟩ → StepKind N x y h h' 0
  /-- It goes back to `retry`, since a word is not what it was. -/
  | back {l : OptimisticLock} : 6 + N ≤ h.rest → h.holds = none → l ∈ h.locks →
      x.version l.bucket ≠ l.seen → y.version = x.version →
      h' = ⟨13 + N, [], none, h.fresh, false⟩ → StepKind N x y h h' 0
  /-- It goes on. -/
  | tick : y.version = x.version → h'.rest + 1 ≤ h.rest → h'.holds = h.holds → h'.fresh = h.fresh →
      (∀ l ∈ h'.locks, l ∈ h.locks ∨ l.seen % 2 = 0 ∧ x.version l.bucket = l.seen) →
      StepKind N x y h h' 0

theorem Shared.version_modify {b n : ℕ} {f : Bucket ω → Bucket ω}
    (hy : y.table.bucket = (x.table.modify b f).bucket) (hn : (f (x.table.bucket b)).version = n) :
    y.version = Function.update x.version b n := by
  funext c
  rw [Shared.version, hy]
  by_cases hcb : c = b
  · subst hcb
    rw [Table.modify_bucket_self, Function.update_self, hn]
  · rw [Table.modify_bucket_ne _ hcb, Function.update_of_ne hcb, Shared.version]

theorem Shared.version_eq (hy : y.table.bucket = x.table.bucket) : y.version = x.version := by
  funext b
  rw [Shared.version, hy, Shared.version]

/-- A bucket is changed, and its version is not. -/
theorem Shared.version_modify_same {b : ℕ} {f : Bucket ω → Bucket ω}
    (hy : y.table.bucket = (x.table.modify b f).bucket)
    (hf : (f (x.table.bucket b)).version = (x.table.bucket b).version) : y.version = x.version := by
  rw [Shared.version_modify hy hf]
  exact Function.update_eq_self b x.version

theorem StepKind.step {r : ℕ} (hr : r < h.rest) (hv : y.version = x.version) :
    StepKind N x y h { h with rest := r, turned := false } 0 :=
  .tick hv hr rfl rfl fun _ hl => Or.inl hl

/-! ### Who has locked what -/

/-- The locked buckets are those that threads hold. -/
structure Locks (N : ℕ) (x : Shared L ω) (τ : ℕ → Place) : Prop where
  odd : ∀ b, x.version b % 2 = 1 ↔ ∃ t, (τ t).holds = some b
  inj : ∀ t u b, (τ t).holds = some b → (τ u).holds = some b → t = u
  short : ∀ t, (τ t).holds ≠ none → (τ t).rest ≤ 6 + N
  even : ∀ t, ∀ l ∈ (τ t).locks, l.seen % 2 = 0

namespace Locks

/-- Who has locked what, when one thread is elsewhere. -/
theorem holds_update {c : ℕ} :
    (Function.update τ t h u).holds = some c ↔ u = t ∧ h.holds = some c ∨ u ≠ t ∧
      (τ u).holds = some c := by
  by_cases hut : u = t
  · subst hut
    simp
  · simp [hut]

theorem update (hx : Locks N x τ) (hrest : h.holds ≠ none → h.rest ≤ 6 + N)
    (heven : ∀ l ∈ h.locks, l.seen % 2 = 0)
    (hodd : ∀ b, y.version b % 2 = 1 ↔ ∃ u, (Function.update τ t h u).holds = some b)
    (hinj : ∀ b, h.holds = some b → ∀ u ≠ t, (τ u).holds ≠ some b) :
    Locks N y (Function.update τ t h) := by
  refine ⟨hodd, fun u w b hu hw => ?_, ?_, ?_⟩
  · rw [holds_update] at hu hw
    rcases hu with ⟨rfl, hb⟩ | ⟨hut, hu⟩ <;> rcases hw with ⟨rfl, hb'⟩ | ⟨hwt, hw⟩
    · rfl
    · exact absurd hw (hinj b hb w hwt)
    · exact absurd hu (hinj b hb' u hut)
    · exact hx.inj u w b hu hw
  · apply (Function.forall_update_iff τ fun _ p => p.holds ≠ none → p.rest ≤ 6 + N).mpr
    exact ⟨hrest, fun u _ => hx.short u⟩
  · apply (Function.forall_update_iff τ fun _ p => ∀ l ∈ p.locks, l.seen % 2 = 0).mpr
    exact ⟨heven, fun u _ => hx.even u⟩

/-- A step that neither locks nor unlocks. -/
theorem quiet (hx : Locks N x τ) (hv : y.version = x.version) (hholds : h.holds = (τ t).holds)
    (hrest : h.holds ≠ none → h.rest ≤ (τ t).rest) (heven : ∀ l ∈ h.locks, l.seen % 2 = 0) :
    Locks N y (Function.update τ t h) := by
  have hsame : ∀ u, (Function.update τ t h u).holds = (τ u).holds := by
    apply (Function.forall_update_iff τ fun u p => p.holds = (τ u).holds).mpr
    exact ⟨hholds, fun u _ => rfl⟩
  apply hx.update (fun hne => (hrest hne).trans (hx.short t (hholds ▸ hne))) heven
  · intro b
    simp only [hv, hsame]
    exact hx.odd b
  · intro b hb u hut hu
    exact hut (hx.inj u t b hu (hholds ▸ hb))

theorem lock {b r : ℕ} (hx : Locks N x τ) (hr : r ≤ 6 + N) (hb : x.version b % 2 = 0)
    (hnone : (τ t).holds = none) (hv : y.version = Function.update x.version b (x.version b + 1)) :
    Locks N y (Function.update τ t ⟨r, [], some b, false, false⟩) := by
  apply hx.update (fun _ => hr) (by simp)
  · intro c
    simp only [hv, holds_update]
    by_cases hcb : c = b
    · subst hcb
      rw [Function.update_self]
      exact ⟨fun _ => ⟨t, Or.inl ⟨rfl, rfl⟩⟩, fun _ => by omega⟩
    · rw [Function.update_of_ne hcb, hx.odd c]
      constructor
      · rintro ⟨u, hu⟩
        refine ⟨u, Or.inr ⟨?_, hu⟩⟩
        rintro rfl
        cases hnone.symm.trans hu
      · rintro ⟨u, ⟨-, heq⟩ | ⟨-, hu⟩⟩
        · exact absurd (Option.some.inj heq).symm hcb
        · exact ⟨u, hu⟩
  · intro c hc u _ hu
    obtain rfl : b = c := Option.some.inj hc
    have hodd := (hx.odd b).mpr ⟨u, hu⟩
    omega

theorem unlock {b : ℕ} (hx : Locks N x τ) (hb : (τ t).holds = some b) (hh : h.holds = none)
    (hl : h.locks = []) (hv : y.version = Function.update x.version b (x.version b + 1)) :
    Locks N y (Function.update τ t h) := by
  have hodd := (hx.odd b).mpr ⟨t, hb⟩
  apply hx.update (fun hne => absurd hh hne) (by simp [hl])
  · intro c
    simp only [hv, holds_update]
    by_cases hcb : c = b
    · subst hcb
      rw [Function.update_self]
      refine ⟨fun heven => by omega, ?_⟩
      rintro ⟨u, ⟨-, hu⟩ | ⟨hut, hu⟩⟩
      · cases hh.symm.trans hu
      · exact absurd (hx.inj u t c hu hb) hut
    · rw [Function.update_of_ne hcb, hx.odd c]
      constructor
      · rintro ⟨u, hu⟩
        refine ⟨u, Or.inr ⟨?_, hu⟩⟩
        rintro rfl
        exact hcb (Option.some.inj (hu.symm.trans hb))
      · rintro ⟨u, ⟨-, hu⟩ | ⟨-, hu⟩⟩
        · cases hh.symm.trans hu
        · exact ⟨u, hu⟩
  · intro c hc
    cases hh.symm.trans hc

theorem step {n : ℕ} (hx : Locks N x τ) (hk : StepKind N x y (τ t) h n) :
    Locks N y (Function.update τ t h) := by
  cases hk with
  | lock h0 h7 hnone _ hb hv hh =>
    subst hh
    exact hx.lock (by omega) hb hnone hv
  | unlock _ hb hv hh =>
    subst hh
    exact hx.unlock hb rfl rfl hv
  | back _ hb _ _ hv hh =>
    subst hh
    exact hx.quiet hv hb.symm (by simp) (by simp)
  | tick hv hrest hh _ hlocks =>
    refine hx.quiet hv hh (fun _ => by omega) fun l hl => ?_
    rcases hlocks l hl with hl | ⟨heven, -⟩
    · exact hx.even t l hl
    · exact heven

end Locks

theorem locks_initial {T : Table ω} (hT : T.Quiet) :
    Locks N (⟨T, []⟩ : Shared L ω) fun _ => Place.idle := by
  refine ⟨fun b => ?_, ?_, ?_, ?_⟩
  · have hb := hT b
    rw [Shared.version]
    simp [Place.idle, hb]
  all_goals simp [Place.idle]

/-! ### What a step costs -/

/-- A word that the thread has read is not what it was. -/
def Place.Stale (h : Place) (x : Shared L ω) : Prop := ∃ l ∈ h.locks, x.version l.bucket ≠ l.seen

instance Place.decidableStale (h : Place) (x : Shared L ω) : Decidable (h.Stale x) :=
  List.decidableBEx _ _

/-- The operations a thread will do, if no other thread locks a bucket. -/
def Place.debt (x : Shared L ω) (h : Place) : ℕ := h.rest + if h.Stale x then 8 else 0

theorem Place.debt_of_version (hv : y.version = x.version) : h.debt y = h.debt x := by
  simp only [debt, Stale, hv]

theorem Place.debt_le_add : h.debt y ≤ h.debt x + 8 := by
  unfold debt
  split_ifs <;> omega

theorem Place.debt_mono {h' : Place} {m n : ℕ} (hrest : h'.rest + m ≤ h.rest + n)
    (hs : h'.Stale y → h.Stale x) : h'.debt y + m ≤ h.debt x + n := by
  unfold debt
  by_cases hy : h'.Stale y
  · rw [if_pos hy, if_pos (hs hy)]
    omega
  · rw [if_neg hy]
    omega

theorem Place.not_stale {h : Place} (hl : h.locks = []) : ¬ h.Stale x := by
  simp [Stale, hl]

/-- A step pays one operation. -/
theorem StepKind.own {h' : Place} {n : ℕ} (hk : StepKind N x y h h' n) :
    h'.debt y + 1 ≤ h.debt x ∧ h'.fresh.toNat + n ≤ h.fresh.toNat := by
  cases hk with
  | lock h0 _ _ hfresh _ _ hh =>
    subst hh
    rw [hfresh]
    exact ⟨Place.debt_mono (m := 1) (n := 0) (by simp only []; omega) fun hs =>
      absurd hs (Place.not_stale rfl), le_rfl⟩
  | unlock h1 _ _ hh =>
    subst hh
    exact ⟨Place.debt_mono (m := 1) (n := 0) (by simp only []; omega) fun hs =>
      absurd hs (Place.not_stale rfl), le_rfl⟩
  | back h6 _ hl hne _ hh =>
    -- the thread pays for another round with the word that is not what it was
    subst hh
    have hstale : h.Stale x := ⟨_, hl, hne⟩
    refine ⟨?_, le_rfl⟩
    rw [Place.debt, Place.debt, if_pos hstale, if_neg (Place.not_stale rfl)]
    change 13 + N + 0 + 1 ≤ h.rest + 8
    omega
  | tick hv hrest _ hfresh hlocks =>
    rw [hfresh]
    refine ⟨Place.debt_mono (m := 1) (n := 0) hrest fun hs => ?_, le_rfl⟩
    obtain ⟨l, hl, hne⟩ := hs
    rw [hv] at hne
    rcases hlocks l hl with hl | ⟨-, heq⟩
    · exact ⟨l, hl, hne⟩
    · exact absurd heq hne

/-- Only a step that locks a bucket makes another thread go back. -/
theorem StepKind.other {h' : Place} {n : ℕ} (hk : StepKind N x y (τ t) h' n) (hx : Locks N x τ)
    (u : ℕ) : (τ u).debt y ≤ (τ u).debt x + 8 * n := by
  cases hk with
  | lock => exact Place.debt_le_add
  | @unlock b _ hb hv _ =>
    have hodd := (hx.odd b).mpr ⟨t, hb⟩
    refine Place.debt_mono (m := 0) (n := 0) le_rfl fun hs => ?_
    obtain ⟨l, hl, hne⟩ := hs
    refine ⟨l, hl, fun hseen => ?_⟩
    have heven := hx.even u l hl
    by_cases hlb : l.bucket = b
    · rw [hlb] at hseen
      omega
    · rw [hv, Function.update_of_ne hlb] at hne
      exact hne hseen
  | back _ _ _ _ hv _ => exact (Place.debt_of_version hv).le
  | tick hv => exact (Place.debt_of_version hv).le

/-! ### The operations -/

variable [Storage L ω]

theorem lockWord_mod (n : ℕ) : lockWord n % 2 = n % 2 := by
  unfold lockWord
  omega

/-- What an allowed operation does. -/
theorem step_kind {o : DtOp ω β} {a : β} (hs : (dtMachine L X).sem t o x a y)
    (hN : y.table.threadCounters.length ≤ N) (ho : h.Allows N o)
    (heven : ∀ l ∈ h.locks, l.seen % 2 = 0) :
    o.Answers N a ∧ StepKind N x y h (h.after N o a) (o.locking a) := by
  obtain ⟨hexec, -⟩ := hs
  cases o with
  | lockOptimistically b =>
    simp only [DtOp.exec, lockWord_mod] at hexec
    split at hexec
    · cases hexec
    next heq =>
      obtain ⟨rfl, hy⟩ := Prod.mk.inj (Option.some.inj hexec)
      have hv : y.version = x.version := Shared.version_eq (by rw [hy])
      refine ⟨rfl, .tick hv (Nat.sub_add_cancel ho.1).le rfl rfl fun l hl => ?_⟩
      rcases List.mem_cons.mp hl with rfl | hl
      · have hunlocked : (x.table.bucket b).version % 2 = 0 := by omega
        exact Or.inr ⟨hunlocked, rfl⟩
      · exact Or.inl hl
  | lockExclusive b =>
    simp only [DtOp.exec, lockWord_mod] at hexec
    split at hexec
    · cases hexec
    next heq =>
      obtain ⟨-, hy⟩ := Prod.mk.inj (Option.some.inj hexec)
      have hunlocked : x.version b % 2 = 0 := by
        rw [Shared.version]
        omega
      exact ⟨trivial, .lock ho.1 ho.2.1 ho.2.2.1 ho.2.2.2 hunlocked
        (Shared.version_modify (by rw [← hy]) rfl) rfl⟩
  | validate l =>
    obtain ⟨rfl, hy⟩ := Prod.mk.inj (Option.some.inj hexec)
    have hv : y.version = x.version := Shared.version_eq (by rw [hy])
    refine ⟨trivial, ?_⟩
    by_cases heq : lockWord (x.table.bucket l.bucket).version = l.lockedVersion
    · simp only [Place.after, heq, beq_self_eq_true, if_true]
      have hrest := ho.1
      exact .step (by omega) hv
    · simp only [Place.after, beq_iff_eq, heq, if_false]
      refine .back ho.1 ho.2.1 ho.2.2 (fun hseen => heq ?_) hv rfl
      rw [Shared.version] at hseen
      rw [hseen, OptimisticLock.lockedVersion]
  | tryUpgradeToExclusive l =>
    obtain ⟨hrest, hrest', hholds, hfresh, hl⟩ := ho
    simp only [DtOp.exec] at hexec
    split at hexec
    next heq =>
      obtain ⟨rfl, hy⟩ := Prod.mk.inj (Option.some.inj hexec)
      -- the word may have gone round, but it is that of an unlocked bucket
      have hunlocked : x.version l.bucket % 2 = 0 := by
        rw [Shared.version, ← lockWord_mod, heq, OptimisticLock.lockedVersion, lockWord_mod]
        exact heven l hl
      exact ⟨trivial, .lock (by omega) hrest' hholds hfresh hunlocked
        (Shared.version_modify (by rw [← hy]) rfl) rfl⟩
    next heq =>
      obtain ⟨rfl, hy⟩ := Prod.mk.inj (Option.some.inj hexec)
      have hv : y.version = x.version := Shared.version_eq (by rw [hy])
      refine ⟨trivial, .back hrest hholds hl (fun hseen => heq ?_) hv rfl⟩
      rw [Shared.version] at hseen
      rw [hseen, OptimisticLock.lockedVersion]
  | unlock b did =>
    obtain ⟨-, hy⟩ := Prod.mk.inj (Option.some.inj hexec)
    exact ⟨trivial, .unlock ho.1 ho.2 (Shared.version_modify (by rw [← hy]) rfl) rfl⟩
  | countersEnd =>
    obtain ⟨rfl, hy⟩ := Prod.mk.inj (Option.some.inj hexec)
    rw [← hy] at hN
    have hrest : 3 + N < h.rest := ho
    exact ⟨hN, .step (by omega) (Shared.version_eq (by rw [← hy]))⟩
  | storeFreeSlotIndex b i | fetchSubFreeSlotCount b | fetchAddFreeSlotCount b
  | setNextFreeSlotIndex b i n =>
    obtain ⟨-, hy⟩ := Prod.mk.inj (Option.some.inj hexec)
    exact ⟨trivial, .step (Nat.sub_one_lt_of_lt ho.1) (Shared.version_modify_same
      (by rw [← hy]) rfl)⟩
  | loadFreeSlotCount b | loadFreeSlotIndex b | getNextFreeSlotIndex b i | loadCounter i
  | assertSum r c | incrementSize | decrementSize =>
    obtain ⟨-, hy⟩ := Prod.mk.inj (Option.some.inj hexec)
    exact ⟨trivial, .step (Nat.sub_one_lt_of_lt ho.1) (Shared.version_eq (by rw [← hy]))⟩
  | stop => cases hexec

/-- No call changes a lock word or a counter as it begins or ends. -/
theorem invoke_same {a : DtCall L ω} (h : (dtMachine L X).invoke t a x y) :
    y.version = x.version ∧ y.table.threadCounters = x.table.threadCounters := by
  cases a with
  | allocate hashes special =>
    rw [h.2]
    exact ⟨rfl, rfl⟩
  | free a => exact ⟨Shared.version_eq (by rw [h.2]), by rw [h.2]⟩
  | write a o => exact ⟨Shared.version_modify_same (by rw [h.2, Table.write]) rfl, by rw [h.2]; rfl⟩

theorem finish_same {a : DtCall L ω} {r : DtRet L} (h : (dtMachine L X).finish t a r x y) :
    y.version = x.version ∧ y.table.threadCounters = x.table.threadCounters := by
  change dtFinish L t a r x y at h
  unfold dtFinish at h
  split at h
  · exact ⟨Shared.version_eq (by rw [h]), by rw [h]⟩
  · rw [h]
    exact ⟨rfl, rfl⟩

/-- An operation changes the counters only when it counts. -/
theorem sem_counters {o : DtOp ω β} {a : β} (hs : (dtMachine L X).sem t o x a y) :
    y.table.threadCounters = x.table.threadCounters ∨
      ∃ f, y.table.threadCounters = Table.modifyLocal f t x.table.threadCounters ∧
        ∀ h : Place, h.Allows N o → h.holds = none := by
  obtain ⟨hexec, -⟩ := hs
  cases o with
  | incrementSize | decrementSize =>
    obtain ⟨-, hy⟩ := Prod.mk.inj (Option.some.inj hexec)
    exact Or.inr ⟨_, by rw [← hy], fun h ho => ho.2⟩
  | lockOptimistically b | lockExclusive b =>
    simp only [DtOp.exec] at hexec
    split at hexec
    · cases hexec
    · obtain ⟨-, hy⟩ := Prod.mk.inj (Option.some.inj hexec)
      exact Or.inl (congrArg Table.threadCounters hy).symm
  | tryUpgradeToExclusive l =>
    simp only [DtOp.exec] at hexec
    split at hexec
    · obtain ⟨-, hy⟩ := Prod.mk.inj (Option.some.inj hexec)
      exact Or.inl (congrArg Table.threadCounters hy).symm
    · obtain ⟨-, hy⟩ := Prod.mk.inj (Option.some.inj hexec)
      exact Or.inl (congrArg Table.threadCounters hy).symm
  | stop => cases hexec
  | _ =>
    obtain ⟨-, hy⟩ := Prod.mk.inj (Option.some.inj hexec)
    exact Or.inl (congrArg Table.threadCounters hy).symm

omit [Storage L ω] in
theorem length_modifyLocal_ge (f : SizeCounters → SizeCounters) (t : ℕ)
    (l : List (ℕ × SizeCounters)) : l.length ≤ (Table.modifyLocal f t l).length := by
  induction l with
  | nil => exact Nat.zero_le _
  | cons c l ih =>
    rw [Table.modifyLocal]
    split_ifs
    · exact le_rfl
    · exact Nat.succ_le_succ ih

/-- There are ever more counters. -/
theorem counters_within :
    (dtMachine L X (ω := ω)).Within fun x => x.table.threadCounters.length ≤ N where
  invoke := by
    intro t a x y h hy
    rwa [(invoke_same h).2] at hy
  sem := by
    intro β o t a x y h hy
    rcases sem_counters (N := 0) h with heq | ⟨f, heq, -⟩
    · rwa [heq] at hy
    · rw [heq] at hy
      exact (length_modifyLocal_ge f t _).trans hy
  finish := by
    intro t a r x y h hy
    rwa [(finish_same h).2] at hy

/-- Every step keeps the locks. -/
theorem keeps_locks :
    (tablePlaces L ω N).Keeps (dtMachine L X)
      (fun x => x.table.threadCounters.length ≤ N) (Locks N) where
  invoke := by
    intro t a x y τ hinv hx hidle
    refine hx.quiet (invoke_same hinv).1 ?_ ?_ ?_
    · rw [hidle]
      cases a <;> rfl
    · cases a <;> simp [tablePlaces, Place.retry, Place.idle]
    · cases a <;> simp [tablePlaces, Place.retry, Place.idle]
  op := by
    intro β o t a x y τ hs hN hx ho
    obtain ⟨hanswer, hk⟩ := step_kind hs hN ho (hx.even t)
    exact ⟨_, ⟨hanswer, rfl⟩, hx.step hk⟩
  turn := by
    rintro t x τ _ hx ⟨-, -, rfl⟩
    exact hx.quiet rfl rfl (fun _ => le_rfl) (hx.even t)
  finish := by
    intro t a r x y τ hfin hx hends
    refine hx.quiet (finish_same hfin).1 (Eq.symm hends) ?_ ?_ <;> simp [tablePlaces, Place.idle]

/-- Locking a bucket costs every other thread a round at most. -/
theorem charges_locks :
    (tablePlaces L ω N).Charges (dtMachine L X) (fun x => x.table.threadCounters.length ≤ N)
      (Locks N) DtOp.locking Place.debt (fun h => h.fresh.toNat) (13 + N) 8 where
  keeps := keeps_locks
  idle_debt _ := rfl
  idle_spare := rfl
  start_debt x a := by
    have hstale : ¬ ((tablePlaces L ω N).start a).Stale x := by
      cases a <;> simp [tablePlaces, Place.Stale, Place.retry, Place.idle]
    rw [Place.debt, if_neg hstale]
    cases a <;> simp only [tablePlaces, Place.retry, Place.idle] <;> omega
  start_spare a := Bool.toNat_le _
  invoke_debt hinv := (Place.debt_of_version (invoke_same hinv).1).le
  finish_debt hfin := (Place.debt_of_version (finish_same hfin).1).le
  own := by
    rintro β o t a x y τ _ hs hN hx ho ⟨-, rfl⟩
    exact (step_kind hs hN ho (hx.even t)).2.own
  other := by
    intro β o t u a x y τ hs hN hx ho _
    exact (step_kind hs hN ho (hx.even t)).2.other hx u
  turn := by
    rintro x h _ ⟨hrest, -, rfl⟩
    refine ⟨?_, le_rfl, le_rfl⟩
    rintro rfl
    exact absurd hrest (lt_irrefl 0)

/-! ### Waiting -/

/-- The bucket whose lock an operation waits for. -/
def DtOp.waits : {β : Type} → DtOp ω β → Option ℕ
  | _, .lockOptimistically b => some b
  | _, .lockExclusive b => some b
  | _, _ => none

/-- The operation that stands for a failed assertion. -/
def DtOp.Stops : {β : Type} → DtOp ω β → Prop
  | _, .stop => True
  | _, _ => False

/-- A thread has stopped at an assertion. -/
def Stopped (t : ℕ) (c : Machine.Cfg (DtOp ω) (Shared L ω) ℕ (DtCall L ω) (DtRet L)) : Prop :=
  match c.run t with
  | some (_, .call o _) => o.Stops
  | _ => False

omit [Storage L ω] in
/-- Who has locked a bucket has one operation less to do before it unlocks it. -/
theorem Place.rest_lt {o : DtOp ω β} {b : β} (hb : h.holds ≠ none)
    (ho : h.Allows N o) (ha : o.Answers N b) :
    (h.after N o b).rest - 1 < h.rest - 1 := by
  cases o with
  | lockOptimistically c => exact absurd ho.2 hb
  | lockExclusive c => exact absurd ho.2.2.1 hb
  | validate l => exact absurd ho.2.1 hb
  | tryUpgradeToExclusive l => exact absurd ho.2.2.1 hb
  | incrementSize | decrementSize => exact absurd ho.2 hb
  | stop => exact b.elim
  | unlock c did =>
    have hrest := ho.1
    change h.rest - 1 - 1 < h.rest - 1
    omega
  | countersEnd =>
    have hrest : 3 + N < h.rest := ho
    have hn : b ≤ N := ha
    change 3 + b - 1 < h.rest - 1
    omega
  | _ =>
    have hrest := ho.2 hb
    change h.rest - 1 - 1 < h.rest - 1
    omega

omit [Storage L ω] in
/-- Who waits for a lock has none. -/
theorem Place.holds_of_waits {o : DtOp ω β} {b : ℕ} (hw : o.waits = some b) (ho : h.Allows N o) :
    h.holds = none := by
  cases o with
  | lockOptimistically c => exact ho.2
  | lockExclusive c => exact ho.2.2.1
  | _ => cases hw

/-- Only a lock blocks, and an assertion that has failed. -/
theorem exists_sem (o : DtOp ω β) :
    (∃ a y, (dtMachine L X).sem t o x a y) ∨ o.Stops ∨ ∃ b, o.waits = some b ∧
      x.version b % 2 = 1 := by
  have hexec : (∃ a T, DtOp.exec L t o x.table = some (a, T)) ∨ o.Stops ∨
      ∃ b, o.waits = some b ∧ x.version b % 2 = 1 := by
    cases o with
    | lockOptimistically b | lockExclusive b =>
      by_cases hb : (x.table.bucket b).version % 2 = 1
      · exact Or.inr (Or.inr ⟨b, rfl, hb⟩)
      · simp only [DtOp.exec, lockWord_mod, if_neg hb]
        exact Or.inl ⟨_, _, rfl⟩
    | tryUpgradeToExclusive l =>
      simp only [DtOp.exec]
      split
      · exact Or.inl ⟨_, _, rfl⟩
      · exact Or.inl ⟨_, _, rfl⟩
    | stop => exact Or.inr (Or.inl trivial)
    | _ => exact Or.inl ⟨_, _, rfl⟩
  rcases hexec with ⟨a, T, hT⟩ | hblocked
  · exact Or.inl ⟨a, ⟨T, x.owned⟩, hT, rfl⟩
  · exact Or.inr hblocked

theorem exists_finish (a : DtCall L ω) (r : DtRet L) : ∃ y, (dtMachine L X).finish t a r x y := by
  cases a with
  | allocate h special => rcases r with (_ | ⟨p, s⟩) | _ <;> exact ⟨_, rfl⟩
  | free a => exact ⟨_, rfl⟩
  | write a o => exact ⟨_, rfl⟩

/-- A thread in a call is not blocked, or it has stopped, or it waits for a locked bucket. -/
theorem enabled_or_waits {c : Machine.Cfg (DtOp ω) (Shared L ω) ℕ (DtCall L ω) (DtRet L)}
    (hrun : c.run t ≠ none) :
    (dtMachine L X).Enabled t c ∨ Stopped t c ∨ ∃ (a : DtCall L ω) (β : Type) (o : DtOp ω β)
      (k : β → Prog (DtOp ω) (DtRet L)) (b : ℕ),
        c.run t = some (a, .call o k) ∧ o.waits = some b ∧ c.st.version b % 2 = 1 := by
  match hr : c.run t with
  | none => exact absurd hr hrun
  | some (a, .ret r) => exact Or.inl ((Machine.enabled_ret hr).mpr (exists_finish a r))
  | some (a, .loop body b k) => exact Or.inl (Machine.enabled_loop hr)
  | some (a, .call o k) =>
    rcases exists_sem (X := X) (t := t) (x := c.st) o with hsem | hstops | ⟨b, hb, hodd⟩
    · exact Or.inl ((Machine.enabled_call hr).mpr hsem)
    · refine Or.inr (Or.inl ?_)
      rw [Stopped, hr]
      exact hstops
    · exact Or.inr (Or.inr ⟨a, _, o, k, b, rfl, hb, hodd⟩)

/-- Who has locked a bucket and runs alone unlocks it, or stops. -/
theorem unlocks_or_stops {c : Machine.Cfg (DtOp ω) (Shared L ω) ℕ (DtCall L ω) (DtRet L)}
    (hN : c.st.table.threadCounters.length ≤ N) (hx : Locks N c.st τ)
    (hf : (tablePlaces L ω N).Follows τ c) (hu : (τ u).holds ≠ none) :
    ∃ n ≤ 5 + N, ∃ c' τ', (dtMachine L X).Operates u n c c' ∧ Locks N c'.st τ' ∧
      (tablePlaces L ω N).Follows τ' c' ∧ (∀ v ≠ u, c'.run v = c.run v ∧ τ' v = τ v) ∧
      ((τ' u).holds = none ∨ Stopped u c') := by
  obtain ⟨n, hn, c', τ', hops, hx', hf', hothers, hblocked⟩ :=
    (keeps_locks (X := X)).settles (t := u) (fun h => h.holds ≠ none) (fun h => h.rest - 1)
      (fun h => 1 - h.turned.toNat)
    (fun hb => hb rfl) (fun h hb ht => hb ht)
    (by
      intro β o t b x y h hs hb ho hx
      rcases sem_counters (N := N) hs with heq | ⟨f, -, hnone⟩
      · rwa [heq]
      · exact absurd (hnone h ho) hb)
    (by
      rintro β o h b _ hb ho ⟨ha, rfl⟩
      exact Place.rest_lt hb ho ha)
    (by
      rintro h _ ⟨-, hturned, rfl⟩
      exact ⟨le_rfl, by simp [hturned]⟩)
    hN hx hf
  have hshort := hx.short u hu
  refine ⟨n, by omega, c', τ', hops, hx', hf', hothers, ?_⟩
  by_contra hnot
  obtain ⟨hholds, hstopped⟩ := not_or.mp hnot
  have hrun : c'.run u ≠ none := by
    intro hrun
    have hidle := hf' u
    rw [hrun] at hidle
    exact hholds (hidle ▸ rfl)
  rcases enabled_or_waits (X := X) hrun with henabled | hstop | ⟨a, β, o, k, b, hop, hw, -⟩
  · exact hblocked hholds henabled
  · exact hstopped hstop
  · exact hholds (Place.holds_of_waits hw (hf'.typed hop).1)

end Steps

section Runs

variable [Storage L ω] {X : BucketIndexer} {storage : ℕ → ℕ → ω} {T₀ : Table ω}

/-- **No deadlock**: a thread in a call is not blocked, or it has stopped at an assertion, or
another thread unlocks what it waits for, in at most so many operations of its own, unless that
stops. -/
theorem derefTable_never_deadlocked (h₀ : DerefTable.construct L X storage = some T₀)
    {c : Machine.Cfg (DtOp ω) (Shared L ω) ℕ (DtCall L ω) (DtRet L)}
    (hc : (dtMachine L X).Steps (Machine.idleCfg ⟨T₀, []⟩) c) {t : ℕ} (hrun : c.run t ≠ none) :
    (dtMachine L X).Enabled t c ∨ Stopped t c ∨
      ∃ u ≠ t, ∃ n ≤ 5 + c.st.table.threadCounters.length, ∃ c', (dtMachine L X).Operates u n c c' ∧
        ((dtMachine L X).Enabled t c' ∨ Stopped u c') := by
  obtain ⟨hwf, -⟩ := DerefTable.construct_eq_some h₀
  obtain ⟨τ, hx, hf⟩ := keeps_locks.holds counters_within Place.typed
    (locks_initial hwf.quiet) hc le_rfl
  rcases enabled_or_waits (X := X) hrun with henabled | hstopped | ⟨a, β, o, k, b, hop, hw, hodd⟩
  · exact Or.inl henabled
  · exact Or.inr (Or.inl hstopped)
  obtain ⟨u, hu⟩ := (hx.odd b).mp hodd
  have hnone : (τ t).holds = none := Place.holds_of_waits hw (hf.typed hop).1
  have hut : u ≠ t := by
    rintro rfl
    rw [hnone] at hu
    cases hu
  obtain ⟨n, hn, c', τ', hops, hx', -, hothers, hend⟩ :=
    unlocks_or_stops le_rfl hx hf (by rw [hu]; exact Option.some_ne_none b)
  refine Or.inr (Or.inr ⟨u, hut, n, hn, c', hops, ?_⟩)
  rcases hend with hfree | hstopped
  swap
  · exact Or.inr hstopped
  -- nobody else can have locked the bucket
  have hunlocked : c'.st.version b % 2 ≠ 1 := by
    intro hodd'
    obtain ⟨v, hv⟩ := (hx'.odd b).mp hodd'
    by_cases hvu : v = u
    · subst hvu
      rw [hfree] at hv
      cases hv
    · rw [(hothers v hvu).2] at hv
      exact hvu (hx.inj v u b hv hu)
  have hop' := (hothers t hut.symm).1.trans hop
  have hrun' : c'.run t ≠ none := by
    rw [hop']
    exact Option.some_ne_none _
  rcases enabled_or_waits (X := X) hrun' with henabled | hstop | ⟨a', β', o', k', b',
    hop'', hw', hodd'⟩
  · exact Or.inl henabled
  · rw [Stopped, hop'] at hstop
    cases o <;> first | exact hstop.elim | cases hw
  · rw [hop''] at hop'
    cases hop'
    rw [hw] at hw'
    cases hw'
    exact absurd hodd' hunlocked

variable {c : Machine.Cfg (DtOp ω) (Tally (Shared L ω) ℕ) ℕ (DtCall L ω) (DtRet L)}

/-- A call does at most thirteen operations and one for each counter, and eight more for each time
that another thread has locked a bucket since it began. -/
theorem derefTable_ops_le (h₀ : DerefTable.construct L X storage = some T₀)
    (hc : ((dtMachine L X).tallied DtOp.locking).Steps (Machine.idleCfg (.initial ⟨T₀, []⟩)) c)
    (t : ℕ) : c.st.ops t ≤ 13 + c.st.st.table.threadCounters.length + 8 * c.st.disturbed t := by
  obtain ⟨hwf, -⟩ := DerefTable.construct_eq_some h₀
  exact charges_locks.ops_le counters_within Place.typed (locks_initial hwf.quiet) hc le_rfl t

/-- All calls together do at most thirteen operations each and one for each counter, and eight more
for each other thread. -/
theorem derefTable_work_le (h₀ : DerefTable.construct L X storage = some T₀)
    (hc : ((dtMachine L X).tallied DtOp.locking).Steps (Machine.idleCfg (.initial ⟨T₀, []⟩)) c) :
    c.st.work ≤ (13 + c.st.st.table.threadCounters.length + 8 * (c.st.threads.card - 1)) *
      c.st.calls := by
  obtain ⟨hwf, -⟩ := DerefTable.construct_eq_some h₀
  exact charges_locks.work_le counters_within Place.typed (locks_initial hwf.quiet) hc le_rfl

end Runs

namespace WrapAround

/-- These threads allocate, one after the other. -/
def allocations (l : List ℕ) : List (Machine.Turn ℕ (DtCall layout oneByte.Bytes)) :=
  l.flatMap fun t => [.call t (.allocate (0, 0) 0), .goes t 40, .returns t]

/-- Thread `1` takes the last entry while thread `0` is reading. So thread `0` begins again, finds
the bucket full, adds the counters and throws. -/
def retrying : List (Machine.Turn ℕ (DtCall layout oneByte.Bytes)) :=
  allocations [0, 1, 0, 1, 0, 1] ++
    [.call 0 (.allocate (0, 0) 0), .goes 0 8, .call 1 (.allocate (0, 0) 0), .goes 1 40, .returns 1,
    .goes 0 40, .returns 0]

/-- Thread `0` is about to add the second counter, in the bucket it has locked. Thread `1` waits for
that. -/
def blocked : List (Machine.Turn ℕ (DtCall layout oneByte.Bytes)) :=
  allocations [0, 1, 0, 1, 0, 1, 0] ++ [.call 0 (.allocate (0, 0) 0), .goes 0 14,
    .call 1 (.allocate (0, 0) 0), .goes 1 20]

theorem derefTable_never_deadlocked_schedule :
    ∃ (T₀ : Table oneByte.Bytes) (c : _),
      DerefTable.construct layout oneBucket (fun _ _ => zeros) = some T₀ ∧
      (dtMachine layout oneBucket).Steps (Machine.idleCfg ⟨T₀, []⟩) c ∧
      ((c.st.table.bucket 0).version % 2 = 1 ∧ c.st.table.threadCounters.length = 2 ∧
        (c.run 1).isSome) ∧
      ((dtMachine layout oneBucket).Enabled 1 c ∨ Stopped 1 c ∨
        ∃ u ≠ 1, ∃ n ≤ 5 + c.st.table.threadCounters.length, ∃ c',
          (dtMachine layout oneBucket).Operates u n c c' ∧
          ((dtMachine layout oneBucket).Enabled 1 c' ∨ Stopped u c')) := by
  obtain ⟨T₀, h₀⟩ := exists_construct
  let E := dtExecutor layout (ω := oneByte.Bytes) oneBucket
  let observe (c : Machine.Cfg (DtOp oneByte.Bytes) (Shared layout oneByte.Bytes) ℕ
    (DtCall layout oneByte.Bytes)
      (DtRet layout)) : Bool :=
    (c.st.table.bucket 0).version % 2 = 1 ∧ c.st.table.threadCounters.length = 2 ∧ (c.run 1).isSome
  have hplay : ((DerefTable.construct layout oneBucket fun _ _ => zeros).bind fun T =>
      (E.play blocked (Machine.idleCfg ⟨T, []⟩)).map observe) = some true := by decide
  rw [h₀, Option.bind_some] at hplay
  obtain ⟨c, hc, hseen, -⟩ := E.exists_steps blocked observe hplay
  have hseen' := of_decide_eq_true hseen
  exact ⟨T₀, c, h₀, hc, hseen', derefTable_never_deadlocked h₀ hc
    (Option.isSome_iff_ne_none.mp hseen'.2.2)⟩

/-- What is counted: the operations of thread `0`, how often it was disturbed, all operations,
calls, threads and counters. -/
def counted
    (c : Machine.Cfg (DtOp oneByte.Bytes) (Tally (Shared layout oneByte.Bytes) ℕ) ℕ
      (DtCall layout oneByte.Bytes) (DtRet layout)) : List ℕ :=
  [c.st.ops 0, c.st.disturbed 0, c.st.work, c.st.calls, c.st.threads.card,
    c.st.st.table.threadCounters.length]

theorem exists_retrying :
    ∃ (T₀ : Table oneByte.Bytes) (c : _),
      DerefTable.construct layout oneBucket (fun _ _ => zeros) = some T₀ ∧
      ((dtMachine layout oneBucket).tallied DtOp.locking).Steps
        (Machine.idleCfg (.initial ⟨T₀, []⟩)) c ∧ counted c = [22, 1, 113, 8, 2, 2] := by
  obtain ⟨T₀, h₀⟩ := exists_construct
  let E := (dtExecutor layout (ω := oneByte.Bytes) oneBucket).tallied DtOp.locking
  have hplay : ((DerefTable.construct layout oneBucket fun _ _ => zeros).bind fun T =>
      (E.play retrying (Machine.idleCfg (.initial ⟨T, []⟩))).map counted) = some [22, 1, 113, 8,
        2, 2] := by decide
  rw [h₀, Option.bind_some] at hplay
  obtain ⟨c, hc, hseen, -⟩ := E.exists_steps retrying counted hplay
  exact ⟨T₀, c, h₀, hc, hseen⟩

theorem derefTable_ops_le_schedule :
    ∃ (T₀ : Table oneByte.Bytes) (c : _),
      DerefTable.construct layout oneBucket (fun _ _ => zeros) = some T₀ ∧
      ((dtMachine layout oneBucket).tallied DtOp.locking).Steps
        (Machine.idleCfg (.initial ⟨T₀, []⟩)) c ∧ counted c = [22, 1, 113, 8, 2, 2] ∧
      c.st.ops 0 ≤ 13 + c.st.st.table.threadCounters.length + 8 * c.st.disturbed 0 := by
  obtain ⟨T₀, c, h₀, hc, hseen⟩ := exists_retrying
  exact ⟨T₀, c, h₀, hc, hseen, derefTable_ops_le h₀ hc 0⟩

theorem derefTable_work_le_schedule :
    ∃ (T₀ : Table oneByte.Bytes) (c : _),
      DerefTable.construct layout oneBucket (fun _ _ => zeros) = some T₀ ∧
      ((dtMachine layout oneBucket).tallied DtOp.locking).Steps
        (Machine.idleCfg (.initial ⟨T₀, []⟩)) c ∧ counted c = [22, 1, 113, 8, 2, 2] ∧
      c.st.work ≤ (13 + c.st.st.table.threadCounters.length + 8 * (c.st.threads.card - 1)) *
      c.st.calls := by
  obtain ⟨T₀, c, h₀, hc, hseen⟩ := exists_retrying
  exact ⟨T₀, c, h₀, hc, hseen, derefTable_work_le h₀ hc⟩

end WrapAround

end TinyPointerTrees
