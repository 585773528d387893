import TinyPointerTrees.Art.Node

/-!
# The lock of a node

The lock word of a node under any number of threads. A call is a step for each of its
accesses to the word; `writeLockOrRestart` makes two. A run is a list of events, each
with the word that its access found.

`Run.lock_sound` — one thread has the lock at most; the type never changes; a node that is
obsolete stays so; and a version that is still valid was not written to.
-/

namespace TinyPointerTrees.Art.NodeLock

/-- The accesses of the calls to the lock word. -/
inductive Access where
  /-- The load of `readLockOrRestart`. -/
  | readLock
  /-- The compare-and-swap of `upgradeToWriteLockOrRestart`. -/
  | upgrade (version : UInt64)
  /-- The load of `writeLockOrRestart`. -/
  | writeLockLoad
  /-- The compare-and-swap of `writeLockOrRestart`. -/
  | writeLockUpgrade (version : UInt64)
  /-- The addition of `writeUnlock`. -/
  | writeUnlock
  /-- The addition of `writeUnlockObsolete`. -/
  | writeUnlockObsolete
  /-- The load of `readUnlockOrRestart`, which is also that of `checkOrRestart`. -/
  | readUnlock (startRead : UInt64)
  deriving DecidableEq

/-- A thread. -/
structure Thread where
  /-- In `writeLockOrRestart`, behind the load. -/
  locking : Option UInt64 := none
  /-- What `readLockOrRestart` returned when it did not ask for a restart. -/
  versions : List UInt64 := []
  /-- It has locked the node, and not unlocked it. -/
  holds : Bool := false

/-- The lock word and the threads. -/
structure World where
  /-- `typeVersionLockObsolete`. -/
  word : UInt64
  /-- The threads. -/
  thread : ℕ → Thread

/-- An access of a thread, with the word it found. -/
structure Event where
  /-- The thread. -/
  thread : ℕ
  /-- What it did. -/
  access : Access
  /-- The word before. -/
  word : UInt64

/-- The call sets `needRestart`. -/
def Access.needRestart (word : UInt64) : Access → Bool
  | readLock | writeLockLoad => isLocked word || isObsolete word
  | upgrade version | writeLockUpgrade version | readUnlock version => version != word
  | writeUnlock | writeUnlockObsolete => false

/-- A thread can make the step. A version that is upgraded was returned by `readLockOrRestart`, and
a thread unlocks what it has locked. -/
def Enabled (s : World) (t : ℕ) : Access → Prop
  | .readLock | .writeLockLoad | .readUnlock _ => (s.thread t).locking = none
  | .upgrade version => (s.thread t).locking = none ∧ version ∈ (s.thread t).versions
  | .writeLockUpgrade version => (s.thread t).locking = some version
  | .writeUnlock | .writeUnlockObsolete => (s.thread t).locking = none ∧ (s.thread t).holds = true

instance (s : World) (t : ℕ) (a : Access) : Decidable (Enabled s t a) := by
  cases a <;> unfold Enabled <;> infer_instance

namespace World

/-- Nobody has the lock. -/
def initial (word : UInt64) : World := ⟨word, fun _ => {}⟩

/-- Change a thread. -/
def setThread (s : World) (t : ℕ) (r : Thread) : World :=
  { s with thread := Function.update s.thread t r }

/-- What a step does. -/
def after (s : World) (t : ℕ) (a : Access) : World :=
  let r := s.thread t
  let restart := a.needRestart s.word
  match a with
  | .readLock => if restart then s else s.setThread t { r with versions := s.word :: r.versions }
  | .upgrade version =>
    if restart then s
    else ⟨version + 0b10, Function.update s.thread t { r with holds := true }⟩
  | .writeLockLoad => if restart then s else s.setThread t { r with locking := some s.word }
  | .writeLockUpgrade version =>
    if restart then s.setThread t { r with locking := none }
    else ⟨version + 0b10, Function.update s.thread t { r with locking := none, holds := true }⟩
  | .writeUnlock => ⟨s.word + 0b10, Function.update s.thread t { r with holds := false }⟩
  | .writeUnlockObsolete => ⟨s.word + 0b11, Function.update s.thread t { r with holds := false }⟩
  | .readUnlock _ => s

end World

/-- What threads do one after another. -/
inductive Run (s₀ : World) : List Event → World → Prop
  | refl : Run s₀ [] s₀
  | step {es : List Event} {s : World} {t : ℕ} {a : Access} (h : Run s₀ es s) (he : Enabled s t a) :
      Run s₀ (es ++ [⟨t, a, s.word⟩]) (s.after t a)

namespace Event

variable (e : Event)

/-- The call sets `needRestart`. -/
def needRestart : Bool := e.access.needRestart e.word

/-- A version is read, and no restart is asked for. -/
def reads : Bool :=
  match e.access with
  | .readLock | .writeLockLoad => !e.needRestart
  | _ => false

/-- A write section begins. -/
def begins : Bool :=
  match e.access with
  | .upgrade _ | .writeLockUpgrade _ => !e.needRestart
  | _ => false

/-- A write section ends. -/
def ends : Bool :=
  match e.access with
  | .writeUnlock | .writeUnlockObsolete => true
  | _ => false

/-- The node becomes obsolete. -/
def obsoletes : Bool :=
  match e.access with
  | .writeUnlockObsolete => true
  | _ => false

/-- `readUnlockOrRestart` or an upgrade succeeds for a version. -/
def validates (version : UInt64) : Bool :=
  match e.access with
  | .readUnlock v | .upgrade v | .writeLockUpgrade v => v == version && !e.needRestart
  | _ => false

end Event

/-- A version that is found valid is the word. -/
theorem Event.word_of_validates (e : Event) {v : UInt64} (h : e.validates v = true) :
    v = e.word := by
  obtain ⟨t, a, word⟩ := e
  have hv : ∀ x, (x == v && !(x != word)) = true → v = word := by
    intro x hx
    rw [Bool.and_eq_true, beq_iff_eq, Bool.not_eq_true', bne_eq_false_iff_eq] at hx
    rw [← hx.1, hx.2]
  cases a with
  | readUnlock x => exact hv x h
  | upgrade x => exact hv x h
  | writeLockUpgrade x => exact hv x h
  | _ => cases h

/-- What is expected of the lock in a run. -/
structure Lawful (s₀ : World) (es : List Event) (s : World) : Prop where
  exclusive : ∀ t u, (s.thread t).holds = true → (s.thread u).holds = true → t = u
  locked_iff : isLocked s.word = true ↔ ∃ t, (s.thread t).holds = true
  getType : s.word >>> 62 = s₀.word >>> 62
  /-- Once the node is obsolete, no read and no upgrade succeeds. -/
  obsolete : ∀ es₁ e es₂ e' es₃, es = es₁ ++ e :: (es₂ ++ e' :: es₃) →
    e.obsoletes = true ∨ isObsolete e.word = true →
    isObsolete e'.word = true ∧ e'.reads = false ∧ e'.begins = false
  /-- From where a version is read to where it is found valid, no write section begins or ends. -/
  validated : ∀ es₁ e es₂ e' es₃, es = es₁ ++ e :: (es₂ ++ e' :: es₃) → e'.validates e.word = true →
    ∀ e'' ∈ e :: es₂, e''.begins = false ∧ e''.ends = false

/-- Nobody has the lock, and half of the versions are left. -/
def Ready (word : UInt64) : Prop := Free word ∧ word.toNat % 2 ^ 62 < 2 ^ 61

/-- The word of a new node. -/
theorem ready_new {type : ℕ} (h : type < 4) : Ready (0b100 + convertTypeToVersion type) := by
  unfold Ready Free
  interval_cases type <;> decide

/-! ### The word counts -/

/-- The word tells how many write sections have begun and ended. -/
structure Inv (w : UInt64) (es : List Event) (s : World) : Prop where
  word : s.word.toNat = w.toNat + 2 * es.countP Event.begins + 2 * es.countP Event.ends +
    es.countP Event.obsoletes
  /-- Nobody has the lock, or one thread has it. -/
  holder :
    ((∀ t, (s.thread t).holds = false) ∧ es.countP Event.begins = es.countP Event.ends ∧
      es.countP Event.obsoletes ≤ 1) ∨
    ∃ t, (∀ u, (s.thread u).holds = true ↔ u = t) ∧
      es.countP Event.begins = es.countP Event.ends + 1 ∧ es.countP Event.obsoletes = 0
  versions : ∀ t, ∀ v ∈ (s.thread t).versions, Free v
  locking : ∀ t, ∀ v ∈ (s.thread t).locking, Free v

namespace Inv

variable {w : UInt64} {es : List Event} {s : World} {t : ℕ} {v : UInt64}

theorem isLocked_iff (h : Inv w es s) (hw : Ready w) :
    isLocked s.word = true ↔ ∃ t, (s.thread t).holds = true := by
  rw [Art.isLocked_iff, h.word]
  have hfree : w.toNat % 4 = 0 := hw.1
  rcases h.holder with ⟨hnone, hcount, hle⟩ | ⟨t, ht, hcount, hzero⟩
  · refine ⟨fun hodd => ?_, fun ⟨t, ht⟩ => ?_⟩
    · omega
    · rw [hnone t] at ht
      cases ht
  · exact ⟨fun _ => ⟨t, (ht t).2 rfl⟩, fun _ => by omega⟩

theorem isObsolete_iff (h : Inv w es s) (hw : Ready w) :
    isObsolete s.word = true ↔ es.countP Event.obsoletes = 1 := by
  rw [Art.isObsolete_iff, h.word]
  have hfree : w.toNat % 4 = 0 := hw.1
  rcases h.holder with ⟨-, -, hle⟩ | ⟨-, -, -, hzero⟩ <;> omega

/-- A free word says that nobody has the lock, and that the node is not obsolete. -/
theorem of_free (h : Inv w es s) (hw : Ready w) (hv : Free s.word) :
    (∀ t, (s.thread t).holds = false) ∧ es.countP Event.begins = es.countP Event.ends ∧
      es.countP Event.obsoletes = 0 := by
  have hfree : w.toNat % 4 = 0 := hw.1
  have hword := h.word
  unfold Free at hv
  rcases h.holder with ⟨hnone, hcount, hle⟩ | ⟨t, ht, hcount, hzero⟩
  · exact ⟨hnone, hcount, by omega⟩
  · omega

theorem counted {e : Event} (f : Event → Bool) :
    (es ++ [e]).countP f = es.countP f + (f e).toNat := by
  rw [List.countP_append, List.countP_singleton]
  cases f e <;> rfl

theorem initial (w : UInt64) : Inv w [] (.initial w) where
  word := rfl
  holder := .inl ⟨fun _ => rfl, rfl, Nat.zero_le 1⟩
  versions := fun _ _ hv => nomatch hv
  locking := fun _ _ hv => nomatch hv

/-- There is room in the word for what is added to it. -/
theorem toNat_add (h : Inv w es s) (hw : Ready w) (hlt : es.countP Event.begins < 2 ^ 59)
    {d : UInt64} (hd : d.toNat ≤ 3) : (s.word + d).toNat = s.word.toNat + d.toNat := by
  rw [UInt64.toNat_add]
  have hword := h.word
  have hroom := hw.2
  have hmax := w.toNat_lt
  refine Nat.mod_eq_of_lt ?_
  rcases h.holder with ⟨-, hcount, hle⟩ | ⟨-, -, hcount, hzero⟩ <;> omega

/-- A step that leaves the word and the lock alone. -/
theorem quiet (h : Inv w es s) {e : Event} {s' : World}
    (he : e.begins = false ∧ e.ends = false ∧ e.obsoletes = false) (hword : s'.word = s.word)
    (hholds : ∀ u, (s'.thread u).holds = (s.thread u).holds)
    (hversions : ∀ u, ∀ v ∈ (s'.thread u).versions, Free v)
    (hlocking : ∀ u, ∀ v ∈ (s'.thread u).locking, Free v) : Inv w (es ++ [e]) s' := by
  obtain ⟨hb, hends, ho⟩ := he
  have hcount : ∀ f : Event → Bool, f e = false → (es ++ [e]).countP f = es.countP f :=
    fun f hf => by
    rw [counted, hf]
    rfl
  refine ⟨?_, ?_, hversions, hlocking⟩
  · rw [hword, h.word, hcount _ hb, hcount _ hends, hcount _ ho]
  · simp only [hholds, hcount _ hb, hcount _ hends, hcount _ ho]
    exact h.holder

/-- A write section begins. -/
theorem lock (h : Inv w es s) (hw : Ready w) {e : Event} {s' : World} (hfree : Free s.word)
    (he : e.begins = true ∧ e.ends = false ∧ e.obsoletes = false)
    (hlt : (es ++ [e]).countP Event.begins < 2 ^ 59) (hword : s'.word = s.word + 0b10)
    (hholds : ∀ u, (s'.thread u).holds = true ↔ u = t)
    (hversions : ∀ u, ∀ v ∈ (s'.thread u).versions, Free v)
    (hlocking : ∀ u, ∀ v ∈ (s'.thread u).locking, Free v) : Inv w (es ++ [e]) s' := by
  obtain ⟨hb, hends, ho⟩ := he
  obtain ⟨-, hcount, hzero⟩ := h.of_free hw hfree
  rw [counted, hb] at hlt
  have hadd := h.toNat_add hw (by omega) (d := 0b10) (by decide)
  refine ⟨?_, .inr ⟨t, hholds, ?_, ?_⟩, hversions, hlocking⟩
  · rw [hword, hadd, h.word, counted, counted, counted, hb, hends, ho]
    simp only [Bool.toNat_true, Bool.toNat_false, UInt64.reduceToNat]
    omega
  · rw [counted, counted, hb, hends, hcount]
    rfl
  · rw [counted, ho, hzero]
    rfl

/-- A write section ends. -/
theorem unlock (h : Inv w es s) (hw : Ready w) {e : Event} {s' : World} {d : UInt64}
    (ht : (s.thread t).holds = true) (hlt : es.countP Event.begins < 2 ^ 59)
    (he : e.begins = false ∧ e.ends = true) (hd : d.toNat = 2 + e.obsoletes.toNat)
    (hword : s'.word = s.word + d)
    (hholds : ∀ u, (s'.thread u).holds = true → u ≠ t ∧ (s.thread u).holds = true)
    (hversions : ∀ u, ∀ v ∈ (s'.thread u).versions, Free v)
    (hlocking : ∀ u, ∀ v ∈ (s'.thread u).locking, Free v) : Inv w (es ++ [e]) s' := by
  obtain ⟨hb, hends⟩ := he
  have hle := Bool.toNat_le e.obsoletes
  have hadd := h.toNat_add hw hlt (d := d) (by omega)
  rcases h.holder with ⟨hnone, -⟩ | ⟨t', ht', hcount, hzero⟩
  · rw [hnone t] at ht
    cases ht
  obtain rfl : t = t' := (ht' t).1 ht
  refine ⟨?_, .inl ⟨fun u => ?_, ?_, ?_⟩, hversions, hlocking⟩
  · rw [hword, hadd, h.word, counted, counted, counted, hb, hends, hd]
    simp only [Bool.toNat_true, Bool.toNat_false]
    omega
  · rw [Bool.eq_false_iff]
    intro hu
    obtain ⟨hne, hu⟩ := hholds u hu
    exact hne ((ht' u).1 hu)
  · rw [counted, counted, hb, hends, hcount]
    rfl
  · rw [counted, hzero]
    omega

/-- A thread is replaced by one that also has free versions only. -/
theorem versions_update (h : Inv w es s) {r : Thread} (hr : ∀ v ∈ r.versions, Free v) (u : ℕ) :
    ∀ v ∈ (Function.update s.thread t r u).versions, Free v :=
  (Function.forall_update_iff s.thread fun _ r => ∀ v ∈ r.versions, Free v).2 ⟨hr,
    fun u _ => h.versions u⟩ u

theorem locking_update (h : Inv w es s) {r : Thread} (hr : ∀ v ∈ r.locking, Free v) (u : ℕ) :
    ∀ v ∈ (Function.update s.thread t r u).locking, Free v :=
  (Function.forall_update_iff s.thread fun _ r => ∀ v ∈ r.locking, Free v).2 ⟨hr,
    fun u _ => h.locking u⟩ u

theorem holds_update (s : World) {r : Thread} (hr : r.holds = (s.thread t).holds) (u : ℕ) :
    (Function.update s.thread t r u).holds = (s.thread u).holds :=
  (Function.forall_update_iff s.thread fun u r => r.holds = (s.thread u).holds).2 ⟨hr,
    fun _ _ => rfl⟩ u

/-- A thread that takes the lock has it alone. -/
theorem holds_locks (hnone : ∀ t, (s.thread t).holds = false) {r : Thread} (hr : r.holds = true)
    (u : ℕ) : (Function.update s.thread t r u).holds = true ↔ u = t := by
  rcases eq_or_ne u t with rfl | hne
  · rw [Function.update_self]
    exact iff_of_true hr rfl
  · rw [Function.update_of_ne hne, hnone u]
    exact iff_of_false Bool.false_ne_true hne

/-- The others keep what they have. -/
theorem holds_unlocks (s : World) {r : Thread} (hr : r.holds = false) (u : ℕ)
    (hu : (Function.update s.thread t r u).holds = true) : u ≠ t ∧ (s.thread u).holds = true := by
  rcases eq_or_ne u t with rfl | hne
  · rw [Function.update_self, hr] at hu
    cases hu
  · rw [Function.update_of_ne hne] at hu
    exact ⟨hne, hu⟩

theorem step (h : Inv w es s) (hw : Ready w) {a : Access} (he : Enabled s t a)
    (hlt : (es ++ [(⟨t, a, s.word⟩ : Event)]).countP Event.begins < 2 ^ 59) :
    Inv w (es ++ [⟨t, a, s.word⟩]) (s.after t a) := by
  have hlt' : es.countP Event.begins < 2 ^ 59 := by
    rw [counted] at hlt
    exact lt_of_le_of_lt (Nat.le_add_right ..) hlt
  cases a with
  | readLock =>
    by_cases hr : (isLocked s.word || isObsolete s.word) = true
    · have hs : s.after t .readLock = s := if_pos hr
      rw [hs]
      exact h.quiet ⟨rfl, rfl, rfl⟩ rfl (fun _ => rfl) h.versions h.locking
    · have hs : s.after t .readLock = s.setThread t
        { s.thread t with versions := s.word :: (s.thread t).versions } :=
        if_neg hr
      rw [hs]
      have hfree : Free s.word := (free_iff s.word).2 (Bool.eq_false_iff.2 hr)
      exact h.quiet ⟨rfl, rfl, rfl⟩ rfl (holds_update s rfl)
        (h.versions_update (List.forall_mem_cons.2 ⟨hfree, h.versions t⟩))
        (h.locking_update (h.locking t))
  | writeLockLoad =>
    by_cases hr : (isLocked s.word || isObsolete s.word) = true
    · have hs : s.after t .writeLockLoad = s := if_pos hr
      rw [hs]
      exact h.quiet ⟨rfl, rfl, rfl⟩ rfl (fun _ => rfl) h.versions h.locking
    · have hs : s.after t .writeLockLoad = s.setThread t
        { s.thread t with locking := some s.word } := if_neg hr
      rw [hs]
      have hfree : Free s.word := (free_iff s.word).2 (Bool.eq_false_iff.2 hr)
      refine h.quiet ⟨rfl, rfl, rfl⟩ rfl (holds_update s rfl) (h.versions_update (h.versions t))
        (h.locking_update fun v hv => ?_)
      obtain rfl : s.word = v := Option.some.inj hv
      exact hfree
  | upgrade version =>
    by_cases hr : (version != s.word) = true
    · have hs : s.after t (.upgrade version) = s := if_pos hr
      rw [hs]
      exact h.quiet ⟨congrArg (!·) hr, rfl, rfl⟩ rfl (fun _ => rfl) h.versions h.locking
    · have hs : s.after t (.upgrade version) =
          ⟨version + 0b10, Function.update s.thread t { s.thread t with holds := true }⟩ :=
          if_neg hr
      have hv : version = s.word := by simpa using hr
      have hfree : Free s.word := hv ▸ h.versions t version he.2
      rw [hs]
      exact h.lock hw (t := t) hfree ⟨congrArg (!·) (Bool.eq_false_iff.2 hr), rfl,
        rfl⟩ hlt (by rw [hv])
        (holds_locks (h.of_free hw hfree).1 rfl) (h.versions_update (h.versions t))
        (h.locking_update (h.locking t))
  | writeLockUpgrade version =>
    by_cases hr : (version != s.word) = true
    · have hs : s.after t (.writeLockUpgrade version) = s.setThread t
        { s.thread t with locking := none } := if_pos hr
      rw [hs]
      exact h.quiet ⟨congrArg (!·) hr, rfl, rfl⟩ rfl
        (holds_update s rfl) (h.versions_update (h.versions t))
        (h.locking_update fun _ hv => nomatch hv)
    · have hs : s.after t (.writeLockUpgrade version) =
          ⟨version + 0b10, Function.update s.thread t { s.thread t with locking := none, holds :=
          true }⟩ := if_neg hr
      have hv : version = s.word := by simpa using hr
      have hfree : Free s.word := hv ▸ h.locking t version he
      rw [hs]
      exact h.lock hw (t := t) hfree ⟨congrArg (!·) (Bool.eq_false_iff.2 hr), rfl,
        rfl⟩ hlt (by rw [hv])
        (holds_locks (h.of_free hw hfree).1 rfl) (h.versions_update (h.versions t))
        (h.locking_update fun _ hv => nomatch hv)
  | writeUnlock =>
    exact h.unlock hw he.2 hlt' ⟨rfl, rfl⟩ rfl rfl (holds_unlocks s rfl)
      (h.versions_update (h.versions t)) (h.locking_update (h.locking t))
  | writeUnlockObsolete =>
    exact h.unlock hw he.2 hlt' ⟨rfl, rfl⟩ rfl rfl (holds_unlocks s rfl)
      (h.versions_update (h.versions t)) (h.locking_update (h.locking t))
  | readUnlock _ => exact h.quiet ⟨rfl, rfl, rfl⟩ rfl (fun _ => rfl) h.versions h.locking

/-- An obsolete node is not read, and not locked. -/
theorem refuses (h : Inv w es s) {a : Access} (he : Enabled s t a)
    (hobsolete : isObsolete s.word = true) :
    Event.reads ⟨t, a, s.word⟩ = false ∧ Event.begins ⟨t, a, s.word⟩ = false := by
  have hrestart : (isLocked s.word || isObsolete s.word) = true := by rw [hobsolete, Bool.or_true]
  have hne : ∀ v, Free v → (v != s.word) = true := fun v hv => bne_iff_ne.2 fun heq => by
    have hfree := (free_iff v).1 hv
    rw [heq, hrestart] at hfree
    cases hfree
  cases a with
  | readLock => exact ⟨congrArg (!·) hrestart, rfl⟩
  | writeLockLoad => exact ⟨congrArg (!·) hrestart, rfl⟩
  | upgrade version => exact ⟨rfl, congrArg (!·) (hne version (h.versions t version he.2))⟩
  | writeLockUpgrade version => exact ⟨rfl, congrArg (!·) (hne version (h.locking t version he))⟩
  | writeUnlock => exact ⟨rfl, rfl⟩
  | writeUnlockObsolete => exact ⟨rfl, rfl⟩
  | readUnlock _ => exact ⟨rfl, rfl⟩

/-- The type is above what is counted. -/
theorem type_eq (h : Inv w es s) (hw : Ready w) (hlt : es.countP Event.begins < 2 ^ 59) :
    s.word >>> 62 = w >>> 62 := by
  rw [← UInt64.toNat_inj, UInt64.toNat_shiftRight, UInt64.toNat_shiftRight]
  simp only [UInt64.reduceToNat, Nat.reduceMod, Nat.shiftRight_eq_div_pow]
  have hword := h.word
  have hroom := hw.2
  rcases h.holder with ⟨-, hcount, hle⟩ | ⟨-, -, hcount, hzero⟩ <;> omega

theorem exclusive (h : Inv w es s) {u : ℕ} (ht : (s.thread t).holds = true)
    (hu : (s.thread u).holds = true) : t = u := by
  rcases h.holder with ⟨hnone, -⟩ | ⟨t', ht', -⟩
  · rw [hnone t] at ht
    cases ht
  · rw [(ht' t).1 ht, (ht' u).1 hu]

end Inv

namespace Run

variable {w : UInt64} {es : List Event} {s : World}

theorem inv (h : Run (.initial w) es s) (hw : Ready w) (hlt : es.countP Event.begins < 2 ^ 59) :
    Inv w es s := by
  induction h with
  | refl => exact .initial w
  | step h he ih =>
    refine (ih (lt_of_le_of_lt ?_ hlt)).step hw he hlt
    exact (List.sublist_append_left ..).countP_le

/-- The run before an event. -/
theorem before {s₀ : World} {es₁ : List Event} {e : Event} {es₂ : List Event}
    (h : Run s₀ (es₁ ++ e :: es₂) s) :
    ∃ s₁, Run s₀ es₁ s₁ ∧ e.word = s₁.word ∧ Enabled s₁ e.thread e.access := by
  generalize hes : es₁ ++ e :: es₂ = es at h
  induction h generalizing es₂ with
  | refl => cases List.append_eq_nil_iff.1 hes |>.2
  | step h he ih =>
    rcases List.eq_nil_or_concat es₂ with rfl | ⟨es₂, e', rfl⟩
    · obtain ⟨rfl, heq⟩ := List.append_inj' hes rfl
      cases heq
      exact ⟨_, h, rfl, he⟩
    · rw [List.concat_eq_append, ← List.cons_append, ← List.append_assoc] at hes
      exact ih (List.append_inj' hes rfl).1

theorem inv_before {es₁ es₂ : List Event} {e : Event} (h : Run (.initial w) (es₁ ++ e :: es₂) s)
    (hw : Ready w) (hlt : (es₁ ++ e :: es₂).countP Event.begins < 2 ^ 59) :
    ∃ s₁, Inv w es₁ s₁ ∧ e.word = s₁.word ∧ Enabled s₁ e.thread e.access := by
  obtain ⟨s₁, hrun, hword, henabled⟩ := h.before
  exact ⟨s₁, hrun.inv hw (lt_of_le_of_lt (List.sublist_append_left ..).countP_le hlt),
    hword, henabled⟩

theorem obsolete {es₁ es₂ es₃ : List Event} {e e' : Event}
    (h : Run (.initial w) (es₁ ++ e :: (es₂ ++ e' :: es₃)) s) (hw : Ready w)
    (hlt : (es₁ ++ e :: (es₂ ++ e' :: es₃)).countP Event.begins < 2 ^ 59)
    (he : e.obsoletes = true ∨ isObsolete e.word = true) :
    isObsolete e'.word = true ∧ e'.reads = false ∧ e'.begins = false := by
  obtain ⟨s₁, hinv₁, hword₁, -⟩ := h.inv_before hw hlt
  rw [← List.cons_append, ← List.append_assoc] at h hlt
  obtain ⟨s₂, hinv₂, hword₂, henabled⟩ := h.inv_before hw hlt
  have hone : 1 ≤ (es₁ ++ e :: es₂).countP Event.obsoletes := by
    rcases he with he | he
    · exact List.countP_pos_iff.2 ⟨e, List.mem_append_right _ List.mem_cons_self, he⟩
    · rw [List.countP_append, (hinv₁.isObsolete_iff hw).1 (hword₁ ▸ he)]
      exact Nat.le_add_right ..
  have hobsolete : isObsolete s₂.word = true := by
    rw [hinv₂.isObsolete_iff hw]
    rcases hinv₂.holder with ⟨-, -, hle⟩ | ⟨-, -, -, hzero⟩ <;> omega
  have hevent : e' = ⟨e'.thread, e'.access, s₂.word⟩ := by rw [← hword₂]
  rw [hword₂, hevent]
  exact ⟨hobsolete, hinv₂.refuses henabled hobsolete⟩

theorem validated {es₁ es₂ es₃ : List Event} {e e' : Event}
    (h : Run (.initial w) (es₁ ++ e :: (es₂ ++ e' :: es₃)) s) (hw : Ready w)
    (hlt : (es₁ ++ e :: (es₂ ++ e' :: es₃)).countP Event.begins < 2 ^ 59)
    (he : e'.validates e.word = true) :
    ∀ e'' ∈ e :: es₂, e''.begins = false ∧ e''.ends = false := by
  obtain ⟨s₁, hinv₁, hword₁, -⟩ := h.inv_before hw hlt
  rw [← List.cons_append, ← List.append_assoc] at h hlt
  obtain ⟨s₂, hinv₂, hword₂, -⟩ := h.inv_before hw hlt
  -- Equal words count the same.
  have hword : s₂.word = s₁.word := by rw [← hword₁, ← hword₂, e'.word_of_validates he]
  have hcount := hinv₂.word
  rw [hword, hinv₁.word, List.countP_append, List.countP_append, List.countP_append] at hcount
  have hbegins : (e :: es₂).countP Event.begins = 0 := by omega
  have hends : (e :: es₂).countP Event.ends = 0 := by omega
  intro e'' he''
  exact ⟨Bool.eq_false_iff.2 (List.countP_eq_zero.1 hbegins e'' he''),
    Bool.eq_false_iff.2 (List.countP_eq_zero.1 hends e'' he'')⟩

theorem lock_sound (h : Run (.initial w) es s) (hw : Ready w)
    (hlt : es.countP Event.begins < 2 ^ 59) : Lawful (.initial w) es s where
  exclusive := fun _ _ => (h.inv hw hlt).exclusive
  locked_iff := (h.inv hw hlt).isLocked_iff hw
  getType := (h.inv hw hlt).type_eq hw hlt
  obsolete := by
    rintro es₁ e es₂ e' es₃ rfl
    exact h.obsolete hw hlt
  validated := by
    rintro es₁ e es₂ e' es₃ rfl
    exact h.validated hw hlt

/-- A thread reads the version, another locks the node and makes it obsolete, and the first cannot
upgrade. -/
theorem lock_sound_two :
    Lawful (.initial 0b100)
      [⟨0, .readLock, 0b100⟩, ⟨1, .writeLockLoad, 0b100⟩, ⟨1, .writeLockUpgrade 0b100, 0b100⟩,
        ⟨0, .upgrade 0b100, 0b110⟩, ⟨1, .writeUnlockObsolete, 0b110⟩, ⟨0, .readLock, 0b1001⟩]
      ((((((World.initial 0b100).after 0 .readLock).after 1 .writeLockLoad).after 1
        (.writeLockUpgrade 0b100)).after 0 (.upgrade 0b100)).after 1 .writeUnlockObsolete |>.after 0
        .readLock) := by
  have hnew : 0b100 + convertTypeToVersion 0 = 0b100 := by decide
  refine lock_sound ?_ (hnew ▸ ready_new (by decide)) (by decide)
  exact .step (.step (.step (.step (.step (.step .refl (by decide)) (by decide)) (by decide))
    (by decide)) (by decide))
    (by decide)

end Run

end TinyPointerTrees.Art.NodeLock
