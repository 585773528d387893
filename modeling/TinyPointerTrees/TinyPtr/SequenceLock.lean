import Mathlib.Tactic

/-!
# `SequenceLock`

A version number that is odd while somebody holds the lock exclusively. The locks are
objects that are moved and destroyed; an optimistic lock remembers the version at which
it was taken. Threads take turns with every access to the version.

`SequenceLock.lawful` — one object owns the lock at most, and the version is odd exactly
when one does. An optimistic lock is still valid exactly when nobody owns the lock and
the exclusive sections since it was taken have brought the version around.
-/

namespace TinyPointerTrees.SequenceLock

/-- `OptimisticLock<T>`, for a version type of `w` bits. -/
structure OptimisticLock (w : ℕ) where
  /-- `seqlock` is not null. -/
  held : Bool
  lockedVersion : BitVec w

/-- `OptimisticLock()`. -/
def OptimisticLock.new {w : ℕ} : OptimisticLock w := ⟨false, 0⟩

/-- A call, with the lock objects that it gets. The calls that lock say whether they `try_` to. -/
inductive Call where
  | lockOptimistically (o : ℕ) (tries : Bool)
  | lockExclusive (x : ℕ) (tries : Bool)
  | validate (o : ℕ)
  | tryUpgradeToExclusive (o x : ℕ)
  /-- `unlock`, which is also what the destructor does. -/
  | unlock (x : ℕ)
  /-- `y = std::move(x)`, for exclusive locks. -/
  | moveExclusive (x y : ℕ)
  /-- `p = std::move(o)`, for optimistic locks. -/
  | moveOptimistic (o p : ℕ)
  /-- `~OptimisticLock`; its storage may get a new one. -/
  | destroyOptimistic (o : ℕ)

/-- Where a thread is in a call. -/
inductive Pc (w : ℕ) where
  /-- The last call has returned. -/
  | idle (answer : Option Bool)
  /-- Before the load of `lock_optimistically`. -/
  | loadOptimistic (o : ℕ) (tries : Bool)
  /-- Before the lock object gets the version that has been loaded. -/
  | assign (o : ℕ) (version : BitVec w) (tries : Bool)
  /-- Before the load of `lock_exclusive`. -/
  | loadExclusive (x : ℕ) (tries : Bool)
  /-- Before its compare-and-swap. -/
  | cas (x : ℕ) (lockState : BitVec w) (tries : Bool)
  /-- After it. -/
  | acquired (x : ℕ) (tries : Bool)
  /-- Before the load of `validate`. -/
  | validate (o : ℕ)
  /-- Before the compare-and-swap of `try_upgrade_to_exclusive`. -/
  | upgrade (o x : ℕ)
  /-- After it. -/
  | upgraded (o x : ℕ)
  /-- Before the `fetch_add` of `unlock`. -/
  | unlock (x : ℕ)
  /-- After it. -/
  | released (x : ℕ)
  deriving DecidableEq

/-- A lock, the lock objects, and the threads. -/
structure World (w : ℕ) where
  version : BitVec w
  /-- Whether `seqlock` of an `ExclusiveLock` is not null. -/
  exclusive : ℕ → Bool
  optimistic : ℕ → OptimisticLock w
  pc : ℕ → Pc w

/-- `is_locked_state`. -/
def IsLockedState {w : ℕ} (version : BitVec w) : Prop := version.toNat % 2 = 1

instance {w : ℕ} (version : BitVec w) : Decidable (IsLockedState version) :=
  inferInstanceAs (Decidable (_ = _))

/-- What a call that locks answers when it has succeeded. -/
def success (tries : Bool) : Option Bool := if tries then some true else none

namespace World

variable {w : ℕ} (W : World w)

/-- No lock object holds the lock, and no thread is in a call. -/
def initial (w : ℕ) : World w := ⟨0, fun _ => false, fun _ => .new, fun _ => .idle none⟩

/-- The thread goes on. -/
def goto (t : ℕ) (P : Pc w) : World w := { W with pc := Function.update W.pc t P }

/-- A thread begins a call. Moves and what only tests a lock object are over at once. -/
def call (t : ℕ) : Call → World w
  | .lockOptimistically o tries => W.goto t (.loadOptimistic o tries)
  | .lockExclusive x tries => W.goto t (.loadExclusive x tries)
  | .validate o => W.goto t (.validate o)
  | .tryUpgradeToExclusive o x => W.goto t (.upgrade o x)
  | .unlock x => if W.exclusive x then W.goto t (.unlock x) else W.goto t (.idle none)
  | .moveExclusive x y =>
    if x = y then W.goto t (.idle none)
    else
      { W with
        exclusive := Function.update (Function.update W.exclusive y (W.exclusive x)) x
          false }.goto t (.idle none)
  | .moveOptimistic o p =>
    if o = p then W.goto t (.idle none)
    else
      { W with
        optimistic := Function.update (Function.update W.optimistic p (W.optimistic o)) o
          { W.optimistic o with held := false } }.goto t (.idle none)
  | .destroyOptimistic o =>
    { W with optimistic := Function.update W.optimistic o .new }.goto t (.idle none)

/-- The next step of a thread. A weak compare-and-swap may fail although the version is the expected
one. -/
def step (t : ℕ) (spurious : Bool) : World w :=
  match W.pc t with
  | .idle _ => W
  | .loadOptimistic o tries =>
    if IsLockedState W.version then
      W.goto t (if tries then .idle (some false) else .loadOptimistic o tries)
    else W.goto t (.assign o W.version tries)
  | .assign o version tries =>
    { W with optimistic := Function.update W.optimistic o ⟨true, version⟩ }.goto t
      (.idle (success tries))
  | .loadExclusive x tries =>
    if IsLockedState W.version then
      W.goto t (if tries then .idle (some false) else .loadExclusive x tries)
    else W.goto t (.cas x W.version tries)
  | .cas x lockState tries =>
    if W.version = lockState ∧ (tries ∨ ¬spurious) then
      { W with version := lockState + 1 }.goto t (.acquired x tries)
    else W.goto t (if tries then .idle (some false) else .loadExclusive x tries)
  | .acquired x tries =>
    { W with exclusive := Function.update W.exclusive x true }.goto t (.idle (success tries))
  | .validate o => W.goto t (.idle (some (decide (W.version = (W.optimistic o).lockedVersion))))
  | .upgrade o x =>
    if W.version = (W.optimistic o).lockedVersion then
      { W with version := (W.optimistic o).lockedVersion + 1 }.goto t (.upgraded o x)
    else W.goto t (.idle (some false))
  | .upgraded o x =>
    { W with
      exclusive := Function.update W.exclusive x true
      optimistic := Function.update W.optimistic o { W.optimistic o with held := false } }.goto t
        (.idle (some true))
  | .unlock x => { W with version := W.version + 1 }.goto t (.released x)
  | .released x => { W with exclusive := Function.update W.exclusive x false }.goto t (.idle none)

end World

/-! ### What is presupposed -/

namespace Pc

variable {w : ℕ}

/-- The exclusive lock that the call writes. -/
def exclusive : Pc w → Option ℕ
  | .loadExclusive x _ | .cas x _ _ | .acquired x _ | .upgrade _ x | .upgraded _ x | .unlock x
  | .released x => some x
  | _ => none

/-- The optimistic lock that the call writes. -/
def writes : Pc w → Option ℕ
  | .loadOptimistic o _ | .assign o _ _ | .upgrade o _ | .upgraded o _ => some o
  | _ => none

/-- The optimistic lock that the call only reads. -/
def reads : Pc w → Option ℕ
  | .validate o => some o
  | _ => none

/-- The exclusive lock that has been acquired, but does not say so yet. -/
def acquiring : Pc w → Option ℕ
  | .acquired x _ | .upgraded _ x => some x
  | _ => none

/-- The optimistic lock that the call was told to be held. -/
def source : Pc w → Option ℕ
  | .validate o | .upgrade o _ | .upgraded o _ => some o
  | _ => none

/-- The exclusive lock is held as long as the call is here. -/
def full : Pc w → Bool
  | .unlock _ | .released _ => true
  | _ => false

end Pc

namespace Call

/-- The exclusive locks that the call writes. -/
def exclusive : Call → List ℕ
  | .lockExclusive x _ | .tryUpgradeToExclusive _ x | .unlock x => [x]
  | .moveExclusive x y => [x, y]
  | _ => []

/-- The optimistic locks that the call writes. -/
def writes : Call → List ℕ
  | .lockOptimistically o _ | .tryUpgradeToExclusive o _ | .destroyOptimistic o => [o]
  | .moveOptimistic o p => [o, p]
  | _ => []

/-- The optimistic locks that the call only reads. -/
def reads : Call → List ℕ
  | .validate o => [o]
  | _ => []

/-- The asserted preconditions: a lock object that gets the lock is empty, and an optimistic lock
that is used is held. -/
def Asserts {w : ℕ} (W : World w) : Call → Prop
  | .lockOptimistically o _ => (W.optimistic o).held = false
  | .lockExclusive x _ => W.exclusive x = false
  | .validate o => (W.optimistic o).held = true
  | .tryUpgradeToExclusive o x => (W.optimistic o).held = true ∧ W.exclusive x = false
  | .moveExclusive x y => x ≠ y → W.exclusive y = false
  | .unlock _ | .moveOptimistic _ _ | .destroyOptimistic _ => True

end Call

/-- A thread may begin a call: it is not in another one, the asserted preconditions hold, and there
is no data race for a lock object with a call of another thread. -/
structure World.Allows {w : ℕ} (W : World w) (t : ℕ) (k : Call) : Prop where
  idle : ∃ answer, W.pc t = .idle answer
  asserts : k.Asserts W
  exclusive : ∀ u, ∀ x ∈ k.exclusive, (W.pc u).exclusive ≠ some x
  writes : ∀ u, ∀ o ∈ k.writes, (W.pc u).writes ≠ some o ∧ (W.pc u).reads ≠ some o
  reads : ∀ u, ∀ o ∈ k.reads, (W.pc u).writes ≠ some o

/-! ### What has happened -/

/-- What has happened so far. -/
structure History where
  /-- How many exclusive sections have been completed. -/
  sections : ℕ
  /-- How many had been when an optimistic lock was taken. -/
  taken : ℕ → ℕ
  /-- How many had been when a thread loaded the version for the last time. -/
  loaded : ℕ → ℕ

namespace History

variable {w : ℕ} (g : History) (W : World w)

def initial : History := ⟨0, fun _ => 0, fun _ => 0⟩

/-- After the beginning of a call. -/
def call : Call → History
  | .moveOptimistic o p => { g with taken := Function.update g.taken p (g.taken o) }
  | _ => g

/-- After a step of a thread. -/
def step (t : ℕ) : History :=
  match W.pc t with
  | .loadOptimistic _ _ => { g with loaded := Function.update g.loaded t g.sections }
  | .assign o _ _ => { g with taken := Function.update g.taken o (g.loaded t) }
  | .unlock _ => { g with sections := g.sections + 1 }
  | _ => g

end History

/-- What any interleaving of the calls reaches. -/
inductive Reach (w : ℕ) : World w → History → Prop
  | initial : Reach w (.initial w) .initial
  | call {W : World w} {g : History} {t : ℕ} {k : Call} (h : Reach w W g) (hk : W.Allows t k) :
      Reach w (W.call t k) (g.call k)
  | step {W : World w} {g : History} (h : Reach w W g) (t : ℕ) (spurious : Bool) :
      Reach w (W.step t spurious) (g.step W t)

/-- The object owns the lock, from the compare-and-swap that acquires it to the `fetch_add` that
releases it. -/
def World.Owns {w : ℕ} (W : World w) (x : ℕ) : Prop :=
  (W.exclusive x = true ∧ ∀ t, W.pc t ≠ .released x) ∨ ∃ t, (W.pc t).acquiring = some x

/-- The assertions of the step that a thread does next. -/
def World.Asserted {w : ℕ} (W : World w) (t : ℕ) : Prop :=
  match W.pc t with
  | .acquired _ _ | .unlock _ => IsLockedState W.version
  | .validate o | .upgrade o _ =>
    (W.optimistic o).held = true ∧ ¬IsLockedState (W.optimistic o).lockedVersion
  | _ => True

/-- Nobody owns the lock, and the exclusive sections since the optimistic lock was taken have
brought the version around. -/
def World.Around {w : ℕ} (W : World w) (g : History) (o : ℕ) : Prop :=
  (∀ x, ¬W.Owns x) ∧ 2 ^ (w - 1) ∣ g.sections - g.taken o

/-- What a sequence lock promises. -/
structure Lawful {w : ℕ} (W : World w) (g : History) : Prop where
  one : ∀ x y, W.Owns x → W.Owns y → x = y
  odd_iff : IsLockedState W.version ↔ ∃ x, W.Owns x
  asserted : ∀ t, W.Asserted t
  taken_le : ∀ o, (W.optimistic o).held = true → g.taken o ≤ g.sections
  validate : ∀ t o spurious, W.pc t = .validate o →
    ∃ b, (W.step t spurious).pc t = .idle (some b) ∧ (b = true ↔ W.Around g o)
  upgrade : ∀ t o x spurious, W.pc t = .upgrade o x →
    ∃ b, (W.step t spurious).pc t = (if b then .upgraded o x else .idle (some false)) ∧
    (b = true ↔ W.Around g o)

/-! ### What a step touches -/

variable {w : ℕ} {W W' : World w} {g g' : History} {t u x y o p : ℕ} {P : Pc w} {k : Call}
  {spurious tries : Bool}

namespace World

@[simp] theorem goto_version (W : World w) (t : ℕ) (P : Pc w) : (W.goto t P).version = W.version :=
  rfl
@[simp] theorem goto_exclusive (W : World w) (t : ℕ) (P : Pc w) :
    (W.goto t P).exclusive = W.exclusive := rfl
@[simp] theorem goto_optimistic (W : World w) (t : ℕ) (P : Pc w) :
    (W.goto t P).optimistic = W.optimistic := rfl
@[simp] theorem goto_pc (W : World w) (t : ℕ) (P : Pc w) :
    (W.goto t P).pc = Function.update W.pc t P := rfl

/-- No other thread moves. -/
theorem step_pc_ne (h : u ≠ t) : (W.step t spurious).pc u = W.pc u := by
  cases hP : W.pc t <;> simp only [step, hP] <;> (try split_ifs) <;> simp [h]

theorem call_pc_ne (h : u ≠ t) : (W.call t k).pc u = W.pc u := by
  cases k <;> simp only [call] <;> (try split_ifs) <;> simp [h]

/-- A thread goes on with the lock objects of its call. -/
theorem step_exclusive_eq (h : ((W.step t spurious).pc u).exclusive = some x) :
    (W.pc u).exclusive = some x := by
  by_cases hu : u = t
  · subst hu
    cases hP : W.pc u <;> simp only [step, hP] at h ⊢ <;> (try split_ifs at h) <;>
      simp_all [Pc.exclusive]
  · rwa [step_pc_ne hu] at h

theorem step_writes_eq (h : ((W.step t spurious).pc u).writes = some o) :
    (W.pc u).writes = some o := by
  by_cases hu : u = t
  · subst hu
    cases hP : W.pc u <;> simp only [step, hP] at h ⊢ <;> (try split_ifs at h) <;>
      simp_all [Pc.writes]
  · rwa [step_pc_ne hu] at h

theorem step_reads_eq (h : ((W.step t spurious).pc u).reads = some o) :
    (W.pc u).reads = some o := by
  by_cases hu : u = t
  · subst hu
    cases hP : W.pc u <;> simp only [step, hP] at h ⊢ <;> (try split_ifs at h) <;>
      simp_all [Pc.reads]
  · rwa [step_pc_ne hu] at h

/-- It writes no other ones. -/
theorem step_exclusive_ne (h : (W.pc t).exclusive ≠ some x) :
    (W.step t spurious).exclusive x = W.exclusive x := by
  cases hP : W.pc t <;> rw [hP] at h <;> simp only [step, hP] <;> (try split_ifs) <;>
    simp_all [Pc.exclusive, eq_comm]

theorem step_optimistic_ne (h : (W.pc t).writes ≠ some o) :
    (W.step t spurious).optimistic o = W.optimistic o := by
  cases hP : W.pc t <;> rw [hP] at h <;> simp only [step,
    hP] <;> (try split_ifs) <;> simp_all [Pc.writes, eq_comm]

theorem call_exclusive_ne (h : x ∉ k.exclusive) : (W.call t k).exclusive x = W.exclusive x := by
  cases k <;> simp only [call] <;> (try split_ifs) <;> simp_all [Call.exclusive]

theorem call_optimistic_ne (h : o ∉ k.writes) : (W.call t k).optimistic o = W.optimistic o := by
  cases k <;> simp only [call] <;> (try split_ifs) <;> simp_all [Call.writes]

/-- A thread begins a call with the lock objects that it gets. -/
theorem call_exclusive_mem (h : ((W.call t k).pc t).exclusive = some x) : x ∈ k.exclusive := by
  cases k <;> simp only [call] at h <;>
    (try split_ifs at h) <;> simp_all [Pc.exclusive, Call.exclusive]

theorem call_writes_mem (h : ((W.call t k).pc t).writes = some o) : o ∈ k.writes := by
  cases k <;> simp only [call] at h <;> (try split_ifs at h) <;> simp_all [Pc.writes, Call.writes]

theorem call_reads_mem (h : ((W.call t k).pc t).reads = some o) : o ∈ k.reads := by
  cases k <;> simp only [call] at h <;> (try split_ifs at h) <;> simp_all [Pc.reads, Call.reads]

end World

theorem Pc.exclusive_of_acquiring (h : P.acquiring = some x) : P.exclusive = some x := by
  cases P <;> simp_all [Pc.acquiring, Pc.exclusive]

theorem Pc.uses_of_source (h : P.source = some o) : P.writes = some o ∨ P.reads = some o := by
  cases P <;> simp_all [Pc.source, Pc.writes, Pc.reads]

/-! ### Lock objects belong to one call -/

/-- No two calls get in each other's way, and the lock objects are as the calls left them. -/
structure Confined (W : World w) : Prop where
  exclusive : ∀ t u x, (W.pc t).exclusive = some x → (W.pc u).exclusive = some x → t = u
  writes : ∀ t u o, (W.pc t).writes = some o → (W.pc u).writes = some o → t = u
  reads : ∀ t u o, (W.pc t).writes = some o → (W.pc u).reads ≠ some o
  full : ∀ t x, (W.pc t).exclusive = some x → W.exclusive x = (W.pc t).full
  source : ∀ t o, (W.pc t).source = some o → (W.optimistic o).held = true

namespace Confined

theorem initial : Confined (World.initial w) := by
  constructor <;> simp [World.initial, Pc.exclusive, Pc.writes, Pc.source]

/-- What another thread uses is not written. -/
theorem writes_ne (h : Confined W) (hu : u ≠ t)
    (ho : (W.pc u).source = some o) : (W.pc t).writes ≠ some o := by
  intro hw
  rcases Pc.uses_of_source ho with hwu | hru
  · exact hu (h.writes u t o hwu hw)
  · exact h.reads t u o hw hru

theorem step (h : Confined W) (t : ℕ) (spurious : Bool) : Confined (W.step t spurious) := by
  refine ⟨fun u v x hu hv => ?_, fun u v o hu hv => ?_, fun u v o hu hv => ?_, fun u x hx => ?_,
    fun u o ho => ?_⟩
  · exact h.exclusive u v x (World.step_exclusive_eq hu) (World.step_exclusive_eq hv)
  · exact h.writes u v o (World.step_writes_eq hu) (World.step_writes_eq hv)
  · exact h.reads u v o (World.step_writes_eq hu) (World.step_reads_eq hv)
  · have hx' := World.step_exclusive_eq hx
    by_cases hu : u = t
    · subst hu
      have hfull := h.full u x hx'
      cases hP : W.pc u <;> simp only [World.step, hP] at hx ⊢ <;> (try split_ifs at hx ⊢) <;>
        simp_all [Pc.exclusive, Pc.full]
    · have hne : (W.pc t).exclusive ≠ some x := fun hxt => hu (h.exclusive u t x hx' hxt)
      rw [World.step_pc_ne hu, World.step_exclusive_ne hne]
      exact h.full u x hx'
  · by_cases hu : u = t
    · subst hu
      have hheld := h.source u
      cases hP : W.pc u <;> simp only [World.step, hP] at ho ⊢ <;> (try split_ifs at ho ⊢) <;>
        simp_all [Pc.source]
    · rw [World.step_pc_ne hu] at ho
      rw [World.step_optimistic_ne (h.writes_ne hu ho)]
      exact h.source u o ho

/-- No lock object gets two users when one thread begins a call with lock objects that nobody
uses. -/
theorem unique_of_others {uses : Pc w → Option ℕ} {pc pc' : ℕ → Pc w}
    (h : ∀ u v x, uses (pc u) = some x → uses (pc v) = some x → u = v) (hother : ∀ u,
      u ≠ t → pc' u = pc u)
    (hnew : ∀ u x, uses (pc' t) = some x → uses (pc u) ≠ some x)
    (u v x : ℕ) (hu : uses (pc' u) = some x)
    (hv : uses (pc' v) = some x) : u = v := by
  by_cases hut : u = t <;> by_cases hvt : v = t
  · exact hut.trans hvt.symm
  · subst hut
    rw [hother v hvt] at hv
    exact absurd hv (hnew v x hu)
  · subst hvt
    rw [hother u hut] at hu
    exact absurd hu (hnew u x hv)
  · rw [hother u hut] at hu
    rw [hother v hvt] at hv
    exact h u v x hu hv

theorem call (h : Confined W) (hk : W.Allows t k) : Confined (W.call t k) := by
  have hother : ∀ u, u ≠ t → (W.call t k).pc u = W.pc u := fun u => World.call_pc_ne
  refine ⟨?_, ?_, fun u v o hu hv => ?_, fun u x hx => ?_, fun u o ho => ?_⟩
  · apply unique_of_others h.exclusive hother
    exact fun u x hx => hk.exclusive u x (World.call_exclusive_mem hx)
  · apply unique_of_others h.writes hother
    exact fun u o ho => (hk.writes u o (World.call_writes_mem ho)).1
  · by_cases hut : u = t <;> by_cases hvt : v = t
    · subst hut
      subst hvt
      cases k <;> simp only [World.call] at hu hv <;> (try
        split_ifs at hu hv) <;> simp_all [Pc.writes, Pc.reads]
    · subst hut
      rw [hother v hvt] at hv
      exact absurd hv (hk.writes v o (World.call_writes_mem hu)).2
    · subst hvt
      rw [hother u hut] at hu
      exact absurd hu (hk.reads u o (World.call_reads_mem hv))
    · rw [hother u hut] at hu
      rw [hother v hvt] at hv
      exact h.reads u v o hu hv
  · by_cases hut : u = t
    · subst hut
      have hasserts := hk.asserts
      cases k <;> simp only [World.call] at hx ⊢ <;> (try split_ifs at hx ⊢) <;>
        simp_all [Pc.exclusive, Pc.full, Call.Asserts]
    · rw [hother u hut] at hx ⊢
      rw [World.call_exclusive_ne fun hmem => hk.exclusive u x hmem hx]
      exact h.full u x hx
  · by_cases hut : u = t
    · subst hut
      have hasserts := hk.asserts
      cases k <;> simp only [World.call] at ho ⊢ <;> (try split_ifs at ho ⊢) <;>
        simp_all [Pc.source, Call.Asserts]
    · rw [hother u hut] at ho
      have hne : o ∉ k.writes := by
        intro hmem
        rcases Pc.uses_of_source ho with hw | hr
        · exact (hk.writes u o hmem).1 hw
        · exact (hk.writes u o hmem).2 hr
      rw [World.call_optimistic_ne hne]
      exact h.source u o ho

end Confined

/-! ### Who owns the lock -/

/-- Ownership, as far as the thread and the lock object of its call tell. -/
def Pc.Owning (P : Pc w) (held : Bool) (x : ℕ) : Prop :=
  held = true ∧ P ≠ .released x ∨ P.acquiring = some x

/-- Whether a lock object owns the lock is told by the call that uses it, -/
theorem Confined.owns_iff (h : Confined W) (hx : (W.pc t).exclusive = some x) :
    W.Owns x ↔ (W.pc t).Owning (W.exclusive x) x := by
  unfold World.Owns Pc.Owning
  constructor
  · rintro (⟨he, hr⟩ | ⟨u, hu⟩)
    · exact .inl ⟨he, hr t⟩
    · obtain rfl := h.exclusive u t x (Pc.exclusive_of_acquiring hu) hx
      exact .inr hu
  · rintro (⟨he, hr⟩ | ha)
    · refine .inl ⟨he, fun u hu => ?_⟩
      obtain rfl := h.exclusive u t x (by rw [hu]; rfl) hx
      exact hr hu
    · exact .inr ⟨t, ha⟩

/-- and by itself if no call uses it. -/
theorem World.owns_of_unused (hx : ∀ t, (W.pc t).exclusive ≠ some x) :
    W.Owns x ↔ W.exclusive x = true := by
  unfold World.Owns
  constructor
  · rintro (⟨he, -⟩ | ⟨u, hu⟩)
    · exact he
    · exact absurd (Pc.exclusive_of_acquiring hu) (hx u)
  · exact fun he => .inl ⟨he, fun t ht => hx t (by rw [ht]; rfl)⟩

/-- Nothing changes for a lock object that is not touched. -/
theorem World.owns_congr (he : W'.exclusive x = W.exclusive x)
    (hpc : ∀ u, W'.pc u = W.pc u ∨ (W'.pc u).exclusive ≠ some x ∧ (W.pc u).exclusive ≠ some x) :
    W'.Owns x ↔ W.Owns x := by
  unfold World.Owns
  have hacq : ∀ u, (W'.pc u).acquiring = some x ↔ (W.pc u).acquiring = some x := by
    intro u
    rcases hpc u with hu | ⟨hu', hu⟩
    · rw [hu]
    · exact iff_of_false (fun h => hu' (Pc.exclusive_of_acquiring h)) fun h =>
        hu (Pc.exclusive_of_acquiring h)
  have hrel : ∀ u, W'.pc u ≠ .released x ↔ W.pc u ≠ .released x := by
    intro u
    rcases hpc u with hu | ⟨hu', hu⟩
    · rw [hu]
    · exact iff_of_true (fun h => hu' (by rw [h]; rfl)) fun h => hu (by rw [h]; rfl)
  rw [he]
  exact or_congr (and_congr_right fun _ => forall_congr' hrel) (exists_congr hacq)

/-- What becomes of the version, of the sections and of ownership. -/
inductive Effect (W W' : World w) (g g' : History) : Prop
  | acquire (x : ℕ) (hx : ¬W.Owns x) (hfree : ¬IsLockedState W.version)
      (hversion : W'.version = W.version + 1) (hsections : g'.sections = g.sections)
      (howns : ∀ y, W'.Owns y ↔ W.Owns y ∨ y = x)
  | release (x : ℕ) (hx : W.Owns x) (hversion : W'.version = W.version + 1)
      (hsections : g'.sections = g.sections + 1) (howns : ∀ y, W'.Owns y ↔ W.Owns y ∧ y ≠ x)
  | hand (x y : ℕ) (hx : W.Owns x) (hversion : W'.version = W.version)
      (hsections : g'.sections = g.sections) (howns : ∀ z, W'.Owns z ↔ W.Owns z ∧ z ≠ x ∨ z = y)
  | keep (hversion : W'.version = W.version) (hsections : g'.sections = g.sections)
      (howns : ∀ y, W'.Owns y ↔ W.Owns y)

/-- The version tells how many sections have been completed, and whether there is an owner. -/
def Versioned (W : World w) (g : History) : Prop :=
  ∃ owner : Option ℕ, (∀ x, W.Owns x ↔ owner = some x) ∧
    W.version.toNat = (2 * g.sections + owner.isSome.toNat) % 2 ^ w

theorem mod_two {n : ℕ} (hw : 0 < w) : n % 2 ^ w % 2 = n % 2 :=
  Nat.mod_mod_of_dvd n (dvd_pow_self 2 hw.ne')

theorem toNat_add_one {v : BitVec w} {n : ℕ} (h : v.toNat = n % 2 ^ w) :
    (v + 1).toNat = (n + 1) % 2 ^ w := by
  rw [BitVec.toNat_add, h]
  simp [Nat.add_mod]

theorem isLockedState_iff {v : BitVec w} {n : ℕ} (hw : 0 < w) (h : v.toNat = n % 2 ^ w) :
    IsLockedState v ↔ n % 2 = 1 := by
  rw [IsLockedState, h, mod_two hw]

/-- The version is odd exactly when somebody owns the lock. -/
theorem Versioned.odd_iff (hw : 0 < w) (h : Versioned W g) :
    IsLockedState W.version ↔ ∃ x, W.Owns x := by
  obtain ⟨owner, howner, hversion⟩ := h
  rw [isLockedState_iff hw hversion]
  simp only [howner]
  cases owner with
  | none => simp
  | some x =>
    simp only [Option.isSome_some, Bool.toNat_true, Option.some.injEq, exists_eq', iff_true]
    omega

/-- Without an owner the version counts the sections. -/
theorem Versioned.toNat_of_free (hw : 0 < w) (h : Versioned W g)
    (hfree : ¬IsLockedState W.version) : W.version.toNat = 2 * g.sections % 2 ^ w := by
  obtain ⟨owner, howner, hversion⟩ := h
  cases owner with
  | none => exact hversion
  | some x =>
    rw [isLockedState_iff hw hversion] at hfree
    simp only [Option.isSome_some, Bool.toNat_true] at hfree
    omega

theorem Effect.versioned (he : Effect W W' g g') (hw : 0 < w) (h : Versioned W g) :
    Versioned W' g' := by
  have hodd := h.odd_iff hw
  obtain ⟨owner, howner, hversion⟩ := h
  cases he with
  | acquire x hx hfree hv hs ho =>
    have hnone : owner = none := by
      cases owner with
      | none => rfl
      | some y => exact absurd (hodd.2 ⟨y, (howner y).2 rfl⟩) hfree
    subst hnone
    refine ⟨some x, fun y => ?_, ?_⟩
    · rw [ho, howner]
      simp [eq_comm]
    · rw [hv, hs]
      exact toNat_add_one hversion
  | release x hx hv hs ho =>
    obtain rfl := (howner x).1 hx
    refine ⟨none, fun y => ?_, ?_⟩
    · rw [ho, howner]
      simp [eq_comm]
    · rw [hv, hs]
      exact toNat_add_one hversion
  | hand x y hx hv hs ho =>
    obtain rfl := (howner x).1 hx
    refine ⟨some y, fun z => ?_, by rw [hv, hs, hversion]; rfl⟩
    rw [ho, howner]
    simp only [Option.some.injEq]
    constructor
    · rintro (⟨rfl, hne⟩ | rfl)
      · exact absurd rfl hne
      · rfl
    · exact fun h => .inr h.symm
  | keep hv hs ho => exact ⟨owner, fun x => (ho x).trans (howner x), by rw [hv, hs, hversion]⟩

/-! ### The versions that are remembered -/

/-- The versions that lock objects and threads remember. -/
structure Remembered (W : World w) (g : History) : Prop where
  held : ∀ o, (W.optimistic o).held = true →
    (W.optimistic o).lockedVersion.toNat = 2 * g.taken o % 2 ^ w ∧ g.taken o ≤ g.sections
  assign : ∀ t o v tries, W.pc t = .assign o v tries →
    v.toNat = 2 * g.loaded t % 2 ^ w ∧ g.loaded t ≤ g.sections
  cas : ∀ t x v tries, W.pc t = .cas x v tries → ¬IsLockedState v

theorem Remembered.not_locked (hw : 0 < w) (h : Remembered W g)
    (ho : (W.optimistic o).held = true) : ¬IsLockedState (W.optimistic o).lockedVersion := by
  rw [isLockedState_iff hw (h.held o ho).1]
  omega

theorem sections_le_step : g.sections ≤ (g.step W t).sections := by
  unfold History.step
  split <;> simp

/-- What a lock object remembers, unless the call writes it. -/
theorem Remembered.step_held (h : Remembered W g) (hne : (W.pc t).writes ≠ some o)
    (ho : ((W.step t spurious).optimistic o).held = true) :
    ((W.step t spurious).optimistic o).lockedVersion.toNat = 2 * (g.step W t).taken o % 2 ^ w ∧
      (g.step W t).taken o ≤ (g.step W t).sections := by
  have htaken : (g.step W t).taken o = g.taken o := by
    unfold History.step
    split
    · rfl
    · rename_i o' v tries hP
      rw [hP] at hne
      exact Function.update_of_ne (fun he => hne (by rw [he]; rfl)) ..
    · rfl
    · rfl
  rw [World.step_optimistic_ne hne] at ho ⊢
  rw [htaken]
  exact ⟨(h.held o ho).1, (h.held o ho).2.trans sections_le_step⟩

theorem Remembered.step (hw : 0 < w) (h : Remembered W g) (hv : Versioned W g) (t : ℕ)
    (spurious : Bool) : Remembered (W.step t spurious) (g.step W t) := by
  refine ⟨fun o ho => ?_, fun u o v tries hu => ?_, fun u x v tries hu => ?_⟩
  · by_cases hwo : (W.pc t).writes = some o
    · cases hP : W.pc t with
      | loadOptimistic o' tries =>
        have hopt : (W.step t spurious).optimistic = W.optimistic := by
          simp only [World.step, hP]
          split_ifs <;> rfl
        rw [hopt] at ho ⊢
        simp only [History.step, hP]
        exact h.held o ho
      | assign o' v tries =>
        rw [hP] at hwo
        obtain rfl : o' = o := Option.some.inj hwo
        simp only [World.step, History.step, hP, World.goto_optimistic, Function.update_self]
        exact h.assign t o' v tries hP
      | upgrade o' x =>
        have hopt : (W.step t spurious).optimistic = W.optimistic := by
          simp only [World.step, hP]
          split_ifs <;> rfl
        rw [hopt] at ho ⊢
        simp only [History.step, hP]
        exact h.held o ho
      | upgraded o' x =>
        rw [hP] at hwo
        obtain rfl : o' = o := Option.some.inj hwo
        simp [World.step, hP] at ho
      | _ => simp [hP, Pc.writes] at hwo
    · exact h.step_held hwo ho
  · by_cases hut : u = t
    · subst hut
      cases hP : W.pc u with
      | loadOptimistic o' tries' =>
        -- the version that has just been loaded
        simp only [World.step, hP] at hu
        simp only [History.step, hP, Function.update_self]
        split_ifs at hu with hlocked htries
        · simp at hu
        · simp at hu
        · simp only [World.goto_pc, Function.update_self, Pc.assign.injEq] at hu
          rw [← hu.2.1]
          exact ⟨hv.toNat_of_free hw hlocked, le_rfl⟩
      | _ =>
        simp only [World.step, hP] at hu
        (try split_ifs at hu) <;> simp_all
    · rw [World.step_pc_ne hut] at hu
      have hloaded : (g.step W t).loaded u = g.loaded u := by
        unfold History.step
        split <;> simp [hut]
      rw [hloaded]
      exact ⟨(h.assign u o v tries hu).1, (h.assign u o v tries hu).2.trans sections_le_step⟩
  · by_cases hut : u = t
    · subst hut
      have hcas := h.cas u x v tries
      cases hP : W.pc u <;> simp only [World.step, hP] at hu <;> (try split_ifs at hu) <;> simp_all
    · rw [World.step_pc_ne hut] at hu
      exact h.cas u x v tries hu

theorem Remembered.call (h : Remembered W g) (t : ℕ) (k : Call) : Remembered
    (W.call t k) (g.call k) := by
  have hsections : (g.call k).sections = g.sections := by cases k <;> rfl
  have hloaded : (g.call k).loaded = g.loaded := by cases k <;> rfl
  have hpc : ∀ u o v tries, (W.call t k).pc u = .assign o v tries → W.pc u = .assign o v tries := by
    intro u o v tries hu
    by_cases hut : u = t
    · subst hut
      cases k <;> simp only [World.call] at hu <;> (try split_ifs at hu) <;> simp at hu
    · rwa [World.call_pc_ne hut] at hu
  refine ⟨fun o ho => ?_, fun u o v tries hu => ?_, fun u x v tries hu => ?_⟩
  · rw [hsections]
    cases k with
    | moveOptimistic o₁ o₂ =>
      by_cases heq : o₁ = o₂
      · simp only [World.call, if_pos heq, World.goto_optimistic] at ho ⊢
        simp only [History.call, heq, Function.update_eq_self]
        exact h.held o ho
      · simp only [World.call, if_neg heq, World.goto_optimistic] at ho ⊢
        simp only [History.call]
        by_cases h₁ : o = o₁
        · subst h₁
          simp at ho
        · rw [Function.update_of_ne h₁] at ho ⊢
          by_cases h₂ : o = o₂
          · subst h₂
            simp only [Function.update_self] at ho ⊢
            exact h.held o₁ ho
          · rw [Function.update_of_ne h₂] at ho ⊢
            rw [Function.update_of_ne h₂]
            exact h.held o ho
    | destroyOptimistic o₁ =>
      simp only [World.call, World.goto_optimistic] at ho ⊢
      by_cases h₁ : o = o₁
      · subst h₁
        simp [OptimisticLock.new] at ho
      · rw [Function.update_of_ne h₁] at ho ⊢
        exact h.held o ho
    | unlock x | moveExclusive x y =>
      simp only [World.call] at ho ⊢
      split_ifs at ho ⊢ <;> exact h.held o ho
    | _ => exact h.held o ho
  · rw [hsections, hloaded]
    exact h.assign u o v tries (hpc u o v tries hu)
  · by_cases hut : u = t
    · subst hut
      cases k <;> simp only [World.call] at hu <;> (try split_ifs at hu) <;> simp at hu
    · rw [World.call_pc_ne hut] at hu
      exact h.cas u x v tries hu

/-! ### Steps -/

/-- A lock object of the call, after a step. -/
theorem Confined.step_owns_iff (h : Confined W) (hx : (W.pc t).exclusive = some x) :
    (W.step t spurious).Owns x ↔ ((W.step t spurious).pc t).Owning
      ((W.step t spurious).exclusive x) x := by
  by_cases hx' : ((W.step t spurious).pc t).exclusive = some x
  · exact (h.step t spurious).owns_iff hx'
  · rw [World.owns_of_unused]
    · refine ⟨fun he => .inl ⟨he, fun hr => hx' (by rw [hr]; rfl)⟩, ?_⟩
      rintro (⟨he, -⟩ | ha)
      · exact he
      · exact absurd (Pc.exclusive_of_acquiring ha) hx'
    · intro u hu
      obtain rfl := h.exclusive u t x (World.step_exclusive_eq hu) hx
      exact hx' hu

/-- Any other one. -/
theorem World.step_owns_ne (hx : (W.pc t).exclusive ≠ some x) :
    (W.step t spurious).Owns x ↔ W.Owns x := by
  refine owns_congr (step_exclusive_ne hx) fun u => ?_
  by_cases hu : u = t
  · subst hu
    exact .inr ⟨fun h => hx (step_exclusive_eq h), hx⟩
  · exact .inl (step_pc_ne hu)

/-- Ownership stays where it is if it does as far as the call tells. -/
theorem Confined.step_owns (h : Confined W) (hx : (W.pc t).exclusive = some x)
    (hown : ((W.step t spurious).pc t).Owning ((W.step t spurious).exclusive x) x ↔
      (W.pc t).Owning (W.exclusive x) x)
    (y : ℕ) : (W.step t spurious).Owns y ↔ W.Owns y := by
  by_cases hy : (W.pc t).exclusive = some y
  · obtain rfl : x = y := Option.some.inj (hx.symm.trans hy)
    rw [h.step_owns_iff hx, h.owns_iff hx, hown]
  · exact World.step_owns_ne hy

/-- The lock object of the call gets the lock. -/
theorem Confined.step_acquires (h : Confined W) (hx : (W.pc t).exclusive = some x)
    (hown : ((W.step t spurious).pc t).Owning ((W.step t spurious).exclusive x) x) (y : ℕ) :
    (W.step t spurious).Owns y ↔ W.Owns y ∨ y = x := by
  by_cases hy : (W.pc t).exclusive = some y
  · obtain rfl : x = y := Option.some.inj (hx.symm.trans hy)
    rw [h.step_owns_iff hx]
    exact iff_of_true hown (.inr rfl)
  · rw [World.step_owns_ne hy, or_iff_left]
    rintro rfl
    exact hy hx

/-- The lock object of the call gives the lock back. -/
theorem Confined.step_releases (h : Confined W) (hx : (W.pc t).exclusive = some x)
    (hown : ¬((W.step t spurious).pc t).Owning ((W.step t spurious).exclusive x) x) (y : ℕ) :
    (W.step t spurious).Owns y ↔ W.Owns y ∧ y ≠ x := by
  by_cases hy : (W.pc t).exclusive = some y
  · obtain rfl : x = y := Option.some.inj (hx.symm.trans hy)
    rw [h.step_owns_iff hx]
    exact iff_of_false hown fun hy => hy.2 rfl
  · rw [World.step_owns_ne hy, and_iff_left]
    rintro rfl
    exact hy hx

theorem effect_step (hw : 0 < w) (h : Confined W) (hr : Remembered W g) (t : ℕ) (spurious : Bool) :
    Effect W (W.step t spurious) g (g.step W t) := by
  -- the exclusive lock that a call is about to acquire is empty
  have hempty : ∀ x, (W.pc t).exclusive = some x → (W.pc t).full = false →
    (W.pc t).acquiring = none → ¬W.Owns x := by
    intro x hx hfull hacq
    rw [h.owns_iff hx, h.full t x hx, hfull, Pc.Owning, hacq]
    simp
  have hsections : (∀ x, W.pc t ≠ .unlock x) → (g.step W t).sections = g.sections := by
    intro hne
    unfold History.step
    split <;> first | rfl | exact absurd ‹_› (hne _)
  cases hP : W.pc t with
  | idle a =>
    have hstep : W.step t spurious = W := by simp only [World.step, hP]
    rw [hstep]
    exact .keep rfl (hsections (by simp [hP])) fun y => Iff.rfl
  | loadOptimistic o tries =>
    refine .keep ?_ (hsections (by simp [hP])) fun y =>
      World.step_owns_ne (by simp [hP, Pc.exclusive])
    simp only [World.step, hP]
    split_ifs <;> rfl
  | assign o v tries =>
    refine .keep ?_ (hsections (by simp [hP])) fun y =>
      World.step_owns_ne (by simp [hP, Pc.exclusive])
    simp only [World.step, hP, World.goto_version]
  | validate o =>
    refine .keep ?_ (hsections (by simp [hP])) fun y =>
      World.step_owns_ne (by simp [hP, Pc.exclusive])
    simp only [World.step, hP, World.goto_version]
  | loadExclusive x tries =>
    refine .keep ?_ (hsections (by simp [hP])) (h.step_owns (x := x) (by rw [hP]; rfl) ?_)
    · simp only [World.step, hP]
      split_ifs <;> rfl
    · simp only [World.step, hP]
      split_ifs <;> simp [Pc.Owning, Pc.acquiring]
  | cas x v tries =>
    have hx : (W.pc t).exclusive = some x := by rw [hP]; rfl
    by_cases hcas : W.version = v ∧ (tries ∨ ¬spurious)
    · have hstep : W.step t spurious = { W with version := v + 1 }.goto t (.acquired x tries) := by
        simp only [World.step, hP]
        exact if_pos hcas
      refine .acquire x (hempty x hx (by rw [hP]; rfl) (by rw [hP]; rfl))
        (hcas.1 ▸ hr.cas t x v tries hP) ?_ (hsections (by simp [hP])) (h.step_acquires hx ?_)
      · rw [hstep, hcas.1]
        rfl
      · rw [hstep]
        simp [Pc.Owning, Pc.acquiring]
    · have hstep : W.step t spurious =
          W.goto t (if tries then .idle (some false) else .loadExclusive x tries) := by
        simp only [World.step, hP]
        exact if_neg hcas
      refine .keep (by rw [hstep]; rfl) (hsections (by simp [hP])) (h.step_owns hx ?_)
      rw [hstep, hP]
      cases tries <;> simp [Pc.Owning, Pc.acquiring]
  | upgrade o x =>
    have hx : (W.pc t).exclusive = some x := by rw [hP]; rfl
    by_cases hcas : W.version = (W.optimistic o).lockedVersion
    · have hstep : W.step t spurious =
          { W with version := (W.optimistic o).lockedVersion + 1 }.goto t (.upgraded o x) := by
        simp only [World.step, hP]
        exact if_pos hcas
      have hfree := hr.not_locked hw (h.source t o (by rw [hP]; rfl))
      refine .acquire x (hempty x hx (by rw [hP]; rfl) (by rw [hP]; rfl)) (hcas ▸ hfree) ?_
        (hsections (by simp [hP])) (h.step_acquires hx ?_)
      · rw [hstep, hcas]
        rfl
      · rw [hstep]
        simp [Pc.Owning, Pc.acquiring]
    · have hstep : W.step t spurious = W.goto t (.idle (some false)) := by
        simp only [World.step, hP]
        exact if_neg hcas
      refine .keep (by rw [hstep]; rfl) (hsections (by simp [hP])) (h.step_owns hx ?_)
      rw [hstep, hP]
      simp [Pc.Owning, Pc.acquiring]
  | acquired x tries =>
    refine .keep ?_ (hsections (by simp [hP])) (h.step_owns (x := x) (by rw [hP]; rfl) ?_)
    · simp only [World.step, hP, World.goto_version]
    · simp only [World.step, hP]
      simp [Pc.Owning, Pc.acquiring]
  | upgraded o x =>
    refine .keep ?_ (hsections (by simp [hP])) (h.step_owns (x := x) (by rw [hP]; rfl) ?_)
    · simp only [World.step, hP, World.goto_version]
    · simp only [World.step, hP]
      simp [Pc.Owning, Pc.acquiring]
  | unlock x =>
    have hx : (W.pc t).exclusive = some x := by rw [hP]; rfl
    have hstep : W.step t spurious = { W with version := W.version + 1 }.goto t (.released x) := by
      simp only [World.step, hP]
    refine .release x ?_ (by rw [hstep]; rfl) (by simp only [History.step, hP])
      (h.step_releases hx ?_)
    · rw [h.owns_iff hx, h.full t x hx, hP]
      simp [Pc.Owning, Pc.full]
    · rw [hstep]
      simp [Pc.Owning, Pc.acquiring]
  | released x =>
    refine .keep ?_ (hsections (by simp [hP])) (h.step_owns (x := x) (by rw [hP]; rfl) ?_)
    · simp only [World.step, hP, World.goto_version]
    · simp only [World.step, hP]
      simp [Pc.Owning, Pc.acquiring]

/-! ### Calls -/

/-- A lock object that the call gets, before and after its beginning. -/
theorem World.Allows.owns_iff (hk : W.Allows t k) (hx : x ∈ k.exclusive) :
    W.Owns x ↔ W.exclusive x = true :=
  World.owns_of_unused fun u => hk.exclusive u x hx

theorem Confined.call_owns_iff (h : Confined W) (hk : W.Allows t k) (hx : x ∈ k.exclusive) :
    (W.call t k).Owns x ↔ (W.call t k).exclusive x = true := by
  by_cases hx' : ((W.call t k).pc t).exclusive = some x
  · rw [(h.call hk).owns_iff hx']
    have hacq : ((W.call t k).pc t).acquiring = none := by
      cases k <;> simp only [World.call] <;> (try split_ifs) <;> simp [Pc.acquiring]
    have hrel : (W.call t k).pc t ≠ .released x := by
      cases k <;> simp only [World.call] <;> (try split_ifs) <;> simp
    simp [Pc.Owning, hacq, hrel]
  · refine World.owns_of_unused fun u hu => ?_
    by_cases hut : u = t
    · exact hx' (hut ▸ hu)
    · rw [World.call_pc_ne hut] at hu
      exact hk.exclusive u x hx hu

/-- Any other one. -/
theorem World.Allows.call_owns_ne (hk : W.Allows t k) (hx : x ∉ k.exclusive) : (W.call t k).Owns
    x ↔ W.Owns x := by
  refine World.owns_congr (World.call_exclusive_ne hx) fun u => ?_
  by_cases hut : u = t
  · subst hut
    obtain ⟨answer, hidle⟩ := hk.idle
    exact .inr ⟨fun h => hx (World.call_exclusive_mem h), by simp [hidle, Pc.exclusive]⟩
  · exact .inl (World.call_pc_ne hut)

/-- Ownership stays where it is if no exclusive lock is written. -/
theorem Confined.call_owns (h : Confined W) (hk : W.Allows t k)
    (he : (W.call t k).exclusive = W.exclusive) (y : ℕ) : (W.call t k).Owns y ↔ W.Owns y := by
  by_cases hy : y ∈ k.exclusive
  · rw [h.call_owns_iff hk hy, hk.owns_iff hy, he]
  · exact hk.call_owns_ne hy

theorem effect_call (h : Confined W) (hk : W.Allows t k) : Effect W (W.call t k) g (g.call k) := by
  have hversion : (W.call t k).version = W.version := by
    cases k <;> simp only [World.call] <;> (try split_ifs) <;> simp
  have hsections : (g.call k).sections = g.sections := by cases k <;> rfl
  by_cases he : (W.call t k).exclusive = W.exclusive
  · exact .keep hversion hsections (h.call_owns hk he)
  · obtain ⟨x, y, rfl, hxy⟩ : ∃ x y, k = .moveExclusive x y ∧ x ≠ y := by
      cases k with
      | moveExclusive x y =>
        refine ⟨x, y, rfl, fun heq => he ?_⟩
        simp only [World.call, if_pos heq, World.goto_exclusive]
      | unlock x | moveOptimistic o p =>
        refine absurd ?_ he
        simp only [World.call]
        split_ifs <;> rfl
      | _ => exact absurd rfl he
    have hexclusive : (W.call t (.moveExclusive x y)).exclusive =
        Function.update (Function.update W.exclusive y (W.exclusive x)) x false := by
      simp only [World.call, if_neg hxy, World.goto_exclusive]
    have hmem : ∀ z, z ∈ (Call.moveExclusive x y).exclusive ↔ z = x ∨ z = y := by
      simp [Call.exclusive]
    have hy : W.exclusive y = false := hk.asserts hxy
    have hx : W.exclusive x = true := by
      by_contra hx
      rw [Bool.not_eq_true] at hx
      refine he ?_
      rw [hexclusive, hx, ← hy, Function.update_eq_self, ← hx.trans hy.symm,
        Function.update_eq_self]
    refine .hand x y ((hk.owns_iff ((hmem x).2 (.inl rfl))).2 hx) hversion hsections fun z => ?_
    by_cases hz : z ∈ (Call.moveExclusive x y).exclusive
    · rw [h.call_owns_iff hk hz, hk.owns_iff hz, hexclusive]
      rcases (hmem z).1 hz with rfl | rfl
      · simp [hxy]
      · simp [Function.update_of_ne hxy.symm, hx]
    · rw [hk.call_owns_ne hz]
      rw [hmem, not_or] at hz
      simp [hz.1, hz.2]

/-! ### Every interleaving -/

/-- What every step preserves. -/
structure Inv (W : World w) (g : History) : Prop where
  confined : Confined W
  versioned : Versioned W g
  remembered : Remembered W g

theorem Inv.initial : Inv (World.initial w) .initial := by
  refine ⟨.initial, ⟨none, fun x => ?_, ?_⟩, ⟨fun o ho => ?_, fun u o v tries hu => ?_,
    fun u x v tries hu => ?_⟩⟩
  · simp [World.Owns, World.initial, Pc.acquiring]
  · simp [World.initial, History.initial]
  · cases ho
  · cases hu
  · cases hu

theorem Reach.inv (hw : 0 < w) (h : Reach w W g) : Inv W g := by
  induction h with
  | initial => exact .initial
  | call _ hk ih =>
    exact ⟨ih.confined.call hk, (effect_call ih.confined hk).versioned hw ih.versioned,
      ih.remembered.call _ _⟩
  | step _ t spurious ih =>
    exact ⟨ih.confined.step t spurious,
      (effect_step hw ih.confined ih.remembered t spurious).versioned hw ih.versioned,
      ih.remembered.step hw ih.versioned t spurious⟩

/-- The version is the one that is remembered exactly when nobody owns the lock and the sections
have brought it around. -/
theorem Inv.version_eq_iff (hw : 0 < w) (h : Inv W g) (ho : (W.optimistic o).held = true) :
    W.version = (W.optimistic o).lockedVersion ↔ W.Around g o := by
  obtain ⟨hlocked, hle⟩ := h.remembered.held o ho
  have hodd := h.versioned.odd_iff hw
  obtain ⟨n, rfl⟩ : ∃ n, w = n + 1 := ⟨w - 1, by omega⟩
  have hfree : (∀ x, ¬W.Owns x) ↔ ¬IsLockedState W.version := by rw [hodd, not_exists]
  rw [World.Around, hfree, ← BitVec.toNat_inj]
  constructor
  · intro heq
    have hnot : ¬IsLockedState W.version := by
      rw [IsLockedState, heq]
      exact h.remembered.not_locked hw ho
    refine ⟨hnot, ?_⟩
    rw [h.versioned.toNat_of_free hw hnot, hlocked, pow_succ', Nat.mul_mod_mul_left,
      Nat.mul_mod_mul_left] at heq
    exact (Nat.modEq_iff_dvd' hle).1 (Nat.mul_left_cancel Nat.two_pos heq).symm
  · rintro ⟨hnot, hdvd⟩
    rw [h.versioned.toNat_of_free hw hnot, hlocked, pow_succ', Nat.mul_mod_mul_left,
      Nat.mul_mod_mul_left]
    exact congrArg (2 * ·) ((Nat.modEq_iff_dvd' hle).2 hdvd).symm

theorem Inv.asserted (hw : 0 < w) (h : Inv W g) (t : ℕ) : W.Asserted t := by
  have hsource : ∀ o, (W.pc t).source = some o →
      (W.optimistic o).held = true ∧ ¬IsLockedState (W.optimistic o).lockedVersion := fun o ho =>
    ⟨h.confined.source t o ho, h.remembered.not_locked hw (h.confined.source t o ho)⟩
  have hodd := h.versioned.odd_iff hw
  unfold World.Asserted
  split
  · rename_i x tries hP
    exact hodd.2 ⟨x, .inr ⟨t, by rw [hP]; rfl⟩⟩
  · rename_i x hP
    have hx : (W.pc t).exclusive = some x := by rw [hP]; rfl
    refine hodd.2 ⟨x, (h.confined.owns_iff hx).2 (.inl ⟨?_, ?_⟩)⟩
    · rw [h.confined.full t x hx, hP]
      rfl
    · rw [hP]
      exact fun hne => by cases hne
  · rename_i o hP
    exact hsource o (by rw [hP]; rfl)
  · rename_i o x hP
    exact hsource o (by rw [hP]; rfl)
  · trivial

/-- What a sequence lock promises, after every interleaving of calls and for every width of the
version. -/
theorem lawful (hw : 0 < w) (h : Reach w W g) : Lawful W g := by
  have hinv := h.inv hw
  refine ⟨fun x y hx hy => ?_, hinv.versioned.odd_iff hw, hinv.asserted hw, fun o ho =>
    (hinv.remembered.held o ho).2, fun t o spurious hP => ?_, fun t o x spurious hP => ?_⟩
  · obtain ⟨owner, howner, -⟩ := hinv.versioned
    exact Option.some.inj (((howner x).1 hx).symm.trans ((howner y).1 hy))
  · refine ⟨decide (W.version = (W.optimistic o).lockedVersion), ?_, ?_⟩
    · simp only [World.step, hP, World.goto_pc, Function.update_self]
    rw [decide_eq_true_iff]
    exact hinv.version_eq_iff hw (hinv.confined.source t o (by rw [hP]; rfl))
  · refine ⟨decide (W.version = (W.optimistic o).lockedVersion), ?_, ?_⟩
    · simp only [World.step, hP, decide_eq_true_eq]
      split_ifs <;> simp
    · rw [decide_eq_true_iff]
      exact hinv.version_eq_iff hw (hinv.confined.source t o (by rw [hP]; rfl))

/-! ### One bit -/

/-- No thread is in a call. -/
def World.Quiet (W : World w) : Prop := ∀ t, ∃ answer, W.pc t = .idle answer

theorem World.Quiet.allows (h : W.Quiet) (hk : k.Asserts W) : W.Allows t k := by
  refine ⟨h t, hk, fun u x _ hu => ?_, fun u o _ => ⟨fun hu => ?_, fun hu => ?_⟩,
    fun u o _ hu => ?_⟩ <;> obtain ⟨answer, hidle⟩ := h u <;> rw [hidle] at hu <;> cases hu

/-- A thread begins a call, and does `n` steps of it on its own. -/
def alone (s : World w × History) (t : ℕ) (k : Call) : ℕ → World w × History
  | 0 => (s.1.call t k, s.2.call k)
  | n + 1 => ((alone s t k n).1.step t false, (alone s t k n).2.step (alone s t k n).1 t)

theorem Reach.alone {s : World w × History} (h : Reach w s.1 s.2) (hq : s.1.Quiet)
    (hk : k.Asserts s.1) (n : ℕ) : Reach w (alone s t k n).1 (alone s t k n).2 := by
  induction n with
  | zero => exact h.call (hq.allows hk)
  | succ n ih => exact ih.step t false

theorem World.Quiet.alone {s : World w × History} (h : s.1.Quiet) {n : ℕ} (answer : Option Bool)
    (ht : (alone s t k n).1.pc t = .idle answer) : (alone s t k n).1.Quiet := by
  intro u
  by_cases hu : u = t
  · exact ⟨answer, hu ▸ ht⟩
  · have hpc : ∀ m, (SequenceLock.alone s t k m).1.pc u = s.1.pc u := by
      intro m
      induction m with
      | zero => exact World.call_pc_ne hu
      | succ m ih => exact (World.step_pc_ne hu).trans ih
    rw [hpc]
    exact h u

/-- With one bit an exclusive section goes unnoticed. -/
theorem lawful_one_bit : ∃ (W : World 1) (g : History), Reach 1 W g ∧ Lawful W g ∧
    (W.step 0 false).pc 0 = .idle (some true) ∧ g.sections - g.taken 0 = 1 := by
  let s₀ : World 1 × History := (.initial 1, .initial)
  let s₁ := alone s₀ 0 (.lockOptimistically 0 false) 2
  let s₂ := alone s₁ 1 (.lockExclusive 0 false) 3
  let s₃ := alone s₂ 1 (.unlock 0) 2
  have q₀ : s₀.1.Quiet := fun _ => ⟨none, rfl⟩
  have q₁ : s₁.1.Quiet := q₀.alone none rfl
  have q₂ : s₂.1.Quiet := q₁.alone none rfl
  have q₃ : s₃.1.Quiet := q₂.alone none rfl
  have h₁ : Reach 1 s₁.1 s₁.2 := Reach.alone (k := .lockOptimistically 0 false) .initial q₀ rfl 2
  have h₂ : Reach 1 s₂.1 s₂.2 := h₁.alone (k := .lockExclusive 0 false) q₁ rfl 3
  have h₃ : Reach 1 s₃.1 s₃.2 := h₂.alone (k := .unlock 0) q₂ trivial 2
  have h₄ := h₃.alone (t := 0) (k := .validate 0) q₃ rfl 0
  exact ⟨_, _, h₄, lawful Nat.one_pos h₄, by decide, by decide⟩

end TinyPointerTrees.SequenceLock
