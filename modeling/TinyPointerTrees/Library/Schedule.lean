import TinyPointerTrees.Library.RelyGuarantee

/-!
# Schedules

A machine says which steps its threads may take. An `Executor` computes them, and a
schedule is a list of turns: which thread calls, goes on for so many steps, or returns.

* `Executor.steps_of_play` — what playing a schedule computes is one of the interleavings.
* `Executor.exists_steps` — so a run can be given by its schedule, and what is seen at
  its end by evaluation.
* `Executor.restrict` — the machine in which an operation is executed only when a
  condition allows it.
-/

namespace Conc.Machine

open Prog

variable {Op : Type → Type} {σ Tid Call Ret : Type} {M : Machine Op σ Tid Call Ret}

/-- The steps of a machine, computed: nothing where a thread has to wait. -/
structure Executor (M : Machine Op σ Tid Call Ret) where
  /-- A thread executes an operation. -/
  exec : ∀ {β : Type}, Tid → Op β → σ → Option (β × σ)
  /-- A thread makes a call. -/
  invoke : Tid → Call → σ → Option σ
  /-- A thread returns. -/
  finish : Tid → Call → Ret → σ → Option σ
  exec_sound : ∀ {β : Type} {t : Tid} {o : Op β} {s : σ} {b : β} {s' : σ},
    exec t o s = some (b, s') → M.sem t o s b s'
  invoke_sound : ∀ {t : Tid} {a : Call} {s s' : σ}, invoke t a s = some s' → M.invoke t a s s'
  finish_sound : ∀ {t : Tid} {a : Call} {r : Ret} {s s' : σ}, finish t a r s = some s' →
    M.finish t a r s s'

/-- A turn of a thread. -/
inductive Turn (Tid Call : Type) where
  /-- It makes a call. -/
  | call (t : Tid) (a : Call)
  /-- It goes on for at most `n` steps: until it has to wait, or can return. -/
  | goes (t : Tid) (n : ℕ)
  /-- It returns. -/
  | returns (t : Tid)

/-- The thread whose turn it is. -/
def Turn.thread : Turn Tid Call → Tid
  | .call t _ => t
  | .goes t _ => t
  | .returns t => t

namespace Executor

variable (E : Executor M)

/-- The operations, executed by thread `t` alone. -/
def handler (t : Tid) : Handler Op σ := ⟨E.exec t⟩

/-- The operations that a condition allows, which `check` computes. -/
def restrict (C : ∀ {β : Type}, Tid → Op β → σ → Prop) (check : ∀ {β : Type}, Tid → Op β → σ → Bool)
    (hC : ∀ {β : Type} {t : Tid} {o : Op β} {s : σ}, check t o s = true → C t o s) :
    Executor (M.restrict C) where
  exec t o s := if check t o s then E.exec t o s else none
  invoke := E.invoke
  finish := E.finish
  exec_sound h := by
    split_ifs at h with hc
    exact ⟨hC hc, E.exec_sound h⟩
  invoke_sound := E.invoke_sound
  finish_sound := E.finish_sound

variable [DecidableEq Tid]

/-- The configuration after a turn. -/
def turn (c : Cfg Op σ Tid Call Ret) : Turn Tid Call → Option (Cfg Op σ Tid Call Ret)
  | .call t a =>
    match c.run t with
    | none => (E.invoke t a c.st).map fun s => c.put t s (some (a, M.code a))
    | some _ => none
  | .goes t n =>
    match c.run t with
    | none => none
    | some (a, p) =>
      let r := advance (E.handler t) n p c.st
      some (c.put t r.2 (some (a, r.1)))
  | .returns t =>
    match c.run t with
    | some (a, .ret r) => (E.finish t a r c.st).map fun s => c.put t s none
    | _ => none

/-- The configuration after a schedule. -/
def play : List (Turn Tid Call) → Cfg Op σ Tid Call Ret → Option (Cfg Op σ Tid Call Ret)
  | [], c => some c
  | u :: l, c => (E.turn c u).bind (play l)

variable {E} {c c' : Cfg Op σ Tid Call Ret}

/-- A turn is a run of the machine in which the other threads do nothing. -/
theorem steps_of_turn {u : Turn Tid Call} (h : E.turn c u = some c') :
    M.Steps c c' ∧ ∀ t ≠ u.thread, c'.run t = c.run t := by
  cases u with
  | call t a =>
    rw [turn] at h
    split at h
    next hrun =>
      obtain ⟨s, hs, rfl⟩ := Option.map_eq_some_iff.mp h
      exact ⟨.single (.invoke hrun (E.invoke_sound hs)), fun u hu => Cfg.put_run_ne c hu _ _⟩
    next => cases h
  | goes t n =>
    rw [turn] at h
    split at h
    next => cases h
    next a p hrun =>
      have hself : c.put t c.st (some (a, p)) = c := by
        rw [Cfg.put, ← hrun, Function.update_eq_self]
      have hsteps := steps_of_reaches M id (fun _ _ _ _ hs => E.exec_sound hs) c (a := a)
        (reaches_advance (E.handler t) n p c.st)
      rw [id, hself] at hsteps
      cases h
      exact ⟨hsteps, fun u hu => Cfg.put_run_ne c hu _ _⟩
  | returns t =>
    rw [turn] at h
    split at h
    next a r hrun =>
      obtain ⟨s, hs, rfl⟩ := Option.map_eq_some_iff.mp h
      exact ⟨.single (.finish hrun (E.finish_sound hs)), fun u hu => Cfg.put_run_ne c hu _ _⟩
    next => cases h

/-- What playing a schedule computes is one of the interleavings. -/
theorem steps_of_play {l : List (Turn Tid Call)} (h : E.play l c = some c') :
    M.Steps c c' ∧ ∀ t ∉ l.map Turn.thread, c'.run t = c.run t := by
  induction l generalizing c with
  | nil =>
    cases h
    exact ⟨.refl, fun _ _ => rfl⟩
  | cons u l ih =>
    obtain ⟨d, hd, h⟩ := Option.bind_eq_some_iff.mp h
    obtain ⟨hsteps, hrun⟩ := steps_of_turn hd
    obtain ⟨hsteps', hrun'⟩ := ih h
    refine ⟨hsteps.trans hsteps', fun t ht => ?_⟩
    rw [List.map_cons, List.mem_cons, not_or] at ht
    rw [hrun' t ht.2, hrun t ht.1]

variable (E) in
/-- A run, given by its schedule and by what is seen at its end. -/
theorem exists_steps {ν : Type} (l : List (Turn Tid Call)) (observe : Cfg Op σ Tid Call Ret → ν)
    {v : ν} (h : (E.play l c).map observe = some v) :
    ∃ c', M.Steps c c' ∧ observe c' = v ∧ ∀ t ∉ l.map Turn.thread, c'.run t = c.run t := by
  obtain ⟨c', hc', hv⟩ := Option.map_eq_some_iff.mp h
  obtain ⟨hsteps, hrun⟩ := steps_of_play hc'
  exact ⟨c', hsteps, hv, hrun⟩

end Executor

end Conc.Machine
