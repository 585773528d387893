import Mathlib.Tactic

/-!
# Programs over atomic operations

A program is a tree of calls to atomic operations with unbounded loops between
them. `Prog Op α` is that tree, for a family `Op` of operations typed by their
answers; it says nothing of what an operation does, so the same program can be
run alone, one operation after the other (`run`, in this module), and in any
interleaving with others (`Library.RelyGuarantee`).

Running alone needs a handler `H`, which executes one operation on a state and
answers, or answers nothing when the operation would block for ever. `run` is
fuelled and executable; `Runs` is the fuel-free relation, and the lemmas
`runs_*` execute a program symbolically.
-/

namespace Conc

/-- A program that calls operations of the family `Op` and answers an `α`. -/
inductive Prog (Op : Type → Type) : Type → Type 1 where
  /-- Finished. -/
  | ret {α : Type} (a : α) : Prog Op α
  /-- Call an operation and go on with its answer. -/
  | call {α β : Type} (o : Op β) (k : β → Prog Op α) : Prog Op α
  /-- Repeat the body from `b` while it answers `inl`; go on with what it answers in `inr`. -/
  | loop {α β γ : Type} (body : β → Prog Op (β ⊕ γ)) (b : β) (k : γ → Prog Op α) : Prog Op α

namespace Prog

variable {Op : Type → Type} {α β γ δ : Type}

/-- Sequencing. -/
def bind : Prog Op α → (α → Prog Op β) → Prog Op β
  | ret a, f => f a
  | call o k, f => call o fun b => bind (k b) f
  | loop body b k, f => loop body b fun c => bind (k c) f

instance : Monad (Prog Op) where
  pure := ret
  bind := bind

/-- A single operation. -/
def op (o : Op α) : Prog Op α := call o ret

/-- A loop by itself. -/
def iter (body : β → Prog Op (β ⊕ γ)) (b : β) : Prog Op γ := loop body b ret

@[simp] theorem pure_eq (a : α) : (pure a : Prog Op α) = ret a := rfl

@[simp] theorem bind_eq (p : Prog Op α) (f : α → Prog Op β) : p >>= f = bind p f := rfl

@[simp] theorem ret_bind (a : α) (f : α → Prog Op β) : bind (ret a) f = f a := rfl

@[simp] theorem call_bind (o : Op δ) (k : δ → Prog Op α) (f : α → Prog Op β) :
    bind (call o k) f = call o fun b => bind (k b) f := rfl

@[simp] theorem loop_bind (body : γ → Prog Op (γ ⊕ δ)) (b : γ) (k : δ → Prog Op α)
    (f : α → Prog Op β) : bind (loop body b k) f = loop body b fun c => bind (k c) f := rfl

@[simp] theorem op_bind (o : Op α) (f : α → Prog Op β) : bind (op o) f = call o f := rfl

@[simp] theorem iter_bind (body : β → Prog Op (β ⊕ γ)) (b : β) (f : γ → Prog Op α) :
    bind (iter body b) f = loop body b f := rfl

theorem bind_assoc (p : Prog Op α) (f : α → Prog Op β) (g : β → Prog Op γ) :
    bind (bind p f) g = bind p fun a => bind (f a) g := by
  induction p with
  | ret a => rfl
  | call o k ih => simp only [call_bind, ih]
  | loop body b k _ ih => simp only [loop_bind, ih]

/-- What follows a round of a loop: the loop again, or what follows the loop. -/
def again (body : β → Prog Op (β ⊕ γ)) (k : γ → Prog Op α) : β ⊕ γ → Prog Op α
  | .inl b => loop body b k
  | .inr c => k c

/-- One round of a loop, and what follows it. -/
def unroll (body : β → Prog Op (β ⊕ γ)) (b : β) (k : γ → Prog Op α) : Prog Op α :=
  bind (body b) (again body k)

theorem unroll_bind (body : γ → Prog Op (γ ⊕ δ)) (b : γ) (k : δ → Prog Op α)
    (f : α → Prog Op β) : bind (unroll body b k) f = unroll body b fun c => bind (k c) f := by
  rw [unroll, unroll, bind_assoc]
  congr 1
  funext r
  cases r <;> rfl

/-! ### Running alone -/

variable {σ : Type}

/-- A handler executes one operation: its answer and the state after it, or
nothing when the operation is blocked. -/
structure Handler (Op : Type → Type) (σ : Type) where
  /-- Execute one operation. -/
  exec : ∀ {β : Type}, Op β → σ → Option (β × σ)

/-- Run a program alone, with fuel for its operations and loop rounds. -/
def run (H : Handler Op σ) : ℕ → Prog Op α → σ → Option (α × σ)
  | _, ret a, s => some (a, s)
  | 0, call _ _, _ => none
  | 0, loop _ _ _, _ => none
  | n + 1, call o k, s => (H.exec o s).bind fun r => run H n (k r.1) r.2
  | n + 1, loop body b k, s => run H n (unroll body b k) s

variable (H : Handler Op σ)

/-- The program, run alone from `s`, finishes with answer `a` in `s'`. -/
def Runs (p : Prog Op α) (s : σ) (a : α) (s' : σ) : Prop := ∃ n, run H n p s = some (a, s')

@[simp] theorem run_ret (n : ℕ) (a : α) (s : σ) : run H n (ret a) s = some (a, s) := by
  cases n <;> rfl

@[simp] theorem run_call (n : ℕ) (o : Op β) (k : β → Prog Op α) (s : σ) :
    run H (n + 1) (call o k) s = (H.exec o s).bind fun r => run H n (k r.1) r.2 := rfl

@[simp] theorem run_loop (n : ℕ) (body : β → Prog Op (β ⊕ γ)) (b : β) (k : γ → Prog Op α) (s : σ) :
    run H (n + 1) (loop body b k) s = run H n (unroll body b k) s := rfl

/-- More fuel does not change the outcome. -/
theorem run_succ {n : ℕ} {p : Prog Op α} {s : σ} {r : α × σ} (h : run H n p s = some r) :
    run H (n + 1) p s = some r := by
  induction n generalizing p s with
  | zero => cases p with
    | ret a => simpa using h
    | call o k => simp [run] at h
    | loop body b k => simp [run] at h
  | succ n ih => cases p with
    | ret a => simpa using h
    | call o k =>
      simp only [run_call, Option.bind_eq_some_iff] at h ⊢
      obtain ⟨x, hx, h⟩ := h
      exact ⟨x, hx, ih h⟩
    | loop body b k =>
      rw [run_loop] at h ⊢
      exact ih h

theorem run_mono {n m : ℕ} (hnm : n ≤ m) {p : Prog Op α} {s : σ} {r : α × σ}
    (h : run H n p s = some r) : run H m p s = some r := by
  induction hnm with
  | refl => exact h
  | step _ ih => exact run_succ H ih

/-- A program has at most one outcome. -/
theorem Runs.unique {p : Prog Op α} {s s₁ s₂ : σ} {a₁ a₂ : α} (h₁ : Runs H p s a₁ s₁)
    (h₂ : Runs H p s a₂ s₂) : a₁ = a₂ ∧ s₁ = s₂ := by
  obtain ⟨n, h₁⟩ := h₁
  obtain ⟨m, h₂⟩ := h₂
  have e := (run_mono H (le_max_left n m) h₁).symm.trans (run_mono H (le_max_right n m) h₂)
  simpa using e

@[simp] theorem runs_ret {a b : α} {s s' : σ} : Runs H (ret a) s b s' ↔ a = b ∧ s = s' := by
  simp [Runs]

@[simp] theorem runs_call {o : Op β} {k : β → Prog Op α} {s s' : σ} {a : α} :
    Runs H (call o k) s a s' ↔ ∃ r, H.exec o s = some r ∧ Runs H (k r.1) r.2 a s' := by
  constructor
  · rintro ⟨n, h⟩
    cases n with
    | zero => simp [run] at h
    | succ n =>
      simp only [run_call, Option.bind_eq_some_iff] at h
      obtain ⟨r, hr, h⟩ := h
      exact ⟨r, hr, n, h⟩
  · rintro ⟨r, hr, n, h⟩
    exact ⟨n + 1, by simp [run_call, hr, h]⟩

theorem runs_loop {body : β → Prog Op (β ⊕ γ)} {b : β} {k : γ → Prog Op α} {s s' : σ} {a : α} :
    Runs H (loop body b k) s a s' ↔ Runs H (unroll body b k) s a s' := by
  constructor
  · rintro ⟨n, h⟩
    cases n with
    | zero => simp [run] at h
    | succ n => exact ⟨n, h⟩
  · rintro ⟨n, h⟩
    exact ⟨n + 1, h⟩

/-- A sequence that finishes finishes its first part, and the second with the fuel that is left. -/
theorem run_bind_some {n : ℕ} {p : Prog Op α} {f : α → Prog Op β} {s s' : σ} {b : β}
    (h : run H n (bind p f) s = some (b, s')) :
    ∃ a u, ∃ m ≤ n, Runs H p s a u ∧ run H m (f a) u = some (b, s') := by
  induction n generalizing p s with
  | zero => cases p with
    | ret a => exact ⟨a, s, 0, le_rfl, (runs_ret H).mpr ⟨rfl, rfl⟩, h⟩
    | call o k => simp [run] at h
    | loop body c k => simp [run] at h
  | succ n ih => cases p with
    | ret a => exact ⟨a, s, n + 1, le_rfl, (runs_ret H).mpr ⟨rfl, rfl⟩, h⟩
    | call o k =>
      simp only [call_bind, run_call, Option.bind_eq_some_iff] at h
      obtain ⟨r, hr, h⟩ := h
      obtain ⟨a, u, m, hm, ha, hb⟩ := ih h
      exact ⟨a, u, m, hm.trans n.le_succ, (runs_call H).mpr ⟨r, hr, ha⟩, hb⟩
    | loop body c k =>
      rw [loop_bind, run_loop, ← unroll_bind] at h
      obtain ⟨a, u, m, hm, ha, hb⟩ := ih h
      exact ⟨a, u, m, hm.trans n.le_succ, (runs_loop H).mpr ha, hb⟩

/-- Running a sequence is running its parts one after the other. -/
theorem runs_bind {p : Prog Op α} {f : α → Prog Op β} {s s' : σ} {b : β} :
    Runs H (bind p f) s b s' ↔ ∃ a u, Runs H p s a u ∧ Runs H (f a) u b s' := by
  constructor
  · rintro ⟨n, h⟩
    obtain ⟨a, u, m, -, ha, hb⟩ := run_bind_some H h
    exact ⟨a, u, ha, m, hb⟩
  · rintro ⟨a, u, ⟨n, hn⟩, m, hm⟩
    induction n generalizing p s with
    | zero => cases p with
      | ret a' =>
        simp only [run_ret, Option.some.injEq, Prod.mk.injEq] at hn
        obtain ⟨rfl, rfl⟩ := hn
        exact ⟨m, hm⟩
      | call o k => simp [run] at hn
      | loop body b k => simp [run] at hn
    | succ n ih => cases p with
      | ret a' =>
        simp only [run_ret, Option.some.injEq, Prod.mk.injEq] at hn
        obtain ⟨rfl, rfl⟩ := hn
        exact ⟨m, hm⟩
      | call o k =>
        simp only [run_call, Option.bind_eq_some_iff] at hn
        obtain ⟨r, hr, hn⟩ := hn
        exact (runs_call H).mpr ⟨r, hr, ih hn⟩
      | loop body b k =>
        rw [loop_bind, runs_loop, ← unroll_bind]
        exact ih hn

/-- The outcome of a loop: the body either goes round, or leaves. -/
theorem runs_loop_iff {body : β → Prog Op (β ⊕ γ)} {b : β} {k : γ → Prog Op α} {s s' : σ} {a : α} :
    Runs H (loop body b k) s a s' ↔
      (∃ b' u, Runs H (body b) s (.inl b') u ∧ Runs H (loop body b' k) u a s') ∨
        ∃ c u, Runs H (body b) s (.inr c) u ∧ Runs H (k c) u a s' := by
  rw [runs_loop, unroll, runs_bind]
  constructor
  · rintro ⟨r | r, u, h₁, h₂⟩
    · exact Or.inl ⟨r, u, h₁, h₂⟩
    · exact Or.inr ⟨r, u, h₁, h₂⟩
  · rintro (⟨r, u, h₁, h₂⟩ | ⟨r, u, h₁, h₂⟩)
    · exact ⟨.inl r, u, h₁, h₂⟩
    · exact ⟨.inr r, u, h₁, h₂⟩

/-- A loop that finishes, by an invariant of its rounds. -/
theorem Runs.of_loop {body : β → Prog Op (β ⊕ γ)} {k : γ → Prog Op α} {Q : γ → σ → Prop}
    (I : β → σ → Prop)
    (hbody : ∀ b s r u, I b s → Runs H (body b) s r u → Sum.elim (fun b' => I b' u)
      (fun c => Q c u) r)
    {b : β} {s s' : σ} {a : α} (hI : I b s) (h : Runs H (loop body b k) s a s') :
    ∃ c u, Q c u ∧ Runs H (k c) u a s' := by
  obtain ⟨n, h⟩ := h
  induction n using Nat.strong_induction_on generalizing b s with
  | _ n ih =>
    cases n with
    | zero => simp [run] at h
    | succ n =>
      rw [run_loop, unroll] at h
      obtain ⟨r, u, m, hm, hr, h⟩ := run_bind_some H h
      have hq := hbody b s r u hI hr
      cases r with
      | inl b' => exact ih m (by omega) hq h
      | inr c => exact ⟨c, u, hq, m, h⟩

/-! ### Part of the way -/

/-- One step of a program that runs alone. -/
inductive Alone : Prog Op α × σ → Prog Op α × σ → Prop where
  /-- The next operation. -/
  | call {β : Type} {o : Op β} {k : β → Prog Op α} {b : β} {s s' : σ} :
      H.exec o s = some (b, s') → Alone (.call o k, s) (k b, s')
  /-- The next round of a loop. -/
  | loop {β γ : Type} {body : β → Prog Op (β ⊕ γ)} {b : β} {k : γ → Prog Op α} {s : σ} :
      Alone (.loop body b k, s) (unroll body b k, s)

/-- Any number of steps of a program that runs alone. -/
def Reaches (p : Prog Op α) (s : σ) (p' : Prog Op α) (s' : σ) : Prop :=
  Relation.ReflTransGen (Alone H) (p, s) (p', s')

/-- What is left after at most `n` steps of a program that runs alone: it stops where it returns, or
is blocked. -/
def advance : ℕ → Prog Op α → σ → Prog Op α × σ
  | 0, p, s => (p, s)
  | _ + 1, ret a, s => (ret a, s)
  | n + 1, call o k, s =>
    match H.exec o s with
    | some r => advance n (k r.1) r.2
    | none => (call o k, s)
  | n + 1, loop body b k, s => advance n (unroll body b k) s

theorem reaches_advance (n : ℕ) (p : Prog Op α) (s : σ) :
    Reaches H p s (advance H n p s).1 (advance H n p s).2 := by
  induction n generalizing p s with
  | zero => exact Relation.ReflTransGen.refl
  | succ n ih => cases p with
    | ret a => exact Relation.ReflTransGen.refl
    | call o k =>
      rw [advance]
      split
      next r hr => exact Relation.ReflTransGen.head (.call hr) (ih (k r.1) r.2)
      next => exact Relation.ReflTransGen.refl
    | loop body b k => exact Relation.ReflTransGen.head .loop (ih _ s)

/-- A program that finishes gets to its end step by step. -/
theorem Runs.reaches {p : Prog Op α} {s s' : σ} {a : α} (h : Runs H p s a s') :
    Reaches H p s (.ret a) s' := by
  obtain ⟨n, h⟩ := h
  induction n generalizing p s with
  | zero => cases p with
    | ret a' =>
      simp only [run_ret, Option.some.injEq, Prod.mk.injEq] at h
      obtain ⟨rfl, rfl⟩ := h
      exact Relation.ReflTransGen.refl
    | call o k => simp [run] at h
    | loop body b k => simp [run] at h
  | succ n ih => cases p with
    | ret a' =>
      simp only [run_ret, Option.some.injEq, Prod.mk.injEq] at h
      obtain ⟨rfl, rfl⟩ := h
      exact Relation.ReflTransGen.refl
    | call o k =>
      simp only [run_call, Option.bind_eq_some_iff] at h
      obtain ⟨⟨b, u⟩, hu, h⟩ := h
      exact Relation.ReflTransGen.head (.call hu) (ih h)
    | loop body b k => exact Relation.ReflTransGen.head .loop (ih h)

end Prog

end Conc
