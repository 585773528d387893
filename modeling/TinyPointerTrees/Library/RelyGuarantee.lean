import TinyPointerTrees.Library.Prog

/-!
# Interleaved programs and rely/guarantee reasoning

A `Machine` is a shared state, what each atomic operation does to it, and the
programs threads may call. `Machine.Step` interleaves any number of threads, one
atomic operation at a time; a thread that is not in a call may make one, and a
thread whose program has finished returns from its call.

`Protocol` is a rely/guarantee account of such a machine, with a ghost state of
type `γ` beside the shared state: a global invariant `inv`, and for each thread
the transitions `rely` it tolerates from the others. `Protocol.wp t p Q x` says
that thread `t`, running `p` from `x` while the others keep to its `rely`, keeps
the invariant with every step, makes only steps the others tolerate, and ends in
`Q`. The ghost state of a step is chosen after the step, so it need not be part
of the machine.

* `wp_ret`, `wp_call`, `wp_bind`, `wp_loop`, `wp_mono`, `wp_frame` — the rules.
* `Protocol.sound` — if every call a thread may make is verified by `wp`, the
  invariant holds, for some ghost state, in every reachable configuration, and
  threads that are in no call are idle.
* `Machine.steps_of_reaches` — a thread that runs alone for a while is one of the
  interleavings.
-/

namespace Conc

open Prog

variable {Op : Type → Type} {σ Tid Call Ret : Type}

/-- What the atomic operations do, and what threads may call. -/
structure Machine (Op : Type → Type) (σ Tid Call Ret : Type) where
  /-- Thread `t` executes an operation: the answer and the state after it. -/
  sem : ∀ {β : Type}, Tid → Op β → σ → β → σ → Prop
  /-- The program of a call. -/
  code : Call → Prog Op Ret
  /-- Thread `t` may make this call, and what making it does to the state. -/
  invoke : Tid → Call → σ → σ → Prop
  /-- Thread `t` returns from the call with this answer. -/
  finish : Tid → Call → Ret → σ → σ → Prop

namespace Machine

/-- A configuration: the shared state, and what each thread has left to do. -/
structure Cfg (Op : Type → Type) (σ Tid Call Ret : Type) where
  /-- The shared state. -/
  st : σ
  /-- The call each thread is in, if any, and the rest of its program. -/
  run : Tid → Option (Call × Prog Op Ret)

variable [DecidableEq Tid]

/-- Thread `t` now has `r` left to do, in state `s`. -/
def Cfg.put (c : Cfg Op σ Tid Call Ret) (t : Tid) (s : σ) (r : Option (Call × Prog Op Ret)) :
    Cfg Op σ Tid Call Ret := ⟨s, Function.update c.run t r⟩

@[simp] theorem Cfg.put_st (c : Cfg Op σ Tid Call Ret) (t : Tid) (s : σ)
    (r : Option (Call × Prog Op Ret)) : (c.put t s r).st = s := rfl

@[simp] theorem Cfg.put_run_self (c : Cfg Op σ Tid Call Ret) (t : Tid) (s : σ)
    (r : Option (Call × Prog Op Ret)) : (c.put t s r).run t = r := by simp [Cfg.put]

theorem Cfg.put_run_ne (c : Cfg Op σ Tid Call Ret) {t u : Tid} (h : u ≠ t) (s : σ)
    (r : Option (Call × Prog Op Ret)) : (c.put t s r).run u = c.run u := by simp [Cfg.put, h]

@[simp] theorem Cfg.put_put (c : Cfg Op σ Tid Call Ret) (t : Tid) (s s' : σ)
    (r r' : Option (Call × Prog Op Ret)) : (c.put t s r).put t s' r' = c.put t s' r' := by
  simp [Cfg.put]

/-- No thread is in a call. -/
def idleCfg (s : σ) : Cfg Op σ Tid Call Ret := ⟨s, fun _ => none⟩

variable (M : Machine Op σ Tid Call Ret)

/-- One thread takes one step. -/
inductive Step : Cfg Op σ Tid Call Ret → Cfg Op σ Tid Call Ret → Prop where
  /-- A thread makes a call. -/
  | invoke {c : Cfg Op σ Tid Call Ret} {t : Tid} {a : Call} {s' : σ} :
      c.run t = none → M.invoke t a c.st s' → Step c (c.put t s' (some (a, M.code a)))
  /-- A thread executes its next operation. -/
  | op {c : Cfg Op σ Tid Call Ret} {t : Tid} {a : Call} {β : Type} {o : Op β}
      {k : β → Prog Op Ret} {b : β} {s' : σ} :
      c.run t = some (a, .call o k) → M.sem t o c.st b s' → Step c (c.put t s' (some (a, k b)))
  /-- A thread begins a round of a loop. -/
  | round {c : Cfg Op σ Tid Call Ret} {t : Tid} {a : Call} {β δ : Type}
      {body : β → Prog Op (β ⊕ δ)} {b : β} {k : δ → Prog Op Ret} :
      c.run t = some (a, .loop body b k) → Step c (c.put t c.st (some (a, unroll body b k)))
  /-- A thread returns from its call. -/
  | finish {c : Cfg Op σ Tid Call Ret} {t : Tid} {a : Call} {r : Ret} {s' : σ} :
      c.run t = some (a, .ret r) → M.finish t a r c.st s' → Step c (c.put t s' none)

/-- Any number of steps. -/
def Steps : Cfg Op σ Tid Call Ret → Cfg Op σ Tid Call Ret → Prop := Relation.ReflTransGen M.Step

/-- The machine in which an operation is executed only when `C` allows it. -/
def restrict (C : ∀ {β : Type}, Tid → Op β → σ → Prop) : Machine Op σ Tid Call Ret :=
  { M with sem := fun t o s b s' => C t o s ∧ M.sem t o s b s' }

/-- Nothing is lost if all is allowed. -/
theorem Steps.restrict {C : ∀ {β : Type}, Tid → Op β → σ → Prop}
    (hC : ∀ {β : Type} t (o : Op β) s, C t o s) {c c' : Cfg Op σ Tid Call Ret} (h : M.Steps c c') :
    (M.restrict C).Steps c c' := by
  have step : ∀ x y, M.Step x y → (M.restrict C).Step x y := by
    intro x y hxy
    cases hxy with
    | invoke hrun hinv => exact .invoke hrun hinv
    | op hrun hsem => exact .op hrun ⟨hC _ _ _, hsem⟩
    | round hrun => exact .round hrun
    | finish hrun hfin => exact .finish hrun hfin
  exact Relation.ReflTransGen.mono step _ _ h

/-- A thread that runs its program alone for a while takes that many steps of the machine. The
handler may know a part `σ'` of the state only, with `e` the state around it. -/
theorem steps_of_reaches {σ' : Type} {H : Handler Op σ'} (e : σ' → σ) {t : Tid}
    (hH : ∀ {β : Type} (o : Op β) (s : σ') (b : β) (s' : σ'), H.exec o s = some (b, s') →
      M.sem t o (e s) b (e s'))
    (c : Cfg Op σ Tid Call Ret) {a : Call} {p p' : Prog Op Ret} {s s' : σ'}
    (h : Reaches H p s p' s') :
    M.Steps (c.put t (e s) (some (a, p))) (c.put t (e s') (some (a, p'))) := by
  have step : ∀ x y : Prog Op Ret × σ', Alone H x y →
      M.Step (c.put t (e x.2) (some (a, x.1))) (c.put t (e y.2) (some (a, y.1))) := by
    rintro x y hxy
    cases hxy with
    | @call β o k b s s' hu =>
      have h := Step.op (M := M) (c := c.put t (e s) (some (a, .call o k)))
        (Cfg.put_run_self ..) (hH _ _ _ _ hu)
      rwa [Cfg.put_put] at h
    | @loop β γ body b k s =>
      have h := Step.round (M := M) (c := c.put t (e s) (some (a, .loop body b k)))
        (Cfg.put_run_self ..)
      rwa [Cfg.put_put] at h
  exact Relation.ReflTransGen.lift
    (fun x : Prog Op Ret × σ' => c.put t (e x.2) (some (a, x.1))) step _ _ h

end Machine

/-! ### Rely and guarantee -/

/-- A rely/guarantee account of a shared state `σ` with ghost state `γ`. -/
structure Protocol (σ γ Tid : Type) where
  /-- The global invariant. -/
  inv : σ × γ → Prop
  /-- What thread `t` tolerates of the others. -/
  rely : Tid → σ × γ → σ × γ → Prop
  /-- What holds of a thread that is not in a call. -/
  idle : Tid → σ × γ → Prop
  rely_refl : ∀ t x, rely t x x
  rely_trans : ∀ {t x y z}, rely t x y → rely t y z → rely t x z
  idle_rely : ∀ {t x y}, idle t x → rely t x y → idle t y

namespace Protocol

variable {γ α β δ : Type} (M : Machine Op σ Tid Call Ret) (P : Protocol σ γ Tid)

/-- A transition of thread `t` that every other thread tolerates. -/
def guar (t : Tid) (x y : σ × γ) : Prop := ∀ u, u ≠ t → P.rely u x y

theorem guar_refl (t : Tid) (x : σ × γ) : P.guar t x x := fun u _ => P.rely_refl u x

/-- The first `n` steps of `p` in thread `t` are safe, and lead to `Q` if they reach the end. -/
def Safe (t : Tid) : ℕ → Prog Op α → (α → σ × γ → Prop) → σ × γ → Prop
  | 0, _, _, _ => True
  | _ + 1, .ret a, Q, x => ∀ y, P.rely t x y → P.inv y → Q a y
  | n + 1, .call o k, Q, x => ∀ y, P.rely t x y → P.inv y → ∀ b s', M.sem t o y.1 b s' →
      ∃ g', P.inv (s', g') ∧ P.guar t y (s', g') ∧ Safe t n (k b) Q (s', g')
  | n + 1, .loop body b k, Q, x => Safe t n (unroll body b k) Q x

/-- Every step of `p` in thread `t` is safe, and `p` ends in `Q` if it ends. -/
def wp (t : Tid) (p : Prog Op α) (Q : α → σ × γ → Prop) (x : σ × γ) : Prop :=
  ∀ n, P.Safe M t n p Q x

variable {M P} {t : Tid}

theorem Safe.mono {n : ℕ} {p : Prog Op α} {Q Q' : α → σ × γ → Prop} {x : σ × γ}
    (hQ : ∀ a y, P.inv y → Q a y → Q' a y) (h : P.Safe M t n p Q x) : P.Safe M t n p Q' x := by
  induction n generalizing p x with
  | zero => trivial
  | succ n ih => cases p with
    | ret a => exact fun y hy hi => hQ a y hi (h y hy hi)
    | call o k =>
      intro y hy hi b s' hs
      obtain ⟨g', hi', hg', h'⟩ := h y hy hi b s' hs
      exact ⟨g', hi', hg', ih h'⟩
    | loop body b k => exact ih (p := unroll body b k) h

theorem Safe.pred {n : ℕ} {p : Prog Op α} {Q : α → σ × γ → Prop} {x : σ × γ}
    (h : P.Safe M t (n + 1) p Q x) : P.Safe M t n p Q x := by
  induction n generalizing p x with
  | zero => trivial
  | succ n ih => cases p with
    | ret a => exact h
    | call o k =>
      intro y hy hi b s' hs
      obtain ⟨g', hi', hg', h'⟩ := h y hy hi b s' hs
      exact ⟨g', hi', hg', ih h'⟩
    | loop body b k => exact ih (p := unroll body b k) h

/-- Safety survives what the thread tolerates. -/
theorem Safe.rely {n : ℕ} {p : Prog Op α} {Q : α → σ × γ → Prop} {x y : σ × γ}
    (h : P.Safe M t n p Q x) (hy : P.rely t x y) : P.Safe M t n p Q y := by
  induction n generalizing p with
  | zero => trivial
  | succ n ih => cases p with
    | ret a => exact fun z hz hi => h z (P.rely_trans hy hz) hi
    | call o k => exact fun z hz hi => h z (P.rely_trans hy hz) hi
    | loop body b k => exact ih (p := unroll body b k) h

/-- What neither the thread nor the others invalidate holds at the end as well. -/
theorem Safe.frame {n : ℕ} {p : Prog Op α} {Q : α → σ × γ → Prop} {K : σ × γ → Prop} {x : σ × γ}
    (hrely : ∀ x y, P.rely t x y → K x → K y) (hguar : ∀ x y, P.guar t x y → K x → K y)
    (h : P.Safe M t n p Q x) (hx : K x) : P.Safe M t n p (fun a y => Q a y ∧ K y) x := by
  induction n generalizing p x with
  | zero => trivial
  | succ n ih => cases p with
    | ret a => exact fun y hy hi => ⟨h y hy hi, hrely x y hy hx⟩
    | call o k =>
      intro y hy hi b s' hs
      obtain ⟨g', hi', hg', h'⟩ := h y hy hi b s' hs
      exact ⟨g', hi', hg', ih h' (hguar y _ hg' (hrely x y hy hx))⟩
    | loop body b k => exact ih (p := unroll body b k) h hx

theorem Safe.bind {n : ℕ} {p : Prog Op α} {f : α → Prog Op β} {Q : β → σ × γ → Prop} {x : σ × γ}
    (hi : P.inv x) (h : P.Safe M t n p (fun a y => P.Safe M t n (f a) Q y) x) :
    P.Safe M t n (Prog.bind p f) Q x := by
  induction n generalizing p x with
  | zero => trivial
  | succ n ih => cases p with
    | ret a => exact h x (P.rely_refl t x) hi
    | call o k =>
      intro y hy hi b s' hs
      obtain ⟨g', hi', hg', h'⟩ := h y hy hi b s' hs
      exact ⟨g', hi', hg', ih hi' (h'.mono fun _ _ _ => Safe.pred)⟩
    | loop body b k =>
      have h' : P.Safe M t n (unroll body b k) (fun a y => P.Safe M t (n + 1) (f a) Q y) x := h
      show P.Safe M t n (unroll body b fun c => Prog.bind (k c) f) Q x
      rw [← unroll_bind]
      exact ih hi (h'.mono fun _ _ _ => Safe.pred)

theorem wp_ret {a : α} {Q : α → σ × γ → Prop} {x : σ × γ}
    (h : ∀ y, P.rely t x y → P.inv y → Q a y) : P.wp M t (.ret a) Q x := by
  rintro (_ | n)
  · trivial
  · exact h

theorem wp_call {o : Op β} {k : β → Prog Op α} {Q : α → σ × γ → Prop} {x : σ × γ}
    (h : ∀ y, P.rely t x y → P.inv y → ∀ b s', M.sem t o y.1 b s' →
      ∃ g', P.inv (s', g') ∧ P.guar t y (s', g') ∧ P.wp M t (k b) Q (s', g')) :
    P.wp M t (.call o k) Q x := by
  rintro (_ | n)
  · trivial
  · intro y hy hi b s' hs
    obtain ⟨g', hi', hg', h'⟩ := h y hy hi b s' hs
    exact ⟨g', hi', hg', h' n⟩

theorem wp_mono {p : Prog Op α} {Q Q' : α → σ × γ → Prop} {x : σ × γ}
    (h : P.wp M t p Q x) (hQ : ∀ a y, P.inv y → Q a y → Q' a y) : P.wp M t p Q' x :=
  fun n => (h n).mono hQ

theorem wp_rely {p : Prog Op α} {Q : α → σ × γ → Prop} {x y : σ × γ}
    (h : P.wp M t p Q x) (hy : P.rely t x y) : P.wp M t p Q y := fun n => (h n).rely hy

theorem wp_frame {p : Prog Op α} {Q : α → σ × γ → Prop} {K : σ × γ → Prop} {x : σ × γ}
    (hrely : ∀ x y, P.rely t x y → K x → K y) (hguar : ∀ x y, P.guar t x y → K x → K y)
    (h : P.wp M t p Q x) (hx : K x) : P.wp M t p (fun a y => Q a y ∧ K y) x :=
  fun n => (h n).frame hrely hguar hx

theorem wp_bind {p : Prog Op α} {f : α → Prog Op β} {Q : β → σ × γ → Prop} {x : σ × γ}
    (hi : P.inv x) (h : P.wp M t p (fun a y => P.wp M t (f a) Q y) x) :
    P.wp M t (Prog.bind p f) Q x :=
  fun n => Safe.bind hi ((h n).mono fun _ _ _ h' => h' n)

/-- A loop, by an invariant of its rounds. -/
theorem wp_loop {body : β → Prog Op (β ⊕ δ)} {k : δ → Prog Op α} {Q : α → σ × γ → Prop}
    (I : β → σ × γ → Prop) {b : β} {x : σ × γ} (hi : P.inv x) (hI : I b x)
    (hbody : ∀ b x, P.inv x → I b x → P.wp M t (body b)
      (fun r y => Sum.elim (fun b' => I b' y) (fun c => P.wp M t (k c) Q y) r) x) :
    P.wp M t (.loop body b k) Q x := by
  intro n
  induction n generalizing b x with
  | zero => trivial
  | succ n ih =>
    refine Safe.bind hi ((hbody b x hi hI n).mono fun r y hy h => ?_)
    cases r with
    | inl b' => exact ih hy h
    | inr c => exact h n

variable (M) in
/-- No operation of the program changes the state. -/
def OnlyReads : {α : Type} → Prog Op α → Prop
  | _, .ret _ => True
  | _, .call o k => (∀ t s b s', M.sem t o s b s' → s' = s) ∧ ∀ b, OnlyReads (k b)
  | _, .loop body _ k => (∀ b, OnlyReads (body b)) ∧ ∀ c, OnlyReads (k c)

theorem OnlyReads.restrict {C : ∀ {β : Type}, Tid → Op β → σ → Prop} {p : Prog Op α}
    (h : OnlyReads M p) : OnlyReads (M.restrict C) p := by
  induction p with
  | ret a => trivial
  | call o k ih => exact ⟨fun t s b s' hs => h.1 t s b s' hs.2, fun b => ih b (h.2 b)⟩
  | loop body b k ihb ihk => exact ⟨fun b => ihb b (h.1 b), fun c => ihk c (h.2 c)⟩

/-- A program that only reads keeps what the other threads keep. -/
theorem wp_onlyReads {p : Prog Op α} {Q : α → σ × γ → Prop} (hp : OnlyReads M p) (K : σ × γ → Prop)
    (hK : ∀ x y, P.rely t x y → K x → K y) (hQ : ∀ a y, P.inv y → K y → Q a y) {x : σ × γ}
    (hi : P.inv x) (hx : K x) : P.wp M t p Q x := by
  induction p generalizing x with
  | ret a => exact wp_ret fun y hy hi => hQ a y hi (hK _ _ hy hx)
  | call o k ih =>
    refine wp_call fun y hy hi b s' hs => ?_
    obtain rfl := hp.1 _ _ _ _ hs
    exact ⟨y.2, hi, P.guar_refl t y, ih b (hp.2 b) hQ hi (hK _ _ hy hx)⟩
  | loop body b k ihb ihk =>
    refine wp_loop (fun _ y => K y) hi hx fun b y hi hy => ?_
    refine ihb b (hp.1 b) (fun r z hi hz => ?_) hi hy
    cases r with
    | inl b' => exact hz
    | inr c => exact ihk c (hp.2 c) hQ hi hz

/-! ### Soundness -/

variable [DecidableEq Tid]

variable (M P) in
/-- What a thread must establish to return from a call. -/
def post (t : Tid) (a : Call) (r : Ret) (x : σ × γ) : Prop :=
  ∀ s', M.finish t a r x.1 s' → ∃ g', P.inv (s', g') ∧ P.guar t x (s', g') ∧ P.idle t (s', g')

variable (M P) in
/-- Every thread of the configuration is safe for `n` steps, with ghost state `g`. -/
def CfgSafe (n : ℕ) (c : Machine.Cfg Op σ Tid Call Ret) (g : γ) : Prop :=
  ∀ t, match c.run t with
    | none => P.idle t (c.st, g)
    | some (a, p) => P.Safe M t n p (P.post M t a) (c.st, g)

theorem CfgSafe.put {n : ℕ} {c : Machine.Cfg Op σ Tid Call Ret} {g g' : γ} {t : Tid} {s' : σ}
    {r : Option (Call × Prog Op Ret)}
    (ht : match r with
      | none => P.idle t (s', g')
      | some (a, p) => P.Safe M t n p (P.post M t a) (s', g'))
    (h : P.CfgSafe M (n + 1) c g) (hg : P.guar t (c.st, g) (s', g')) :
    P.CfgSafe M n (c.put t s' r) g' := by
  intro u
  by_cases hu : u = t
  · subst hu
    rw [Machine.Cfg.put_run_self]
    exact ht
  · rw [Machine.Cfg.put_run_ne c hu]
    have := h u
    split at this
    · exact P.idle_rely this (hg u hu)
    · exact this.pred.rely (hg u hu)

/-- When every call that may be made is verified, the threads of every reachable configuration
are safe for any number of steps, with some ghost state. -/
theorem exists_cfgSafe {s₀ : σ} {g₀ : γ} (h₀ : P.inv (s₀, g₀)) (hidle : ∀ t, P.idle t (s₀, g₀))
    (hcall : ∀ t a x s', P.inv x → P.idle t x → M.invoke t a x.1 s' →
      ∃ g', P.inv (s', g') ∧ P.guar t x (s', g') ∧ P.wp M t (M.code a) (P.post M t a) (s', g'))
    {c : Machine.Cfg Op σ Tid Call Ret} (hc : M.Steps (Machine.idleCfg s₀) c) (n : ℕ) :
    ∃ g, P.inv (c.st, g) ∧ P.CfgSafe M n c g := by
  induction hc generalizing n with
  | refl => exact ⟨g₀, h₀, fun t => hidle t⟩
  | tail _ hstep ih =>
    obtain ⟨g, hi, hs⟩ := ih (n + 1)
    cases hstep with
    | @invoke t a s' hrun hinv =>
      have ht := hs t
      rw [hrun] at ht
      obtain ⟨g', hi', hg', hw⟩ := hcall t a _ _ hi ht hinv
      exact ⟨g', hi', .put (hw n) hs hg'⟩
    | @op t a β o k b s' hrun hsem =>
      have ht := hs t
      rw [hrun] at ht
      obtain ⟨g', hi', hg', h'⟩ := ht _ (P.rely_refl t _) hi b s' hsem
      exact ⟨g', hi', .put h' hs hg'⟩
    | @round t a β δ body b k hrun =>
      have ht := hs t
      rw [hrun] at ht
      exact ⟨g, hi, .put ht hs (P.guar_refl t _)⟩
    | @finish t a r s' hrun hfin =>
      have ht := hs t
      rw [hrun] at ht
      obtain ⟨g', hi', hg', h'⟩ := ht _ (P.rely_refl t _) hi s' hfin
      exact ⟨g', hi', .put h' hs hg'⟩

/-- **Soundness**: when every call that may be made is verified, every reachable configuration
satisfies the invariant, for some ghost state. -/
theorem sound {s₀ : σ} {g₀ : γ} (h₀ : P.inv (s₀, g₀)) (hidle : ∀ t, P.idle t (s₀, g₀))
    (hcall : ∀ t a x s', P.inv x → P.idle t x → M.invoke t a x.1 s' →
      ∃ g', P.inv (s', g') ∧ P.guar t x (s', g') ∧ P.wp M t (M.code a) (P.post M t a) (s', g'))
    {c : Machine.Cfg Op σ Tid Call Ret} (hc : M.Steps (Machine.idleCfg s₀) c) :
    ∃ g, P.inv (c.st, g) ∧ ∀ t, c.run t = none → P.idle t (c.st, g) := by
  obtain ⟨g, hg, hsafe⟩ := exists_cfgSafe h₀ hidle hcall hc 0
  refine ⟨g, hg, fun t ht => ?_⟩
  have := hsafe t
  rwa [ht] at this

end Protocol

end Conc
