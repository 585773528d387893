import TinyPointerTrees.Library.Schedule

/-!
# Where threads are in their calls

A `Typestate` says which operations a thread may do where it is in its call, and where it is
after them. `Typed` checks the program of a call. `Keeps` says that the steps of a machine keep
an invariant of the shared state and of where the threads are; `Keeps.holds` is that it then
holds in every reachable configuration, in which what is left of every call is typed.

* `Keeps.settles` — a thread that has only so many operations left before it leaves a part of
  its program leaves it when it runs alone, or is blocked there.
* `Machine.tallied` counts the operations of the threads, and the *events* among them. `Charges`
  says what an operation costs: one of what its thread owes, and so much for an event to every
  other thread. `Charges.ops_le` bounds the operations of one call by the events of the others
  in the meantime, and `Charges.work_le` those of all calls by the number of calls.
* `Machine.Within` is a bound on the states of a run that holds before a step if it holds after
  it. What an operation answers may depend on such a bound.
-/

namespace Conc

open Prog

variable {Op : Type → Type} {σ Tid Call Ret κ α β γ : Type}

/-- A bound on the states of a run: it holds before a step if it holds after it. -/
structure Machine.Within (M : Machine Op σ Tid Call Ret) (B : σ → Prop) : Prop where
  invoke : ∀ {t a s s'}, M.invoke t a s s' → B s' → B s
  sem : ∀ {β : Type} {o : Op β} {t b s s'}, M.sem t o s b s' → B s' → B s
  finish : ∀ {t a r s s'}, M.finish t a r s s' → B s' → B s

theorem Machine.Within.step [DecidableEq Tid] {M : Machine Op σ Tid Call Ret} {B : σ → Prop}
    (hB : M.Within B) {c c' : Machine.Cfg Op σ Tid Call Ret} (h : M.Step c c') (hc' : B c'.st) :
    B c.st := by
  cases h with
  | invoke _ hinv => exact hB.invoke hinv hc'
  | op _ hsem => exact hB.sem hsem hc'
  | round _ => exact hc'
  | finish _ hfin => exact hB.finish hfin hc'

/-- Where a thread may be in its call. -/
structure Typestate (Op : Type → Type) (Call κ : Type) where
  /-- It is in no call. -/
  idle : κ
  /-- It has begun a call. -/
  start : Call → κ
  /-- It may do an operation. -/
  allows : ∀ {β : Type}, Op β → κ → Prop
  /-- Where it may be after an operation with this answer. -/
  next : ∀ {β : Type}, Op β → κ → β → κ → Prop
  /-- It may begin a round of a loop, and where it is then. -/
  turns : κ → κ → Prop
  /-- It may return. -/
  ends : κ → Prop

namespace Typestate

variable (S : Typestate Op Call κ)

/-- From `h` on the program does only what is allowed, and ends in `Q`. -/
def Typed {α : Type} : Prog Op α → κ → (α → κ → Prop) → Prop
  | ret a, h, Q => Q a h
  | call o k, h, Q => S.allows o h ∧ ∀ b h', S.next o h b h' → Typed (k b) h' Q
  | loop body b k, h, Q => ∃ I : _ → κ → Prop, I b h ∧ ∀ b' h', I b' h' → ∃ g, S.turns h' g ∧
      Typed (body b') g fun r h'' => Sum.elim (fun b'' => I b'' h'') (fun c => Typed (k c) h'' Q) r

variable {S} {p : Prog Op α} {h : κ}

theorem Typed.mono {Q Q' : α → κ → Prop} (hp : S.Typed p h Q) (hQ : ∀ a h', Q a h' → Q' a h') :
    S.Typed p h Q' := by
  induction p generalizing h with
  | ret a => exact hQ a h hp
  | call o k ih => exact ⟨hp.1, fun b h' hn => ih b (hp.2 b h' hn) hQ⟩
  | loop body b k ihb ihk =>
    obtain ⟨I, hI, hbody⟩ := hp
    refine ⟨I, hI, fun b' h' hI' => ?_⟩
    obtain ⟨g, hg, hround⟩ := hbody b' h' hI'
    refine ⟨g, hg, ihb b' hround fun r h'' hr => ?_⟩
    cases r with
    | inl b'' => exact hr
    | inr c => exact ihk c hr hQ

theorem Typed.bind {f : α → Prog Op β} {Q : β → κ → Prop}
    (hp : S.Typed p h fun a h' => S.Typed (f a) h' Q) : S.Typed (Prog.bind p f) h Q := by
  induction p generalizing h with
  | ret a => exact hp
  | call o k ih => exact ⟨hp.1, fun b h' hn => ih b (hp.2 b h' hn)⟩
  | loop body b k _ ihk =>
    obtain ⟨I, hI, hbody⟩ := hp
    refine ⟨I, hI, fun b' h' hI' => ?_⟩
    obtain ⟨g, hg, hround⟩ := hbody b' h' hI'
    refine ⟨g, hg, hround.mono fun r h'' hr => ?_⟩
    cases r with
    | inl b'' => exact hr
    | inr c => exact ihk c hr

/-- A loop is typed by an invariant of its rounds. -/
theorem Typed.unroll {body : β → Prog Op (β ⊕ γ)} {b : β} {k : γ → Prog Op α} {Q : α → κ → Prop}
    (hp : S.Typed (.loop body b k) h Q) : ∃ g, S.turns h g ∧ S.Typed (unroll body b k) g Q := by
  obtain ⟨I, hI, hbody⟩ := hp
  obtain ⟨g, hg, hround⟩ := hbody b h hI
  refine ⟨g, hg, (hround.mono fun r h' hr => ?_).bind⟩
  cases r with
  | inl b' => exact ⟨I, hr, hbody⟩
  | inr c => exact hr

/-! ### The threads of a machine -/

variable [DecidableEq Tid] {M : Machine Op σ Tid Call Ret} {B : σ → Prop} {J : σ → (Tid → κ) → Prop}
  {τ : Tid → κ} {t u : Tid} {s s' : σ} {c c' : Machine.Cfg Op σ Tid Call Ret}

variable (S M B J) in
/-- The steps of the machine keep an invariant, as long as the states are within `B`. -/
structure Keeps : Prop where
  invoke : ∀ {t a s s' τ}, M.invoke t a s s' → J s τ → τ t = S.idle →
    J s' (Function.update τ t (S.start a))
  op : ∀ {β : Type} {o : Op β} {t b s s' τ}, M.sem t o s b s' → B s' → J s τ → S.allows o (τ t) →
    ∃ h, S.next o (τ t) b h ∧ J s' (Function.update τ t h)
  turn : ∀ {t s τ h}, J s τ → S.turns (τ t) h → J s (Function.update τ t h)
  finish : ∀ {t a r s s' τ}, M.finish t a r s s' → J s τ → S.ends (τ t) →
    J s' (Function.update τ t S.idle)

variable (S) in
/-- What a thread has left to do is typed where it is. -/
def At (h : κ) : Option (Call × Prog Op Ret) → Prop
  | none => h = S.idle
  | some (_, p) => S.Typed p h fun _ => S.ends

variable (S) in
/-- So is what every thread has left to do. -/
def Follows (τ : Tid → κ) (c : Machine.Cfg Op σ Tid Call Ret) : Prop := ∀ t, S.At (τ t) (c.run t)

theorem Follows.put {r : Option (Call × Prog Op Ret)} (hf : S.Follows τ c) (hr : S.At h r) :
    S.Follows (Function.update τ t h) (c.put t s r) := by
  intro u
  by_cases hu : u = t
  · subst hu
    rwa [Function.update_self, Machine.Cfg.put_run_self]
  · rw [Function.update_of_ne hu, Machine.Cfg.put_run_ne c hu]
    exact hf u

omit [DecidableEq Tid] in
theorem Follows.typed {a : Call} {p : Prog Op Ret} (hf : S.Follows τ c)
    (hrun : c.run t = some (a, p)) : S.Typed p (τ t) fun _ => S.ends := by
  have ht := hf t
  rwa [hrun] at ht

/-- What the steps keep holds in every reachable configuration within `B`. -/
theorem Keeps.holds (hk : S.Keeps M B J) (hB : M.Within B)
    (hcode : ∀ a, S.Typed (M.code a) (S.start a) fun _ => S.ends) (h₀ : J s fun _ => S.idle)
    (hc : M.Steps (Machine.idleCfg s) c) (hBc : B c.st) : ∃ τ, J c.st τ ∧ S.Follows τ c := by
  induction hc with
  | refl => exact ⟨_, h₀, fun t => rfl⟩
  | tail _ hstep ih =>
    obtain ⟨τ, hJ, hf⟩ := ih (hB.step hstep hBc)
    cases hstep with
    | @invoke t a s' hrun hinv =>
      have hidle := hf t
      rw [hrun] at hidle
      exact ⟨_, hk.invoke hinv hJ hidle, hf.put (hcode a)⟩
    | @op t a β o k b s' hrun hsem =>
      obtain ⟨hallow, hnext⟩ := hf.typed hrun
      obtain ⟨h, hh, hJ'⟩ := hk.op hsem hBc hJ hallow
      exact ⟨_, hJ', hf.put (hnext b h hh)⟩
    | @round t a β δ body b k hrun =>
      obtain ⟨g, hg, htyped⟩ := (hf.typed hrun).unroll
      exact ⟨_, hk.turn hJ hg, hf.put htyped⟩
    | @finish t a r s' hrun hfin => exact ⟨_, hk.finish hfin hJ (hf.typed hrun), hf.put rfl⟩

end Typestate

/-! ### Nobody waits for ever -/

namespace Machine

variable (M : Machine Op σ Tid Call Ret)

/-- A thread is in a call, and not blocked. -/
def Enabled (t : Tid) (c : Cfg Op σ Tid Call Ret) : Prop :=
  match c.run t with
  | none => False
  | some (a, .ret r) => ∃ s, M.finish t a r c.st s
  | some (_, .call o _) => ∃ b s, M.sem t o c.st b s
  | some (_, .loop _ _ _) => True

variable {M} {t : Tid} {c : Cfg Op σ Tid Call Ret} {a : Call}

theorem enabled_call {o : Op β} {k : β → Prog Op Ret} (hrun : c.run t = some (a, .call o k)) :
    M.Enabled t c ↔ ∃ b s, M.sem t o c.st b s := by
  rw [Enabled, hrun]

theorem enabled_ret {r : Ret} (hrun : c.run t = some (a, .ret r)) :
    M.Enabled t c ↔ ∃ s, M.finish t a r c.st s := by
  rw [Enabled, hrun]

theorem enabled_loop {body : β → Prog Op (β ⊕ γ)} {b : β} {k : γ → Prog Op Ret}
    (hrun : c.run t = some (a, .loop body b k)) : M.Enabled t c := by
  rw [Enabled, hrun]
  trivial

variable (M) in
/-- Thread `t` does `n` operations one after the other. -/
inductive Operates [DecidableEq Tid] (t : Tid) :
    ℕ → Cfg Op σ Tid Call Ret → Cfg Op σ Tid Call Ret → Prop where
  /-- None. -/
  | refl {c : Cfg Op σ Tid Call Ret} : Operates t 0 c c
  /-- One, and the others. -/
  | op {c c' : Cfg Op σ Tid Call Ret} {n : ℕ} {a : Call} {β : Type} {o : Op β} {k : β → Prog Op Ret}
      {b : β} {s' : σ} : c.run t = some (a, .call o k) → M.sem t o c.st b s' →
      Operates t n (c.put t s' (some (a, k b))) c' → Operates t (n + 1) c c'
  /-- The beginning of a round of a loop, which is no operation. -/
  | round {c c' : Cfg Op σ Tid Call Ret} {n : ℕ} {a : Call} {β δ : Type}
      {body : β → Prog Op (β ⊕ δ)} {b : β} {k : δ → Prog Op Ret} :
      c.run t = some (a, .loop body b k) →
      Operates t n (c.put t c.st (some (a, unroll body b k))) c' → Operates t n c c'

end Machine

namespace Typestate

variable {S : Typestate Op Call κ} [DecidableEq Tid] {M : Machine Op σ Tid Call Ret} {B : σ → Prop}
  {J : σ → (Tid → κ) → Prop} {τ : Tid → κ} {t : Tid} {c : Machine.Cfg Op σ Tid Call Ret}

/-- A thread that runs alone leaves where it is, or is blocked there. An operation lowers `left`,
and the beginning of a round lowers `lap`. -/
theorem Keeps.settles (hk : S.Keeps M B J) (busy : κ → Prop) (left lap : κ → ℕ)
    (hidle : ¬ busy S.idle) (hends : ∀ h, busy h → ¬ S.ends h)
    (hstays : ∀ {β : Type} {o : Op β} {t b s s' h}, M.sem t o s b s' → busy h →
      S.allows o h → B s → B s')
    (hleft : ∀ {β : Type} {o : Op β} {h b h'}, busy h → S.allows o h → S.next o h b h' →
      left h' < left h)
    (hlap : ∀ {h h'}, S.turns h h' → left h' ≤ left h ∧ lap h' < lap h) (hB : B c.st)
    (hJ : J c.st τ) (hf : S.Follows τ c) :
    ∃ n ≤ left (τ t), ∃ c' τ', M.Operates t n c c' ∧ J c'.st τ' ∧ S.Follows τ' c' ∧
      (∀ u ≠ t, c'.run u = c.run u ∧ τ' u = τ u) ∧ (busy (τ' t) → ¬ M.Enabled t c') := by
  induction hn : left (τ t) using Nat.strong_induction_on generalizing c τ with
  | _ n ih =>
    induction hl : lap (τ t) using Nat.strong_induction_on generalizing c τ with
    | _ l ihl =>
      by_cases hb : busy (τ t)
      swap
      · exact ⟨0, Nat.zero_le _, c, τ, .refl, hJ, hf, fun u _ => ⟨rfl, rfl⟩, fun h => absurd h hb⟩
      have ht := hf t
      match hrun : c.run t with
      | none =>
        rw [hrun] at ht
        exact absurd (ht ▸ hb) hidle
      | some (a, .ret r) => exact absurd (hf.typed hrun) (hends _ hb)
      | some (a, .loop body b k) =>
        obtain ⟨g, hg, htyped⟩ := (hf.typed hrun).unroll
        obtain ⟨hle, hlt⟩ := hlap hg
        have hself : Function.update τ t g t = g := Function.update_self ..
        have hf' := hf.put (t := t) (s := c.st) (r := some (a, unroll body b k)) htyped
        have hothers : ∀ u ≠ t, (c.put t c.st (some (a, unroll body b k))).run u = c.run u ∧
          Function.update τ t g u = τ u :=
          fun u hu => ⟨Machine.Cfg.put_run_ne c hu _ _, Function.update_of_ne hu _ _⟩
        have hsettled : ∃ m ≤ left g, ∃ c' τ',
          M.Operates t m (c.put t c.st (some (a, unroll body b k))) c' ∧ J c'.st τ' ∧
            S.Follows τ' c' ∧
            (∀ u ≠ t, c'.run u = (c.put t c.st (some (a, unroll body b k))).run u ∧
              τ' u = Function.update τ t g u) ∧ (busy (τ' t) → ¬ M.Enabled t c') := by
          rcases hle.lt_or_eq with hlt' | heq
          · exact ih (c := c.put t c.st _) (left g) (hn ▸ hlt') hB (hk.turn hJ hg)
              hf' (by rw [hself])
          · obtain ⟨m, hm, h⟩ := ihl (c := c.put t c.st _) (lap g) (hl ▸ hlt) hB (hk.turn hJ hg) hf'
              (by rw [hself, heq, hn]) (by rw [hself])
            exact ⟨m, by omega, h⟩
        obtain ⟨m, hm, c', τ', hops, hJ', hf'', hsame, hblocked⟩ := hsettled
        refine ⟨m, by omega, c', τ', .round hrun hops, hJ', hf'', fun u hu => ?_, hblocked⟩
        rw [(hsame u hu).1, (hsame u hu).2]
        exact hothers u hu
      | some (a, .call o k) =>
        by_cases hop : ∃ b s', M.sem t o c.st b s'
        swap
        · exact ⟨0, Nat.zero_le _, c, τ, .refl, hJ, hf, fun u _ => ⟨rfl, rfl⟩, fun _ => fun he =>
            hop ((Machine.enabled_call hrun).mp he)⟩
        obtain ⟨b, s', hsem⟩ := hop
        obtain ⟨hallow, hnext⟩ := hf.typed hrun
        have hB' : B s' := hstays hsem hb hallow hB
        obtain ⟨h, hh, hJ'⟩ := hk.op hsem hB' hJ hallow
        have hlt : left h < n := hn ▸ hleft hb hallow hh
        have hself : Function.update τ t h t = h := Function.update_self ..
        obtain ⟨m, hm, c', τ', hops, hJ'', hf', hsame, hblocked⟩ :=
          ih (left h) hlt hB' hJ' (hf.put (t := t) (s := s') (r := some (a, k b))
            (hnext b h hh)) (by rw [hself])
        refine ⟨m + 1, by omega, c', τ', .op hrun hsem hops, hJ'', hf', fun u hu => ?_, hblocked⟩
        rw [(hsame u hu).1, (hsame u hu).2, Machine.Cfg.put_run_ne c hu, Function.update_of_ne hu]
        exact ⟨rfl, rfl⟩

end Typestate

/-! ### Counting operations -/

/-- A state, and what has been done in it. -/
structure Tally (σ Tid : Type) where
  /-- The state. -/
  st : σ
  /-- The threads that have made a call. -/
  threads : Finset Tid
  /-- The calls that have begun. -/
  calls : ℕ
  /-- The operations of each thread since its last call began. -/
  ops : Tid → ℕ
  /-- The events of the other threads since then. -/
  disturbed : Tid → ℕ
  /-- All operations. -/
  work : ℕ
  /-- All events. -/
  events : ℕ

namespace Tally

/-- Nothing has been done. -/
def initial (s : σ) : Tally σ Tid := ⟨s, ∅, 0, fun _ => 0, fun _ => 0, 0, 0⟩

variable [DecidableEq Tid] (x : Tally σ Tid) (t : Tid) (e : ℕ) (s : σ)

/-- Thread `t` calls. -/
def begin : Tally σ Tid :=
  { x with st := s, threads := insert t x.threads, calls := x.calls + 1
           ops := Function.update x.ops t 0, disturbed := Function.update x.disturbed t 0 }

/-- Thread `t` does an operation, with `e` events. -/
def operate : Tally σ Tid :=
  { x with st := s, ops := Function.update x.ops t (x.ops t + 1)
           disturbed := fun u => if u = t then x.disturbed u else x.disturbed u + e
           work := x.work + 1, events := x.events + e }

end Tally

/-- The machine, with what has been done in it. -/
def Machine.tallied [DecidableEq Tid] (M : Machine Op σ Tid Call Ret)
    (event : ∀ {β : Type}, Op β → β → ℕ) : Machine Op (Tally σ Tid) Tid Call Ret where
  sem t o x b y := ∃ s, M.sem t o x.st b s ∧ y = x.operate t (event o b) s
  code := M.code
  invoke t a x y := ∃ s, M.invoke t a x.st s ∧ y = x.begin t s
  finish t a r x y := ∃ s, M.finish t a r x.st s ∧ y = { x with st := s }

namespace Machine

variable [DecidableEq Tid] {M : Machine Op σ Tid Call Ret}

/-- A bound on the states is one on the tallied states. -/
theorem Within.tallied {B : σ → Prop} (hB : M.Within B) {event : ∀ {β : Type}, Op β → β → ℕ} :
    (M.tallied event).Within fun x => B x.st where
  invoke := by
    rintro t a x y ⟨s, hinv, rfl⟩
    exact hB.invoke hinv
  sem := by
    rintro β o t b x y ⟨s, hsem, rfl⟩
    exact hB.sem hsem
  finish := by
    rintro t a r x y ⟨s, hfin, rfl⟩
    exact hB.finish hfin

/-- The steps of the tallied machine, computed. -/
def Executor.tallied (E : M.Executor) (event : ∀ {β : Type}, Op β → β → ℕ) :
    (M.tallied event).Executor where
  exec t o x := (E.exec t o x.st).map fun r => (r.1, x.operate t (event o r.1) r.2)
  invoke t a x := (E.invoke t a x.st).map fun s => x.begin t s
  finish t a r x := (E.finish t a r x.st).map fun s => { x with st := s }
  exec_sound h := by
    obtain ⟨⟨b, s⟩, hs, heq⟩ := Option.map_eq_some_iff.mp h
    cases heq
    exact ⟨s, E.exec_sound hs, rfl⟩
  invoke_sound h := by
    obtain ⟨s, hs, rfl⟩ := Option.map_eq_some_iff.mp h
    exact ⟨s, E.invoke_sound hs, rfl⟩
  finish_sound h := by
    obtain ⟨s, hs, rfl⟩ := Option.map_eq_some_iff.mp h
    exact ⟨s, E.finish_sound hs, rfl⟩

end Machine

namespace Typestate

variable (S : Typestate Op Call κ) [DecidableEq Tid] (M : Machine Op σ Tid Call Ret) (B : σ → Prop)
  (J : σ → (Tid → κ) → Prop) (event : ∀ {β : Type}, Op β → β → ℕ) (debt : σ → κ → ℕ) (spare : κ → ℕ)
  (d k : ℕ)

/-- What operations cost. A call begins with a debt of `d`. An operation pays one of it, and adds
`k` for an event to those of the other threads. A call has at most one event, as `spare` tells. -/
structure Charges : Prop where
  keeps : S.Keeps M B J
  idle_debt : ∀ s, debt s S.idle = 0
  idle_spare : spare S.idle = 0
  start_debt : ∀ s a, debt s (S.start a) ≤ d
  start_spare : ∀ a, spare (S.start a) ≤ 1
  invoke_debt : ∀ {t a s s' h}, M.invoke t a s s' → debt s' h ≤ debt s h
  finish_debt : ∀ {t a r s s' h}, M.finish t a r s s' → debt s' h ≤ debt s h
  own : ∀ {β : Type} {o : Op β} {t b s s' τ h}, M.sem t o s b s' → B s' → J s τ → S.allows o (τ t) →
    S.next o (τ t) b h → debt s' h + 1 ≤ debt s (τ t) ∧ spare h + event o b ≤ spare (τ t)
  other : ∀ {β : Type} {o : Op β} {t u b s s' τ}, M.sem t o s b s' → B s' → J s τ →
    S.allows o (τ t) → u ≠ t → debt s' (τ u) ≤ debt s (τ u) + k * event o b
  turn : ∀ {s h h'}, S.turns h h' → h ≠ S.idle ∧ debt s h' ≤ debt s h ∧ spare h' ≤ spare h

/-- What has been done is paid for. -/
structure Paid (x : Tally σ Tid) (τ : Tid → κ) : Prop where
  inv : J x.st τ
  idle : ∀ t ∉ x.threads, τ t = S.idle
  call : ∀ t, x.ops t + debt x.st (τ t) ≤ d + k * x.disturbed t
  events : x.events + ∑ t ∈ x.threads, spare (τ t) ≤ x.calls
  work : x.work + ∑ t ∈ x.threads, debt x.st (τ t) ≤
    d * x.calls + k * (x.threads.card - 1) * x.events

variable {S M B J event debt spare d k} {x : Tally σ Tid} {τ : Tid → κ} {t : Tid} {h : κ} {s : σ}
  {c : Machine.Cfg Op (Tally σ Tid) Tid Call Ret}

theorem sum_update (T : Finset Tid) (f : κ → ℕ) :
    ∑ u ∈ insert t T, f (Function.update τ t h u) = f h + ∑ u ∈ T.erase t, f (τ u) := by
  rw [← Finset.add_sum_erase _ _ (Finset.mem_insert_self t T), Finset.erase_insert_eq_erase,
    Function.update_self]
  congr 1
  apply Finset.sum_congr rfl
  intro u hu
  rw [Function.update_of_ne (Finset.ne_of_mem_erase hu)]

theorem Paid.begin {a : Call} (hC : S.Charges M B J event debt spare d k)
    (hx : S.Paid J debt spare d k x τ) (hinv : M.invoke t a x.st s) (hidle : τ t = S.idle) :
    S.Paid J debt spare d k (x.begin t s) (Function.update τ t (S.start a)) := by
  refine ⟨hC.keeps.invoke hinv hx.inv hidle, ?_, fun u => ?_, ?_, ?_⟩
  · apply (Function.forall_update_iff τ fun u p => u ∉ insert t x.threads → p = S.idle).mpr
    exact ⟨fun ht => absurd (Finset.mem_insert_self t _) ht,
      fun u _ hu => hx.idle u fun hmem => hu (Finset.mem_insert_of_mem hmem)⟩
  · by_cases hut : u = t
    · subst hut
      simpa [Tally.begin] using hC.start_debt s a
    · have hcall := hx.call u
      have hdebt := hC.invoke_debt (h := τ u) hinv
      simp only [Tally.begin, Function.update_of_ne hut]
      omega
  · have hevents := hx.events
    have hstart := hC.start_spare a
    have herase := Finset.sum_le_sum_of_subset (f := fun u => spare (τ u))
      (Finset.erase_subset t x.threads)
    simp only [Tally.begin, sum_update]
    omega
  · have hwork := hx.work
    have hstart := hC.start_debt s a
    have hdebts : ∑ u ∈ x.threads.erase t, debt s (τ u) ≤ ∑ u ∈ x.threads, debt x.st (τ u) :=
      (Finset.sum_le_sum fun u _ => hC.invoke_debt hinv).trans (Finset.sum_le_sum_of_subset
        (Finset.erase_subset t x.threads))
    have hcard : k * (x.threads.card - 1) * x.events ≤
      k * ((insert t x.threads).card - 1) * x.events := by
      have hle := Finset.card_le_card (Finset.subset_insert t x.threads)
      gcongr
    simp only [Tally.begin, sum_update, Nat.mul_add, Nat.mul_one]
    omega

theorem Paid.operate {o : Op β} {b : β} (hC : S.Charges M B J event debt spare d k)
    (hx : S.Paid J debt spare d k x τ) (hsem : M.sem t o x.st b s) (hB : B s)
    (hallow : S.allows o (τ t)) (hnext : S.next o (τ t) b h) (hinv : J s (Function.update τ t h)) :
    S.Paid J debt spare d k (x.operate t (event o b) s) (Function.update τ t h) := by
  obtain ⟨hdebt, hspare⟩ := hC.own hsem hB hx.inv hallow hnext
  -- a thread that is in no call owes nothing, and so does nothing
  have hmem : t ∈ x.threads := by
    by_contra hmem
    rw [hx.idle t hmem, hC.idle_debt] at hdebt
    omega
  have hsum : ∀ f : κ → ℕ, ∑ u ∈ x.threads, f (Function.update τ t h u) =
      f h + ∑ u ∈ x.threads.erase t, f (τ u) := by
    intro f
    rw [← sum_update, Finset.insert_eq_of_mem hmem]
  have hsum' : ∀ f : κ → ℕ, ∑ u ∈ x.threads, f (τ u) = f (τ t) + ∑ u ∈ x.threads.erase t, f (τ u) :=
    fun f => (Finset.add_sum_erase x.threads (fun u => f (τ u)) hmem).symm
  refine ⟨hinv, ?_, fun u => ?_, ?_, ?_⟩
  · apply (Function.forall_update_iff τ fun u p => u ∉ x.threads → p = S.idle).mpr
    exact ⟨fun ht => absurd hmem ht, fun u _ => hx.idle u⟩
  · have hcall := hx.call u
    by_cases hut : u = t
    · subst hut
      simp only [Tally.operate, Function.update_self, if_true]
      omega
    · have hother := hC.other hsem hB hx.inv hallow hut
      simp only [Tally.operate, Function.update_of_ne hut, if_neg hut, Nat.mul_add]
      omega
  · have hevents := hx.events
    simp only [Tally.operate, hsum, hsum'] at hevents ⊢
    omega
  · have hwork := hx.work
    have hothers : ∑ u ∈ x.threads.erase t, debt s (τ u) ≤
        ∑ u ∈ x.threads.erase t, debt x.st (τ u) + k * (x.threads.card - 1) * event o b := by
      calc ∑ u ∈ x.threads.erase t, debt s (τ u)
          ≤ ∑ u ∈ x.threads.erase t, (debt x.st (τ u) + k * event o b) :=
            Finset.sum_le_sum fun u hu => hC.other hsem hB hx.inv hallow (Finset.ne_of_mem_erase hu)
        _ = _ := by
            rw [Finset.sum_add_distrib, Finset.sum_const,
              Finset.card_erase_of_mem hmem, smul_eq_mul]
            ring
    simp only [Tally.operate, hsum, hsum', Nat.mul_add] at hwork ⊢
    omega

/-- A thread goes where it owes no more. -/
theorem Paid.go (hx : S.Paid J debt spare d k x τ) (hdebt : ∀ u, debt s (τ u) ≤ debt x.st (τ u))
    (hh : debt s h ≤ debt x.st (τ t) ∧ spare h ≤ spare (τ t)) (hidle : t ∉ x.threads → h = S.idle)
    (hinv : J s (Function.update τ t h)) :
    S.Paid J debt spare d k { x with st := s } (Function.update τ t h) := by
  have hdebts : ∀ u, debt s (Function.update τ t h u) ≤ debt x.st (τ u) := by
    apply (Function.forall_update_iff τ fun u p => debt s p ≤ debt x.st (τ u)).mpr
    exact ⟨hh.1, fun u _ => hdebt u⟩
  have hspare : ∀ u, spare (Function.update τ t h u) ≤ spare (τ u) := by
    apply (Function.forall_update_iff τ fun u p => spare p ≤ spare (τ u)).mpr
    exact ⟨hh.2, fun u _ => le_rfl⟩
  refine ⟨hinv, ?_, fun u => (Nat.add_le_add_left (hdebts u) _).trans (hx.call u),
    (Nat.add_le_add_left (Finset.sum_le_sum fun u _ => hspare u) _).trans hx.events,
    (Nat.add_le_add_left (Finset.sum_le_sum fun u _ => hdebts u) _).trans hx.work⟩
  apply (Function.forall_update_iff τ fun u p => u ∉ x.threads → p = S.idle).mpr
  exact ⟨hidle, fun u _ => hx.idle u⟩

theorem Paid.finish {a : Call} {r : Ret} (hC : S.Charges M B J event debt spare d k)
    (hx : S.Paid J debt spare d k x τ) (hfin : M.finish t a r x.st s) (hends : S.ends (τ t)) :
    S.Paid J debt spare d k { x with st := s } (Function.update τ t S.idle) := by
  apply hx.go (fun u => hC.finish_debt hfin) ⟨?_, ?_⟩
    (fun _ => rfl) (hC.keeps.finish hfin hx.inv hends)
  · exact (hC.idle_debt s).le.trans (Nat.zero_le _)
  · exact hC.idle_spare.le.trans (Nat.zero_le _)

theorem Paid.turn (hC : S.Charges M B J event debt spare d k) (hx : S.Paid J debt spare d k x τ)
    (hturn : S.turns (τ t) h) : S.Paid J debt spare d k x (Function.update τ t h) :=
  hx.go (fun _ => le_rfl) (hC.turn hturn).2 (fun hnot =>
    absurd (hx.idle t hnot) (hC.turn (s := x.st) hturn).1) (hC.keeps.turn hx.inv hturn)

/-- So it is in every reachable configuration. -/
theorem Charges.paid (hC : S.Charges M B J event debt spare d k) (hB : M.Within B)
    (hcode : ∀ a, S.Typed (M.code a) (S.start a) fun _ => S.ends) (h₀ : J s fun _ => S.idle)
    (hc : (M.tallied event).Steps (Machine.idleCfg (Tally.initial s)) c) (hBc : B c.st.st) :
    ∃ τ, S.Paid J debt spare d k c.st τ := by
  have hkeeps : S.Keeps (M.tallied event) (fun x => B x.st) (S.Paid J debt spare d k) := by
    refine ⟨?_, ?_, ?_, ?_⟩
    · rintro t a x y τ ⟨s', hinv, rfl⟩ hx hidle
      exact hx.begin hC hinv hidle
    · rintro β o t b x y τ ⟨s', hsem, rfl⟩ hB' hx hallow
      obtain ⟨h, hnext, hinv⟩ := hC.keeps.op hsem hB' hx.inv hallow
      exact ⟨h, hnext, hx.operate hC hsem hB' hallow hnext hinv⟩
    · intro t x τ h hx hturn
      exact hx.turn hC hturn
    · rintro t a r x y τ ⟨s', hfin, rfl⟩ hx hends
      exact hx.finish hC hfin hends
  have hinitial : S.Paid J debt spare d k (Tally.initial s) fun _ => S.idle :=
    ⟨h₀, fun _ _ => rfl, fun _ => by simp [Tally.initial, hC.idle_debt], by simp [Tally.initial], by
      simp [Tally.initial]⟩
  obtain ⟨τ, hpaid, -⟩ := hkeeps.holds hB.tallied hcode hinitial hc hBc
  exact ⟨τ, hpaid⟩

/-- What a call does is bounded by the events of the other threads in the meantime. -/
theorem Charges.ops_le (hC : S.Charges M B J event debt spare d k) (hB : M.Within B)
    (hcode : ∀ a, S.Typed (M.code a) (S.start a) fun _ => S.ends) (h₀ : J s fun _ => S.idle)
    (hc : (M.tallied event).Steps (Machine.idleCfg (Tally.initial s)) c) (hBc : B c.st.st)
    (t : Tid) : c.st.ops t ≤ d + k * c.st.disturbed t := by
  obtain ⟨τ, hpaid⟩ := hC.paid hB hcode h₀ hc hBc
  exact (Nat.le_add_right _ _).trans (hpaid.call t)

/-- What all calls do is bounded by their number. -/
theorem Charges.work_le (hC : S.Charges M B J event debt spare d k) (hB : M.Within B)
    (hcode : ∀ a, S.Typed (M.code a) (S.start a) fun _ => S.ends)
    (h₀ : J s fun _ => S.idle) (hc : (M.tallied event).Steps (Machine.idleCfg (Tally.initial s)) c)
    (hBc : B c.st.st) :
    c.st.work ≤ (d + k * (c.st.threads.card - 1)) * c.st.calls := by
  obtain ⟨τ, hpaid⟩ := hC.paid hB hcode h₀ hc hBc
  have hevents : c.st.events ≤ c.st.calls := (Nat.le_add_right _ _).trans hpaid.events
  calc c.st.work ≤ d * c.st.calls + k * (c.st.threads.card - 1) * c.st.events := (Nat.le_add_right _
    _).trans hpaid.work
    _ ≤ d * c.st.calls + k * (c.st.threads.card - 1) * c.st.calls := by gcongr
    _ = _ := by ring

end Typestate

end Conc
