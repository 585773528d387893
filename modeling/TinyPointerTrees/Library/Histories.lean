import TinyPointerTrees.Library.Linearizability
import TinyPointerTrees.Library.Schedule

/-!
# Histories of interleavings, and logs

`Machine.clocked` keeps, beside the state of a machine, which call each thread is in,
when it began, and the calls that have ended; `Clocked.history` is the history.

A log lists operations in the order in which they take effect. A call may find out
only later that it takes effect, and that this was in the past: it notes its place in
the log (`LogItem.note`), and its answer is put there when it is known. `Good` says
that the operations that are answered can take effect in this order, and of the notes
that are alive that they fit: that their call could take effect at their place, apart from
everything behind it.

* `Logged` — the log is one of a history: `Logged.begin`, `Logged.finish`, `Logged.append`,
  `Logged.replace` and `Logged.remove` are what the steps do.
* `Good.push`, `Good.note`, `Good.remove`, `Good.commit` — the same for what the operations do.
* `Logged.linearizes` — a history with a good log is linearizable.
-/

namespace Conc

open Prog

variable {Op : Type → Type} {σ Tid Call Ret : Type}

/-- A state, and a clock that counts the beginnings and the ends of calls. -/
structure Clocked (σ Tid Call Ret : Type) where
  /-- The state. -/
  st : σ
  /-- The calls that have begun or ended. -/
  time : ℕ
  /-- The call each thread is in. -/
  active : Tid → Option Call
  /-- When the last call of each thread began. -/
  began : Tid → ℕ
  /-- The calls that have ended. -/
  ended : List (Operation Call Ret)

namespace Clocked

/-- Nothing has been called. -/
def initial (s : σ) : Clocked σ Tid Call Ret := ⟨s, 0, fun _ => none, fun _ => 0, []⟩

/-- The calls that have ended, and those that have not. -/
def history (x : Clocked σ Tid Call Ret) : Set (Operation Call Ret) :=
  {o | o ∈ x.ended ∨ ∃ t a, x.active t = some a ∧ o = ⟨a, x.began t, none⟩}

variable [DecidableEq Tid] (x : Clocked σ Tid Call Ret) (t : Tid) (a : Call) (r : Ret) (s : σ)

/-- Thread `t` calls. -/
def begin : Clocked σ Tid Call Ret :=
  { x with
    st := s
    time := x.time + 1
    active := Function.update x.active t (some a)
    began := Function.update x.began t x.time }

/-- Thread `t` returns. -/
def finish : Clocked σ Tid Call Ret :=
  { x with st := s, time := x.time + 1, active := Function.update x.active t none
           ended := ⟨a, x.began t, some (r, x.time)⟩ :: x.ended }

end Clocked

/-- The machine with a clock. -/
def Machine.clocked [DecidableEq Tid] (M : Machine Op σ Tid Call Ret) :
    Machine Op (Clocked σ Tid Call Ret) Tid Call Ret where
  sem t o x b y := ∃ s, M.sem t o x.st b s ∧ y = { x with st := s }
  code := M.code
  invoke t a x y := ∃ s, M.invoke t a x.st s ∧ y = x.begin t a s
  finish t a r x y := ∃ s, M.finish t a r x.st s ∧ y = x.finish t a r s

/-- The clock is no part of the operations. -/
theorem Protocol.OnlyReads.clocked [DecidableEq Tid] {M : Machine Op σ Tid Call Ret} {α : Type}
    {p : Prog Op α} (h : Protocol.OnlyReads M p) : Protocol.OnlyReads M.clocked p := by
  induction p with
  | ret a => trivial
  | call o k ih =>
    refine ⟨?_, fun b => ih b (h.2 b)⟩
    rintro t x b y ⟨s, hs, rfl⟩
    rw [h.1 t x.st b s hs]
  | loop body b k ihb ihk => exact ⟨fun b => ihb b (h.1 b), fun c => ihk c (h.2 c)⟩

/-- The steps of a machine with a clock, computed. -/
def Machine.Executor.clocked [DecidableEq Tid] {M : Machine Op σ Tid Call Ret} (E : M.Executor) :
    M.clocked.Executor where
  exec t o x := (E.exec t o x.st).map fun r => (r.1, { x with st := r.2 })
  invoke t a x := (E.invoke t a x.st).map (x.begin t a)
  finish t a r x := (E.finish t a r x.st).map (x.finish t a r)
  exec_sound h := by
    obtain ⟨r, hr, hx⟩ := Option.map_eq_some_iff.mp h
    cases hx
    exact ⟨r.2, E.exec_sound hr, rfl⟩
  invoke_sound h := by
    obtain ⟨s, hs, rfl⟩ := Option.map_eq_some_iff.mp h
    exact ⟨s, E.invoke_sound hs, rfl⟩
  finish_sound h := by
    obtain ⟨s, hs, rfl⟩ := Option.map_eq_some_iff.mp h
    exact ⟨s, E.finish_sound hs, rfl⟩

/-! ### The clock -/

/-- The history is one of calls that begin and end one at a time. -/
structure Clocked.Ticks (x : Clocked σ Tid Call Ret) : Prop where
  chronological : Chronological x.time x.history
  inj : ∀ t u, x.active t ≠ none → x.active u ≠ none → x.began t = x.began u → t = u
  answered : ∀ o ∈ x.ended, o.answered ≠ none

namespace Clocked.Ticks

variable {x : Clocked σ Tid Call Ret} {t : Tid} {a : Call} {r : Ret} {s : σ}
  {o o' : Operation Call Ret}

theorem initial : (Clocked.initial s : Clocked σ Tid Call Ret).Ticks := by
  have hempty : (Clocked.initial s : Clocked σ Tid Call Ret).history = ∅ := by
    ext o
    simp [Clocked.history, Clocked.initial]
  exact ⟨hempty ▸ .empty, fun t u ht => absurd rfl ht, by simp [Clocked.initial]⟩

theorem mem_history (h : x.active t = some a) : ⟨a, x.began t, none⟩ ∈ x.history :=
  Or.inr ⟨t, a, h, rfl⟩

theorem began_lt (h : x.Ticks) (ht : x.active t = some a) : x.began t < x.time :=
  h.chronological.began_lt (mem_history ht)

/-- What has ended is not what a thread is in. -/
theorem ended_ne_began (h : x.Ticks) (ht : x.active t = some a) (ho : o ∈ x.ended) :
    o.began ≠ x.began t := by
  intro heq
  have hsame := h.chronological.began_inj (Or.inl ho) (mem_history ht) heq
  exact h.answered o ho (by rw [hsame])

variable [DecidableEq Tid]

theorem history_begin (ht : x.active t = none) : (x.begin t a s).history = insert
    ⟨a, x.time, none⟩ x.history := by
  ext o
  simp only [Clocked.history, Clocked.begin, Set.mem_ofPred_eq, Set.mem_insert_iff]
  constructor
  · rintro (ho | ⟨u, a', hu, rfl⟩)
    · exact Or.inr (Or.inl ho)
    · by_cases hut : u = t
      · subst hut
        rw [Function.update_self] at hu
        cases hu
        exact Or.inl (by rw [Function.update_self])
      · rw [Function.update_of_ne hut] at hu
        exact Or.inr (Or.inr ⟨u, a', hu, by rw [Function.update_of_ne hut]⟩)
  · rintro (rfl | ho | ⟨u, a', hu, rfl⟩)
    · exact Or.inr ⟨t, a, Function.update_self .., by rw [Function.update_self]⟩
    · exact Or.inl ho
    · have hut : u ≠ t := by
        rintro rfl
        cases ht.symm.trans hu
      exact Or.inr ⟨u, a', by rw [Function.update_of_ne hut, hu], by rw [Function.update_of_ne hut]⟩

theorem begin (h : x.Ticks) (ht : x.active t = none) : (x.begin t a s).Ticks := by
  refine ⟨history_begin (a := a) (s := s) ht ▸ h.chronological.begin a,
    fun u w hu hw heq => ?_, h.answered⟩
  have hlt : ∀ v, v ≠ t → (x.begin t a s).active v ≠ none →
    (x.begin t a s).began v = x.began v ∧ x.active v ≠ none ∧
      x.began v < x.time := by
    intro v hv hact
    have hact' : x.active v ≠ none := by
      simpa only [Clocked.begin, Function.update_of_ne hv] using hact
    obtain ⟨b, hb⟩ := Option.ne_none_iff_exists'.mp hact'
    exact ⟨Function.update_of_ne hv .., hact', h.began_lt hb⟩
  have hself : (x.begin t a s).began t = x.time := Function.update_self ..
  by_cases hut : u = t <;> by_cases hwt : w = t
  · exact hut.trans hwt.symm
  · obtain ⟨hwb, -, hlt⟩ := hlt w hwt hw
    rw [hut, hself, hwb] at heq
    exact absurd heq.symm hlt.ne
  · obtain ⟨hub, -, hlt⟩ := hlt u hut hu
    rw [hwt, hself, hub] at heq
    exact absurd heq hlt.ne
  · obtain ⟨hub, hu', -⟩ := hlt u hut hu
    obtain ⟨hwb, hw', -⟩ := hlt w hwt hw
    exact h.inj u w hu' hw' (hub.symm.trans (heq.trans hwb))

theorem history_finish (h : x.Ticks) (ht : x.active t = some a) : (x.finish t a r s).history =
    insert ⟨a, x.began t, some (r, x.time)⟩ (x.history \ {⟨a, x.began t, none⟩}) := by
  ext o
  simp only [Clocked.history, Clocked.finish, Set.mem_ofPred_eq, Set.mem_insert_iff, Set.mem_sdiff,
    Set.mem_singleton_iff, List.mem_cons]
  constructor
  · rintro ((rfl | ho) | ⟨u, a', hu, rfl⟩)
    · exact Or.inl rfl
    · exact Or.inr ⟨Or.inl ho, fun heq => h.answered o ho (by rw [heq])⟩
    · have hut : u ≠ t := by
        rintro rfl
        rw [Function.update_self] at hu
        cases hu
      rw [Function.update_of_ne hut] at hu
      refine Or.inr ⟨Or.inr ⟨u, a', hu, rfl⟩, fun heq => hut ?_⟩
      exact h.inj u t (by simp [hu]) (by simp [ht]) (congrArg Operation.began heq)
  · rintro (rfl | ⟨ho | ⟨u, a', hu, rfl⟩, hne⟩)
    · exact Or.inl (Or.inl rfl)
    · exact Or.inl (Or.inr ho)
    · have hut : u ≠ t := by
        rintro rfl
        cases ht.symm.trans hu
        exact hne rfl
      exact Or.inr ⟨u, a', by rw [Function.update_of_ne hut, hu], rfl⟩

theorem finish (h : x.Ticks) (ht : x.active t = some a) : (x.finish t a r s).Ticks := by
  have hold : ∀ u, (x.finish t a r s).active u ≠ none → x.active u ≠ none := by
    intro u hu
    by_cases hut : u = t
    · subst hut
      simp [Clocked.finish] at hu
    · simpa only [Clocked.finish, Function.update_of_ne hut] using hu
  refine ⟨h.history_finish (r := r) (s := s) ht ▸ h.chronological.finish r (mem_history ht) rfl,
    fun u w hu hw => h.inj u w (hold u hu) (hold w hw), fun o ho => ?_⟩
  rcases List.mem_cons.mp ho with rfl | ho
  · exact Option.some_ne_none _
  · exact h.answered o ho

end Clocked.Ticks

/-! ### Logs -/

/-- An operation in a log: it has taken effect, with this answer, or it may turn out to have. -/
structure LogItem (Call Ret ν : Type) where
  /-- When it began. -/
  began : ℕ
  /-- What it calls. -/
  call : Call
  /-- What it has noted, or what it answers. -/
  note : ν ⊕ Ret

/-- The log lists operations of the history, and those that have ended with their answers. -/
structure Logged {ν : Type} (x : Clocked σ Tid Call Ret) (log : List (LogItem Call Ret ν)) :
    Prop where
  nodup : (log.map LogItem.began).Nodup
  mem : ∀ i ∈ log, ∃ o ∈ x.history, o.began = i.began ∧ o.call = i.call
  complete : ∀ o ∈ x.ended, ∀ r e, o.answered = some (r, e) → ⟨o.began, o.call, .inr r⟩ ∈ log
  order : log.Pairwise fun i j => ∀ o ∈ x.ended, o.began = j.began →
    ∀ r e, o.answered = some (r, e) → i.began ≤ e

namespace Logged

variable {ν : Type} {x : Clocked σ Tid Call Ret} {log l₁ l₂ : List (LogItem Call Ret ν)}
  {i : LogItem Call Ret ν} {t : Tid} {a : Call} {r : Ret} {s : σ} {v w : ν ⊕ Ret}

theorem initial :
    Logged (Clocked.initial s : Clocked σ Tid Call Ret) ([] : List (LogItem Call Ret ν)) :=
  ⟨List.nodup_nil, by simp, by simp [Clocked.initial], List.Pairwise.nil⟩

/-- The state does not matter. -/
theorem within (h : Logged x log) : Logged { x with st := s } log :=
  ⟨h.nodup, h.mem, h.complete, h.order⟩

theorem began_lt (h : Logged x log) (hx : x.Ticks) (hi : i ∈ log) : i.began < x.time := by
  obtain ⟨o, ho, heq, -⟩ := h.mem i hi
  rw [← heq]
  exact hx.chronological.began_lt ho

/-- An operation is in the log once. -/
theorem began_ne (h : Logged x (l₁ ++ i :: l₂)) : ∀ j ∈ l₁ ++ l₂, j.began ≠ i.began := by
  have hnodup := h.nodup
  rw [List.map_append, List.map_cons, List.nodup_middle,
    List.nodup_cons, ← List.map_append] at hnodup
  intro j hj heq
  exact hnodup.1 (heq ▸ List.mem_map_of_mem hj)

/-- A call that has not ended is put behind all others. -/
theorem append (h : Logged x log) (hx : x.Ticks) (ht : x.active t = some a)
    (hnew : ∀ i ∈ log, i.began ≠ x.began t) : Logged x (log ++ [⟨x.began t, a, v⟩]) := by
  refine ⟨?_, fun i hi => ?_, fun o ho r e hr =>
    List.mem_append_left _ (h.complete o ho r e hr), ?_⟩
  · rw [List.map_append, List.map_singleton, ← List.concat_eq_append]
    refine List.Nodup.concat (fun hmem => ?_) h.nodup
    obtain ⟨i, hi, heq⟩ := List.mem_map.mp hmem
    exact hnew i hi heq
  · rcases List.mem_append.mp hi with hi | hi
    · exact h.mem i hi
    · rw [List.mem_singleton.mp hi]
      exact ⟨_, Clocked.Ticks.mem_history ht, rfl, rfl⟩
  · refine List.pairwise_append.mpr ⟨h.order, List.pairwise_singleton _ _,
      fun i _ j hj o ho heq => ?_⟩
    rw [List.mem_singleton.mp hj] at heq
    exact absurd heq (hx.ended_ne_began ht ho)

/-- A call that has not ended has another note, or has taken effect. -/
theorem replace (h : Logged x (l₁ ++ ⟨x.began t, a, v⟩ :: l₂)) (hx : x.Ticks)
    (ht : x.active t = some a) : Logged x (l₁ ++ ⟨x.began t, a, w⟩ :: l₂) := by
  refine ⟨?_, fun i hi => ?_, fun o ho r e hr => ?_, ?_⟩
  · simpa using h.nodup
  · rcases List.mem_append.mp hi with hi | hi
    · exact h.mem i (List.mem_append_left _ hi)
    · rcases List.mem_cons.mp hi with rfl | hi
      · exact ⟨_, Clocked.Ticks.mem_history ht, rfl, rfl⟩
      · exact h.mem i (List.mem_append_right _ (List.mem_cons_of_mem _ hi))
  · have hne := hx.ended_ne_began ht ho
    rcases List.mem_append.mp (h.complete o ho r e hr) with hi | hi
    · exact List.mem_append_left _ hi
    · rcases List.mem_cons.mp hi with heq | hi
      · exact absurd (congrArg LogItem.began heq) hne
      · exact List.mem_append_right _ (List.mem_cons_of_mem _ hi)
  · have horder := h.order
    rw [List.pairwise_append, List.pairwise_cons] at horder ⊢
    obtain ⟨h₁, ⟨h₂, h₃⟩, h₄⟩ := horder
    refine ⟨h₁, ⟨h₂, h₃⟩, fun i hi j hj => ?_⟩
    rcases List.mem_cons.mp hj with rfl | hj
    · exact h₄ i hi ⟨x.began t, a, v⟩ List.mem_cons_self
    · exact h₄ i hi j (List.mem_cons_of_mem _ hj)

/-- A call that has not ended withdraws its note. -/
theorem remove (h : Logged x (l₁ ++ ⟨x.began t, a, v⟩ :: l₂)) (hx : x.Ticks)
    (ht : x.active t = some a) : Logged x (l₁ ++ l₂) := by
  have hsub : (l₁ ++ l₂).Sublist (l₁ ++ ⟨x.began t, a, v⟩ :: l₂) :=
    (List.sublist_cons_self _ _).append_left _
  refine ⟨h.nodup.sublist (hsub.map _), fun i hi => h.mem i (hsub.subset hi), fun o ho r e hr => ?_,
    h.order.sublist hsub⟩
  have hne := hx.ended_ne_began ht ho
  rcases List.mem_append.mp (h.complete o ho r e hr) with hi | hi
  · exact List.mem_append_left _ hi
  · rcases List.mem_cons.mp hi with heq | hi
    · exact absurd (congrArg LogItem.began heq) hne
    · exact List.mem_append_right _ hi

variable [DecidableEq Tid]

theorem begin (h : Logged x log) (ht : x.active t = none) : Logged (x.begin t a s) log := by
  refine ⟨h.nodup, fun i hi => ?_, h.complete, h.order⟩
  obtain ⟨o, ho, hi⟩ := h.mem i hi
  rw [Clocked.Ticks.history_begin ht]
  exact ⟨o, Set.mem_insert_of_mem _ ho, hi⟩

/-- A call may end when it has taken effect with its answer. -/
theorem finish (h : Logged x log) (hx : x.Ticks) (ht : x.active t = some a)
    (hmem : ⟨x.began t, a, .inr r⟩ ∈ log) : Logged (x.finish t a r s) log := by
  refine ⟨h.nodup, fun i hi => ?_, fun o ho r' e hr => ?_, ?_⟩
  · obtain ⟨o, ho, hb, hc⟩ := h.mem i hi
    rw [hx.history_finish ht]
    by_cases heq : o = ⟨a, x.began t, none⟩
    · subst heq
      exact ⟨_, Set.mem_insert _ _, hb, hc⟩
    · exact ⟨o, Set.mem_insert_of_mem _ ⟨ho, heq⟩, hb, hc⟩
  · rcases List.mem_cons.mp ho with rfl | ho
    · obtain ⟨rfl, -⟩ := Prod.mk.inj (Option.some.inj hr)
      exact hmem
    · exact h.complete o ho r' e hr
  · refine h.order.imp_of_mem fun {i j} hi _ hij o ho heq r' e hr => ?_
    rcases List.mem_cons.mp ho with rfl | ho
    · obtain ⟨-, rfl⟩ := Prod.mk.inj (Option.some.inj hr)
      exact (h.began_lt hx hi).le
    · exact hij o ho heq r' e hr

end Logged

/-! ### What the operations of a log do -/

/-- A sequential object, and what is said by notes. -/
structure LogObject (S Call Ret ν : Type) where
  /-- The object answers a call. -/
  step : S → Call → Ret → S → Prop
  /-- The state after an answer. -/
  effect : S → Call → Ret → S
  /-- The call that has made a note could take effect here. -/
  fits : S → Call → ν → Prop
  /-- An answer that has to do with other things than the note. -/
  apart : ν → Call → Ret → Prop

namespace LogObject

variable {S ν : Type} (O : LogObject S Call Ret ν)

/-- The state after the operations of a log that have taken effect. -/
def after : S → List (LogItem Call Ret ν) → S
  | s, [] => s
  | s, ⟨_, c, .inr r⟩ :: l => after (O.effect s c r) l
  | s, ⟨_, _, .inl _⟩ :: l => after s l

/-- The operations can take effect, and the notes that are alive fit. -/
def Good (live : ν → Prop) : S → List (LogItem Call Ret ν) → Prop
  | _, [] => True
  | s, ⟨_, c, .inr r⟩ :: l => O.step s c r (O.effect s c r) ∧ Good live (O.effect s c r) l
  | s, ⟨_, c, .inl v⟩ :: l =>
    (live v → O.fits s c v ∧ ∀ i ∈ l, ∀ r, i.note = .inr r → O.apart v i.call r) ∧ Good live s l

variable {O} {live live' : ν → Prop} {s : S} {l l₁ l₂ : List (LogItem Call Ret ν)} {n : ℕ}
  {c : Call} {r : Ret} {v : ν}

@[simp] theorem after_nil : O.after s [] = s := rfl

@[simp] theorem after_answer : O.after s (⟨n, c, .inr r⟩ :: l) = O.after (O.effect s c r) l := rfl

@[simp] theorem after_note : O.after s (⟨n, c, .inl v⟩ :: l) = O.after s l := rfl

theorem after_append : O.after s (l₁ ++ l₂) = O.after (O.after s l₁) l₂ := by
  induction l₁ generalizing s with
  | nil => rfl
  | cons i l₁ ih =>
    obtain ⟨n, c, v | r⟩ := i
    · exact ih
    · exact ih

/-- A note has no effect. -/
theorem after_remove : O.after s (l₁ ++ ⟨n, c, .inl v⟩ :: l₂) = O.after s (l₁ ++ l₂) := by
  rw [after_append, after_append, after_note]

namespace Good

theorem mono (h : O.Good live s l) (hlive : ∀ i ∈ l, ∀ v, i.note = .inl v → live' v → live v) :
    O.Good live' s l := by
  induction l generalizing s with
  | nil => trivial
  | cons i l ih =>
    have hrest : ∀ i ∈ l, ∀ v, i.note = .inl v → live' v → live v :=
      fun i hi => hlive i (List.mem_cons_of_mem _ hi)
    obtain ⟨n, c, v | r⟩ := i
    · exact ⟨fun hv => h.1 (hlive _ List.mem_cons_self v rfl hv), ih h.2 hrest⟩
    · exact ⟨h.1, ih h.2 hrest⟩

/-- An operation takes effect behind all others; notes from which it is not apart die. -/
theorem push (h : O.Good live s l) (hstep : O.step (O.after s l) c r (O.effect (O.after s l) c r))
    (hlive : ∀ v, live' v → live v ∧ O.apart v c r) : O.Good live' s (l ++ [⟨n, c, .inr r⟩]) := by
  induction l generalizing s with
  | nil => exact ⟨hstep, trivial⟩
  | cons i l ih =>
    obtain ⟨m, d, v | q⟩ := i
    · refine ⟨fun hv => ?_, ih h.2 hstep⟩
      obtain ⟨hfits, hapart⟩ := h.1 (hlive v hv).1
      refine ⟨hfits, fun i hi r' hr' => ?_⟩
      rcases List.mem_append.mp hi with hi | hi
      · exact hapart i hi r' hr'
      · rw [List.mem_singleton.mp hi] at hr' ⊢
        cases hr'
        exact (hlive v hv).2
    · exact ⟨h.1, ih h.2 hstep⟩

/-- A note is made behind all operations. -/
theorem note (h : O.Good live s l) (hfits : live v → O.fits (O.after s l) c v) :
    O.Good live s (l ++ [⟨n, c, .inl v⟩]) := by
  induction l generalizing s with
  | nil => exact ⟨fun hv => ⟨hfits hv, by simp⟩, trivial⟩
  | cons i l ih =>
    obtain ⟨m, d, w | q⟩ := i
    · refine ⟨fun hw => ?_, ih h.2 hfits⟩
      obtain ⟨hfits', hapart⟩ := h.1 hw
      refine ⟨hfits', fun i hi r' hr' => ?_⟩
      rcases List.mem_append.mp hi with hi | hi
      · exact hapart i hi r' hr'
      · rw [List.mem_singleton.mp hi] at hr'
        cases hr'
    · exact ⟨h.1, ih h.2 hfits⟩

/-- A note is withdrawn. -/
theorem remove (h : O.Good live s (l₁ ++ ⟨n, c, .inl v⟩ :: l₂)) : O.Good live s (l₁ ++ l₂) := by
  induction l₁ generalizing s with
  | nil => exact h.2
  | cons i l₁ ih =>
    obtain ⟨m, d, w | q⟩ := i
    · refine ⟨fun hw => ?_, ih h.2⟩
      obtain ⟨hfits, hapart⟩ := h.1 hw
      refine ⟨hfits, fun i hi => hapart i ?_⟩
      rcases List.mem_append.mp hi with hi | hi
      · exact List.mem_append_left _ hi
      · exact List.mem_append_right _ (List.mem_cons_of_mem _ hi)
    · exact ⟨h.1, ih h.2⟩

end Good

variable (O) in
/-- A call that has noted `v` may take effect with answer `r` where `K` holds, whatever has happened
since apart from the note: it makes no difference to that, and leaves the notes alone that live
on. -/
structure Commutes (live' : ν → Prop) (K : S → Prop) (v : ν) (c : Call) (r : Ret) : Prop where
  step : ∀ s, K s → O.fits s c v → O.step s c r (O.effect s c r)
  keep : ∀ s d q, O.apart v d q → (K (O.effect s d q) ↔ K s)
  comm : ∀ s d q, K s → O.apart v d q → O.step s d q (O.effect s d q) →
    O.step (O.effect s c r) d q (O.effect (O.effect s c r) d q) ∧
    O.effect (O.effect s c r) d q = O.effect (O.effect s d q) c r
  fits : ∀ s d w, live' w → K s → O.fits s d w → O.fits (O.effect s c r) d w

namespace Commutes

variable {K : S → Prop} (h : O.Commutes live' K v c r)

include h

theorem keep_after (hapart : ∀ i ∈ l, ∀ q, i.note = .inr q → O.apart v i.call q) :
    K (O.after s l) ↔ K s := by
  induction l generalizing s with
  | nil => exact Iff.rfl
  | cons i l ih =>
    have hl := ih (fun i hi => hapart i (List.mem_cons_of_mem _ hi)) (s := s)
    obtain ⟨m, d, w | q⟩ := i
    · exact hl
    · exact (ih fun i hi => hapart i (List.mem_cons_of_mem _ hi)).trans
        (h.keep s d q (hapart _ List.mem_cons_self q rfl))

/-- What has happened since happens after the call as well. -/
theorem later (hlive : ∀ w, live' w → live w) (hl : O.Good live s l) (hK : K s)
    (hapart : ∀ i ∈ l, ∀ q, i.note = .inr q → O.apart v i.call q) :
    O.Good live' (O.effect s c r) l ∧ O.after (O.effect s c r) l = O.effect (O.after s l) c r := by
  induction l generalizing s with
  | nil => exact ⟨trivial, rfl⟩
  | cons i l ih =>
    have hrest : ∀ i ∈ l, ∀ q, i.note = .inr q → O.apart v i.call q :=
      fun i hi => hapart i (List.mem_cons_of_mem _ hi)
    obtain ⟨m, d, w | q⟩ := i
    · obtain ⟨hgood, hafter⟩ := ih hl.2 hK hrest
      refine ⟨⟨fun hw => ?_, hgood⟩, hafter⟩
      exact ⟨h.fits s d w hw hK (hl.1 (hlive w hw)).1, (hl.1 (hlive w hw)).2⟩
    · have hd := hapart _ List.mem_cons_self q rfl
      obtain ⟨hstep, heq⟩ := h.comm s d q hK hd hl.1
      obtain ⟨hgood, hafter⟩ := ih hl.2 ((h.keep s d q hd).mpr hK) hrest
      rw [← heq] at hgood hafter
      exact ⟨⟨hstep, hgood⟩, hafter⟩

end Commutes

/-- The call that has made a note takes effect, at the place of the note. -/
theorem Good.commit {K : S → Prop} (h : O.Good live s (l₁ ++ ⟨n, c, .inl v⟩ :: l₂))
    (hc : O.Commutes live' K v c r) (hv : live v) (hlive : ∀ w, live' w → live w ∧ O.apart w c r)
    (hK : K (O.after s (l₁ ++ ⟨n, c, .inl v⟩ :: l₂))) :
    O.Good live' s (l₁ ++ ⟨n, c, .inr r⟩ :: l₂) ∧ O.after s (l₁ ++ ⟨n, c, .inr r⟩ :: l₂) = O.effect
      (O.after s (l₁ ++ ⟨n, c, .inl v⟩ :: l₂)) c r := by
  induction l₁ generalizing s with
  | nil =>
    obtain ⟨hfits, hapart⟩ := h.1 hv
    have hK' : K s := (hc.keep_after hapart).mp hK
    obtain ⟨hgood, hafter⟩ := hc.later (fun w hw => (hlive w hw).1) h.2 hK' hapart
    exact ⟨⟨hc.step s hK' hfits, hgood⟩, hafter⟩
  | cons i l₁ ih =>
    obtain ⟨m, d, w | q⟩ := i
    · obtain ⟨hgood, hafter⟩ := ih h.2 hK
      refine ⟨⟨fun hw => ?_, hgood⟩, hafter⟩
      obtain ⟨hfits, hapart⟩ := h.1 (hlive w hw).1
      refine ⟨hfits, fun i hi q hq => ?_⟩
      rcases List.mem_append.mp hi with hi | hi
      · exact hapart i (List.mem_append_left _ hi) q hq
      · rcases List.mem_cons.mp hi with rfl | hi
        · cases hq
          exact (hlive w hw).2
        · exact hapart i (List.mem_append_right _ (List.mem_cons_of_mem _ hi)) q hq
    · obtain ⟨hgood, hafter⟩ := ih h.2 hK
      exact ⟨⟨h.1, hgood⟩, hafter⟩

end LogObject

/-! ### Linearizability -/

/-- The operation of the history that a log lists. -/
def Clocked.operation {ν : Type} (x : Clocked σ Tid Call Ret) (i : LogItem Call Ret ν) :
    Operation Call Ret :=
  (x.ended.find? fun o => o.began = i.began).getD ⟨i.call, i.began, none⟩

/-- The operations that have taken effect. -/
def committed {ν : Type} (x : Clocked σ Tid Call Ret) (log : List (LogItem Call Ret ν)) :
    List (Operation Call Ret × Ret) :=
  log.filterMap fun i => i.note.getRight?.map fun r => (x.operation i, r)

namespace Logged

variable {S ν : Type} {O : LogObject S Call Ret ν} {live : ν → Prop} {x : Clocked σ Tid Call Ret}
  {log : List (LogItem Call Ret ν)} {i : LogItem Call Ret ν} {s : S}

theorem operation_mem (h : Logged x log) (hx : x.Ticks) (hi : i ∈ log) :
    x.operation i ∈ x.history ∧ (x.operation i).began = i.began ∧
      (x.operation i).call = i.call := by
  obtain ⟨o, ho, hb, hc⟩ := h.mem i hi
  suffices hsame : x.operation i = o by
    rw [hsame]
    exact ⟨ho, hb, hc⟩
  unfold Clocked.operation
  cases hf : x.ended.find? fun o => o.began = i.began with
  | some o' =>
    have hb' : o'.began = i.began := by simpa using List.find?_some hf
    exact hx.chronological.began_inj (Or.inl (List.mem_of_find?_eq_some hf)) ho (hb'.trans hb.symm)
  | none =>
    rcases ho with ho | ⟨t, a, ht, rfl⟩
    · exact absurd (by simpa using hb) (List.find?_eq_none.mp hf o ho)
    · rw [Option.getD_none, ← hb, ← hc]

theorem mem_committed {o : Operation Call Ret} {r : Ret} (h : (o, r) ∈ committed x log) :
    ∃ i ∈ log, i.note = .inr r ∧ x.operation i = o := by
  obtain ⟨i, hi, heq⟩ := List.mem_filterMap.mp h
  obtain ⟨r', hr', heq⟩ := Option.map_eq_some_iff.mp heq
  cases heq
  exact ⟨i, hi, Sum.getRight?_eq_some_iff.mp hr', rfl⟩

theorem legal (hgood : O.Good live s log) (hcall : ∀ i ∈ log, (x.operation i).call = i.call) :
    Legal O.step s (committed x log) := by
  induction log generalizing s with
  | nil => exact .nil
  | cons i log ih =>
    have hrest : ∀ i ∈ log, (x.operation i).call = i.call :=
      fun i hi => hcall i (List.mem_cons_of_mem _ hi)
    obtain ⟨n, c, v | r⟩ := i
    · exact ih hgood.2 hrest
    · have hstep : O.step s (x.operation (⟨n, c, .inr r⟩ : LogItem Call Ret ν)).call r
        (O.effect s c r) := by
        rw [hcall _ List.mem_cons_self]
        exact hgood.1
      exact .cons hstep (ih hgood.2 hrest)

/-- A history with a good log is linearizable. -/
theorem linearizes (h : Logged x log) (hx : x.Ticks) (hgood : O.Good live s log) :
    Linearizable O.step s x.history := by
  refine ⟨committed x log, ?_, fun e he => ?_, fun o ho r e hr => ?_, ?_, legal hgood fun i hi =>
    (h.operation_mem hx hi).2.2⟩
  · have hsub : (((committed x log).map Prod.fst).map Operation.began).Sublist
      (log.map LogItem.began) := by
      have heq : ((committed x log).map Prod.fst).map Operation.began =
          (log.filter fun i => i.note.isRight).map LogItem.began := by
        rw [committed, List.map_filterMap,
          List.map_filterMap, ← List.filterMap_eq_map, ← List.filterMap_eq_filter,
          List.filterMap_filterMap]
        refine List.filterMap_congr fun i hi => ?_
        have hb := (h.operation_mem hx hi).2.1
        obtain ⟨n, c, v | r⟩ := i
        · simp [Option.guard]
        · simpa [Option.guard] using hb
      rw [heq]
      exact List.filter_sublist.map _
    exact (h.nodup.sublist hsub).of_map _
  · obtain ⟨i, hi, -, heq⟩ := mem_committed (o := e.1) (r := e.2) he
    rw [← heq]
    exact (h.operation_mem hx hi).1
  · have hend : o ∈ x.ended := by
      rcases ho with ho | ⟨t, a, -, rfl⟩
      · exact ho
      · cases hr
    have hi := h.complete o hend r e hr
    have hsame : x.operation (⟨o.began, o.call, .inr r⟩ : LogItem Call Ret ν) = o := by
      obtain ⟨hmem, hb, -⟩ := h.operation_mem hx hi
      exact hx.chronological.began_inj hmem ho hb
    refine List.mem_filterMap.mpr ⟨_, hi, ?_⟩
    rw [hsame]
    rfl
  · refine List.pairwise_filterMap.mpr (h.order.imp_of_mem fun {i j} hi hj hij e he e' he' => ?_)
    obtain ⟨r, -, rfl⟩ := Option.map_eq_some_iff.mp he
    obtain ⟨r', -, rfl⟩ := Option.map_eq_some_iff.mp he'
    rintro ⟨q, m, hq, hlt⟩
    obtain ⟨-, hbi, -⟩ := h.operation_mem hx hi
    obtain ⟨hmem, hbj, -⟩ := h.operation_mem hx hj
    have hend : x.operation j ∈ x.ended := by
      rcases hmem with ho | ⟨t, a, -, heq⟩
      · exact ho
      · rw [heq] at hq
        cases hq
    have hle := hij _ hend hbj q m hq
    rw [hbi] at hlt
    omega

end Logged

end Conc
