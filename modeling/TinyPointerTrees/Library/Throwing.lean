import TinyPointerTrees.Library.RelyGuarantee

/-!
# Programs that may be left early

A program of type `Throwing Op ε α` answers an `α`, or is left early with an
`ε`: an exception, or a jump. `forever` repeats a body until it leaves the loop,
`retrying` starts a body again each time it is left with one of the `ε` that ask
for that.

The rules come in two families. `Ends` and `EndsOr` are total correctness of a
program that runs alone: it finishes, and what it finishes with satisfies the
postcondition. `Protocol.wpOr` is `Protocol.wp` with a second postcondition.
-/

namespace Conc

open Prog

/-- A program that answers an `α`, or is left early with an `ε`. -/
abbrev Throwing (Op : Type → Type) (ε : Type) : Type → Type 1 := ExceptT ε (Prog Op)

variable {Op : Type → Type} {ε α β γ δ σ Tid Call Ret : Type}

namespace Throwing

/-- A single operation. -/
def op (o : Op α) : Throwing Op ε α := ExceptT.mk (Prog.bind (Prog.op o) fun a => .ret (.ok a))

/-- A round of `forever`, as a round of a loop. -/
def forever.next : Except ε (β ⊕ γ) → β ⊕ Except ε γ
  | .ok (.inl b) => .inl b
  | .ok (.inr c) => .inr (.ok c)
  | .error e => .inr (.error e)

/-- `while (true)`: repeat the body from `b` while it answers `inl`. -/
def forever (body : β → Throwing Op ε (β ⊕ γ)) (b : β) : Throwing Op ε γ :=
  ExceptT.mk (iter (fun b => Prog.bind (body b).run fun r => .ret (forever.next r)) b)

/-- A round of `retrying`, as a round of a loop. -/
def retrying.next (again : ε → Bool) : Except ε α → Unit ⊕ Except ε α
  | .ok a => .inr (.ok a)
  | .error e => if again e then .inl () else .inr (.error e)

/-- Start again each time the program is left with an `again`. -/
def retrying (again : ε → Bool) (x : Throwing Op ε α) : Throwing Op ε α :=
  ExceptT.mk (iter (fun _ => Prog.bind x.run fun r => .ret (retrying.next again r)) ())

/-- A postcondition for the answer, and one for leaving early. -/
def Outcome (Q : α → σ → Prop) (E : ε → σ → Prop) : Except ε α → σ → Prop
  | .ok a => Q a
  | .error e => E e

/-- What follows a program, if it is not left early. -/
def andThen (f : α → Throwing Op ε β) : Except ε α → Prog Op (Except ε β)
  | .ok a => (f a).run
  | .error e => .ret (.error e)

theorem run_bind (x : Throwing Op ε α) (f : α → Throwing Op ε β) :
    (x >>= f).run = Prog.bind x.run (andThen f) := rfl

/-- A program that begins with an operation. -/
theorem runs_op_bind (H : Handler Op σ) {o : Op α} {f : α → Throwing Op ε β} {s s' : σ}
    {r : Except ε β} :
    Runs H (op o >>= f).run s r s' ↔ ∃ x, H.exec o s = some x ∧ Runs H (f x.1).run x.2 r s' :=
  runs_call H

end Throwing

/-! ### Total correctness of a program that runs alone -/

section Ends

variable (H : Handler Op σ)

/-- The program, run alone from `s`, finishes, and `Q` holds of how. -/
def Ends (p : Prog Op α) (s : σ) (Q : α → σ → Prop) : Prop := ∃ a s', Runs H p s a s' ∧ Q a s'

variable {H}

theorem Ends.ret {a : α} {s : σ} {Q : α → σ → Prop} (h : Q a s) : Ends H (.ret a) s Q :=
  ⟨a, s, (runs_ret H).mpr ⟨rfl, rfl⟩, h⟩

theorem Ends.call {o : Op β} {k : β → Prog Op α} {s s' : σ} {b : β} {Q : α → σ → Prop}
    (ho : H.exec o s = some (b, s')) (h : Ends H (k b) s' Q) : Ends H (.call o k) s Q := by
  obtain ⟨a, u, hr, hq⟩ := h
  exact ⟨a, u, (runs_call H).mpr ⟨(b, s'), ho, hr⟩, hq⟩

theorem Ends.mono {p : Prog Op α} {s : σ} {Q Q' : α → σ → Prop} (h : Ends H p s Q)
    (hQ : ∀ a s', Q a s' → Q' a s') : Ends H p s Q' := by
  obtain ⟨a, u, hr, hq⟩ := h
  exact ⟨a, u, hr, hQ a u hq⟩

theorem Ends.bind {p : Prog Op α} {f : α → Prog Op β} {s : σ} {Q : β → σ → Prop}
    (h : Ends H p s fun a s' => Ends H (f a) s' Q) : Ends H (Prog.bind p f) s Q := by
  obtain ⟨a, u, hr, b, u', hr', hq⟩ := h
  exact ⟨b, u', (runs_bind H).mpr ⟨a, u, hr, hr'⟩, hq⟩

/-- A loop, by an invariant of its rounds and a number that they make smaller. -/
theorem Ends.loop {body : β → Prog Op (β ⊕ γ)} {k : γ → Prog Op α} {Q : α → σ → Prop}
    (I : ℕ → β → σ → Prop)
    (hbody : ∀ m b s, I m b s → Ends H (body b) s fun r s' =>
      Sum.elim (fun b' => ∃ m' < m, I m' b' s') (fun c => Ends H (k c) s' Q) r)
    {m : ℕ} {b : β} {s : σ} (hI : I m b s) : Ends H (.loop body b k) s Q := by
  induction m using Nat.strong_induction_on generalizing b s with
  | _ m ih =>
    obtain ⟨r, u, hr, hq⟩ := hbody m b s hI
    cases r with
    | inl b' =>
      obtain ⟨m', hlt, hI'⟩ := hq
      obtain ⟨a, u', hr', hq'⟩ := ih m' hlt hI'
      exact ⟨a, u', (runs_loop_iff H).mpr (.inl ⟨b', u, hr, hr'⟩), hq'⟩
    | inr c =>
      obtain ⟨a, u', hr', hq'⟩ := hq
      exact ⟨a, u', (runs_loop_iff H).mpr (.inr ⟨c, u, hr, hr'⟩), hq'⟩

variable (H) in
/-- The program, run alone from `s`, answers in `Q` or is left early in `E`. -/
def EndsOr (x : Throwing Op ε α) (s : σ) (Q : α → σ → Prop) (E : ε → σ → Prop) : Prop :=
  Ends H x.run s (Throwing.Outcome Q E)

namespace EndsOr

variable {x : Throwing Op ε α} {s s' : σ} {Q Q' : α → σ → Prop} {E E' : ε → σ → Prop}

theorem pure {a : α} (h : Q a s) : EndsOr H (Pure.pure a : Throwing Op ε α) s Q E := Ends.ret h

theorem throw {e : ε} (h : E e s) : EndsOr H (MonadExcept.throw e : Throwing Op ε α) s Q E :=
  Ends.ret h

theorem mono (h : EndsOr H x s Q E) (hQ : ∀ a s', Q a s' → Q' a s')
    (hE : ∀ e s', E e s' → E' e s') : EndsOr H x s Q' E' := by
  refine Ends.mono h fun r s' hr => ?_
  cases r with
  | ok a => exact hQ a s' hr
  | error e => exact hE e s' hr

theorem bind {f : α → Throwing Op ε β} {R : β → σ → Prop}
    (h : EndsOr H x s (fun a s' => EndsOr H (f a) s' R E) E) : EndsOr H (x >>= f) s R E := by
  unfold EndsOr
  rw [Throwing.run_bind]
  refine Ends.bind (Ends.mono h fun r s' hr => ?_)
  cases r with
  | ok a => exact hr
  | error e => exact Ends.ret hr

theorem map {f : α → β} {R : β → σ → Prop} (h : EndsOr H x s (fun a s' => R (f a) s') E) :
    EndsOr H (f <$> x) s R E := by
  refine Ends.bind (Ends.mono h fun r s' hr => ?_)
  cases r with
  | ok a => exact Ends.ret hr
  | error e => exact Ends.ret hr

theorem op {o : Op α} {a : α} (ho : H.exec o s = some (a, s')) (h : Q a s') :
    EndsOr H (Throwing.op o) s Q E := Ends.call ho (Ends.ret h)

theorem forever {body : β → Throwing Op ε (β ⊕ γ)} {R : γ → σ → Prop} (I : ℕ → β → σ → Prop)
    (hbody : ∀ m b s, I m b s → EndsOr H (body b) s
      (fun r s' => Sum.elim (fun b' => ∃ m' < m, I m' b' s') (fun c => R c s') r) E)
    {m : ℕ} {b : β} (hI : I m b s) : EndsOr H (Throwing.forever body b) s R E := by
  refine Ends.loop I (fun m b s hI => Ends.bind (Ends.mono (hbody m b s hI) fun r s' hr => ?_)) hI
  refine Ends.ret ?_
  rcases r with e | (b' | c)
  · exact Ends.ret hr
  · exact hr
  · exact Ends.ret hr

/-- A program that never asks to be started again. -/
theorem retrying {again : ε → Bool} (h : EndsOr H x s Q fun e s' => again e = false ∧ E e s') :
    EndsOr H (Throwing.retrying again x) s Q E := by
  refine Ends.loop (fun _ _ s => EndsOr H x s Q fun e s' => again e = false ∧ E e s') (m := 0)
    (fun m b s hI => Ends.bind (Ends.mono hI fun r s' hr => ?_)) h
  refine Ends.ret ?_
  cases r with
  | ok a => exact Ends.ret hr
  | error e =>
    simp only [Throwing.retrying.next, hr.1, Bool.false_eq_true, if_false]
    exact Ends.ret hr.2

/-- What is true of how a program ends is true of each of its runs. -/
theorem of_runs (h : EndsOr H x s Q E) {r : Except ε α} (hr : Runs H x.run s r s') :
    Throwing.Outcome Q E r s' := by
  obtain ⟨r', u, hr', hq⟩ := h
  obtain ⟨rfl, rfl⟩ := Runs.unique H hr' hr
  exact hq

/-- A program that changes nothing when it asks to be started again does so for ever, unless it
finishes at once. -/
theorem of_runs_retrying {again : ε → Bool}
    (h : EndsOr H x s Q fun e s' => if again e then s' = s else E e s') {r : Except ε α}
    (hr : Runs H (Throwing.retrying again x).run s r s') : Throwing.Outcome Q E r s' := by
  have hround : ∀ (_ : Unit) (u : σ) (r : Unit ⊕ Except ε α) (v : σ), u = s →
      Runs H (Prog.bind x.run fun r => .ret (Throwing.retrying.next again r)) u r v →
      Sum.elim (fun _ => v = s) (fun c => Throwing.Outcome Q E c v) r := by
    rintro - u r v rfl hrun
    obtain ⟨a, w, ha, hret⟩ := (runs_bind H).mp hrun
    obtain ⟨rfl, rfl⟩ := (runs_ret H).mp hret
    have hq := h.of_runs ha
    cases a with
    | ok a => exact hq
    | error e =>
      simp only [Throwing.retrying.next, Throwing.Outcome] at hq ⊢
      split_ifs at hq ⊢ <;> exact hq
  obtain ⟨c, u, hc, hret⟩ := Runs.of_loop H (fun _ u => u = s) hround rfl hr
  obtain ⟨rfl, rfl⟩ := (runs_ret H).mp hret
  exact hc

end EndsOr

end Ends

/-! ### Rely and guarantee -/

namespace Protocol

variable (M : Machine Op σ Tid Call Ret) (P : Protocol σ γ Tid)

/-- `wp`, with a postcondition for the answer and one for leaving early. -/
def wpOr (t : Tid) (x : Throwing Op ε α) (Q : α → σ × γ → Prop) (E : ε → σ × γ → Prop) (s : σ × γ) :
    Prop :=
  P.wp M t x.run (Throwing.Outcome Q E) s

/-- A postcondition that the other threads do not invalidate. -/
def Stable (t : Tid) (Q : α → σ × γ → Prop) : Prop :=
  ∀ a x y, Q a x → P.rely t x y → P.inv y → Q a y

variable {M P} {t : Tid} {x : Throwing Op ε α} {s : σ × γ} {Q Q' : α → σ × γ → Prop}
  {E E' : ε → σ × γ → Prop}

theorem Stable.wpOr {f : α → Throwing Op ε β} {R : β → σ × γ → Prop} :
    P.Stable t fun a y => P.wpOr M t (f a) R E y :=
  fun _ _ _ h hr _ => wp_rely h hr

/-- The postcondition of a body of `forever`. -/
theorem Stable.elim {I : β → σ × γ → Prop} {R : δ → σ × γ → Prop} (hI : P.Stable t I)
    (hR : P.Stable t R) :
    P.Stable t fun (r : β ⊕ δ) y => Sum.elim (fun b => I b y) (fun c => R c y) r := by
  rintro (b | c) x y h hr hi
  · exact hI b x y h hr hi
  · exact hR c x y h hr hi

theorem wpOr_pure {a : α} (hQ : P.Stable t Q) (h : Q a s) :
    P.wpOr M t (Pure.pure a : Throwing Op ε α) Q E s :=
  wp_ret fun y => hQ a s y h

theorem wpOr_throw {e : ε} (hE : P.Stable t E) (h : E e s) :
    P.wpOr M t (throw e : Throwing Op ε α) Q E s :=
  wp_ret fun y => hE e s y h

theorem wpOr_mono (h : P.wpOr M t x Q E s) (hQ : ∀ a y, P.inv y → Q a y → Q' a y)
    (hE : ∀ e y, P.inv y → E e y → E' e y) : P.wpOr M t x Q' E' s := by
  refine wp_mono h fun r y hy hr => ?_
  cases r with
  | ok a => exact hQ a y hy hr
  | error e => exact hE e y hy hr

theorem wpOr_frame {K : σ × γ → Prop} (hrely : ∀ x y, P.rely t x y → K x → K y)
    (hguar : ∀ x y, P.guar t x y → K x → K y) (h : P.wpOr M t x Q E s) (hs : K s) :
    P.wpOr M t x (fun a y => Q a y ∧ K y) E s := by
  refine wp_mono (wp_frame hrely hguar h hs) fun r y _ hr => ?_
  cases r with
  | ok a => exact hr
  | error e => exact hr.1

theorem wpOr_bind {f : α → Throwing Op ε β} {R : β → σ × γ → Prop} (hi : P.inv s)
    (hE : P.Stable t E) (h : P.wpOr M t x (fun a y => P.wpOr M t (f a) R E y) E s) :
    P.wpOr M t (x >>= f) R E s := by
  unfold Protocol.wpOr
  rw [Throwing.run_bind]
  refine wp_bind hi (wp_mono h fun r y hy hr => ?_)
  cases r with
  | ok a => exact hr
  | error e => exact wp_ret fun z => hE e y z hr

theorem wpOr_map {f : α → β} {R : β → σ × γ → Prop} (hi : P.inv s) (hE : P.Stable t E)
    (hR : P.Stable t R) (h : P.wpOr M t x (fun a y => R (f a) y) E s) :
    P.wpOr M t (f <$> x) R E s := by
  refine wp_bind hi (wp_mono h fun r y hy hr => ?_)
  cases r with
  | ok a => exact wp_ret fun z => hR (f a) y z hr
  | error e => exact wp_ret fun z => hE e y z hr

theorem wpOr_op {o : Op α} (hQ : P.Stable t Q)
    (h : ∀ y, P.rely t s y → P.inv y → ∀ a s', M.sem t o y.1 a s' → ∃ g', P.inv (s', g') ∧
      P.guar t y (s', g') ∧ Q a (s', g')) : P.wpOr M t (Throwing.op o) Q E s := by
  refine wp_call fun y hy hi a s' hs => ?_
  obtain ⟨g', hi', hg', h'⟩ := h y hy hi a s' hs
  exact ⟨g', hi', hg', wp_ret fun z => hQ a _ z h'⟩

theorem wpOr_forever {body : β → Throwing Op ε (β ⊕ δ)} {R : δ → σ × γ → Prop}
    (I : β → σ × γ → Prop) (hI : P.Stable t I) (hR : P.Stable t R) (hE : P.Stable t E)
    (hbody : ∀ b x, P.inv x → I b x → P.wpOr M t (body b) (fun r y => Sum.elim (fun b' => I b' y)
      (fun c => R c y) r) E x)
    {b : β} (hi : P.inv s) (h : I b s) : P.wpOr M t (Throwing.forever body b) R E s := by
  refine wp_loop I hi h fun b x hx hb => wp_bind hx (wp_mono (hbody b x hx hb) fun r y hy hr => ?_)
  refine wp_ret fun z hz hz' => ?_
  rcases r with e | (b' | c)
  · exact wp_ret fun u hu => hE e y u hr (P.rely_trans hz hu)
  · exact hI b' y z hr hz hz'
  · exact wp_ret fun u hu => hR c y u hr (P.rely_trans hz hu)

theorem wpOr_retrying {again : ε → Bool} (I : σ × γ → Prop) (hI : P.Stable t fun _ : Unit => I)
    (hQ : P.Stable t Q) (hE : P.Stable t E)
    (hbody : ∀ s, P.inv s → I s → P.wpOr M t x Q (fun e y => if again e then I y else E e y) s)
    (hi : P.inv s) (h : I s) : P.wpOr M t (Throwing.retrying again x) Q E s := by
  refine wp_loop (fun _ => I) hi h fun b s hs hb =>
    wp_bind hs (wp_mono (hbody s hs hb) fun r y hy hr => ?_)
  refine wp_ret fun z hz hz' => ?_
  cases r with
  | ok a => exact wp_ret fun u hu => hQ a y u hr (P.rely_trans hz hu)
  | error e =>
    simp only [Throwing.retrying.next, Throwing.Outcome] at hr ⊢
    split_ifs at hr ⊢ with h
    · exact hI () y z hr hz hz'
    · exact wp_ret fun u hu => hE e y u hr (P.rely_trans hz hu)

end Protocol

end Conc
