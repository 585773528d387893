import TinyPointerTrees.Art.NoLostInsert
import TinyPointerTrees.Library.Linearizability

/-!
# The shared tiny ART is linearizable

`linearizable` — in every interleaving of any number of threads that insert distinct keys of
a prefix-free universe and look such keys up, the calls take effect one after another, each
between its beginning and its end, as those of a map (`MapStep`).

An insertion takes effect when it ends, or when the first lookup that has found its value ends,
whichever is earlier; a lookup that finds nothing takes effect when it begins, and any other when it
ends. That this order answers the lookups rests on three facts: a lookup finds what was inserted
before it began (`Lawful.found`); it finds what an earlier one has found (`Observed.again`); and
what it finds had begun to be inserted before it ended (`Chronicle.seen`).

`shape_of_steps` — in every state of such an interleaving the memory is a radix tree.
-/

namespace TinyPointerTrees.Art

open Conc ArtM Protocol

variable {V : Variant} {A : Tree V} {ids : ℕ → UInt64} {U : Set Key} {s : Heap V} {t : ℕ}
  {x y : SharedTree V} {k : Key} {v r : UInt64} {a : ArtCall} {b : ArtRet}
  {o o' i l : Operation ArtCall ArtRet} {e : ℕ}

/-- The configurations of threads that share a tree. -/
abbrev ArtCfg (V : Variant) := Machine.Cfg (ArtOp V) (SharedTree V) ℕ ArtCall ArtRet

variable {c : ArtCfg V}

/-! ### Histories -/

/-- A map, one call at a time: an insertion of a key that is not there inserts it, or fails
and changes nothing, and a lookup answers the value of the key, or zero. -/
inductive MapStep : (Key → Option UInt64) → ArtCall → ArtRet → (Key → Option UInt64) → Prop where
  | insert {m : Key → Option UInt64} {k : Key} {v : UInt64} (hk : m k = none) :
      MapStep m (.insert k v) (.ok none) (Function.update m k (some v))
  | fail {m : Key → Option UInt64} {k : Key} {v : UInt64} {f : Leave} (hf : Fails k f) :
      MapStep m (.insert k v) (.error f) m
  | lookup {m : Key → Option UInt64} {k : Key} : MapStep m (.lookup k) (.ok (some ((m k).getD 0))) m

/-- A call that has ended. -/
def Returned.operation (i : Returned) : Operation ArtCall ArtRet :=
  ⟨i.call, i.began, some (i.answer, i.ended)⟩

/-- The calls that have ended, and those that have not. -/
def history (c : ArtCfg V) : Set (Operation ArtCall ArtRet) :=
  {o | (∃ i ∈ c.st.returned, o = i.operation) ∨ ∃ t a p, c.run t = some (a, p) ∧
    o = ⟨a, c.st.began t, none⟩}

/-- An operation that was answered is a call that has ended. -/
theorem exists_returned (ho : o ∈ history c) (ha : o.answered = some (b, e)) : ∃ i ∈ c.st.returned,
    i.call = o.call ∧ i.answer = b ∧ i.began = o.began ∧ i.ended = e := by
  rcases ho with ⟨i, hi, rfl⟩ | ⟨t, a, p, -, rfl⟩
  · obtain ⟨rfl, rfl⟩ := Prod.mk.inj (Option.some.inj ha)
    exact ⟨i, hi, rfl, rfl, rfl, rfl⟩
  · cases ha

/-- What the beginning of a call changes. -/
theorem of_artInvoke (h : artInvoke A U t a x y) :
    y.time = x.time + 1 ∧ y.began = Function.update x.began t x.time ∧ y.returned = x.returned := by
  cases a with
  | insert k v =>
    obtain ⟨-, -, -, -, rfl⟩ := h
    exact ⟨rfl, rfl, rfl⟩
  | lookup k =>
    obtain ⟨-, rfl⟩ := h
    exact ⟨rfl, rfl, rfl⟩

section Steps

variable {p : Prog (ArtOp V) ArtRet}

theorem history_invoke (hrun : c.run t = none) (hc : artInvoke A U t a c.st y) :
    history (c.put t y (some (a, p))) = insert ⟨a, c.st.time, none⟩ (history c) := by
  have hy := (of_artInvoke hc).2
  ext o
  simp only [history, Machine.Cfg.put_st, hy, Set.mem_ofPred_eq, Set.mem_insert_iff]
  constructor
  · rintro (ho | ⟨u, a', p', hu, rfl⟩)
    · exact Or.inr (Or.inl ho)
    · by_cases hut : u = t
      · subst hut
        rw [Machine.Cfg.put_run_self] at hu
        cases hu
        exact Or.inl (by rw [Function.update_self])
      · rw [Machine.Cfg.put_run_ne c hut] at hu
        exact Or.inr (Or.inr ⟨u, a', p', hu, by rw [Function.update_of_ne hut]⟩)
  · rintro (rfl | ho | ⟨u, a', p', hu, rfl⟩)
    · exact Or.inr ⟨t, a, p, Machine.Cfg.put_run_self .., by rw [Function.update_self]⟩
    · exact Or.inl ho
    · have hut : u ≠ t := by
        rintro rfl
        cases hrun.symm.trans hu
      exact Or.inr ⟨u, a', p', (Machine.Cfg.put_run_ne c hut ..).trans
        hu, by rw [Function.update_of_ne hut]⟩

/-- A step within a call. -/
theorem history_within (p' : Prog (ArtOp V) ArtRet) {h : Heap V} (hrun : c.run t = some (a, p)) :
    history (c.put t { c.st with heap := h } (some (a, p'))) = history c := by
  ext o
  simp only [history, Machine.Cfg.put_st, Set.mem_ofPred_eq]
  refine or_congr_right ⟨?_, ?_⟩
  · rintro ⟨u, a', q, hu, rfl⟩
    by_cases hut : u = t
    · subst hut
      rw [Machine.Cfg.put_run_self] at hu
      cases hu
      exact ⟨u, a, p, hrun, rfl⟩
    · rw [Machine.Cfg.put_run_ne c hut] at hu
      exact ⟨u, a', q, hu, rfl⟩
  · rintro ⟨u, a', q, hu, rfl⟩
    by_cases hut : u = t
    · subst hut
      cases hrun.symm.trans hu
      exact ⟨u, a, p', Machine.Cfg.put_run_self .., rfl⟩
    · exact ⟨u, a', q, (Machine.Cfg.put_run_ne c hut ..).trans hu, rfl⟩

/-- No two threads have begun their calls at the same time. -/
structure Timed (c : ArtCfg V) : Prop where
  began : ∀ t, c.run t ≠ none → c.st.began t < c.st.time
  inj : ∀ t u, c.run t ≠ none → c.run u ≠ none → c.st.began t = c.st.began u → t = u

theorem history_finish (ht : Timed c) (hrun : c.run t = some (a, .ret b))
    (hf : artFinish t a b c.st y) :
    history (c.put t y none) = insert ⟨a, c.st.began t, some (b, c.st.time)⟩
      (history c \ {⟨a, c.st.began t, none⟩}) := by
  subst hf
  ext o
  simp only [history, Machine.Cfg.put_st, Set.mem_ofPred_eq, Set.mem_insert_iff, Set.mem_sdiff,
    Set.mem_singleton_iff, List.mem_cons, exists_eq_or_imp]
  constructor
  · rintro ((rfl | ⟨i, hi, rfl⟩) | ⟨u, a', p', hu, rfl⟩)
    · exact Or.inl rfl
    · refine Or.inr ⟨Or.inl ⟨i, hi, rfl⟩, fun heq => ?_⟩
      cases congrArg Operation.answered heq
    · have hut : u ≠ t := by
        rintro rfl
        rw [Machine.Cfg.put_run_self] at hu
        cases hu
      rw [Machine.Cfg.put_run_ne c hut] at hu
      refine Or.inr ⟨Or.inr ⟨u, a', p', hu, rfl⟩, fun heq => hut ?_⟩
      exact ht.inj u t (by simp [hu]) (by simp [hrun]) (congrArg Operation.began heq)
  · rintro (rfl | ⟨ho | ⟨u, a', p', hu, rfl⟩, hne⟩)
    · exact Or.inl (Or.inl rfl)
    · exact Or.inl (Or.inr ho)
    · have hut : u ≠ t := by
        rintro rfl
        cases hrun.symm.trans hu
        exact hne rfl
      exact Or.inr ⟨u, a', p', (Machine.Cfg.put_run_ne c hut ..).trans hu, rfl⟩

end Steps

/-! ### Runs -/

/-- The invariant holds in every state, for some ghost state. -/
theorem inv_of_steps (hU : PrefixFree U) (h : A.Created ids s)
    (hc : (boundedMachine A ids U).Steps (Machine.idleCfg (.initial s)) c) :
    ∃ g, Inv A U (c.st, g) := by
  obtain ⟨g, hi, -⟩ := (artProtocol A U).sound (h.inv U) (fun _ => rfl) (fun t a x y hi _ hinv =>
    call_safe hU hi hinv) hc
  exact ⟨g, hi⟩

theorem Timed.invoke (ht : Timed c) (hc : artInvoke A U t a c.st y)
    (q : Option (ArtCall × Prog (ArtOp V) ArtRet)) : Timed (c.put t y q) := by
  obtain ⟨htime, hb, -⟩ := of_artInvoke hc
  have hother : ∀ u, u ≠ t → (c.put t y q).run u ≠ none → y.began u = c.st.began u ∧
    c.run u ≠ none := by
    intro u hut hu
    rw [Machine.Cfg.put_run_ne c hut] at hu
    exact ⟨by rw [hb, Function.update_of_ne hut], hu⟩
  have hself : y.began t = c.st.time := by rw [hb, Function.update_self]
  refine ⟨fun u hu => ?_, fun u w hu hw heq => ?_⟩
  · rw [Machine.Cfg.put_st, htime]
    by_cases hut : u = t
    · rw [hut, hself]
      exact Nat.lt_succ_self _
    · obtain ⟨hub, hu⟩ := hother u hut hu
      rw [hub]
      exact (ht.began u hu).trans (Nat.lt_succ_self _)
  · rw [Machine.Cfg.put_st] at heq
    by_cases hut : u = t <;> by_cases hwt : w = t
    · exact hut.trans hwt.symm
    · obtain ⟨hwb, hw⟩ := hother w hwt hw
      rw [hut, hself, hwb] at heq
      exact absurd heq.symm (ht.began w hw).ne
    · obtain ⟨hub, hu⟩ := hother u hut hu
      rw [hwt, hself, hub] at heq
      exact absurd heq (ht.began u hu).ne
    · obtain ⟨hub, hu⟩ := hother u hut hu
      obtain ⟨hwb, hw⟩ := hother w hwt hw
      exact ht.inj u w hu hw (hub.symm.trans (heq.trans hwb))

theorem Timed.put {p : Prog (ArtOp V) ArtRet} (ht : Timed c) (hrun : c.run t = some (a, p))
    (htime : c.st.time ≤ y.time) (hb : y.began = c.st.began)
    (q : Option (ArtCall × Prog (ArtOp V) ArtRet)) : Timed (c.put t y q) := by
  have hold : ∀ u, (c.put t y q).run u ≠ none → c.run u ≠ none := by
    intro u hu
    by_cases hut : u = t
    · rw [hut, hrun]
      exact Option.some_ne_none _
    · rwa [Machine.Cfg.put_run_ne c hut] at hu
  refine ⟨fun u hu => ?_, fun u w hu hw heq => ?_⟩
  · rw [Machine.Cfg.put_st, hb]
    exact (ht.began u (hold u hu)).trans_le htime
  · rw [Machine.Cfg.put_st, hb] at heq
    exact ht.inj u w (hold u hu) (hold w hw) heq

/-- The history of a run. -/
theorem recorded (hc : (boundedMachine A ids U).Steps (Machine.idleCfg (.initial s)) c) :
    Chronological c.st.time (history c) ∧ Timed c := by
  induction hc with
  | refl =>
    refine ⟨?_, fun t ht => absurd rfl ht, fun t u ht => absurd rfl ht⟩
    have hempty : history (Machine.idleCfg (.initial s) : ArtCfg V) = ∅ := by
      ext o
      simp [history, Machine.idleCfg, SharedTree.initial]
    rw [hempty]
    exact .empty
  | @tail c _ _ hstep ih =>
    obtain ⟨hrec, ht⟩ := ih
    cases hstep with
    | @invoke t a y hrun hinv =>
      rw [history_invoke hrun hinv, Machine.Cfg.put_st, (of_artInvoke hinv).1]
      exact ⟨hrec.begin a, ht.invoke hinv _⟩
    | @op t a β o k b y hrun hsem =>
      obtain ⟨-, -, rfl⟩ := hsem
      rw [history_within _ hrun]
      refine ⟨hrec, ht.put hrun ?_ ?_ _⟩
      · exact le_rfl
      · rfl
    | @round t a β δ body b k hrun =>
      have hwithin := history_within (Prog.unroll body b k) (h := c.st.heap) hrun
      rw [show ({ c.st with heap := c.st.heap } : SharedTree V) = c.st from rfl] at hwithin
      rw [hwithin]
      exact ⟨hrec, ht.put hrun le_rfl rfl _⟩
    | @finish t a r y hrun hfin =>
      rw [history_finish ht hrun hfin]
      obtain rfl : y = _ := hfin
      refine ⟨hrec.finish (o := ⟨a, c.st.began t, none⟩) r (Or.inr ⟨t, a, _, hrun, rfl⟩) rfl,
        ht.put hrun ?_ ?_ _⟩
      · exact Nat.le_succ _
      · rfl

/-- What the calls say of the insertions. -/
structure Chronicle (c : ArtCfg V) : Prop where
  called : ∀ k v, (k, v) ∈ c.st.called ↔ ∃ i ∈ history c, i.call = .insert k v
  /-- A key is inserted once. -/
  unique : ∀ i ∈ history c, ∀ j ∈ history c, ∀ k v w, i.call = .insert k v →
    j.call = .insert k w → i = j
  /-- What a lookup has found had begun to be inserted. -/
  seen : ∀ l ∈ history c, ∀ k r e, l.call = .lookup k →
    l.answered = some (.ok (some r), e) → r ≠ 0 →
    ∃ i ∈ history c, i.call = .insert k r ∧ i.began < e

/-- A call begins. -/
theorem Chronicle.invoke (h : Chronicle c) (hrun : c.run t = none) (hinv : artInvoke A U t a c.st y)
    (p : Prog (ArtOp V) ArtRet) : Chronicle (c.put t y (some (a, p))) := by
  have hy : ∀ k v, (k, v) ∈ y.called ↔ a = .insert k v ∨ (k, v) ∈ c.st.called := by
    intro k v
    cases a with
    | insert k' v' =>
      obtain ⟨-, -, -, -, rfl⟩ := hinv
      simp only [List.mem_cons, Prod.mk.injEq, ArtCall.insert.injEq]
      exact or_congr_left ⟨fun h => ⟨h.1.symm, h.2.symm⟩, fun h => ⟨h.1.symm, h.2.symm⟩⟩
    | lookup k' =>
      obtain ⟨-, rfl⟩ := hinv
      simp
  have hnew : ∀ k v w, a = .insert k v → (k, w) ∉ c.st.called := by
    rintro k v w rfl
    exact hinv.2.2.2.1 w
  refine ⟨fun k v => ?_, fun i hi j hj k v w hiv hjw => ?_, fun l hl k r e hc ha h0 => ?_⟩
  · rw [Machine.Cfg.put_st, history_invoke hrun hinv, hy, h.called]
    simp only [Set.mem_insert_iff, exists_eq_or_imp]
  · rw [history_invoke hrun hinv] at hi hj
    rcases hi with rfl | hi <;> rcases hj with rfl | hj
    · rfl
    · exact absurd ((h.called k w).mpr ⟨j, hj, hjw⟩) (hnew k v w hiv)
    · exact absurd ((h.called k v).mpr ⟨i, hi, hiv⟩) (hnew k w v hjw)
    · exact h.unique i hi j hj k v w hiv hjw
  · rw [history_invoke hrun hinv] at hl ⊢
    rcases hl with rfl | hl
    · cases ha
    · obtain ⟨i, hi, hiv, hlt⟩ := h.seen l hl k r e hc ha h0
      exact ⟨i, Or.inr hi, hiv, hlt⟩

/-- A call ends. -/
theorem Chronicle.finish (h : Chronicle c) (hrec : Chronological c.st.time (history c))
    (ht : Timed c) (hrun : c.run t = some (a, .ret b)) (hf : artFinish t a b c.st y)
    (hl : Lawful y.called y.returned) : Chronicle (c.put t y none) := by
  have hold : (⟨a, c.st.began t, none⟩ : Operation ArtCall ArtRet) ∈ history c :=
    Or.inr ⟨t, a, _, hrun, rfl⟩
  -- what has been called, and when, stays the same
  have hsame : ∀ i ∈ history c, ∃ j ∈ history (c.put t y none), j.call = i.call ∧
    j.began = i.began := by
    intro i hi
    rw [history_finish ht hrun hf]
    by_cases hio : i = ⟨a, c.st.began t, none⟩
    · subst hio
      exact ⟨_, Or.inl rfl, rfl, rfl⟩
    · exact ⟨i, Or.inr ⟨hi, hio⟩, rfl, rfl⟩
  have hback : ∀ j ∈ history (c.put t y none), ∃ i ∈ history c, i.call = j.call ∧
    i.began = j.began := by
    intro j hj
    rw [history_finish ht hrun hf] at hj
    rcases hj with rfl | hj
    · exact ⟨_, hold, rfl, rfl⟩
    · exact ⟨j, hj.1, rfl, rfl⟩
  have hcalled : y.called = c.st.called := by
    subst hf
    rfl
  refine ⟨fun k v => ?_, fun i hi j hj k v w hiv hjw => ?_, fun l hl' k r e hc ha h0 => ?_⟩
  · rw [Machine.Cfg.put_st, hcalled, h.called]
    constructor
    · rintro ⟨i, hi, hiv⟩
      obtain ⟨j, hj, hcall, -⟩ := hsame i hi
      exact ⟨j, hj, hcall.trans hiv⟩
    · rintro ⟨j, hj, hjv⟩
      obtain ⟨i, hi, hcall, -⟩ := hback j hj
      exact ⟨i, hi, hcall.trans hjv⟩
  · rw [history_finish ht hrun hf] at hi hj
    rcases hi with rfl | hi <;> rcases hj with rfl | hj
    · rfl
    · exact absurd (h.unique _ hold j hj.1 k v w hiv hjw).symm hj.2
    · exact absurd (h.unique i hi.1 _ hold k v w hiv hjw) hi.2
    · exact h.unique i hi.1 j hj.1 k v w hiv hjw
  · obtain ⟨i, hi, hiv, hlt⟩ : ∃ i ∈ history c, i.call = .insert k r ∧ i.began < e := by
      obtain ⟨m, hm, hmc, hma, -, hme⟩ := exists_returned hl' ha
      rw [history_finish ht hrun hf] at hl'
      rcases hl' with rfl | hl'
      · obtain ⟨i, hi, hiv⟩ := (h.called k r).mp (hcalled ▸ hl.own m hm k r (hmc.trans hc) hma h0)
        obtain ⟨-, rfl⟩ := Prod.mk.inj (Option.some.inj ha)
        exact ⟨i, hi, hiv, hrec.began_lt hi⟩
      · exact h.seen l hl'.1 k r e hc ha h0
    obtain ⟨j, hj, hcall, hbegan⟩ := hsame i hi
    exact ⟨j, hj, hcall.trans hiv, hbegan.trans_lt hlt⟩

theorem chronicle (hU : PrefixFree U) (h : A.Created ids s)
    (hc : (boundedMachine A ids U).Steps (Machine.idleCfg (.initial s)) c) : Chronicle c := by
  induction hc with
  | refl =>
    have hempty : ∀ o, o ∉ history (Machine.idleCfg (.initial s) : ArtCfg V) := by
      intro o
      simp [history, Machine.idleCfg, SharedTree.initial]
    refine ⟨fun k v => ⟨fun hk => absurd hk List.not_mem_nil, ?_⟩, fun i hi => absurd hi (hempty i),
      fun l hl => absurd hl (hempty l)⟩
    rintro ⟨i, hi, -⟩
    exact absurd hi (hempty i)
  | @tail c _ hc hstep ih =>
    obtain ⟨hrec, ht⟩ := recorded hc
    have hsteps := hc.tail hstep
    cases hstep with
    | @invoke t a y hrun hinv => exact ih.invoke hrun hinv _
    | @op t a β o k b y hrun hsem =>
      obtain ⟨-, -, rfl⟩ := hsem
      have hwithin := history_within (k b) (h := (o.exec A.indexer ids t c.st.heap).2) hrun
      exact ⟨by rw [hwithin]; exact ih.called, by rw [hwithin]; exact ih.unique, by
        rw [hwithin]; exact ih.seen⟩
    | @round t a β δ body b k hrun =>
      have hwithin := history_within (Prog.unroll body b k) (h := c.st.heap) hrun
      exact ⟨by rw [hwithin]; exact ih.called, by rw [hwithin]; exact ih.unique, by
        rw [hwithin]; exact ih.seen⟩
    | @finish t a r y hrun hfin =>
      obtain ⟨g, hi⟩ := inv_of_steps hU h hsteps
      exact ih.finish hrec ht hrun hfin hi.lawful

/-! ### When calls take effect -/

section Points

variable (H : Set (Operation ArtCall ArtRet))

/-- A lookup has found the value, and ended then. -/
def FoundAt (k : Key) (v : UInt64) (e : ℕ) : Prop :=
  ∃ l ∈ H, l.call = .lookup k ∧ l.answered = some (.ok (some v), e)

/-- When it could be seen that the operation had taken effect. -/
def signs (o : Operation ArtCall ArtRet) : Set ℕ :=
  {e | (∃ b, o.answered = some (b, e)) ∨ ∃ k v, o.call = .insert k v ∧ FoundAt H k v e}

open Classical in
/-- What the operation answers, if it takes effect. -/
noncomputable def effective (o : Operation ArtCall ArtRet) : Option ArtRet :=
  match o.answered with
  | some (b, _) => some b
  | none => if (signs H o).Nonempty then some (.ok none) else none

open Classical in
/-- When the operation takes effect. -/
noncomputable def point (o : Operation ArtCall ArtRet) : ℕ :=
  if ∃ e, o.answered = some (.ok (some 0), e) then o.began else sInf (signs H o)

/-- Of calls that take effect at the same time, lookups do so after insertions. -/
def rank (o : Operation ArtCall ArtRet) : ℕ :=
  match o.call with
  | .insert _ _ => 0
  | .lookup _ => 1

variable {H}

theorem effective_of_answered (h : o.answered = some (b, e)) : effective H o = some b := by
  unfold effective
  rw [h]

theorem signs_nonempty (h : effective H o ≠ none) : (signs H o).Nonempty := by
  unfold effective at h
  split at h
  next b e ha => exact ⟨e, Or.inl ⟨b, ha⟩⟩
  next =>
    by_contra hno
    rw [if_neg hno] at h
    exact h rfl

/-- An operation takes effect when one sees that it has, unless it is a lookup that finds
nothing. -/
theorem point_mem (h : effective H o ≠ none) (h0 : ∀ e, o.answered ≠ some (.ok (some 0), e)) :
    point H o ∈ signs H o := by
  unfold point
  rw [if_neg (fun ⟨e, he⟩ => h0 e he)]
  exact Nat.sInf_mem (signs_nonempty h)

theorem point_le (h : e ∈ signs H o) (h0 : ∀ e, o.answered ≠ some (.ok (some 0), e)) :
    point H o ≤ e := by
  unfold point
  rw [if_neg (fun ⟨e, he⟩ => h0 e he)]
  exact Nat.sInf_le h

end Points

/-! ### The order -/

/-- What a call that is answered so does to a map. -/
def effect (m : Key → Option UInt64) (e : Operation ArtCall ArtRet × ArtRet) :
    Key → Option UInt64 :=
  match e.1.call, e.2 with
  | .insert k v, .ok _ => Function.update m k (some v)
  | _, _ => m

/-- The map after these calls. -/
def after (l : List (Operation ArtCall ArtRet × ArtRet)) : Key → Option UInt64 :=
  l.foldl effect fun _ => none

theorem after_concat (l : List (Operation ArtCall ArtRet × ArtRet))
    (e : Operation ArtCall ArtRet × ArtRet) : after (l ++ [e]) = effect (after l) e := by
  rw [after, List.foldl_append]
  rfl

/-- The map has what was inserted, if a key is inserted once. -/
theorem after_eq_some {L : List (Operation ArtCall ArtRet × ArtRet)}
    (hu : ∀ e ∈ L, ∀ e' ∈ L, ∀ k v w, e.1.call = .insert k v → e'.1.call = .insert k w → v = w) :
    after L k = some v ↔ ∃ i b, (i, .ok b) ∈ L ∧ i.call = .insert k v := by
  induction L using List.reverseRecOn with
  | nil => simp [after]
  | append_singleton L e ih =>
    have ih := ih fun p hp q hq => hu p (List.mem_append_left _ hp) q (List.mem_append_left _ hq)
    obtain ⟨o, a⟩ := e
    have hlast : (∃ i b, (i, .ok b) ∈ L ++ [(o, a)] ∧ i.call = .insert k v) ↔
        after L k = some v ∨ (∃ b, a = .ok b) ∧ o.call = .insert k v := by
      rw [ih]
      simp only [List.mem_append, List.mem_singleton, Prod.mk.injEq]
      constructor
      · rintro ⟨i, b, hmem | ⟨rfl, rfl⟩, hc⟩
        · exact Or.inl ⟨i, b, hmem, hc⟩
        · exact Or.inr ⟨⟨b, rfl⟩, hc⟩
      · rintro (⟨i, b, hmem, hc⟩ | ⟨⟨b, rfl⟩, hc⟩)
        · exact ⟨i, b, Or.inl hmem, hc⟩
        · exact ⟨o, b, Or.inr ⟨rfl, rfl⟩, hc⟩
    rw [after_concat, hlast]
    cases hc : o.call with
    | lookup k' => simp [effect, hc]
    | insert k' w =>
      cases a with
      | error f => simp [effect]
      | ok b =>
        simp only [effect, hc, ArtCall.insert.injEq]
        by_cases hk : k = k'
        · subst hk
          rw [Function.update_self, Option.some.injEq]
          constructor
          · rintro rfl
            exact Or.inr ⟨⟨b, rfl⟩, rfl, rfl⟩
          · rintro (h | ⟨-, -, h⟩)
            · obtain ⟨i, b', hmem, hcall⟩ := ih.mp h
              exact (hu _ (List.mem_append_left _ hmem) (o, .ok b) (by simp) k v w hcall hc).symm
            · exact h
        · rw [Function.update_of_ne hk]
          exact ⟨Or.inl, fun h => h.resolve_right fun h => hk h.2.1.symm⟩

section Order

variable {g : Ghost}

/-- A value that is inserted is not zero. -/
theorem Chronicle.value_ne_zero (h : Chronicle c) (hi : Inv A U (c.st, g)) (ho : o ∈ history c)
    (hc : o.call = .insert k v) : v ≠ 0 :=
  (hi.insertions.mem k v ((h.called k v).mpr ⟨o, ho, hc⟩)).2.2

/-- A lookup that has ended has answered. -/
theorem answer_of_lookup (hi : Inv A U (c.st, g)) (hl : l ∈ history c) (hc : l.call = .lookup k)
    (ha : l.answered = some (b, e)) : ∃ r, b = .ok (some r) := by
  obtain ⟨m, hm, hmc, rfl, -⟩ := exists_returned hl ha
  exact hi.lawful.answers m hm k (hmc.trans hc)

/-- An insertion answers nothing, or it fails. -/
theorem answer_of_insert (hi : Inv A U (c.st, g)) (ho : o ∈ history c) (hc : o.call = .insert k v)
    (ha : effective (history c) o = some b) : b = .ok none ∨ ∃ f, b = .error f ∧ Fails k f := by
  unfold effective at ha
  split at ha
  next b' e ha' =>
    cases ha
    obtain ⟨m, hm, hmc, hma, -⟩ := exists_returned ho ha'
    cases b with
    | ok a => exact Or.inl (congrArg Except.ok (hi.observed.silent m hm k v a (hmc.trans hc) hma))
    | error f => exact Or.inr ⟨f, rfl, hi.lawful.fails m hm k v f (hmc.trans hc) hma⟩
  next =>
    split_ifs at ha
    cases ha
    exact Or.inl rfl

theorem insert_not_zero (hi : Inv A U (c.st, g)) (ho : o ∈ history c) (hc : o.call = .insert k v) :
    o.answered ≠ some (.ok (some 0), e) := by
  intro ha
  rcases answer_of_insert hi ho hc (effective_of_answered ha) with h | ⟨f, h, -⟩ <;> cases h

/-- An insertion takes effect after it began. -/
theorem began_le_point (hrec : Chronological c.st.time (history c)) (h : Chronicle c)
    (hi : Inv A U (c.st, g)) (ho : o ∈ history c) (he : effective (history c) o ≠ none) :
    o.began ≤ point (history c) o := by
  by_cases h0 : ∃ e, o.answered = some (.ok (some 0), e)
  · unfold point
    rw [if_pos h0]
  rw [not_exists] at h0
  rcases point_mem he h0 with ⟨b, ha⟩ | ⟨k, v, hc, l, hl, hlc, hla⟩
  · exact (hrec.ended ho ha).1.le
  · obtain ⟨j, hj, hjc, hlt⟩ := h.seen l hl k v _ hlc hla (h.value_ne_zero hi ho hc)
    obtain rfl := h.unique o ho j hj k v v hc hjc
    exact hlt.le

/-- An operation that has ended has taken effect. -/
theorem point_le_ended (hrec : Chronological c.st.time (history c)) (ho : o ∈ history c)
    (ha : o.answered = some (b, e)) : point (history c) o ≤ e := by
  by_cases h0 : ∃ e, o.answered = some (.ok (some 0), e)
  · unfold point
    rw [if_pos h0]
    exact (hrec.ended ho ha).1.le
  · exact point_le (Or.inl ⟨b, ha⟩) (not_exists.mp h0)

/-- A lookup that takes effect has ended. -/
theorem answered_of_lookup (hc : o.call = .lookup k) (he : effective (history c) o = some b) :
    ∃ e, o.answered = some (b, e) := by
  unfold effective at he
  split at he
  next b' e ha =>
    cases he
    exact ⟨e, ha⟩
  next ha =>
    split_ifs at he with hne
    obtain ⟨e, ⟨b', ha'⟩ | ⟨k', v, hc', -⟩⟩ := hne
    · rw [ha] at ha'
      cases ha'
    · rw [hc] at hc'
      cases hc'

/-- A lookup that has found something takes effect when it ends. -/
theorem point_of_lookup (hc : l.call = .lookup k) (ha : l.answered = some (.ok (some r), e))
    (h0 : r ≠ 0) : point (history c) l = e := by
  have hne : ∀ e', l.answered ≠ some (.ok (some 0), e') := by
    intro e' ha'
    rw [ha] at ha'
    simp only [Option.some.injEq, Prod.mk.injEq, Except.ok.injEq] at ha'
    exact h0 ha'.1
  have hp := point_mem (H := history c)
    (by rw [effective_of_answered ha]; exact Option.some_ne_none _) hne
  rcases hp with ⟨b', ha'⟩ | ⟨k', v, hc', -⟩
  · exact (Prod.mk.inj (Option.some.inj (ha'.symm.trans ha))).2
  · rw [hc] at hc'
    cases hc'

/-- What a lookup has found was inserted by an operation that takes effect before the lookup
ends. -/
theorem exists_insert (h : Chronicle c) (hi : Inv A U (c.st, g)) (hl : l ∈ history c)
    (hc : l.call = .lookup k) (ha : l.answered = some (.ok (some r), e)) (h0 : r ≠ 0) :
    ∃ i ∈ history c, i.call = .insert k r ∧ effective (history c) i = some (.ok none) ∧
      point (history c) i ≤ e := by
  obtain ⟨i, hmem, hic, -⟩ := h.seen l hl k r e hc ha h0
  have hsign : e ∈ signs (history c) i := Or.inr ⟨k, r, hic, l, hl, hc, ha⟩
  refine ⟨i, hmem, hic, ?_, point_le hsign fun e' => insert_not_zero hi hmem hic⟩
  cases hb : i.answered with
  | none =>
    unfold effective
    rw [hb]
    exact if_pos ⟨e, hsign⟩
  | some be =>
    obtain ⟨b, e'⟩ := be
    have he := effective_of_answered (H := history c) hb
    rcases answer_of_insert hi hmem hic he with rfl | ⟨f, rfl, -⟩
    · exact he
    · -- what failed is not in the tree, but it was found there
      obtain ⟨m, hm, hmc, hma, -⟩ := exists_returned hmem hb
      obtain ⟨n, hn, hnc, hna, -⟩ := exists_returned hl ha
      exact absurd (hi.observed.read n hn k r (hnc.trans hc) hna h0)
        (hi.observed.failed m hm k r f (hmc.trans hic) hma).2.2

/-- A lookup that began after an insertion had taken effect finds something. -/
theorem found_of_point_le (hrec : Chronological c.st.time (history c)) (h : Chronicle c)
    (hi : Inv A U (c.st, g)) (ho : o ∈ history c) (hoc : o.call = .insert k v)
    (he : effective (history c) o = some (.ok none)) (hl : l ∈ history c) (hc : l.call = .lookup k)
    (ha : l.answered = some (.ok (some r), e)) (hle : point (history c) o ≤ l.began) : r ≠ 0 := by
  have hv := h.value_ne_zero hi ho hoc
  obtain ⟨n, hn, hnc, hna, hnb, -⟩ := exists_returned hl ha
  have hp := point_mem (by rw [he]; exact Option.some_ne_none _) fun e' =>
    insert_not_zero (e := e') hi ho hoc
  rcases hp with ⟨b, hb⟩ | ⟨k', v', hoc', j, hj, hjc, hja⟩
  · -- it had ended
    have hlt := lt_of_le_of_ne hle (hrec.ended_ne_began ho hl hb)
    obtain rfl : b = .ok none := Option.some.inj ((effective_of_answered hb).symm.trans he)
    obtain ⟨m, hm, hmc, hma, -, hme⟩ := exists_returned ho hb
    rw [hi.lawful.found m hm n hn k v r (hmc.trans hoc) hma (hnc.trans hc) hna (by omega)]
    exact hv
  · -- a lookup had found its value
    rw [hoc] at hoc'
    cases hoc'
    have hlt := lt_of_le_of_ne hle (hrec.ended_ne_began hj hl hja)
    obtain ⟨m, hm, hmc, hma, -, hme⟩ := exists_returned hj hja
    rw [hi.observed.again m hm n hn k v r (hmc.trans hjc) hma hv (hnc.trans hc) hna (by omega)]
    exact hv

/-- In the order of their points the calls are those of a map. -/
theorem legal_of_points (hrec : Chronological c.st.time (history c)) (h : Chronicle c)
    (hi : Inv A U (c.st, g)) {L : List (Operation ArtCall ArtRet × ArtRet)}
    (hL : ∀ o b, (o, b) ∈ L ↔ o ∈ history c ∧ effective (history c) o = some b)
    (hnodup : (L.map Prod.fst).Nodup) (hsorted : L.Pairwise (NotAfter (point (history c)) rank)) :
    Legal MapStep (fun _ => none) L := by
  refine Legal.of_after after fun L₁ o b L₂ hsplit => ?_
  subst hsplit
  obtain ⟨-, hrest, hlt⟩ := List.pairwise_append.mp hsorted
  obtain ⟨ho, he⟩ := (hL o b).mp (by simp)
  have hmem : ∀ i b', (i, b') ∈ L₁ → i ∈ history c ∧ effective (history c) i = some b' :=
    fun i b' hmem =>
    (hL i b').mp (List.mem_append_left _ hmem)
  have hu : ∀ p ∈ L₁, ∀ q ∈ L₁, ∀ k v w, p.1.call = .insert k v →
    q.1.call = .insert k w → v = w := by
    intro p hp q hq k v w hpc hqc
    have heq := h.unique p.1 (hmem p.1 p.2 hp).1 q.1 (hmem q.1 q.2 hq).1 k v w hpc hqc
    rw [heq, hqc] at hpc
    cases hpc
    rfl
  rw [after_concat]
  cases hc : o.call with
  | insert k v =>
    rcases answer_of_insert hi ho hc he with rfl | ⟨f, rfl, hf⟩
    · have hnone : after L₁ k = none := by
        by_contra hne
        obtain ⟨w, hw⟩ := Option.ne_none_iff_exists'.mp hne
        obtain ⟨i, b', hi', hic⟩ := (after_eq_some hu).mp hw
        obtain rfl := h.unique i (hmem i _ hi').1 o ho k w v hic hc
        rw [List.map_append, List.nodup_append] at hnodup
        exact hnodup.2.2 i (List.mem_map_of_mem (f := Prod.fst) hi') i (by simp) rfl
      simp only [effect, hc]
      exact .insert hnone
    · simp only [effect, hc]
      exact .fail hf
  | lookup k =>
    obtain ⟨e, ha⟩ := answered_of_lookup hc he
    obtain ⟨r, rfl⟩ := answer_of_lookup hi ho hc ha
    have hr : (after L₁ k).getD 0 = r := by
      by_cases h0 : r = 0
      · -- no insertion has taken effect
        subst h0
        cases hw : after L₁ k with
        | none => rfl
        | some w =>
          obtain ⟨i, b', hi', hic⟩ := (after_eq_some hu).mp hw
          obtain ⟨him, hie⟩ := hmem i _ hi'
          obtain ⟨rfl⟩ : b' = none := by
            rcases answer_of_insert hi him hic hie with h | ⟨f, h, -⟩ <;> cases h
            rfl
          have hpoint : point (history c) o = o.began := if_pos ⟨e, ha⟩
          have hle : point (history c) i ≤ o.began := by
            rw [← hpoint]
            rcases notAfter_iff.mp (hlt _ hi' (o, .ok (some 0)) (by simp)) with hlt | ⟨heq, -⟩
            · exact hlt.le
            · exact heq.le
          exact absurd rfl (found_of_point_le hrec h hi him hic hie ho hc ha hle)
      · -- the insertion takes effect before the lookup ends
        obtain ⟨i, him, hic, hie, hle⟩ := exists_insert h hi ho hc ha h0
        have hi' := (hL i _).mpr ⟨him, hie⟩
        have hio : i ≠ o := by
          rintro rfl
          rw [hc] at hic
          cases hic
        rw [(after_eq_some hu).mpr ⟨i, none, ?_, hic⟩, Option.getD_some]
        rcases List.mem_append.mp hi' with hmem' | hmem'
        · exact hmem'
        rcases List.mem_cons.mp hmem' with heq | hmem'
        · exact absurd (congrArg Prod.fst heq) hio
        · have hafter := List.rel_of_pairwise_cons hrest hmem'
          rw [notAfter_iff, point_of_lookup hc ha h0] at hafter
          simp only [rank, hc, hic] at hafter
          omega
    simp only [effect, hc]
    rw [← hr]
    exact .lookup

end Order

/-! ### The theorems -/

/-- The calls of a run take effect one after another, as those of a map. -/
theorem linearizable (hU : PrefixFree U) (h : A.Created ids s)
    (hc : (boundedMachine A ids U).Steps (Machine.idleCfg (.initial s)) c) :
    Linearizable MapStep (fun _ => none) (history c) := by
  obtain ⟨hrec, -⟩ := recorded hc
  have hch := chronicle hU h hc
  obtain ⟨g, hi⟩ := inv_of_steps hU h hc
  exact linearizable_of_points hrec.finite (fun o _ b e ha => effective_of_answered ha)
    (fun o ho he => began_le_point hrec hch hi ho he) (fun o ho b e ha => point_le_ended hrec ho ha)
    fun L hL hnodup hsorted => legal_of_points hrec hch hi hL hnodup hsorted

open TwoThreads in
theorem linearizable_two :
    ∃ (A : Tree .olc) (s : Heap .olc) (c : ArtCfg .olc), PrefixFree keys ∧ A.Created nodeIds s ∧
      (boundedMachine A nodeIds keys).Steps (Machine.idleCfg (.initial s)) c ∧
      Linearizable MapStep (fun _ => none) (history c) ∧
        c.st.returned.map summary = [(4, 5, some 7), (1, 3, some 7), (0, 2, none)] := by
  obtain ⟨⟨root, s⟩, hs, h⟩ := Option.map_eq_some_iff.mp answered_eq
  have hA : (tree root).Created nodeIds s := .of_eq hs
  have hc : (boundedMachine (tree root) nodeIds keys).Steps (Machine.idleCfg (.initial s)) _ :=
    steps_schedule schedule _
  exact ⟨tree root, s, _, prefixFree_keys, hA, hc, linearizable prefixFree_keys hA hc, h⟩

/-- A key that was inserted is in the tree, and what is in the tree was inserted, or is being. -/
theorem maps_of_inv {g : Ghost} (hch : Chronicle c) (hi : Inv A U (c.st, g))
    (hm : g.tree.Maps k v) :
    ∃ o ∈ history c, o.call = .insert k v ∧ ∀ b e, o.answered = some (b, e) → b = .ok none := by
  obtain ⟨o, ho, hoc⟩ := (hch.called k v).mp (hi.maps k v hm)
  refine ⟨o, ho, hoc, fun b e ha => ?_⟩
  rcases answer_of_insert hi ho hoc (effective_of_answered ha) with rfl | ⟨f, rfl, -⟩
  · rfl
  · obtain ⟨m, hmem, hmc, hma, -⟩ := exists_returned ho ha
    exact absurd hm (hi.observed.failed m hmem k v f (hmc.trans hoc) hma).2.2

/-- What is in the tree between the steps of the threads. -/
structure Contents (c : ArtCfg V) (R : RadixTree UInt8 UInt64) : Prop where
  /-- The keys whose insertions have returned. -/
  stored : ∀ i ∈ c.st.returned, ∀ k v, i.call = .insert k v → i.answer = .ok none → R.Maps k v
  /-- Otherwise only keys whose insertions have not ended. -/
  inserted : ∀ k v, R.Maps k v → ∃ o ∈ history c, o.call = .insert k v ∧
    ∀ b e, o.answered = some (b, e) → b = .ok none
  /-- When no thread is in a call, nothing else. -/
  idle : (∀ t, c.run t = none) → ∀ k v,
    R.Maps k v ↔ ∃ i ∈ c.st.returned, i.call = .insert k v ∧ i.answer = .ok none

/-- In every state of a run, also while threads restructure it, the memory is a radix tree with
these contents. -/
theorem shape_of_steps (hU : PrefixFree U) (h : A.Created ids s)
    (hc : (boundedMachine A ids U).Steps (Machine.idleCfg (.initial s)) c) :
    ∃ R M, Shape A c.st.heap R M ∧ Contents c R := by
  have hch := chronicle hU h hc
  obtain ⟨g, hi⟩ := inv_of_steps hU h hc
  refine ⟨g.tree, g.place, hi.shape, hi.stored, fun k v => maps_of_inv hch hi, fun hidle k v =>
    ⟨fun hm => ?_, ?_⟩⟩
  · obtain ⟨o, ⟨i, hmem, rfl⟩ | ⟨t, a, p, hrun, -⟩, hoc, hok⟩ := maps_of_inv hch hi hm
    · exact ⟨i, hmem, hoc, hok _ _ rfl⟩
    · cases (hidle t).symm.trans hrun
  · rintro ⟨i, hmem, hic, hia⟩
    exact hi.stored i hmem k v hic hia

open TwoThreads in
theorem shape_of_steps_two :
    ∃ (A : Tree .olc) (s : Heap .olc) (c : ArtCfg .olc), PrefixFree keys ∧ A.Created nodeIds s ∧
      (boundedMachine A nodeIds keys).Steps (Machine.idleCfg (.initial s)) c ∧
      (∃ R M, Shape A c.st.heap R M ∧ Contents c R) ∧
      c.st.returned.map summary = [(4, 5, some 7), (1, 3, some 7), (0, 2, none)] := by
  obtain ⟨⟨root, s⟩, hs, h⟩ := Option.map_eq_some_iff.mp answered_eq
  have hA : (tree root).Created nodeIds s := .of_eq hs
  have hc : (boundedMachine (tree root) nodeIds keys).Steps (Machine.idleCfg (.initial s)) _ :=
    steps_schedule schedule _
  exact ⟨tree root, s, _, prefixFree_keys, hA, hc, shape_of_steps prefixFree_keys hA hc, h⟩

end TinyPointerTrees.Art
