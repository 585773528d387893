import TinyPointerTrees.TinyPtr.Stacks

/-!
# The shared table is linearizable

`derefTable_linearizable` — in every run of any number of threads in which no word goes
round under a reader (`Exact`), the calls of `allocate` and `free` take effect one after
another, each between its beginning and its end, as those of stacks (`StackStep`): every
`allocate` takes from the bucket that has more free entries, whatever the others do. A call
that fails an assertion has not ended.

An `allocate` takes effect when it validates the bucket it does not take from. Only then are
both free counts what it has read; but that the call will take its entry is known only once
it has upgraded the other lock. So it notes its place in the log, and is put there when it
unlocks. Everything that takes effect in between is done to other buckets, since the version of
its own bucket stays what it was.
-/

namespace TinyPointerTrees

open Conc Conc.Prog FreeList

variable {L : Layout} {ω : Type} [Storage L ω] {X : BucketIndexer}

/-- Neither a validation nor an upgrade succeeds on a word that has gone round. -/
def Exact {β : Type} (_ : ℕ) : DtOp ω β → Shared L ω → Prop
  | .validate l, x =>
    lockWord (x.table.bucket l.bucket).version = l.lockedVersion →
      (x.table.bucket l.bucket).version = l.seen
  | .tryUpgradeToExclusive l, x =>
    lockWord (x.table.bucket l.bucket).version = l.lockedVersion →
      (x.table.bucket l.bucket).version = l.seen
  | _, _ => True

/-- `Exact`, computed. -/
def checkExact {β : Type} (_ : ℕ) : DtOp ω β → Shared L ω → Bool
  | .validate l, x =>
    decide (lockWord (x.table.bucket l.bucket).version = l.lockedVersion →
      (x.table.bucket l.bucket).version = l.seen)
  | .tryUpgradeToExclusive l, x =>
    decide (lockWord (x.table.bucket l.bucket).version = l.lockedVersion →
      (x.table.bucket l.bucket).version = l.seen)
  | _, _ => true

omit [Storage L ω] in
theorem exact_of_check {β : Type} {t : ℕ} {o : DtOp ω β} {x : Shared L ω}
    (h : checkExact t o x = true) : Exact t o x := by
  cases o
  case validate l | tryUpgradeToExclusive l =>
    simp only [checkExact, decide_eq_true_eq] at h
    exact h
  all_goals trivial

variable (L X) in
/-- Threads that share a table, with a clock, in runs in which no word goes round under a reader. -/
abbrev exactMachine (ω : Type) [Storage L ω] :
    Machine (DtOp ω) (Clocked (Shared L ω) ℕ (DtCall L ω) (DtRet L)) ℕ (DtCall L ω) (DtRet L) :=
  ((dtMachine L X).restrict fun t o x => Exact t o x).clocked

namespace TableLog

open DtProof

/-- The clock and the table, and the ghost state: that of the table, and the log. -/
abbrev World (L : Layout) (ω : Type) : Type :=
  Clocked (Shared L ω) ℕ (DtCall L ω) (DtRet L) × DtGhost ×
    List (LogItem (DtCall L ω) (DtRet L) Validated)

/-- The table and its ghost state. -/
abbrev low (x : World L ω) : Shared L ω × DtGhost := (x.1.st, x.2.1)

/-- The version of a bucket. -/
abbrev version (x : World L ω) (b : ℕ) : ℕ := (x.1.st.table.bucket b).version

/-- The bucket has not been unlocked since it was read, so its free list is the same. -/
def Alive (x : World L ω) (v : Validated) : Prop := version x v.lock.bucket ≤ v.lock.seen + 1

variable (X) (S₀ : Stacks)

/-- The stacks after what is in the log. -/
def current (x : World L ω) : Stacks := (stackObject L ω X).after S₀ x.2.2

/-- The invariant. -/
structure Inv (x : World L ω) : Prop where
  table : DtInv X (low x)
  ticks : x.1.Ticks
  logged : Logged x.1 x.2.2
  good : (stackObject L ω X).Good (Alive x) S₀ x.2.2
  /-- A note is of an unlocked bucket. -/
  notes : ∀ i ∈ x.2.2, ∀ v, i.note = .inl v →
    v.lock.seen % 2 = 0 ∧ v.lock.seen ≤ version x v.lock.bucket
  /-- A bucket that nobody has locked has the stack as its free list. -/
  lists : ∀ b < X.buckets, x.2.1.owner b = none →
    current X S₀ x b = (x.1.st.table.bucket b).freeList L

/-- What thread `t` relies on. -/
structure Rely (t : ℕ) (x y : World L ω) : Prop where
  table : (dtProtocol X).rely t (low x) (low y)
  active : y.1.active t = x.1.active t
  began : y.1.began t = x.1.began t
  /-- The others leave the items of this thread's call alone. -/
  own : x.1.active t ≠ none → ∀ i : LogItem _ _ _, i.began = x.1.began t → (i ∈ y.2.2 ↔ i ∈ x.2.2)
  /-- A stack changes only when its bucket is unlocked. -/
  current : ∀ b, version y b / 2 = version x b / 2 → current X S₀ y b = current X S₀ x b

theorem version_le {t : ℕ} {x y : World L ω} (h : (dtProtocol X).rely t (low x) (low y)) (b : ℕ) :
    version x b ≤ version y b :=
  (h.1 b).version_le

/-- The rely/guarantee account of the table and its log. -/
def protocol : Protocol (Clocked (Shared L ω) ℕ (DtCall L ω) (DtRet L))
    (DtGhost × List (LogItem (DtCall L ω) (DtRet L) Validated)) ℕ where
  inv := Inv X S₀
  rely := Rely X S₀
  idle t x := (dtProtocol X).idle t (low x) ∧ x.1.active t = none
  rely_refl t x := ⟨(dtProtocol X).rely_refl t _, rfl, rfl, fun _ _ _ => Iff.rfl, fun _ _ => rfl⟩
  rely_trans := by
    rintro t x y z hxy hyz
    refine ⟨(dtProtocol X).rely_trans hxy.table hyz.table, hyz.active.trans hxy.active,
      hyz.began.trans hxy.began, fun ht i hi => ?_, fun b hb => ?_⟩
    · exact (hyz.own (hxy.active.symm ▸ ht) i (hi.trans hxy.began.symm)).trans (hxy.own ht i hi)
    · have h₁ := version_le X hxy.table b
      have h₂ := version_le X hyz.table b
      exact (hyz.current b (by omega)).trans (hxy.current b (by omega))
  idle_rely := by
    rintro t x y ⟨hidle, hact⟩ hr
    exact ⟨(dtProtocol X).idle_rely hidle hr.table, hr.active.trans hact⟩

variable {X S₀} {t : ℕ} {x y : World L ω} {s : Shared L ω} {g : DtGhost} {a : DtCall L ω}
  {r : DtRet L} {log : List (LogItem (DtCall L ω) (DtRet L) Validated)}

/-! ### What a step does -/

/-- The free list of a bucket that nobody has locked stays the same. -/
theorem freeList_eq (hx : DtInv X (low x)) {b : ℕ} (hb : b < X.buckets) (ho : x.2.1.owner b = none)
    (hs : x.1.st.table.SameIn L b s.table) :
    (s.table.bucket b).freeList L = (x.1.st.table.bucket b).freeList L := by
  have hlists := hx.lists b hb ho
  rw [Bucket.freeList, Bucket.freeList, hs.head, hs.count]
  exact (visits_congr fun i hi => hs.links i ((hlists.mem_iff i).mp hi).2).1

/-- The lists after a step that unlocks nothing. -/
theorem Inv.lists_of_guar (hx : Inv X S₀ x) (hg : (dtProtocol X).guar t (low x) (s, g))
    (hfree : ∀ b, g.owner b = none → x.2.1.owner b = none ∧
      (s.table.bucket b).version = version x b) :
    ∀ b < X.buckets, g.owner b = none → current X S₀ x b = (s.table.bucket b).freeList L := by
  intro b hb ho
  obtain ⟨ho', hv⟩ := hfree b ho
  have hs := ((hg (t + 1) (Nat.succ_ne_self t)).1 b).same (Or.inl ho') hv
  rw [hx.lists b hb ho', freeList_eq hx.table hb ho' hs]

theorem version_le_of_guar (hg : (dtProtocol X).guar t (low x) (s, g)) (b : ℕ) :
    version x b ≤ (s.table.bucket b).version :=
  ((hg (t + 1) (Nat.succ_ne_self t)).1 b).version_le

/-- A step of the table that unlocks nothing. -/
theorem Inv.quiet (hx : Inv X S₀ x) (hi : DtInv X (s, g))
    (hg : (dtProtocol X).guar t (low x) (s, g))
    (hfree : ∀ b, g.owner b = none → x.2.1.owner b = none ∧
      (s.table.bucket b).version = version x b) :
    Inv X S₀ ({ x.1 with st := s }, g, x.2.2) ∧
      (protocol X S₀).guar t x ({ x.1 with st := s }, g, x.2.2) := by
  have hle := version_le_of_guar hg
  refine ⟨⟨hi, ⟨hx.ticks.chronological, hx.ticks.inj, hx.ticks.answered⟩, hx.logged.within,
    hx.good.mono fun _ _ v _ hv => ?_, fun i hmem v hv => ?_, hx.lists_of_guar hg hfree⟩,
    fun u hu => ⟨hg u hu, rfl, rfl, fun _ _ _ => Iff.rfl, fun _ _ => rfl⟩⟩
  · exact (hle v.lock.bucket).trans hv
  · obtain ⟨heven, hseen⟩ := hx.notes i hmem v hv
    exact ⟨heven, hseen.trans (hle v.lock.bucket)⟩

/-- What a call of thread `t` has in the log: nothing, a note, or an answer. -/
structure InCall (t : ℕ) (a : DtCall L ω) (w : Option (Validated ⊕ DtRet L)) (x : World L ω) :
    Prop where
  active : x.1.active t = some a
  mem_iff : ∀ i : LogItem _ _ _, i.began = x.1.began t →
    (i ∈ x.2.2 ↔ ∃ n, w = some n ∧ i = ⟨x.1.began t, a, n⟩)

namespace InCall

variable {w : Option (Validated ⊕ DtRet L)} {n : Validated ⊕ DtRet L}

theorem rely (h : InCall t a w x) (hr : Rely X S₀ t x y) : InCall t a w y := by
  refine ⟨hr.active.trans h.active, fun i hi => ?_⟩
  rw [hr.began] at hi ⊢
  rw [hr.own (by rw [h.active]; exact Option.some_ne_none a) i hi]
  exact h.mem_iff i hi

omit [Storage L ω] in
theorem fresh (h : InCall t a none x) : ∀ i ∈ x.2.2, i.began ≠ x.1.began t := by
  intro i hi heq
  obtain ⟨n, hn, -⟩ := (h.mem_iff i heq).mp hi
  cases hn

omit [Storage L ω] in
/-- What is in the log is no part of the state. -/
theorem within (h : InCall t a w x) : InCall t a w ({ x.1 with st := s }, g, x.2.2) :=
  ⟨h.active, h.mem_iff⟩

omit [Storage L ω] in
theorem mem (h : InCall t a (some n) x) : ⟨x.1.began t, a, n⟩ ∈ x.2.2 :=
  (h.mem_iff _ rfl).mpr ⟨n, rfl, rfl⟩

end InCall

/-- The others do not mind what a thread does to the items of its call. -/
theorem own_of_ne (hx : Inv X S₀ x) (ht : x.1.active t = some a)
    (hlog : ∀ i : LogItem _ _ _, i.began ≠ x.1.began t → (i ∈ log ↔ i ∈ x.2.2)) {u : ℕ} (hu : u ≠ t)
    (hact : x.1.active u ≠ none) :
    ∀ i : LogItem _ _ _, i.began = x.1.began u → (i ∈ log ↔ i ∈ x.2.2) := by
  intro i hi
  refine hlog i fun heq => hu ?_
  exact hx.ticks.inj u t hact (by rw [ht]; exact Option.some_ne_none a) (hi.symm.trans heq)

/-- A step that changes the log only. -/
theorem Inv.relog (hx : Inv X S₀ x) (ht : x.1.active t = some a) (hlogged : Logged x.1 log)
    (hgood : (stackObject L ω X).Good (Alive x) S₀ log)
    (hnotes : ∀ i ∈ log, ∀ v, i.note = .inl v → v.lock.seen % 2 = 0 ∧
      v.lock.seen ≤ version x v.lock.bucket)
    (hsame : (stackObject L ω X).after S₀ log = current X S₀ x)
    (hlog : ∀ i : LogItem _ _ _, i.began ≠ x.1.began t → (i ∈ log ↔ i ∈ x.2.2)) :
    Inv X S₀ (x.1, x.2.1, log) ∧ (protocol X S₀).guar t x (x.1, x.2.1, log) := by
  refine ⟨⟨hx.table, hx.ticks, hlogged, hgood, hnotes, fun b hb ho => ?_⟩, fun u hu =>
    ⟨(dtProtocol X).rely_refl u _, rfl, rfl, fun hact =>
    own_of_ne hx ht hlog hu hact, fun b _ => ?_⟩⟩
  · rw [current, hsame]
    exact hx.lists b hb ho
  · rw [current, hsame]

/-- A note that outlives the unlocking of a bucket is of another bucket. -/
theorem Inv.bucket_ne_of_alive (hx : Inv X S₀ x) {b : ℕ} (ho : x.2.1.owner b = some t)
    {v : Validated} (heven : v.lock.seen % 2 = 0) (hle : v.lock.seen ≤ version x v.lock.bucket)
    (halive : ((x.1.st.table.modify b bump).bucket v.lock.bucket).version ≤ v.lock.seen + 1) :
    v.lock.bucket ≠ b := by
  rintro rfl
  have hodd : ¬ version x v.lock.bucket % 2 = 0 := by
    rw [hx.table.lock v.lock.bucket]
    simp [ho]
  rw [Table.modify_bucket_self] at halive
  simp only [version] at halive hodd hle
  omega

/-! ### The items of a call -/

namespace InCall

variable {w : Option (Validated ⊕ DtRet L)} {n m : Validated ⊕ DtRet L}
  {l₁ l₂ : List (LogItem (DtCall L ω) (DtRet L) Validated)}

omit [Storage L ω] in
/-- A call puts an item into the log. -/
theorem append (h : InCall t a none x) :
    InCall t a (some n) (x.1, x.2.1, x.2.2 ++ [⟨x.1.began t, a, n⟩]) := by
  refine ⟨h.active, fun i hi => ?_⟩
  have hold : i ∉ x.2.2 := fun hmem => h.fresh i hmem hi
  simp [hold]

omit [Storage L ω] in
/-- Its item is another one. -/
theorem replace (h : InCall t a (some n) x) (hx : Logged x.1 x.2.2)
    (hlog : x.2.2 = l₁ ++ ⟨x.1.began t, a, n⟩ :: l₂) :
    InCall t a (some m) (x.1, x.2.1, l₁ ++ ⟨x.1.began t, a, m⟩ :: l₂) := by
  refine ⟨h.active, fun i hi => ?_⟩
  have hold : i ∉ l₁ ++ l₂ := fun hmem => (hlog ▸ hx).began_ne i hmem hi
  rw [List.mem_append, not_or] at hold
  simp [hold.1, hold.2]

omit [Storage L ω] in
/-- It is taken out again. -/
theorem remove (h : InCall t a (some n) x) (hx : Logged x.1 x.2.2)
    (hlog : x.2.2 = l₁ ++ ⟨x.1.began t, a, n⟩ :: l₂) : InCall t a none (x.1, x.2.1, l₁ ++ l₂) := by
  refine ⟨h.active, fun i hi => ?_⟩
  have hold : i ∉ l₁ ++ l₂ := fun hmem => (hlog ▸ hx).began_ne i hmem hi
  simpa using hold

end InCall

variable {b : ℕ}

variable (X S₀) in
/-- The call of thread `t` takes effect with answer `r`, in bucket `b`. -/
structure Effects (t b : ℕ) (a : DtCall L ω) (r : DtRet L) (x : World L ω)
    (log : List (LogItem (DtCall L ω) (DtRet L) Validated)) : Prop where
  logged : Logged x.1 log
  good : (stackObject L ω X).Good (fun v => Alive x v ∧ v.lock.bucket ≠ b) S₀ log
  after : (stackObject L ω X).after S₀ log = (current X S₀ x).effect a r
  notes : ∀ i ∈ log, ∀ v, i.note = .inl v → i ∈ x.2.2
  others : ∀ i : LogItem _ _ _, i.began ≠ x.1.began t → (i ∈ log ↔ i ∈ x.2.2)
  inCall : InCall t a (some (.inr r)) (x.1, x.2.1, log)

/-- A call that has made a note takes effect at the place of the note. -/
theorem Effects.commit {v : Validated} (hx : Inv X S₀ x) (hc : InCall t a (some (.inl v)) x)
    (hv : Alive x v) {K : Stacks → Prop} (hK : K (current X S₀ x))
    (hapart : ∀ u : Validated, u.lock.bucket ≠ b → Stacks.Apart u a r)
    (hcomm : (stackObject L ω X).Commutes (fun u => Alive x u ∧ u.lock.bucket ≠ b) K v a r) :
    ∃ log, Effects X S₀ t b a r x log := by
  obtain ⟨l₁, l₂, hlog⟩ := List.append_of_mem hc.mem
  have hgood := hx.good
  have hcur : current X S₀ x = (stackObject L ω X).after S₀ (l₁ ++ ⟨x.1.began t, a, .inl v⟩ ::
    l₂) := by rw [current, hlog]
  rw [hlog] at hgood
  rw [hcur] at hK
  obtain ⟨hgood', hafter⟩ := hgood.commit hcomm hv (fun u hu => ⟨hu.1, hapart u hu.2⟩) hK
  refine ⟨_, Logged.replace (hlog ▸ hx.logged) hx.ticks hc.active, hgood', hcur ▸ hafter,
    fun i hi u hu => ?_, fun i hi => ?_, hc.replace hx.logged hlog⟩
  · rw [hlog]
    rcases List.mem_append.mp hi with hi | hi
    · exact List.mem_append_left _ hi
    · rcases List.mem_cons.mp hi with rfl | hi
      · cases hu
      · exact List.mem_append_right _ (List.mem_cons_of_mem _ hi)
  · have hne : ∀ q, i ≠ ⟨x.1.began t, a, q⟩ := by
      rintro q rfl
      exact hi rfl
    simp [hlog, hne]

/-- A call takes effect behind all others. -/
theorem Effects.push (hx : Inv X S₀ x) (hc : InCall t a none x)
    (hapart : ∀ u : Validated, u.lock.bucket ≠ b → Stacks.Apart u a r)
    (hstep : StackStep X (current X S₀ x) a r ((current X S₀ x).effect a r)) :
    Effects X S₀ t b a r x (x.2.2 ++ [⟨x.1.began t, a, .inr r⟩]) := by
  refine ⟨hx.logged.append hx.ticks hc.active hc.fresh, hx.good.push hstep fun u hu =>
    ⟨hu.1, hapart u hu.2⟩, ?_, fun i hi u hu => ?_, fun i hi => ?_, hc.append⟩
  · rw [LogObject.after_append]
    rfl
  · rcases List.mem_append.mp hi with hi | hi
    · exact hi
    · rw [List.mem_singleton.mp hi] at hu
      cases hu
  · have hne : i ≠ ⟨x.1.began t, a, .inr r⟩ := by
      rintro rfl
      exact hi rfl
    simp [hne]

/-- The step that unlocks bucket `b`, with what has taken effect. -/
theorem Inv.release {held : List Slot} {f : Option Slot} (hx : Inv X S₀ x)
    (ho : x.2.1.owner b = some t) (hd : Done X t b held f (low x)) (he : Effects X S₀ t b a r x log)
    (hself : b < X.buckets → (current X S₀ x).effect a r b = (x.1.st.table.bucket b).freeList L)
    (hne : ∀ c, c ≠ b → (current X S₀ x).effect a r c = current X S₀ x c) :
    let y : World L ω :=
  ({ x.1 with st := ⟨{ x.1.st.table.modify b bump with held := held }, x.1.st.owned⟩ },
      ⟨Function.update x.2.1.owner b none, Function.update x.2.1.flight t f⟩, log)
    Inv X S₀ y ∧ (protocol X S₀).guar t x y := by
  obtain ⟨hi, hg⟩ := unlock_step hx.table ho hd
  have hle := version_le_of_guar hg
  have hnotes : ∀ i ∈ log, ∀ v, i.note = .inl v → v.lock.seen % 2 = 0 ∧
    v.lock.seen ≤ version x v.lock.bucket :=
    fun i hi v hv => hx.notes i (he.notes i hi v hv) v hv
  rw [← he.after] at hself hne
  refine ⟨⟨hi, ⟨hx.ticks.chronological, hx.ticks.inj, hx.ticks.answered⟩, he.logged.within,
    he.good.mono fun i hmem v hv halive => ?_, fun i hmem v hv => ?_, fun c hc hoc => ?_⟩,
    fun u hu => ⟨hg u hu, rfl, rfl, fun hact => own_of_ne hx he.inCall.active he.others hu hact,
    fun c hc => ?_⟩⟩
  · obtain ⟨heven, hseen⟩ := hnotes i hmem v hv
    exact ⟨(hle v.lock.bucket).trans halive, hx.bucket_ne_of_alive ho heven hseen halive⟩
  · obtain ⟨heven, hseen⟩ := hnotes i hmem v hv
    exact ⟨heven, hseen.trans (hle v.lock.bucket)⟩
  · by_cases hcb : c = b
    · subst hcb
      simp only [Table.modify_bucket_self]
      exact hself hc
    · simp only [Function.update_of_ne hcb] at hoc
      simp only [Table.modify_bucket_ne _ hcb]
      exact (hne c hcb).trans (hx.lists c hc hoc)
  · refine hne c fun hcb => ?_
    subst hcb
    have hodd : ¬ version x c % 2 = 0 := by
      rw [hx.table.lock c]
      simp [ho]
    simp only [version, Table.modify_bucket_self] at hc hodd
    omega

/-! ### What a thread knows -/

variable {n : ℕ} {mine : Option ℕ} {P : ℕ → ℕ → (ℕ → ℕ) → Set ℕ → Prop} {σ : List ℕ}
  {w : Option (Validated ⊕ DtRet L)}

/-- Besides `P`, what following the links visits. -/
def Walk (P : ℕ → ℕ → (ℕ → ℕ) → Set ℕ → Prop) (hd n : ℕ → ℕ) (σ : List ℕ) (c h : ℕ) (l : ℕ → ℕ)
    (f : Set ℕ) : Prop :=
  P c h l f ∧ visits l (hd h) (n c) = σ

theorem Walk.onFree {hd n : ℕ → ℕ} (hP : OnFree mine P)
    (hfree : ∀ c h l f, P c h l f → ∀ i ∈ visits l (hd h) (n c), i ∈ f ∨ mine = some i) :
    OnFree mine (Walk P hd n σ) := by
  rintro c h l l' f hl ⟨hp, hσ⟩
  refine ⟨hP c h l l' f hl hp, ?_⟩
  rw [← hσ]
  exact (visits_congr fun i hi => hl i (hfree c h l f hp i hi)).1

variable (X S₀) in
/-- What a thread knows of a bucket whose lock it has, and of its stack: that is `σ` until the
thread unlocks it. -/
structure Holds (t b : ℕ) (mine : Option ℕ) (P : ℕ → ℕ → (ℕ → ℕ) → Set ℕ → Prop) (σ : List ℕ)
    (n : ℕ) (x : World L ω) : Prop where
  locked : Locked L t b mine P (low x)
  current : current X S₀ x b = σ
  version : version x b = n

theorem Holds.rely (hP : OnFree mine P) (h : Holds X S₀ t b mine P σ n x) (hr : Rely X S₀ t x y) :
    Holds X S₀ t b mine P σ n y := by
  have hv : TableLog.version y b = TableLog.version x b := (hr.table.1 b).version_eq h.locked.owner
  refine ⟨h.locked.rely hP hr.table, ?_, hv.trans h.version⟩
  rw [hr.current b (by rw [hv]), h.current]

/-- Taking the lock of a bucket. -/
theorem Inv.lock (hx : Inv X S₀ x) (hno : x.2.1.owner b = none) (ho : ∀ c, x.2.1.owner c ≠ some t)
    (hfl : x.2.1.flight t = mine.map (Slot.mk b))
    (hP : P (x.1.st.table.bucket b).freeSlotCount (x.1.st.table.bucket b).freeSlotIndex
      ((x.1.st.table.bucket b).links L) (Table.freeIn L x.1.st.table.held b)) :
    let y : World L ω := ({ x.1 with st := ⟨x.1.st.table.modify b bump, x.1.st.owned⟩ },
      { x.2.1 with owner := Function.update x.2.1.owner b (some t) }, x.2.2)
    Inv X S₀ y ∧ (protocol X S₀).guar t x y ∧ Holds X S₀ t b mine P (current X S₀ x b)
      (version x b + 1) y := by
  obtain ⟨hi, hg⟩ := lock_step (t := t) hx.table hno
  have hother : ∀ c, Function.update x.2.1.owner b (some t) c = none → x.2.1.owner c = none ∧
      ((x.1.st.table.modify b bump).bucket c).version = version x c := by
    intro c hc
    have hcb : c ≠ b := by
      rintro rfl
      simp at hc
    rw [Function.update_of_ne hcb] at hc
    exact ⟨hc, by rw [Table.modify_bucket_ne _ hcb]⟩
  obtain ⟨hi', hg'⟩ := hx.quiet hi hg hother
  refine ⟨hi', hg', ⟨by simp, fun c hc => ?_, hfl, ?_⟩, rfl, by simp [version]⟩
  · by_contra hne
    exact ho c (by simpa [hne] using hc)
  · simp only [Table.modify_bucket_self, Table.modify_held]
    exact hP

/-! ### The rules -/

variable {α β : Type} {Q : α → World L ω → Prop}

/-- An operation that unlocks nothing. -/
theorem wp_quiet {o : DtOp ω β} {k : β → Prog (DtOp ω) α}
    (h : ∀ y, Rely X S₀ t x y → Inv X S₀ y → ∀ q s, Exact t o y.1.st →
      DtOp.exec L t o y.1.st.table = some (q, s.table) → s.owned = y.1.st.owned →
      ∃ g, DtInv X (s, g) ∧ (dtProtocol X).guar t (low y) (s, g) ∧
        (∀ b, g.owner b = none → y.2.1.owner b = none ∧ (s.table.bucket b).version = version y b) ∧
        (Inv X S₀ ({ y.1 with st := s }, g, y.2.2) →
          (protocol X S₀).wp (exactMachine L X ω) t (k q) Q ({ y.1 with st := s }, g, y.2.2))) :
    (protocol X S₀).wp (exactMachine L X ω) t (.call o k) Q x := by
  refine Protocol.wp_call fun y hy hi q s' hs => ?_
  obtain ⟨s, ⟨hexact, hexec, howned⟩, rfl⟩ := hs
  obtain ⟨g, hinv, hg, hfree, hwp⟩ := h y hy hi q s hexact hexec howned
  obtain ⟨hi', hg'⟩ := hi.quiet hinv hg hfree
  exact ⟨(g, y.2.2), hi', hg', hwp hi'⟩

/-- An operation that leaves the table as it is. -/
theorem wp_read {o : DtOp ω β} {k : β → Prog (DtOp ω) α}
    (hread : ∀ T q T', DtOp.exec L t o T = some (q, T') → T' = T)
    (h : ∀ y, Rely X S₀ t x y → Inv X S₀ y →
      ∀ q, DtOp.exec L t o y.1.st.table = some (q, y.1.st.table) →
      (protocol X S₀).wp (exactMachine L X ω) t (k q) Q y) :
    (protocol X S₀).wp (exactMachine L X ω) t (.call o k) Q x := by
  refine wp_quiet fun y hy hi q s _ hexec howned => ?_
  have hT := hread _ _ _ hexec
  have hs : s = y.1.st := by
    cases s
    cases hst : y.1.st
    simp_all
  subst hs
  exact ⟨y.2.1, hi.table, (dtProtocol X).guar_refl t _, fun b hb => ⟨hb, rfl⟩, fun _ =>
    h y hy hi q (hT ▸ hexec)⟩

/-- An operation on the bucket whose lock the thread has. -/
theorem wp_work {o : DtOp ω Unit} {k : Unit → Prog (DtOp ω) α} {f : Bucket ω → Bucket ω}
    (P' : ℕ → ℕ → (ℕ → ℕ) → Set ℕ → Prop) (ho : ∀ T, DtOp.exec L t o T = some ((), T.modify b f))
    (hv : ∀ B, (f B).version = B.version)
    (he : ∀ B i, mine ≠ some i → (f B).entries i = B.entries i) (hP : OnFree mine P)
    (hx : Holds X S₀ t b mine P σ n x) (hc : InCall t a w x)
    (hf : ∀ B free, P B.freeSlotCount B.freeSlotIndex (B.links L) free →
      P' (f B).freeSlotCount (f B).freeSlotIndex ((f B).links L) free)
    (h : ∀ y, Inv X S₀ y → Holds X S₀ t b mine P' σ n y → InCall t a w y →
      (protocol X S₀).wp (exactMachine L X ω) t (k ()) Q y) :
    (protocol X S₀).wp (exactMachine L X ω) t (.call o k) Q x := by
  refine wp_quiet fun y hy hi u s _ hexec howned => ?_
  rw [ho] at hexec
  simp only [Option.some.injEq, Prod.mk.injEq, true_and] at hexec
  obtain ⟨T', owned'⟩ := s
  simp only at hexec howned
  subst hexec howned
  have hy' := hx.rely hP hy
  obtain ⟨hi', hg⟩ := work_step hi.table hy'.locked.owner hy'.locked.flight hv he
  have hver : ∀ c, ((y.1.st.table.modify b f).bucket c).version = version y c := by
    intro c
    rw [Table.modify_bucket]
    split_ifs with hcb
    · rw [hv, hcb]
    · rfl
  refine ⟨y.2.1, hi', hg, fun c hc => ⟨hc, hver c⟩, fun hinv =>
    h _ hinv ⟨⟨hy'.locked.owner, hy'.locked.only, hy'.locked.flight, ?_⟩,
    hy'.current, (hver b).trans hy'.version⟩ ?_⟩
  · simpa using hf _ _ hy'.locked.knows
  · exact (hc.rely hy).within

/-- An operation that changes the counters of a thread only. -/
theorem wp_count {o : DtOp ω Unit} {k : Unit → Prog (DtOp ω) α} {f : SizeCounters → SizeCounters}
    (ho : ∀ T, DtOp.exec L t o T =
      some ((), { T with threadCounters := Table.modifyLocal f t T.threadCounters }))
    (hc : InCall t a w x)
    (h : ∀ y z : World L ω, Rely X S₀ t x y → Inv X S₀ z → z.2.1 = y.2.1 → InCall t a w z →
      (protocol X S₀).wp (exactMachine L X ω) t (k ()) Q z) :
    (protocol X S₀).wp (exactMachine L X ω) t (.call o k) Q x := by
  refine wp_quiet fun y hy hi u s _ hexec howned => ?_
  rw [ho] at hexec
  simp only [Option.some.injEq, Prod.mk.injEq, true_and] at hexec
  obtain ⟨T', owned'⟩ := s
  simp only at hexec howned
  subst hexec howned
  have hi' : DtInv X ((⟨{ y.1.st.table with
      threadCounters := Table.modifyLocal f t y.1.st.table.threadCounters }, y.1.st.owned⟩ :
        Shared L ω), y.2.1) :=
    { hi.table with }
  refine ⟨y.2.1, hi', ?_, fun b hb => ⟨hb, rfl⟩, fun hinv => h y _ hy hinv rfl (hc.rely hy).within⟩
  exact guar_of_bucketGuar (fun c => .frame rfl rfl ⟨rfl, rfl, fun _ => Iff.rfl, fun _ _ => rfl⟩)
    fun _ _ => ⟨rfl, fun _ _ => rfl⟩

/-- The end of a critical section, in which the call takes effect. -/
theorem wp_unlock {did : Section} {k : Unit → Prog (DtOp ω) α} {f : Option Slot}
    (hP : OnFree mine P) (hx : Holds X S₀ t b mine P σ n x) (hc : InCall t a w x)
    (hd : ∀ y : Shared L ω × DtGhost, DtInv X y → Locked L t b mine P y →
      Done X t b (Table.recordHeld b y.1.table.held did) f y)
    (he : ∀ y : World L ω, Inv X S₀ y → Holds X S₀ t b mine P σ n y → InCall t a w y →
      ∃ log, Effects X S₀ t b a r y log)
    (hself : ∀ (S : Stacks) (B : Bucket ω) (free : Set ℕ), S b = σ →
      P B.freeSlotCount B.freeSlotIndex (B.links L) free → S.effect a r b = B.freeList L)
    (hne : ∀ (S : Stacks) c, c ≠ b → S.effect a r c = S c)
    (h : ∀ z, Inv X S₀ z → InCall t a (some (.inr r)) z → z.2.1.flight t = f →
      (∀ c, z.2.1.owner c ≠ some t) → (protocol X S₀).wp (exactMachine L X ω) t (k ()) Q z) :
    (protocol X S₀).wp (exactMachine L X ω) t (.call (.unlock b did) k) Q x := by
  refine Protocol.wp_call fun y hy hi u s' hs => ?_
  obtain ⟨⟨T', owned'⟩, ⟨-, hexec, howned⟩, rfl⟩ := hs
  simp only [DtOp.exec, Option.some.injEq, Prod.mk.injEq, true_and] at hexec howned
  subst hexec howned
  have hy' := hx.rely hP hy
  obtain ⟨log, heff⟩ := he y hi hy' (hc.rely hy)
  obtain ⟨hi', hg⟩ := hi.release hy'.locked.owner (hd _ hi.table hy'.locked) heff
    (fun _ => hself _ _ _ hy'.current hy'.locked.knows) (hne _)
  refine ⟨_, hi', hg, h _ hi' ⟨heff.inCall.active, heff.inCall.mem_iff⟩ (Function.update_self ..)
    fun c hcb => ?_⟩
  by_cases hcb' : c = b
  · subst hcb'
    simp at hcb
  · simp only [Function.update_of_ne hcb'] at hcb
    exact hcb' (hy'.locked.only c hcb)

theorem wp_lockOptimistically {k : OptimisticLock → Prog (DtOp ω) α}
    (h : ∀ y, Rely X S₀ t x y → Inv X S₀ y → ∀ l, l.bucket = b → Snap L l Any (low y) →
      (protocol X S₀).wp (exactMachine L X ω) t (k l) Q y) :
    (protocol X S₀).wp (exactMachine L X ω) t (.call (.lockOptimistically b) k) Q x := by
  refine wp_read (fun T q T' => by simp only [DtOp.exec]; split_ifs <;> simp; tauto)
    fun y hy hi l hl => ?_
  simp only [DtOp.exec] at hl
  split_ifs at hl with hodd
  simp only [Option.some.injEq, Prod.mk.injEq, and_true] at hl
  subst hl
  refine h y hy hi _ rfl ⟨?_, le_rfl, fun _ => trivial⟩
  unfold lockWord at hodd
  simp only
  omega

/-- Locking the bucket of an entry that the thread is about to put back. -/
theorem wp_lockExclusive {i : ℕ} {k : Unit → Prog (DtOp ω) α} (hfl : x.2.1.flight t = some ⟨b, i⟩)
    (ho : ∀ c, x.2.1.owner c ≠ some t) (hc : InCall t a w x)
    (h : ∀ z σ n, Inv X S₀ z → Holds X S₀ t b (some i) (Walk (Freeing L i) id id σ) σ n z →
      InCall t a w z → (protocol X S₀).wp (exactMachine L X ω) t (k ()) Q z) :
    (protocol X S₀).wp (exactMachine L X ω) t (.call (.lockExclusive b) k) Q x := by
  refine Protocol.wp_call fun y hy hi u s' hs => ?_
  obtain ⟨⟨T', owned'⟩, ⟨-, hexec, howned⟩, rfl⟩ := hs
  simp only [DtOp.exec] at hexec howned
  subst howned
  split_ifs at hexec with hw
  simp only [Option.some.injEq, Prod.mk.injEq, true_and] at hexec
  subst hexec
  have heven : version y b % 2 = 0 := by
    unfold lockWord at hw
    simp only [version]
    omega
  have hno : y.2.1.owner b = none := (hi.table.lock b).mp heven
  have hfy : y.2.1.flight t = some ⟨b, i⟩ := hy.table.2.1.trans hfl
  have hheld := (hi.table.flight t _ hfy).1
  obtain ⟨hbX, hlt⟩ := hi.table.held_lt _ hheld
  have hlists := hi.table.lists _ hbX hno
  obtain ⟨hi', hg, hz⟩ := hi.lock (P := Walk (Freeing L i) id id (current X S₀ y b)) hno
    (fun c hcb => ho c ((hy.table.1 c).owner.mp hcb)) (show _ = (some i).map (Slot.mk b) from hfy)
    ⟨⟨hlists, fun hf => hf.2 hheld, hlt⟩, (hi.lists b hbX hno).symm⟩
  exact ⟨_, hi', hg, h _ _ _ hi' hz (hc.rely hy).within⟩

/-! ### `allocate` -/

/-- A thread in a call that has done nothing yet. -/
structure Begun (X : BucketIndexer) (t : ℕ) (a : DtCall L ω) (x : World L ω) : Prop where
  idle : (dtProtocol X).idle t (low x)
  inCall : InCall t a none x

theorem Begun.rely (h : Begun X t a x) (hr : Rely X S₀ t x y) : Begun X t a y :=
  ⟨(dtProtocol X).idle_rely h.idle hr.table, h.inCall.rely hr⟩

/-- A call of `allocate` that has taken effect. -/
structure Allocated (X : BucketIndexer) (t : ℕ) (h : TinyPtrHashes) (special : ℕ)
    (r : Except OverflowError (TinyPtr L × Slot)) (x : World L ω) : Prop where
  post : AllocPost X t h r (low x)
  inCall : InCall t (.allocate h special) (some (.inr (.allocated r))) x

variable {h : TinyPtrHashes} {special obj next : ℕ} {v : Validated}

theorem Allocated.rely {q : Except OverflowError (TinyPtr L × Slot)}
    (hx : Allocated X t h special q x) (hr : Rely X S₀ t x y) : Allocated X t h special q y :=
  ⟨hx.post.rely hr.table, hx.inCall.rely hr⟩

/-- The bucket has not been unlocked since its lock was validated. -/
theorem Holds.alive (hx : Holds X S₀ t v.lock.bucket mine P σ (v.lock.seen + 1) x) : Alive x v :=
  hx.version.le

theorem wp_takeHead (hb : v.lock.bucket = X.index (if v.bit then h.2 else h.1))
    (hs : special < 2 ^ L.S)
    (hx : Holds X S₀ t v.lock.bucket none (Walk (Read L obj next) id id σ) σ (v.lock.seen + 1) x)
    (hc : InCall t (.allocate h special) (some (.inl v)) x) :
    (protocol X S₀).wp (exactMachine L X ω) t (DerefTable.takeHead L ω X v.lock.bucket v.bit special
      obj next) (Allocated X t h special) x := by
  have hbX : v.lock.bucket < X.buckets := hb ▸ X.index_lt _
  have hread : OnFree none (Walk (Read L obj next) id id σ) :=
    Walk.onFree Read.onFree fun c h l f hp i hi => Or.inl ((hp.1.mem_iff i).mp hi)
  unfold DerefTable.takeHead
  simp only [bind_eq, op_bind, pure_eq]
  refine wp_read (fun T u T' => by simp [DtOp.exec]; tauto) fun y hy hi count hcount => ?_
  have hy' := hx.rely hread hy
  simp only [DtOp.exec, Option.some.injEq, Prod.mk.injEq, and_true] at hcount
  by_cases h0 : count = 0
  · rw [if_pos h0]
    have hempty : σ = [] := by
      rw [← hy'.locked.knows.2]
      exact List.eq_nil_of_length_eq_zero (by rw [List.length_iterate]; exact hcount.trans h0)
    subst hempty
    refine Protocol.wp_bind hi (Protocol.wp_onlyReads onlyReads_size.restrict.clocked
      (fun z => Holds X S₀ t v.lock.bucket none (Walk (Read L obj next) id id []) []
      (v.lock.seen + 1) z ∧
        InCall t (.allocate h special) (some (.inl v)) z)
      (fun _ _ hr hz => ⟨hz.1.rely hread hr, hz.2.rely hr⟩) (fun size z hiz hz => ?_) hi
      ⟨hy', hc.rely hy⟩)
    refine wp_unlock hread hz.1 hz.2 (r := .allocated (.error ⟨size, DerefTable.capacity L X⟩))
      (fun u hu hu' => done_none hu hu' fun c h l f hp => hp.1.1)
      (fun u hu hu' hcu => Effects.commit hu hcu hu'.alive hu'.current
        (fun _ _ => trivial) commutes_overflow) (fun S B free hS hp => ?_)
        (fun _ _ _ => rfl) fun u hu hcu hf ho => ?_
    · exact hS.trans hp.2.symm
    · exact Protocol.wp_ret fun u' hu' _ => Allocated.rely ⟨⟨hf, ho⟩, hcu⟩ hu'
  · rw [if_neg h0]
    have hcount0 : (y.1.st.table.bucket v.lock.bucket).freeSlotCount ≠ 0 := hcount ▸ h0
    -- the stack has the head on top
    obtain ⟨rest, rfl⟩ : ∃ rest, σ = obj :: rest := by
      obtain ⟨m, hm⟩ := Nat.exists_eq_succ_of_ne_zero hcount0
      obtain ⟨⟨-, hhead, -⟩, hσ⟩ := hy'.locked.knows
      rw [← hσ, id, id, hm, hhead]
      exact ⟨_, rfl⟩
    have hc0 : Holds X S₀ t v.lock.bucket none (fun c h l f =>
      Walk (Read L obj next) id id (obj :: rest) c h l f ∧ c ≠ 0)
        (obj :: rest) (v.lock.seen + 1) y :=
      ⟨⟨hy'.locked.owner, hy'.locked.only, hy'.locked.flight, hy'.locked.knows, hcount0⟩,
        hy'.current, hy'.version⟩
    have hon : OnFree none (fun c h l f => Walk (Read L obj next) id id (obj :: rest) c h l f ∧
      c ≠ 0) :=
      fun c h l l' f hl hp => ⟨hread c h l l' f hl hp.1, hp.2⟩
    have hcounted : OnFree none (Walk (Counted L obj next) (fun _ => obj) Nat.succ (obj :: rest)) :=
      Walk.onFree Counted.onFree fun c h l f hp i hi => Or.inl ((hp.1.mem_iff i).mp hi)
    have hmoved : OnFree none (Walk (Moved L obj next) (fun _ => obj) Nat.succ (obj :: rest)) :=
      Walk.onFree Moved.onFree fun c h l f hp i hi => Or.inl ((hp.1.1.mem_iff i).mp hi)
    refine wp_assert fun _ => ?_
    refine wp_work (Walk (Counted L obj next) (fun _ => obj) Nat.succ (obj :: rest)) (fun T => rfl)
      (fun _ => rfl) (fun _ _ _ => rfl) hon hc0 (hc.rely hy) ?_ fun z hiz hz hcz => ?_
    · rintro B free ⟨⟨⟨hf, rfl, hn⟩, hσ⟩, hcB⟩
      rw [Walk, Counted, Bucket.Lists.fetchSub hf hcB, Nat.succ_eq_add_one, Nat.sub_add_cancel
        (Nat.pos_of_ne_zero hcB)]
      exact ⟨⟨hf, hn hcB⟩, hσ⟩
    refine wp_work (Walk (Moved L obj next) (fun _ => obj) Nat.succ (obj :: rest)) (fun T => rfl)
      (fun _ => rfl) (fun _ _ _ => rfl) hcounted hz hcz (fun B free hp => ⟨⟨hp.1, rfl⟩, hp.2⟩)
      fun u hiu hu hcu => ?_
    have hobj : obj < L.entriesPerBinCount :=
      (hu.locked.knows.1.1.1.head_free (Nat.succ_ne_zero _)).1
    refine wp_unlock hmoved hu hcu (r := .allocated (.ok (.ofFields obj special v.bit,
      ⟨v.lock.bucket, obj⟩))) (fun q hq hq' => done_took hq hbX ⟨hq'.owner, hq'.only,
      hq'.flight, hq'.knows.1⟩) (fun q hq hq' hcq => Effects.commit hq hcq hq'.alive hq'.current
      (fun _ hne => Ne.symm hne)
        (commutes_allocate fun _ hlive => hlive.2))
      (fun S B free hS hp => ?_) (fun S c hne => Stacks.pop_of_ne hne) fun q hiq hcq hf ho => ?_
    · obtain ⟨⟨⟨-, hnext⟩, hhead⟩, hσ⟩ := hp
      have hrest : visits (B.links L) (B.links L obj) B.freeSlotCount = rest := (List.cons.inj hσ).2
      rw [hnext, ← hhead] at hrest
      calc S.pop v.lock.bucket v.lock.bucket = (S v.lock.bucket).tail := Stacks.pop_self
        _ = rest := by rw [hS, List.tail_cons]
        _ = B.freeList L := hrest.symm
    refine wp_count (fun T => rfl) hcq fun q' z' hq' hiz' hg hcz' => ?_
    refine wp_value fun p hp => ?_
    obtain rfl := TinyPtr.eq_of_construct hobj hs hp
    refine Protocol.wp_ret fun u' hu' _ =>
      Allocated.rely (q := .ok _) ⟨⟨?_, fun c hcb => ?_, ?_⟩, hcz'⟩ hu'
    · exact (congrArg (fun g => g.flight t) hg).trans (hq'.table.2.1.trans hf)
    · have hcb' : q'.2.1.owner c = some t := hg ▸ hcb
      exact ho c ((hq'.table.1 c).owner.mp hcb')
    · unfold DerefTable.slotOf
      rw [TinyPtr.hashFn_ofFields, TinyPtr.index_ofFields hobj hs, hb]

/-! ### Validating and upgrading -/

/-- The counter is what was read. -/
def Count (n c _ : ℕ) (_ : ℕ → ℕ) (_ : Set ℕ) : Prop := c = n

theorem Count.onFree : OnFree none (Count n) := fun _ _ _ _ _ _ hp => hp

/-- A call of `allocate` that has validated: it has noted that, unless its own bucket has been
locked since it was read. -/
structure Noted (X : BucketIndexer) (t : ℕ) (h : TinyPtrHashes) (special : ℕ) (v : Validated)
    (P : ℕ → ℕ → (ℕ → ℕ) → Set ℕ → Prop) (x : World L ω) : Prop where
  idle : (dtProtocol X).idle t (low x)
  snap : Snap L v.lock P (low x)
  inCall : InCall t (.allocate h special) (some (.inl v)) x ∨
    v.lock.seen < version x v.lock.bucket ∧ InCall t (.allocate h special) none x

theorem Noted.rely (hP : OnFree none P) (hx : Inv X S₀ x) (h' : Noted X t h special v P x)
    (hr : Rely X S₀ t x y) : Noted X t h special v P y := by
  refine ⟨(dtProtocol X).idle_rely h'.idle hr.table, h'.snap.rely hP hx.table hr.table, ?_⟩
  rcases h'.inCall with hc | ⟨hlt, hc⟩
  · exact Or.inl (hc.rely hr)
  · exact Or.inr ⟨hlt.trans_le (hr.table.1 v.lock.bucket).version_le, hc.rely hr⟩

/-- While a bucket is at the version that was seen, its stack is as long as the counter says. -/
theorem length_current {l : OptimisticLock} (hx : Inv X S₀ x) (hb : l.bucket < X.buckets)
    (hl : Snap L l (Count n) (low x)) (hv : version x l.bucket = l.seen) :
    (current X S₀ x l.bucket).length = n := by
  rw [hx.lists _ hb (hl.unlocked hx.table hv), Bucket.freeList, List.length_iterate]
  exact hl.knows hv

/-- A call puts an item into the log that does not change the stacks. -/
theorem Inv.append {q : Validated ⊕ DtRet L} (hx : Inv X S₀ x) (hc : InCall t a none x)
    (hgood : (stackObject L ω X).Good (Alive x) S₀ (x.2.2 ++ [⟨x.1.began t, a, q⟩]))
    (hsame : (stackObject L ω X).after S₀ (x.2.2 ++ [⟨x.1.began t, a, q⟩]) = current X S₀ x)
    (hnote : ∀ u : Validated, q = .inl u → u.lock.seen % 2 = 0 ∧
      u.lock.seen ≤ version x u.lock.bucket) : let y : World L ω :=
  (x.1, x.2.1, x.2.2 ++ [⟨x.1.began t, a, q⟩])
    Inv X S₀ y ∧ (protocol X S₀).guar t x y ∧ InCall t a (some q) y := by
  have hnotes : ∀ i ∈ x.2.2 ++ [⟨x.1.began t, a, q⟩], ∀ u, i.note = .inl u →
      u.lock.seen % 2 = 0 ∧ u.lock.seen ≤ version x u.lock.bucket := by
    intro i hi u hu
    rcases List.mem_append.mp hi with hi | hi
    · exact hx.notes i hi u hu
    · rw [List.mem_singleton.mp hi] at hu
      exact hnote u hu
  have hother : ∀ i : LogItem _ _ _, i.began ≠ x.1.began t → (i ∈ x.2.2 ++ [⟨x.1.began t, a, q⟩] ↔
    i ∈ x.2.2) := by
    intro i hi
    have hne : i ≠ ⟨x.1.began t, a, q⟩ := by
      rintro rfl
      exact hi rfl
    simp [hne]
  obtain ⟨hi, hg⟩ := hx.relog hc.active (hx.logged.append hx.ticks hc.active hc.fresh) hgood
    hnotes hsame hother
  exact ⟨hi, hg, hc.append⟩

/-- The note is withdrawn. -/
theorem Inv.withdraw (hx : Inv X S₀ x) (hc : InCall t a (some (.inl v)) x) :
    ∃ log, let y : World L ω := (x.1, x.2.1, log)
      Inv X S₀ y ∧ (protocol X S₀).guar t x y ∧ InCall t a none y := by
  obtain ⟨l₁, l₂, hlog⟩ := List.append_of_mem hc.mem
  have hsub : ∀ i ∈ l₁ ++ l₂, i ∈ x.2.2 := by
    rw [hlog]
    exact ((List.sublist_cons_self _ _).append_left _).subset
  have hsame : (stackObject L ω X).after S₀ (l₁ ++ l₂) = current X S₀ x := by
    rw [current, hlog, LogObject.after_remove]
  have hother : ∀ i : LogItem _ _ _, i.began ≠ x.1.began t → (i ∈ l₁ ++ l₂ ↔ i ∈ x.2.2) := by
    intro i hi
    have hne : i ≠ ⟨x.1.began t, a, .inl v⟩ := by
      rintro rfl
      exact hi rfl
    simp [hlog, hne]
  obtain ⟨hi, hg⟩ := hx.relog hc.active (Logged.remove (hlog ▸ hx.logged) hx.ticks hc.active)
    (LogObject.Good.remove (hlog ▸ hx.good)) (fun i hi => hx.notes i (hsub i hi)) hsame hother
  exact ⟨_, hi, hg, hc.remove hx.logged hlog⟩

/-- Validating the bucket the call does not take from. -/
theorem wp_validate {l' : OptimisticLock} {c c' : ℕ} {k : Bool → Prog (DtOp ω) α}
    (hP : OnFree none P) (hx : Inv X S₀ x) (hbegun : Begun X t (.allocate h special) x)
    (hb : v.lock.bucket < X.buckets) (hb' : l'.bucket < X.buckets) (hl : Snap L v.lock P (low x))
    (hc : Snap L v.lock (Count c) (low x)) (hc' : Snap L l' (Count c') (low x))
    (hfits : ∀ S : Stacks, (S v.lock.bucket).length = c → (S l'.bucket).length = c' →
      Stacks.Fits X S (.allocate h special : DtCall L ω) v)
    (hyes : ∀ z, Inv X S₀ z → Noted X t h special v P z →
      (protocol X S₀).wp (exactMachine L X ω) t (k true) Q z)
    (hno : ∀ z, Inv X S₀ z → Begun X t (.allocate h special) z →
      (protocol X S₀).wp (exactMachine L X ω) t (k false) Q z) :
    (protocol X S₀).wp (exactMachine L X ω) t (.call (.validate l') k) Q x := by
  refine Protocol.wp_call fun y hy hi q s' hs => ?_
  obtain ⟨⟨T', owned'⟩, ⟨hexact, hexec, howned⟩, rfl⟩ := hs
  simp only [DtOp.exec, Option.some.injEq, Prod.mk.injEq] at hexec howned
  obtain ⟨rfl, rfl⟩ := hexec
  subst howned
  have hbeguny := hbegun.rely hy
  have hly := hl.rely hP hx.table hy.table
  cases hw : lockWord (y.1.st.table.bucket l'.bucket).version == l'.lockedVersion with
  | false => exact ⟨y.2, hi, (protocol X S₀).guar_refl t y, hno y hi hbeguny⟩
  | true =>
    have hv' : version y l'.bucket = l'.seen := hexact (by simpa using hw)
    by_cases hv : version y v.lock.bucket = v.lock.seen
    · have hlen := length_current hi hb (hc.rely Count.onFree hx.table hy.table) hv
      have hlen' := length_current hi hb' (hc'.rely Count.onFree hx.table hy.table) hv'
      obtain ⟨hi', hg, hcall⟩ := hi.append (q := .inl v) hbeguny.inCall (hi.good.note fun _ =>
        hfits _ hlen hlen') LogObject.after_append fun u hu =>
        Sum.inl.inj hu ▸ ⟨hly.even, hly.seen_le⟩
      exact ⟨_, hi', hg, hyes _ hi' ⟨hbeguny.idle, hly, Or.inl hcall⟩⟩
    · have hlt : v.lock.seen < version y v.lock.bucket := lt_of_le_of_ne hly.seen_le (Ne.symm hv)
      exact ⟨y.2, hi, (protocol X S₀).guar_refl t y, hyes y hi ⟨hbeguny.idle, hly,
        Or.inr ⟨hlt, hbeguny.inCall⟩⟩⟩

/-- Upgrading: the thread has the lock at the version it has seen, or it withdraws its note. -/
theorem wp_tryUpgrade {k : Bool → Prog (DtOp ω) α} (hP : OnFree none P) (hx : Inv X S₀ x)
    (hb : v.lock.bucket < X.buckets) (hn : Noted X t h special v P x)
    (hyes : ∀ z σ, Inv X S₀ z → Holds X S₀ t v.lock.bucket none (Walk P id id σ) σ (v.lock.seen + 1)
      z → InCall t (.allocate h special) (some (.inl v)) z →
      (protocol X S₀).wp (exactMachine L X ω) t (k true) Q z)
    (hno : ∀ z, Inv X S₀ z → Begun X t (.allocate h special) z →
      (protocol X S₀).wp (exactMachine L X ω) t (k false) Q z) :
    (protocol X S₀).wp (exactMachine L X ω) t (.call (.tryUpgradeToExclusive v.lock) k) Q x := by
  refine Protocol.wp_call fun y hy hi q s' hs => ?_
  obtain ⟨⟨T', owned'⟩, ⟨hexact, hexec, howned⟩, rfl⟩ := hs
  have hny := hn.rely hP hx hy
  simp only [DtOp.exec] at hexec howned
  subst howned
  split_ifs at hexec with hw
  · simp only [Option.some.injEq, Prod.mk.injEq] at hexec
    obtain ⟨rfl, rfl⟩ := hexec
    have hv : version y v.lock.bucket = v.lock.seen := hexact hw
    have hcall : InCall t (.allocate h special) (some (.inl v)) y :=
      hny.inCall.resolve_right fun hlt => hlt.1.ne' hv
    have hfree := hny.snap.unlocked hi.table hv
    obtain ⟨hi', hg, hz⟩ := hi.lock (P := Walk P id id (current X S₀ y v.lock.bucket))
      hfree hny.idle.2 (show _ = Option.map (Slot.mk v.lock.bucket) none from hny.idle.1)
      ⟨hny.snap.knows hv, (hi.lists _ hb hfree).symm⟩
    rw [hv] at hz
    exact ⟨_, hi', hg, hyes _ _ hi' hz hcall.within⟩
  · simp only [Option.some.injEq, Prod.mk.injEq] at hexec
    obtain ⟨rfl, rfl⟩ := hexec
    rcases hny.inCall with hcall | ⟨-, hcall⟩
    · obtain ⟨log, hi', hg, hcall'⟩ := hi.withdraw hcall
      exact ⟨_, hi', hg, hno _ hi' ⟨hny.idle, hcall'⟩⟩
    · exact ⟨y.2, hi, (protocol X S₀).guar_refl t y, hno y hi ⟨hny.idle, hcall⟩⟩

/-! ### The programs -/

/-- What a round establishes: it goes back to `retry`, or it has what `allocate` answers. -/
abbrev RoundPost (X : BucketIndexer) (t : ℕ) (h : TinyPtrHashes) (special : ℕ)
    (r : Unit ⊕ Except OverflowError (TinyPtr L × Slot)) (y : World L ω) : Prop :=
  Sum.elim (fun _ => Begun X t (.allocate h special) y) (fun r => Allocated X t h special r y) r

theorem wp_attempt {l' : OptimisticLock} {c c' : ℕ}
    (hb : v.lock.bucket = X.index (if v.bit then h.2 else h.1)) (hb' : l'.bucket < X.buckets)
    (hs : special < 2 ^ L.S) (hx : Inv X S₀ x) (hbegun : Begun X t (.allocate h special) x)
    (hc : Snap L v.lock (Count c) (low x)) (hc' : Snap L l' (Count c') (low x))
    (hfits : ∀ S : Stacks, (S v.lock.bucket).length = c → (S l'.bucket).length = c' →
      Stacks.Fits X S (.allocate h special : DtCall L ω) v) :
    (protocol X S₀).wp (exactMachine L X ω) t (DerefTable.attempt L ω X v.lock.bucket v.bit special
      v.lock l') (RoundPost X t h special) x := by
  have hbX : v.lock.bucket < X.buckets := hb ▸ X.index_lt _
  unfold DerefTable.attempt
  simp only [bind_eq, op_bind, pure_eq]
  refine wp_read (fun T u T' => by simp [DtOp.exec]; tauto) fun y hy hi obj hobj => ?_
  simp only [DtOp.exec, Option.some.injEq, Prod.mk.injEq, and_true] at hobj
  have hcy := hc.rely Count.onFree hx.table hy.table
  have hcy' := hc'.rely Count.onFree hx.table hy.table
  have hhead : Snap L v.lock (Head obj) (low y) := ⟨hcy.even, hcy.seen_le, fun _ => hobj⟩
  refine wp_read (fun T u T' => by simp [DtOp.exec]; tauto) fun z hz hiz next hnext => ?_
  simp only [DtOp.exec, Option.some.injEq, Prod.mk.injEq, and_true] at hnext
  have hhz := hhead.rely Head.onFree hi.table hz.table
  have hread : Snap L v.lock (Read L obj next) (low z) := by
    refine ⟨hhz.even, hhz.seen_le, fun hv => ⟨?_, hhz.knows hv, fun _ => hnext⟩⟩
    exact hiz.table.lists _ hbX (hhz.unlocked hiz.table hv)
  refine wp_validate Read.onFree hiz ((hbegun.rely hy).rely hz) hbX hb' hread
    (hcy.rely Count.onFree hi.table hz.table) (hcy'.rely Count.onFree hi.table hz.table) hfits
    (fun u hiu hu => ?_) fun u hiu hu => ?_
  · refine wp_tryUpgrade Read.onFree hiu hbX hu (fun q σ hiq hq hcq => ?_) fun q hiq hq => ?_
    · refine Protocol.wp_bind hiq (Protocol.wp_mono (wp_takeHead hb hs hq hcq)
        fun r u' hu' hr => ?_)
      exact Protocol.wp_ret fun q' hq' _ => hr.rely hq'
    · exact Protocol.wp_ret fun u' hu' _ => hq.rely hu'
  · exact Protocol.wp_ret fun u' hu' _ => hu.rely hu'

theorem wp_round (hs : special < 2 ^ L.S) (hbegun : Begun X t (.allocate h special) x) :
    (protocol X S₀).wp (exactMachine L X ω) t (DerefTable.round L ω X h special)
      (RoundPost X t h special) x := by
  unfold DerefTable.round
  simp only [bind_eq, op_bind]
  refine wp_lockOptimistically fun y hy hi l₁ hb₁ hl₁ => ?_
  refine wp_lockOptimistically fun z hz hiz l₂ hb₂ hl₂ => ?_
  have hl₁z := hl₁.rely Any.onFree hi.table hz.table
  have hb₁X : l₁.bucket < X.buckets := hb₁ ▸ X.index_lt _
  have hb₂X : l₂.bucket < X.buckets := hb₂ ▸ X.index_lt _
  refine wp_read (fun T u T' => by simp [DtOp.exec]; tauto) fun u hu hiu c₁ hc₁ => ?_
  simp only [DtOp.exec, Option.some.injEq, Prod.mk.injEq, and_true, ← hb₁] at hc₁
  have hl₁u := hl₁z.rely Any.onFree hiz.table hu.table
  have hl₂u := hl₂.rely Any.onFree hiz.table hu.table
  have hcount₁ : Snap L l₁ (Count c₁) (low u) := ⟨hl₁u.even, hl₁u.seen_le, fun _ => hc₁⟩
  refine wp_read (fun T u T' => by simp [DtOp.exec]; tauto) fun q hq hiq c₂ hc₂ => ?_
  simp only [DtOp.exec, Option.some.injEq, Prod.mk.injEq, and_true, ← hb₂] at hc₂
  have hl₂q := hl₂u.rely Any.onFree hiu.table hq.table
  have hcount₁q := hcount₁.rely Count.onFree hiu.table hq.table
  have hcount₂q : Snap L l₂ (Count c₂) (low q) := ⟨hl₂q.even, hl₂q.seen_le, fun _ => hc₂⟩
  have hbegunq := (((hbegun.rely hy).rely hz).rely hu).rely hq
  have hbit : ∀ S : Stacks, (S l₁.bucket).length = c₁ → (S l₂.bucket).length = c₂ →
    S.hashBit X h = decide (¬ c₁ ≥ c₂) := by
    rintro S rfl rfl
    rw [Stacks.hashBit, hb₁, hb₂]
  split_ifs with hle
  · rw [← hb₁]
    refine wp_attempt (v := ⟨false, l₁⟩) hb₁ hb₂X hs hiq hbegunq hcount₁q hcount₂q fun S h₁ h₂ => ?_
    have hb := hbit S h₁ h₂
    rw [decide_eq_false (not_not_intro hle)] at hb
    exact ⟨hb, by rw [Stacks.chosen, hb, if_neg Bool.false_ne_true, hb₁]⟩
  · rw [← hb₂]
    refine wp_attempt (v := ⟨true, l₂⟩) hb₂ hb₁X hs hiq hbegunq hcount₂q hcount₁q fun S h₂ h₁ => ?_
    have hb := hbit S h₁ h₂
    rw [decide_eq_true hle] at hb
    exact ⟨hb, by rw [Stacks.chosen, hb, if_pos rfl, hb₂]⟩

theorem wp_allocate (hs : special < 2 ^ L.S) (hx : Inv X S₀ x)
    (hbegun : Begun X t (.allocate h special) x) :
    (protocol X S₀).wp (exactMachine L X ω) t (DerefTable.allocate L ω X h special)
      (Allocated X t h special) x := by
  unfold DerefTable.allocate iter
  refine Protocol.wp_loop (fun _ y => Begun X t (.allocate h special) y) hx hbegun
    fun _ y hy hbegun' => ?_
  refine Protocol.wp_mono (wp_round hs hbegun') fun r z hz hr => ?_
  cases r with
  | inl u => exact hr
  | inr r => exact Protocol.wp_ret fun u hu _ => hr.rely hu

theorem wp_free {e : Allocation L} (hslot : DerefTable.slotOf X e.ptr e.hashes = e.slot)
    (hfl : x.2.1.flight t = some e.slot) (ho : ∀ c, x.2.1.owner c ≠ some t)
    (hc : InCall t (.free e) none x) :
    (protocol X S₀).wp (exactMachine L X ω) t (DerefTable.free L ω X e.ptr e.hashes) (fun _ y =>
      (dtProtocol X).idle t (low y) ∧ InCall t (.free e) (some (.inr .done)) y) x := by
  have hb : e.slot.bucket = X.index (if e.ptr.hashFn then e.hashes.2 else e.hashes.1) := by
    rw [← hslot, DerefTable.slotOf]
  have hi : e.slot.index = e.ptr.index := by rw [← hslot, DerefTable.slotOf]
  unfold DerefTable.free
  simp only [bind_eq, op_bind]
  rw [← hb, ← hi]
  refine wp_lockExclusive hfl ho hc fun y σ n hy hlock hcy => ?_
  have hfreeing : OnFree (some e.slot.index) (Walk (Freeing L e.slot.index) id id σ) :=
    Walk.onFree Freeing.onFree fun c h l f hp i hi => Or.inl ((hp.1.mem_iff i).mp hi)
  refine wp_read (fun T u T' => by simp [DtOp.exec]; tauto) fun z hz hiz hd hhd => ?_
  simp only [DtOp.exec, Option.some.injEq, Prod.mk.injEq, and_true] at hhd
  have hz' := hlock.rely hfreeing hz
  have hz₁ : Holds X S₀ t e.slot.bucket (some e.slot.index) (Walk (FreeingHead L e.slot.index hd)
    id id σ) σ n z :=
    ⟨⟨hz'.locked.owner, hz'.locked.only, hz'.locked.flight, ⟨hz'.locked.knows.1, hhd⟩,
      hz'.locked.knows.2⟩, hz'.current, hz'.version⟩
  have hfreeingHead : OnFree (some e.slot.index) (Walk (FreeingHead L e.slot.index hd) id id σ) :=
    Walk.onFree FreeingHead.onFree fun c h l f hp i hi => Or.inl ((hp.1.1.mem_iff i).mp hi)
  have hlinked : OnFree (some e.slot.index) (Walk (Linked L e.slot.index hd) id id σ) :=
    Walk.onFree Linked.onFree fun c h l f hp i hi => Or.inl ((hp.1.1.1.mem_iff i).mp hi)
  have hheaded : OnFree (some e.slot.index) (Walk (Headed L e.slot.index hd) (fun _ => hd) id σ) :=
    Walk.onFree Headed.onFree fun c h l f hp i hi => Or.inl ((hp.1.1.1.1.mem_iff i).mp hi)
  have hgiven : OnFree (some e.slot.index) (Walk (Given L e.slot.index) id id
    (e.slot.index :: σ)) := by
    refine Walk.onFree Given.onFree fun c h l f hp i hi => ?_
    rcases (hp.1.mem_iff i).mp hi with rfl | hi
    · exact Or.inr rfl
    · exact Or.inl hi
  refine wp_work (Walk (Linked L e.slot.index hd) id id σ) (fun T => rfl)
    (fun _ => rfl) ?_ hfreeingHead hz₁ (hcy.rely hz) ?_ fun u hiu hu hcu => ?_
  · intro B j hj
    exact Function.update_of_ne (fun e => hj (by rw [e])) _ _
  · rintro B free ⟨⟨⟨hf, hi, hlt⟩, rfl⟩, hσ⟩
    have hlinks := Bucket.links_setLink (L := L) (e := B.entries) (j := e.slot.index)
      (v := B.version) (c := B.freeSlotCount) (h := B.freeSlotIndex) hf.head_valid
    have hne : ∀ j ∈ free, Function.update (B.links L) e.slot.index B.freeSlotIndex j =
      B.links L j := fun j hj =>
      Function.update_of_ne (fun e => hi (by rwa [← e])) _ _
    rw [hlinks]
    refine ⟨⟨⟨⟨hf.congr hne, hi, hlt⟩, rfl⟩, Function.update_self ..⟩, ?_⟩
    exact (visits_congr fun j hj => hne j ((hf.mem_iff j).mp hj)).1.trans hσ
  refine wp_work (Walk (Headed L e.slot.index hd) (fun _ => hd) id σ) (fun T => rfl) (fun _ => rfl)
    (fun _ _ _ => rfl) hlinked hu hcu ?_ fun q hiq hq hcq => ?_
  · rintro B free ⟨⟨⟨hf, rfl⟩, hl⟩, hσ⟩
    exact ⟨⟨⟨⟨hf, rfl⟩, hl⟩, rfl⟩, hσ⟩
  refine wp_work (Walk (Given L e.slot.index) id id (e.slot.index :: σ)) (fun T => rfl)
    (fun _ => rfl) (fun _ _ _ => rfl) hheaded hq hcq ?_ fun u' hiu' hu' hcu' => ?_
  · rintro B free ⟨hp, hσ⟩
    refine ⟨hp.given, ?_⟩
    obtain ⟨⟨⟨⟨hf, hi, hlt⟩, -⟩, hl⟩, hhead⟩ := hp
    simp only [id, Bucket.fetchAdd_eq (hf.give hi hlt)]
    rw [hhead, ← hσ, ← hl]
    rfl
  have heffect : ∀ S : Stacks, S.effect (.free e : DtCall L ω) .done = S.push e.slot := fun _ => rfl
  refine wp_unlock (r := .done) hgiven hu' hcu'
    (fun q' hq' hq'' => done_gave hq' ⟨hq''.owner, hq''.only, hq''.flight, hq''.knows.1⟩)
    (fun q' hq' hq'' hcq' => ⟨_, Effects.push hq' hcq' (fun _ hne => Ne.symm hne) .free⟩)
    (fun S B free hS hp => ?_) (fun S c hne => Function.update_of_ne hne ..)
    fun q' hiq' hcq' hf ho' => ?_
  · rw [heffect, Stacks.push, Function.update_self, hS]
    exact hp.2.symm
  refine wp_count (fun T => rfl) hcq' fun q₁ z' hq₁ _ hg hcz' => ?_
  refine Protocol.wp_ret fun q₂ hq₂ _ =>
    ⟨(dtProtocol X).idle_rely ⟨?_, fun c hcb => ?_⟩ hq₂.table, hcz'.rely hq₂⟩
  · exact (congrArg (fun g => g.flight t) hg).trans (hq₁.table.2.1.trans hf)
  · have hcb' : q₁.2.1.owner c = some t := hg ▸ hcb
    exact ho' c ((hq₁.table.1 c).owner.mp hcb')

/-! ### The calls -/

/-- A call begins, with a step that unlocks nothing. -/
theorem Inv.begin (hx : Inv X S₀ x) (ht : x.1.active t = none) (hi : DtInv X (s, g))
    (hg : (dtProtocol X).guar t (low x) (s, g))
    (hfree : ∀ b, g.owner b = none → x.2.1.owner b = none ∧
      (s.table.bucket b).version = version x b) : let y : World L ω := (x.1.begin t a s, g, x.2.2)
    Inv X S₀ y ∧ (protocol X S₀).guar t x y ∧ InCall t a none y := by
  obtain ⟨hq, hg'⟩ := hx.quiet hi hg hfree
  refine ⟨⟨hq.table, hx.ticks.begin ht, hx.logged.begin ht, hq.good, hq.notes, hq.lists⟩,
    fun u hu => ?_, ?_, fun i hi => ?_⟩
  · have hgu := hg' u hu
    exact ⟨hgu.table, Function.update_of_ne hu .., Function.update_of_ne hu ..,
      hgu.own, hgu.current⟩
  · exact Function.update_self ..
  · have hbegan : (x.1.begin t a s).began t = x.1.time := Function.update_self ..
    have hnot : i ∉ x.2.2 := fun hmem => (hx.logged.began_lt hx.ticks hmem).ne (hi.trans hbegan)
    simp [hnot]

/-- A call ends that has taken effect. -/
theorem Inv.finish (hx : Inv X S₀ x) (hc : InCall t a (some (.inr r)) x) (hi : DtInv X (s, g))
    (hg : (dtProtocol X).guar t (low x) (s, g))
    (hfree : ∀ b, g.owner b = none → x.2.1.owner b = none ∧
      (s.table.bucket b).version = version x b) : let y : World L ω :=
  (x.1.finish t a r s, g, x.2.2)
    Inv X S₀ y ∧ (protocol X S₀).guar t x y ∧ y.1.active t = none := by
  obtain ⟨hq, hg'⟩ := hx.quiet hi hg hfree
  refine ⟨⟨hq.table, hx.ticks.finish hc.active, hx.logged.finish hx.ticks hc.active hc.mem, hq.good,
    hq.notes, hq.lists⟩, fun u hu => ?_, Function.update_self ..⟩
  have hgu := hg' u hu
  exact ⟨hgu.table, Function.update_of_ne hu .., rfl, hgu.own, hgu.current⟩

/-- A call ends that leaves the table as it is. -/
theorem post_of_idle (hfin : ∀ x y : Shared L ω, dtFinish L t a r x y → y = x) (hx : Inv X S₀ x)
    (hidle : (dtProtocol X).idle t (low x)) (hc : InCall t a (some (.inr r)) x) :
    Protocol.post (exactMachine L X ω) (protocol X S₀) t a r x := by
  rintro s' ⟨s, hs, rfl⟩
  obtain rfl := hfin _ _ hs
  obtain ⟨hi, hg, hact⟩ := hx.finish hc hx.table ((dtProtocol X).guar_refl t _) fun b hb =>
    ⟨hb, rfl⟩
  exact ⟨_, hi, hg, hidle, hact⟩

theorem call_allocate (hx : Inv X S₀ x) (hbegun : Begun X t (.allocate h special) x)
    (hs : special < 2 ^ L.S) :
    (protocol X S₀).wp (exactMachine L X ω) t (dtCode L X (.allocate h special))
      (Protocol.post (exactMachine L X ω) (protocol X S₀) t (.allocate h special)) x := by
  unfold dtCode
  simp only [bind_eq, pure_eq]
  refine Protocol.wp_bind hx (Protocol.wp_mono (wp_allocate hs hx hbegun) fun r y hy hr => ?_)
  refine Protocol.wp_ret fun z hz hiz => ?_
  obtain ⟨hpost, hcall⟩ := hr.rely hz
  cases r with
  | error e => exact post_of_idle (fun _ _ hfin => hfin) hiz hpost hcall
  | ok r =>
    rintro s' ⟨s, hs, rfl⟩
    obtain rfl : s = { z.1.st with owned := ⟨r.1, h, r.2⟩ :: z.1.st.owned } := hs
    obtain ⟨hf, ho, hslot⟩ := hpost
    obtain ⟨hi', hg, hidle⟩ := finish_allocate hiz.table hf ho hslot
    obtain ⟨hi, hg', hact⟩ := hiz.finish hcall hi' hg fun b hb => ⟨hb, rfl⟩
    exact ⟨_, hi, hg', hidle, hact⟩

theorem call_free {e : Allocation L} (hx : Inv X S₀ x)
    (hslot : DerefTable.slotOf X e.ptr e.hashes = e.slot) (hfl : x.2.1.flight t = some e.slot)
    (ho : ∀ c, x.2.1.owner c ≠ some t) (hc : InCall t (.free e) none x) :
    (protocol X S₀).wp (exactMachine L X ω) t (dtCode L X (.free e))
      (Protocol.post (exactMachine L X ω) (protocol X S₀) t (.free e)) x := by
  unfold dtCode
  simp only [bind_eq, pure_eq]
  refine Protocol.wp_bind hx (Protocol.wp_mono (wp_free hslot hfl ho hc) fun r y hy hr => ?_)
  exact Protocol.wp_ret fun z hz hiz => post_of_idle (fun _ _ hfin => hfin) hiz
    ((dtProtocol X).idle_rely hr.1 hz.table) (hr.2.rely hz)

/-- Every call that a thread may make is verified. -/
theorem calls (t : ℕ) (a : DtCall L ω) (x : World L ω)
    (s' : Clocked (Shared L ω) ℕ (DtCall L ω) (DtRet L)) (hx : Inv X S₀ x)
    (hidle : (protocol X S₀).idle t x) (ha : (exactMachine L X ω).invoke t a x.1 s') :
    ∃ g', Inv X S₀ (s', g') ∧ (protocol X S₀).guar t x (s', g') ∧
      (protocol X S₀).wp (exactMachine L X ω) t ((exactMachine L X ω).code a)
        (Protocol.post (exactMachine L X ω) (protocol X S₀) t a) (s', g') := by
  obtain ⟨s, hs, rfl⟩ := ha
  obtain ⟨hidle, hact⟩ := hidle
  cases a with
  | allocate h special =>
    obtain ⟨hs, rfl⟩ : special < 2 ^ L.S ∧ s = x.1.st := hs
    obtain ⟨hi, hg, hc⟩ := hx.begin hact hx.table ((dtProtocol X).guar_refl t _) fun b hb =>
      ⟨hb, rfl⟩
    exact ⟨_, hi, hg, call_allocate hi ⟨hidle, hc⟩ hs⟩
  | free e =>
    obtain ⟨he, rfl⟩ : e ∈ x.1.st.owned ∧ s = { x.1.st with owned := x.1.st.owned.erase e } := hs
    obtain ⟨hi', hg'⟩ := invoke_free hx.table hidle he
    obtain ⟨hi, hg, hc⟩ := hx.begin hact hi' hg' fun b hb => ⟨hb, rfl⟩
    exact ⟨_, hi, hg, call_free hi (hx.table.slotOf e he) (Function.update_self ..) hidle.2 hc⟩
  | write e o =>
    obtain ⟨he, rfl⟩ : e ∈ x.1.st.owned ∧
      s = { x.1.st with table := x.1.st.table.write e.slot o } := hs
    obtain ⟨hi', hg'⟩ := invoke_write (t := t) (o := o) hx.table he
    have hver : ∀ b, ((x.1.st.table.write e.slot o).bucket b).version = version x b := by
      intro b
      rw [Table.write, Table.modify_bucket]
      split_ifs with hb
      · rw [hb]
      · rfl
    obtain ⟨hi, hg, hc⟩ := hx.begin hact hi' hg' fun b hb => ⟨hb, hver b⟩
    have hidle' : (dtProtocol X).idle t (({ x.1.st with table := x.1.st.table.write e.slot o } :
      Shared L ω), x.2.1) := hidle
    -- it takes effect at once
    obtain ⟨hi₁, hg₁, hc₁⟩ := hi.append (q := .inr .done) hc
      (hi.good.push .write fun u hu => ⟨hu, trivial⟩) LogObject.after_append fun u hu => by cases hu
    refine ⟨_, hi₁, fun u hu => (protocol X S₀).rely_trans (hg u hu) (hg₁ u hu),
      Protocol.wp_ret fun z hz hiz => ?_⟩
    exact post_of_idle (fun _ _ hfin => hfin) hiz
      ((dtProtocol X).idle_rely hidle' hz.table) (hc₁.rely hz)

end TableLog

open TableLog DtProof in
/-- **Linearizability**: in every run in which no word goes round under a reader, the calls take
effect one after another as those of stacks, each between its beginning and its end. -/
theorem derefTable_linearizable {storage : ℕ → ℕ → ω} {T₀ : Table ω}
    (h₀ : DerefTable.construct L X storage = some T₀)
    {c : Machine.Cfg (DtOp ω) (Clocked (Shared L ω) ℕ (DtCall L ω) (DtRet L)) ℕ
      (DtCall L ω) (DtRet L)}
    (hc : (exactMachine L X ω).Steps (Machine.idleCfg (.initial ⟨T₀, []⟩)) c) :
    Linearizable (StackStep X) (T₀.freeLists L) c.st.history := by
  obtain ⟨hwf, hheld⟩ := DerefTable.construct_eq_some h₀
  have hinv : DtInv X ((⟨T₀, []⟩ : Shared L ω), (⟨fun _ => none, fun _ => none⟩ : DtGhost)) := by
    refine ⟨fun b => ?_, fun b hb _ => hwf.lists b hb, hwf.held_nodup, hwf.held_lt,
      List.nodup_nil, ?_, ?_, ?_, ?_⟩
    · simpa using hwf.quiet b
    all_goals simp [Shared.slots]
  have hinit : Inv X (T₀.freeLists L)
      ((.initial ⟨T₀, []⟩, ⟨fun _ => none, fun _ => none⟩, []) : World L ω) :=
    ⟨hinv, .initial, .initial, trivial, by simp, fun b hb _ => rfl⟩
  have hidle : ∀ t, (protocol X (T₀.freeLists L)).idle t
      ((.initial ⟨T₀, []⟩, ⟨fun _ => none, fun _ => none⟩, []) : World L ω) :=
      fun t => ⟨⟨rfl, by simp⟩, rfl⟩
  obtain ⟨g, hg, -⟩ := Protocol.sound (P := protocol X (T₀.freeLists L)) hinit hidle calls hc
  exact hg.logged.linearizes hg.ticks hg.good

namespace WrapAround

/-- A configuration of threads that share one bucket, with a clock. -/
abbrev ClockedCfg : Type 1 := Machine.Cfg (DtOp oneByte.Bytes)
  (Clocked (Shared layout oneByte.Bytes) ℕ (DtCall layout oneByte.Bytes) (DtRet layout)) ℕ
  (DtCall layout oneByte.Bytes) (DtRet layout)

/-- What has ended: when it began, and when it ended. -/
def spans (c : ClockedCfg) : List (ℕ × Option ℕ) :=
  c.st.ended.map fun o => (o.began, o.answered.map Prod.snd)

/-- The schedule of two threads: the first two calls overlap, as do the last two. -/
theorem derefTable_linearizable_schedule : ∃ (T₀ : Table oneByte.Bytes) (c : ClockedCfg),
    DerefTable.construct layout oneBucket (fun _ _ => zeros) = some T₀ ∧
      (exactMachine layout oneBucket oneByte.Bytes).Steps (Machine.idleCfg (.initial ⟨T₀, []⟩)) c ∧
      c.st.st.owned = [allocationOf 0 15, allocationOf 1 3] ∧
      spans c = [(7, some 9), (6, some 8), (4, some 5), (0, some 3), (1, some 2)] ∧
      Linearizable (StackStep oneBucket) (T₀.freeLists layout) c.st.history := by
  obtain ⟨T₀, h₀⟩ := exists_construct
  let E := ((dtExecutor layout (ω := oneByte.Bytes) oneBucket).restrict (fun t o x => Exact t o x)
    (fun t o x => checkExact t o x) exact_of_check).clocked
  have hplay : ((DerefTable.construct layout oneBucket fun _ _ => zeros).bind fun T =>
      (E.play schedule (Machine.idleCfg (.initial ⟨T, []⟩))).map fun c =>
        (c.st.st.owned, spans c)) =
        some ([allocationOf 0 15, allocationOf 1 3], [(7, some 9), (6, some 8), (4, some 5),
        (0, some 3), (1, some 2)]) := by
    decide
  rw [h₀, Option.bind_some] at hplay
  obtain ⟨c, hc, hseen, -⟩ := E.exists_steps schedule (fun c => (c.st.st.owned, spans c)) hplay
  obtain ⟨howned, hspans⟩ := Prod.mk.inj hseen
  exact ⟨T₀, c, h₀, hc, howned, hspans, derefTable_linearizable h₀ hc⟩

end WrapAround

end TinyPointerTrees
