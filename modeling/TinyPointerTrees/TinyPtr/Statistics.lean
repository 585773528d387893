import TinyPointerTrees.TinyPtr.Counting

/-!
# The statistics of a shared table

What `size()` and `max_reached_size()` are good for when any number of threads allocate and
free.

* `tallied_iff` — once all calls have returned they agree with the record of what was committed,
  as long as the assertion of `size()` holds; the free counts agree with it at any time.
* `sums_range` — the assertion of `size()` holds on the overflow path of `allocate` if nothing
  is counted meanwhile. That is not so in general: a thread that has put an entry back may not
  have counted that, while another has already counted its next owner.
-/

namespace TinyPointerTrees

open Conc Conc.Prog

variable {L : Layout} {ω : Type} [Storage L ω] {X : BucketIndexer}

/-! ### A call while the others wait -/

section Alone

variable {x y : Recorded L ω} {t : ℕ} {α : Type} {a : α}

/-- A program runs alone as it does without the record. -/
theorem runs_recorded {p : Prog (DtOp ω) α} {T : Table ω} (h : Runs (dtHandler L t) p x.table a T) :
    ∃ y, y.table = T ∧ y.owned = x.owned ∧ Runs ((countExecutor L X).handler t) p x a y := by
  obtain ⟨n, h⟩ := h
  induction n generalizing p x with
  | zero => cases p with
    | ret b =>
      simp only [run_ret, Option.some.injEq, Prod.mk.injEq] at h
      obtain ⟨rfl, rfl⟩ := h
      exact ⟨x, rfl, rfl, (runs_ret _).mpr ⟨rfl, rfl⟩⟩
    | call o k => simp [run] at h
    | loop body b k => simp [run] at h
  | succ n ih => cases p with
    | ret b =>
      simp only [run_ret, Option.some.injEq, Prod.mk.injEq] at h
      obtain ⟨rfl, rfl⟩ := h
      exact ⟨x, rfl, rfl, (runs_ret _).mpr ⟨rfl, rfl⟩⟩
    | call o k =>
      simp only [run_call, Option.bind_eq_some_iff] at h
      obtain ⟨⟨b, T'⟩, hexec, h⟩ := h
      obtain ⟨y, hT, howned, hy⟩ := ih (x := { x.record L t o with table := T' }) h
      refine ⟨y, hT, howned.trans (x.record_owned t o),
        (runs_call _).mpr ⟨(b, { x.record L t o with table := T' }), ?_, hy⟩⟩
      exact Option.map_eq_some_iff.mpr ⟨_, hexec, rfl⟩
    | loop body b k =>
      rw [run_loop] at h
      obtain ⟨y, hT, howned, hy⟩ := ih h
      exact ⟨y, hT, howned, (runs_loop _).mpr hy⟩

/-- A whole call of a thread, while the others wait. -/
theorem steps_call {run : ℕ → Option (DtCall L ω × Prog (DtOp ω) (DtRet L))} {call : DtCall L ω}
    {r : DtRet L} {w z : Shared L ω} (hrun : run t = none) (hinv : dtInvoke L t call x.toShared w)
    (hcode : Runs ((countExecutor L X).handler t) (dtCode L X call) { x with toShared := w } r y)
    (hfin : dtFinish L t call r y.toShared z) :
    (countMachine L X).Steps ⟨x, run⟩ ⟨{ y with toShared := z }, run⟩ := by
  have h₁ : (countMachine L X).Step ⟨x, run⟩ (Machine.Cfg.put ⟨x, run⟩ t { x with toShared := w }
      (some (call, (countMachine L X).code call))) := .invoke hrun ⟨w, hinv, rfl⟩
  have h₂ := Machine.steps_of_reaches (H := (countExecutor L X).handler t)
    (countMachine L X) id (t := t) (fun _ _ _ _ h => h) ⟨x, run⟩ (a := call) hcode.reaches
  have h₃ := Machine.Step.finish (M := countMachine L X) (c := Machine.Cfg.put ⟨x, run⟩ t y
    (some (call, .ret r))) (Machine.Cfg.put_run_self ..) ⟨z, hfin, rfl⟩
  have hput : (Machine.Cfg.put (Machine.Cfg.put ⟨x, run⟩ t y (some (call, .ret r))) t
    { y with toShared := z } none :
      CountCfg L ω) = ⟨{ y with toShared := z }, run⟩ := by
    rw [Machine.Cfg.put_put, Machine.Cfg.put, ← hrun, Function.update_eq_self]
  rw [Machine.Cfg.put_st, hput] at h₃
  exact .head h₁ (h₂.tail h₃)

/-- An allocation, while the others wait. -/
theorem steps_allocate {run : ℕ → Option (DtCall L ω × Prog (DtOp ω) (DtRet L))} {h : TinyPtrHashes}
    {special : ℕ} {T : Table ω} {p : TinyPtr L} {s : Slot} (hrun : run t = none)
    (hx : x.table.Wf L X) (hs : special < 2 ^ L.S) (hp : x.table.Passes L X (x.table.chosen X h))
    (ha : x.table.allocate L X t h special = (.ok (p, s), T)) :
    ∃ y : Recorded L ω, (countMachine L X).Steps ⟨x, run⟩ ⟨y, run⟩ ∧ y.table = T := by
  have hcode : Runs (dtHandler L t) (dtCode L X (.allocate h special)) x.table
    (.allocated (.ok (p, s))) T := by
    show Runs (dtHandler L t) (Prog.bind _ _) _ _ _
    exact (runs_bind _).mpr ⟨_, T, (hx.runs_allocate hs).mpr ⟨hp, ha⟩, (runs_ret _).mpr ⟨rfl, rfl⟩⟩
  obtain ⟨y, hT, -, hy⟩ := runs_recorded (X := X) hcode
  have hinv : dtInvoke L t (.allocate h special) x.toShared x.toShared := ⟨hs, rfl⟩
  exact ⟨_, steps_call (z := { y.toShared with owned := ⟨p, h, s⟩ :: y.owned }) hrun
    hinv hy rfl, hT⟩

end Alone

/-! ### Once all have returned -/

/-- The invariant, in runs without a condition. -/
theorem exists_countInv_of_steps {storage : ℕ → ℕ → ω} {T₀ : Table ω}
    (h₀ : DerefTable.construct L X storage = some T₀) {c : CountCfg L ω}
    (hc : (countMachine L X).Steps (Machine.idleCfg { table := T₀, owned := [] }) c) :
    ∃ g, CountInv X False (c.st, g) ∧ ∀ t, c.run t = none →
      (countProtocol X False).idle t (c.st, g) := by
  apply exists_countInv False h₀
  exact Machine.Steps.restrict _ (fun _ _ _ h => h.elim) hc

/-- The counters agree with the record in every configuration of every run, except that the
assertion of `size()` fails when there are more objects than `capacity()` says. -/
theorem tallied_iff {storage : ℕ → ℕ → ω} {T₀ : Table ω}
    (h₀ : DerefTable.construct L X storage = some T₀) {c : CountCfg L ω}
    (hc : (countMachine L X).Steps (Machine.idleCfg { table := T₀, owned := [] }) c) :
    Tallied X c ↔ ((∀ t, c.run t = none) → inUse c.st.history ≤ DerefTable.capacity L X) := by
  obtain ⟨g, hg, hidle⟩ := exists_countInv_of_steps h₀ hc
  have hnonneg : 0 ≤ inUse c.st.history := hg.inUse_nonneg
  have hsettled : (∀ t, c.run t = none) → _ := fun h => hg.settled fun u => (hidle u (h u)).2.1
  constructor
  · intro h hdone
    obtain ⟨n, hn, -⟩ := h.size hdone
    rw [← (hsettled hdone).1]
    exact (Table.size_eq_some_iff.mp hn).2
  · intro hle
    refine ⟨fun b hb hw => ⟨?_, CountProof.frees_le hg b⟩, fun hdone => ?_,
      fun hdone => hg.inUse_eq_length fun u => (hidle u (hdone u)).1, fun hdone =>
      (hsettled hdone).2.1, fun hdone hf n hn => ?_⟩
    · apply hg.count b hb
      apply (hg.lock b).mp
      unfold lockWord at hw
      simp only
      omega
    · refine ⟨(inUse c.st.history).toNat, ?_, Int.toNat_of_nonneg hnonneg⟩
      rw [Table.size_eq_some_iff, (hsettled hdone).1]
      exact ⟨Int.toNat_of_nonneg hnonneg, hle hdone⟩
    · rw [(Table.size_eq_some_iff.mp hn).1]
      exact (hsettled hdone).2.2 hf

/-- The schedule of two threads, one of which frees what the other then takes: all is accounted
for. -/
theorem tallied_schedule :
    ∃ (T₀ : Table WrapAround.oneByte.Bytes)
      (c : CountCfg WrapAround.layout WrapAround.oneByte.Bytes),
      DerefTable.construct WrapAround.layout WrapAround.oneBucket (fun _ _ => WrapAround.zeros) =
      some T₀ ∧ (countMachine WrapAround.layout WrapAround.oneBucket).Steps
      (Machine.idleCfg { table := T₀, owned := [] }) c ∧ c.st.history = [.took 0, .gave 0, .took 0,
      .took 0] ∧ (∀ t, c.run t = none) ∧ Tallied WrapAround.oneBucket c := by
  obtain ⟨T₀, h₀⟩ := WrapAround.exists_construct
  let E := countExecutor (ω := WrapAround.oneByte.Bytes) WrapAround.layout WrapAround.oneBucket
  let observe (c : CountCfg WrapAround.layout WrapAround.oneByte.Bytes) :=
    (c.st.history, (c.run 0).isSome, (c.run 1).isSome)
  have hplay : ((DerefTable.construct WrapAround.layout WrapAround.oneBucket fun _ _ =>
    WrapAround.zeros).bind fun T =>
      (E.play WrapAround.schedule (Machine.idleCfg { table := T, owned := [] })).map observe) =
        some ([.took 0, .gave 0, .took 0, .took 0], false, false) := by decide
  rw [h₀, Option.bind_some] at hplay
  obtain ⟨c, hc, hseen, hothers⟩ := E.exists_steps WrapAround.schedule observe hplay
  obtain ⟨hhist, hruns⟩ := Prod.mk.inj hseen
  obtain ⟨hrun₀, hrun₁⟩ := Prod.mk.inj hruns
  have hthreads : ∀ t ∈ WrapAround.schedule.map Machine.Turn.thread, t = 0 ∨ t = 1 := by decide
  refine ⟨T₀, c, h₀, hc, hhist, fun t => ?_, (tallied_iff h₀ hc).mpr fun _ => ?_⟩
  · by_cases ht : t ∈ WrapAround.schedule.map Machine.Turn.thread
    · rcases hthreads t ht with rfl | rfl
      · simpa using hrun₀
      · simpa using hrun₁
    · exact hothers t ht
  · rw [hhist]
    decide

/-! 2^26 buckets of 127 entries hold more than 2^32 objects, and `capacity()` is narrowed. The
client asks for an entry in a bucket that is not full until there are 2^32 objects; then the
assertion of `size()` fails. -/

namespace Wide

theorem index_bit : 0 + 1 < 8 := by decide

/-- `TinyPtr<uint8_t, 0>`: 127 entries to a bucket. -/
def layout : Layout := .byte 0 index_bit

theorem special_lt : 0 < 2 ^ layout.S := by decide

theorem sizeof_ge : layout.bucketIndexWidth ≤ 8 * 1 := by decide

/-- Objects of one byte. -/
def object : ObjectType layout := ⟨1, sizeof_ge⟩

theorem buckets_lt : 2 ^ 26 < 2 ^ 32 := by norm_num

theorem index_lt (h : UInt64) : h.toNat % 2 ^ 26 < 2 ^ 26 := Nat.mod_lt _ (by norm_num)

/-- 2^26 buckets. -/
def indexer : BucketIndexer := ⟨2 ^ 26, fun h => h.toNat % 2 ^ 26, buckets_lt, index_lt⟩

theorem exists_hash {b : ℕ} (hb : b < 2 ^ 26) : ∃ h, indexer.index h = b := by
  refine ⟨UInt64.ofNat b, ?_⟩
  have hlt : b < 2 ^ 64 := hb.trans (by norm_num)
  show (UInt64.ofNat b).toNat % 2 ^ 26 = b
  rw [UInt64.toNat_ofNat_of_lt' hlt, Nat.mod_eq_of_lt hb]

/-- Storage that nobody has written. -/
def zeros : object.Bytes := fun _ => 0

theorem exists_construct :
    ∃ T₀, DerefTable.construct layout indexer (fun _ _ => zeros) = some T₀ := by
  rw [← Option.ne_none_iff_exists', Ne, DerefTable.construct_eq_none]
  decide

/-- Any number of objects up to the number of entries. -/
theorem exists_filled {T₀ : Table object.Bytes} (hwf : T₀.Wf layout indexer) (hheld : T₀.held = [])
    (n : ℕ) (hn : n ≤ 2 ^ 26 * 127) :
    ∃ x : Recorded layout object.Bytes, (countMachine layout indexer).Steps
      (Machine.idleCfg { table := T₀, owned := [] }) (Machine.idleCfg x) ∧
      x.table.Wf layout indexer ∧ x.table.held.length = n := by
  induction n with
  | zero => exact ⟨_, .refl, hwf, by rw [hheld, List.length_nil]⟩
  | succ n ih =>
    obtain ⟨x, hsteps, hx, hlen⟩ := ih (by omega)
    obtain ⟨b, hb, hfree⟩ := hx.exists_free (by rw [hlen]; exact hn)
    obtain ⟨h, rfl⟩ := exists_hash hb
    have hchosen : x.table.chosen indexer (h, h) = indexer.index h := ite_self _
    obtain ⟨⟨p, s⟩, T, ha⟩ : ∃ r T, x.table.allocate layout indexer 0 (h, h) 0 = (.ok r, T) :=
      Table.exists_allocate_ok (hchosen ▸ hfree)
    have hpasses : x.table.Passes layout indexer (x.table.chosen indexer (h, h)) := by
      rw [Table.Passes, hchosen, if_neg hfree]
      exact (TinyPtr.bounded_iff layout).mpr (.inl (by decide))
    have hidle : (Machine.idleCfg x : CountCfg layout object.Bytes).run 0 = none := rfl
    obtain ⟨y, hy, rfl⟩ := steps_allocate hidle hx special_lt hpasses ha
    refine ⟨y, hsteps.trans hy, hx.of_allocate ha, ?_⟩
    rw [(hx.allocated special_lt ha).held, List.length_cons, hlen]

end Wide

open Wide in
/-- With 2^32 objects `size()` does not answer their number. -/
theorem not_tallied :
    ¬ ∀ (L : Layout) (τ : ObjectType L) (X : BucketIndexer) (storage : ℕ → ℕ → τ.Bytes)
      (T₀ : Table τ.Bytes), DerefTable.construct L X storage = some T₀ →
      ∀ c, (countMachine L X).Steps (Machine.idleCfg { table := T₀, owned := [] }) c →
      Tallied X c := by
  intro htallied
  obtain ⟨T₀, h₀⟩ := exists_construct
  obtain ⟨hwf, hheld⟩ := DerefTable.construct_eq_some h₀
  obtain ⟨x, hsteps, hx, hlen⟩ := exists_filled hwf hheld (2 ^ 32) (by norm_num)
  obtain ⟨n, hn, -⟩ := (htallied layout object indexer _ T₀ h₀ _ hsteps).size fun _ => rfl
  have hle := (hx.size_eq_some_iff.mp hn).2
  have hcap : DerefTable.capacity layout indexer < 2 ^ 32 := Nat.mod_lt _ (by norm_num)
  omega

/-! ### On the overflow path -/

/-- There are never more objects than `capacity()` says, if the table has fewer than 2^32
entries. -/
theorem inUse_le_capacity {storage : ℕ → ℕ → ω} {T₀ : Table ω}
    (h₀ : DerefTable.construct L X storage = some T₀)
    (hX : X.buckets * L.entriesPerBinCount < 2 ^ 32) {c : CountCfg L ω}
    (hc : (countMachine L X).Steps (Machine.idleCfg { table := T₀, owned := [] }) c) :
    inUse c.st.history ≤ DerefTable.capacity L X := by
  obtain ⟨g, hg, -⟩ := exists_countInv_of_steps h₀ hc
  rw [DerefTable.capacity, Nat.mod_eq_of_lt hX]
  exact hg.inUse_le

/-- In every run in which no thread is disturbed when it adds up the counters, the sums are between
`0` and `capacity()`. -/
theorem sums_range {storage : ℕ → ℕ → ω} {T₀ : Table ω}
    (h₀ : DerefTable.construct L X storage = some T₀) {c : CountCfg L ω}
    (hc : ((countMachine L X).restrict fun _ o x => Undisturbed X x o).Steps
      (Machine.idleCfg { table := T₀, owned := [] }) c) :
    ∀ s ∈ c.st.sums, 0 ≤ s ∧ s ≤ DerefTable.capacity L X := by
  obtain ⟨g, hg, -⟩ := exists_countInv True h₀ (by simpa only [true_imp_iff] using hc)
  exact hg.sums trivial

/-! ### One bucket with one entry -/

namespace Uncounted

theorem index_bit : 6 + 1 < 8 := by decide

/-- `TinyPtr<uint8_t, 6>`: one entry to a bucket. -/
def layout : Layout := .byte 6 index_bit

theorem sizeof_ge : layout.bucketIndexWidth ≤ 8 * 1 := by decide

/-- Objects of one byte. -/
def object : ObjectType layout := ⟨1, sizeof_ge⟩

theorem buckets_lt : 1 < 2 ^ 32 := by norm_num

theorem index_lt (_ : UInt64) : 0 < 1 := Nat.one_pos

/-- One bucket. -/
def indexer : BucketIndexer := ⟨1, fun _ => 0, buckets_lt, index_lt⟩

/-- Storage that nobody has written. -/
def zeros : object.Bytes := fun _ => 0

theorem exists_construct :
    ∃ T₀, DerefTable.construct layout indexer (fun _ _ => zeros) = some T₀ := by
  rw [← Option.ne_none_iff_exists', Ne, DerefTable.construct_eq_none]
  decide

/-- A call of `allocate`. -/
abbrev take : DtCall layout object.Bytes := .allocate (0, 0) 0

/-- What it returns. -/
def taken : Allocation layout := ⟨.ofFields 0 0 false, (0, 0), ⟨0, 0⟩⟩

/-- Thread `0` takes the entry and is delayed before it counts that; thread `1` asks for one, then
and later. -/
def delayed : List (Machine.Turn ℕ (DtCall layout object.Bytes)) :=
  [.call 0 take, .goes 0 13, .call 1 take, .goes 1 40, .returns 1, .goes 0 5, .returns 0,
    .call 1 take, .goes 1 40, .returns 1]

theorem sums_range_delayed : ∃ (T₀ : Table object.Bytes) (c : CountCfg layout object.Bytes),
    DerefTable.construct layout indexer (fun _ _ => zeros) = some T₀ ∧
      ((countMachine layout indexer).restrict fun _ o x => Undisturbed indexer x o).Steps
        (Machine.idleCfg { table := T₀, owned := [] }) c ∧ c.st.sums = [1, 0] ∧
      ∀ s ∈ c.st.sums, 0 ≤ s ∧ s ≤ DerefTable.capacity layout indexer := by
  obtain ⟨T₀, h₀⟩ := exists_construct
  let E := (countExecutor (ω := object.Bytes) layout indexer).restrict (fun _ o x =>
    Undisturbed indexer x o) (fun _ o x => checkUndisturbed indexer x o) undisturbed_of_check
  have hplay : ((DerefTable.construct layout indexer fun _ _ => zeros).bind fun T =>
      (E.play delayed (Machine.idleCfg { table := T, owned := [] })).map fun c => c.st.sums) =
        some [1, 0] := by decide
  rw [h₀, Option.bind_some] at hplay
  obtain ⟨c, hc, hsums, -⟩ := E.exists_steps delayed (fun c => c.st.sums) hplay
  exact ⟨T₀, c, h₀, hc, hsums, sums_range h₀ hc⟩

/-- Thread `0` has an object; thread `1` frees it, up to where it counts that. Thread `0` takes the
entry again and counts that, and asks for another: the sum is `2`. -/
def uncounted : List (Machine.Turn ℕ (DtCall layout object.Bytes)) :=
  [.call 0 take, .goes 0 40, .returns 0, .call 1 (.free taken), .goes 1 6, .call 0 take,
    .goes 0 40, .returns 0, .call 0 take, .goes 0 40]

end Uncounted

open Uncounted in
/-- The sum that is asserted on the overflow path can be more than the capacity. -/
theorem not_sums_range :
    ¬ ∀ (L : Layout) (τ : ObjectType L) (X : BucketIndexer) (storage : ℕ → ℕ → τ.Bytes)
      (T₀ : Table τ.Bytes), DerefTable.construct L X storage = some T₀ →
      ∀ c, (countMachine L X).Steps (Machine.idleCfg { table := T₀, owned := [] }) c →
        ∀ s ∈ c.st.sums, 0 ≤ s ∧ s ≤ DerefTable.capacity L X := by
  intro hrange
  obtain ⟨T₀, h₀⟩ := exists_construct
  let E := countExecutor (ω := object.Bytes) layout indexer
  have hplay : ((DerefTable.construct layout indexer fun _ _ => zeros).bind fun T =>
      (E.play uncounted (Machine.idleCfg { table := T, owned := [] })).map fun c => c.st.sums) =
        some [2] := by decide
  rw [h₀, Option.bind_some] at hplay
  obtain ⟨c, hc, hsums, -⟩ := E.exists_steps uncounted (fun c => c.st.sums) hplay
  have hmem : 2 ∈ c.st.sums := by
    rw [hsums]
    exact List.mem_singleton_self 2
  exact absurd (hrange layout object indexer _ T₀ h₀ c hc 2 hmem).2 (by decide)

end TinyPointerTrees
