import TinyPointerTrees.Art.Tree

/-!
# The memory of the tiny ART

What the operations of a tree do to its tables and its deletion list. `Heap.Wf` says
that every table keeps its free lists; `Allocated` is what an allocation that
succeeds does, and `exit_spec` what the end of an epoch does: it frees some of the
entries that are pending, and nothing else.
-/

namespace TinyPointerTrees.Art

open Conc

namespace Heap

variable {V : Variant} {X : ℕ → BucketIndexer} {s s' : Heap V} {n m : Ref} {o : Obj V} {t c : ℕ}

/-- Every table keeps its free lists. -/
def Wf (X : ℕ → BucketIndexer) (s : Heap V) : Prop := ∀ c, (s.tables c).Wf V.layout (X c)

/-! ### Writes -/

@[simp] theorem setTable_tables_self (T : Table (Obj V)) : (s.setTable c T).tables c = T := by
  simp [setTable]

theorem setTable_tables_ne {d : ℕ} (h : d ≠ c) (T : Table (Obj V)) :
    (s.setTable c T).tables d = s.tables d := by
  simp [setTable, h]

@[simp] theorem deletionLists_set : (s.set n o).deletionLists = s.deletionLists := rfl

@[simp] theorem currentEpoche_set : (s.set n o).currentEpoche = s.currentEpoche := rfl

@[simp] theorem live_set : (s.set n o).Live m ↔ s.Live m := by
  unfold Live set
  by_cases h : m.special = n.special
  · rw [h, setTable_tables_self]
    rfl
  · rw [setTable_tables_ne h]

theorem get_set_self : (s.set n o).get n = o := by
  unfold get set
  rw [setTable_tables_self]
  exact Table.read_write_self o

theorem get_set_ne (h : m ≠ n) : (s.set n o).get m = s.get m := by
  unfold get set
  by_cases hs : m.special = n.special
  · have hslot : m.slot ≠ n.slot := by
      intro e
      exact h (by cases m; cases n; simp_all)
    rw [hs, setTable_tables_self]
    exact Table.read_write_ne hslot o
  · rw [setTable_tables_ne hs]

theorem Wf.set (h : s.Wf X) (hn : s.Live n) : (s.set n o).Wf X := by
  intro c
  by_cases hc : c = n.special
  · subst hc
    unfold Heap.set
    rw [setTable_tables_self]
    exact (h _).write hn o
  · unfold Heap.set
    rw [setTable_tables_ne hc]
    exact h c

@[simp] theorem live_modifyList {f : DeletionList V → DeletionList V} :
    (s.modifyList t f).Live m ↔ s.Live m := Iff.rfl

@[simp] theorem get_modifyList {f : DeletionList V → DeletionList V} :
    (s.modifyList t f).get m = s.get m := rfl

@[simp] theorem tables_modifyList {f : DeletionList V → DeletionList V} :
    (s.modifyList t f).tables = s.tables := rfl

/-! ### Allocations -/

variable (X) in
/-- What an allocation that succeeds does, and what it answers: the address of an object that was
not allocated, and a pointer that denotes it. -/
structure Allocated (s s' : Heap V) (c : ℕ) (h : TinyPtrHashes) (p : ArtTinyPtr V) (n : Ref) :
    Prop where
  wf : s'.Wf X
  fresh : ¬ s.Live n
  live : ∀ m, s'.Live m ↔ m = n ∨ s.Live m
  get : ∀ m, s'.get m = s.get m
  table : n.special = c
  special : p.special = c
  refOf : refOf X p h = n
  ne_null : p ≠ .null
  ne_tagged : p ≠ .tagged
  lists : s'.deletionLists = s.deletionLists
  held : (s'.tables c).held = n.slot :: (s.tables c).held
  tables : ∀ d, d ≠ c → s'.tables d = s.tables d

variable (X) in
/-- A bucket of some table has no more than `l` free entries. -/
def Crowded (s : Heap V) (l : ℕ) : Prop :=
  ∃ c, ∃ b < (X c).buckets, (Table.freeIn V.layout (s.tables c).held b).ncard ≤ l

variable (X) in
/-- Both buckets of the hash values are full. -/
def Full (s : Heap V) (c : ℕ) (h : TinyPtrHashes) : Prop :=
  (s.tables c).freeCount₁ (X c) h = 0 ∧ (s.tables c).freeCount₂ (X c) h = 0

theorem full_set {h : TinyPtrHashes} : (s.set n o).Full X c h ↔ s.Full X c h := by
  have hcount : ∀ b, (((s.set n o).tables c).bucket b).freeSlotCount =
    ((s.tables c).bucket b).freeSlotCount := by
    intro b
    unfold Heap.set
    by_cases hc : c = n.special
    · subst hc
      rw [setTable_tables_self, Table.write, Table.modify_bucket]
      split_ifs with hb
      · rw [hb]
      · rfl
    · rw [setTable_tables_ne hc]
  simp only [Full, Table.freeCount₁, Table.freeCount₂, hcount]

theorem Full.crowded {h : TinyPtrHashes} (hf : s.Full X c h) (hs : s.Wf X) : s.Crowded X 0 := by
  refine ⟨c, _, (X c).index_lt h.1, ?_⟩
  have hlist := (hs c).lists _ ((X c).index_lt h.1)
  rw [hlist.count_eq]
  exact hf.1.le

variable (X) in
/-- What an allocation that fails does. -/
structure Refused (s s' : Heap V) : Prop where
  crowded : Crowded X s 0
  wf : s'.Wf X
  live : ∀ m, s'.Live m ↔ s.Live m
  get : ∀ m, s'.get m = s.get m
  lists : s'.deletionLists = s.deletionLists

theorem Wf.allocated (hs : s.Wf X) (hc : c < 2 ^ V.specialBits) {h : TinyPtrHashes}
    {p : ArtTinyPtr V} {slot : Slot} {T' : Table (Obj V)}
    (ha : (s.tables c).allocate V.layout (X c) t h c = (.ok (p, slot), T')) :
    Allocated X s (s.setTable c T') c h p ⟨c, slot⟩ := by
  have hr := (hs c).allocated hc ha
  have hwf : (s.setTable c T').Wf X := by
    intro d
    by_cases hd : d = c
    · subst hd
      rw [setTable_tables_self]
      exact (hs d).of_allocate ha
    · rw [setTable_tables_ne hd]
      exact hs d
  refine ⟨hwf, hr.fresh, fun m => ?_, fun m => ?_, rfl, hr.special, ?_, hr.ne_null,
    hr.ne_tagged, rfl, ?_, ?_⟩
  · unfold Live
    by_cases hm : m.special = c
    · subst hm
      rw [setTable_tables_self, hr.held, List.mem_cons]
      have hiff : m = ⟨m.special, slot⟩ ↔ m.slot = slot := by
        cases m
        simp
      rw [hiff]
    · rw [setTable_tables_ne hm]
      have hne : m ≠ ⟨c, slot⟩ := fun e => hm (congrArg Ref.special e)
      simp [hne]
  · unfold Heap.get
    by_cases hm : m.special = c
    · rw [hm, setTable_tables_self]
      exact Table.read_of_allocate ha _
    · rw [setTable_tables_ne hm]
  · unfold Heap.refOf
    rw [hr.special, hr.slotOf]
  · rw [setTable_tables_self]
    exact hr.held
  · exact fun d hd => setTable_tables_ne hd T'

theorem Wf.refused (hs : s.Wf X) {h : TinyPtrHashes} {e : OverflowError} {T' : Table (Obj V)}
    (ha : (s.tables c).allocate V.layout (X c) t h c = (.error e, T')) :
    Refused X s (s.setTable c T') := by
  have hfull : s.Full X c h := Table.allocate_eq_error_iff.mp ⟨e, congrArg Prod.fst ha⟩
  refine ⟨hfull.crowded hs, fun d => ?_, fun m => ?_, fun m => ?_, rfl⟩
  · by_cases hd : d = c
    · subst hd
      rw [setTable_tables_self]
      exact (hs d).of_allocate ha
    · rw [setTable_tables_ne hd]
      exact hs d
  · unfold Live
    by_cases hm : m.special = c
    · rw [hm, setTable_tables_self, Table.held_of_error ha]
    · rw [setTable_tables_ne hm]
  · unfold Heap.get
    by_cases hm : m.special = c
    · rw [hm, setTable_tables_self]
      exact Table.read_of_allocate ha _
    · rw [setTable_tables_ne hm]

/-! ### The end of an epoch -/

variable (X) in
/-- The objects `F` were freed, and nothing else was changed in the tables. -/
structure Freed (s s' : Heap V) (F : List Ref) : Prop where
  wf : s'.Wf X
  live : ∀ m, s'.Live m ↔ s.Live m ∧ m ∉ F
  get : ∀ m, m ∉ F → s'.get m = s.get m
  lists : s'.deletionLists = s.deletionLists

variable (X) in
/-- The objects that pending entries denote. -/
def refsOf (l : List (PendingDelete V)) : List Ref := l.map fun e => refOf X e.1 e.2

variable (X) in
/-- What is pending can be freed: pointers to different objects that are allocated. -/
structure Freeable (s : Heap V) (l : List (PendingDelete V)) : Prop where
  nodup : (refsOf X l).Nodup
  live : ∀ e ∈ l, s.Live (refOf X e.1 e.2)
  table : ∀ e ∈ l, e.1.special = leafS ∨ (V.nodeType e.1.special).isSome

theorem refsOf_append (l l' : List (PendingDelete V)) :
    refsOf X (l ++ l') = refsOf X l ++ refsOf X l' :=
  List.map_append

theorem Freed.refl (h : s.Wf X) : Freed X s s [] := ⟨h, by simp, fun _ _ => rfl, rfl⟩

theorem Freed.trans {s'' : Heap V} {F F' : List Ref} (h : Freed X s s' F) (h' : Freed X s' s'' F') :
    Freed X s s'' (F ++ F') := by
  refine ⟨h'.wf, fun m => ?_, fun m hm => ?_, h'.lists.trans h.lists⟩
  · rw [h'.live, h.live, List.mem_append]
    tauto
  · rw [List.mem_append, not_or] at hm
    rw [h'.get m hm.2, h.get m hm.1]

theorem Wf.free (hs : s.Wf X) {e : PendingDelete V} (hl : s.Live (refOf X e.1 e.2))
    (ht : e.1.special = leafS ∨ (V.nodeType e.1.special).isSome) :
    ∃ s', s.free X t e = some s' ∧ Freed X s s' [refOf X e.1 e.2] := by
  have hnd := (hs e.1.special).held_nodup
  refine ⟨_, if_pos ⟨ht, hl⟩, fun d => ?_, fun m => ?_, fun m hm => ?_, rfl⟩
  · by_cases hd : d = e.1.special
    · subst hd
      rw [setTable_tables_self]
      exact (hs _).free hl
    · rw [setTable_tables_ne hd]
      exact hs d
  · rw [List.mem_singleton]
    by_cases hm : m.special = e.1.special
    · have hiff : m = refOf X e.1 e.2 ↔ m.slot = DerefTable.slotOf (X e.1.special) e.1 e.2 := by
        cases m
        simp_all [refOf]
      unfold Live
      rw [hm, setTable_tables_self, hiff]
      show m.slot ∈ (List.erase _ _) ↔ _
      rw [hnd.mem_erase_iff]
      tauto
    · unfold Live
      rw [setTable_tables_ne hm]
      have hne : m ≠ refOf X e.1 e.2 := fun h => hm (congrArg Ref.special h)
      simp [hne]
  · rw [List.mem_singleton] at hm
    unfold Heap.get
    by_cases hs : m.special = e.1.special
    · have hslot : m.slot ≠ DerefTable.slotOf (X e.1.special) e.1 e.2 := by
        intro h
        exact hm (by cases m; simp_all [refOf])
      rw [hs, setTable_tables_self]
      exact Table.read_give hslot
    · rw [setTable_tables_ne hs]

theorem Freeable.left {l l' : List (PendingDelete V)} (h : Freeable X s (l ++ l')) :
    Freeable X s l := by
  have hnd := h.nodup
  rw [refsOf_append, List.nodup_append] at hnd
  exact ⟨hnd.1, fun e he => h.live e (List.mem_append_left _ he), fun e he =>
    h.table e (List.mem_append_left _ he)⟩

theorem Freeable.right {l l' : List (PendingDelete V)} (h : Freeable X s (l ++ l')) :
    Freeable X s l' := by
  have hnd := h.nodup
  rw [refsOf_append, List.nodup_append] at hnd
  exact ⟨hnd.2.1, fun e he => h.live e (List.mem_append_right _ he),
    fun e he => h.table e (List.mem_append_right _ he)⟩

theorem Freeable.after {l l' : List (PendingDelete V)} (h : Freeable X s (l ++ l'))
    (hf : Freed X s s' (refsOf X l)) : Freeable X s' l' := by
  have hnd := h.nodup
  rw [refsOf_append, List.nodup_append] at hnd
  refine ⟨hnd.2.1, fun e he => (hf.live _).mpr ⟨h.right.live e he, fun hm => ?_⟩, h.right.table⟩
  exact hnd.2.2 _ hm _ (List.mem_map_of_mem he) rfl

/-- The loop over the entries of a label. -/
theorem Freeable.freed {l : List (PendingDelete V)} (h : Freeable X s l) (hs : s.Wf X) :
    ∃ s', l.foldlM (free X t) s = some s' ∧ Freed X s s' (refsOf X l) := by
  induction l generalizing s with
  | nil => exact ⟨s, rfl, Freed.refl hs⟩
  | cons e l ih =>
    obtain ⟨s₁, h₁, hf₁⟩ := hs.free (t := t) (h.live e List.mem_cons_self)
      (h.table e List.mem_cons_self)
    obtain ⟨s₂, h₂, hf₂⟩ := ih (Freeable.after (l := [e]) h hf₁) hf₁.wf
    refine ⟨s₂, ?_, hf₁.trans hf₂⟩
    rw [List.foldlM_cons, h₁]
    exact h₂

/-- The loop over the labels: what is freed and what stays make up what was pending. -/
theorem Freeable.freeLabels {ls : List (LabelDelete V)} (oldest : UInt64)
    (h : Freeable X s (ls.flatMap fun l => l.nodes)) (hs : s.Wf X) :
    ∃ kept s' F, Heap.freeLabels X t oldest ls s = some (kept, s') ∧ Freed X s s' F ∧
      (refsOf X (kept.flatMap fun l => l.nodes) ++ F).Perm
      (refsOf X (ls.flatMap fun l => l.nodes)) := by
  induction ls generalizing s with
  | nil => exact ⟨[], s, [], rfl, Freed.refl hs, List.Perm.refl _⟩
  | cons l ls ih =>
    rw [List.flatMap_cons] at h
    unfold Heap.freeLabels
    split_ifs with hl
    · obtain ⟨s₁, h₁, hf₁⟩ := h.left.freed (t := t) hs
      obtain ⟨kept, s₂, F, h₂, hf₂, hp⟩ := ih (h.after hf₁) hf₁.wf
      refine ⟨kept, s₂, _, by rw [h₁]; exact h₂, hf₁.trans hf₂, ?_⟩
      rw [List.flatMap_cons, refsOf_append]
      exact (List.perm_append_comm_assoc _ _ _).trans (hp.append_left _)
    · obtain ⟨kept, s₂, F, h₂, hf₂, hp⟩ := ih h.right hs
      refine ⟨l :: kept, s₂, F, by rw [h₂]; rfl, hf₂, ?_⟩
      rw [List.flatMap_cons, List.flatMap_cons, refsOf_append, refsOf_append, List.append_assoc]
      exact hp.append_left _

variable (X) in
/-- The end of an epoch: the objects `F` were pending and are freed, and the rest stays pending. -/
structure Cleaned (t : ℕ) (s s' : Heap V) (F : List Ref) : Prop where
  wf : s'.Wf X
  live : ∀ m, s'.Live m ↔ s.Live m ∧ m ∉ F
  get : ∀ m, m ∉ F → s'.get m = s.get m
  pending : (refsOf X (s'.deletionLists t).pending ++ F).Perm (refsOf X (s.deletionLists t).pending)

theorem Cleaned.of_labels {s₁ s₂ : Heap V} {F : List Ref} {labels : List (LabelDelete V)}
    (hl : (s₁.deletionLists t).labels = (s.deletionLists t).labels) (ht : s₁.tables = s.tables)
    (hf : Freed X s₁ s₂ F)
    (hp : (refsOf X (labels.flatMap fun l => l.nodes) ++ F).Perm
      (refsOf X ((s₁.deletionLists t).labels.flatMap fun l => l.nodes))) :
    Cleaned X t s (s₂.modifyList t fun d =>
      { d with labels := labels, thresholdCounter := 0 }) F := by
  have hlive : ∀ m, s₁.Live m ↔ s.Live m := by
    intro m
    unfold Live
    rw [ht]
  refine ⟨hf.wf, fun m => ?_, fun m hm => ?_, ?_⟩
  · rw [live_modifyList, hf.live, hlive]
  · rw [get_modifyList, hf.get m hm]
    unfold Heap.get
    rw [ht]
  · unfold DeletionList.pending
    rw [← hl]
    simpa [modifyList] using hp

@[simp] theorem tables_countEpoche : (s.countEpoche t).tables = s.tables := by
  unfold countEpoche
  split_ifs <;> rfl

@[simp] theorem deletionLists_countEpoche : (s.countEpoche t).deletionLists = s.deletionLists := by
  unfold countEpoche
  split_ifs <;> rfl

theorem Wf.exitEpocheAndCleanup (hs : s.Wf X) (h : Freeable X s (s.deletionLists t).pending) :
    ∃ s' F, s.exitEpocheAndCleanup X t = some s' ∧ Cleaned X t s s' F := by
  have hnone : ∀ s' : Heap V, s'.tables = s.tables →
    (s'.deletionLists t).labels = (s.deletionLists t).labels →
      Cleaned X t s s' [] := by
    intro s' ht hl
    have hp : (s'.deletionLists t).pending = (s.deletionLists t).pending := by
      unfold DeletionList.pending
      rw [hl]
    refine ⟨fun c => ht ▸ hs c, fun m => ?_, fun m _ => ?_, ?_⟩
    · unfold Live
      simp [ht]
    · unfold Heap.get
      rw [ht]
    · rw [hp, List.append_nil]
  unfold Heap.exitEpocheAndCleanup
  simp only
  split_ifs with h₁ h₂
  · refine ⟨_, [], rfl, hnone _ tables_countEpoche ?_⟩
    simp [modifyList]
  · -- the epoch of the thread is withdrawn first, which changes no table
    generalize hs₁ : (s.countEpoche t).modifyList t (fun d =>
      { d with localEpoche := UInt64.ofNat (2 ^ 64 - 1) }) = s₁
    have htab : s₁.tables = s.tables := by rw [← hs₁, tables_modifyList, tables_countEpoche]
    have hlab : (s₁.deletionLists t).labels = (s.deletionLists t).labels := by
      rw [← hs₁]
      simp [modifyList]
    have hfree : Freeable X s₁ ((s.deletionLists t).labels.flatMap fun l => l.nodes) :=
      ⟨h.nodup, fun e he => by
        have := h.live e he
        unfold Live at this ⊢
        rwa [htab], h.table⟩
    obtain ⟨kept, s₂, F, h₃, hf, hp⟩ :=
      hfree.freeLabels (t := t) s₁.oldestEpoche fun c => htab ▸ hs c
    rw [hlab, h₃]
    exact ⟨_, F, rfl, Cleaned.of_labels hlab htab hf (by rw [hlab]; exact hp)⟩
  · exact ⟨_, [], rfl, hnone _ tables_countEpoche (by rw [deletionLists_countEpoche])⟩

end Heap

end TinyPointerTrees.Art
