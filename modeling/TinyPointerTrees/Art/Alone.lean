import TinyPointerTrees.Art.Represents

/-!
# Single calls of the tiny ART

The rules by which a stretch of code is executed that no other thread disturbs: one
for each access, each function of `N.h` and each allocation. Their hypotheses are
those under which the code neither restarts nor is undefined; an allocation can
still be refused.
-/

namespace TinyPointerTrees.Art

open Conc ArtM

variable {V : Variant} {X : ℕ → BucketIndexer} {ids : ℕ → UInt64} {s s' : Heap V} {n m : Ref}
  {o : Obj V} {α : Type}

namespace Heap

/-- The lock word of a node with `d` added. -/
def addWord (s : Heap V) (n : Ref) (d : UInt64) : Heap V :=
  s.set n { s.get n with typeVersionLockObsolete := (s.get n).typeVersionLockObsolete + d }

/-- The heap after `enterEpoche`. -/
def enter (s : Heap V) (t : ℕ) : Heap V :=
  s.modifyList t fun d => { d with localEpoche := s.currentEpoche }

/-- The heap after `markNodeForDeletion`. -/
def mark (s : Heap V) (t : ℕ) (p : ArtTinyPtr V) (h : TinyPtrHashes) : Heap V :=
  s.modifyList t fun d =>
    { d.add (p, h) s.currentEpoche with thresholdCounter := d.thresholdCounter + 1 }

theorem pending_add {d : DeletionList V} {e : PendingDelete V} {epoche : UInt64} :
    (d.add e epoche).pending.Perm (e :: d.pending) := by
  unfold DeletionList.add DeletionList.pending
  split
  · rename_i hl
    simp [hl]
  · rename_i l ls hl
    split_ifs
    · simp only [hl, List.flatMap_cons, List.append_assoc, List.singleton_append]
      exact List.perm_middle
    · simp [hl]

theorem pending_enter {t u : ℕ} :
    ((s.enter t).deletionLists u).pending = (s.deletionLists u).pending := by
  by_cases h : u = t
  · subst h
    simp [enter, modifyList, DeletionList.pending]
  · simp [enter, modifyList, h]

theorem pending_mark {t : ℕ} {p : ArtTinyPtr V} {h : TinyPtrHashes} :
    ((s.mark t p h).deletionLists t).pending.Perm ((p, h) :: (s.deletionLists t).pending) := by
  have hp : ((s.mark t p h).deletionLists t).pending =
    ((s.deletionLists t).add (p, h) s.currentEpoche).pending := by
    simp [mark, modifyList, DeletionList.pending]
  rw [hp]
  exact pending_add

end Heap

section Rules

variable {Q : α → Heap V → Prop} {E : Leave → Heap V → Prop}

theorem ends_access {o : ArtOp V (Option α)} {a : α} (ho : o.exec X ids 0 s = (some a, s'))
    (h : Q a s') : EndsOr (artHandler X ids 0) (access o) s Q E := by
  refine EndsOr.bind (EndsOr.op (a := some a) ?_ (EndsOr.pure h))
  show some (o.exec X ids 0 s) = _
  rw [ho]

theorem ends_defined {a : Option α} {b : α} (ha : a = some b) (h : Q b s) :
    EndsOr (artHandler X ids 0) (defined a) s Q E := by
  subst ha
  exact EndsOr.pure h

theorem ends_inBounds {a : Option α} {b : α} (ha : a = some b) (h : Q b s) :
    EndsOr (artHandler X ids 0) (inBounds a) s Q E := by
  subst ha
  exact EndsOr.pure h

theorem ends_outOfBounds {a : Option α} (ha : a = none) (h : E .outOfBounds s) :
    EndsOr (artHandler X ids 0) (inBounds a) s Q E := by
  subst ha
  exact EndsOr.throw h

end Rules

section Rules

variable {Q : Unit → Heap V → Prop} {QW : UInt64 → Heap V → Prop} {E : Leave → Heap V → Prop}

theorem ends_load (hl : s.Live n) (h : QW (s.get n).typeVersionLockObsolete s) :
    EndsOr (artHandler X ids 0) (load n) s QW E :=
  ends_access (by simp [ArtOp.exec, hl]) h

theorem ends_read {Q : Obj V → Heap V → Prop} (hl : s.Live n) (h : Q (s.get n) s) :
    EndsOr (artHandler X ids 0) (read n) s Q E :=
  ends_access (by simp [ArtOp.exec, hl]) h

theorem ends_write {f : Obj V → Option (Obj V)} (hl : s.Live n) (hf : f (s.get n) = some o)
    (h : Q () (s.set n o)) : EndsOr (artHandler X ids 0) (access (.write n f)) s Q E :=
  ends_access (by simp [ArtOp.exec, Heap.access, hl, hf]) h

theorem ends_fetchAdd {d : UInt64} (hl : s.Live n) (h : Q () (s.addWord n d)) :
    EndsOr (artHandler X ids 0) (access (.fetchAdd n d)) s Q E :=
  ends_access (by simp only [ArtOp.exec, Heap.access, hl, if_true]; rfl) h

theorem ends_readLockOrRestart (hl : s.Live n) (hw : Free (s.get n).typeVersionLockObsolete)
    (h : QW (s.get n).typeVersionLockObsolete s) :
    EndsOr (artHandler X ids 0) (readLockOrRestart n) s QW E := by
  refine EndsOr.bind (ends_load hl ?_)
  rw [(free_iff _).mp hw]
  exact EndsOr.pure h

theorem ends_readUnlockOrRestart {v : UInt64} (hl : s.Live n)
    (hw : (s.get n).typeVersionLockObsolete = v) (h : Q () s) :
    EndsOr (artHandler X ids 0) (readUnlockOrRestart n v) s Q E := by
  refine EndsOr.bind (ends_load hl ?_)
  rw [if_neg (by simp [hw])]
  exact EndsOr.pure h

theorem ends_upgradeToWriteLock {Q : Bool → Heap V → Prop} {v : UInt64} (hl : s.Live n)
    (hw : (s.get n).typeVersionLockObsolete = v) (h : Q true (s.addWord n 0b10)) :
    EndsOr (artHandler X ids 0) (upgradeToWriteLock n v) s Q E := by
  refine ends_access ?_ h
  simp only [ArtOp.exec, Heap.access, hl, if_true, hw]
  rw [Heap.addWord, hw]

theorem ends_upgradeToWriteLockOrRestart {v : UInt64} (hl : s.Live n)
    (hw : (s.get n).typeVersionLockObsolete = v) (h : Q () (s.addWord n 0b10)) :
    EndsOr (artHandler X ids 0) (upgradeToWriteLockOrRestart n v) s Q E :=
  EndsOr.bind (ends_upgradeToWriteLock hl hw (EndsOr.pure h))

theorem ends_writeLockOrRestart (hl : s.Live n) (hw : Free (s.get n).typeVersionLockObsolete)
    (h : Q () (s.addWord n 0b10)) : EndsOr (artHandler X ids 0) (writeLockOrRestart n) s Q E :=
  EndsOr.bind (ends_readLockOrRestart hl hw (ends_upgradeToWriteLockOrRestart hl rfl h))

theorem ends_getChild {Q : ArtTinyPtr V → Heap V → Prop} {t : NodeType} {k : UInt8} (hl : s.Live n)
    (ht : (s.get n).classOf n.special = some t) (h : Q ((s.get n).getChild t k) s) :
    EndsOr (artHandler X ids 0) (getChild k n) s Q E :=
  EndsOr.bind (ends_read hl (EndsOr.bind (ends_defined ht (EndsOr.pure h))))

theorem ends_getAnyChild {Q : UInt8 × ArtTinyPtr V → Heap V → Prop} {t : NodeType} (hl : s.Live n)
    (ht : (s.get n).classOf n.special = some t) (h : Q ((s.get n).getAnyChild t) s) :
    EndsOr (artHandler X ids 0) (getAnyChild n) s Q E :=
  EndsOr.bind (ends_read hl (EndsOr.bind (ends_defined ht (EndsOr.pure h))))

theorem ends_getId (hl : s.Live n) (h : QW (s.get n).id s) :
    EndsOr (artHandler X ids 0) (getId n) s QW E :=
  EndsOr.bind (ends_read hl (EndsOr.pure h))

theorem ends_value (hl : s.Live n) (h : QW (s.get n).value s) :
    EndsOr (artHandler X ids 0) (value n) s QW E :=
  EndsOr.bind (ends_read hl (EndsOr.pure h))

theorem ends_change {t : NodeType} {key : UInt8} {val : ArtTinyPtr V} (hl : s.Live n)
    (ht : (s.get n).classOf n.special = some t) (hc : (s.get n).change t key val = some o)
    (h : Q () (s.set n o)) : EndsOr (artHandler X ids 0) (change n key val) s Q E :=
  ends_write hl (by rw [ht]; exact hc) h

theorem ends_insertChild {t : NodeType} {key : UInt8} {p : ArtTinyPtr V} (hl : s.Live n)
    (ht : V.nodeType n.special = some t) (hi : (s.get n).insert t key p = some o)
    (h : Q () (s.set n o)) : EndsOr (artHandler X ids 0) (insertChild n key p) s Q E :=
  ends_write hl (by rw [ht]; exact hi) h

theorem ends_mark {p : ArtTinyPtr V} {h : TinyPtrHashes} (hq : Q () (s.mark 0 p h)) :
    EndsOr (artHandler X ids 0) (Throwing.op (.markNodeForDeletion p h)) s Q E := EndsOr.op rfl hq

end Rules

section Allocations

variable (X) in
/-- A new object `o` in table `c`, and a pointer that denotes it. -/
structure Made (s s' : Heap V) (c : ℕ) (h : TinyPtrHashes) (p : ArtTinyPtr V) (n : Ref)
    (o : Obj V) : Prop where
  wf : s'.Wf X
  fresh : ¬ s.Live n
  live : ∀ k, s'.Live k ↔ k = n ∨ s.Live k
  get_self : s'.get n = o
  get : ∀ k, k ≠ n → s'.get k = s.get k
  special : n.special = c
  denotes : Denotes X p h (some n)
  lists : s'.deletionLists = s.deletionLists

theorem Made.ne {c : ℕ} {h : TinyPtrHashes} {p : ArtTinyPtr V} (hm : Made X s s' c h p n o)
    {k : Ref} (hk : s.Live k) : k ≠ n := by
  rintro rfl
  exact hm.fresh hk

theorem Made.get_live {c : ℕ} {h : TinyPtrHashes} {p : ArtTinyPtr V} (hm : Made X s s' c h p n o)
    {k : Ref} (hk : s.Live k) : s'.get k = s.get k := hm.get k (hm.ne hk)

theorem Made.of_allocated {s₁ s₂ : Heap V} {c : ℕ} {h : TinyPtrHashes} {p : ArtTinyPtr V}
    (ha : Heap.Allocated X s s₁ c h p n) (ht : s₂.tables = s₁.tables)
    (hl : s₂.deletionLists = s₁.deletionLists) : Made X s (s₂.set n o) c h p n o := by
  have hlive : ∀ k, s₂.Live k ↔ s₁.Live k := by
    intro k
    unfold Heap.Live
    rw [ht]
  have hwf : s₂.Wf X := fun d => ht ▸ ha.wf d
  refine ⟨hwf.set ((hlive n).mpr ((ha.live n).mpr (Or.inl rfl))), ha.fresh, fun k => ?_,
    Heap.get_set_self, fun k hk => ?_, ha.table, ⟨ha.ne_null, ha.ne_tagged, ha.refOf⟩,
    hl.trans ha.lists⟩
  · rw [Heap.live_set, hlive, ha.live]
  · rw [Heap.get_set_ne hk, ← ha.get k]
    unfold Heap.get
    rw [ht]

variable {Q : ArtTinyPtr V × Ref → Heap V → Prop} {E : Leave → Heap V → Prop} {c : ℕ}
  {h : TinyPtrHashes}

/-- An allocation is refused exactly when the table is full. -/
theorem ends_allocate_iff (hs : s.Wf X) (hc : c < 2 ^ V.specialBits)
    (hq : ∀ p n s', ¬ s.Full X c h → Heap.Allocated X s s' c h p n → Q (p, n) s')
    (he : ∀ e s', s.Full X c h → Heap.Refused X s s' → E (.overflow e) s') :
    EndsOr (artHandler X ids 0) (allocate c h) s Q E := by
  have hiff : (∃ e, ((s.tables c).allocate V.layout (X c) 0 h c).1 = .error e) ↔ s.Full X c h :=
    Table.allocate_eq_error_iff
  refine EndsOr.bind (EndsOr.op rfl ?_)
  cases ha : (s.tables c).allocate V.layout (X c) 0 h c with
  | mk r T' =>
    rw [ha] at hiff
    cases r with
    | ok r => exact EndsOr.pure (hq _ _ _ (fun hfull => nomatch (hiff.mpr hfull).choose_spec)
        (hs.allocated hc ha))
    | error e => exact EndsOr.throw (he _ _ (hiff.mp ⟨e, rfl⟩) (hs.refused ha))

theorem ends_allocate (hs : s.Wf X) (hc : c < 2 ^ V.specialBits)
    (hq : ∀ p n s', Heap.Allocated X s s' c h p n → Q (p, n) s')
    (he : ∀ e s', Heap.Refused X s s' → E (.overflow e) s') :
    EndsOr (artHandler X ids 0) (allocate c h) s Q E :=
  ends_allocate_iff hs hc (fun p n s' _ => hq p n s') fun e s' _ => he e s'

theorem ends_create_iff {src : List UInt8} {l : ℕ} {t : NodeType} (hs : s.Wf X)
    (hc : V.nodeType c = some t)
    (hq : ∀ p n s' id (o : Obj V), ¬ s.Full X c h → Made X s s' c h p n (o.construct c id src l) →
      Q (p, n) s')
    (he : ∀ e s', s.Full X c h → Heap.Refused X s s' → E (.overflow e) s') :
    EndsOr (artHandler X ids 0) (create c src l h) s Q E := by
  have hlt := (V.nodeType_lt (c := c) (by rw [hc]; exact Option.some_ne_none t)).1
  refine EndsOr.bind (ends_allocate_iff hs hlt (fun p n s' hfull ha => ?_) he)
  refine EndsOr.bind (EndsOr.op rfl (EndsOr.bind (ends_write ?_ rfl (EndsOr.pure ?_))))
  · exact (ha.live n).mpr (Or.inl rfl)
  · exact hq p n _ _ _ hfull (Made.of_allocated ha rfl rfl)

theorem ends_create {src : List UInt8} {l : ℕ} {t : NodeType} (hs : s.Wf X)
    (hc : V.nodeType c = some t)
    (hq : ∀ p n s' id (o : Obj V), Made X s s' c h p n (o.construct c id src l) → Q (p, n) s')
    (he : ∀ e s', Heap.Refused X s s' → E (.overflow e) s') :
    EndsOr (artHandler X ids 0) (create c src l h) s Q E :=
  ends_create_iff hs hc (fun p n s' id o _ => hq p n s' id o) fun e s' _ => he e s'

theorem ends_createLeaf {tid : UInt64} (hs : s.Wf X)
    (hq : ∀ p n s' (o : Obj V), Made X s s' leafS h p n (o.constructLeaf tid) → Q (p, n) s')
    (he : ∀ e s', Heap.Refused X s s' → E (.overflow e) s') :
    EndsOr (artHandler X ids 0) (createLeaf tid h) s Q E := by
  refine EndsOr.bind (ends_allocate hs (by unfold leafS; positivity) (fun p n s' ha => ?_) he)
  refine EndsOr.bind (ends_write ((ha.live n).mpr (Or.inl rfl)) rfl (EndsOr.pure ?_))
  exact hq p n _ _ (Made.of_allocated ha rfl rfl)

theorem ends_relocateNode {q : ArtTinyPtr V} {t : NodeType} (hs : s.Wf X)
    (hq' : q.special = m.special) (ht : V.nodeType m.special = some t) (hl : s.Live m)
    (hq : ∀ p n s', Made X s s' m.special h p n (s.get m) → Q (p, n) s')
    (he : ∀ e s', Heap.Refused X s s' → E (.overflow e) s') :
    EndsOr (artHandler X ids 0) (relocateNode q m h) s Q E := by
  unfold relocateNode
  rw [if_pos ⟨hq', by rw [hq', ht]; rfl⟩, hq']
  have hlt := (V.nodeType_lt (c := m.special) (by rw [ht]; exact Option.some_ne_none t)).1
  refine EndsOr.bind (ends_allocate hs hlt (fun p n s' ha => ?_) he)
  refine EndsOr.bind (ends_read ((ha.live m).mpr (Or.inr hl))
    (EndsOr.bind (ends_write ?_ rfl (EndsOr.pure ?_))))
  · exact (ha.live n).mpr (Or.inl rfl)
  · rw [ha.get m]
    exact hq p n _ (Made.of_allocated ha rfl rfl)

end Allocations

/-! ### Following a pointer -/

section

variable {A : Tree V} {Q : Ref → Heap V → Prop} {E : Leave → Heap V → Prop} {p : ArtTinyPtr V}
  {h : TinyPtrHashes}

theorem dereference_of_denotes (hp : Denotes A.indexer p h (some m)) :
    DerefTable.dereference (A.indexer m.special) p h = .ok (some m.slot) ∧
      p.special = m.special := by
  obtain ⟨h₀, h₁, rfl⟩ := hp
  refine ⟨?_, rfl⟩
  unfold DerefTable.dereference
  rw [if_neg h₀, if_neg h₁]
  rfl

theorem ends_derefTable (hp : Denotes A.indexer p h (some m)) (hq : Q m s) :
    EndsOr (artHandler X ids 0) (A.derefTable m.special p h) s Q E := by
  unfold Tree.derefTable
  rw [(dereference_of_denotes hp).1]
  exact EndsOr.pure hq

theorem ends_dereference {t : NodeType} (hp : Denotes A.indexer p h (some m))
    (ht : V.nodeType m.special = some t) (hq : Q m s) :
    EndsOr (artHandler X ids 0) (A.dereference p h) s Q E := by
  have hs := (dereference_of_denotes hp).2
  unfold Tree.dereference
  rw [hs, ht, Option.isSome_some, if_pos rfl]
  exact ends_derefTable hp hq

end

end TinyPointerTrees.Art
