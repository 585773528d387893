import TinyPointerTrees.Art.Alone
import TinyPointerTrees.Library.LinkedLists

/-!
# Retired objects

`Epoche.cpp` with its labels in memory, for one thread. What is retired is collected in
labels, which are in a list that starts with the newest one. The end of an epoch frees the
entries of labels that are old, unlinks them, and keeps them for later in a second list
through the same field. Other threads are there by the epochs that are read of them.

`Reach.accounted` — everything that was retired is freed once.
-/

namespace TinyPointerTrees.Art.Epoche

open LinkedLists

/-! ### Labels -/

/-- `LabelDelete`. -/
structure LabelDelete (V : Variant) where
  nodes : Fin 32 → PendingDelete V
  epoche : UInt64
  nodesCount : ℕ
  next : Option ℕ

variable {V : Variant}

namespace LabelDelete

/-- What loops from 0 to `nodesCount` read, which is not defined behind the end of `nodes`. -/
def entries (l : LabelDelete V) : Option (List (PendingDelete V)) :=
  if l.nodesCount ≤ 32 then some (((List.finRange 32).take l.nodesCount).map l.nodes) else none

/-- Write an entry behind those that are used. -/
def push (l : LabelDelete V) (n : PendingDelete V) : Option (LabelDelete V) :=
  if h : l.nodesCount < 32 then
    some { l with
      nodes := Function.update l.nodes ⟨l.nodesCount, h⟩ n
      nodesCount := l.nodesCount + 1 }
  else none

end LabelDelete

/-- An `Epoche` and the `DeletionList` of the thread. -/
structure State (V : Variant) where
  /-- The labels, by their addresses. -/
  labels : ℕ → Option (LabelDelete V)
  headDeletionList : Option ℕ
  freeLabelDeletes : Option ℕ
  deletitionListCount : UInt64
  localEpoche : UInt64
  thresholdCounter : UInt64
  deleted : UInt64
  added : UInt64
  currentEpoche : UInt64
  /-- The calls of `deref_tables.free`. -/
  freed : List (PendingDelete V)

namespace State

/-- Write a label. -/
def store (p : ℕ) (l : LabelDelete V) (s : State V) : State V :=
  { s with labels := Function.update s.labels p (some l) }

/-- The first lines of `remove`. -/
def unlink (prev next : Option ℕ) (s : State V) : Option (State V) :=
  match prev with
  | none => some { s with headDeletionList := next }
  | some q => (s.labels q).map fun l => s.store q { l with next := next }

/-- `remove`. -/
def remove (label : ℕ) (prev : Option ℕ) (s : State V) : Option (State V) := do
  let l ← s.labels label
  let s ← s.unlink prev l.next
  let l ← s.labels label
  let s := { s with deletitionListCount := s.deletitionListCount - UInt64.ofNat l.nodesCount }
  let s :=
    { s.store label { l with next := s.freeLabelDeletes } with freeLabelDeletes := some label }
  return { s with deleted := s.deleted + UInt64.ofNat l.nodesCount }

/-- A label from `freeLabelDeletes`, or a new one, at the address and with the contents that `new`
returns. -/
def takeLabel (new : ℕ × LabelDelete V) (s : State V) : Option (ℕ × State V) :=
  match s.freeLabelDeletes with
  | some p => (s.labels p).map fun l => (p, { s with freeLabelDeletes := l.next })
  | none => if (s.labels new.1).isNone then some (new.1, s.store new.1 new.2) else none

/-- Put a label in front of the others. -/
def pushLabel (new : ℕ × LabelDelete V) (s : State V) : Option (ℕ × State V) := do
  let (label, s) ← s.takeLabel new
  let l ← s.labels label
  let s := s.store label { l with nodesCount := 0, next := s.headDeletionList }
  return (label, { s with headDeletionList := some label })

/-- The label that `add` writes to. -/
def labelFor (new : ℕ × LabelDelete V) (s : State V) : Option (ℕ × State V) :=
  match s.headDeletionList with
  | none => s.pushLabel new
  | some p => do
    let l ← s.labels p
    if l.nodesCount < 32 then return (p, s) else s.pushLabel new

/-- `add`. -/
def add (n : PendingDelete V) (globalEpoch : UInt64) (new : ℕ × LabelDelete V) (s : State V) :
    Option (State V) := do
  let s := { s with deletitionListCount := s.deletitionListCount + 1 }
  let (label, s) ← s.labelFor new
  let l ← s.labels label
  let l ← l.push n
  let s := s.store label { l with epoche := globalEpoch }
  return { s with added := s.added + 1 }

/-- `enterEpoche`. -/
def enterEpoche (s : State V) : State V := { s with localEpoche := s.currentEpoche }

/-- `markNodeForDeletion`. -/
def markNodeForDeletion (n : PendingDelete V) (new : ℕ × LabelDelete V) (s : State V) :
    Option (State V) :=
  (s.add n s.currentEpoche new).map fun s => { s with thresholdCounter := s.thresholdCounter + 1 }

/-- The oldest epoch, of this thread and of the others. -/
def oldestEpoche (others : List UInt64) (s : State V) : UInt64 :=
  (s.localEpoche :: others).foldl (fun oldest e => if e < oldest then e else oldest)
    (UInt64.ofNat (2 ^ 64 - 1))

/-- The loops over the labels in `exitEpocheAndCleanup` and `~Epoche`. Some labels stay, the others
are freed and removed; for some an assertion may fail. -/
def freeLabels (stays : UInt64 → Option Bool) :
    (fuel : ℕ) → (cur prev : Option ℕ) → State V → Option (State V)
  | 0, _, _, _ => none
  | _ + 1, none, _, s => some s
  | fuel + 1, some cur, prev, s => do
    let l ← s.labels cur
    let next := l.next
    if ← stays l.epoche then freeLabels stays fuel next (some cur) s
    else
      let nodes ← l.entries
      let s ← { s with freed := s.freed ++ nodes }.remove cur prev
      freeLabels stays fuel next prev s

/-- `exitEpocheAndCleanup`. -/
def exitEpocheAndCleanup (startGCThreshhold : UInt64) (others : List UInt64) (fuel : ℕ)
    (s : State V) : Option (State V) :=
  let s := if s.thresholdCounter &&& (64 - 1) = 1 then
    { s with currentEpoche := s.currentEpoche + 1 } else s
  if s.thresholdCounter > startGCThreshhold then
    if s.deletitionListCount = 0 then some { s with thresholdCounter := 0 }
    else
      let s := { s with localEpoche := UInt64.ofNat (2 ^ 64 - 1) }
      let oldest := s.oldestEpoche others
      (freeLabels (fun epoche => some (!decide (epoche < oldest))) fuel
        s.headDeletionList none s).map fun s => { s with thresholdCounter := 0 }
  else some s

/-- The loop of `~DeletionList`. -/
def deleteLabels : (fuel : ℕ) → (next : Option ℕ) → State V → Option (State V)
  | 0, _, _ => none
  | _ + 1, none, s => some { s with freeLabelDeletes := none }
  | fuel + 1, some cur, s => do
    let l ← s.labels cur
    deleteLabels fuel l.next { s with labels := Function.update s.labels cur none }

/-- `~Epoche` and `~DeletionList`, with assertions or without them. -/
def destroy (assertions : Bool) (others : List UInt64) (fuel : ℕ) (s : State V) :
    Option (State V) := do
  let oldest := s.oldestEpoche others
  let s ← freeLabels
    (fun epoche => if assertions && !decide (epoche < oldest) then none else some false)
    fuel s.headDeletionList none s
  if assertions && !decide (s.deletitionListCount = 0 ∧ s.headDeletionList = none) then none
  else deleteLabels fuel s.freeLabelDeletes s

/-- `~ThreadInfo`. -/
def leave (s : State V) : State V := { s with localEpoche := UInt64.ofNat (2 ^ 64 - 1) }

/-- A new `Epoche`. The local epoch of the thread is not initialized. -/
def new (localEpoche : UInt64) : State V :=
  ⟨fun _ => none, none, none, 0, localEpoche, 0, 0, 0, 0, []⟩

end State

/-! ### Runs -/

/-- The states that calls of a thread reach, with everything that was passed to
`markNodeForDeletion`. Other threads may change the epoch in between, and `new` returns memory that
is not in use. -/
inductive Reach (startGCThreshhold : UInt64) : State V → List (PendingDelete V) → Prop
  | new (localEpoche : UInt64) : Reach startGCThreshhold (State.new localEpoche) []
  | advance {s : State V} {marked : List (PendingDelete V)}
      (h : Reach startGCThreshhold s marked) (e : UInt64) :
      Reach startGCThreshhold { s with currentEpoche := e } marked
  | enterEpoche {s : State V} {marked : List (PendingDelete V)}
      (h : Reach startGCThreshhold s marked) : Reach startGCThreshhold s.enterEpoche marked
  | markNodeForDeletion {s s' : State V} {marked : List (PendingDelete V)} {n : PendingDelete V}
      {new : ℕ × LabelDelete V} (h : Reach startGCThreshhold s marked)
      (hnew : s.labels new.1 = none) (hm : s.markNodeForDeletion n new = some s') :
      Reach startGCThreshhold s' (n :: marked)
  | exitEpocheAndCleanup {s s' : State V} {marked : List (PendingDelete V)}
      {others : List UInt64} {fuel : ℕ} (h : Reach startGCThreshhold s marked)
      (he : s.exitEpocheAndCleanup startGCThreshhold others fuel = some s') :
      Reach startGCThreshhold s' marked
  | leave {s : State V} {marked : List (PendingDelete V)} (h : Reach startGCThreshhold s marked) :
      Reach startGCThreshhold s.leave marked

/-! ### The two lists -/

namespace LabelDelete

variable {l : LabelDelete V} {nodes : List (PendingDelete V)}

theorem length_entries (h : l.entries = some nodes) :
    nodes.length = l.nodesCount ∧ l.nodesCount ≤ 32 := by
  unfold entries at h
  split_ifs at h with hle
  rw [← Option.some.inj h, List.length_map, List.length_take, List.length_finRange,
    Nat.min_eq_left hle]
  exact ⟨rfl, hle⟩

/-- An entry is written behind the others. -/
theorem push_spec (h : l.entries = some nodes) (hlt : l.nodesCount < 32) (n : PendingDelete V) :
    ∃ l', l.push n = some l' ∧ l'.entries = some (nodes ++ [n]) ∧ l'.next = l.next := by
  unfold push
  rw [dif_pos hlt]
  refine ⟨_, rfl, ?_, rfl⟩
  simp only [entries, if_pos hlt.le, Option.some.injEq] at h
  have hlast : (List.finRange 32)[l.nodesCount]? = some ⟨l.nodesCount, hlt⟩ := by simp [hlt]
  simp only [entries, if_pos (Nat.succ_le_of_lt hlt), List.take_add_one, hlast,
    Option.toList_some, List.map_append,
    List.map_singleton, Function.update_self, ← h]
  congr 2
  apply List.map_congr_left
  intro i hi
  apply Function.update_of_ne
  rintro rfl
  obtain ⟨j, hj, he⟩ := List.mem_take_iff_getElem.1 hi
  rw [List.getElem_finRange] at he
  have hval := congrArg Fin.val he
  simp only [Fin.val_cast] at hval
  omega

end LabelDelete

/-- The links of labels. -/
def links (labels : ℕ → Option (LabelDelete V)) (p : ℕ) : Option ℕ :=
  (labels p).bind LabelDelete.next

section Links

variable {labels labels' labels'' : ℕ → Option (LabelDelete V)} {p : ℕ} {l : LabelDelete V}

theorem links_of_some (h : labels p = some l) : links labels p = l.next := by
  unfold links
  rw [h]
  rfl

@[simp] theorem links_update :
    links (Function.update labels p (some l)) = Function.update (links labels) p l.next := by
  funext q
  unfold links
  by_cases hq : q = p
  · subst hq
    simp
  · simp [Function.update_of_ne hq]

/-- Labels may have other links. -/
def Relinked (labels labels' : ℕ → Option (LabelDelete V)) : Prop :=
  ∀ p, ∃ q, labels' p = (labels p).map fun l => { l with next := q }

theorem Relinked.refl (labels : ℕ → Option (LabelDelete V)) : Relinked labels labels := by
  intro p
  cases hp : labels p with
  | none => exact ⟨none, rfl⟩
  | some l => exact ⟨l.next, rfl⟩

theorem Relinked.isSome (h : Relinked labels labels') : (labels' p).isSome = (labels p).isSome := by
  obtain ⟨q, hq⟩ := h p
  rw [hq, Option.isSome_map]

theorem Relinked.trans (h : Relinked labels labels') (h' : Relinked labels' labels'') :
    Relinked labels labels'' := by
  intro p
  obtain ⟨q, hq⟩ := h p
  obtain ⟨q', hq'⟩ := h' p
  refine ⟨q', ?_⟩
  rw [hq', hq, Option.map_map]
  rfl

theorem relinked_update (hl : labels p = some l) (q : Option ℕ) :
    Relinked labels (Function.update labels p (some { l with next := q })) := by
  intro p'
  by_cases hp : p' = p
  · subst hp
    refine ⟨q, ?_⟩
    rw [hl, Function.update_self]
    rfl
  · rw [Function.update_of_ne hp]
    exact Relinked.refl labels p'

end Links

namespace State

variable {s s' s'' : State V} {active free kept rest : List ℕ} {p c : ℕ} {l : LabelDelete V}

/-- The labels are in two lists, of those with entries and of those to be used again. -/
structure Lists (s : State V) (active free : List ℕ) : Prop where
  inUse : IsList (links s.labels) s.headDeletionList active
  recycled : IsList (links s.labels) s.freeLabelDeletes free
  disjoint : active.Disjoint free
  allocated : ∀ p, (s.labels p).isSome ↔ p ∈ active ∨ p ∈ free

/-- The list without a label. -/
theorem Lists.unlink_spec (h : s.Lists (kept ++ c :: rest) free) (hl : s.labels c = some l) :
    ∃ labels head, s.unlink kept.getLast? l.next =
    some { s with labels := labels, headDeletionList := head } ∧
      IsList (links labels) head (kept ++ rest) ∧ IsList (links labels) s.freeLabelDeletes free ∧
      Relinked s.labels labels ∧ labels c = some l := by
  rcases kept.eq_nil_or_concat' with rfl | ⟨kept, b, rfl⟩
  · have hactive := h.inUse.2
    rw [links_of_some hl] at hactive
    exact ⟨s.labels, l.next, rfl, hactive, h.recycled, Relinked.refl _, hl⟩
  · have hb : b ∈ (kept ++ [b]) ++ c :: rest := by simp
    obtain ⟨x, hx⟩ := Option.isSome_iff_exists.1 ((h.allocated b).2 (.inl hb))
    have hactive := h.inUse
    rw [List.append_assoc, List.singleton_append] at hactive
    have hbc : c ≠ b := by
      rintro rfl
      have hnd := (List.nodup_append.1 hactive.nodup).2.1
      exact (List.nodup_cons.1 hnd).1 List.mem_cons_self
    refine ⟨Function.update s.labels b (some { x with next := l.next }),
      s.headDeletionList, ?_, ?_, ?_, relinked_update hx _, ?_⟩
    · rw [List.getLast?_concat, unlink, hx]
      rfl
    · rw [links_update, List.append_assoc, List.singleton_append, ← links_of_some hl]
      exact hactive.unlink
    · rw [links_update]
      exact h.recycled.update (fun hb' => h.disjoint hb hb') _
    · rw [Function.update_of_ne hbc, hl]

/-- `remove` moves a label from one list to the other. -/
theorem Lists.remove_spec (h : s.Lists (kept ++ c :: rest) free) (hl : s.labels c = some l) :
    ∃ labels head, Relinked s.labels labels ∧
      s.remove c kept.getLast? = some { s with
        labels := labels, headDeletionList := head, freeLabelDeletes := some c
        deletitionListCount := s.deletitionListCount - UInt64.ofNat l.nodesCount
        deleted := s.deleted + UInt64.ofNat l.nodesCount } ∧
      Lists
        { s with labels := labels, headDeletionList := head, freeLabelDeletes := some c }
        (kept ++ rest) (c :: free) := by
  obtain ⟨labels, head, hunlink, hactive, hfree, hrel, hlabel⟩ := h.unlink_spec hl
  have hperm : (kept ++ c :: rest).Perm (c :: (kept ++ rest)) := List.perm_middle
  obtain ⟨hc, hnd⟩ := List.nodup_cons.1 (hperm.nodup h.inUse.nodup)
  have hcfree : c ∉ free := fun hc' => h.disjoint (hperm.mem_iff.2 List.mem_cons_self) hc'
  have hrel' := hrel.trans (relinked_update hlabel s.freeLabelDeletes)
  refine ⟨_, head, hrel', ?_, ?_, ?_, ?_, fun p => ?_⟩
  · simp only [remove, hl, hunlink, hlabel, Option.bind_eq_bind, Option.bind_some]
    rfl
  · rw [links_update]
    exact hactive.update hc _
  · rw [links_update]
    exact hfree.push hcfree
  · apply List.disjoint_cons_right.2
    exact ⟨hc, fun b hb => h.disjoint (hperm.mem_iff.2 (List.mem_cons_of_mem c hb))⟩
  · have hsome := h.allocated p
    rw [← hrel'.isSome, hperm.mem_iff] at hsome
    refine hsome.trans ?_
    simp only [List.mem_cons]
    tauto

/-- A label that is in neither list. -/
theorem Lists.takeLabel_spec (h : s.Lists active free)
    {new : ℕ × LabelDelete V} (hnew : s.labels new.1 = none) :
    ∃ p l labels head free', s.takeLabel new =
    some (p, { s with labels := labels, freeLabelDeletes := head }) ∧
      labels p = some l ∧ p ∉ active ∧ p ∉ free' ∧ (∀ q ≠ p, q ∈ free' ↔ q ∈ free) ∧
      IsList (links labels) head free' ∧ ∀ q ≠ p, labels q = s.labels q := by
  have hrec := h.recycled
  cases free with
  | nil =>
    have hnone : s.freeLabelDeletes = none := hrec
    have hnot : new.1 ∉ active := by
      intro hmem
      have hsome := (h.allocated new.1).2 (.inl hmem)
      rw [hnew] at hsome
      cases hsome
    refine ⟨new.1, new.2, Function.update s.labels new.1 (some new.2), s.freeLabelDeletes, [], ?_,
      Function.update_self .., hnot, List.not_mem_nil, fun _ _ => Iff.rfl, hnone, fun q hq =>
      Function.update_of_ne hq _ _⟩
    simp only [takeLabel, hnone, hnew, Option.isNone_none, if_true]
    rw [← hnone]
    rfl
  | cons p free =>
    obtain ⟨l, hl⟩ := Option.isSome_iff_exists.1 ((h.allocated p).2 (.inr List.mem_cons_self))
    have hnext := hrec.2
    rw [links_of_some hl] at hnext
    refine ⟨p, l, s.labels, l.next, free, ?_, hl, fun hp => h.disjoint hp List.mem_cons_self,
      (List.nodup_cons.1 hrec.nodup).1, fun q hq => by simp [hq], hnext, fun _ _ => rfl⟩
    simp only [takeLabel, hrec.1, hl]
    rfl

/-- An empty label is put in front. -/
theorem Lists.pushLabel_spec (h : s.Lists active free) {new : ℕ × LabelDelete V}
    (hnew : s.labels new.1 = none) : ∃ p l labels head free', s.pushLabel new =
        some (p, { s with labels := labels, headDeletionList := some p, freeLabelDeletes :=
          head }) ∧
      labels p = some l ∧ l.nodesCount = 0 ∧ p ∉ active ∧ (∀ q ≠ p, labels q = s.labels q) ∧
      Lists { s with labels := labels, headDeletionList := some p, freeLabelDeletes := head } (p ::
        active) free' := by
  obtain ⟨p, l, labels, head, free', htake, hl, hactive, hfree, hmem, hlist, hsame⟩ :=
    h.takeLabel_spec hnew
  refine ⟨p, _, Function.update labels p
    (some { l with nodesCount := 0, next := s.headDeletionList }), head, free', ?_,
    Function.update_self .., rfl, hactive, fun q hq => (Function.update_of_ne hq _ _).trans
    (hsame q hq), ?_, ?_, ?_, fun q => ?_⟩
  · simp only [pushLabel, htake, hl, Option.bind_eq_bind, Option.bind_some]
    rfl
  · have hcongr : IsList (links labels) s.headDeletionList active := by
      apply h.inUse.congr
      intro q hq
      unfold links
      rw [hsame q fun heq => hactive (heq ▸ hq)]
    rw [links_update]
    exact hcongr.push hactive
  · rw [links_update]
    exact hlist.update hfree _
  · apply List.disjoint_cons_left.2
    refine ⟨hfree, fun q hq hq' => ?_⟩
    exact h.disjoint hq ((hmem q fun heq => hactive (heq ▸ hq)).1 hq')
  · by_cases hq : q = p
    · subst hq
      simp
    · simp only [Function.update_of_ne hq, hsame q hq, List.mem_cons, hq, false_or, hmem q hq]
      exact h.allocated q

/-- A label is changed, but not its link. -/
theorem Lists.write (h : s.Lists active free) (hl : s.labels p = some l) {l' : LabelDelete V}
    (hnext : l'.next = l.next) :
    Lists { s with labels := Function.update s.labels p (some l') } active free := by
  have hlinks : links (Function.update s.labels p (some l')) = links s.labels := by
    rw [links_update, hnext, ← links_of_some hl, Function.update_eq_self]
  refine ⟨?_, ?_, h.disjoint, fun q => ?_⟩
  · rw [hlinks]
    exact h.inUse
  · rw [hlinks]
    exact h.recycled
  · rw [← h.allocated]
    by_cases hq : q = p
    · subst hq
      simp [hl]
    · simp only [Function.update_of_ne hq]

/-! ### What the labels hold -/

/-- A label with its entries. -/
def Holds (labels : ℕ → Option (LabelDelete V)) (p : ℕ) (a : Art.LabelDelete V) : Prop :=
  ∃ l, labels p = some l ∧ l.entries = some a.nodes ∧ l.epoche = a.epoche ∧ a.nodes ≠ []

section Holds

variable {labels labels' : ℕ → Option (LabelDelete V)} {a : Art.LabelDelete V}
  {ls ls' : List (Art.LabelDelete V)}

theorem Holds.relinked (h : Holds labels p a) (hrel : Relinked labels labels') :
    Holds labels' p a := by
  obtain ⟨l, hl, hentries, hepoche, hne⟩ := h
  obtain ⟨q, hq⟩ := hrel p
  rw [hl] at hq
  exact ⟨_, hq, hentries, hepoche, hne⟩

theorem Holds.congr (h : Holds labels p a) (hp : labels' p = labels p) : Holds labels' p a := by
  unfold Holds
  rwa [hp]

theorem holds_congr (h : List.Forall₂ (Holds labels) active ls)
    (hsame : ∀ p ∈ active, labels' p = labels p) : List.Forall₂ (Holds labels') active ls := by
  induction h with
  | nil => exact .nil
  | cons hp _ ih =>
    apply List.Forall₂.cons
    · exact hp.congr (hsame _ List.mem_cons_self)
    · exact ih fun q hq => hsame q (List.mem_cons_of_mem _ hq)

/-- The entries of labels. -/
def pending (ls : List (Art.LabelDelete V)) : List (PendingDelete V) := ls.flatMap fun a => a.nodes

@[simp] theorem pending_cons : pending (a :: ls) = a.nodes ++ pending ls := List.flatMap_cons

@[simp] theorem pending_append : pending (ls ++ ls') = pending ls ++ pending ls' :=
  List.flatMap_append

end Holds

/-- The state has some labels in use, and counts their entries. -/
structure Rep (s : State V) (active free : List ℕ) (ls : List (Art.LabelDelete V)) : Prop where
  lists : s.Lists active free
  holds : List.Forall₂ (Holds s.labels) active ls
  count : s.deletitionListCount = UInt64.ofNat (pending ls).length
  balance : s.added - s.deleted = UInt64.ofNat (pending ls).length

variable {ls kl rl : List (Art.LabelDelete V)} {n : PendingDelete V} {new : ℕ × LabelDelete V}
  {e : UInt64}

theorem rep_new (localEpoche : UInt64) : (State.new (V := V) localEpoche).Rep [] [] [] := by
  refine ⟨⟨rfl, rfl, List.disjoint_nil_left _, fun p => ?_⟩, .nil, rfl, UInt64.sub_self 0⟩
  simp [State.new]

/-- The label that `add` writes to has room. -/
theorem Lists.labelFor_spec (h : s.Lists active free) (hh : List.Forall₂ (Holds s.labels) active ls)
    (hnew : s.labels new.1 = none) (n : PendingDelete V) (e : UInt64) :
    ∃ p l nodes labels head rest free' ls', s.labelFor new =
        some (p, { s with labels := labels, headDeletionList := some p, freeLabelDeletes :=
          head }) ∧
      labels p = some l ∧ l.entries = some nodes ∧ l.nodesCount < 32 ∧
        List.Forall₂ (Holds labels) rest ls' ∧ p ∉ rest ∧
      Lists { s with labels := labels, headDeletionList := some p, freeLabelDeletes := head }
          (p :: rest) free' ∧
      (({ labels := ls } : DeletionList V).add n e).labels = ⟨nodes ++ [n], e⟩ :: ls' := by
  -- a label in front has no entries
  have hpush : ∃ p l labels head free', s.pushLabel new =
        some (p, { s with labels := labels, headDeletionList := some p, freeLabelDeletes :=
        head }) ∧
      labels p = some l ∧ l.entries = some [] ∧ l.nodesCount < 32 ∧
      List.Forall₂ (Holds labels) active ls ∧ p ∉ active ∧
      Lists { s with labels := labels, headDeletionList := some p, freeLabelDeletes := head }
      (p :: active) free' := by
    obtain ⟨p, l, labels, head, free', hp, hl, hcount, hactive, hsame, hlists⟩ :=
      h.pushLabel_spec hnew
    have hholds : List.Forall₂ (Holds labels) active ls :=
      holds_congr hh fun q hq => hsame q fun heq => hactive (heq ▸ hq)
    have hentries : l.entries = some [] := by simp [LabelDelete.entries, hcount]
    exact ⟨p, l, labels, head, free', hp, hl, hentries, by omega, hholds, hactive, hlists⟩
  obtain ⟨p, l', labels, head, free', hp, hl', hentries', hlt', hholds, hactive, hlists⟩ := hpush
  cases hh with
  | nil =>
    refine ⟨p, l', [], labels, head, [], free', [], ?_, hl', hentries', hlt', hholds,
      hactive, hlists, rfl⟩
    have hhead : s.headDeletionList = none := h.inUse
    rw [labelFor, hhead]
    exact hp
  | @cons c a rest ls hc hh =>
    obtain ⟨l, hl, hentries, -⟩ := hc
    obtain ⟨hlen, -⟩ := LabelDelete.length_entries hentries
    have hhead : s.headDeletionList = some c := h.inUse.1
    by_cases hlt : l.nodesCount < 32
    · refine ⟨c, l, a.nodes, s.labels, s.freeLabelDeletes, rest, free, ls, ?_, hl,
        hentries, hlt, hh, (List.nodup_cons.1 h.inUse.nodup).1, ?_, ?_⟩
      · simp only [labelFor, hhead, hl, Option.bind_eq_bind, Option.bind_some, if_pos hlt]
        rw [← hhead]
        rfl
      · rw [← hhead]
        exact h
      · rw [DeletionList.add]
        simp only [hlen, if_pos hlt]
    · refine ⟨p, l', [], labels, head, c :: rest, free', a :: ls, ?_, hl', hentries', hlt', hholds,
        hactive, hlists, ?_⟩
      · simp only [labelFor, hhead, hl, Option.bind_eq_bind, Option.bind_some, if_neg hlt]
        exact hp
      · rw [DeletionList.add]
        simp only [hlen, if_neg hlt, List.nil_append]

/-- `add` is that of the list of labels. -/
theorem Rep.add (h : s.Rep active free ls) (hnew : s.labels new.1 = none) (n : PendingDelete V)
    (e : UInt64) : ∃ labels head head' active' free', s.add n e new = some { s with
        labels := labels, headDeletionList := head, freeLabelDeletes := head'
        deletitionListCount := s.deletitionListCount + 1, added := s.added + 1 } ∧
      Rep { s with
        labels := labels, headDeletionList := head, freeLabelDeletes := head'
        deletitionListCount := s.deletitionListCount + 1, added := s.added + 1 } active' free'
        (({ labels := ls } : DeletionList V).add n e).labels := by
  have hlists : Lists { s with deletitionListCount := s.deletitionListCount + 1 } active free :=
    ⟨h.lists.inUse, h.lists.recycled, h.lists.disjoint, h.lists.allocated⟩
  obtain ⟨p, l, nodes, labels, head, rest,
    free', ls', hfor, hl, hentries, hlt, hholds, hp, hlists', hadd⟩ :=
    hlists.labelFor_spec h.holds hnew n e
  obtain ⟨l', hpush, hentries', hnext⟩ := LabelDelete.push_spec hentries hlt n
  have hnext' : { l' with epoche := e }.next = l.next := hnext
  have hlists'' := hlists'.write hl hnext'
  have hlen : (pending (({ labels := ls } : DeletionList V).add n e).labels).length =
    (pending ls).length + 1 :=
    Heap.pending_add.length_eq
  refine ⟨Function.update labels p (some { l' with epoche := e }), some p, head,
    p :: rest, free', ?_, ⟨hlists''.inUse, hlists''.recycled, hlists''.disjoint,
    hlists''.allocated⟩, ?_, ?_, ?_⟩
  · simp only [State.add, hfor, hl, hpush, Option.bind_eq_bind, Option.bind_some]
    rfl
  · rw [hadd]
    refine .cons ⟨_, Function.update_self .., hentries', rfl, by simp⟩ ?_
    apply holds_congr hholds
    intro q hq
    apply Function.update_of_ne
    rintro rfl
    exact hp hq
  · rw [hlen, UInt64.ofNat_add, h.count]
    rfl
  · rw [hlen, UInt64.ofNat_add, ← h.balance]
    have hone : UInt64.ofNat 1 = 1 := rfl
    simp only [hone]
    grind

/-! ### The loops over the labels -/

/-- Some entries were freed, and were counted. -/
structure Frees (s s' : State V) (F : List (PendingDelete V)) : Prop where
  freed : s'.freed = s.freed ++ F
  count : s'.deletitionListCount = s.deletitionListCount - UInt64.ofNat F.length
  deleted : s'.deleted = s.deleted + UInt64.ofNat F.length
  added : s'.added = s.added

theorem Frees.refl (s : State V) : s.Frees s [] := by
  refine ⟨(List.append_nil _).symm, ?_, ?_, rfl⟩
  · exact (UInt64.sub_zero _).symm
  · exact (UInt64.add_zero _).symm

theorem Frees.trans {F F' : List (PendingDelete V)} (h : s.Frees s' F) (h' : s'.Frees s'' F') :
    s.Frees s'' (F ++ F') := by
  refine ⟨?_, ?_, ?_, h'.added.trans h.added⟩
  · rw [h'.freed, h.freed, List.append_assoc]
  · rw [h'.count, h.count, List.length_append, UInt64.ofNat_add]
    grind
  · rw [h'.deleted, h.deleted, List.length_append, UInt64.ofNat_add]
    grind

/-- The loop from a label on. Those before it stay. -/
theorem Lists.freeLabels_spec {stays : UInt64 → Option Bool} {keep : UInt64 → Bool} {fuel : ℕ}
    (h : s.Lists (kept ++ rest) free) (hk : List.Forall₂ (Holds s.labels) kept kl)
    (hr : List.Forall₂ (Holds s.labels) rest rl) (hstays : ∀ a ∈ rl, stays
      a.epoche = some (keep a.epoche))
    (hfuel : rest.length < fuel) :
    ∃ s' rest' free', freeLabels stays fuel rest.head? kept.getLast? s = some s' ∧
      s.Frees s' (pending (rl.filter fun a => !keep a.epoche)) ∧ s'.Lists (kept ++ rest') free' ∧
      List.Forall₂ (Holds s'.labels) (kept ++ rest') (kl ++ rl.filter fun a => keep a.epoche) := by
  induction rest generalizing s kept kl rl free fuel with
  | nil =>
    cases hr
    obtain ⟨fuel, rfl⟩ := Nat.exists_eq_succ_of_ne_zero (Nat.ne_zero_of_lt hfuel)
    refine ⟨s, [], free, rfl, Frees.refl s, h, ?_⟩
    simpa using hk
  | cons c rest ih =>
    cases hr with
    | @cons _ a _ rl hc hr =>
      obtain ⟨fuel, rfl⟩ := Nat.exists_eq_succ_of_ne_zero (Nat.ne_zero_of_lt hfuel)
      have hfuel' : rest.length < fuel := Nat.lt_of_succ_lt_succ hfuel
      have hstays' : ∀ b ∈ rl, stays b.epoche = some
        (keep b.epoche) := fun b hb => hstays b (List.mem_cons_of_mem a hb)
      have hholds := hc
      obtain ⟨l, hl, hentries, hepoche, -⟩ := hholds
      have hnext : l.next = rest.head? := by
        rw [← links_of_some hl]
        exact h.inUse.next_eq
      have hdo := hstays a List.mem_cons_self
      cases hkeep : keep a.epoche with
      | true =>
        have hassoc : kept ++ c :: rest = (kept ++ [c]) ++ rest := by simp
        rw [hassoc] at h
        obtain ⟨s', rest', free', hrun, hfrees, hlists, hholds⟩ :=
          ih h (List.rel_append hk (.cons hc .nil)) hr hstays' hfuel'
        refine ⟨s', c :: rest', free', ?_, ?_, ?_, ?_⟩
        · rw [List.getLast?_concat] at hrun
          simp only [freeLabels, List.head?_cons, hl, hepoche, hdo, hkeep, hnext,
            Option.bind_eq_bind, Option.bind_some, if_true]
          exact hrun
        · rw [List.filter_cons_of_neg (by simp [hkeep])]
          exact hfrees
        · simpa using hlists
        · rw [List.filter_cons_of_pos (by simp [hkeep])]
          simpa using hholds
      | false =>
        have hlen := (LabelDelete.length_entries hentries).1
        have hlists : Lists { s with freed := s.freed ++ a.nodes } (kept ++ c :: rest) free :=
          ⟨h.inUse, h.recycled, h.disjoint, h.allocated⟩
        obtain ⟨labels, head, hrel, hremove, hlists'⟩ := hlists.remove_spec hl
        obtain ⟨s', rest', free', hrun, hfrees, hlists, hholds⟩ :=
          ih (s := { s with
              labels := labels, headDeletionList := head, freeLabelDeletes := some c, freed :=
                s.freed ++ a.nodes
              deletitionListCount := s.deletitionListCount - UInt64.ofNat l.nodesCount
              deleted := s.deleted + UInt64.ofNat l.nodesCount })
            ⟨hlists'.inUse, hlists'.recycled, hlists'.disjoint, hlists'.allocated⟩
            (hk.imp fun _ _ hp => hp.relinked hrel) (hr.imp fun _ _ hp =>
            hp.relinked hrel) hstays' hfuel'
        refine ⟨s', rest', free', ?_, ?_, hlists, ?_⟩
        · simp only [freeLabels, List.head?_cons, hl, hepoche, hdo, hkeep, hnext, hentries, hremove,
            Option.bind_eq_bind, Option.bind_some, Bool.false_eq_true, if_false]
          exact hrun
        · rw [List.filter_cons_of_pos (by simp [hkeep]), pending_cons]
          apply Frees.trans (s := s) _ hfrees
          exact ⟨rfl, by rw [hlen], by rw [hlen], rfl⟩
        · rw [List.filter_cons_of_neg (by simp [hkeep])]
          exact hholds

theorem freeLabels_mono {stays : UInt64 → Option Bool} {cur prev : Option ℕ} {fuel fuel' : ℕ}
    (h : freeLabels stays fuel cur prev s = some s') (hle : fuel ≤ fuel') :
    freeLabels stays fuel' cur prev s = some s' := by
  induction fuel generalizing cur prev s fuel' with
  | zero => cases h
  | succ fuel ih =>
    obtain ⟨fuel', rfl⟩ := Nat.exists_eq_succ_of_ne_zero (Nat.ne_zero_of_lt hle)
    have hle' := Nat.le_of_succ_le_succ hle
    cases cur with
    | none => exact h
    | some cur =>
      simp only [freeLabels, Option.bind_eq_bind, Option.bind_eq_some_iff] at h ⊢
      obtain ⟨l, hl, b, hb, hrun⟩ := h
      refine ⟨l, hl, b, hb, ?_⟩
      split_ifs at hrun ⊢ with hstays
      · exact ih hrun hle'
      · simp only [Option.bind_eq_some_iff] at hrun ⊢
        obtain ⟨nodes, hnodes, s₁, hremove, hrun⟩ := hrun
        exact ⟨nodes, hnodes, s₁, hremove, ih hrun hle'⟩

/-- The labels that go and those that stay. -/
theorem pending_filter (keep : UInt64 → Bool) (ls : List (Art.LabelDelete V)) :
    (pending (ls.filter fun a => !keep a.epoche) ++ pending (ls.filter fun a => keep a.epoche)).Perm
      (pending ls) := by
  have hperm := (List.filter_append_perm
    (fun a : Art.LabelDelete V => keep a.epoche) ls).flatMap_right fun a => a.nodes
  rw [List.flatMap_append] at hperm
  exact List.perm_append_comm.trans hperm

/-- The loop from the first label on. -/
theorem Rep.freeLabels_spec (h : s.Rep active free ls) (stays : UInt64 → Option Bool)
    (keep : UInt64 → Bool) (hstays : ∀ a ∈ ls, stays a.epoche = some (keep a.epoche)) :
    ∃ s' active' free',
      (∀ fuel > ls.length, freeLabels stays fuel s.headDeletionList none s = some s') ∧
      s'.freed = s.freed ++ pending (ls.filter fun a => !keep a.epoche) ∧
      s'.Rep active' free' (ls.filter fun a => keep a.epoche) := by
  have hlen := h.holds.length_eq
  have hall : s.Lists ([] ++ active) free := h.lists
  obtain ⟨s', active', free', hrun, hfrees, hlists, hholds⟩ :=
    hall.freeLabels_spec .nil h.holds hstays (Nat.lt_succ_self active.length)
  have hhead := h.lists.inUse.eq_head?
  have hsum := (pending_filter keep ls).length_eq
  rw [List.length_append] at hsum
  refine ⟨s', active', free', fun fuel hfuel => ?_, hfrees.freed, hlists, hholds, ?_, ?_⟩
  · rw [hhead]
    exact freeLabels_mono hrun (by omega)
  · rw [hfrees.count, h.count, ← hsum, UInt64.ofNat_add]
    grind
  · have hbalance := h.balance
    rw [← hsum, UInt64.ofNat_add] at hbalance
    rw [hfrees.added, hfrees.deleted]
    grind

theorem freeLabels_eq (X : ℕ → BucketIndexer) (t : ℕ) (oldest : UInt64)
    (ls : List (Art.LabelDelete V)) (H : Heap V) :
    Heap.freeLabels X t oldest ls H =
      ((pending (ls.filter fun a => decide (a.epoche < oldest))).foldlM (Heap.free X t)
      H).map fun H' =>
        (ls.filter fun a => !decide (a.epoche < oldest), H') := by
  induction ls generalizing H with
  | nil => rfl
  | cons a ls ih =>
    rw [Heap.freeLabels]
    by_cases hlt : a.epoche < oldest
    · simp only [List.filter_cons, hlt, decide_true, Bool.not_true, if_true, Bool.false_eq_true,
        if_false, pending_cons, List.foldlM_append]
      cases a.nodes.foldlM (Heap.free X t) H with
      | none => rfl
      | some H' => exact ih H'
    · simp only [List.filter_cons, hlt, decide_false, Bool.not_false, if_true,
        Bool.false_eq_true, if_false, ih, Option.map_map]
      rfl

/-- The loop does to the labels in memory what `Heap.freeLabels` does to the list of them, with the
same calls of `deref_tables.free`. -/
theorem Rep.refines (h : s.Rep active free ls) (X : ℕ → BucketIndexer) (t : ℕ) (oldest : UInt64)
    (H : Heap V) :
    ∃ s' active' free' ls' F, (∀ fuel > ls.length, freeLabels (fun epoche =>
      some (!decide (epoche < oldest))) fuel s.headDeletionList none s =
        some s') ∧ s'.Rep active' free' ls' ∧ s'.freed = s.freed ++ F ∧
      Heap.freeLabels X t oldest ls H = (F.foldlM (Heap.free X t) H).map fun H' => (ls', H') := by
  obtain ⟨s', active', free', hrun, hfreed, hrep⟩ :=
    h.freeLabels_spec (fun epoche => some (!decide (epoche < oldest)))
    (fun epoche => !decide (epoche < oldest)) fun _ _ => rfl
  simp only [Bool.not_not] at hfreed
  exact ⟨s', active', free', _, _, hrun, hrep, hfreed, freeLabels_eq X t oldest ls H⟩

/-- Epochs and the counter for the next cleanup do not matter. -/
theorem Rep.set (h : s.Rep active free ls) (localEpoche thresholdCounter currentEpoche : UInt64) :
    Rep { s with localEpoche := localEpoche, thresholdCounter :=
      thresholdCounter, currentEpoche := currentEpoche }
      active free ls :=
  ⟨⟨h.lists.inUse, h.lists.recycled, h.lists.disjoint, h.lists.allocated⟩, h.holds,
    h.count, h.balance⟩

theorem exitEpocheAndCleanup_mono {startGCThreshhold : UInt64} {others : List UInt64}
    {fuel fuel' : ℕ} (h : s.exitEpocheAndCleanup startGCThreshhold others fuel = some s')
    (hle : fuel ≤ fuel') : s.exitEpocheAndCleanup startGCThreshhold others fuel' = some s' := by
  unfold exitEpocheAndCleanup at h ⊢
  simp only at h ⊢
  split_ifs at h ⊢
  all_goals first | exact h | skip
  all_goals
    obtain ⟨s₁, hrun, he⟩ := Option.map_eq_some_iff.1 h
    exact Option.map_eq_some_iff.2 ⟨s₁, freeLabels_mono hrun hle, he⟩

/-- A cleanup frees what it takes off the list. -/
theorem Rep.exitEpocheAndCleanup (h : s.Rep active free ls)
    (startGCThreshhold : UInt64) (others : List UInt64) :
    ∃ s' active' free' ls', (∀ fuel > ls.length, s.exitEpocheAndCleanup startGCThreshhold
      others fuel = some s') ∧
      s'.Rep active' free' ls' ∧ (s'.freed ++ pending ls').Perm (s.freed ++ pending ls) := by
  have hcount : ∃ e, (if s.thresholdCounter &&&
    (64 - 1) = 1 then { s with currentEpoche := s.currentEpoche + 1 } else s) =
      { s with currentEpoche := e } := by
    split_ifs
    · exact ⟨_, rfl⟩
    · exact ⟨s.currentEpoche, rfl⟩
  obtain ⟨e, he⟩ := hcount
  unfold State.exitEpocheAndCleanup
  simp only [he]
  split_ifs
  · exact ⟨_, active, free, ls, fun _ _ => rfl, h.set _ _ _, List.Perm.refl _⟩
  · have hs := h.set (UInt64.ofNat (2 ^ 64 - 1)) s.thresholdCounter e
    generalize holdest : oldestEpoche others
      { s with localEpoche := UInt64.ofNat (2 ^ 64 - 1), currentEpoche := e } = oldest
    obtain ⟨s', active', free', hrun, hfreed, hrep⟩ :=
      hs.freeLabels_spec (fun epoche => some (!decide (epoche < oldest)))
      (fun epoche => !decide (epoche < oldest)) fun _ _ => rfl
    refine ⟨_, active', free', _, fun fuel hfuel => ?_,
      hrep.set s'.localEpoche 0 s'.currentEpoche, ?_⟩
    · rw [hrun fuel hfuel]
      rfl
    · rw [hfreed, List.append_assoc]
      exact (pending_filter (fun epoche => !decide (epoche < oldest)) ls).append_left _
  · exact ⟨_, active, free, ls, fun _ _ => rfl, h.set s.localEpoche s.thresholdCounter
      e, List.Perm.refl _⟩

theorem deleteLabels_mono {head : Option ℕ} {fuel fuel' : ℕ}
    (h : deleteLabels fuel head s = some s') (hle : fuel ≤ fuel') :
    deleteLabels fuel' head s = some s' := by
  induction fuel generalizing head s fuel' with
  | zero => cases h
  | succ fuel ih =>
    obtain ⟨fuel', rfl⟩ := Nat.exists_eq_succ_of_ne_zero (Nat.ne_zero_of_lt hle)
    cases head with
    | none => exact h
    | some c =>
      simp only [deleteLabels, Option.bind_eq_bind, Option.bind_eq_some_iff] at h ⊢
      obtain ⟨l, hl, hrun⟩ := h
      exact ⟨l, hl, ih hrun (Nat.le_of_succ_le_succ hle)⟩

theorem deleteLabels_spec {fuel : ℕ} {head : Option ℕ} (h : IsList (links s.labels) head free)
    (hall : ∀ p ∈ free, (s.labels p).isSome) (hfuel : free.length < fuel) :
    ∃ s', deleteLabels fuel head s = some s' ∧ s'.freed = s.freed ∧
      ∀ p, s'.labels p = if p ∈ free then none else s.labels p := by
  induction free generalizing s head fuel with
  | nil =>
    obtain ⟨fuel, rfl⟩ := Nat.exists_eq_succ_of_ne_zero (Nat.ne_zero_of_lt hfuel)
    have hnone : head = none := h
    subst hnone
    exact ⟨_, rfl, rfl, fun p => rfl⟩
  | cons c free ih =>
    obtain ⟨fuel, rfl⟩ := Nat.exists_eq_succ_of_ne_zero (Nat.ne_zero_of_lt hfuel)
    obtain ⟨hc, hnd⟩ := List.nodup_cons.1 h.nodup
    obtain ⟨l, hl⟩ := Option.isSome_iff_exists.1 (hall c List.mem_cons_self)
    have hnext := h.2
    rw [links_of_some hl] at hnext
    have hne : ∀ p ∈ free, Function.update s.labels c none p = s.labels p := by
      intro p hp
      apply Function.update_of_ne
      rintro rfl
      exact hc hp
    have hsome : ∀ p ∈ free, (Function.update s.labels c none p).isSome := by
      intro p hp
      rw [hne p hp]
      exact hall p (List.mem_cons_of_mem c hp)
    obtain ⟨s', hrun, hfreed, hlabels⟩ :=
      ih (s := { s with labels := Function.update s.labels c none })
      (hnext.congr fun p hp => by simp only [links, hne p hp]) hsome (Nat.lt_of_succ_lt_succ hfuel)
    refine ⟨s', ?_, hfreed, fun p => ?_⟩
    · simp only [h.1, deleteLabels, hl, Option.bind_eq_bind, Option.bind_some]
      exact hrun
    · rw [hlabels]
      by_cases hp : p = c
      · subst hp
        simp
      · simp only [List.mem_cons, hp, false_or, Function.update_of_ne hp]

/-- The end of the `Epoche` frees the rest, unless an assertion fails, and deletes the labels. -/
theorem Rep.destroy (h : s.Rep active free ls) (assertions : Bool) (others : List UInt64)
    (hassert : assertions = true → ∀ a ∈ ls, a.epoche < s.oldestEpoche others) :
    ∃ s' k, (∀ fuel > k, s.destroy assertions others fuel = some s') ∧
      s'.freed.Perm (s.freed ++ pending ls) ∧ ∀ p, s'.labels p = none := by
  generalize holdest : s.oldestEpoche others = oldest at hassert
  obtain ⟨s₁, active₁, free₁, hrun, hfreed, hrep⟩ := h.freeLabels_spec
    (fun epoche => if assertions && !decide (epoche < oldest) then none else some false)
      (fun _ => false) fun a ha => by
      cases assertions with
      | false => rfl
      | true => simp [hassert rfl a ha]
  simp only [Bool.not_false, List.filter_true, List.filter_false] at hfreed hrep
  obtain rfl : active₁ = [] := List.forall₂_nil_right_iff.1 hrep.holds
  obtain ⟨s₂, hdelete, hfreed₂, hlabels⟩ := deleteLabels_spec hrep.lists.recycled
    (fun p hp => (hrep.lists.allocated p).2 (.inr hp)) (Nat.lt_succ_self free₁.length)
  have hempty : s₁.deletitionListCount = 0 ∧ s₁.headDeletionList = none :=
    ⟨hrep.count, hrep.lists.inUse⟩
  refine ⟨s₂, max ls.length free₁.length, fun fuel hfuel => ?_, ?_, fun p => ?_⟩
  · obtain ⟨hfuel₁, hfuel₂⟩ := max_lt_iff.1 hfuel
    simp only [State.destroy, holdest, hrun fuel hfuel₁, Option.bind_eq_bind, Option.bind_some,
      decide_eq_true hempty, Bool.not_true, Bool.and_false, Bool.false_eq_true, if_false]
    exact deleteLabels_mono hdelete hfuel₂
  · rw [hfreed₂, hfreed]
  · rw [hlabels]
    split_ifs with hp
    · rfl
    · have hnone : ¬(s₁.labels p).isSome := by
        rw [hrep.lists.allocated]
        simpa using hp
      simpa using hnone

/-! ### All states -/

/-- How many entries the label at an address has. -/
def nodesCount (s : State V) (p : ℕ) : ℕ := (s.labels p).elim 0 LabelDelete.nodesCount

/-- The lists are as they should be: acyclic, and with labels that have entries. The counters are as
far as a `uint64_t` goes. -/
structure Ordered (s : State V) (active free : List ℕ) : Prop extends s.Lists active free where
  acyclic : active.Nodup ∧ free.Nodup
  filled : ∀ p ∈ active, 1 ≤ s.nodesCount p ∧ s.nodesCount p ≤ 32
  count : s.deletitionListCount = UInt64.ofNat (active.map s.nodesCount).sum
  balance : s.added - s.deleted = UInt64.ofNat (active.map s.nodesCount).sum

theorem Holds.nodesCount {a : Art.LabelDelete V} (h : Holds s.labels p a) :
    s.nodesCount p = a.nodes.length ∧ 1 ≤ s.nodesCount p ∧ s.nodesCount p ≤ 32 := by
  obtain ⟨l, hl, hentries, -, hne⟩ := h
  obtain ⟨hlen, hle⟩ := LabelDelete.length_entries hentries
  have hcount : s.nodesCount p = l.nodesCount := by simp [State.nodesCount, hl]
  have hpos := List.length_pos_iff.2 hne
  rw [hcount]
  omega

theorem sum_nodesCount (h : List.Forall₂ (Holds s.labels) active ls) :
    (active.map s.nodesCount).sum = (pending ls).length := by
  induction h with
  | nil => rfl
  | cons hp _ ih => rw [List.map_cons, List.sum_cons, hp.nodesCount.1, ih, pending_cons,
      List.length_append]

theorem Rep.ordered (h : s.Rep active free ls) : s.Ordered active free := by
  have hsum := sum_nodesCount h.holds
  refine ⟨h.lists, ⟨h.lists.inUse.nodup, h.lists.recycled.nodup⟩, fun p hp => ?_, ?_, ?_⟩
  · obtain ⟨i, hi, rfl⟩ := List.mem_iff_getElem.1 hp
    have hi' : i < ls.length := h.holds.length_eq ▸ hi
    exact (h.holds.get hi hi').nodesCount.2
  · rw [hsum, h.count]
  · rw [hsum, h.balance]

theorem Rep.markNodeForDeletion (h : s.Rep active free ls) (hnew : s.labels new.1 = none)
    (n : PendingDelete V) :
    ∃ s' active' free', s.markNodeForDeletion n new = some s' ∧ s'.freed = s.freed ∧
      s'.Rep active' free' (({ labels := ls } : DeletionList V).add n s.currentEpoche).labels := by
  obtain ⟨labels, head, head', active', free', hadd, hrep⟩ := h.add hnew n s.currentEpoche
  refine ⟨_, active', free', ?_,
    ?_, hrep.set s.localEpoche (s.thresholdCounter + 1) s.currentEpoche⟩
  · rw [State.markNodeForDeletion, hadd]
    rfl
  · rfl

end State

open State

variable {s : State V} {marked : List (PendingDelete V)} {startGCThreshhold : UInt64}

/-- What was retired was freed, or is pending. -/
theorem Reach.rep (h : Reach startGCThreshhold s marked) :
    ∃ active free ls, s.Rep active free ls ∧ (s.freed ++ pending ls).Perm marked := by
  induction h with
  | new localEpoche => exact ⟨[], [], [], rep_new localEpoche, List.Perm.refl _⟩
  | @advance s marked _ e ih =>
    obtain ⟨active, free, ls, hs, hperm⟩ := ih
    exact ⟨active, free, ls, hs.set s.localEpoche s.thresholdCounter e, hperm⟩
  | @enterEpoche s marked _ ih =>
    obtain ⟨active, free, ls, hs, hperm⟩ := ih
    exact ⟨active, free, ls, hs.set s.currentEpoche s.thresholdCounter s.currentEpoche, hperm⟩
  | @markNodeForDeletion s s' marked n new _ hnew hm ih =>
    obtain ⟨active, free, ls, hs, hperm⟩ := ih
    obtain ⟨s₁, active', free', hm', hfreed, hrep⟩ := hs.markNodeForDeletion hnew n
    rw [hm] at hm'
    cases hm'
    refine ⟨active', free', _, hrep, ?_⟩
    rw [hfreed]
    exact ((Heap.pending_add.append_left _).trans List.perm_middle).trans (hperm.cons n)
  | @exitEpocheAndCleanup s s' marked others fuel _ he ih =>
    obtain ⟨active, free, ls, hs, hperm⟩ := ih
    obtain ⟨s₁, active', free', ls', hrun,
      hrep, hfreed⟩ := hs.exitEpocheAndCleanup startGCThreshhold others
    have hsame := exitEpocheAndCleanup_mono he (Nat.le_max_left fuel (ls.length + 1))
    rw [hrun _ (Nat.lt_of_succ_le (Nat.le_max_right _ _))] at hsame
    cases hsame
    exact ⟨active', free', ls', hrep, hfreed.trans hperm⟩
  | @leave s marked _ ih =>
    obtain ⟨active, free, ls, hs, hperm⟩ := ih
    exact ⟨active, free, ls, hs.set
      (UInt64.ofNat (2 ^ 64 - 1)) s.thresholdCounter s.currentEpoche, hperm⟩

/-- What holds whenever no call is running. -/
structure Accounted (startGCThreshhold : UInt64) (s : State V) (marked : List (PendingDelete V))
    (active free : List ℕ) : Prop where
  ordered : s.Ordered active free
  /-- The calls are defined. -/
  markNodeForDeletion : ∀ n new, s.labels new.1 = none → ∃ s', s.markNodeForDeletion n new = some s'
  exitEpocheAndCleanup : ∀ others, ∃ s' k, ∀ fuel > k,
    s.exitEpocheAndCleanup startGCThreshhold others fuel = some s'
  /-- If the `Epoche` is destroyed now, unless an assertion of `~Epoche` fails, everything that was
  retired has been freed once. -/
  destroy : ∀ assertions others,
    (assertions = true → ∀ p ∈ active, ∀ l ∈ s.labels p, l.epoche < s.oldestEpoche others) →
      ∃ s' k, (∀ fuel > k, s.destroy assertions others fuel = some s') ∧ s'.freed.Perm marked ∧
      ∀ p, s'.labels p = none

/-- Everything that is retired is freed once. -/
theorem Reach.accounted (h : Reach startGCThreshhold s marked) :
    ∃ active free, Accounted startGCThreshhold s marked active free := by
  obtain ⟨active, free, ls, hs, hperm⟩ := h.rep
  refine ⟨active, free, hs.ordered, fun n new hnew => ?_, fun others => ?_,
    fun assertions others hassert => ?_⟩
  · obtain ⟨s', -, -, hm, -⟩ := hs.markNodeForDeletion hnew n
    exact ⟨s', hm⟩
  · obtain ⟨s', -, -, -, hrun, -⟩ := hs.exitEpocheAndCleanup startGCThreshhold others
    exact ⟨s', ls.length, hrun⟩
  · have hold : assertions = true → ∀ a ∈ ls, a.epoche < s.oldestEpoche others := by
      intro ha a hmem
      obtain ⟨i, hi, rfl⟩ := List.mem_iff_getElem.1 hmem
      have hi' : i < active.length := hs.holds.length_eq.symm ▸ hi
      obtain ⟨l, hl, -, hepoche, -⟩ := hs.holds.get hi' hi
      have hlt := hassert ha _ (List.get_mem active ⟨i, hi'⟩) l hl
      rw [hepoche] at hlt
      exact hlt
    obtain ⟨s', k, hrun, hfreed, hlabels⟩ := hs.destroy assertions others hold
    exact ⟨s', k, hrun, hfreed.trans hperm, hlabels⟩

/-! ### A run that is executed -/

section Execution

/-- What the thread does next. -/
inductive Action where
  /-- It retires the slot of this number; a label that has to be made gets the number for its
  address. -/
  | mark (i : ℕ)
  /-- Other threads have changed the epoch. -/
  | advance (e : UInt64)
  | enter
  /-- The end of an epoch, with the epochs of the other threads. -/
  | exit (others : List UInt64)
  | leave

/-- A slot. -/
def slot (i : ℕ) : PendingDelete .olc := (⟨24⟩, ⟨UInt64.ofNat i, 5⟩)

/-- The state after the action, with what was retired. -/
def perform (startGCThreshhold : UInt64) : Action → State .olc × List (PendingDelete .olc) →
    Option (State .olc × List (PendingDelete .olc))
  | .mark i, (s, marked) =>
    if (s.labels i).isNone then
      (s.markNodeForDeletion (slot i) (i, ⟨fun _ => slot 0, 0, 0, none⟩)).map fun s =>
        (s, slot i :: marked)
    else none
  | .advance e, (s, marked) => some ({ s with currentEpoche := e }, marked)
  | .enter, (s, marked) => some (s.enterEpoche, marked)
  | .exit others, (s, marked) =>
    (s.exitEpocheAndCleanup startGCThreshhold others 100).map fun s => (s, marked)
  | .leave, (s, marked) => some (s.leave, marked)

theorem Reach.perform {s s' : State .olc} {marked marked' : List (PendingDelete .olc)} {a : Action}
    (h : Reach startGCThreshhold s marked)
    (hp : perform startGCThreshhold a (s, marked) = some (s', marked')) :
    Reach startGCThreshhold s' marked' := by
  cases a with
  | mark i =>
    simp only [Epoche.perform] at hp
    split_ifs at hp with hnone
    obtain ⟨s₁, hm, heq⟩ := Option.map_eq_some_iff.1 hp
    cases heq
    exact h.markNodeForDeletion (Option.isNone_iff_eq_none.1 hnone) hm
  | advance e =>
    cases hp
    exact h.advance e
  | enter =>
    cases hp
    exact h.enterEpoche
  | exit others =>
    obtain ⟨s₁, he, heq⟩ := Option.map_eq_some_iff.1 hp
    cases heq
    exact h.exitEpocheAndCleanup he
  | leave =>
    cases hp
    exact h.leave

theorem Reach.performAll {s s' : State .olc} {marked marked' : List (PendingDelete .olc)}
    {l : List Action} (h : Reach startGCThreshhold s marked)
    (hp : l.foldlM (fun r a => Epoche.perform startGCThreshhold a r) (s, marked) =
      some (s', marked')) :
    Reach startGCThreshhold s' marked' := by
  induction l generalizing s marked with
  | nil =>
    cases hp
    exact h
  | cons a l ih =>
    rw [List.foldlM_cons] at hp
    obtain ⟨⟨s₁, marked₁⟩, ha, hl⟩ := Option.bind_eq_some_iff.1 hp
    exact ih (h.perform ha) hl

/-- The slots of a full label, and three more when the epoch has changed; the cleanup frees the
former only. Then the thread goes. -/
def actions : List Action :=
  .enter :: (List.range 32).map .mark ++
    [.advance 5, .mark 32, .mark 33, .mark 34, .exit [3], .leave]

/-- The state after them, in numbers: the slots that were retired and freed, the oldest epoch if
another thread has gone too, and the label in use. -/
def summary (r : State .olc × List (PendingDelete .olc)) :
    (ℕ × ℕ × UInt64) × Option (Option ℕ × UInt64) :=
  ((r.2.length, r.1.freed.length, r.1.oldestEpoche [UInt64.ofNat (2 ^ 64 - 1)]),
    (r.1.headDeletionList.bind r.1.labels).map fun l => (l.next, l.epoche))

theorem summary_actions : (actions.foldlM (fun r a => perform 30 a r)
      (State.new 9, [])).map summary =
    some ((35, 32, 18446744073709551615), some (none, 5)) := by
  decide +kernel

/-- After that, the assertions of `~Epoche` hold. -/
theorem Reach.accounted_left :
    ∃ (s : State .olc) (marked : List (PendingDelete .olc)), Reach 30 s marked ∧
      marked.length = 35 ∧ s.freed.length = 32 ∧ ∃ active free, Accounted 30 s marked active free ∧
      ∃ s' k, (∀ fuel > k, s.destroy true [UInt64.ofNat (2 ^ 64 - 1)] fuel = some s') ∧
      s'.freed.Perm marked := by
  obtain ⟨⟨s, marked⟩, hrun, hsum⟩ := Option.map_eq_some_iff.1 summary_actions
  simp only [summary, Prod.mk.injEq] at hsum
  obtain ⟨⟨hmarked, hfreed, holdest⟩, hhead⟩ := hsum
  have h := (Reach.new 9).performAll hrun
  obtain ⟨active, free, hacc⟩ := Reach.accounted h
  -- the label at the head is the only one in use
  obtain ⟨l, hl, heq⟩ := Option.map_eq_some_iff.1 hhead
  obtain ⟨p, hp, hl⟩ := Option.bind_eq_some_iff.1 hl
  obtain ⟨hnext, hepoche⟩ := Prod.mk.inj heq
  have hlist := hacc.ordered.inUse
  have hactive : active = [p] := by
    cases active with
    | nil => cases hp.symm.trans hlist
    | cons c rest =>
      obtain rfl : p = c := Option.some.inj (hp.symm.trans hlist.1)
      have hrest := hlist.2
      rw [links_of_some hl, hnext] at hrest
      cases rest with
      | nil => rfl
      | cons d rest => cases hrest.1
  obtain ⟨s', k, hdestroy, hperm, -⟩ :=
    hacc.destroy true [UInt64.ofNat (2 ^ 64 - 1)] fun _ q hq l' hl' => by
    rw [hactive, List.mem_singleton] at hq
    subst hq
    obtain rfl : l = l' := Option.some.inj (hl.symm.trans hl')
    rw [holdest, hepoche]
    decide
  exact ⟨s, marked, h, hmarked, hfreed, active, free, hacc, s', k, hdestroy, hperm⟩

end Execution

end TinyPointerTrees.Art.Epoche
