import TinyPointerTrees.Art.Alone

/-!
# Between two calls of a single thread

`Settled` is what holds of a tree that a single thread uses, between two calls: the
heap represents a radix tree, no node is obsolete, and what is pending in the
deletion list can be freed and is not in the tree. It holds even if a call before
was left with an exception; if none was, the tree is `AtRest`: no node is locked,
and what is allocated is either in the tree or pending.

`Since` collects what a call has done so far, and `Settled.after` and `Rested.after`
say what is then left to show at its end.
-/

namespace TinyPointerTrees.Art

open Conc ArtM

variable {V : Variant} {X : ℕ → BucketIndexer} {A : Tree V} {ids : ℕ → UInt64} {s s' s₁ s₂ : Heap V}
  {R R' : RadixTree UInt8 UInt64} {M M' : Key → Option Ref} {b : ℕ} {p : Key} {n m : Ref}
  {o : Obj V}

/-- Some node of the tree is locked. -/
def Held (s : Heap V) (M : Key → Option Ref) : Prop :=
  ∃ q n, M q = some n ∧ isLocked (s.get n).typeVersionLockObsolete = true

/-- A call starts again, and has done nothing: it will do so for ever. -/
def Stuck (s : Heap V) (M : Key → Option Ref) (e : Leave) (s' : Heap V) : Prop :=
  e = .restart ∧ s' = s ∧ Held s M

/-- A tree between two calls of a single thread. The versions of the nodes were below `b` when the
nodes were last free. -/
structure Settled (A : Tree V) (s : Heap V) (R : RadixTree UInt8 UInt64) (M : Key → Option Ref)
    (b : ℕ) : Prop where
  shape : Shape A s R M
  wf : s.Wf A.indexer
  /-- No node is obsolete. -/
  word : ∀ q n, M q = some n → ∃ v, Word V n (s.get n).typeVersionLockObsolete v ∧
    v % 2 = 0 ∧ v < b + v % 4
  /-- What is pending can be freed. -/
  freeable : Heap.Freeable A.indexer s (s.deletionLists 0).pending
  /-- What is pending is not in the tree. -/
  apart : ∀ q n, M q = some n → n ∉ Heap.refsOf A.indexer (s.deletionLists 0).pending
  /-- A leaf is locked only together with the node above it. -/
  leaf : ∀ q π c n m, R.item q = some ⟨π, none⟩ → M q = some n → M (q ++ π ++ [c]) = some m →
    m.special = leafS → Free (s.get n).typeVersionLockObsolete →
    Free (s.get m).typeVersionLockObsolete

/-- No call was left in between. -/
structure Rested (A : Tree V) (s : Heap V) (M : Key → Option Ref) : Prop where
  /-- No node is locked. -/
  free : ∀ q n, M q = some n → Free (s.get n).typeVersionLockObsolete
  /-- Nothing is leaked. -/
  owned : ∀ n, s.Live n → (∃ q, M q = some n) ∨
    n ∈ Heap.refsOf A.indexer (s.deletionLists 0).pending

/-- A tree between two calls, all of which have returned. -/
structure AtRest (A : Tree V) (s : Heap V) (R : RadixTree UInt8 UInt64) (M : Key → Option Ref)
    (b : ℕ) : Prop extends Settled A s R M b, Rested A s M

theorem Word.isLocked_iff {w : UInt64} {v : ℕ} (h : Word V n w v) :
    isLocked w = true ↔ v / 2 % 2 = 1 := by
  rw [Art.isLocked_iff, h.toNat]
  omega

theorem Rested.not_held (h : Rested A s M) : ¬ Held s M := by
  rintro ⟨q, n, hM, hw⟩
  have := h.free q n hM
  rw [isLocked_iff] at hw
  unfold Free at this
  omega

namespace Settled

theorem held (h : Settled A s R M b) (hM : M p = some n)
    (hw : ¬ Free (s.get n).typeVersionLockObsolete) : Held s M := by
  obtain ⟨v, hv, heven, -⟩ := h.word p n hM
  refine ⟨p, n, hM, hv.isLocked_iff.mpr ?_⟩
  rw [hv.free_iff] at hw
  omega

theorem ends_readLockOrRestart {Q : UInt64 → Heap V → Prop} {E : Leave → Heap V → Prop}
    (h : Settled A s R M b) (hM : M p = some n)
    (hq : Free (s.get n).typeVersionLockObsolete → Q (s.get n).typeVersionLockObsolete s)
    (hE : Stuck s M .restart s → E .restart s) :
    EndsOr (artHandler X ids 0) (readLockOrRestart n) s Q E := by
  by_cases hw : Free (s.get n).typeVersionLockObsolete
  · exact Art.ends_readLockOrRestart (h.shape.live hM) hw (hq hw)
  · refine EndsOr.bind (ends_load (h.shape.live hM) ?_)
    rw [Bool.eq_true_of_not_eq_false (mt (free_iff _).mpr hw)]
    exact EndsOr.throw (hE ⟨rfl, rfl, h.held hM hw⟩)

theorem version (h : Settled A s R M b) (hM : M p = some n)
    (hw : Free (s.get n).typeVersionLockObsolete) :
    ∃ v, Word V n (s.get n).typeVersionLockObsolete v ∧ v % 4 = 0 ∧ v < b := by
  obtain ⟨v, hv, -, hb⟩ := h.word p n hM
  have hmod := hv.free_iff.mp hw
  exact ⟨v, hv, hmod, by omega⟩

end Settled

/-! ### What a call has done -/

namespace Heap

@[simp] theorem live_addWord {d : UInt64} : (s.addWord n d).Live m ↔ s.Live m := live_set

theorem get_addWord_self {d : UInt64} :
    (s.addWord n d).get n = { s.get n with typeVersionLockObsolete :=
      (s.get n).typeVersionLockObsolete + d } :=
  get_set_self

@[simp] theorem get_mark {t : ℕ} {p : ArtTinyPtr V} {h : TinyPtrHashes} :
    (s.mark t p h).get m = s.get m := rfl

@[simp] theorem live_mark {t : ℕ} {p : ArtTinyPtr V} {h : TinyPtrHashes} :
    (s.mark t p h).Live m ↔ s.Live m := Iff.rfl

theorem id_addWord {d : UInt64} : ((s.addWord n d).get m).id = (s.get m).id := by
  by_cases h : m = n
  · rw [h, get_addWord_self]
  · rw [addWord, get_set_ne h]

theorem get_addWord_ne {d : UInt64} (h : m ≠ n) : (s.addWord n d).get m = s.get m := get_set_ne h

end Heap

variable (X) in
/-- What has happened since `s`: the nodes `W` were written, the objects `N` are new, and the
entries `G` were added to what is pending. -/
structure Since (s s' : Heap V) (W N : List Ref) (G : List (PendingDelete V)) : Prop where
  wf : s'.Wf X
  live : ∀ m, s'.Live m ↔ m ∈ N ∨ s.Live m
  fresh : ∀ m ∈ N, ¬ s.Live m
  get : ∀ m, m ∉ W → m ∉ N → s'.get m = s.get m
  pending : (s'.deletionLists 0).pending.Perm (G ++ (s.deletionLists 0).pending)

namespace Since

variable {W N : List Ref} {G : List (PendingDelete V)} {c : ℕ} {h : TinyPtrHashes}
  {q : ArtTinyPtr V}

theorem refl (hs : s.Wf X) (W : List Ref) : Since X s s W [] [] :=
  ⟨hs, by simp, by simp, fun _ _ _ => rfl, List.Perm.refl _⟩

theorem live_old (hs : Since X s s₁ W N G) (hm : s.Live m) : s₁.Live m :=
  (hs.live m).mpr (Or.inr hm)

theorem live_new (hs : Since X s s₁ W N G) (hm : m ∈ N) : s₁.Live m := (hs.live m).mpr (Or.inl hm)

/-- What was neither written nor made. -/
theorem get_old (hs : Since X s s₁ W N G) (hm : s.Live m) (hW : m ∉ W) : s₁.get m = s.get m :=
  hs.get m hW fun hN => hs.fresh m hN hm

theorem set (hs : Since X s s₁ W N G) (hn : n ∈ W ∧ s.Live n ∨ n ∈ N) :
    Since X s (s₁.set n o) W N G := by
  have hl : s₁.Live n := by
    rcases hn with hn | hn
    · exact hs.live_old hn.2
    · exact hs.live_new hn
  refine ⟨hs.wf.set hl, fun m => Heap.live_set.trans (hs.live m), hs.fresh,
    fun m hW hN => ?_, hs.pending⟩
  rw [Heap.get_set_ne, hs.get m hW hN]
  rintro rfl
  rcases hn with hn | hn
  · exact hW hn.1
  · exact hN hn

theorem addWord {d : UInt64} (hs : Since X s s₁ W N G) (hn : n ∈ W ∧ s.Live n ∨ n ∈ N) :
    Since X s (s₁.addWord n d) W N G :=
  hs.set hn

theorem made (hs : Since X s s₁ W N G) (hm : Made X s₁ s₂ c h q n o) :
    Since X s s₂ W (n :: N) G := by
  have hfresh := hm.fresh
  rw [hs.live, not_or] at hfresh
  refine ⟨hm.wf, fun m => ?_, fun m hm' => ?_,
    fun m hW hN => ?_, by rw [hm.lists]; exact hs.pending⟩
  · rw [hm.live, hs.live, List.mem_cons, or_assoc]
  · rcases List.mem_cons.mp hm' with rfl | hm'
    · exact hfresh.2
    · exact hs.fresh m hm'
  · rw [List.mem_cons, not_or] at hN
    rw [hm.get m hN.1, hs.get m hW hN.2]

theorem refused (hs : Since X s s₁ W N G) (hr : Heap.Refused X s₁ s₂) : Since X s s₂ W N G :=
  ⟨hr.wf, fun m => (hr.live m).trans (hs.live m), hs.fresh, fun m hW hN =>
    (hr.get m).trans (hs.get m hW hN), by rw [hr.lists]; exact hs.pending⟩

/-- What is free was free before, or it is not new. -/
theorem crowded {l : ℕ} (hs : Since X s s₁ W N G) (hc : Heap.Crowded X s₁ l) :
    Heap.Crowded X s (l + N.length) := by
  obtain ⟨c, b, hb, hle⟩ := hc
  refine ⟨c, b, hb, ?_⟩
  have hsub : Table.freeIn V.layout (s.tables c).held b ⊆
      Table.freeIn V.layout (s₁.tables c).held b ∪ ↑(N.map fun n => n.slot.index).toFinset := by
    rintro i ⟨hi, hfree⟩
    by_cases hlive : s₁.Live ⟨c, b, i⟩
    · refine Or.inr ?_
      rw [Finset.mem_coe, List.mem_toFinset]
      exact List.mem_map_of_mem (((hs.live _).mp hlive).resolve_right hfree)
    · exact Or.inl ⟨hi, hlive⟩
  have hfin : (Table.freeIn V.layout (s₁.tables c).held b).Finite :=
    (Set.finite_Iio _).subset fun i hi => hi.1
  calc (Table.freeIn V.layout (s.tables c).held b).ncard
      ≤ (Table.freeIn V.layout (s₁.tables c).held b ∪
          ↑(N.map fun n => n.slot.index).toFinset).ncard :=
        Set.ncard_le_ncard hsub (hfin.union (Finset.finite_toSet _))
    _ ≤ (Table.freeIn V.layout (s₁.tables c).held b).ncard +
          (N.map fun n => n.slot.index).toFinset.card := by
        rw [← Set.ncard_coe_finset]
        exact Set.ncard_union_le _ _
    _ ≤ l + N.length := by
        have := (N.map fun n => n.slot.index).toFinset_card_le
        rw [List.length_map] at this
        omega

theorem mark (hs : Since X s s₁ W N G) : Since X s (s₁.mark 0 q h) W N ((q, h) :: G) :=
  ⟨hs.wf, hs.live, hs.fresh, hs.get, Heap.pending_mark.trans (hs.pending.cons _)⟩

theorem mem_refsOf (hs : Since X s s₁ W N G) : n ∈ Heap.refsOf X (s₁.deletionLists 0).pending ↔
    n ∈ Heap.refsOf X G ∨ n ∈ Heap.refsOf X (s.deletionLists 0).pending := by
  unfold Heap.refsOf
  rw [(hs.pending.map _).mem_iff, List.map_append, List.mem_append]

end Since

/-! ### The end of a call -/

section After

variable {W N : List Ref} {G : List (PendingDelete V)} {b' : ℕ}

theorem Settled.after (h : Settled A s R M b) (hb : b ≤ b') (hs : Since A.indexer s s' W N G)
    (hshape : Shape A s' R' M') (hM : ∀ q n, M' q = some n → (∃ q₀, M q₀ = some n) ∨ n ∈ N)
    (hnd : (Heap.refsOf A.indexer G).Nodup) (hG : ∀ n ∈ Heap.refsOf A.indexer G, ∃ q, M q = some n)
    (hout : ∀ q n, M' q = some n → n ∉ Heap.refsOf A.indexer G)
    (hword : ∀ q n, M' q = some n → n ∈ W ∨ n ∈ N → ∃ v, Word V n (s'.get n).typeVersionLockObsolete
      v ∧ v % 2 = 0 ∧ v < b' + v % 4)
    (hleaf : ∀ q π c n m, R'.item q = some ⟨π, none⟩ → M' q = some n → M' (q ++ π ++ [c]) = some m →
      m.special = leafS → (n ∈ W ∨ n ∈ N) ∨ m ∈ W ∨ m ∈ N →
      Free (s'.get n).typeVersionLockObsolete → Free (s'.get m).typeVersionLockObsolete) :
    Settled A s' R' M' b' := by
  refine ⟨hshape, hs.wf, fun q n hq => ?_, ?_, fun q n hq => ?_,
    fun q π c n m hitem hq hm hms hfree => ?_⟩
  · by_cases hn : n ∈ W ∨ n ∈ N
    · exact hword q n hq hn
    · rw [not_or] at hn
      obtain ⟨q₀, hq₀⟩ := (hM q n hq).resolve_right hn.2
      obtain ⟨v, hv, heven, hlt⟩ := h.word q₀ n hq₀
      rw [hs.get n hn.1 hn.2]
      exact ⟨v, hv, heven, by omega⟩
  · have hlive : ∀ e ∈ G, ∃ q, M q = some (Heap.refOf A.indexer e.1 e.2) :=
      fun e he => hG _ (List.mem_map_of_mem he)
    refine ⟨?_, fun e he => hs.live_old ?_, fun e he => ?_⟩
    · unfold Heap.refsOf
      rw [(hs.pending.map _).nodup_iff, List.map_append, List.nodup_append]
      refine ⟨hnd, h.freeable.nodup, fun n hn n' hn' he => ?_⟩
      subst he
      obtain ⟨q, hq⟩ := hG n hn
      exact h.apart q n hq hn'
    · rcases List.mem_append.mp (hs.pending.mem_iff.mp he) with he | he
      · obtain ⟨q, hq⟩ := hlive e he
        exact h.shape.live hq
      · exact h.freeable.live e he
    · rcases List.mem_append.mp (hs.pending.mem_iff.mp he) with he | he
      · obtain ⟨q, hq⟩ := hlive e he
        rcases h.shape.item hq with ⟨-, -, -, hn, -⟩ | ⟨π, t, -, hi⟩
        · exact Or.inl hn
        · refine Or.inr (Option.isSome_iff_exists.mpr ⟨t, hi.nodeType⟩)
      · exact h.freeable.table e he
  · rw [hs.mem_refsOf, not_or]
    refine ⟨hout q n hq, fun hn => ?_⟩
    rcases hM q n hq with ⟨q₀, hq₀⟩ | hN
    · exact h.apart q₀ n hq₀ hn
    · obtain ⟨e, he, rfl⟩ := List.mem_map.mp hn
      exact hs.fresh _ hN (h.freeable.live e he)
  · by_cases hn : (n ∈ W ∨ n ∈ N) ∨ m ∈ W ∨ m ∈ N
    · exact hleaf q π c n m hitem hq hm hms hn hfree
    · -- neither was touched, so the edge between them is an old one
      simp only [not_or] at hn
      obtain ⟨⟨hnW, hnN⟩, hmW, hmN⟩ := hn
      obtain ⟨q₀, hq₀⟩ := (hM q n hq).resolve_right hnN
      obtain ⟨n', t, hn', -, hi⟩ := hshape.inner hitem
      rw [hq] at hn'
      cases hn'
      have hget := hs.get n hnW hnN
      rcases h.shape.item hq₀ with ⟨-, -, -, hns, -⟩ | ⟨π₀, t₀, hitem₀, hi₀⟩
      · have := hi.nodeType
        rw [hns] at this
        exact absurd rfl (V.nodeType_ne_leafS (c := leafS)
          (by rw [this]; exact Option.some_ne_none t))
      · have ht : t₀ = t := Option.some.inj (hi₀.nodeType.symm.trans hi.nodeType)
        subst ht
        have hd := hi.denotes hm
        rw [hget] at hd
        have hm₀ : M (q₀ ++ π₀ ++ [c]) = some m := by
          obtain ⟨m₀, hm₀⟩ := Option.ne_none_iff_exists'.mp fun h₀ => hd.1 (hi₀.getChild_eq_null h₀)
          rw [hm₀, ← (hi₀.denotes hm₀).2.2, hd.2.2]
        rw [hget] at hfree
        rw [hs.get m hmW hmN]
        exact h.leaf q₀ π₀ c n m hitem₀ hq₀ hm₀ hms hfree

theorem Rested.after (h : Rested A s M) (hs : Since A.indexer s s' W N G)
    (hM : ∀ q n, M' q = some n → (∃ q₀, M q₀ = some n) ∨ n ∈ N)
    (hM' : ∀ q n, M q = some n → (∃ q', M' q' = some n) ∨ n ∈ Heap.refsOf A.indexer G)
    (hN : ∀ n ∈ N, ∃ q, M' q = some n)
    (hfree : ∀ q n, M' q = some n → n ∈ W ∨ n ∈ N → Free (s'.get n).typeVersionLockObsolete) :
    Rested A s' M' := by
  refine ⟨fun q n hq => ?_, fun n hn => ?_⟩
  · by_cases hn : n ∈ W ∨ n ∈ N
    · exact hfree q n hq hn
    · rw [not_or] at hn
      obtain ⟨q₀, hq₀⟩ := (hM q n hq).resolve_right hn.2
      rw [hs.get n hn.1 hn.2]
      exact h.free q₀ n hq₀
  · rw [hs.mem_refsOf]
    rcases (hs.live n).mp hn with hn | hn
    · exact Or.inl (hN n hn)
    · rcases h.owned n hn with ⟨q, hq⟩ | hn
      · exact (hM' q n hq).imp_right Or.inl
      · exact Or.inr (Or.inr hn)

end After

/-- Only the tables and what is pending matter. -/
theorem Settled.congr (h : Settled A s R M b) (ht : s'.tables = s.tables)
    (hp : (s'.deletionLists 0).pending = (s.deletionLists 0).pending) : Settled A s' R M b := by
  have hlive : ∀ n, s'.Live n ↔ s.Live n := by
    intro n
    unfold Heap.Live
    rw [ht]
  have hget : ∀ n, s'.get n = s.get n := by
    intro n
    unfold Heap.get
    rw [ht]
  refine ⟨h.shape.congr fun q n hM => ⟨(hlive n).mpr (h.shape.live hM), SameBody.of_eq (hget n)⟩,
    fun c => ht ▸ h.wf c, fun q n hM => ?_, ?_, fun q n hM => ?_, fun q π c n m => ?_⟩
  · rw [hget]
    exact h.word q n hM
  · rw [hp]
    exact ⟨h.freeable.nodup, fun e he => (hlive _).mpr (h.freeable.live e he), h.freeable.table⟩
  · rw [hp]
    exact h.apart q n hM
  · rw [hget, hget]
    exact h.leaf q π c n m

theorem Rested.congr (h : Rested A s M) (ht : s'.tables = s.tables)
    (hp : (s'.deletionLists 0).pending = (s.deletionLists 0).pending) : Rested A s' M := by
  refine ⟨fun q n hM => ?_, fun n hn => ?_⟩
  · have := h.free q n hM
    unfold Heap.get at this ⊢
    rwa [ht]
  · rw [hp]
    refine h.owned n ?_
    unfold Heap.Live at hn ⊢
    rwa [ht] at hn

theorem AtRest.congr (h : AtRest A s R M b) (ht : s'.tables = s.tables)
    (hp : (s'.deletionLists 0).pending = (s.deletionLists 0).pending) : AtRest A s' R M b :=
  ⟨h.toSettled.congr ht hp, h.toRested.congr ht hp⟩

/-- The end of an epoch does not touch the tree. -/
theorem Settled.cleaned (h : Settled A s R M b) {F : List Ref}
    (hc : Heap.Cleaned A.indexer 0 s s' F) : Settled A s' R M b := by
  have hF : ∀ q n, M q = some n → n ∉ F := fun q n hM hn =>
    h.apart q n hM (hc.pending.mem_iff.mp (List.mem_append_right _ hn))
  have hsub : ∀ n ∈ Heap.refsOf A.indexer (s'.deletionLists 0).pending,
      n ∈ Heap.refsOf A.indexer (s.deletionLists 0).pending ∧ n ∉ F := by
    intro n hn
    refine ⟨hc.pending.mem_iff.mp (List.mem_append_left _ hn), fun hf => ?_⟩
    exact (List.nodup_append.mp (hc.pending.nodup_iff.mpr h.freeable.nodup)).2.2 n hn n hf rfl
  refine ⟨h.shape.congr fun q n hM => ⟨(hc.live n).mpr ⟨h.shape.live hM, hF q n hM⟩,
    SameBody.of_eq (hc.get n (hF q n hM))⟩, hc.wf, fun q n hM => ?_, ⟨?_, fun e he => ?_,
    fun e he => ?_⟩, fun q n hM hn => ?_, fun q π c n m hi hM hm => ?_⟩
  · rw [hc.get n (hF q n hM)]
    exact h.word q n hM
  · exact (List.nodup_append.mp (hc.pending.nodup_iff.mpr h.freeable.nodup)).1
  · obtain ⟨h₁, h₂⟩ := hsub _ (List.mem_map_of_mem he)
    obtain ⟨e', he', heq⟩ := List.mem_map.mp h₁
    exact (hc.live _).mpr ⟨heq ▸ h.freeable.live e' he', h₂⟩
  · obtain ⟨h₁, -⟩ := hsub _ (List.mem_map_of_mem he)
    obtain ⟨e', he', heq⟩ := List.mem_map.mp h₁
    have : e'.1.special = e.1.special := congrArg Ref.special heq
    rw [← this]
    exact h.freeable.table e' he'
  · exact h.apart q n hM (hsub n hn).1
  · rw [hc.get n (hF q n hM), hc.get m (hF _ m hm)]
    exact h.leaf q π c n m hi hM hm

theorem Rested.cleaned (h : Rested A s M) {F : List Ref} (hs : Settled A s R M b)
    (hc : Heap.Cleaned A.indexer 0 s s' F) : Rested A s' M := by
  refine ⟨fun q n hM => ?_, fun n hn => ?_⟩
  · rw [hc.get n fun hn => hs.apart q n hM (hc.pending.mem_iff.mp (List.mem_append_right _ hn))]
    exact h.free q n hM
  · obtain ⟨hl, hF⟩ := (hc.live n).mp hn
    refine (h.owned n hl).imp_right fun hp => ?_
    exact (List.mem_append.mp (hc.pending.mem_iff.mpr hp)).resolve_right hF

theorem Held.cleaned (h : Held s M) {F : List Ref} (hs : Settled A s R M b)
    (hc : Heap.Cleaned A.indexer 0 s s' F) : Held s' M := by
  obtain ⟨q, n, hM, hw⟩ := h
  refine ⟨q, n, hM, ?_⟩
  rwa [hc.get n fun hn => hs.apart q n hM (hc.pending.mem_iff.mp (List.mem_append_right _ hn))]

end TinyPointerTrees.Art
