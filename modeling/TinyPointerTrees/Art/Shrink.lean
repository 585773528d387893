import TinyPointerTrees.Art.ChildMap
import TinyPointerTrees.Art.Runs

/-!
# Removing a child

`removeAndShrink` and `removeAndUnlock` of `N.cpp`, which no other code calls. A node with
few children gives way to a copy of a smaller class, without the child. Few is said by the
counter, and that of an `N256` has eight bits. `TINY_ART_256_OLC` has one class, and removes
in place.

* `Container.Built.consistent` — the counter is right after all calls, as far as eight bits go.
* `removeAndUnlock_iff` — the node is as it was but for the child, nothing stays locked, and a
  node that gives way is pending once, exactly when the copy can be allocated if one is needed.
* `not_removeAndUnlock` — else the exception leaves the node and its parent locked.
-/

namespace TinyPointerTrees.Art

open Conc ArtM

variable {V : Variant}

/-! ### The counters -/

/-- `smallerN`, for each class. -/
def Variant.smallerS : Variant → ℕ → ℕ
  | .olc, 3 => 2
  | .olc, _ => 1
  | .olc64, 3 => 1
  | .olc64, _ => 2
  | .olc256, c => c

/-- The count at which a node is underfull. -/
def Variant.underfullCount : Variant → NodeType → Option UInt8
  | .olc, .n16 => some 3
  | .olc, .n256 => some 13
  | .olc64, .n64 => some 12
  | .olc64, .n256 => some 53
  | _, _ => none

namespace Obj

/-- `getCount`. -/
def getCount (t : NodeType) (o : Obj V) : UInt8 :=
  match t.capacity with
  | none => o.count
  | some _ => UInt8.ofNat o.entries.length

/-- `isUnderfull`. -/
def isUnderfull (t : NodeType) (o : Obj V) : Bool :=
  match V.underfullCount t with
  | none => false
  | some n => o.getCount t == n

/-- `remove`; nothing when an assertion of `N16` or `N64` fails. -/
def removeChild (t : NodeType) (k : UInt8) (o : Obj V) : Option (Obj V) :=
  match t with
  | .n16 | .n64 =>
    if (o.entries.lookup k).isSome ∧ (o.remove t k).getChild t k = .null then some (o.remove t k)
    else none
  | _ => some (o.remove t k)

/-- The arrays are sound, and the counter counts them, as far as it can. -/
structure Consistent (t : NodeType) (o : Obj V) : Prop extends o.Sound t where
  count : o.getCount t = UInt8.ofNat (o.listed t).length

variable {t t' : NodeType} {o o' : Obj V} {key k c : UInt8} {p val : ArtTinyPtr V}

theorem getCount_of_capacity {n : ℕ} (ht : t.capacity = some n) :
    o.getCount t = UInt8.ofNat (o.listed t).length := by
  simp only [getCount, listed, ht]

theorem Sound.consistent {n : ℕ} (h : o.Sound t) (ht : t.capacity = some n) : o.Consistent t :=
  ⟨h, getCount_of_capacity ht⟩

variable (t o) in
/-- The keys under which a node has a child. -/
def keySet : Set UInt8 := {c | o.getChild t c ≠ .null}

theorem Sound.coe_keys (h : o.Sound t) : ↑((o.listed t).map Prod.fst).toFinset = o.keySet t := by
  ext c
  rw [Finset.mem_coe, List.mem_toFinset, List.mem_map]
  constructor
  · rintro ⟨⟨_, q⟩, he, rfl⟩
    obtain ⟨rfl, hq⟩ := (h.listed.2 _ q).1 he
    exact hq
  · exact fun hc => ⟨(c, o.getChild t c), (h.listed.2 c _).2 ⟨rfl, hc⟩, rfl⟩

theorem Sound.finite_keySet (h : o.Sound t) : (o.keySet t).Finite :=
  h.coe_keys ▸ Finset.finite_toSet _

theorem Sound.length_listed (h : o.Sound t) : (o.listed t).length = (o.keySet t).ncard := by
  rw [← h.coe_keys, Set.ncard_coe_finset, List.toFinset_card_of_nodup h.listed.1, List.length_map]

theorem listed_construct (special : ℕ) (id : UInt64) (src : List UInt8) (l : ℕ) :
    (o.construct special id src l).listed t = [] := by
  refine List.eq_nil_iff_forall_not_mem.2 fun e he => ?_
  obtain ⟨hchild, hnull⟩ := ((sound_construct special id src l).listed.2 e.1 e.2).1 he
  exact hnull (hchild.trans (getChild_construct special id src l))

theorem count_setPrefix (src : List UInt8) (l : ℕ) : (o.setPrefix src l).count = o.count := by
  unfold setPrefix
  split_ifs <;> rfl

theorem consistent_construct (special : ℕ) (id : UInt64) (src : List UInt8) (l : ℕ) :
    (o.construct special id src l).Consistent t := by
  cases ht : t.capacity with
  | some n => exact (sound_construct special id src l).consistent ht
  | none =>
    refine ⟨sound_construct special id src l, ?_⟩
    rw [listed_construct]
    simp only [getCount, ht]
    exact count_setPrefix src l

theorem length_listed_insert (h : o.Sound t) (hi : o.insert t key p = some o') (hp : p ≠ .null)
    (hk : o.getChild t key = .null) : (o'.listed t).length = (o.listed t).length + 1 := by
  have hkeys : o'.keySet t = Insert.insert key (o.keySet t) := by
    ext c
    by_cases hc : c = key <;> simp [keySet, getChild_insert h hi hk, hc, hp]
  have hnot : key ∉ o.keySet t := fun hm => hm hk
  rw [(h.insert hi hp hk).length_listed, h.length_listed, hkeys, Set.ncard_insert_of_notMem hnot
    h.finite_keySet]

theorem length_listed_change (h : o.Sound t) (hc : o.change t key val = some o') (hv : val ≠ .null)
    (hk : o.getChild t key ≠ .null) : (o'.listed t).length = (o.listed t).length := by
  have hkeys : o'.keySet t = o.keySet t := by
    ext c
    by_cases hc' : c = key <;> simp [keySet, getChild_change hc, hc', hv, hk]
  rw [(h.change hc hv).length_listed, h.length_listed, hkeys]

theorem length_listed_remove (h : o.Sound t) (hk : o.getChild t k ≠ .null) :
    (o.listed t).length = ((o.remove t k).listed t).length + 1 := by
  have hr : (o.remove t k).Sound t := h.remove
  have hkeys : o.keySet t = Insert.insert k ((o.remove t k).keySet t) := by
    ext c
    by_cases hc : c = k <;> simp [keySet, getChild_remove h, hc, hk]
  have hnot : k ∉ (o.remove t k).keySet t := fun hm => hm (by rw [getChild_remove h, if_pos rfl])
  rw [h.length_listed, hr.length_listed, hkeys, Set.ncard_insert_of_notMem hnot hr.finite_keySet]

/-- `insert` keeps the counter right. -/
theorem Consistent.insert (h : o.Consistent t) (hi : o.insert t key p = some o') (hp : p ≠ .null)
    (hk : o.getChild t key = .null) : o'.Consistent t := by
  cases ht : t.capacity with
  | some n => exact (h.toSound.insert hi hp hk).consistent ht
  | none =>
    refine ⟨h.toSound.insert hi hp hk, ?_⟩
    rw [length_listed_insert h.toSound hi hp hk, UInt8.ofNat_add, ← h.count]
    simp only [Obj.insert, ht, Option.some.injEq] at hi
    subst hi
    simp only [getCount, ht]
    rfl

/-- `change` keeps the counter right. -/
theorem Consistent.change (h : o.Consistent t) (hc : o.change t key val = some o')
    (hv : val ≠ .null) (hk : o.getChild t key ≠ .null) : o'.Consistent t := by
  cases ht : t.capacity with
  | some n => exact (h.toSound.change hc hv).consistent ht
  | none =>
    refine ⟨h.toSound.change hc hv, ?_⟩
    rw [length_listed_change h.toSound hc hv hk, ← h.count]
    simp only [Obj.change, ht, Option.some.injEq] at hc
    subst hc
    simp only [getCount, ht]

/-- `remove` keeps the counter right. -/
theorem Consistent.remove (h : o.Consistent t) (hk : o.getChild t k ≠ .null) :
    (o.remove t k).Consistent t := by
  cases ht : t.capacity with
  | some n => exact h.toSound.remove.consistent ht
  | none =>
    refine ⟨h.toSound.remove, ?_⟩
    have hcount : o.count = UInt8.ofNat ((o.remove t k).listed t).length + UInt8.ofNat 1 := by
      rw [← UInt8.ofNat_add, ← length_listed_remove h.toSound hk, ← h.count]
      simp only [getCount, ht]
    have hremove : (o.remove t k).getCount t = o.count - 1 := by
      simp only [getCount, Obj.remove, ht]
    rw [hremove, hcount]
    exact UInt8.add_sub_cancel _ _

/-- The assertions hold when the child is there. -/
theorem removeChild_eq (h : o.Sound t) (hk : o.getChild t k ≠ .null) :
    o.removeChild t k = some (o.remove t k) := by
  have hgone : (o.remove t k).getChild t k = .null := by rw [getChild_remove h, if_pos rfl]
  have hthere : ∀ n, t.capacity = some n → (o.entries.lookup k).isSome = true := by
    intro n ht
    rw [Option.isSome_iff_ne_none]
    intro hnone
    simp only [getChild, ht, hnone] at hk
    exact hk rfl
  cases t with
  | n4 => rfl
  | n16 => exact if_pos ⟨hthere 16 rfl, hgone⟩
  | n64 => exact if_pos ⟨hthere 64 rfl, hgone⟩
  | n256 => rfl

theorem length_listed_le (h : o.Sound t) : (o.listed t).length ≤ 256 := by
  cases ht : t.capacity with
  | none =>
    simp only [listed, ht]
    refine (List.length_filter_le _ _).trans_eq ?_
    rw [List.length_map, List.length_range]
  | some n =>
    have hle := h.length_le n ht
    simp only [listed, ht]
    cases t <;> cases ht <;> omega

/-- A node that is underfull fits in the smaller class: its counter has not wrapped. -/
theorem Consistent.room {special : ℕ} (h : o.Consistent t) (ht : V.nodeType special = some t)
    (hu : o.isUnderfull t = true) :
    ∃ t' n, V.nodeType (V.smallerS special) = some t' ∧ t'.capacity = some n ∧
      (o.listed t).length ≤ n := by
  obtain ⟨m, hm, hcount⟩ : ∃ m, V.underfullCount t = some m ∧ o.getCount t = m := by
    unfold isUnderfull at hu
    cases hm : V.underfullCount t with
    | none =>
      rw [hm] at hu
      cases hu
    | some m =>
      rw [hm] at hu
      exact ⟨m, rfl, beq_iff_eq.1 hu⟩
  have hle := length_listed_le h.toSound
  rw [h.count, ← UInt8.toNat_inj, UInt8.toNat_ofNat'] at hcount
  unfold Variant.nodeType at ht
  split at ht <;> cases ht <;> cases hm
  all_goals
    simp only [UInt8.reduceToNat] at hcount
    exact ⟨_, _, rfl, rfl, by omega⟩

/-- What `copyTo` leaves in a new node with enough room. -/
theorem copyTo_room {n : ℕ} (h : o.Sound t) (ht' : t'.capacity = some n)
    (hroom : (o.listed t).length ≤ n) (ho' : o'.Sound t') (hnew : o'.entries = [])
    (hnull : ∀ c, o'.getChild t' c = .null) :
    ∃ o'', o.copyTo t t' o' = some o'' ∧ o''.Sound t' ∧ SameHead o' o'' ∧
      ∀ c, o''.getChild t' c = o.getChild t c := by
  obtain ⟨hnd, hl⟩ := h.listed
  obtain ⟨o'', hc, hs, hh, -, hg⟩ := copy_spec hnd (fun e he => ((hl e.1 e.2).1 he).2) ho'
    (fun e _ => hnull e.1)
    fun m hm => by
      rw [ht', Option.mem_some_iff] at hm
      rw [hnew, List.length_nil, Nat.zero_add, ← hm]
      exact hroom
  refine ⟨o'', hc, hs, hh, fun c => ?_⟩
  rw [hg, hnull]
  cases hlookup : (o.listed t).lookup c with
  | none =>
    by_contra hne
    have hm := (hl c (o.getChild t c)).2 ⟨rfl, fun h0 => hne (by rw [h0]; rfl)⟩
    exact absurd (List.lookup_eq_none_iff.1 hlookup _ hm) (by simp)
  | some q =>
    obtain ⟨l₁, l₂, hsplit, -⟩ := List.lookup_eq_some_iff.1 hlookup
    exact ((hl c q).1 (by simp [hsplit])).1

end Obj

/-- Whatever is inserted, changed and removed, the counter of a node is right. -/
theorem Container.Built.consistent {avx512 : Bool}
    {c : Container V} {m : UInt8 → ArtTinyPtr V} (h : Container.Built avx512 c m) :
    (c.toObj (Container.blank V)).Consistent c.type := by
  induction h with
  | @new c h =>
    refine ⟨(Container.Built.new h : Container.Built avx512 c _).stands.sound, ?_⟩
    rw [Container.listed_toObj, Container.listed_of_isNew h]
    cases c with
    | n4 a | n16 a | n64 a =>
        exact congrArg (fun l => UInt8.ofNat l.length) (Container.listed_of_isNew h)
    | n256 a => exact h.1
  | @insert c c' m key p h hk hfull hp hi ih =>
    obtain ⟨c₁, hi₁, ht, ho⟩ := Container.insert_toObj avx512 (Container.blank V) key p hfull
    rw [hi] at hi₁
    cases hi₁
    rw [ht]
    exact ih.insert ho hp ((h.stands.getChild_obj key).trans hk)
  | @change c c' m key val h hk hp hc ih =>
    have ho := Container.change_toObj avx512 (Container.blank V) key val (c := c)
    rw [hc, Option.map_some] at ho
    rw [Container.type_change hc]
    exact ih.change ho hp ((h.stands.getChild_obj key).trans_ne hk)
  | @remove c c' m k h hk hr ih =>
    obtain ⟨c₁, hr₁, ht, ho⟩ := Container.remove_toObj ih.toSound
      ((h.stands.getChild k).trans_ne hk)
    rw [hr] at hr₁
    cases hr₁
    rw [ho, ht]
    exact ih.remove ((h.stands.getChild_obj k).trans_ne hk)

/-! ### The code -/

/-- `remove`, of a node whose class is known. -/
def removeChild (n : Ref) (k : UInt8) : ArtM V Unit :=
  access (.write n fun o => (V.nodeType n.special).bind fun t => o.removeChild t k)

namespace Tree

/-- `removeAndShrink` of a node that is not underfull, or has no parent. -/
def removeInPlace (n : Ref) (v : UInt64) (parentNode : Option Ref) (parentVersion : UInt64)
    (key : UInt8) : ArtM V Unit := do
  match parentNode with
  | some parentNode => readUnlockOrRestart parentNode parentVersion
  | none => pure ()
  upgradeToWriteLockOrRestart n v
  removeChild n key
  writeUnlock n

/-- `removeAndShrink` of a node that gives way. -/
def shrink (n : Ref) (nodeTinyPtr : ArtTinyPtr V) (h : TinyPtrHashes) (v : UInt64)
    (parentNode : Ref) (parentVersion : UInt64) (keyParent key : UInt8) : ArtM V Unit := do
  upgradeToWriteLockOrRestart parentNode parentVersion
  let upgraded ← upgradeToWriteLock n v
  if !upgraded then
    writeUnlock parentNode
    throw .restart
  else
  let o ← read n
  let nSmall ← create (V.smallerS n.special) o.getPrefix o.prefixCount h
  access (.write nSmall.2 fun o' => some { o' with id := o.id })
  access (.write nSmall.2 fun o' => (V.nodeType n.special).bind fun t =>
    (V.nodeType (V.smallerS n.special)).bind fun t' => o.copyTo t t' o')
  removeChild nSmall.2 key
  change parentNode keyParent nSmall.1
  writeUnlockObsolete n
  Throwing.op (.markNodeForDeletion nodeTinyPtr h)
  writeUnlock parentNode

/-- `removeAndShrink`. -/
def removeAndShrink (n : Ref) (nodeTinyPtr : ArtTinyPtr V) (h : TinyPtrHashes) (v : UInt64)
    (parentNode : Option Ref) (parentVersion : UInt64) (keyParent key : UInt8) : ArtM V Unit := do
  let o ← read n
  let t ← defined (V.nodeType n.special)
  match o.isUnderfull t, parentNode with
  | true, some parentNode => shrink n nodeTinyPtr h v parentNode parentVersion keyParent key
  | _, _ => removeInPlace n v parentNode parentVersion key

variable (T : Tree V)

/-- `removeAndUnlock`. The class that `node.special()` names is that of the table. -/
def removeAndUnlock (node : ArtTinyPtr V) (h : TinyPtrHashes) (v : UInt64) (key : UInt8)
    (parentNode : Option Ref) (parentVersion : UInt64) (keyParent : UInt8) : ArtM V Unit := do
  let n ← T.dereference node h
  removeAndShrink n node h v parentNode parentVersion keyParent key

end Tree

/-! ### What is expected -/

/-- `o'` is `o` without the child of `k`, as a node of another class perhaps. -/
structure Obj.Without (t t' : NodeType) (k : UInt8) (o o' : Obj V) : Prop where
  consistent : o'.Consistent t'
  id : o'.id = o.id
  prefixCount : o'.prefixCount = o.prefixCount
  prefixBytes : ∀ j : Fin maxStoredPrefixLength, j.val < o.prefixCount →
    o'.prefixBytes j = o.prefixBytes j
  getChild : ∀ c, o'.getChild t' c = if c = k then .null else o.getChild t c
  /-- There is room for all children, also that of `k`. -/
  room : ∀ n ∈ t'.capacity, (o.listed t).length ≤ n

/-- A node that nobody has locked. -/
structure Heap.Node (s : Heap V) (n : Ref) (t : NodeType) : Prop where
  nodeType : V.nodeType n.special = some t
  live : s.Live n
  free : Free (s.get n).typeVersionLockObsolete

/-- The class in the lock word is right. -/
def Heap.Typed (s : Heap V) (n : Ref) : Prop := V.typed = true → (s.get n).getType = n.special

/-- There is a version left. -/
def Heap.Roomy (s : Heap V) (n : Ref) : Prop :=
  (s.get n).typeVersionLockObsolete.toNat % 2 ^ 62 + 4 < 2 ^ 62

/-- The node `n` is found under `k₀` of its parent, and nobody works on the two. -/
structure Hangs (A : Tree V) (s : Heap V) (ptr : ArtTinyPtr V) (hash : TinyPtrHashes) (n : Ref)
    (t : NodeType) (n₀ : Ref) (t₀ : NodeType) (k₀ : UInt8) : Prop where
  wf : s.Wf A.indexer
  denotes : Denotes A.indexer ptr hash (some n)
  ne : n ≠ n₀
  node : s.Node n t
  typed : s.Typed n
  consistent : (s.get n).Consistent t
  parent : s.Node n₀ t₀
  parentTyped : s.Typed n₀
  child : (s.get n₀).getChild t₀ k₀ = ptr

/-- What is expected of `removeAndUnlock`. -/
structure Removed (A : Tree V) (s s' : Heap V) (ptr : ArtTinyPtr V) (hash : TinyPtrHashes) (n : Ref)
    (t : NodeType) (n₀ : Ref) (t₀ : NodeType) (k₀ k : UInt8) : Prop where
  /-- The parent has the node without the child: the same node, or a new one, and the old one is
  obsolete and pending. -/
  node : ∃ m t', Denotes A.indexer ((s'.get n₀).getChild t₀ k₀) hash (some m) ∧ s'.Node m t' ∧
    (s.get n).Without t t' k (s'.get m) ∧
      (m = n ∧ (s'.deletionLists 0).pending = (s.deletionLists 0).pending ∨
        ¬ s.Live m ∧ isObsolete (s'.get n).typeVersionLockObsolete = true ∧
          (s'.deletionLists 0).pending.Perm ((ptr, hash) :: (s.deletionLists 0).pending))
  /-- The parent has changed under `k₀` only. -/
  parent : s'.Node n₀ t₀
  parentId : (s'.get n₀).id = (s.get n₀).id
  parentPrefix : (s'.get n₀).prefixCount = (s.get n₀).prefixCount ∧
    (s'.get n₀).prefixBytes = (s.get n₀).prefixBytes
  siblings : ∀ c, c ≠ k₀ → (s'.get n₀).getChild t₀ c = (s.get n₀).getChild t₀ c
  /-- No lock is left. -/
  unlocked : ∀ m, s'.Live m → isLocked (s'.get m).typeVersionLockObsolete = true →
    s.Live m ∧ isLocked (s.get m).typeVersionLockObsolete = true
  /-- Classes stay right, as long as there are versions left. -/
  typed : ∀ m, s'.Live m → (s.Live m → s.Typed m ∧ s.Roomy m) → s'.Typed m
  /-- Other objects are as they were, and nothing is freed. -/
  frame : ∀ m, s.Live m → s'.Live m ∧ (m ≠ n → m ≠ n₀ → s'.get m = s.get m)
  wf : s'.Wf A.indexer

/-- A call by a thread that has read both lock words does what is expected. -/
def Removes (A : Tree V) (ids : ℕ → UInt64) (s : Heap V) (ptr : ArtTinyPtr V) (hash : TinyPtrHashes)
    (n : Ref) (t : NodeType) (n₀ : Ref) (t₀ : NodeType) (k₀ k : UInt8) : Prop :=
  EndsOr (artHandler A.indexer ids 0) (A.removeAndUnlock ptr hash
    (s.get n).typeVersionLockObsolete k (some n₀) (s.get n₀).typeVersionLockObsolete k₀) s
    (fun _ s' => Removed A s s' ptr hash n t n₀ t₀ k₀ k) fun _ _ => False

/-! ### Lock words -/

variable {w : UInt64} {s s' s₁ : Heap V} {n m : Ref} {o o' : Obj V} {t t' : NodeType} {k : UInt8}

/-- What does not overflow the version leaves the class alone. -/
theorem shiftRight_add {d : UInt64} (h : w.toNat % 2 ^ 62 + d.toNat < 2 ^ 62) :
    (w + d) >>> 62 = w >>> 62 := by
  have hlt := w.toNat_lt
  rw [← UInt64.toNat_inj, UInt64.toNat_shiftRight, UInt64.toNat_shiftRight, UInt64.toNat_add]
  simp only [UInt64.reduceToNat, Nat.reduceMod, Nat.shiftRight_eq_div_pow]
  omega

theorem Free.lock (h : Free w) : isLocked (w + 0b10) = true ∧ (w + 0b10) >>> 62 = w >>> 62 := by
  unfold Free at h
  refine ⟨?_, shiftRight_add ?_⟩
  · rw [isLocked_iff, UInt64.toNat_add]
    simp only [UInt64.reduceToNat]
    omega
  · simp only [UInt64.reduceToNat]
    omega

theorem Free.unlock (h : Free w) : Free (w + 0b10 + 0b10) := by
  unfold Free at h ⊢
  rw [UInt64.toNat_add, UInt64.toNat_add]
  simp only [UInt64.reduceToNat]
  omega

theorem Free.obsolete (h : Free w) :
    isObsolete (w + 0b10 + 0b11) = true ∧ isLocked (w + 0b10 + 0b11) = false := by
  unfold Free at h
  rw [Bool.eq_false_iff, Ne, isObsolete_iff, isLocked_iff, UInt64.toNat_add, UInt64.toNat_add]
  simp only [UInt64.reduceToNat]
  omega

theorem Free.not_locked (h : Free w) : isLocked w = false := by
  unfold Free at h
  rw [Bool.eq_false_iff, Ne, isLocked_iff]
  omega

/-- A section that ends, also one that makes a node obsolete, leaves the class alone if there is a
version left. -/
theorem Free.shiftRight (h : Free w) (hroomy : w.toNat % 2 ^ 62 + 4 < 2 ^ 62) {d : UInt64}
    (hd : d.toNat ≤ 3) : (w + 0b10 + d) >>> 62 = w >>> 62 := by
  unfold Free at h
  rw [UInt64.add_assoc]
  refine shiftRight_add ?_
  rw [UInt64.toNat_add]
  simp only [UInt64.reduceToNat]
  omega

/-! ### Nodes without a child -/

namespace Obj

theorem Without.of_remove (h : o.Consistent t) (hk : o.getChild t k ≠ .null) :
    o.Without t t k (o.remove t k) where
  consistent := h.remove hk
  id := by cases ht : t.capacity <;> simp only [remove, ht]
  prefixCount := by cases ht : t.capacity <;> simp only [remove, ht]
  prefixBytes := fun j _ => by cases ht : t.capacity <;> simp only [remove, ht]
  getChild := fun _ => getChild_remove h.toSound
  room := fun n hn => by
    have hlisted : o.listed t = o.entries := by simp only [listed, Option.mem_def.1 hn]
    rw [hlisted]
    exact h.length_le n hn

/-- The lock word does not matter. -/
theorem Consistent.of_word (h : o.Consistent t) (w : UInt64) :
    Consistent t { o with typeVersionLockObsolete := w } :=
  ⟨h.toSound.of_entries rfl, h.count⟩

theorem Without.word (h : o.Without t t' k o') (w w' : UInt64) :
    Without t t' k { o with typeVersionLockObsolete := w }
      { o' with typeVersionLockObsolete := w' } :=
  ⟨h.consistent.of_word w', h.id, h.prefixCount, h.prefixBytes, h.getChild, h.room⟩

theorem SameHead.remove (t : NodeType) (k : UInt8) (o : Obj V) : SameHead o (o.remove t k) := by
  cases ht : t.capacity <;> simp only [Obj.remove, ht] <;> exact ⟨rfl, rfl, rfl, rfl, rfl⟩

/-- The constructor takes over the bytes that another node has stored. -/
theorem prefixBytes_construct (special : ℕ) (id : UInt64) {j : Fin maxStoredPrefixLength}
    (hj : j.val < o.prefixCount) :
    (o'.construct special id o.getPrefix o.prefixCount).prefixBytes j = o.prefixBytes j := by
  unfold construct setPrefix
  rw [if_pos (Nat.zero_lt_of_lt hj)]
  simp only [lt_min hj j.isLt, if_true]
  simp [getPrefix]

/-- A copy in a smaller node, from which the child is removed. -/
theorem Without.copy {special : ℕ} (h : o.Consistent t) (ht : V.nodeType special = some t)
    (hu : o.isUnderfull t = true) (hk : o.getChild t k ≠ .null) :
    ∃ t', V.nodeType (V.smallerS special) = some t' ∧ ∀ (id : UInt64) (new : Obj V), ∃ o',
      o.copyTo t t' { new.construct (V.smallerS special) id o.getPrefix o.prefixCount with id :=
      o.id } = some o' ∧
        o'.Sound t' ∧ o'.getChild t' k ≠ .null ∧ o.Without t t' k (o'.remove t' k) ∧
        o'.typeVersionLockObsolete = (new.construct (V.smallerS special) id o.getPrefix
          o.prefixCount).typeVersionLockObsolete := by
  obtain ⟨t', n, ht', hn, hroom⟩ := h.room ht hu
  refine ⟨t', ht', fun id new => ?_⟩
  have hsound : ({ new.construct (V.smallerS special) id o.getPrefix o.prefixCount with id :=
    o.id } : Obj V).Sound t' :=
    (sound_construct (V.smallerS special) id o.getPrefix o.prefixCount).of_entries rfl
  obtain ⟨o', hcopy, hs, hhead, hkids⟩ :=
    copyTo_room h.toSound hn hroom hsound (by simp [construct]) fun c =>
    getChild_construct (V.smallerS special) id o.getPrefix o.prefixCount
  have hremove := SameHead.remove t' k o'
  refine ⟨o', hcopy, hs, by rwa [hkids], ⟨hs.remove.consistent hn, ?_, ?_, fun j hj => ?_,
    fun c => ?_, fun m hm => ?_⟩, ?_⟩
  · exact hremove.id.trans hhead.id
  · exact hremove.prefixCount.trans (hhead.prefixCount.trans (prefixCount_setPrefix ..))
  · rw [hremove.prefixBytes, hhead.prefixBytes]
    exact prefixBytes_construct _ _ hj
  · rw [getChild_remove hs, hkids]
  · rw [hn, Option.mem_some_iff] at hm
    exact hm ▸ hroom
  · exact hhead.word

end Obj

theorem ends_removeChild {X : ℕ → BucketIndexer} {ids : ℕ → UInt64} {Q : Unit → Heap V → Prop}
    {E : Leave → Heap V → Prop} (hl : s.Live n) (ht : V.nodeType n.special = some t)
    (hs : (s.get n).Sound t) (hk : (s.get n).getChild t k ≠ .null)
    (h : Q () (s.set n ((s.get n).remove t k))) :
    EndsOr (artHandler X ids 0) (removeChild n k) s Q E :=
  ends_write hl (by rw [ht]; exact Obj.removeChild_eq hs hk) h

/-! ### Removal in place -/

section Calls

variable {A : Tree V} {ids : ℕ → UInt64} {ptr : ArtTinyPtr V} {hash : TinyPtrHashes} {n₀ : Ref}
  {t₀ : NodeType} {k₀ : UInt8} {E : Leave → Heap V → Prop}

theorem typed_of_word (hn : s.Typed m)
    (hw : (s'.get m).typeVersionLockObsolete >>> 62 = (s.get m).typeVersionLockObsolete >>> 62) :
    s'.Typed m := by
  intro hV
  rw [← hn hV]
  exact congrArg UInt64.toNat hw

theorem classOf_of_typed (hn : s.Typed n) (ht : V.nodeType n.special = some t) :
    (s.get n).classOf n.special = some t := by
  unfold Obj.classOf
  rw [if_neg, ht]
  intro h
  rw [Bool.and_eq_true, bne_iff_ne] at h
  exact h.2 (hn h.1)

/-- What is expected, when only the node, its parent and new objects were written. -/
theorem Removed.of_since {N : List Ref} {G : List (PendingDelete V)}
    (hs : Since A.indexer s s' [n, n₀] N G)
    (hnode : ∃ m t', Denotes A.indexer ((s'.get n₀).getChild t₀ k₀) hash (some m) ∧ s'.Node m t' ∧
      (s.get n).Without t t' k (s'.get m) ∧
        (m = n ∧ (s'.deletionLists 0).pending = (s.deletionLists 0).pending ∨
          ¬ s.Live m ∧ isObsolete (s'.get n).typeVersionLockObsolete = true ∧
            (s'.deletionLists 0).pending.Perm ((ptr, hash) :: (s.deletionLists 0).pending)))
    (hparent : s'.Node n₀ t₀) (hid : (s'.get n₀).id = (s.get n₀).id)
    (hhead : (s'.get n₀).prefixCount = (s.get n₀).prefixCount ∧
      (s'.get n₀).prefixBytes = (s.get n₀).prefixBytes)
    (hsiblings : ∀ c, c ≠ k₀ → (s'.get n₀).getChild t₀ c = (s.get n₀).getChild t₀ c)
    (hdone : ∀ m, m = n ∨ m = n₀ ∨ m ∈ N → isLocked (s'.get m).typeVersionLockObsolete = false ∧
      ((s.Live m → s.Typed m ∧ s.Roomy m) → s'.Typed m)) : Removed A s s' ptr hash n t
      n₀ t₀ k₀ k := by
  have hother : ∀ m, ¬ (m = n ∨ m = n₀ ∨ m ∈ N) → s'.get m = s.get m := by
    intro m hm
    rw [not_or, not_or] at hm
    exact hs.get m (by simp [hm.1, hm.2.1]) hm.2.2
  have hold : ∀ m, ¬ (m = n ∨ m = n₀ ∨ m ∈ N) → s'.Live m → s.Live m := by
    intro m hm hl
    rw [not_or, not_or] at hm
    exact ((hs.live m).1 hl).resolve_left hm.2.2
  refine ⟨hnode, hparent, hid, hhead, hsiblings, fun m hl hlocked => ?_, fun m hl hold' => ?_,
    fun m hl => ?_, hs.wf⟩
  · by_cases hm : m = n ∨ m = n₀ ∨ m ∈ N
    · rw [(hdone m hm).1] at hlocked
      cases hlocked
    · rw [hother m hm] at hlocked
      exact ⟨hold m hm hl, hlocked⟩
  · by_cases hm : m = n ∨ m = n₀ ∨ m ∈ N
    · exact (hdone m hm).2 hold'
    · exact typed_of_word (hold' (hold m hm hl)).1 (by rw [hother m hm])
  · exact ⟨hs.live_old hl, fun hn hn₀ => hs.get_old hl (by simp [hn, hn₀])⟩

/-- The child is removed from the node itself. -/
theorem removeInPlace_spec (h : Hangs A s ptr hash n t n₀ t₀ k₀)
    (hk : (s.get n).getChild t k ≠ .null) :
    EndsOr (artHandler A.indexer ids 0) (Tree.removeInPlace n (s.get n).typeVersionLockObsolete
      (some n₀) (s.get n₀).typeVersionLockObsolete k) s (fun _ s' =>
      Removed A s s' ptr hash n t n₀ t₀ k₀ k) E := by
  have hget : (s.addWord n 0b10).get n =
      { s.get n with typeVersionLockObsolete := (s.get n).typeVersionLockObsolete + 0b10 } :=
      Heap.get_addWord_self
  have hcons : ((s.addWord n 0b10).get n).Consistent t := hget ▸ h.consistent.of_word _
  have hkid : ((s.addWord n 0b10).get n).getChild t k ≠ .null := hget ▸ hk
  have hlive : (s.addWord n 0b10).Live n := Heap.live_addWord.2 h.node.live
  refine EndsOr.bind (ends_readUnlockOrRestart h.parent.live rfl
    (EndsOr.bind (ends_upgradeToWriteLockOrRestart h.node.live rfl
    (EndsOr.bind (ends_removeChild hlive h.node.nodeType hcons.toSound hkid
    (ends_fetchAdd (Heap.live_set.2 hlive) ?_))))))
  generalize hs' : ((s.addWord n 0b10).set n (((s.addWord n 0b10).get n).remove t k)).addWord n
    0b10 = s'
  have hsince : Since A.indexer s s' [n, n₀] [] [] := by
    have hn : n ∈ [n, n₀] ∧ s.Live n ∨ n ∈ ([] : List Ref) := .inl ⟨List.mem_cons_self, h.node.live⟩
    rw [← hs']
    exact (((Since.refl h.wf _).addWord hn).set hn).addWord hn
  have hword : (s'.get n).typeVersionLockObsolete = (s.get n).typeVersionLockObsolete +
    0b10 + 0b10 := by
    rw [← hs', Heap.get_addWord_self, Heap.get_set_self, (Obj.SameHead.remove t k _).word, hget]
  have hwithout : (s.get n).Without t t k (s'.get n) := by
    rw [← hs', Heap.get_addWord_self, Heap.get_set_self]
    have hremove := Obj.Without.of_remove hcons hkid
    rw [hget] at hremove ⊢
    exact hremove.word (s.get n).typeVersionLockObsolete _
  have hget₀ : s'.get n₀ = s.get n₀ := by
    rw [← hs', Heap.get_addWord_ne h.ne.symm, Heap.get_set_ne h.ne.symm,
      Heap.get_addWord_ne h.ne.symm]
  have hfree : Free (s'.get n).typeVersionLockObsolete := hword ▸ h.node.free.unlock
  have hparent : s'.Node n₀ t₀ :=
    ⟨h.parent.nodeType, hsince.live_old h.parent.live, hget₀ ▸ h.parent.free⟩
  refine .of_since hsince ⟨n, t, ?_, ⟨h.node.nodeType, hsince.live_old h.node.live, hfree⟩,
    hwithout, .inl ⟨rfl, ?_⟩⟩ hparent (by rw [hget₀]) (by rw [hget₀]; exact ⟨rfl, rfl⟩)
    (fun c _ => by rw [hget₀]) fun m hm => ?_
  · rw [hget₀, h.child]
    exact h.denotes
  · rw [← hs']
    rfl
  · rcases hm with rfl | rfl | hm
    · refine ⟨hfree.not_locked, fun hold => ?_⟩
      obtain ⟨htyped, hroomy⟩ := hold h.node.live
      exact typed_of_word htyped (hword ▸ h.node.free.shiftRight hroomy (by decide))
    · exact ⟨hparent.free.not_locked, fun hold => typed_of_word (hold h.parent.live).1
        (by rw [hget₀])⟩
    · cases hm

/-! ### A smaller node -/

/-- Both are locked. -/
theorem Hangs.locked (h : Hangs A s ptr hash n t n₀ t₀ k₀) {s₁ : Heap V}
    (hs₁ : s₁ = (s.addWord n₀ 0b10).addWord n 0b10) :
    Since A.indexer s s₁ [n, n₀] [] [] ∧
      s₁.get n = { s.get n with
        typeVersionLockObsolete := (s.get n).typeVersionLockObsolete + 0b10 } ∧
      s₁.get n₀ = { s.get n₀ with
        typeVersionLockObsolete := (s.get n₀).typeVersionLockObsolete + 0b10 } := by
  subst hs₁
  refine ⟨((Since.refl h.wf _).addWord (.inl ⟨by simp, h.parent.live⟩)).addWord
    (.inl ⟨by simp, h.node.live⟩), ?_, ?_⟩
  · rw [Heap.get_addWord_self, Heap.get_addWord_ne h.ne]
  · rw [Heap.get_addWord_ne h.ne.symm, Heap.get_addWord_self]

/-- What is expected, once the parent points to a new node without the child. -/
theorem Hangs.replaced (h : Hangs A s ptr hash n t n₀ t₀ k₀) {s₂ : Heap V} {p : ArtTinyPtr V}
    {o₀ : Obj V} (hs : Since A.indexer s s₂ [n, n₀] [m] [])
    (hn : s₂.get n = { s.get n with typeVersionLockObsolete :=
      (s.get n).typeVersionLockObsolete + 0b10 })
    (hn₀ : s₂.get n₀ = { s.get n₀ with typeVersionLockObsolete :=
      (s.get n₀).typeVersionLockObsolete + 0b10 })
    (hp : Denotes A.indexer p hash (some m)) (ht' : V.nodeType m.special = some t')
    (hwithout : (s.get n).Without t t' k (s₂.get m))
    (hword : Word V m (s₂.get m).typeVersionLockObsolete 4)
    (ho₀ : (s₂.get n₀).change t₀ k₀ p = some o₀) :
    Removed A s ((((s₂.set n₀ o₀).addWord n 0b11).mark 0 ptr hash).addWord n₀ 0b10) ptr hash n t
      n₀ t₀ k₀ k := by
  have hmfresh := hs.fresh m (List.mem_singleton_self m)
  have hmn : m ≠ n := fun he => hmfresh (he ▸ h.node.live)
  have hmn₀ : m ≠ n₀ := fun he => hmfresh (he ▸ h.parent.live)
  generalize hs' : (((s₂.set n₀ o₀).addWord n 0b11).mark 0 ptr hash).addWord n₀ 0b10 = s'
  have hsince : Since A.indexer s s' [n, n₀] [m] [(ptr, hash)] := by
    have hmem : n ∈ [n, n₀] ∧ s.Live n ∨ n ∈ [m] := .inl ⟨by simp, h.node.live⟩
    have hmem₀ : n₀ ∈ [n, n₀] ∧ s.Live n₀ ∨ n₀ ∈ [m] := .inl ⟨by simp, h.parent.live⟩
    rw [← hs']
    exact (((hs.set hmem₀).addWord hmem).mark).addWord hmem₀
  have hget₀ : s'.get n₀ =
    { o₀ with typeVersionLockObsolete := o₀.typeVersionLockObsolete + 0b10 } := by
    rw [← hs', Heap.get_addWord_self, Heap.get_mark, Heap.get_addWord_ne h.ne.symm,
      Heap.get_set_self]
  have hgetm : s'.get m = s₂.get m := by
    rw [← hs', Heap.get_addWord_ne hmn₀, Heap.get_mark, Heap.get_addWord_ne hmn,
      Heap.get_set_ne hmn₀]
  have hgetn : (s'.get n).typeVersionLockObsolete = (s.get n).typeVersionLockObsolete +
    0b10 + 0b11 := by
    rw [← hs', Heap.get_addWord_ne h.ne, Heap.get_mark, Heap.get_addWord_self,
      Heap.get_set_ne h.ne, hn]
  have hhead := Obj.SameHead.of_change ho₀
  rw [hn₀] at hhead
  have hword₀ : (s'.get n₀).typeVersionLockObsolete = (s.get n₀).typeVersionLockObsolete +
    0b10 + 0b10 := by
    rw [hget₀, hhead.word]
  have hkids : ∀ c, (s'.get n₀).getChild t₀ c = if c = k₀ then p else (s.get n₀).getChild t₀ c := by
    intro c
    rw [hget₀]
    refine (Obj.getChild_change ho₀).trans ?_
    rw [hn₀]
    rfl
  have hfree : Free (s'.get m).typeVersionLockObsolete := hgetm ▸ hword.free_iff.2 rfl
  have hparent : s'.Node n₀ t₀ :=
    ⟨h.parent.nodeType, hsince.live_old h.parent.live, hword₀ ▸ h.parent.free.unlock⟩
  refine .of_since hsince ⟨m, t', ?_, ⟨ht', hsince.live_new (List.mem_singleton_self m), hfree⟩,
    hgetm ▸ hwithout, .inr ⟨hmfresh, hgetn ▸ h.node.free.obsolete.1, hsince.pending⟩⟩ hparent ?_ ?_
    (fun c hc => ?_) fun l hl => ?_
  · rw [hkids, if_pos rfl]
    exact hp
  · rw [hget₀]
    exact hhead.id
  · rw [hget₀]
    exact ⟨hhead.prefixCount, hhead.prefixBytes⟩
  · rw [hkids, if_neg hc]
  · rcases hl with rfl | rfl | hl
    · refine ⟨hgetn ▸ h.node.free.obsolete.2, fun hold => ?_⟩
      obtain ⟨htyped, hroomy⟩ := hold h.node.live
      exact typed_of_word htyped (hgetn ▸ h.node.free.shiftRight hroomy (by decide))
    · refine ⟨hparent.free.not_locked, fun hold => ?_⟩
      obtain ⟨htyped, hroomy⟩ := hold h.parent.live
      exact typed_of_word htyped (hword₀ ▸ h.parent.free.shiftRight hroomy (by decide))
    · obtain rfl := List.mem_singleton.1 hl
      refine ⟨hfree.not_locked, fun _ hV => ?_⟩
      rw [hgetm, hword.getType]
      exact if_pos hV

/-- The node and its parent are locked, and an exception leaves the call. -/
def Stranded (s : Heap V) (n n₀ : Ref) (e : Leave) : Prop :=
  (∃ o, e = .overflow o) ∧ isLocked (s.get n).typeVersionLockObsolete = true ∧
    isLocked (s.get n₀).typeVersionLockObsolete = true

/-- The node gives way, unless the copy cannot be allocated. -/
theorem shrink_spec (h : Hangs A s ptr hash n t n₀ t₀ k₀) (hk : (s.get n).getChild t k ≠ .null)
    (hu : (s.get n).isUnderfull t = true) :
    EndsOr (artHandler A.indexer ids 0) (Tree.shrink n ptr hash (s.get n).typeVersionLockObsolete n₀
      (s.get n₀).typeVersionLockObsolete k₀ k) s (fun _ s' =>
      ¬ s.Full A.indexer (V.smallerS n.special) hash ∧ Removed A s s' ptr hash n t n₀ t₀ k₀ k)
      (fun e s' => s.Full A.indexer (V.smallerS n.special) hash ∧ Stranded s' n n₀ e) := by
  have hlive : (s.addWord n₀ 0b10).Live n := Heap.live_addWord.2 h.node.live
  refine EndsOr.bind (ends_upgradeToWriteLockOrRestart h.parent.live rfl (EndsOr.bind
    (ends_upgradeToWriteLock hlive (by rw [Heap.get_addWord_ne h.ne]) ?_)))
  rw [Bool.not_true, if_neg Bool.false_ne_true]
  obtain ⟨hs₁, hn₁, hn₀₁⟩ := h.locked rfl
  have hfull : ((s.addWord n₀ 0b10).addWord n 0b10).Full A.indexer (V.smallerS n.special) hash ↔
      s.Full A.indexer (V.smallerS n.special) hash := Heap.full_set.trans Heap.full_set
  generalize (s.addWord n₀ 0b10).addWord n 0b10 = s₁ at hs₁ hn₁ hn₀₁ hfull
  -- the copy without the child
  have hcons : (s₁.get n).Consistent t := hn₁ ▸ h.consistent.of_word _
  have hk₁ : (s₁.get n).getChild t k ≠ .null := hn₁ ▸ hk
  have hu₁ : (s₁.get n).isUnderfull t = true := hn₁ ▸ hu
  obtain ⟨t', ht', hcopy⟩ := Obj.Without.copy hcons h.node.nodeType hu₁ hk₁
  refine EndsOr.bind (ends_read (hs₁.live_old h.node.live) (EndsOr.bind (ends_create_iff hs₁.wf ht'
    (fun p m s₂ id new hnot hm => ?_) fun e s₂ hover hr => ?_)))
  · obtain ⟨o', hcopy, hsound, hkid, hwithout, hword⟩ := hcopy id new
    have hs₂ : Since A.indexer s s₂ [n, n₀] [m] [] := hs₁.made hm
    have hm' : m ∈ [m] := List.mem_singleton_self m
    have hlivem := hs₂.live_new hm'
    have hnm : n ≠ m := hm.ne (hs₁.live_old h.node.live)
    have hn₀m : n₀ ≠ m := hm.ne (hs₁.live_old h.parent.live)
    refine EndsOr.bind (ends_write hlivem rfl (EndsOr.bind (ends_write (Heap.live_set.2 hlivem)
      (o := o') ?_ ?_)))
    · rw [h.node.nodeType, ht', Heap.get_set_self, hm.get_self]
      exact hcopy
    have hs₃ := (hs₂.set (o := { s₂.get m with id := (s₁.get n).id }) (.inr hm')).set
      (o := o') (.inr hm')
    have hget₃ : ((s₂.set m { s₂.get m with id := (s₁.get n).id }).set m o').get m = o' :=
      Heap.get_set_self
    have hother₃ : ∀ l, l ≠ m → ((s₂.set m { s₂.get m with id := (s₁.get n).id }).set m o').get
      l = s₁.get l := by
      intro l hl
      rw [Heap.get_set_ne hl, Heap.get_set_ne hl, hm.get l hl]
    generalize (s₂.set m { s₂.get m with id := (s₁.get n).id }).set m o' = s₃ at hs₃ hget₃ hother₃
    have htm : V.nodeType m.special = some t' := hm.special ▸ ht'
    refine EndsOr.bind (ends_removeChild (hs₃.live_new hm') htm (hget₃ ▸ hsound) (hget₃ ▸ hkid) ?_)
    rw [hget₃]
    have hs₄ := hs₃.set (o := o'.remove t' k) (.inr hm')
    have hget₄ : (s₃.set m (o'.remove t' k)).get m = o'.remove t' k := Heap.get_set_self
    have hother₄ : ∀ l, l ≠ m → (s₃.set m (o'.remove t' k)).get l = s₁.get l := fun l hl => by
      rw [Heap.get_set_ne hl, hother₃ l hl]
    generalize s₃.set m (o'.remove t' k) = s₄ at hs₄ hget₄ hother₄
    -- the parent points to it
    have hn₄ := (hother₄ n hnm).trans hn₁
    have hn₀₄ := (hother₄ n₀ hn₀m).trans hn₀₁
    obtain ⟨o₀, ho₀⟩ : ∃ o₀, (s₄.get n₀).change t₀ k₀ p = some o₀ := by
      refine Obj.change_eq_some ?_
      rw [hn₀₄]
      exact h.child.trans_ne h.denotes.1
    have hclass : (s₄.get n₀).classOf n₀.special = some t₀ := by
      refine classOf_of_typed (typed_of_word h.parentTyped ?_) h.parent.nodeType
      rw [hn₀₄]
      exact h.parent.free.lock.2
    refine EndsOr.bind (ends_change (hs₄.live_old h.parent.live) hclass ho₀
      (EndsOr.bind (ends_fetchAdd (Heap.live_set.2 (hs₄.live_old h.node.live))
      (EndsOr.bind (ends_mark (ends_fetchAdd ?_ ⟨mt hfull.2 hnot, ?_⟩))))))
    · exact Heap.live_addWord.2 (Heap.live_set.2 (hs₄.live_old h.parent.live))
    · refine h.replaced hs₄ hn₄ hn₀₄ hm.denotes htm ?_ ?_ ho₀
      · rw [hget₄]
        rw [hn₁] at hwithout
        exact hwithout.word (s.get n).typeVersionLockObsolete _
      · rw [hget₄, (Obj.SameHead.remove t' k o').word, hword]
        exact word_construct (V.nodeType_lt (by rw [ht']; exact Option.some_ne_none t')).2
          hm.special ..
  · refine ⟨hfull.1 hover, ⟨e, rfl⟩, ?_, ?_⟩
    · rw [hr.get, hn₁]
      exact h.node.free.lock.1
    · rw [hr.get, hn₀₁]
      exact h.parent.free.lock.1

/-- How the call ends, for a node of any class. -/
theorem removeAndUnlock_spec (ids : ℕ → UInt64) (h : Hangs A s ptr hash n t n₀ t₀ k₀)
    (hk : (s.get n).getChild t k ≠ .null) :
    EndsOr (artHandler A.indexer ids 0) (A.removeAndUnlock ptr hash
      (s.get n).typeVersionLockObsolete k (some n₀) (s.get n₀).typeVersionLockObsolete k₀) s
      (fun _ s' => ((s.get n).isUnderfull t = true →
      ¬ s.Full A.indexer (V.smallerS n.special) hash) ∧
        Removed A s s' ptr hash n t n₀ t₀ k₀ k)
      (fun e s' => ((s.get n).isUnderfull t = true ∧ s.Full A.indexer (V.smallerS n.special) hash) ∧
        Stranded s' n n₀ e) := by
  refine EndsOr.bind (ends_dereference h.denotes h.node.nodeType
    (EndsOr.bind (ends_read h.node.live (EndsOr.bind (ends_defined h.node.nodeType ?_)))))
  cases hu : (s.get n).isUnderfull t with
  | true => exact (shrink_spec h hk hu).mono (fun _ _ hq => ⟨fun _ => hq.1, hq.2⟩) fun _ _ he =>
      ⟨⟨rfl, he.1⟩, he.2⟩
  | false => exact (removeInPlace_spec h hk).mono (fun _ _ hq => ⟨nofun, hq⟩) fun _ _ he => he

/-! ### A node that cannot give way -/

namespace Heap

variable {X : ℕ → BucketIndexer} {c : ℕ} {l : List Ref}

/-- Where few objects are allocated, no bucket is crowded. -/
theorem Wf.not_crowded (hs : s.Wf X) (hl : ∀ m, s.Live m → m ∈ l)
    (hlt : l.length < V.layout.entriesPerBinCount) : ¬ s.Crowded X 0 := by
  intro hc
  obtain ⟨d, hle⟩ := hc.le
  have hsub : {m | s.Live m ∧ m.special = d} ⊆ ↑l.toFinset :=
    fun m hm => List.mem_toFinset.2 (hl m hm.1)
  have hcard : (s.tables d).held.length ≤ l.length :=
    calc (s.tables d).held.length = {m | s.Live m ∧ m.special = d}.ncard := (ncard_live hs d).symm
      _ ≤ (↑l.toFinset : Set Ref).ncard := Set.ncard_le_ncard hsub (Finset.finite_toSet _)
      _ = l.toFinset.card := Set.ncard_coe_finset _
      _ ≤ l.length := List.toFinset_card_le l
  omega

/-- Allocations fill the buckets of two hash values, by induction on what is not held. -/
theorem Wf.exists_full (hs : s.Wf X) (hc : c < 2 ^ V.specialBits) (hash : TinyPtrHashes) :
    ∃ s' : Heap V, s'.Full X c hash ∧ s'.Wf X ∧ (∀ m, s.Live m → s'.Live m) ∧
      ∀ m, s'.get m = s.get m := by
  induction hfree : (X c).buckets * V.layout.entriesPerBinCount - (s.tables c).held.length
    using Nat.strong_induction_on generalizing s with
  | _ free ih =>
    by_cases hfull : s.Full X c hash
    · exact ⟨s, hfull, hs, fun _ hm => hm, fun _ => rfl⟩
    · cases ha : (s.tables c).allocate V.layout (X c) 0 hash c with
      | mk r T' =>
        cases r with
        | error e => exact absurd (Table.allocate_eq_error_iff.1 ⟨e, by rw [ha]⟩) hfull
        | ok r =>
          have hall := hs.allocated hc ha
          have hheld := congrArg List.length hall.held
          have hle := (hall.wf c).length_held_le
          rw [List.length_cons] at hheld
          obtain ⟨s', hfull', hwf, hlive, hget⟩ := ih _ (by omega) hall.wf rfl
          exact ⟨s', hfull', hwf, fun m hm => hlive m ((hall.live m).2 (.inr hm)), fun m =>
            (hget m).trans (hall.get m)⟩

end Heap

/-- The node has leaves under the keys below `l`, and no other children. -/
structure Leaves (A : Tree V) (s : Heap V) (n : Ref) (t : NodeType) (l : ℕ) : Prop where
  leaf : ∀ c, c.toNat < l → ∃ m, s.Live m ∧ m.special = leafS ∧
    Denotes A.indexer ((s.get n).getChild t c) (idHash (s.get n).id c) (some m)
  null : ∀ c, l ≤ c.toNat → (s.get n).getChild t c = .null
  length : ((s.get n).listed t).length = l

/-- A node stays under its parent when its lock word is not changed, and its parent is not. -/
theorem Hangs.of_word (h : Hangs A s ptr hash n t n₀ t₀ k₀) (hwf : s'.Wf A.indexer)
    (hlive : ∀ m, s.Live m → s'.Live m)
    (hword : (s'.get n).typeVersionLockObsolete = (s.get n).typeVersionLockObsolete)
    (hcons : (s'.get n).Consistent t) (hn₀ : s'.get n₀ = s.get n₀) :
    Hangs A s' ptr hash n t n₀ t₀ k₀ where
  wf := hwf
  denotes := h.denotes
  ne := h.ne
  node := ⟨h.node.nodeType, hlive n h.node.live, hword ▸ h.node.free⟩
  typed := typed_of_word h.typed (by rw [hword])
  consistent := hcons
  parent := ⟨h.parent.nodeType, hlive n₀ h.parent.live, hn₀ ▸ h.parent.free⟩
  parentTyped := typed_of_word h.parentTyped (by rw [hn₀])
  child := hn₀ ▸ h.child

/-- One more leaf is put under the node. -/
theorem Hangs.insertLeaf {l : ℕ} {live : List Ref} (h : Hangs A s ptr hash n t n₀ t₀ k₀)
    (hleaves : Leaves A s n t l) (hfull : (s.get n).isFull t = false) (hl : l < 256)
    (hlive : ∀ m, s.Live m → m ∈ live) (hlt : live.length < V.layout.entriesPerBinCount) :
    ∃ (s' : Heap V) (m : Ref), Hangs A s' ptr hash n t n₀ t₀ k₀ ∧ Leaves A s' n t (l + 1) ∧
      s'.get n₀ = s.get n₀ ∧ ∀ m', s'.Live m' → m' ∈ m :: live := by
  have hnew : (UInt8.ofNat l).toNat = l := UInt8.toNat_ofNat_of_lt' hl
  have hkey : ∀ c : UInt8, c.toNat < l + 1 → c ≠ UInt8.ofNat l → c.toNat < l := by
    intro c hc hne
    rw [Ne, ← UInt8.toNat_inj, hnew] at hne
    omega
  have hends : EndsOr (artHandler A.indexer (fun _ => 0) 0)
    (createLeaf 0 (idHash (s.get n).id (UInt8.ofNat l))) s
      (fun r s₁ => ∃ o, Made A.indexer s s₁ leafS (idHash (s.get n).id (UInt8.ofNat l)) r.1 r.2 o)
      fun _ _ => False :=
    ends_createLeaf h.wf (fun _ _ _ _ hm => ⟨_, hm⟩) fun _ _ hr =>
      h.wf.not_crowded hlive hlt hr.crowded
  obtain ⟨r, s₁, -, hq⟩ := hends
  cases r with
  | error e => exact hq.elim
  | ok r =>
    obtain ⟨_, hm⟩ := hq
    have hnull := hleaves.null (UInt8.ofNat l) hnew.ge
    obtain ⟨o', hi⟩ : ∃ o', (s.get n).insert t (UInt8.ofNat l) r.1 = some o' :=
      Obj.insert_eq_some hfull h.consistent.toSound
    have hhead := Obj.SameHead.of_insert hi
    have hget : (s₁.set n o').get n = o' := Heap.get_set_self
    have hget₀ : (s₁.set n o').get n₀ = s.get n₀ :=
      (Heap.get_set_ne h.ne.symm).trans (hm.get_live h.parent.live)
    have hlive₁ : ∀ m, s.Live m → (s₁.set n o').Live m :=
      fun m hm' => Heap.live_set.2 ((hm.live m).2 (.inr hm'))
    have hkids := fun c => Obj.getChild_insert (c := c) h.consistent.toSound hi hnull
    refine ⟨s₁.set n o', r.2, ?_, ?_, hget₀, fun m' hm' => ?_⟩
    · refine h.of_word (hm.wf.set ((hm.live n).2 (.inr h.node.live))) hlive₁ ?_ ?_ hget₀
      · rw [hget, hhead.word]
      · rw [hget]
        exact h.consistent.insert hi hm.denotes.1 hnull
    · refine ⟨fun c hc => ?_, fun c hc => ?_, ?_⟩
      · rw [hget, hhead.id, hkids]
        split_ifs with hc'
        · subst hc'
          exact ⟨r.2, Heap.live_set.2 ((hm.live _).2 (.inl rfl)), hm.special, hm.denotes⟩
        · obtain ⟨m, hlive, hm⟩ := hleaves.leaf c (hkey c hc hc')
          exact ⟨m, hlive₁ m hlive, hm⟩
      · rw [hget, hkids, if_neg, hleaves.null c (by omega)]
        rintro rfl
        omega
      · rw [hget, Obj.length_listed_insert h.consistent.toSound hi hm.denotes.1
          hnull, hleaves.length]
    · rw [Heap.live_set, hm.live] at hm'
      rcases hm' with rfl | hm'
      · exact List.mem_cons_self
      · exact List.mem_cons_of_mem _ (hlive m' hm')

/-- Leaves are put under the node, one after the other. -/
theorem Hangs.exists_leaves {N : ℕ} (h : Hangs A s ptr hash n t n₀ t₀ k₀) (hnew : Leaves A s n t 0)
    (hlive : ∀ m, s.Live m → m ∈ [n, n₀]) (ht : t.capacity = some N) (l : ℕ) (hl : l ≤ N)
    (hroom : l + 2 ≤ V.layout.entriesPerBinCount) :
    ∃ (s' : Heap V) (live : List Ref), Hangs A s' ptr hash n t n₀ t₀ k₀ ∧ Leaves A s' n t l ∧
      s'.get n₀ = s.get n₀ ∧ (∀ m, s'.Live m → m ∈ live) ∧ live.length = l + 2 := by
  induction l with
  | zero => exact ⟨s, _, h, hnew, rfl, hlive, rfl⟩
  | succ l ih =>
    obtain ⟨s₁, live, h₁, hleaves, hget, hlive₁, hlength⟩ := ih (by omega) (by omega)
    have hentries : V.layout.entriesPerBinCount < 64 := by cases V <;> decide
    have hfull : (s₁.get n).isFull t = false := by
      have hlisted := hleaves.length
      simp only [Obj.listed, ht] at hlisted
      simp only [Obj.isFull, ht, beq_eq_false_iff_ne]
      omega
    obtain ⟨s₂, m, h₂, hleaves₂, hget₂, hlive₂⟩ :=
      h₁.insertLeaf hleaves hfull (by omega) hlive₁ (by omega)
    exact ⟨s₂, m :: live, h₂, hleaves₂, hget₂.trans hget, hlive₂, by rw [List.length_cons, hlength]⟩

/-- In a new tree, a new node is put under the root. -/
theorem exists_hangs_new (V : Variant) (ids : ℕ → UInt64) (special : ℕ)
    (ht : V.nodeType special = some t) :
    ∃ (A : Tree V) (s : Heap V) (ptr : ArtTinyPtr V) (n : Ref), n.special = special ∧
      Hangs A s ptr (idHash (s.get A.root.2).id 0) n t A.root.2 .n256 0 ∧ Leaves A s n t 0 ∧
        ∀ m, s.Live m → m ∈ [n, A.root.2] := by
  obtain ⟨root, s₀, h⟩ := exists_created (V := V) (fun _ => oneBucket) (fun _ => []) ids
  obtain ⟨tables, id₀, o₀, hempty, hroot⟩ := h.made
  have hentries : 1 < V.layout.entriesPerBinCount := by cases V <;> decide
  have hlive₀ : ∀ m, s₀.Live m → m ∈ [root.2] := fun m hm =>
    List.mem_singleton.2 (((hroot.live m).1 hm).resolve_right (hempty m))
  have hends : EndsOr (artHandler (fun _ => oneBucket) ids 0)
    (create special [] 0 (idHash (s₀.get root.2).id 0)) s₀
      (fun r s₁ => ∃ id o, Made (fun _ => oneBucket) s₀ s₁ special
      (idHash (s₀.get root.2).id 0) r.1 r.2
        (Obj.construct special id [] 0 o)) fun _ _ => False :=
    ends_create hroot.wf ht (fun _ _ _ id o hm => ⟨id, o, hm⟩) fun _ _ hr =>
      hroot.wf.not_crowded hlive₀ hentries hr.crowded
  obtain ⟨r, s₁, -, hq⟩ := hends
  cases r with
  | error e => exact hq.elim
  | ok r =>
    obtain ⟨id, o, hm⟩ := hq
    have hlive : s₀.Live root.2 := (hroot.live _).2 (.inl rfl)
    have hne : r.2 ≠ root.2 := (hm.ne hlive).symm
    have hget₀ : s₁.get root.2 = o₀.construct V.n256S id₀ [] 0 :=
      (hm.get_live hlive).trans hroot.get_self
    obtain ⟨o', hi⟩ : ∃ o', (s₁.get root.2).insert .n256 0 r.1 = some o' := ⟨_, rfl⟩
    have hhead := Obj.SameHead.of_insert hi
    have hself : (s₁.set root.2 o').get root.2 = o' := Heap.get_set_self
    have hget : (s₁.set root.2 o').get r.2 = Obj.construct special id [] 0 o :=
      (Heap.get_set_ne hne).trans hm.get_self
    have hword := word_construct (o := o)
      (V.nodeType_lt (by rw [ht]; exact Option.some_ne_none t)).2 hm.special id [] 0
    have hword₀ := word_construct (o := o₀)
      (V.nodeType_lt (by rw [V.nodeType_n256S]; exact Option.some_ne_none _)).2
      hroot.special id₀ [] 0
    have hid : o'.id = (s₀.get root.2).id := hhead.id.trans (by rw [hm.get_live hlive])
    refine ⟨⟨fun _ => oneBucket, fun _ => [], root⟩, s₁.set root.2 o', r.1, r.2, hm.special, ?_, ?_,
      fun m hm' => ?_⟩
    · have hkids : o'.getChild .n256 0 = r.1 := by
        refine (Obj.getChild_insert (t := .n256) ?_ hi ?_).trans (if_pos rfl)
        · exact hget₀ ▸ Obj.sound_construct ..
        · rw [hget₀, Obj.getChild_construct]
      refine ⟨hm.wf.set ((hm.live _).2 (.inr hlive)), ?_, hne, ⟨hm.special ▸ ht, ?_, ?_⟩,
        fun hV => ?_, ?_, ⟨hroot.special ▸ V.nodeType_n256S, ?_, ?_⟩, fun hV => ?_, ?_⟩
      · rw [hself, hid]
        exact hm.denotes
      · exact Heap.live_set.2 ((hm.live _).2 (.inl rfl))
      · rw [hget]
        exact hword.free_iff.2 rfl
      · rw [hget, hword.getType]
        exact if_pos hV
      · rw [hget]
        exact Obj.consistent_construct special id [] 0
      · exact Heap.live_set.2 ((hm.live _).2 (.inr hlive))
      · rw [hself, hhead.word, hget₀]
        exact hword₀.free_iff.2 rfl
      · rw [hself, Obj.getType, hhead.word, hget₀]
        exact hword₀.getType.trans (if_pos hV)
      · rw [hself, hkids]
    · refine ⟨fun c hc => absurd hc (Nat.not_lt_zero _), fun c _ => ?_, ?_⟩
      · rw [hget, Obj.getChild_construct]
      · rw [hget, Obj.listed_construct]
        rfl
    · rw [Heap.live_set, hm.live] at hm'
      rcases hm' with rfl | hm'
      · exact List.mem_cons_self
      · exact List.mem_cons_of_mem _ (hlive₀ m hm')

theorem Leaves.getChild_ne {l : ℕ} {c : UInt8} (h : Leaves A s n t l) (hc : c.toNat < l) :
    (s.get n).getChild t c ≠ .null := by
  obtain ⟨m, -, -, hm⟩ := h.leaf c hc
  exact hm.1

/-- An `N16` with three leaves is underfull. -/
theorem Leaves.isUnderfull {A : Tree .olc} {s : Heap .olc} (h : Leaves A s n .n16 3) :
    (s.get n).isUnderfull .n16 = true := by
  have hlength : (s.get n).entries.length = 3 := h.length
  simp only [Obj.isUnderfull, Variant.underfullCount, Obj.getCount, NodeType.capacity, hlength]
  rfl

/-- In a new tree, an `N16` with three leaves is put under the root. -/
theorem exists_hangs_leaves (ids : ℕ → UInt64) :
    ∃ (A : Tree .olc) (s : Heap .olc) (ptr : ArtTinyPtr .olc) (n : Ref) (live : List Ref),
      n.special = 2 ∧ Hangs A s ptr (idHash (s.get A.root.2).id 0) n .n16 A.root.2 .n256 0 ∧
      Leaves A s n .n16 3 ∧ (∀ m, s.Live m → m ∈ live) ∧ live.length = 5 := by
  obtain ⟨A, s, ptr, n, hn, h, hnew, hlive⟩ := exists_hangs_new .olc ids 2 rfl
  obtain ⟨s', live, h', hleaves, hget, hlive', hlength⟩ :=
    h.exists_leaves hnew hlive rfl 3 (by decide) (by decide)
  rw [← hget] at h'
  exact ⟨A, s', ptr, n, live, hn, h', hleaves, hlive', hlength⟩

/-! ### Removing and shrinking -/

/-- For every node, its parent and every key that is there: the call does what is expected exactly
when the node is not underfull, or its copy can be allocated. -/
theorem removeAndUnlock_iff (h : Hangs A s ptr hash n t n₀ t₀ k₀)
    (hk : (s.get n).getChild t k ≠ .null) :
    Removes A ids s ptr hash n t n₀ t₀ k₀ k ↔
      ((s.get n).isUnderfull t = true → ¬ s.Full A.indexer (V.smallerS n.special) hash) := by
  have hspec := removeAndUnlock_spec ids h hk
  constructor
  · intro hr hu hfull
    obtain ⟨r, s', hruns, hq⟩ := hspec
    have hexpected := hr.of_runs hruns
    cases r with
    | ok u => exact hq.1 hu hfull
    | error e => exact hexpected
  · intro hroom
    refine hspec.mono (fun _ _ hq => hq.2) fun _ _ he => ?_
    exact hroom he.1.1 he.1.2

/-- Under the root, an `N16` with three leaves gives way to an `N4` with two. -/
theorem removeAndUnlock_iff_n16 :
    ∃ (A : Tree .olc) (s : Heap .olc) (ptr : ArtTinyPtr .olc) (n : Ref),
      Hangs A s ptr (idHash (s.get A.root.2).id 0) n .n16 A.root.2 .n256 0 ∧ Leaves A s n .n16 3 ∧
      Removes A (fun _ => 0) s ptr (idHash (s.get A.root.2).id 0) n .n16 A.root.2 .n256 0 1 := by
  obtain ⟨A, s, ptr, n, live, -, h, hleaves, hlive, hlength⟩ := exists_hangs_leaves fun _ => 0
  refine ⟨A, s, ptr, n, h, hleaves, (removeAndUnlock_iff h (hleaves.getChild_ne (by decide))).2
    fun _ hfull => ?_⟩
  exact h.wf.not_crowded hlive (by rw [hlength]; decide) (hfull.crowded h.wf)

/-- When the table of the `N4` is full, the exception leaves the `N16` and its parent locked. -/
theorem not_removeAndUnlock :
    ∃ (A : Tree .olc) (s : Heap .olc) (ptr : ArtTinyPtr .olc) (n : Ref),
      Hangs A s ptr (idHash (s.get A.root.2).id 0) n .n16 A.root.2 .n256 0 ∧ Leaves A s n .n16 3 ∧
      ¬ Removes A (fun _ => 0) s ptr (idHash (s.get A.root.2).id 0) n .n16 A.root.2 .n256 0 1 ∧
      ∃ e s', A.Runs (fun _ => 0) (A.removeAndUnlock ptr (idHash (s.get A.root.2).id 0)
        (s.get n).typeVersionLockObsolete 1 (some A.root.2)
        (s.get A.root.2).typeVersionLockObsolete 0) s (.error e) s' ∧
        Stranded s' n A.root.2 e := by
  obtain ⟨A, s, ptr, n, live, hn, h, hleaves, -, -⟩ := exists_hangs_leaves fun _ => 0
  obtain ⟨s', hfull, hwf, hlive, hget⟩ :=
    h.wf.exists_full (c := 1) (by decide) (idHash (s.get A.root.2).id 0)
  have h' := h.of_word hwf hlive (by rw [hget]) (by rw [hget]; exact h.consistent) (hget _)
  rw [← hget A.root.2] at h' hfull
  have hleaves' : Leaves A s' n .n16 3 := by
    refine ⟨fun c hc => ?_, fun c hc => ?_, ?_⟩
    · obtain ⟨m, hm, hspecial, hden⟩ := hleaves.leaf c hc
      rw [hget]
      exact ⟨m, hlive m hm, hspecial, hden⟩
    · rw [hget]
      exact hleaves.null c hc
    · rw [hget]
      exact hleaves.length
  have hk := hleaves'.getChild_ne (c := 1) (by decide)
  obtain ⟨r, s₁, hruns, hq⟩ := removeAndUnlock_spec (fun _ => 0) h' hk
  have hsmaller : Variant.smallerS .olc n.special = 1 := by rw [hn]; rfl
  cases r with
  | ok u => exact absurd (hsmaller ▸ hfull) (hq.1 hleaves'.isUnderfull)
  | error e => exact ⟨A, s', ptr, n, h', hleaves', fun hr => hr.of_runs hruns, e, s₁, hruns, hq.2⟩

end Calls

end TinyPointerTrees.Art
