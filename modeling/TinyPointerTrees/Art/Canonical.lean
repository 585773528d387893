import TinyPointerTrees.Art.Space

/-!
# What a tree looks like

The addresses in a tree depend on the order of the insertions, on the ids and on the
buckets. What is seen on the way along key bytes (`Tree.lookAt`) does not: a node's
class follows from the number of its children (`classFor`), and all else from the
radix tree, which is determined by its keys and values.

`Reach.history_independent` — trees with the same keys and values look the same, also
after insertions that have thrown, and have as many nodes of each class.
-/

namespace TinyPointerTrees.Art

variable {V : Variant} {A A' : Tree V} {ids ids' : ℕ → UInt64} {s s' : Heap V}
  {R : RadixTree UInt8 UInt64} {M M' : Key → Option Ref} {thrown thrown' : Bool}
  {l l' : List (Key × UInt64)} {c : ℕ} {q : Key} {π : List UInt8} {n n' : Ref} {t : NodeType}

/-! ### The class of a node -/

/-- The smallest class that has room for `k` children. -/
def Variant.classFor : Variant → ℕ → NodeType
  | .olc, k => if k ≤ 4 then .n4 else if k ≤ 16 then .n16 else .n256
  | .olc64, k => if k ≤ 16 then .n16 else if k ≤ 64 then .n64 else .n256
  | .olc256, _ => .n256

/-- A class that has room, and more children than the class below has room for. -/
theorem Variant.classFor_eq {k : ℕ} (h : V.nodeType c = some t) (hleast : V.leastCount t ≤ k)
    (hroom : ∀ cap ∈ t.capacity, k ≤ cap) : V.classFor k = t := by
  unfold Variant.nodeType at h
  split at h <;> cases h <;> simp only [Variant.leastCount, NodeType.capacity, Option.mem_def,
    Option.some.injEq, forall_eq'] at hleast hroom <;> simp only [Variant.classFor] <;>
    split_ifs <;> first | rfl | omega

theorem Variant.special_inj {c' : ℕ} (h : V.nodeType c = some t) (h' : V.nodeType c' = some t) :
    c = c' := by
  unfold Variant.nodeType at h h'
  split at h <;> cases h <;> split at h' <;> simp_all

/-- The class of every inner node but the root follows from the number of its children. -/
theorem Stores.nodeType_eq (h : Stores A s R M thrown l) (hq : q ≠ [])
    (hitem : R.item q = some ⟨π, none⟩) (hM : M q = some n)
    (hi : Inner A.indexer M q π n t (s.get n)) : V.classFor (kids R q π).ncard = t := by
  refine Variant.classFor_eq hi.nodeType (h.filled q π n t hq hitem hM hi.nodeType)
    fun cap hcap => ?_
  have hkids : kids R q π = {b | M (q ++ π ++ [b]) ≠ none} := by
    ext b
    rw [kids, Set.mem_ofPred_eq, Set.mem_ofPred_eq, Ne, Ne, h.shape.eq_none_iff]
  rw [hkids, hi.ncard_kids hcap]
  exact hi.sound.length_le cap hcap

/-! ### What is seen of a node -/

/-- What is seen of a node, apart from addresses: the value of a leaf, and of an inner node the
class, the prefix as far as it is stored, and the key bytes of its children. -/
inductive Look where
  | leaf (value : UInt64)
  | inner (type : NodeType) (prefixCount : ℕ) (prefixBytes : List UInt8) (keys : List UInt8)
  deriving DecidableEq

/-- The key bytes for which there is a child. -/
def Obj.keyBytes (t : NodeType) (o : Obj V) : List UInt8 :=
  ((List.range 256).map UInt8.ofNat).filter fun b => o.getChild t b ≠ .null

def Heap.look (s : Heap V) (n : Ref) : Look :=
  match V.nodeType n.special with
  | none => .leaf (s.get n).value
  | some t => .inner t (s.get n).prefixCount
      ((s.get n).getPrefix.take (min (s.get n).prefixCount maxStoredPrefixLength))
      ((s.get n).keyBytes t)

/-- The node to which the children of these key bytes lead. -/
def Tree.walk (A : Tree V) (s : Heap V) : List UInt8 → Ref → Option Ref
  | [], n => some n
  | b :: bytes, n =>
    match V.nodeType n.special with
    | none => none
    | some t =>
      if (s.get n).getChild t b = .null then none
      else A.walk s bytes (s.child A.indexer n b ((s.get n).getChild t b))

/-- What is seen behind these key bytes, one for each node on the way. -/
def Tree.lookAt (A : Tree V) (s : Heap V) (bytes : List UInt8) : Option Look :=
  (A.walk s bytes A.root.2).map s.look

theorem Variant.nodeType_leafS : V.nodeType leafS = none := by cases V <;> rfl

namespace Stores

/-- The nodes at the same place in two trees are in the same table. -/
theorem special_eq (h : Stores A s R M thrown l) (h' : Stores A' s' R M' thrown' l')
    (hM : M q = some n) (hM' : M' q = some n') : n'.special = n.special := by
  rcases h.shape.item hM with ⟨r, v, hitem, hleaf, -⟩ | ⟨π, t, hitem, hi⟩
  · obtain ⟨m', hm', -, hleaf', -⟩ := h'.shape.leaf hitem
    obtain rfl : m' = n' := Option.some.inj (hm'.symm.trans hM')
    rw [hleaf, hleaf']
  · obtain ⟨m', t', hm', -, hi'⟩ := h'.shape.inner hitem
    obtain rfl : m' = n' := Option.some.inj (hm'.symm.trans hM')
    by_cases hq : q = []
    · -- the root is made with the class that has room for everything
      subst hq
      rw [h.shape.root] at hM
      rw [h'.shape.root] at hM'
      cases hM
      cases hM'
      rw [h.shape.root_special, h'.shape.root_special]
    · have ht : t' = t := (h'.nodeType_eq hq hitem hM' hi').symm.trans
        (h.nodeType_eq hq hitem hM hi)
      exact Variant.special_inj hi'.nodeType (ht ▸ hi.nodeType)

theorem look_eq (h : Stores A s R M thrown l) (h' : Stores A' s' R M' thrown' l')
    (hM : M q = some n) (hM' : M' q = some n') : s'.look n' = s.look n := by
  have hspecial := h.special_eq h' hM hM'
  rcases h.shape.item hM with ⟨r, v, hitem, hleaf, hv⟩ | ⟨π, t, hitem, hi⟩
  · obtain ⟨m', hm', -, -, hv'⟩ := h'.shape.leaf hitem
    obtain rfl : m' = n' := Option.some.inj (hm'.symm.trans hM')
    unfold Heap.look
    rw [hspecial, hleaf, Variant.nodeType_leafS]
    simp only [hv, hv']
  · obtain ⟨m', t', hm', -, hi'⟩ := h'.shape.inner hitem
    obtain rfl : m' = n' := Option.some.inj (hm'.symm.trans hM')
    obtain rfl : t = t' := by
      have ht' := hi'.nodeType
      rw [hspecial, hi.nodeType] at ht'
      exact Option.some.inj ht'
    have hkeys : (s'.get m').keyBytes t = (s.get n).keyBytes t := by
      refine List.filter_congr fun b _ => decide_eq_decide.mpr (not_congr ?_)
      rw [hi'.getChild_eq_null_iff, hi.getChild_eq_null_iff, h'.shape.eq_none_iff,
        h.shape.eq_none_iff]
    have hstored := hi'.getPrefix.trans hi.getPrefix.symm
    unfold Heap.look
    rw [hspecial, hi.nodeType]
    simp only [hstored, hkeys, hi.prefixCount.trans hi'.prefixCount.symm]

/-- By induction on the key bytes: the two walks pass the same places. -/
theorem walk_eq (h : Stores A s R M thrown l) (h' : Stores A' s' R M' thrown' l')
    (bytes : List UInt8) (hM : M q = some n) (hM' : M' q = some n') :
    (A'.walk s' bytes n').map s'.look = (A.walk s bytes n).map s.look := by
  induction bytes generalizing q n n' with
  | nil => exact congrArg some (h.look_eq h' hM hM')
  | cons b bytes ih =>
    have hspecial := h.special_eq h' hM hM'
    unfold Tree.walk
    rw [hspecial]
    rcases h.shape.item hM with ⟨r, v, hitem, hleaf, hv⟩ | ⟨π, t, hitem, hi⟩
    · rw [hleaf, Variant.nodeType_leafS]
      rfl
    obtain ⟨m', t', hm', -, hi'⟩ := h'.shape.inner hitem
    obtain rfl : m' = n' := Option.some.inj (hm'.symm.trans hM')
    obtain rfl : t = t' := by
      have ht' := hi'.nodeType
      rw [hspecial, hi.nodeType] at ht'
      exact Option.some.inj ht'
    rw [hi.nodeType]
    by_cases hb : R.item (q ++ π ++ [b]) = none
    · have hnull := hi.getChild_eq_null (h.shape.eq_none_iff.mpr hb)
      have hnull' := hi'.getChild_eq_null (h'.shape.eq_none_iff.mpr hb)
      simp only [hnull, hnull', ↓reduceIte, Option.map_none]
    · obtain ⟨m, hm⟩ := Option.ne_none_iff_exists'.mp (mt h.shape.eq_none_iff.mp hb)
      obtain ⟨k, hk⟩ := Option.ne_none_iff_exists'.mp (mt h'.shape.eq_none_iff.mp hb)
      obtain ⟨hne, -, hchild⟩ := hi.denotes hm
      obtain ⟨hne', -, hchild'⟩ := hi'.denotes hk
      simp only [if_neg hne, if_neg hne']
      unfold Heap.child
      rw [hchild, hchild']
      exact ih hm hk

theorem lookAt_eq (h : Stores A s R M thrown l) (h' : Stores A' s' R M' thrown' l')
    (bytes : List UInt8) : A'.lookAt s' bytes = A.lookAt s bytes :=
  h.walk_eq h' bytes h.shape.root h'.shape.root

/-- In which table the node of a path is. -/
theorem tableOf_eq (h : Stores A s R M thrown l) (h' : Stores A' s' R M' thrown' l') :
    tableOf M' q = tableOf M q := by
  unfold tableOf
  cases hM : M q with
  | none => rw [h'.shape.eq_none_iff.mpr (h.shape.eq_none_iff.mp hM)]
  | some n =>
    obtain ⟨n', hM'⟩ := Option.ne_none_iff_exists'.mp (mt h'.shape.eq_none_iff.mp
      (mt h.shape.eq_none_iff.mpr (by
      rw [hM]
      exact Option.some_ne_none n)))
    rw [hM']
    exact h.special_eq h' hM hM'

end Stores

/-! ### Two runs -/

/-- Two trees look the same. -/
structure LookSame (A : Tree V) (s : Heap V) (A' : Tree V) (s' : Heap V) : Prop where
  look : ∀ bytes, A'.lookAt s' bytes = A.lookAt s bytes
  leaves : (nodesIn A' s' leafS).ncard = (nodesIn A s leafS).ncard
  inner : ∀ c, V.nodeType c ≠ none → (nodesIn A' s' c).ncard = (nodesIn A s c).ncard

/-- Whatever happened in two runs: the same keys and values make the same tree. -/
theorem Reach.history_independent (h : Reach A ids thrown l s) (h' : Reach A' ids' thrown' l' s')
    (hl : ∀ e, e ∈ l' ↔ e ∈ l) : LookSame A s A' s' := by
  obtain ⟨R, M, hst⟩ := h.stores
  obtain ⟨R', M', hst'⟩ := h'.stores
  have hitem : R'.item = R.item :=
    RadixTree.item_eq_of_maps fun k v => by rw [hst'.maps, hst.maps, hl]
  obtain rfl : R' = R := by
    cases R'
    cases R
    cases hitem
    rfl
  refine ⟨hst.lookAt_eq hst', ?_, fun c hc => ?_⟩
  · rw [hst'.shape.ncard_leaves, hst.shape.ncard_leaves]
  · rw [hst'.shape.ncard_nodesIn hc, hst.shape.ncard_nodesIn hc]
    simp only [hst.tableOf_eq hst']

/-- An insertion that overflows is not seen. -/
theorem Reach.history_independent_overflow :
    ∃ (A : Tree .olc) (s s' : Heap .olc) (k : Key) (tid : UInt64) (e : OverflowError),
      A.Runs (fun _ => 0) (A.insert k tid) s (.error (.overflow e)) s' ∧ LookSame A s A s' := by
  obtain ⟨A, l, s, k, tid, e, s', h, hk, hload, hr⟩ := exists_overflow .olc fun _ => 0
  exact ⟨A, s, s', k, tid, e, hr, h.history_independent (h.overflow hk hload hr) fun _ => Iff.rfl⟩

end TinyPointerTrees.Art
