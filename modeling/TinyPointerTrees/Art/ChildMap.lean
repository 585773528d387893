import TinyPointerTrees.Art.Containers

/-!
# The children of a node as a map

A container is reached by `insert`, `change` and `remove`, and stands for a map from bytes
to pointers. What the functions of the containers do to their arrays is what the
functions of `Obj` do to the pairs in use.

* `Container.implements` — all containers implement their map.
* `Container.getChildren_eq_iff` — `getChildren` of `N16` and `N64` is right exactly when both
  bounds are keys, or nothing lies beyond them.
-/

namespace TinyPointerTrees.Art

open ParallelArrays

variable {V : Variant} {n : ℕ}

/-! ### Pairs of keys and children -/

/-- The pairs in use, with the keys as the caller knows them. -/
def entriesOf (decode : UInt8 → UInt8) (a : KeyArrays V n) : List (UInt8 × ArtTinyPtr V) :=
  a.live.map fun i => (decode (a.keys i), a.children i)

section Entries

variable {decode : UInt8 → UInt8} {a a' : KeyArrays V n} {key b c : UInt8} {p val : ArtTinyPtr V}
  {i : Fin n} {l l' : List (UInt8 × ArtTinyPtr V)}

theorem entriesOf_eq_map : entriesOf decode a = a.pairs.map fun e => (decode e.1, e.2) := by
  rw [entriesOf, Arrays.pairs, List.map_map]
  rfl

@[simp] theorem length_entriesOf (decode : UInt8 → UInt8) (a : KeyArrays V n) :
    (entriesOf decode a).length = a.count := by simp [entriesOf]

/-- The position of a key splits the pairs. -/
theorem entriesOf_split (h : a.live.find? (fun i => decode (a.keys i) == key) = some i) :
    entriesOf decode a = (entriesOf decode a).take i ++ (key, a.children i) ::
      (entriesOf decode a).drop (i + 1) ∧ i.val < a.count ∧
      ∀ e ∈ (entriesOf decode a).take i, e.1 ≠ key := by
  obtain ⟨hkey, j, hj, rfl, hbefore⟩ := List.find?_eq_some_iff_getElem.1 h
  have hkey' := beq_iff_eq.1 hkey
  rw [Arrays.getElem_live] at hkey' ⊢
  have hj' : j < a.count := by simpa using hj
  refine ⟨?_, hj', fun e he => ?_⟩
  · conv_lhs => rw [← List.take_append_drop j (entriesOf decode a)]
    rw [List.drop_eq_getElem_cons (by simpa using hj')]
    simp only [entriesOf, List.getElem_map, Arrays.getElem_live, hkey']
  · obtain ⟨k, hk, rfl⟩ := List.mem_take_iff_getElem.1 he
    have hkj : k < j := (lt_min_iff.1 hk).1
    have hne := hbefore k hkj
    rw [Bool.not_eq_true', beq_eq_false_iff_ne] at hne
    simpa only [entriesOf, List.getElem_map] using hne

/-- A key without a position is in no pair. -/
theorem ne_of_find?_eq_none (h : a.live.find? (fun i => decode (a.keys i) == key) = none) :
    ∀ e ∈ entriesOf decode a, e.1 ≠ key := by
  intro e he
  obtain ⟨i, hi, rfl⟩ := List.mem_map.1 he
  simpa using List.find?_eq_none.1 h i hi

theorem lookup_append_of_ne (h : ∀ e ∈ l, e.1 ≠ key) :
    (l ++ (key, p) :: l').lookup key = some p := by
  have hnone : l.lookup key = none :=
    List.lookup_eq_none_iff.2 fun e he => by simpa using (h e he).symm
  rw [List.lookup_append, hnone, Option.none_or, List.lookup_cons_self]

theorem changeEntry_append (h : ∀ e ∈ l, e.1 ≠ key) :
    Obj.changeEntry key val (l ++ (key, p) :: l') = some (l ++ (key, val) :: l') := by
  induction l with
  | nil => rw [List.nil_append, Obj.changeEntry, if_pos rfl, List.nil_append]
  | cons e l ih =>
    rw [List.cons_append, Obj.changeEntry, if_neg (h e List.mem_cons_self),
      ih fun e' he' => h e' (List.mem_cons_of_mem e he')]
    rfl

theorem changeEntry_eq_none (h : ∀ e ∈ l, e.1 ≠ key) : Obj.changeEntry key val l = none := by
  induction l with
  | nil => rfl
  | cons e l ih =>
    rw [Obj.changeEntry, if_neg (h e List.mem_cons_self), ih fun e' he' =>
      h e' (List.mem_cons_of_mem e he')]
    rfl

/-- Looking a key up. -/
theorem lookup_entriesOf (decode : UInt8 → UInt8) (a : KeyArrays V n) (key : UInt8) :
    ((entriesOf decode a).lookup key).getD .null = (a.live.find? fun i =>
      decode (a.keys i) == key).elim .null a.children := by
  cases hfind : a.live.find? fun i => decode (a.keys i) == key with
  | none =>
    have hnone : (entriesOf decode a).lookup key = none :=
      List.lookup_eq_none_iff.2 fun e he => by simpa using (ne_of_find?_eq_none hfind e he).symm
    rw [hnone]
    rfl
  | some i =>
    obtain ⟨hsplit, -, hne⟩ := entriesOf_split hfind
    rw [hsplit, lookup_append_of_ne hne]
    rfl

/-- Changing the child of a key. -/
theorem changeEntry_entriesOf :
    Obj.changeEntry key val (entriesOf decode a) = (a.live.find? fun i =>
      decode (a.keys i) == key).map fun i => entriesOf decode (a.setChild i val) := by
  cases hfind : a.live.find? fun i => decode (a.keys i) == key with
  | none => exact changeEntry_eq_none (ne_of_find?_eq_none hfind)
  | some i =>
    obtain ⟨hsplit, hi, hne⟩ := entriesOf_split hfind
    have hkey := List.find?_some hfind
    rw [beq_iff_eq] at hkey
    have hset : entriesOf decode (a.setChild i val) = (entriesOf decode a).set i (key, val) := by
      rw [entriesOf_eq_map, entriesOf_eq_map, Arrays.pairs_setChild, List.map_set, hkey]
    rw [Option.map_some, hset, List.set_eq_take_append_cons_drop, if_pos (by simpa using hi)]
    conv_lhs => rw [hsplit]
    exact changeEntry_append hne

/-- Taking a key out. -/
theorem eraseP_entriesOf (decode : UInt8 → UInt8)
    (h : a.live.find? (fun i => decode (a.keys i) == key) = some i) :
    ∃ a', a.removeAt i = some a' ∧ entriesOf decode a' = (entriesOf decode a).eraseP fun e =>
      e.1 == key := by
  obtain ⟨hsplit, hi, hne⟩ := entriesOf_split h
  obtain ⟨a', ha', hpairs⟩ := Arrays.removeAt_spec hi
  refine ⟨a', ha', ?_⟩
  conv_rhs => rw [hsplit]
  rw [List.eraseP_append_right _ fun e he => by simpa using hne e he,
    List.eraseP_cons_of_pos (by simp),
    entriesOf_eq_map, hpairs, entriesOf_eq_map, List.map_append, List.map_take, List.map_drop]

/-- Putting a key in. -/
theorem insertAt_entriesOf (goes : UInt8 → Bool) (hb : decode b = key) (p : ArtTinyPtr V)
    (hcount : a.count < n) {pos : ℕ}
    (hpos : pos = (a.live.takeWhile fun i => goes (decode (a.keys i))).length) :
    ∃ a', a.insertAt pos b p = some a' ∧ entriesOf decode a' = (entriesOf decode a).takeWhile
      (fun e => goes e.1) ++ (key, p) :: (entriesOf decode a).dropWhile fun e => goes e.1 := by
  have hlen : ((entriesOf decode a).takeWhile fun e => goes e.1).length = pos := by
    rw [entriesOf, List.takeWhile_map, List.length_map, hpos]
    rfl
  have hle : pos ≤ a.count := by
    rw [← hlen, ← length_entriesOf decode a]
    exact (List.takeWhile_sublist _).length_le
  obtain ⟨a', ha', hpairs⟩ := Arrays.insertAt_spec hle hcount b p
  refine ⟨a', ha', ?_⟩
  have htake : (entriesOf decode a).take pos = (entriesOf decode a).takeWhile
    fun e => goes e.1 := by
    conv_lhs => rw [← List.takeWhile_append_dropWhile (p := fun e => goes e.1)
      (l := entriesOf decode a)]
    rw [← hlen, List.take_left]
  have hdrop : (entriesOf decode a).drop pos = (entriesOf decode a).dropWhile
    fun e => goes e.1 := by
    conv_lhs => rw [← List.takeWhile_append_dropWhile (p := fun e => goes e.1)
      (l := entriesOf decode a)]
    rw [← hlen, List.drop_left]
  rw [← htake, ← hdrop, entriesOf_eq_map, hpairs, entriesOf_eq_map, List.map_append,
    List.map_cons, List.map_take, List.map_drop, hb]

end Entries

/-! ### Containers -/

variable (V) in
/-- A node, as far as its children go. -/
inductive Container where
  | n4 (a : KeyArrays V 4)
  | n16 (a : KeyArrays V 16)
  | n64 (a : KeyArrays V 64)
  | n256 (a : N256 V)

namespace Container

variable (avx512 : Bool)

/-- The class. -/
def type : Container V → NodeType
  | n4 _ => .n4
  | n16 _ => .n16
  | n64 _ => .n64
  | n256 _ => .n256

/-- What a constructor leaves: the keys of an `N4` are not initialized. -/
def IsNew : Container V → Prop
  | n4 a => a.count = 0 ∧ ∀ i, a.children i = .null
  | n16 a => a.count = 0 ∧ ∀ i, a.keys i = 0 ∧ a.children i = .null
  | n64 a => a.count = 0 ∧ ∀ i, a.keys i = 0 ∧ a.children i = .null
  | n256 a => a.count = 0 ∧ ∀ k, a.children k = .null

/-- `isFull`. -/
def isFull : Container V → Bool
  | n4 a => a.count == 4
  | n16 a => a.count == 16
  | n64 a => a.count == 64
  | n256 _ => false

/-- `insert`. -/
def insert (key : UInt8) (p : ArtTinyPtr V) : Container V → Option (Container V)
  | n4 a => (N4.insert key p a).map n4
  | n16 a => (N16.search.insert key p a).map n16
  | n64 a => ((N64.search avx512).insert key p a).map n64
  | n256 a => some (n256 (a.insert key p))

/-- `getChild`. -/
def getChild (k : UInt8) : Container V → ArtTinyPtr V
  | n4 a => N4.getChild k a
  | n16 a => N16.search.getChild k a
  | n64 a => (N64.search avx512).getChild k a
  | n256 a => a.getChild k

/-- `change`. -/
def change (key : UInt8) (val : ArtTinyPtr V) : Container V → Option (Container V)
  | n4 a => (N4.change key val a).map n4
  | n16 a => (N16.search.change key val a).map n16
  | n64 a => ((N64.search avx512).change key val a).map n64
  | n256 a => some (n256 (a.change key val))

/-- `remove`. -/
def remove (k : UInt8) : Container V → Option (Container V)
  | n4 a => (N4.remove k a).map n4
  | n16 a => (N16.search.remove k a).map n16
  | n64 a => ((N64.search avx512).remove k a).map n64
  | n256 a => some (n256 (a.remove k))

/-- `getAnyChild`. -/
def getAnyChild : Container V → ArtTinyPtr V × UInt8
  | n4 a => N4.getAnyChild a
  | n16 a => Search.getAnyChild a
  | n64 a => Search.getAnyChild a
  | n256 a => a.getAnyChild

/-- `getChildren`. -/
def getChildren (start stop : UInt8) : Container V → List (UInt8 × ArtTinyPtr V)
  | n4 a => N4.getChildren start stop a
  | n16 a => N16.search.getChildren start stop a
  | n64 a => (N64.search avx512).getChildren start stop a
  | n256 a => a.getChildren start stop

/-- The pairs that the loop of `copyTo` visits. -/
def listed : Container V → List (UInt8 × ArtTinyPtr V)
  | n4 a => entriesOf id a
  | n16 a => entriesOf flipSign a
  | n64 a => entriesOf flipSign a
  | n256 a => a.listed 0 255

/-- `copyTo`. -/
def copyTo (c c' : Container V) : Option (Container V) :=
  c.listed.foldlM (fun c' e => c'.insert avx512 e.1 e.2) c'

/-- The classes into which a node is copied when it is full. -/
def Grows : Container V → Container V → Prop
  | n4 _, n16 _ => True
  | n16 _, n64 _ => True
  | n16 _, n256 _ => True
  | n64 _, n256 _ => True
  | _, _ => False

end Container

/-! ### The pairs of an object -/

namespace Obj

variable {t : NodeType} {o o' : Obj V} {key k c : UInt8} {p val : ArtTinyPtr V}

/-- `remove`. -/
def remove (t : NodeType) (k : UInt8) (o : Obj V) : Obj V :=
  match t.capacity with
  | none => { o with children := Function.update o.children k .null, count := o.count - 1 }
  | some _ => { o with entries := o.entries.eraseP fun e => e.1 == k }

theorem lookup_eraseP {l : List (UInt8 × ArtTinyPtr V)} (h : (l.map Prod.fst).Nodup) :
    (l.eraseP fun e => e.1 == k).lookup c = if c = k then none else l.lookup c := by
  induction l with
  | nil => simp
  | cons e l ih =>
    obtain ⟨hnot, hnd⟩ := List.nodup_cons.1 h
    by_cases he : e.1 = k
    · subst he
      rw [List.eraseP_cons_of_pos (by simp), lookup_cons]
      split_ifs with hc
      · subst hc
        refine List.lookup_eq_none_iff.2 fun e' he' => ?_
        have hne : e.1 ≠ e'.1 := fun heq => hnot (heq ▸ List.mem_map_of_mem (f := Prod.fst) he')
        simpa using hne
      · rfl
    · rw [List.eraseP_cons_of_neg (by simpa using he), lookup_cons, lookup_cons, ih hnd]
      split_ifs with hc hk
      · exact absurd (hc.symm.trans hk) he
      · rfl
      · rfl
      · rfl

theorem Sound.remove (h : o.Sound t) : (o.remove t k).Sound t := by
  unfold Obj.remove
  split
  · exact h.of_entries rfl
  · exact ⟨h.nodup.sublist (List.eraseP_sublist.map _), fun e he =>
      h.ne_null e (List.eraseP_sublist.mem he), fun n hn => List.eraseP_sublist.length_le.trans
      (h.length_le n hn)⟩

theorem getChild_remove (h : o.Sound t) :
    (o.remove t k).getChild t c = if c = k then .null else o.getChild t c := by
  cases ht : t.capacity with
  | none => simp [Obj.remove, getChild, ht, Function.update_apply]
  | some n =>
    simp only [Obj.remove, getChild, ht, lookup_eraseP h.nodup]
    split_ifs <;> rfl

/-- The keys are strictly increasing. -/
def Sorted (o : Obj V) : Prop := (o.entries.map Prod.fst).Pairwise (· < ·)

theorem Sorted.remove (h : o.Sorted) : (o.remove t k).Sorted := by
  unfold Obj.remove
  split
  · exact h
  · exact h.sublist (List.eraseP_sublist.map _)

theorem Sorted.change (h : o.Sorted) (hi : o.change t key val = some o') : o'.Sorted := by
  unfold Obj.change at hi
  split at hi
  · cases hi
    exact h
  · obtain ⟨l, hl, rfl⟩ := Option.map_eq_some_iff.1 hi
    unfold Sorted
    rw [(changeEntry_spec hl).1]
    exact h

/-- A key that is not there goes between those that are smaller and those that are larger. -/
theorem goesBefore_iff (hne : k ≠ key) : goesBefore t k key = true ↔ k < key := by
  have hlt : ¬key < k ↔ k < key := by
    rw [UInt8.not_lt]
    exact ⟨fun h => (UInt8.lt_or_eq_of_le h).resolve_right hne, UInt8.le_of_lt⟩
  cases t <;> simp [goesBefore, hlt]

theorem sorted_append {l : List (UInt8 × ArtTinyPtr V)} (goes : UInt8 → Bool)
    (hgoes : ∀ e ∈ l, goes e.1 = true ↔ e.1 < key) (hne : ∀ e ∈ l, e.1 ≠ key)
    (h : (l.map Prod.fst).Pairwise (· < ·)) :
    ((l.takeWhile (fun e => goes e.1) ++ (key, p) :: l.dropWhile fun e =>
      goes e.1).map Prod.fst).Pairwise (· < ·) := by
  induction l with
  | nil => simp
  | cons e l ih =>
    rw [List.map_cons, List.pairwise_cons] at h
    have hgoes' : ∀ e' ∈ l, goes e'.1 = true ↔ e'.1 < key :=
      fun e' he' => hgoes e' (List.mem_cons_of_mem e he')
    have hne' : ∀ e' ∈ l, e'.1 ≠ key := fun e' he' => hne e' (List.mem_cons_of_mem e he')
    by_cases hg : goes e.1 = true
    · have hlt := (hgoes e List.mem_cons_self).1 hg
      simp only [List.takeWhile_cons, List.dropWhile_cons, hg, if_true, List.cons_append,
        List.map_cons, List.pairwise_cons]
      refine ⟨fun c hc => ?_, ih hgoes' hne' h.2⟩
      have hperm : (l.takeWhile (fun e => goes e.1) ++ (key, p) :: l.dropWhile fun e =>
        goes e.1).Perm ((key, p) :: l) :=
        List.perm_middle.trans (by rw [List.takeWhile_append_dropWhile])
      rcases List.mem_cons.1 ((hperm.map Prod.fst).mem_iff.1 hc) with rfl | hc
      · exact hlt
      · exact h.1 c hc
    · have hgt : key < e.1 := by
        have hle := UInt8.not_lt.1 fun hlt => hg ((hgoes e List.mem_cons_self).2 hlt)
        exact (UInt8.lt_or_eq_of_le hle).resolve_right (hne e List.mem_cons_self).symm
      simp only [List.takeWhile_cons, List.dropWhile_cons, if_neg hg, List.nil_append]
      refine List.pairwise_cons.2 ⟨fun c hc => ?_, List.pairwise_cons.2 h⟩
      rcases List.mem_cons.1 hc with rfl | hc
      · exact hgt
      · exact UInt8.lt_trans hgt (h.1 c hc)

theorem Sorted.insert (h : o.Sorted) (hs : o.Sound t) (hi : o.insert t key p = some o')
    (hk : o.getChild t key = .null) : o'.Sorted := by
  unfold Obj.insert at hi
  split at hi
  · cases hi
    exact h
  · rename_i n ht
    have hne : ∀ e ∈ o.entries, e.1 ≠ key := by
      rintro e he rfl
      exact hs.notMem_of_null ht hk (List.mem_map_of_mem he)
    split_ifs at hi with hlt
    cases hi
    exact sorted_append (fun k => goesBefore t k key) (fun e he => goesBefore_iff (hne e he)) hne h

/-- `getAnyChild` answers a leaf if there is one. -/
theorem isLeaf_getAnyChild (h : o.Sound t) (hc : o.getChild t c ≠ .null)
    (hleaf : isLeaf (o.getChild t c) = true) : isLeaf (o.getAnyChild t).2 = true := by
  have hmem := (h.listed.2 c _).2 ⟨rfl, hc⟩
  unfold getAnyChild
  split
  · rename_i e he
    exact List.find?_some (p := fun e : UInt8 × ArtTinyPtr V => isLeaf e.2) he
  · rename_i hnone
    have hnot := List.find?_eq_none.1 hnone (c, o.getChild t c) hmem
    exact absurd hleaf hnot

end Obj

/-! ### The arrays and the pairs -/

namespace Container

variable {avx512 : Bool} {c c' : Container V} {o : Obj V} {key k : UInt8} {p val : ArtTinyPtr V}

/-- The object of a container: its pairs in use, or its array. -/
def toObj (c : Container V) (o : Obj V) : Obj V :=
  match c with
  | n256 a => { o with children := a.children, count := a.count }
  | c => { o with entries := c.listed }

theorem getChild_toObj : (c.toObj o).getChild c.type k = c.getChild avx512 k := by
  cases c with
  | n4 a =>
    simp only [toObj, Obj.getChild, type, NodeType.capacity, listed, lookup_entriesOf, getChild,
      N4.getChild, N4.childPos, id]
    cases a.live.find? fun i => a.keys i == k <;> rfl
  | n16 a =>
    simp only [toObj, Obj.getChild, type, NodeType.capacity, listed, lookup_entriesOf, getChild,
      Search.getChild, N16.correct.getChildPos]
    cases a.live.find? fun i => flipSign (a.keys i) == k <;> rfl
  | n64 a =>
    simp only [toObj, Obj.getChild, type, NodeType.capacity, listed, lookup_entriesOf, getChild,
      Search.getChild, (N64.correct avx512).getChildPos]
    cases a.live.find? fun i => flipSign (a.keys i) == k <;> rfl
  | n256 a => rfl

/-- A class that flips the sign of keys inserts a pair where it belongs. -/
theorem insert_search {s : Search V n} (hs : s.Correct) {a : KeyArrays V n} (ha : a.count < n)
    (key : UInt8) (p : ArtTinyPtr V) :
    ∃ a', s.insert key p a = some a' ∧ entriesOf flipSign a' = (entriesOf flipSign a).takeWhile
      (fun e => !decide (key < e.1)) ++
        (key, p) :: (entriesOf flipSign a).dropWhile fun e => !decide (key < e.1) := by
  refine insertAt_entriesOf (fun k => !decide (key < k)) (flipSign_flipSign key) p ha ?_
  rw [hs.insertPos key a ha, Arrays.length_takeWhile_live]

theorem insert_toObj (avx512 : Bool) (o : Obj V) (key : UInt8) (p : ArtTinyPtr V)
    (hfull : c.isFull = false) :
    ∃ c', c.insert avx512 key p = some c' ∧ c'.type = c.type ∧
      (c.toObj o).insert c.type key p = some (c'.toObj o) := by
  cases c with
  | n4 a =>
    have ha : a.count < 4 := lt_of_le_of_ne a.count_le (by simpa [isFull] using hfull)
    obtain ⟨a', ha', he⟩ := insertAt_entriesOf (fun k => decide (k < key)) (id_eq key) p ha rfl
    have hi : insert avx512 key p (n4 a) = some (n4 a') := congrArg (Option.map n4) ha'
    refine ⟨n4 a', hi, rfl, ?_⟩
    simp only [toObj, Obj.insert, type, NodeType.capacity, listed, length_entriesOf, if_pos ha,
      he, Obj.goesBefore]
  | n16 a =>
    have ha : a.count < 16 := lt_of_le_of_ne a.count_le (by simpa [isFull] using hfull)
    obtain ⟨a', ha', he⟩ := insert_search N16.correct ha key p
    have hi : insert avx512 key p (n16 a) = some (n16 a') := congrArg (Option.map n16) ha'
    refine ⟨n16 a', hi, rfl, ?_⟩
    simp only [toObj, Obj.insert, type, NodeType.capacity, listed, length_entriesOf, if_pos ha,
      he, Obj.goesBefore]
  | n64 a =>
    have ha : a.count < 64 := lt_of_le_of_ne a.count_le (by simpa [isFull] using hfull)
    obtain ⟨a', ha', he⟩ := insert_search (N64.correct avx512) ha key p
    have hi : insert avx512 key p (n64 a) = some (n64 a') := congrArg (Option.map n64) ha'
    refine ⟨n64 a', hi, rfl, ?_⟩
    simp only [toObj, Obj.insert, type, NodeType.capacity, listed, length_entriesOf, if_pos ha,
      he, Obj.goesBefore]
  | n256 a => exact ⟨n256 (a.insert key p), rfl, rfl, rfl⟩

theorem change_toObj (avx512 : Bool) (o : Obj V) (key : UInt8) (val : ArtTinyPtr V) :
    (c.toObj o).change c.type key val = (c.change avx512 key val).map fun c' => c'.toObj o := by
  cases c with
  | n4 a =>
    simp only [toObj, Obj.change, type, NodeType.capacity, listed, changeEntry_entriesOf, change,
      N4.change, N4.childPos, id]
    cases a.live.find? fun i => a.keys i == key <;> rfl
  | n16 a =>
    simp only [toObj, Obj.change, type, NodeType.capacity, listed, changeEntry_entriesOf,
      change, Search.change, N16.correct.getChildPos]
    cases a.live.find? fun i => flipSign (a.keys i) == key <;> rfl
  | n64 a =>
    simp only [toObj, Obj.change, type, NodeType.capacity, listed, changeEntry_entriesOf,
      change, Search.change, (N64.correct avx512).getChildPos]
    cases a.live.find? fun i => flipSign (a.keys i) == key <;> rfl
  | n256 a => rfl

theorem type_change (h : c.change avx512 key val = some c') : c'.type = c.type := by
  cases c with
  | n4 a | n16 a | n64 a =>
    obtain ⟨a', -, rfl⟩ := Option.map_eq_some_iff.1 h
    rfl
  | n256 a =>
    cases h
    rfl

/-- A class that flips the sign of keys takes a key out, and its assertions hold. -/
theorem remove_search {s : Search V n} (hs : s.Correct) {a : KeyArrays V n}
    (hnd : ((entriesOf flipSign a).map Prod.fst).Nodup) (hk : s.getChild k a ≠ .null) :
    ∃ a', s.remove k a = some a' ∧ entriesOf flipSign a' = (entriesOf flipSign a).eraseP
      fun e => e.1 == k := by
  unfold Search.getChild at hk
  rw [hs.getChildPos] at hk
  cases hfind : a.live.find? fun i => flipSign (a.keys i) == k with
  | none => simp [hfind] at hk
  | some i =>
    obtain ⟨a', ha', he⟩ := eraseP_entriesOf flipSign hfind
    refine ⟨a', ?_, he⟩
    have hgone : s.getChild k a' = .null := by
      have hlookup := lookup_entriesOf flipSign a' k
      rw [he, Obj.lookup_eraseP hnd, if_pos rfl, Option.getD_none] at hlookup
      unfold Search.getChild
      rw [hs.getChildPos]
      cases hfind' : a'.live.find? fun i => flipSign (a'.keys i) == k with
      | none => rfl
      | some j =>
        rw [hfind'] at hlookup
        exact hlookup.symm
    unfold Search.remove
    simp only [hs.getChildPos, hfind, Option.bind_eq_bind, Option.bind_some, ha', if_pos hgone]
    rfl

theorem remove_toObj (hs : (c.toObj o).Sound c.type) (hk : c.getChild avx512 k ≠ .null) :
    ∃ c', c.remove avx512 k = some c' ∧ c'.type = c.type ∧
      c'.toObj o = (c.toObj o).remove c.type k := by
  cases c with
  | n4 a =>
    unfold getChild N4.getChild N4.childPos at hk
    cases hfind : a.live.find? fun i => a.keys i == k with
    | none => simp [hfind] at hk
    | some i =>
      obtain ⟨a', ha', he⟩ := eraseP_entriesOf id hfind
      have hr : remove avx512 k (n4 a) = some (n4 a') := by
        simp only [remove, N4.remove, N4.childPos, hfind, ha', Option.map_some]
      refine ⟨n4 a', hr, rfl, ?_⟩
      simp only [toObj, Obj.remove, type, NodeType.capacity, listed, he]
  | n16 a =>
    obtain ⟨a', ha', he⟩ := remove_search N16.correct hs.nodup hk
    refine ⟨n16 a', congrArg (Option.map n16) ha', rfl, ?_⟩
    simp only [toObj, Obj.remove, type, NodeType.capacity, listed, he]
  | n64 a =>
    obtain ⟨a', ha', he⟩ := remove_search (N64.correct avx512) hs.nodup hk
    refine ⟨n64 a', congrArg (Option.map n64) ha', rfl, ?_⟩
    simp only [toObj, Obj.remove, type, NodeType.capacity, listed, he]
  | n256 a => exact ⟨n256 (a.remove k), rfl, rfl, rfl⟩

theorem listed_toObj : (c.toObj o).listed c.type = c.listed := by
  cases c with
  | n4 a | n16 a | n64 a => rfl
  | n256 a =>
    simp only [toObj, Obj.listed, type, NodeType.capacity, listed, N256.listed,
      List.range_eq_range']

/-- The any child of a class that flips the sign of keys. -/
theorem getAnyChild_search [NeZero n] {a : KeyArrays V n} (hne : entriesOf flipSign a ≠ []) :
    (Search.getAnyChild a).swap = match (entriesOf flipSign a).find? fun e => isLeaf e.2 with
      | some e => e
      | none => (entriesOf flipSign a).head?.getD (128, .null) := by
  have hpos : 0 < a.count := by
    rw [← length_entriesOf flipSign a]
    exact List.length_pos_of_ne_nil hne
  have hhead : (entriesOf flipSign a).head? = some (flipSign (a.keys 0), a.children 0) := by
    rw [entriesOf, List.head?_map, Arrays.head?_live hpos]
    rfl
  have hfind : (entriesOf flipSign a).find? (fun e => isLeaf e.2) =
      (a.live.find? fun i => isLeaf (a.children i)).map fun i =>
      (flipSign (a.keys i), a.children i) := by
    rw [entriesOf, List.find?_map]
    rfl
  rw [hfind, hhead, Search.getAnyChild]
  cases a.live.find? fun i => isLeaf (a.children i) <;> rfl

/-- Of a node that is not empty any child is the same one. -/
theorem getAnyChild_toObj (hne : c.listed ≠ []) :
    (c.toObj o).getAnyChild c.type = c.getAnyChild.swap := by
  unfold Obj.getAnyChild
  rw [listed_toObj]
  cases c with
  | n4 a =>
    have hfind : (entriesOf id a).find? (fun e => isLeaf e.2) =
        (a.live.find? fun i => isLeaf (a.children i)).map fun i => (a.keys i, a.children i) := by
      rw [entriesOf, List.find?_map]
      rfl
    have hlast : (entriesOf id a).getLast? = a.live.getLast?.map fun i =>
      (a.keys i, a.children i) := List.getLast?_map
    simp only [listed, hfind, hlast, getAnyChild, N4.getAnyChild, type]
    cases a.live.find? fun i => isLeaf (a.children i) with
    | some i => rfl
    | none => cases a.live.getLast? <;> rfl
  | n16 a | n64 a => exact (getAnyChild_search hne).symm
  | n256 a =>
    simp only [listed, getAnyChild, N256.getAnyChild, type]
    cases (a.listed 0 255).find? fun e => isLeaf e.2 with
    | some e => rfl
    | none => cases (a.listed 0 255).getLast? <;> rfl

/-! ### Sequences of calls -/

variable (avx512) in
/-- The containers that calls reach, with the map that they stand for: a key that is not there is
inserted unless the node is full, and keys that are there are changed and removed. -/
inductive Built : Container V → (UInt8 → ArtTinyPtr V) → Prop
  | new {c : Container V} (h : c.IsNew) : Built c fun _ => .null
  | insert {c c' : Container V} {m : UInt8 → ArtTinyPtr V} {key : UInt8}
      {p : ArtTinyPtr V} (h : Built c m) (hk : m key = .null) (hfull : c.isFull = false)
      (hp : p ≠ .null) (hi : c.insert avx512 key p = some c') : Built c' (Function.update m key p)
  | change {c c' : Container V} {m : UInt8 → ArtTinyPtr V} {key : UInt8}
      {val : ArtTinyPtr V} (h : Built c m) (hk : m key ≠ .null) (hp : val ≠ .null)
      (hc : c.change avx512 key val = some c') : Built c' (Function.update m key val)
  | remove {c c' : Container V} {m : UInt8 → ArtTinyPtr V} {k : UInt8} (h : Built c m)
      (hk : m k ≠ .null) (hr : c.remove avx512 k = some c') : Built c' (Function.update m k .null)

/-- An object without children. -/
def blank (V : Variant) : Obj V := ⟨0, 0, 0, 0, fun _ => 0, [], fun _ => .null, 0⟩

variable (avx512) in
/-- The pairs of a container stand for the map. -/
structure Stands (c : Container V) (m : UInt8 → ArtTinyPtr V) : Prop where
  sound : (c.toObj (blank V)).Sound c.type
  sorted : (c.toObj (blank V)).Sorted
  getChild : ∀ k, c.getChild avx512 k = m k

variable {m : UInt8 → ArtTinyPtr V}

/-- The map of the pairs. -/
theorem Stands.getChild_obj (h : c.Stands avx512 m) (k : UInt8) :
    (c.toObj (blank V)).getChild c.type k = m k :=
  getChild_toObj.trans (h.getChild k)

theorem listed_of_isNew (h : c.IsNew) : c.listed = [] := by
  cases c with
  | n4 a | n16 a | n64 a =>
    rw [← List.length_eq_zero_iff]
    exact (length_entriesOf _ a).trans h.1
  | n256 a =>
    simp only [listed, N256.listed, h.2]
    simp

theorem Stands.of_isNew (h : c.IsNew) : c.Stands avx512 fun _ => .null := by
  have hlisted := listed_of_isNew h
  have hentries : (c.toObj (blank V)).entries = [] := by
    cases c with
    | n4 a | n16 a | n64 a => exact hlisted
    | n256 a => rfl
  refine ⟨⟨by simp [hentries], by simp [hentries], by simp [hentries]⟩, by simp [Obj.Sorted,
    hentries], fun k => ?_⟩
  rw [← getChild_toObj (o := blank V)]
  cases c with
  | n4 a | n16 a | n64 a =>
    simp only [Obj.getChild, type, NodeType.capacity, hentries]
    rfl
  | n256 a => exact h.2 k

theorem Stands.insert (h : c.Stands avx512 m) (hk : m key = .null) (hfull : c.isFull = false)
    (hp : p ≠ .null) :
    ∃ c', c.insert avx512 key p = some c' ∧ c'.type = c.type ∧
      c'.Stands avx512 (Function.update m key p) := by
  obtain ⟨c', hi, ht, ho⟩ := insert_toObj avx512 (blank V) key p hfull
  have hnull := (h.getChild_obj key).trans hk
  refine ⟨c', hi, ht, ht ▸ h.sound.insert ho hp hnull,
    h.sorted.insert h.sound ho hnull, fun k => ?_⟩
  rw [← getChild_toObj (o := blank V), ht, Obj.getChild_insert h.sound ho hnull,
    Function.update_apply, h.getChild_obj]

theorem Stands.change (h : c.Stands avx512 m) (hk : m key ≠ .null) (hp : val ≠ .null) :
    ∃ c', c.change avx512 key val = some c' ∧ c'.Stands avx512 (Function.update m key val) := by
  have hobj : (c.toObj (blank V)).getChild c.type key ≠ .null := by rwa [h.getChild_obj]
  obtain ⟨o', ho'⟩ : ∃ o', (c.toObj (blank V)).change c.type key val = some o' :=
    Obj.change_eq_some hobj
  have ho := ho'
  rw [change_toObj avx512] at ho
  obtain ⟨c', hc, rfl⟩ := Option.map_eq_some_iff.1 ho
  have ht := type_change hc
  refine ⟨c', hc, ht ▸ h.sound.change ho' hp, h.sorted.change ho', fun k => ?_⟩
  rw [← getChild_toObj (o := blank V), ht, Obj.getChild_change ho',
    Function.update_apply, h.getChild_obj]

theorem Stands.remove (h : c.Stands avx512 m) (hk : m k ≠ .null) :
    ∃ c', c.remove avx512 k = some c' ∧ c'.Stands avx512 (Function.update m k .null) := by
  obtain ⟨c', hr, ht, ho⟩ := remove_toObj h.sound ((h.getChild k).trans_ne hk)
  refine ⟨c', hr, ?_, ?_, fun k' => ?_⟩
  · rw [ho, ht]
    exact h.sound.remove
  · rw [ho]
    exact h.sorted.remove
  · rw [← getChild_toObj (o := blank V), ho, ht, Obj.getChild_remove h.sound,
      Function.update_apply, h.getChild_obj]

theorem Built.stands (h : Built avx512 c m) : c.Stands avx512 m := by
  induction h with
  | new h => exact .of_isNew h
  | insert _ hk hfull hp hi ih =>
    obtain ⟨c', hi', -, hs⟩ := ih.insert hk hfull hp
    rw [hi] at hi'
    cases hi'
    exact hs
  | change _ hk hp hc ih =>
    obtain ⟨c', hc', hs⟩ := ih.change hk hp
    rw [hc] at hc'
    cases hc'
    exact hs
  | remove _ hk hr ih =>
    obtain ⟨c', hr', hs⟩ := ih.remove hk
    rw [hr] at hr'
    cases hr'
    exact hs

/-- The pairs are those of the map. -/
theorem Stands.mem_listed (h : c.Stands avx512 m) : (k, p) ∈ c.listed ↔ p = m k ∧ p ≠ .null := by
  rw [← listed_toObj (o := blank V), h.sound.listed.2, h.getChild_obj]

theorem Stands.any (h : c.Stands avx512 m) (hk : m k ≠ .null) :
    (c.getAnyChild.1 = m c.getAnyChild.2 ∧ c.getAnyChild.1 ≠ .null) ∧
      (isLeaf (m k) = true → isLeaf c.getAnyChild.1 = true) := by
  have hne : c.listed ≠ [] := List.ne_nil_of_mem (h.mem_listed.2 ⟨rfl, hk⟩)
  have hany := getAnyChild_toObj (o := blank V) hne
  have hk' : (c.toObj (blank V)).getChild c.type k ≠ .null := by rwa [h.getChild_obj]
  refine ⟨?_, fun hleaf => ?_⟩
  · have := h.sound.getAnyChild hk'
    rwa [hany, h.getChild_obj] at this
  · have := Obj.isLeaf_getAnyChild h.sound hk' (by rwa [h.getChild_obj])
    rwa [hany] at this

/-- How many children there is room for. -/
theorem isFull_iff {n : ℕ} (h : n ∈ c.type.capacity) : c.isFull = true ↔ c.listed.length = n := by
  cases c with
  | n4 a | n16 a | n64 a =>
    cases h
    simp [isFull, listed]
  | n256 a => cases h

theorem length_insert {n : ℕ} (hn : n ∈ c.type.capacity) (hi : c.insert avx512 key p = some c')
    (hfull : c.isFull = false) : c'.listed.length = c.listed.length + 1 := by
  obtain ⟨c₁, hi₁, ht, ho⟩ := insert_toObj avx512 (blank V) key p hfull
  rw [hi] at hi₁
  cases hi₁
  rw [← listed_toObj (o := blank V), ← listed_toObj (o := blank V), ht]
  simp only [Obj.insert, Option.mem_def.1 hn] at ho
  split_ifs at ho with hlt
  have hentries := congrArg Obj.entries (Option.some.inj ho)
  simp only [Obj.listed, Option.mem_def.1 hn, ← hentries]
  rw [List.length_append, List.length_cons, ← Nat.add_assoc, ← List.length_append,
    List.takeWhile_append_dropWhile]

/-- The loop of `copyTo`, into a container with room for all that is left. -/
theorem Built.copy {l : List (UInt8 × ArtTinyPtr V)} (hnd : (l.map Prod.fst).Nodup)
    (hnn : ∀ e ∈ l, e.2 ≠ .null) (h : Built avx512 c m) (hfresh : ∀ e ∈ l, m e.1 = .null)
    (hroom : ∀ n ∈ c.type.capacity, c.listed.length + l.length ≤ n) :
    ∃ c', l.foldlM (fun c e => c.insert avx512 e.1 e.2) c = some c' ∧ Built avx512 c' fun k =>
      (l.lookup k).getD (m k) := by
  induction l generalizing c m with
  | nil => exact ⟨c, rfl, h⟩
  | cons e l ih =>
    obtain ⟨hnot, hnd⟩ := List.nodup_cons.1 hnd
    have hfull : c.isFull = false := by
      rw [Bool.eq_false_iff]
      intro hfull
      cases hcap : c.type.capacity with
      | none =>
        cases c with
        | n4 a | n16 a | n64 a => cases hcap
        | n256 a => cases hfull
      | some n =>
        have := hroom n hcap
        rw [(isFull_iff hcap).1 hfull, List.length_cons] at this
        omega
    have hk := hfresh e List.mem_cons_self
    obtain ⟨c₁, hi, ht, -⟩ := h.stands.insert hk hfull (hnn e List.mem_cons_self)
    obtain ⟨c₂, hc₂, hb⟩ := ih hnd (fun e' he' => hnn e' (List.mem_cons_of_mem _ he'))
      (h.insert hk hfull (hnn e List.mem_cons_self) hi)
      (fun e' he' => by
        have hne : e'.1 ≠ e.1 := fun heq => hnot (heq ▸ List.mem_map_of_mem (f := Prod.fst) he')
        rw [Function.update_of_ne hne]
        exact hfresh e' (List.mem_cons_of_mem _ he'))
      fun n hn => by
        rw [ht] at hn
        rw [length_insert hn hi hfull]
        have := hroom n hn
        rw [List.length_cons] at this
        omega
    refine ⟨c₂, by rw [List.foldlM_cons, hi]; exact hc₂, ?_⟩
    have hmap : (fun k => (l.lookup k).getD (Function.update m e.1 e.2 k)) = fun k =>
      ((e :: l).lookup k).getD (m k) := by
      funext k
      rw [Obj.lookup_cons, Function.update_apply]
      split_ifs with hc
      · have hnone : l.lookup k = none := List.lookup_eq_none_iff.2 fun e' he' => by
          have hne : k ≠ e'.1 := fun heq =>
            hnot (hc ▸ heq ▸ List.mem_map_of_mem (f := Prod.fst) he')
          simpa using hne
        rw [hnone]
        rfl
      · rfl
    exact hmap ▸ hb

theorem length_listed_le (h : c.Grows c') : ∀ n ∈ c'.type.capacity, c.listed.length ≤ n := by
  intro n hn
  match c, c', h with
  | n4 a, n16 _, _ | n16 a, n64 _, _ =>
    cases hn
    simp only [listed, length_entriesOf]
    exact a.count_le.trans (by norm_num)
  | n16 _, n256 _, _ | n64 _, n256 _, _ => cases hn

/-- A new `N16`. -/
def newN16 (V : Variant) : Container V := n16 ⟨fun _ => 0, fun _ => .null, 0, Nat.zero_le 16⟩

theorem isNew_newN16 (V : Variant) : (newN16 V).IsNew := ⟨rfl, fun _ => ⟨rfl, rfl⟩⟩

/-- The pairs of a map whose keys are in a range, in ascending order. -/
def rangeQuery (m : UInt8 → ArtTinyPtr V) (start stop : UInt8) : List (UInt8 × ArtTinyPtr V) :=
  (((List.range 256).map UInt8.ofNat).filter fun k =>
    decide (start ≤ k ∧ k ≤ stop ∧ m k ≠ .null)).map fun k => (k, m k)

/-- When `getChildren` of a class is right: `N16` and `N64` take the first and the last position for
a bound that is not a key. -/
def BoundsKnown (c : Container V) (m : UInt8 → ArtTinyPtr V) (start stop : UInt8) : Prop :=
  match c with
  | n4 _ | n256 _ => True
  | n16 _ | n64 _ => (m start ≠ .null ∨ ∀ k, m k ≠ .null → start ≤ k) ∧
      (m stop ≠ .null ∨ ∀ k, m k ≠ .null → k ≤ stop)

variable {start stop : UInt8} {l l' : List (UInt8 × ArtTinyPtr V)}

/-- A list of pairs is determined by what is in it if its keys are increasing. -/
theorem eq_of_mem_iff (h : (l.map Prod.fst).Pairwise (· < ·))
    (h' : (l'.map Prod.fst).Pairwise (· < ·)) (hmem : ∀ e, e ∈ l ↔ e ∈ l') : l = l' := by
  rw [List.pairwise_map] at h h'
  have hnd : ∀ {l : List (UInt8 × ArtTinyPtr V)}, l.Pairwise (fun e e' =>
    e.1 < e'.1) → l.Nodup := by
    intro l h
    refine List.Pairwise.imp (fun {e e'} hlt he => ?_) h
    rw [he] at hlt
    exact UInt8.lt_irrefl _ hlt
  refine ((List.perm_ext_iff_of_nodup (hnd h) (hnd h')).2 hmem).eq_of_pairwise
    (fun e e' _ _ hlt hgt => ?_) h h'
  exact absurd (UInt8.lt_trans hlt hgt) (UInt8.lt_irrefl _)

theorem mem_rangeQuery :
    (k, p) ∈ rangeQuery m start stop ↔ start ≤ k ∧ k ≤ stop ∧ p = m k ∧ p ≠ .null := by
  unfold rangeQuery
  simp only [List.mem_map, List.mem_filter, List.mem_range, decide_eq_true_eq, Prod.mk.injEq]
  constructor
  · rintro ⟨_, ⟨⟨i, -, rfl⟩, hstart, hstop, hne⟩, rfl, rfl⟩
    exact ⟨hstart, hstop, rfl, hne⟩
  · rintro ⟨hstart, hstop, rfl, hne⟩
    exact ⟨k, ⟨⟨k.toNat, k.toNat_lt, UInt8.ofNat_toNat⟩, hstart, hstop, hne⟩, rfl, rfl⟩

theorem pairwise_ofNat {i j : ℕ} (h : i + j ≤ 256) :
    ((List.range' i j).map UInt8.ofNat).Pairwise (· < ·) := by
  rw [List.pairwise_map]
  refine List.Pairwise.imp_of_mem (fun {a b} ha hb hlt => ?_) List.pairwise_lt_range'
  rw [List.mem_range'_1] at ha hb
  rw [UInt8.lt_iff_toNat_lt, UInt8.toNat_ofNat', UInt8.toNat_ofNat', Nat.mod_eq_of_lt (by omega),
    Nat.mod_eq_of_lt (by omega)]
  exact hlt

theorem sorted_rangeQuery : ((rangeQuery m start stop).map Prod.fst).Pairwise (· < ·) := by
  have hid : (rangeQuery m start stop).map Prod.fst =
      ((List.range 256).map UInt8.ofNat).filter fun k => decide (start ≤ k ∧ k ≤ stop ∧
      m k ≠ .null) := by
    rw [rangeQuery, List.map_map]
    exact List.map_id _
  rw [hid]
  refine List.Pairwise.filter _ ?_
  rw [List.range_eq_range']
  exact pairwise_ofNat (by norm_num)

/-- The loops of `N4` and `N256`. -/
theorem getChildren_n4 {a : KeyArrays V 4} (h : (n4 a).Stands avx512 m) :
    N4.getChildren start stop a = rangeQuery m start stop := by
  have heq : N4.getChildren start stop a = (entriesOf id a).filter fun e => decide (e.1 ≥ start ∧
    e.1 ≤ stop) := by
    rw [entriesOf, List.filter_map]
    rfl
  refine eq_of_mem_iff ?_ sorted_rangeQuery fun e => ?_
  · rw [heq]
    exact List.Pairwise.sublist (List.filter_sublist.map _) h.sorted
  · rw [heq, List.mem_filter, mem_rangeQuery, decide_eq_true_iff]
    have hmem : e ∈ entriesOf id a ↔ _ := h.mem_listed (k := e.1) (p := e.2)
    rw [hmem]
    exact ⟨fun ⟨hm, hb⟩ => ⟨hb.1, hb.2, hm⟩, fun ⟨h₁, h₂, hm⟩ => ⟨hm, h₁, h₂⟩⟩

theorem getChildren_n256 {a : N256 V} (h : (n256 a).Stands avx512 m) :
    a.getChildren start stop = rangeQuery m start stop := by
  have hchild : ∀ k, a.children k = m k := h.getChild
  refine eq_of_mem_iff ?_ sorted_rangeQuery fun e => ?_
  · unfold N256.getChildren N256.listed
    refine List.Pairwise.sublist (List.filter_sublist.map _) ?_
    rw [List.map_map]
    have hlt := stop.toNat_lt
    by_cases hle : start.toNat ≤ stop.toNat
    · exact pairwise_ofNat (by omega)
    · rw [Nat.sub_eq_zero_of_le (by omega)]
      exact List.Pairwise.nil
  · obtain ⟨k, p⟩ := e
    rw [mem_rangeQuery]
    simp only [N256.getChildren, N256.listed, List.mem_filter, List.mem_map, List.mem_range'_1,
      decide_eq_true_eq, Prod.mk.injEq, UInt8.le_iff_toNat_le]
    constructor
    · rintro ⟨⟨i, ⟨hle, hlt⟩, rfl, rfl⟩, hne⟩
      have hstop := stop.toNat_lt
      rw [UInt8.toNat_ofNat', Nat.mod_eq_of_lt (by omega)]
      exact ⟨hle, by omega, hchild _, hne⟩
    · rintro ⟨hstart, hstop, rfl, hne⟩
      refine ⟨⟨k.toNat, ⟨hstart, by omega⟩, UInt8.ofNat_toNat, ?_⟩, hne⟩
      rw [UInt8.ofNat_toNat, hchild]

section Positions

variable {s : Search V n} {a : KeyArrays V n} {b : UInt8} {i : Fin n}

/-- The keys in use are in order. -/
theorem flipSign_keys_le (hsort : ((entriesOf flipSign a).map Prod.fst).Pairwise (· < ·))
    {j : Fin n} (hi : i.val < a.count) (hj : j.val < a.count) :
    flipSign (a.keys i) ≤ flipSign (a.keys j) ↔ i.val ≤ j.val := by
  have hlt : ∀ {i j : Fin n}, i.val < j.val → j.val < a.count →
    flipSign (a.keys i) < flipSign (a.keys j) := by
    intro i j hij hj
    have h := List.pairwise_iff_getElem.1 hsort i j (by simpa using hij.trans hj)
      (by simpa using hj) hij
    simpa only [entriesOf, List.getElem_map, Arrays.getElem_live] using h
  constructor
  · intro hle
    by_contra hji
    exact UInt8.not_lt.2 hle (hlt (Nat.not_le.1 hji) hi)
  · intro hle
    rcases hle.eq_or_lt with heq | hij
    · rw [Fin.ext heq]
      exact UInt8.le_refl _
    · exact UInt8.le_of_lt (hlt hij hj)

/-- The keys of the map are those in use. -/
theorem ne_null_iff (hmem : ∀ k p, (k, p) ∈ entriesOf flipSign a ↔ p = m k ∧ p ≠ .null) :
    m b ≠ .null ↔ ∃ i : Fin n, i.val < a.count ∧ flipSign (a.keys i) = b := by
  constructor
  · intro hne
    obtain ⟨i, hi, he⟩ := List.mem_map.1 ((hmem b (m b)).2 ⟨rfl, hne⟩)
    exact ⟨i, Arrays.mem_live.1 hi, congrArg Prod.fst he⟩
  · rintro ⟨i, hi, rfl⟩
    obtain ⟨heq, hne⟩ := (hmem _ (a.children i)).1 (List.mem_map.2 ⟨i, Arrays.mem_live.2 hi, rfl⟩)
    rwa [← heq]

theorem getChildPos_cases (hs : s.Correct) (b : UInt8) (a : KeyArrays V n) :
    (∃ i, s.getChildPos b a = some i ∧ i.val < a.count ∧ flipSign (a.keys i) = b) ∨
      s.getChildPos b a = none ∧ ∀ i : Fin n, i.val < a.count → flipSign (a.keys i) ≠ b := by
  rw [hs.getChildPos]
  cases hfind : a.live.find? fun i => flipSign (a.keys i) == b with
  | some i => exact .inl ⟨i, rfl,
      Arrays.mem_live.1 (List.mem_of_find?_eq_some hfind), by simpa using List.find?_some hfind⟩
  | none =>
      exact .inr ⟨rfl,
      fun i hi => by simpa using List.find?_eq_none.1 hfind i (Arrays.mem_live.2 hi)⟩

/-- What `getChildren` writes is a range of positions. -/
theorem getChildren_search_iff {startPos endPos : ℤ}
    (hmem : ∀ k p, (k, p) ∈ entriesOf flipSign a ↔ p = m k ∧ p ≠ .null)
    (hsort : ((entriesOf flipSign a).map Prod.fst).Pairwise (· < ·)) (hend : endPos < a.count) :
    (((List.finRange n).filter fun i => decide (startPos ≤ i.val ∧ i.val ≤ endPos)).map fun i =>
        (flipSign (a.keys i), a.children i)) = rangeQuery m start stop ↔
      ∀ i : Fin n, i.val < a.count →
        (startPos ≤ i.val ∧ i.val ≤ endPos ↔ start ≤ flipSign (a.keys i) ∧
        flipSign (a.keys i) ≤ stop) := by
  rw [Arrays.filter_finRange (a := a) fun i hi => by
    have := (of_decide_eq_true hi).2
    omega]
  have hentry : ∀ i : Fin n, i.val < a.count → a.children i = m (flipSign (a.keys i)) ∧
    a.children i ≠ .null := fun i hi =>
    (hmem _ _).1 (List.mem_map.2 ⟨i, Arrays.mem_live.2 hi, rfl⟩)
  have hinj : ∀ i j : Fin n, i.val < a.count → j.val < a.count →
    flipSign (a.keys i) = flipSign (a.keys j) → i = j := by
    intro i j hi hj heq
    have hij := (flipSign_keys_le hsort hi hj).1 (heq ▸ UInt8.le_refl _)
    have hji := (flipSign_keys_le hsort hj hi).1 (heq ▸ UInt8.le_refl _)
    exact Fin.ext (hij.antisymm hji)
  constructor
  · intro h i hi
    have hin : (flipSign (a.keys i), a.children i) ∈ rangeQuery m start stop ↔ _ := mem_rangeQuery
    rw [← h, List.mem_map] at hin
    constructor
    · intro hP
      obtain ⟨hstart, hstop, -⟩ := hin.1 ⟨i, List.mem_filter.2 ⟨Arrays.mem_live.2 hi,
        decide_eq_true hP⟩, rfl⟩
      exact ⟨hstart, hstop⟩
    · intro hrange
      obtain ⟨j, hj, he⟩ := hin.2 ⟨hrange.1, hrange.2, hentry i hi⟩
      obtain ⟨hlive, hP⟩ := List.mem_filter.1 hj
      rw [← hinj j i (Arrays.mem_live.1 hlive) hi (congrArg Prod.fst he)]
      exact of_decide_eq_true hP
  · intro h
    apply eq_of_mem_iff
    · exact List.Pairwise.sublist ((List.filter_sublist.map _).map _) hsort
    · exact sorted_rangeQuery
    · rintro ⟨k, p⟩
      rw [mem_rangeQuery, List.mem_map]
      constructor
      · rintro ⟨i, hi, he⟩
        obtain ⟨hlive, hP⟩ := List.mem_filter.1 hi
        cases he
        obtain ⟨hstart, hstop⟩ := (h i (Arrays.mem_live.1 hlive)).1 (of_decide_eq_true hP)
        exact ⟨hstart, hstop, hentry i (Arrays.mem_live.1 hlive)⟩
      · rintro ⟨hstart, hstop, hp⟩
        obtain ⟨i, hi, he⟩ := List.mem_map.1 ((hmem k p).2 hp)
        refine ⟨i, List.mem_filter.2 ⟨hi, decide_eq_true ((h i (Arrays.mem_live.1 hi)).2 ?_)⟩, he⟩
        cases he
        exact ⟨hstart, hstop⟩

/-- The first position is right if the first bound is a key, or no key is below it. -/
theorem startPos_iff (hs : s.Correct)
    (hmem : ∀ k p, (k, p) ∈ entriesOf flipSign a ↔ p = m k ∧ p ≠ .null)
    (hsort : ((entriesOf flipSign a).map Prod.fst).Pairwise (· < ·))
    (h : m start ≠ .null ∨ ∀ k, m k ≠ .null → start ≤ k) (hi : i.val < a.count) :
    (s.getChildPos start a).elim (0 : ℤ) (fun i => i.val) ≤ i.val ↔
      start ≤ flipSign (a.keys i) := by
  rcases getChildPos_cases hs start a with ⟨j, hj, hlt, rfl⟩ | ⟨hnone, hne⟩
  · rw [hj, flipSign_keys_le hsort hlt hi]
    exact Int.ofNat_le
  · have hall := h.resolve_left fun hstart => by
      obtain ⟨j, hj, he⟩ := (ne_null_iff hmem).1 hstart
      exact hne j hj he
    rw [hnone]
    exact iff_of_true (Int.natCast_nonneg _) (hall _ ((ne_null_iff hmem).2 ⟨i, hi, rfl⟩))

theorem endPos_iff (hs : s.Correct)
    (hmem : ∀ k p, (k, p) ∈ entriesOf flipSign a ↔ p = m k ∧ p ≠ .null)
    (hsort : ((entriesOf flipSign a).map Prod.fst).Pairwise (· < ·))
    (h : m stop ≠ .null ∨ ∀ k, m k ≠ .null → k ≤ stop) (hi : i.val < a.count) :
    i.val ≤ (s.getChildPos stop a).elim (a.count - 1 : ℤ) (fun i => i.val) ↔
      flipSign (a.keys i) ≤ stop := by
  rcases getChildPos_cases hs stop a with ⟨j, hj, hlt, rfl⟩ | ⟨hnone, hne⟩
  · rw [hj, flipSign_keys_le hsort hi hlt]
    exact Int.ofNat_le
  · have hall := h.resolve_left fun hstop => by
      obtain ⟨j, hj, he⟩ := (ne_null_iff hmem).1 hstop
      exact hne j hj he
    rw [hnone]
    refine iff_of_true ?_ (hall _ ((ne_null_iff hmem).2 ⟨i, hi, rfl⟩))
    simp only [Option.elim_none]
    omega

/-- The positions that `N16` and `N64` take. -/
theorem getChildren_search (hs : s.Correct)
    (hmem : ∀ k p, (k, p) ∈ entriesOf flipSign a ↔ p = m k ∧ p ≠ .null)
    (hsort : ((entriesOf flipSign a).map Prod.fst).Pairwise (· < ·)) :
    s.getChildren start stop a = rangeQuery m start stop ↔ (m start ≠ .null ∨ ∀ k, m k ≠ .null →
      start ≤ k) ∧ (m stop ≠ .null ∨ ∀ k, m k ≠ .null → k ≤ stop) := by
  have hend : (s.getChildPos stop a).elim (a.count - 1 : ℤ) (fun i => i.val) < a.count := by
    rcases getChildPos_cases hs stop a with ⟨j, hj, hlt, -⟩ | ⟨hnone, -⟩
    · rw [hj]
      exact Int.ofNat_lt.2 hlt
    · rw [hnone]
      exact Int.sub_one_lt_of_le le_rfl
  refine (getChildren_search_iff hmem hsort hend).trans ⟨fun h => ⟨?_, ?_⟩,
    fun ⟨hstart, hstop⟩ i hi => ?_⟩
  · -- the key at the first position is written, and no other is smaller
    rcases getChildPos_cases hs start a with ⟨j, -, hlt, he⟩ | ⟨hnone, -⟩
    · exact .inl ((ne_null_iff hmem).2 ⟨j, hlt, he⟩)
    · refine .inr fun k hk => ?_
      obtain ⟨i, hi, rfl⟩ := (ne_null_iff hmem).1 hk
      have hpos : 0 < a.count := (Nat.zero_le _).trans_lt hi
      have hfirst := h ⟨0, hpos.trans_le a.count_le⟩ hpos
      rw [hnone] at hfirst
      refine UInt8.le_trans (hfirst.1 ⟨le_rfl, ?_⟩).1 ((flipSign_keys_le hsort hpos hi).2
        (Nat.zero_le _))
      rcases getChildPos_cases hs stop a with ⟨j, hj, -⟩ | ⟨hnone', -⟩
      · rw [hj]
        exact Int.natCast_nonneg _
      · rw [hnone']
        simp only [Option.elim_none]
        omega
  · rcases getChildPos_cases hs stop a with ⟨j, -, hlt, he⟩ | ⟨hnone, -⟩
    · exact .inl ((ne_null_iff hmem).2 ⟨j, hlt, he⟩)
    · refine .inr fun k hk => ?_
      obtain ⟨i, hi, rfl⟩ := (ne_null_iff hmem).1 hk
      have hpos : a.count - 1 < a.count := by omega
      have hlast := h ⟨a.count - 1, hpos.trans_le a.count_le⟩ hpos
      rw [hnone] at hlast
      refine UInt8.le_trans ((flipSign_keys_le hsort hi hpos).2 (Nat.le_sub_one_of_lt hi))
        (hlast.1 ⟨?_, ?_⟩).2
      · rcases getChildPos_cases hs start a with ⟨j, hj, hlt, -⟩ | ⟨hnone', -⟩
        · rw [hj]
          exact Int.ofNat_le.2 (Nat.le_sub_one_of_lt hlt)
        · rw [hnone']
          exact Int.natCast_nonneg _
      · simp only [Option.elim_none]
        omega
  · rw [startPos_iff hs hmem hsort hstart hi, endPos_iff hs hmem hsort hstop hi]

end Positions

/-- `getChildren` is a range query of `N4` and `N256`, and of the others if they know the bounds. -/
theorem getChildren_eq_iff (h : Built avx512 c m) :
    c.getChildren avx512 start stop = rangeQuery m start stop ↔ c.BoundsKnown m start stop := by
  have hs := h.stands
  cases c with
  | n4 a => exact iff_of_true (getChildren_n4 hs) trivial
  | n16 a => exact getChildren_search N16.correct (fun _ _ => hs.mem_listed) hs.sorted
  | n64 a => exact getChildren_search (N64.correct avx512) (fun _ _ => hs.mem_listed) hs.sorted
  | n256 a => exact iff_of_true (getChildren_n256 hs) trivial

theorem getChildren_eq_iff_known :
    ∃ (c : Container .olc) (m : UInt8 → ArtTinyPtr .olc), Built true c m ∧ m 10 ≠ .null ∧
      m 40 ≠ .null ∧ c.getChildren true 10 40 = rangeQuery m 10 40 := by
  have h₀ : Built true (newN16 .olc) fun _ => .null := .new (isNew_newN16 _)
  obtain ⟨c, -, h⟩ := h₀.copy (l := [(10, ⟨16⟩), (40, ⟨24⟩)]) (by decide) (by decide)
    (fun _ _ => rfl) fun n hn => by
    cases hn
    decide
  refine ⟨c, _, h, by decide, by decide, ?_⟩
  have hcases : c.BoundsKnown _ 10 40 → c.getChildren true 10 40 = _ := (getChildren_eq_iff h).2
  apply hcases
  cases c with
  | n4 a | n256 a => trivial
  | n16 a | n64 a => exact ⟨.inl (by decide), .inl (by decide)⟩

/-- With 10 as the only key, `N16` has it between 20 and 30. -/
theorem getChildren_ne : ∃ (c : Container .olc) (m : UInt8 → ArtTinyPtr .olc), Built true c m ∧
    c.getChildren true 20 30 = [(10, ⟨16⟩)] ∧ rangeQuery m 20 30 = [] := by
  have h : Built true _ (Function.update (fun _ => .null) 10 ⟨16⟩) :=
    .insert (.new (isNew_newN16 .olc)) rfl rfl (by decide) rfl
  exact ⟨_, _, h, by decide +kernel, by decide +kernel⟩

end Container

end TinyPointerTrees.Art
