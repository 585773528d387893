import Mathlib.Data.Nat.Bitwise
import TinyPointerTrees.TinyPtr.FreeList
import TinyPointerTrees.TinyPtr.Util

/-!
# The nodes of the tiny ART

`N.h`, `N4.cpp`, `N16.cpp`, `N64.cpp`, `N256.cpp` and `Leaf.cpp` of the three trees
`art/tiny_art`, `art/tiny_art_64` and `art/tiny_art_256`. The trees differ in the
classes of inner nodes they have, and in the special bits of a tiny pointer that
stand for a class (`Variant.nodeType`). A node is in the table of its class, so
special bits also name a table.

A node is a lock word, an id, a compressed prefix of which the first eleven bytes
are stored, and its children: the pairs of the arrays `keys` and `children` up to
`count`, or an array with a pointer for every byte. `getChild` says what the
children are as a function, and the lemmas about a member function say what it does
to this function.
-/

namespace TinyPointerTrees.Art

/-- The three trees. -/
inductive Variant where
  /-- `TINY_ART_OLC`. -/
  | olc
  /-- `TINY_ART_64_OLC`. -/
  | olc64
  /-- `TINY_ART_256_OLC`. -/
  | olc256
  deriving DecidableEq

/-- The classes of inner nodes. -/
inductive NodeType where
  /-- `N4`. -/
  | n4
  /-- `N16`. -/
  | n16
  /-- `N64`. -/
  | n64
  /-- `N256`. -/
  | n256
  deriving DecidableEq

/-- The length of the arrays `keys` and `children`; `N256` has an entry for every byte. -/
def NodeType.capacity : NodeType → Option ℕ
  | .n4 => some 4
  | .n16 => some 16
  | .n64 => some 64
  | .n256 => none

/-- `LeafS`. -/
def leafS : ℕ := 0

/-- `maxStoredPrefixLength`. -/
def maxStoredPrefixLength : ℕ := 11

namespace Variant

/-- The special bits of an `ArtTinyPtr`. -/
def specialBits : Variant → ℕ
  | .olc => 2
  | .olc64 => 2
  | .olc256 => 1

theorem specialBits_lt (V : Variant) : V.specialBits + 1 < 8 := by cases V <;> decide

/-- The layout of an `ArtTinyPtr`. -/
abbrev layout (V : Variant) : Layout := .byte V.specialBits V.specialBits_lt

/-- The class for which special bits stand: `N4S`, `N16S`, `N64S` and `N256S`. -/
def nodeType : Variant → ℕ → Option NodeType
  | .olc, 1 => some .n4
  | .olc, 2 => some .n16
  | .olc, 3 => some .n256
  | .olc64, 1 => some .n64
  | .olc64, 2 => some .n16
  | .olc64, 3 => some .n256
  | .olc256, 1 => some .n256
  | _, _ => none

/-- `N256S`. -/
def n256S : Variant → ℕ
  | .olc => 3
  | .olc64 => 3
  | .olc256 => 1

/-- The special bits of `InitialNode`. -/
def initialS : Variant → ℕ
  | .olc => 1
  | .olc64 => 2
  | .olc256 => 1

/-- `biggerN`, for the class that grows. -/
def biggerS : Variant → ℕ → ℕ
  | .olc, 1 => 2
  | .olc64, 2 => 1
  | V, _ => V.n256S

/-- A lock word has its node's class in its upper two bits. -/
def typed : Variant → Bool
  | .olc => true
  | .olc64 => true
  | .olc256 => false

variable {V : Variant} {c : ℕ}

theorem nodeType_lt (h : V.nodeType c ≠ none) : c < 2 ^ V.specialBits ∧ c < 4 := by
  unfold nodeType at h
  split at h <;> first | exact absurd rfl h | decide

theorem nodeType_ne_leafS (h : V.nodeType c ≠ none) : c ≠ leafS := by
  intro hc
  subst hc
  cases V <;> exact h rfl

theorem nodeType_n256S : V.nodeType V.n256S = some .n256 := by cases V <;> rfl

/-- A lock word has no class where there is one class only. -/
theorem nodeType_of_not_typed {t : NodeType} (hV : V.typed = false) (h : V.nodeType c = some t) :
    t = .n256 := by
  unfold nodeType at h
  split at h <;> simp_all [typed]

/-- Two children fit in a new inner node. -/
theorem nodeType_initialS : ∃ t, V.nodeType V.initialS = some t ∧ ∀ n ∈ t.capacity, 2 ≤ n := by
  cases V <;> exact ⟨_, rfl, by simp [NodeType.capacity]⟩

/-- A class that can be full grows into one with more room. -/
theorem nodeType_biggerS {t : NodeType} {n : ℕ} (h : V.nodeType c = some t)
    (hn : t.capacity = some n) :
    ∃ t', V.nodeType (V.biggerS c) = some t' ∧ ∀ m ∈ t'.capacity, n < m := by
  unfold nodeType at h
  split at h <;> cases h <;> cases hn <;> exact ⟨_, rfl, by simp [NodeType.capacity]⟩

end Variant

/-- An `ArtTinyPtr`. -/
abbrev ArtTinyPtr (V : Variant) : Type := TinyPtr V.layout

/-- `isLeaf`. -/
def isLeaf {V : Variant} (p : ArtTinyPtr V) : Bool := p.special == leafS

/-! ### The lock word -/

/-- `isLocked`. -/
def isLocked (version : UInt64) : Bool := version &&& 0b10 == 0b10

/-- `isObsolete`. -/
def isObsolete (version : UInt64) : Bool := version &&& 1 == 1

/-- `convertTypeToVersion`. -/
def convertTypeToVersion (type : ℕ) : UInt64 := UInt64.ofNat type <<< 62

theorem isLocked_iff (v : UInt64) : isLocked v = true ↔ v.toNat / 2 % 2 = 1 := by
  have h2 : v.toNat &&& 2 = (v.toNat.testBit 1).toNat * 2 := Nat.and_two_pow v.toNat 1
  have hbit : v.toNat.testBit 1 = decide (v.toNat / 2 % 2 = 1) := by
    rw [Nat.testBit_succ, Nat.testBit_zero]
  unfold isLocked
  rw [beq_iff_eq, ← UInt64.toNat_inj, UInt64.toNat_and]
  simp only [UInt64.reduceToNat, h2, hbit]
  by_cases h : v.toNat / 2 % 2 = 1 <;> simp [h]

theorem isObsolete_iff (v : UInt64) : isObsolete v = true ↔ v.toNat % 2 = 1 := by
  unfold isObsolete
  rw [beq_iff_eq, ← UInt64.toNat_inj, UInt64.toNat_and]
  simp only [UInt64.reduceToNat, Nat.and_one_is_mod]

/-- The word is neither locked nor obsolete. -/
def Free (version : UInt64) : Prop := version.toNat % 4 = 0

theorem free_iff (v : UInt64) : Free v ↔ (isLocked v || isObsolete v) = false := by
  have h₁ := isLocked_iff v
  have h₂ := isObsolete_iff v
  unfold Free
  rw [Bool.or_eq_false_iff, Bool.eq_false_iff, Bool.eq_false_iff, Ne, Ne, h₁, h₂]
  omega

/-! ### The objects of the tables -/

/-- An entry of one of the tables. A leaf has a lock word and a `value`, an inner node what
follows; `N256` has `children`, the other classes have `entries`. -/
structure Obj (V : Variant) where
  /-- `typeVersionLockObsolete`. -/
  typeVersionLockObsolete : UInt64
  /-- `value`, of a leaf. -/
  value : UInt64
  /-- `id`. -/
  id : UInt64
  /-- `prefixCount`. -/
  prefixCount : ℕ
  /-- `prefix`. -/
  prefixBytes : Fin maxStoredPrefixLength → UInt8
  /-- `keys` and `children` up to `count`, of `N4`, `N16` and `N64`; the keys as `flipSign`
  has them in the latter two are the same bytes in the same order. -/
  entries : List (UInt8 × ArtTinyPtr V)
  /-- `children`, of `N256`. -/
  children : UInt8 → ArtTinyPtr V
  /-- `count`, of `N256`; that of the other classes is the length of `entries`. -/
  count : UInt8

variable {V : Variant}

/-- A free entry has its link in its first byte, the lowest of the lock word. -/
instance : Storage V.layout (Obj V) where
  getLink o := o.typeVersionLockObsolete.toNat % 256
  setLink o n := { o with
    typeVersionLockObsolete :=
      UInt64.ofNat (o.typeVersionLockObsolete.toNat / 256 * 256 + n % 256) }
  getLink_lt o := by
    have hw : 2 ^ V.layout.bucketIndexWidth = 256 := by cases V <;> rfl
    rw [hw]
    exact Nat.mod_lt _ (by norm_num)
  getLink_setLink o n hn := by
    have hw : 2 ^ V.layout.bucketIndexWidth = 256 := by cases V <;> rfl
    have hlt := o.typeVersionLockObsolete.toNat_lt
    rw [hw] at hn
    simp only [UInt64.toNat_ofNat']
    omega

namespace Obj

/-- `getType`. -/
def getType (o : Obj V) : ℕ := (o.typeVersionLockObsolete >>> 62).toNat

/-- The class an object of table `special` is treated as: `switch (getType())` and the cast, which
is right if that is the class of the object. `TINY_ART_256_OLC` has one class and no switch. -/
def classOf (special : ℕ) (o : Obj V) : Option NodeType :=
  if V.typed && o.getType != special then none else V.nodeType special

/-- `hasPrefix`. -/
def hasPrefix (o : Obj V) : Bool := decide (o.prefixCount > 0)

/-- `getPrefix`, as the bytes of the array. -/
def getPrefix (o : Obj V) : List UInt8 := List.ofFn o.prefixBytes

/-- `setPrefix`, from the bytes at `src`. -/
def setPrefix (o : Obj V) (src : List UInt8) (length : ℕ) : Obj V :=
  if length > 0 then
    { o with
      prefixBytes := fun i =>
        if i.val < min length maxStoredPrefixLength then src.getD i.val 0 else o.prefixBytes i
      prefixCount := length }
  else { o with prefixCount := 0 }

/-- `N4(prefix, prefixLength)` and its siblings, over whatever the entry was. -/
def construct (special : ℕ) (id : UInt64) (src : List UInt8) (length : ℕ) (o : Obj V) : Obj V :=
  setPrefix { o with
    typeVersionLockObsolete := if V.typed then 0b100 + convertTypeToVersion special else 0b100
    id := id
    entries := []
    children := fun _ => .null
    count := 0 } src length

/-- `Leaf(value)`. -/
def constructLeaf (value : UInt64) (o : Obj V) : Obj V :=
  { o with typeVersionLockObsolete := 0b100, value := value }

/-! ### The children -/

/-- Where `insert` puts a key: behind those that are smaller; `N16` and `N64` look for the
first key that is larger. -/
def goesBefore : NodeType → UInt8 → UInt8 → Bool
  | .n4, k, key => decide (k < key)
  | _, k, key => !decide (key < k)

/-- `insert`; nothing when it would write past the end of the arrays. -/
def insert (t : NodeType) (key : UInt8) (p : ArtTinyPtr V) (o : Obj V) : Option (Obj V) :=
  match t.capacity with
  | none => some { o with children := Function.update o.children key p, count := o.count + 1 }
  | some n =>
    if o.entries.length < n then
      some { o with
        entries := o.entries.takeWhile (fun e => goesBefore t e.1 key) ++
          (key, p) :: o.entries.dropWhile (fun e => goesBefore t e.1 key) }
    else none

/-- `isFull`. -/
def isFull (t : NodeType) (o : Obj V) : Bool :=
  match t.capacity with
  | none => false
  | some n => o.entries.length == n

/-- `getChild`. -/
def getChild (t : NodeType) (k : UInt8) (o : Obj V) : ArtTinyPtr V :=
  match t.capacity with
  | none => o.children k
  | some _ => (o.entries.lookup k).getD .null

/-- The entries with the first one of a key changed, which has to be there. -/
def changeEntry (key : UInt8) (val : ArtTinyPtr V) :
    List (UInt8 × ArtTinyPtr V) → Option (List (UInt8 × ArtTinyPtr V))
  | [] => none
  | e :: l => if e.1 = key then some ((key, val) :: l) else (changeEntry key val l).map (e :: ·)

/-- `change`; nothing when the key is not there. -/
def change (t : NodeType) (key : UInt8) (val : ArtTinyPtr V) (o : Obj V) : Option (Obj V) :=
  match t.capacity with
  | none => some { o with children := Function.update o.children key val }
  | some _ => (changeEntry key val o.entries).map fun l => { o with entries := l }

/-- The children in the order in which the loops visit them. -/
def listed (t : NodeType) (o : Obj V) : List (UInt8 × ArtTinyPtr V) :=
  match t.capacity with
  | none =>
    ((List.range 256).map fun i => (UInt8.ofNat i, o.children (UInt8.ofNat i))).filter
      fun e => e.2 ≠ .null
  | some _ => o.entries

/-- `getAnyChild`: a leaf if there is one. -/
def getAnyChild (t : NodeType) (o : Obj V) : UInt8 × ArtTinyPtr V :=
  match (o.listed t).find? fun e => isLeaf e.2 with
  | some e => e
  | none =>
    match t with
    -- the loop goes on to the last child
    | .n4 | .n256 => (o.listed t).getLast?.getD (0, .null)
    -- `children[0]`, and `flipSign(keys[0])`
    | .n16 | .n64 => (o.listed t).head?.getD (128, .null)

/-- `copyTo`. -/
def copyTo (t t' : NodeType) (o o' : Obj V) : Option (Obj V) :=
  (o.listed t).foldlM (fun o' e => o'.insert t' e.1 e.2) o'

/-! ### What the member functions do to the children -/

/-- The arrays hold each key once, no null pointer, and no more than there is room for. -/
structure Sound (t : NodeType) (o : Obj V) : Prop where
  nodup : (o.entries.map Prod.fst).Nodup
  ne_null : ∀ e ∈ o.entries, e.2 ≠ .null
  length_le : ∀ n ∈ t.capacity, o.entries.length ≤ n

/-- Two nodes that differ in their children only. -/
structure SameHead (o o' : Obj V) : Prop where
  word : o'.typeVersionLockObsolete = o.typeVersionLockObsolete
  value : o'.value = o.value
  id : o'.id = o.id
  prefixCount : o'.prefixCount = o.prefixCount
  prefixBytes : o'.prefixBytes = o.prefixBytes

theorem SameHead.trans {o o' o'' : Obj V} (h : SameHead o o') (h' : SameHead o' o'') :
    SameHead o o'' :=
  ⟨h'.word.trans h.word, h'.value.trans h.value, h'.id.trans h.id,
    h'.prefixCount.trans h.prefixCount, h'.prefixBytes.trans h.prefixBytes⟩

variable {t t' : NodeType} {o o' : Obj V} {key c : UInt8} {p val : ArtTinyPtr V}

theorem Sound.of_entries (h : o.Sound t) (he : o'.entries = o.entries) : o'.Sound t :=
  ⟨he ▸ h.nodup, he ▸ h.ne_null, he ▸ h.length_le⟩

theorem getChild_congr (he : o'.entries = o.entries) (hc : o'.children = o.children) :
    o'.getChild t c = o.getChild t c := by
  unfold getChild
  rw [he, hc]

@[simp] theorem entries_setPrefix (src : List UInt8) (n : ℕ) :
    (o.setPrefix src n).entries = o.entries := by
  unfold setPrefix
  split_ifs <;> rfl

@[simp] theorem children_setPrefix (src : List UInt8) (n : ℕ) :
    (o.setPrefix src n).children = o.children := by
  unfold setPrefix
  split_ifs <;> rfl

@[simp] theorem word_setPrefix (src : List UInt8) (n : ℕ) :
    (o.setPrefix src n).typeVersionLockObsolete = o.typeVersionLockObsolete := by
  unfold setPrefix
  split_ifs <;> rfl

@[simp] theorem id_setPrefix (src : List UInt8) (n : ℕ) : (o.setPrefix src n).id = o.id := by
  unfold setPrefix
  split_ifs <;> rfl

@[simp] theorem prefixCount_setPrefix (src : List UInt8) (n : ℕ) :
    (o.setPrefix src n).prefixCount = n := by
  unfold setPrefix
  split_ifs with h
  · rfl
  · exact (Nat.eq_zero_of_not_pos h).symm

theorem sound_construct (special : ℕ) (id : UInt64) (src : List UInt8) (n : ℕ) :
    (o.construct special id src n).Sound t := by
  have he : (o.construct special id src n).entries = [] := by simp [construct]
  exact ⟨by simp [he], by simp [he], by simp [he]⟩

@[simp] theorem getChild_construct (special : ℕ) (id : UInt64) (src : List UInt8) (n : ℕ) :
    (o.construct special id src n).getChild t c = .null := by
  unfold getChild
  split <;> simp [construct]

/-- A key that leads nowhere is not in the arrays. -/
theorem Sound.notMem_of_null {n : ℕ} (h : o.Sound t) (ht : t.capacity = some n)
    (hc : o.getChild t c = .null) : c ∉ o.entries.map Prod.fst := by
  intro hm
  obtain ⟨⟨k, q⟩, he, rfl⟩ := List.mem_map.mp hm
  unfold getChild at hc
  simp only [ht] at hc
  cases hl : o.entries.lookup k with
  | none => exact absurd (List.lookup_eq_none_iff.mp hl _ he) (by simp)
  | some q' =>
    rw [hl] at hc
    obtain ⟨l₁, l₂, hs, -⟩ := List.lookup_eq_some_iff.mp hl
    exact h.ne_null (k, q') (by simp [hs]) hc

theorem insert_eq_some (hn : o.isFull t = false) (h : o.Sound t) :
    ∃ o', o.insert t key p = some o' := by
  unfold insert
  split
  · exact ⟨_, rfl⟩
  · rename_i n ht
    have hle := h.length_le n ht
    unfold isFull at hn
    simp only [ht, beq_eq_false_iff_ne] at hn
    rw [if_pos (by omega)]
    exact ⟨_, rfl⟩

theorem SameHead.of_insert (hi : o.insert t key p = some o') : SameHead o o' := by
  unfold insert at hi
  split at hi
  · cases hi
    exact ⟨rfl, rfl, rfl, rfl, rfl⟩
  · split_ifs at hi
    cases hi
    exact ⟨rfl, rfl, rfl, rfl, rfl⟩

theorem Sound.insert (h : o.Sound t) (hi : o.insert t key p = some o') (hp : p ≠ .null)
    (hk : o.getChild t key = .null) : o'.Sound t := by
  unfold Obj.insert at hi
  split at hi
  · cases hi
    exact h.of_entries rfl
  · rename_i n ht
    split_ifs at hi with hlt
    cases hi
    have hperm : (o.entries.takeWhile (fun e => goesBefore t e.1 key) ++
        (key, p) :: o.entries.dropWhile (fun e => goesBefore t e.1 key)).Perm
        ((key, p) :: o.entries) := by
      refine List.perm_middle.trans ?_
      rw [List.takeWhile_append_dropWhile]
    constructor
    · rw [(hperm.map Prod.fst).nodup_iff, List.map_cons, List.nodup_cons]
      exact ⟨h.notMem_of_null ht hk, h.nodup⟩
    · intro e he
      rcases List.mem_cons.mp (hperm.mem_iff.mp he) with rfl | he
      · exact hp
      · exact h.ne_null e he
    · intro m hm
      rw [ht, Option.mem_some_iff] at hm
      show (o.entries.takeWhile _ ++ (key, p) :: o.entries.dropWhile _).length ≤ m
      rw [hperm.length_eq, List.length_cons]
      omega

theorem lookup_cons (e : UInt8 × ArtTinyPtr V) (l : List (UInt8 × ArtTinyPtr V)) :
    (e :: l).lookup c = if c = e.1 then some e.2 else l.lookup c := by
  obtain ⟨k, q⟩ := e
  by_cases h : c = k
  · simp [h]
  · have hne : (c == k) = false := beq_eq_false_iff_ne.mpr h
    rw [List.lookup_cons, hne, if_neg h]

theorem getChild_insert (h : o.Sound t) (hi : o.insert t key p = some o')
    (hk : o.getChild t key = .null) : o'.getChild t c = if c = key then p else o.getChild t c := by
  cases ht : t.capacity with
  | none =>
    simp only [Obj.insert, ht, Option.some.injEq] at hi
    subst hi
    simp [getChild, ht, Function.update_apply]
  | some n =>
    have hnot := h.notMem_of_null ht hk
    simp only [Obj.insert, ht] at hi
    split_ifs at hi with hlt
    cases hi
    simp only [getChild, ht, List.lookup_append]
    by_cases hc : c = key
    · subst hc
      have hnone : (o.entries.takeWhile fun e => goesBefore t e.1 c).lookup c = none := by
        refine List.lookup_eq_none_iff.mpr fun e he => ?_
        have hne : c ≠ e.1 := by
          intro hce
          exact hnot (hce ▸ List.mem_map_of_mem (f := Prod.fst) ((List.takeWhile_sublist _).mem he))
        simpa using hne
      simp [hnone]
    · rw [lookup_cons, if_neg hc, if_neg hc]
      conv_rhs => rw [← List.takeWhile_append_dropWhile (p := fun e => goesBefore t e.1 key)
        (l := o.entries), List.lookup_append]

theorem changeEntry_eq_some {l : List (UInt8 × ArtTinyPtr V)} (h : key ∈ l.map Prod.fst) :
    ∃ l', changeEntry key val l = some l' := by
  induction l with
  | nil => simp at h
  | cons e l ih =>
    unfold changeEntry
    split_ifs with he
    · exact ⟨_, rfl⟩
    · have hm : key ∈ l.map Prod.fst := by
        rcases List.mem_cons.mp h with rfl | h
        · exact absurd rfl he
        · exact h
      obtain ⟨l', hl'⟩ := ih hm
      exact ⟨e :: l', by rw [hl']; rfl⟩

theorem changeEntry_spec {l l' : List (UInt8 × ArtTinyPtr V)}
    (h : changeEntry key val l = some l') :
    l'.map Prod.fst = l.map Prod.fst ∧ (∀ e ∈ l', e = (key, val) ∨ e ∈ l) ∧
      ∀ c, l'.lookup c = if c = key then some val else l.lookup c := by
  induction l generalizing l' with
  | nil => cases h
  | cons e l ih =>
    unfold changeEntry at h
    split_ifs at h with he
    · cases h
      subst he
      refine ⟨rfl, fun e' he' => ?_, fun c => ?_⟩
      · rcases List.mem_cons.mp he' with rfl | he'
        · exact Or.inl rfl
        · exact Or.inr (List.mem_cons_of_mem _ he')
      · rw [lookup_cons, lookup_cons]
        split_ifs <;> rfl
    · obtain ⟨l₁, hl₁, rfl⟩ := Option.map_eq_some_iff.mp h
      obtain ⟨h₁, h₂, h₃⟩ := ih hl₁
      refine ⟨by simp [h₁], fun e' he' => ?_, fun c => ?_⟩
      · rcases List.mem_cons.mp he' with rfl | he'
        · exact Or.inr List.mem_cons_self
        · exact (h₂ e' he').imp_right (List.mem_cons_of_mem _)
      · rw [lookup_cons, lookup_cons, h₃]
        split_ifs with h₄ h₅
        · exact absurd (h₄ ▸ h₅) he
        · rfl
        · rfl
        · rfl

theorem change_eq_some (hc : o.getChild t key ≠ .null) : ∃ o', o.change t key val = some o' := by
  unfold change
  split
  · exact ⟨_, rfl⟩
  · rename_i n ht
    have hm : key ∈ o.entries.map Prod.fst := by
      unfold getChild at hc
      simp only [ht] at hc
      cases hl : o.entries.lookup key with
      | none => exact absurd (by rw [hl]; rfl) hc
      | some q =>
        obtain ⟨l₁, l₂, hs, -⟩ := List.lookup_eq_some_iff.mp hl
        exact List.mem_map.mpr ⟨(key, q), by simp [hs], rfl⟩
    obtain ⟨l', hl'⟩ : ∃ l', changeEntry key val o.entries = some l' := changeEntry_eq_some hm
    exact ⟨{ o with entries := l' }, by rw [hl']; rfl⟩

theorem SameHead.of_change (hi : o.change t key val = some o') : SameHead o o' := by
  unfold change at hi
  split at hi
  · cases hi
    exact ⟨rfl, rfl, rfl, rfl, rfl⟩
  · obtain ⟨l, -, rfl⟩ := Option.map_eq_some_iff.mp hi
    exact ⟨rfl, rfl, rfl, rfl, rfl⟩

theorem Sound.change (h : o.Sound t) (hi : o.change t key val = some o') (hv : val ≠ .null) :
    o'.Sound t := by
  unfold Obj.change at hi
  split at hi
  · cases hi
    exact h.of_entries rfl
  · obtain ⟨l, hl, rfl⟩ := Option.map_eq_some_iff.mp hi
    obtain ⟨h₁, h₂, -⟩ := changeEntry_spec hl
    constructor
    · show (l.map Prod.fst).Nodup
      exact h₁ ▸ h.nodup
    · intro e he
      rcases h₂ e he with rfl | he
      · exact hv
      · exact h.ne_null e he
    · intro n hn
      have hlen : l.length = o.entries.length := by simpa using congrArg List.length h₁
      exact hlen ▸ h.length_le n hn

theorem getChild_change (hi : o.change t key val = some o') :
    o'.getChild t c = if c = key then val else o.getChild t c := by
  cases ht : t.capacity with
  | none =>
    simp only [Obj.change, ht, Option.some.injEq] at hi
    subst hi
    simp [getChild, ht, Function.update_apply]
  | some n =>
    simp only [Obj.change, ht] at hi
    obtain ⟨l, hl, rfl⟩ := Option.map_eq_some_iff.mp hi
    obtain ⟨-, -, h₃⟩ := changeEntry_spec hl
    simp only [getChild, ht, h₃]
    split_ifs <;> rfl

/-! ### All the children -/

/-- What is listed are the keys that lead somewhere, each once. -/
theorem Sound.listed (h : o.Sound t) :
    ((o.listed t).map Prod.fst).Nodup ∧
      ∀ c q, (c, q) ∈ o.listed t ↔ q = o.getChild t c ∧ q ≠ .null := by
  cases ht : t.capacity with
  | none =>
    simp only [Obj.listed, ht, getChild]
    constructor
    · refine List.Nodup.sublist (List.filter_sublist.map _) ?_
      rw [List.map_map]
      exact (List.nodup_map_iff_inj_on List.nodup_range).mpr fun i hi j hj hij => by
        have hij' : UInt8.ofNat i = UInt8.ofNat j := hij
        have := congrArg UInt8.toNat hij'
        simp only [UInt8.toNat_ofNat', List.mem_range] at this hi hj
        omega
    · intro c q
      simp only [ne_eq, decide_not, List.mem_filter, List.mem_map, List.mem_range, Prod.mk.injEq,
        Bool.not_eq_eq_eq_not, Bool.not_true, decide_eq_false_iff_not]
      constructor
      · rintro ⟨⟨i, -, rfl, rfl⟩, hq⟩
        exact ⟨rfl, hq⟩
      · rintro ⟨rfl, hq⟩
        exact ⟨⟨c.toNat, c.toNat_lt, by simp, by simp⟩, hq⟩
  | some n =>
    simp only [Obj.listed, ht, getChild]
    refine ⟨h.nodup, fun c q => ⟨fun he => ?_, fun hq => ?_⟩⟩
    · refine ⟨?_, h.ne_null _ he⟩
      cases hl : o.entries.lookup c with
      | none => exact absurd (List.lookup_eq_none_iff.mp hl _ he) (by simp)
      | some q' =>
        obtain ⟨l₁, l₂, hs, -⟩ := List.lookup_eq_some_iff.mp hl
        have hm : (c, q') ∈ o.entries := by simp [hs]
        have := List.inj_on_of_nodup_map h.nodup he hm rfl
        exact congrArg Prod.snd this
    · cases hl : o.entries.lookup c with
      | none => exact absurd hq.1 (by rw [hl]; exact hq.2)
      | some q' =>
        obtain ⟨l₁, l₂, hs, -⟩ := List.lookup_eq_some_iff.mp hl
        rw [hl] at hq
        have : q = q' := hq.1
        subst this
        simp [hs]

/-- `getAnyChild` answers a child if there is one. -/
theorem Sound.getAnyChild (h : o.Sound t) (hc : o.getChild t c ≠ .null) :
    (o.getAnyChild t).2 = o.getChild t (o.getAnyChild t).1 ∧ (o.getAnyChild t).2 ≠ .null := by
  obtain ⟨-, hl⟩ := h.listed
  have hne : o.listed t ≠ [] := List.ne_nil_of_mem ((hl c _).mpr ⟨rfl, hc⟩)
  suffices hm : o.getAnyChild t ∈ o.listed t from (hl _ _).mp hm
  unfold Obj.getAnyChild
  split
  · rename_i e he
    exact List.mem_of_find?_eq_some he
  · split
    all_goals
      first
      | rw [List.getLast?_eq_some_getLast hne]
        exact List.getLast_mem hne
      | rw [List.head?_eq_some_head hne]
        exact List.head_mem hne

/-- The loop of `copyTo`, into a node with enough room. -/
theorem copy_spec {l : List (UInt8 × ArtTinyPtr V)} (hnd : (l.map Prod.fst).Nodup)
    (hnn : ∀ e ∈ l, e.2 ≠ .null) (ho : o.Sound t) (hfresh : ∀ e ∈ l, o.getChild t e.1 = .null)
    (hroom : ∀ n ∈ t.capacity, o.entries.length + l.length ≤ n) :
    ∃ o', l.foldlM (fun o' e => o'.insert t e.1 e.2) o = some o' ∧ o'.Sound t ∧ SameHead o o' ∧
      (∀ n ∈ t.capacity, o'.entries.length = o.entries.length + l.length) ∧
      ∀ c, o'.getChild t c = (l.lookup c).getD (o.getChild t c) := by
  induction l generalizing o with
  | nil => exact ⟨o, rfl, ho, ⟨rfl, rfl, rfl, rfl, rfl⟩, fun _ _ => rfl, fun _ => rfl⟩
  | cons e l ih =>
    obtain ⟨hnot, hnd⟩ := List.nodup_cons.mp hnd
    have hfull : o.isFull t = false := by
      unfold isFull
      cases ht : t.capacity with
      | none => rfl
      | some n =>
        have := hroom n ht
        simp only [List.length_cons] at this
        simp only [beq_eq_false_iff_ne]
        omega
    obtain ⟨o₁, h₁⟩ : ∃ o₁, o.insert t e.1 e.2 = some o₁ := insert_eq_some hfull ho
    have hk := hfresh e List.mem_cons_self
    have hlen : ∀ n ∈ t.capacity, o₁.entries.length = o.entries.length + 1 := by
      intro n hn
      have h₁' := h₁
      simp only [Obj.insert, Option.mem_def.mp hn] at h₁'
      split_ifs at h₁'
      cases h₁'
      rw [List.length_append, List.length_cons, ← add_assoc, ← List.length_append,
        List.takeWhile_append_dropWhile]
    have hchild : ∀ c, o₁.getChild t c = if c = e.1 then e.2 else o.getChild t c :=
      fun c => getChild_insert ho h₁ hk
    have hfresh₁ : ∀ e' ∈ l, o₁.getChild t e'.1 = .null := by
      intro e' he'
      have hne : e'.1 ≠ e.1 := fun h => hnot (h ▸ List.mem_map_of_mem (f := Prod.fst) he')
      rw [hchild, if_neg hne]
      exact hfresh e' (List.mem_cons_of_mem _ he')
    obtain ⟨o₂, h₂, hs, hh, hl, hg⟩ := ih hnd (fun e' he' => hnn e' (List.mem_cons_of_mem _ he'))
      (ho.insert h₁ (hnn e List.mem_cons_self) hk) hfresh₁ fun n hn => by
        have := hroom n hn
        have := hlen n hn
        simp only [List.length_cons] at *
        omega
    refine ⟨o₂, ?_, hs, (SameHead.of_insert h₁).trans hh, fun n hn => ?_, fun c => ?_⟩
    · rw [List.foldlM_cons, h₁]
      exact h₂
    · rw [hl n hn, hlen n hn, List.length_cons]
      omega
    · rw [hg, hchild, lookup_cons]
      split_ifs with hc
      · have hnone : l.lookup c = none := by
          refine List.lookup_eq_none_iff.mpr fun e' he' => ?_
          have : c ≠ e'.1 := fun h => hnot ((hc ▸ h : e.1 = e'.1) ▸ List.mem_map_of_mem
            (f := Prod.fst) he')
          simpa using this
        rw [hnone]
        rfl
      · rfl

/-- What `copyTo` leaves in a new node of a class with more room. -/
theorem copyTo_spec {n : ℕ} (h : o.Sound t) (ht : t.capacity = some n)
    (ht' : ∀ m ∈ t'.capacity, n < m) (ho' : o'.Sound t') (hnew : o'.entries = [])
    (hnull : ∀ c, o'.getChild t' c = .null) :
    ∃ o'', o.copyTo t t' o' = some o'' ∧ o''.Sound t' ∧ SameHead o' o'' ∧ o''.isFull t' = false ∧
      ∀ c, o''.getChild t' c = o.getChild t c := by
  obtain ⟨hnd, hl⟩ := h.listed
  have hlist : o.listed t = o.entries := by simp [Obj.listed, ht]
  have hle := h.length_le n ht
  obtain ⟨o'', hc, hs, hh, hlen, hg⟩ := copy_spec hnd (fun e he => ((hl e.1 e.2).mp he).2) ho'
    (fun e _ => hnull e.1) fun m hm => by
      have := ht' m hm
      rw [hnew, hlist, List.length_nil]
      omega
  refine ⟨o'', hc, hs, hh, ?_, fun c => ?_⟩
  · unfold isFull
    cases hm : t'.capacity with
    | none => rfl
    | some m =>
      have h₁ := hlen m hm
      have h₂ := ht' m hm
      rw [hnew, hlist, List.length_nil] at h₁
      simp only [beq_eq_false_iff_ne]
      omega
  · rw [hg, hnull, hlist]
    simp [getChild, ht]

end Obj

end TinyPointerTrees.Art
