import TinyPointerTrees.Art.Reclamation

/-!
# What is linked and what is retired

The shared part of the epoch based reclamation: who has which locks (`Locking`), and
how the slots that are marked for deletion, or about to be, lie to the tree (`Graph`).
A slot is retired by one thread only, and while a node that stays still points to it,
that thread is about to change this very child, and so has the node locked. What
nobody has locked therefore points to nothing that is retired.

Lock words may wrap around, but not while a thread relies on one: a node of which the
version ran into the type bits is not read any more, and so not locked for good.

The lemmas about `Graph` go by what a step does to the tree: nothing
(`Graph.congr`), new nodes are built (`Graph.built`), a child is changed
(`Graph.change`), a slot is freed (`Graph.free`).
-/

namespace TinyPointerTrees.Art.Reclamation

/-! ### Lock words -/

/-- The word of a node that is locked. -/
def Held (w : UInt64) : Prop := w.toNat % 4 = 2

theorem held_add_two {w : UInt64} (h : Free w) : Held (w + 0b10) := by
  unfold Free at h
  unfold Held
  simp only [UInt64.toNat_add, UInt64.reduceToNat]
  omega

theorem Held.free {w : UInt64} (h : Held w) : Free (w + 0b10) := by
  unfold Held at h
  unfold Free
  simp only [UInt64.toNat_add, UInt64.reduceToNat]
  omega

theorem Held.isObsolete {w : UInt64} (h : Held w) : isObsolete (w + 0b11) = true := by
  unfold Held at h
  rw [isObsolete_iff]
  simp only [UInt64.toNat_add, UInt64.reduceToNat]
  omega

theorem Held.not_isObsolete {w : UInt64} (h : Held w) : ¬Art.isObsolete w = true := by
  unfold Held at h
  rw [isObsolete_iff]
  omega

theorem Held.not_free {w : UInt64} (h : Held w) : ¬Free w := by
  unfold Held at h
  unfold Free
  omega

theorem not_isObsolete_of_free {w : UInt64} (h : Free w) : ¬isObsolete w = true := by
  unfold Free at h
  rw [isObsolete_iff]
  omega

/-- Locking and unlocking leave the lowest bit alone. -/
theorem isObsolete_add_two (w : UInt64) : isObsolete (w + 0b10) = isObsolete w := by
  rw [Bool.eq_iff_iff, isObsolete_iff, isObsolete_iff]
  simp only [UInt64.toNat_add, UInt64.reduceToNat]
  omega

/-- How far the lock word of a node has come, but for the class. -/
def age (n : Ref) (w : UInt64) : ℕ := (w - convertTypeToVersion n.special).toNat

theorem age_add {n : Ref} {w d : UInt64} (h : age n w + d.toNat < 2 ^ 64) :
    age n (w + d) = age n w + d.toNat := by
  unfold age at h ⊢
  simp only [UInt64.toNat_sub, UInt64.toNat_add] at h ⊢
  omega

theorem age_newWord (n : Ref) : age n (newWord n.special) = 4 := by
  simp [age, newWord]

theorem free_newWord (special : ℕ) : Free (newWord special) := by
  unfold Free newWord convertTypeToVersion
  simp only [UInt64.toNat_add, UInt64.toNat_shiftLeft, UInt64.toNat_ofNat', UInt64.reduceToNat,
    Nat.reduceMod, Nat.shiftLeft_eq]
  omega

theorem age_of_typed {n : Ref} {o : Node} (h : o.Typed n) : age n o.word < 2 ^ 62 := by
  obtain ⟨hn, -⟩ := h
  have hw := o.word.toNat_lt
  rw [UInt64.toNat_shiftRight] at hn
  simp only [UInt64.reduceToNat, Nat.reduceMod, Nat.shiftRight_eq_div_pow] at hn
  have hspecial : (convertTypeToVersion n.special).toNat = n.special * 2 ^ 62 := by
    unfold convertTypeToVersion
    simp only [UInt64.toNat_shiftLeft, UInt64.toNat_ofNat', UInt64.reduceToNat, Nat.reduceMod,
      Nat.shiftLeft_eq]
    omega
  unfold age
  rw [UInt64.toNat_sub, hspecial]
  omega

/-- A lock word has room before it wraps around. A relocated node takes its word along, but its
prefix gets shorter. -/
structure Node.Sound (n : Ref) (o : Node) : Prop where
  prefixCount : o.prefixCount < 2 ^ 32
  age : isObsolete o.word = false → age n o.word + 4 * o.prefixCount < 2 ^ 63 + o.word.toNat % 4

theorem Node.sound_new {n : Ref} {o : Node} (hw : o.word = newWord n.special)
    (hp : o.prefixCount < 2 ^ 32) : o.Sound n := by
  refine ⟨hp, fun _ => ?_⟩
  rw [hw, age_newWord]
  omega

/-! ### What a thread has -/

namespace Thread

/-- What it has yet to do. -/
def todo (r : Thread) : List Act :=
  match r.phase with
  | .writing todo => todo
  | _ => []

/-- The labels of its deletion list, without the one that is being freed. -/
def labels (r : Thread) : List (LabelDelete .olc) :=
  match r.phase with
  | .freeing _ kept _ rest => kept ++ rest
  | _ => r.deletionList.labels

/-- What is left of the label that is being freed. -/
def current (r : Thread) : List Ptr :=
  match r.phase with
  | .freeing _ _ nodes _ => nodes
  | _ => []

/-- It has a node locked. -/
def Owns (X : ℕ → BucketIndexer) (r : Thread) (n : Ref) : Prop :=
  match r.phase with
  | .holding m _ => n = m
  | .both m _ p => n = m ∨ n = target X p
  | .writing todo => .unlock n ∈ todo ∨ .obsolete n ∈ todo
  | _ => False

/-- It locked a node of which it had read a child. -/
def OwnsFirst (r : Thread) (n : Ref) : Prop :=
  match r.phase with
  | .holding m _ => n = m
  | .both m _ _ => n = m
  | .writing todo => .unlock n ∈ todo
  | _ => False

end Thread

/-- What an act marks for deletion. -/
def Act.marked : Act → Option Ptr
  | .mark p => some p
  | _ => none

/-- The slots that a thread marked for deletion or is about to mark, and has not freed. -/
def Thread.retired (X : ℕ → BucketIndexer) (r : Thread) : List Ref :=
  (r.todo.filterMap Act.marked ++ (r.current ++ r.labels.flatMap LabelDelete.nodes)).map (target X)

/-- One child is changed, before the node is unlocked, and every lock is given up once. -/
def Ordered : List Act → Prop
  | [] => True
  | .change n _ _ :: rest => .unlock n ∈ rest ∧ (∀ m j q, .change m j q ∉ rest) ∧ Ordered rest
  | .unlock n :: rest => .unlock n ∉ rest ∧ .obsolete n ∉ rest ∧ Ordered rest
  | .obsolete n :: rest => .unlock n ∉ rest ∧ .obsolete n ∉ rest ∧ Ordered rest
  | .mark _ :: rest => Ordered rest

theorem Ordered.tail {a : Act} {rest : List Act} (h : Ordered (a :: rest)) : Ordered rest := by
  cases a with
  | change => exact h.2.2
  | unlock => exact h.2.2
  | obsolete => exact h.2.2
  | mark => exact h

theorem Ordered.unlock_mem {todo : List Act} (h : Ordered todo) {n : Ref} {k : UInt8} {q : Ptr}
    (hc : .change n k q ∈ todo) : .unlock n ∈ todo := by
  induction todo with
  | nil => cases hc
  | cons a rest ih =>
    rcases List.mem_cons.1 hc with rfl | hc
    · exact List.mem_cons_of_mem _ h.1
    · exact List.mem_cons_of_mem _ (ih h.tail hc)

theorem Thread.owns_of_first {X : ℕ → BucketIndexer} {r : Thread} {n : Ref} (h : r.OwnsFirst n) :
    r.Owns X n := by
  unfold OwnsFirst at h
  unfold Owns
  split at h
  · exact h
  · exact .inl h
  · exact .inl h
  · cases h

theorem Thread.owns_of_unlock {X : ℕ → BucketIndexer} {r : Thread} {n : Ref}
    (h : .unlock n ∈ r.todo) : r.Owns X n ∧ r.OwnsFirst n := by
  unfold todo at h
  unfold Owns OwnsFirst
  split at h
  · rename_i hp
    rw [hp]
    exact ⟨.inl h, h⟩
  · cases h

theorem Thread.owns_of_obsolete {X : ℕ → BucketIndexer} {r : Thread} {n : Ref}
    (h : .obsolete n ∈ r.todo) : r.Owns X n := by
  unfold todo at h
  unfold Owns
  split at h
  · rename_i hp
    rw [hp]
    exact .inr h
  · cases h

/-! ### Locks -/

section Locking

variable (X : ℕ → BucketIndexer)

/-- What a thread does is in order. -/
structure Thread.Sound (r : Thread) : Prop where
  ordered : Ordered r.todo
  ne : ∀ n k p, r.phase = .both n k p → n ≠ target X p

/-- Who has which locks. -/
structure Locking (s : World) : Prop where
  live : ∀ t n, (s.thread t).Owns X n → n ∈ s.live
  held : ∀ t n, (s.thread t).Owns X n → Held (s.node n).word
  unique : ∀ t u n, (s.thread t).Owns X n → (s.thread u).Owns X n → t = u
  first : ∀ t n, (s.thread t).OwnsFirst n → age n (s.node n).word < 2 ^ 62 + 2
  node : ∀ n ∈ s.live, (s.node n).Sound n
  thread : ∀ t, (s.thread t).Sound X

variable {X} {s s' : World} {t : ℕ} {n : Ref} {r : Thread}

namespace Locking

/-- A step of one thread that locks nothing. -/
theorem quiet (h : Locking X s) (hthread : s'.thread = Function.update s.thread t r)
    (hword : ∀ n ∈ s.live, (s'.node n).word = (s.node n).word)
    (hnode : ∀ n ∈ s'.live, (s'.node n).Sound n)
    (hlive : ∀ u n, (s.thread u).Owns X n → n ∈ s'.live)
    (howns : ∀ n, r.Owns X n → (s.thread t).Owns X n)
    (hfirst : ∀ n, r.OwnsFirst n → (s.thread t).OwnsFirst n) (hr : r.Sound X) : Locking X s' := by
  have key : ∀ u n, (s'.thread u).Owns X n → (s.thread u).Owns X n := by
    rw [hthread]
    exact (Function.forall_update_iff s.thread fun u r => ∀ n, r.Owns X n → (s.thread u).Owns X n).2
      ⟨howns, fun _ _ _ h => h⟩
  have keyFirst : ∀ u n, (s'.thread u).OwnsFirst n → (s.thread u).OwnsFirst n := by
    rw [hthread]
    exact (Function.forall_update_iff s.thread fun u r => ∀ n, r.OwnsFirst n →
      (s.thread u).OwnsFirst n).2 ⟨hfirst, fun _ _ _ h => h⟩
  refine ⟨fun u n ho => hlive u n (key u n ho), fun u n ho => ?_,
    fun u v n hu hv => h.unique u v n (key u n hu) (key v n hv), fun u n ho => ?_, hnode, ?_⟩
  · rw [hword n (h.live u n (key u n ho))]
    exact h.held u n (key u n ho)
  · rw [hword n (h.live u n (Thread.owns_of_first (keyFirst u n ho)))]
    exact h.first u n (keyFirst u n ho)
  · rw [hthread]
    exact (Function.forall_update_iff s.thread fun _ r => r.Sound X).2 ⟨hr, fun u _ => h.thread u⟩

/-- A step of a thread that locks a node. -/
theorem take (h : Locking X s) (hthread : s'.thread = Function.update s.thread t r)
    (hnode : s'.node = Function.update s.node n { s.node n with word := (s.node n).word + 0b10 })
    (hlive : s'.live = s.live) (hn : n ∈ s.live) (hw : Free (s.node n).word)
    (howns : ∀ m, r.Owns X m → m = n ∨ (s.thread t).Owns X m)
    (hfirst : ∀ m, r.OwnsFirst m → m = n ∧ age n (s.node n).word < 2 ^ 62 ∨
      (s.thread t).OwnsFirst m)
    (hr : r.Sound X) : Locking X s' := by
  have hnot : ∀ u, ¬(s.thread u).Owns X n := fun u hu => (h.held u n hu).not_free hw
  have key : ∀ u m, (s'.thread u).Owns X m → u = t ∧ m = n ∨ (s.thread u).Owns X m ∧ m ≠ n := by
    rw [hthread]
    refine (Function.forall_update_iff s.thread fun u r => ∀ m, r.Owns X m →
      u = t ∧ m = n ∨ (s.thread u).Owns X m ∧ m ≠ n).2 ⟨fun m hm => ?_, fun u _ m hm => ?_⟩
    · by_cases hmn : m = n
      · exact .inl ⟨rfl, hmn⟩
      · exact .inr ⟨(howns m hm).resolve_left hmn, hmn⟩
    · exact .inr ⟨hm, fun hmn => hnot u (hmn ▸ hm)⟩
  have keyFirst : ∀ u m, (s'.thread u).OwnsFirst m →
      m = n ∧ age n (s.node n).word < 2 ^ 62 ∨ (s.thread u).OwnsFirst m := by
    rw [hthread]
    exact (Function.forall_update_iff s.thread fun u r => ∀ m, r.OwnsFirst m →
      m = n ∧ age n (s.node n).word < 2 ^ 62 ∨ (s.thread u).OwnsFirst m).2 ⟨hfirst,
      fun _ _ _ hm => .inr hm⟩
  have hsound := h.node n hn
  have hage := hsound.age (Bool.eq_false_iff.2 (not_isObsolete_of_free hw))
  have hw' : (s.node n).word.toNat % 4 = 0 := hw
  have hadd : age n ((s.node n).word + 0b10) = age n (s.node n).word + 2 :=
    age_add (by simp only [UInt64.reduceToNat]; omega)
  refine ⟨fun u m hm => ?_, fun u m hm => ?_, fun u v m hu hv => ?_, fun u m hm => ?_,
    fun m hm => ?_, ?_⟩
  · rw [hlive]
    rcases key u m hm with ⟨-, rfl⟩ | ⟨ho, -⟩
    · exact hn
    · exact h.live u m ho
  · rw [hnode]
    rcases key u m hm with ⟨-, rfl⟩ | ⟨ho, hmn⟩
    · rw [Function.update_self]
      exact held_add_two hw
    · rw [Function.update_of_ne hmn]
      exact h.held u m ho
  · rcases key u m hu with ⟨rfl, rfl⟩ | ⟨ho, hmn⟩
    · rcases key v m hv with ⟨rfl, -⟩ | ⟨-, hne⟩
      · rfl
      · exact absurd rfl hne
    · rcases key v m hv with ⟨-, rfl⟩ | ⟨ho', -⟩
      · exact absurd rfl hmn
      · exact h.unique u v m ho ho'
  · rw [hnode]
    rcases keyFirst u m hm with ⟨rfl, hlt⟩ | ho
    · rw [Function.update_self, hadd]
      omega
    · have hmn : m ≠ n := fun hmn => hnot u (hmn ▸ Thread.owns_of_first ho)
      rw [Function.update_of_ne hmn]
      exact h.first u m ho
  · rw [hnode]
    by_cases hmn : m = n
    · subst hmn
      rw [Function.update_self]
      have hheld : ((s.node m).word + 0b10).toNat % 4 = 2 := held_add_two hw
      refine ⟨hsound.prefixCount, fun _ => ?_⟩
      show age m ((s.node m).word + 0b10) + 4 * (s.node m).prefixCount <
        2 ^ 63 + ((s.node m).word + 0b10).toNat % 4
      omega
    · rw [Function.update_of_ne hmn]
      exact h.node m (hlive ▸ hm)
  · rw [hthread]
    exact (Function.forall_update_iff s.thread fun _ r => r.Sound X).2 ⟨hr, fun u _ => h.thread u⟩

/-- A step of a thread that gives up the lock of a node. -/
theorem release (h : Locking X s) {d : UInt64} (hthread : s'.thread = Function.update s.thread t r)
    (hnode : s'.node = Function.update s.node n { s.node n with word := (s.node n).word + d })
    (hlive : s'.live = s.live) (ho : (s.thread t).Owns X n)
    (howns : ∀ m, r.Owns X m → m ≠ n ∧ (s.thread t).Owns X m)
    (hfirst : ∀ m, r.OwnsFirst m → (s.thread t).OwnsFirst m)
    (hsound : Node.Sound n { s.node n with word := (s.node n).word + d }) (hr : r.Sound X) :
    Locking X s' := by
  have key : ∀ u m, (s'.thread u).Owns X m → (s.thread u).Owns X m ∧ m ≠ n := by
    rw [hthread]
    refine (Function.forall_update_iff s.thread fun u r => ∀ m, r.Owns X m →
      (s.thread u).Owns X m ∧ m ≠ n).2 ⟨fun m hm => (howns m hm).symm, fun u hu m hm => ⟨hm, ?_⟩⟩
    intro hmn
    exact hu (h.unique u t n (hmn ▸ hm) ho)
  have keyFirst : ∀ u m, (s'.thread u).OwnsFirst m → (s.thread u).OwnsFirst m := by
    rw [hthread]
    exact (Function.forall_update_iff s.thread fun u r => ∀ m, r.OwnsFirst m →
      (s.thread u).OwnsFirst m).2 ⟨hfirst, fun _ _ _ h => h⟩
  refine ⟨fun u m hm => hlive ▸ h.live u m (key u m hm).1, fun u m hm => ?_,
    fun u v m hu hv => h.unique u v m (key u m hu).1 (key v m hv).1, fun u m hm => ?_,
    fun m hm => ?_, ?_⟩
  · obtain ⟨ho, hmn⟩ := key u m hm
    rw [hnode, Function.update_of_ne hmn]
    exact h.held u m ho
  · obtain ⟨-, hmn⟩ := key u m (Thread.owns_of_first hm)
    rw [hnode, Function.update_of_ne hmn]
    exact h.first u m (keyFirst u m hm)
  · rw [hnode]
    by_cases hmn : m = n
    · subst hmn
      rw [Function.update_self]
      exact hsound
    · rw [Function.update_of_ne hmn]
      exact h.node m (hlive ▸ hm)
  · rw [hthread]
    exact (Function.forall_update_iff s.thread fun _ r => r.Sound X).2 ⟨hr, fun u _ => h.thread u⟩

theorem sound_unlock (h : Locking X s) (ho : (s.thread t).OwnsFirst n) :
    Node.Sound n { s.node n with word := (s.node n).word + 0b10 } := by
  have howns : (s.thread t).Owns X n := Thread.owns_of_first ho
  have hage := h.first t n ho
  have hsound := h.node n (h.live t n howns)
  refine ⟨hsound.prefixCount, fun _ => ?_⟩
  have hlt := hsound.prefixCount
  have hadd : age n ((s.node n).word + 0b10) = age n (s.node n).word + 2 :=
    age_add (by simp only [UInt64.reduceToNat]; omega)
  show age n ((s.node n).word + 0b10) + 4 * (s.node n).prefixCount <
    2 ^ 63 + ((s.node n).word + 0b10).toNat % 4
  omega

theorem sound_obsolete (h : Locking X s) (ho : (s.thread t).Owns X n) :
    Node.Sound n { s.node n with word := (s.node n).word + 0b11 } := by
  refine ⟨(h.node n (h.live t n ho)).prefixCount, fun hnot => ?_⟩
  rw [(h.held t n ho).isObsolete] at hnot
  cases hnot

end Locking

end Locking

/-! ### The tree -/

namespace World

variable (X : ℕ → BucketIndexer) (s : World)

/-- A node has a child at a byte. -/
def Child (n : Ref) (k : UInt8) (z : Ref) : Prop :=
  ∃ p, (s.node n).child k = some p ∧ target X p = z

/-- A node is obsolete, or a thread is about to make it obsolete. -/
def DoomedBy (t : ℕ) (n : Ref) : Prop :=
  isObsolete (s.node n).word = true ∨ .obsolete n ∈ (s.thread t).todo

/-- A node stays. -/
def Standing (n : Ref) : Prop := n ∈ s.live ∧ ∀ t, ¬s.DoomedBy t n

/-- A thread is about to make a node the child of another one. -/
def Publishes (t : ℕ) (n : Ref) (k : UInt8) (y : Ref) : Prop :=
  ∃ q, .change n k q ∈ (s.thread t).todo ∧ target X q = y

end World

variable (X : ℕ → BucketIndexer) (root : Ref)

/-- How the slots lie to the tree. -/
structure Graph (s : World) : Prop where
  standing_root : s.Standing root
  child : ∀ n k z, s.Standing n → s.Child X n k z → z ∈ s.live ∧ z ≠ root
  parent : ∀ n m k j z, s.Standing n → s.Standing m → s.Child X n k z →
    s.Child X m j z → n = m ∧ k = j
  /-- What is about to be published stays, and is linked nowhere else. -/
  fresh : ∀ t n k y, s.Publishes X t n k y → s.Standing y ∧ y ≠ root ∧
    ∀ m j, s.Standing m → ¬s.Child X m j y
  fresh_unique : ∀ t u n m k j y, s.Publishes X t n k y → s.Publishes X u m j y → t = u
  nodup : ∀ t, ((s.thread t).retired X).Nodup
  retired : ∀ t x, x ∈ (s.thread t).retired X → x ∈ s.live ∧ x ≠ root ∧ s.DoomedBy t x
  retired_unique : ∀ t u x, x ∈ (s.thread t).retired X → x ∈ (s.thread u).retired X → t = u
  /-- The child that is retired is about to be changed. -/
  sealed : ∀ t n k x, s.Standing n → s.Child X n k x → x ∈ (s.thread t).retired X →
    ∃ y, s.Publishes X t n k y

variable {X root} {s s' : World} {t : ℕ} {n : Ref} {r : Thread}

namespace Locking

theorem owns_of_publishes (h : Locking X s) {k : UInt8} {y : Ref} (hc : s.Publishes X t n k y) :
    (s.thread t).Owns X n := by
  obtain ⟨q, hq, -⟩ := hc
  exact (Thread.owns_of_unlock ((h.thread t).ordered.unlock_mem hq)).1

/-- What is not locked is not about to become obsolete. -/
theorem standing_of_free (h : Locking X s) (hn : n ∈ s.live) (hw : Free (s.node n).word) :
    s.Standing n := by
  refine ⟨hn, fun t hd => hd.elim (not_isObsolete_of_free hw) fun ho => ?_⟩
  exact (h.held t n (Thread.owns_of_obsolete ho)).not_free hw

/-- What a thread has locked stays, unless it is about to make it obsolete itself. -/
theorem standing_of_owns (h : Locking X s) (ho : (s.thread t).Owns X n)
    (hn : .obsolete n ∉ (s.thread t).todo) : s.Standing n := by
  refine ⟨h.live t n ho, fun u hd => hd.elim (h.held t n ho).not_isObsolete fun hu => ?_⟩
  obtain rfl := h.unique u t n (Thread.owns_of_obsolete hu) ho
  exact hn hu

end Locking

namespace Graph

/-- A node that nobody has locked points to nothing that is retired. -/
theorem child_of_free (h : Graph X root s) (hl : Locking X s) {k : UInt8} {z : Ref}
    (hn : n ∈ s.live) (hw : Free (s.node n).word) (hc : s.Child X n k z) :
    z ∈ s.live ∧ z ≠ root ∧ ∀ t, z ∉ (s.thread t).retired X := by
  have hs := hl.standing_of_free hn hw
  obtain ⟨hz, hroot⟩ := h.child n k z hs hc
  refine ⟨hz, hroot, fun t ht => ?_⟩
  obtain ⟨y, hy⟩ := h.sealed t n k z hs hc ht
  exact (hl.held t n (hl.owns_of_publishes hy)).not_free hw

theorem not_retired (h : Graph X root s) (hn : s.Standing n) (t : ℕ) : n ∉ (s.thread t).retired X :=
  fun hr =>
  hn.2 t (h.retired t n hr).2.2

/-- Nothing happens to the tree: a step of one thread that at most turns a node obsolete that it was
about to. -/
theorem congr (h : Graph X root s) (hthread : s'.thread = Function.update s.thread t r)
    (hlive : s'.live = s.live) (hchild : ∀ n, (s'.node n).child = (s.node n).child)
    (hmono : ∀ n, isObsolete (s.node n).word = true → isObsolete (s'.node n).word = true)
    (hdoomed : ∀ n, isObsolete (s'.node n).word = true ∨ .obsolete n ∈ r.todo ↔ s.DoomedBy t n)
    (hchange : ∀ n k q, .change n k q ∈ r.todo ↔ .change n k q ∈ (s.thread t).todo)
    (hretired : (r.retired X).Perm ((s.thread t).retired X)) : Graph X root s' := by
  have hother : ∀ u, u ≠ t → s'.thread u = s.thread u :=
    fun u hu => by rw [hthread, Function.update_of_ne hu]
  have hself : s'.thread t = r := by rw [hthread, Function.update_self]
  have hdoomedBy : ∀ u n, s.DoomedBy u n → s'.DoomedBy u n := by
    intro u n hd
    by_cases hu : u = t
    · subst hu
      unfold World.DoomedBy
      rw [hself]
      exact (hdoomed n).2 hd
    · unfold World.DoomedBy
      rw [hother u hu]
      exact hd.imp_left (hmono n)
  have hstanding : ∀ n, s'.Standing n ↔ s.Standing n := by
    intro n
    refine and_congr (by rw [hlive]) ⟨fun hn u hd => hn u (hdoomedBy u n hd), fun hn u hd => ?_⟩
    by_cases hu : u = t
    · subst hu
      unfold World.DoomedBy at hd
      rw [hself] at hd
      exact hn u ((hdoomed n).1 hd)
    · unfold World.DoomedBy at hd
      rw [hother u hu] at hd
      exact hd.elim (fun ho => hn t ((hdoomed n).1 (.inl ho))) fun ho => hn u (.inr ho)
  have hc : ∀ n k z, s'.Child X n k z ↔ s.Child X n k z := fun n k z => by
    unfold World.Child
    rw [hchild]
  have hpub : ∀ u n k y, s'.Publishes X u n k y ↔ s.Publishes X u n k y := by
    intro u n k y
    unfold World.Publishes
    by_cases hu : u = t
    · subst hu
      rw [hself]
      exact exists_congr fun q => and_congr_left' (hchange n k q)
    · rw [hother u hu]
  have hperm : ∀ u, ((s'.thread u).retired X).Perm ((s.thread u).retired X) := by
    intro u
    by_cases hu : u = t
    · subst hu
      rw [hself]
      exact hretired
    · rw [hother u hu]
  have hmem : ∀ u x, x ∈ (s'.thread u).retired X ↔ x ∈ (s.thread u).retired X :=
    fun u x => (hperm u).mem_iff
  refine ⟨(hstanding root).2 h.standing_root, fun n k z => ?_, fun n m k j z => ?_,
    fun u n k y hp => ?_, fun u v n m k j y => ?_, fun u => (hperm u).nodup_iff.2 (h.nodup u),
    fun u x hx => ?_, fun u v x => ?_, fun u n k x => ?_⟩
  · rw [hstanding, hc, hlive]
    exact h.child n k z
  · rw [hstanding, hstanding, hc, hc]
    exact h.parent n m k j z
  · obtain ⟨h₁, h₂, h₃⟩ := h.fresh u n k y ((hpub u n k y).1 hp)
    refine ⟨(hstanding y).2 h₁, h₂, fun m j hm hc' => ?_⟩
    exact h₃ m j ((hstanding m).1 hm) ((hc m j y).1 hc')
  · rw [hpub, hpub]
    exact h.fresh_unique u v n m k j y
  · obtain ⟨h₁, h₂, h₃⟩ := h.retired u x ((hmem u x).1 hx)
    exact ⟨hlive ▸ h₁, h₂, hdoomedBy u x h₃⟩
  · rw [hmem, hmem]
    exact h.retired_unique u v x
  · rw [hstanding, hc, hmem]
    intro hn hx hr
    obtain ⟨y, hy⟩ := h.sealed u n k x hn hx hr
    exact ⟨y, (hpub u n k y).2 hy⟩

/-- A child is changed: what was about to be published is linked, and what is retired is not linked
any more. -/
theorem change (h : Graph X root s) {k : UInt8} {q : Ptr} {rest : List Act}
    (ho : Ordered (.change n k q :: rest)) (htodo : (s.thread t).todo = .change n k q :: rest)
    (hthread : s'.thread = Function.update s.thread t r)
    (hnode : s'.node = Function.update s.node n ((s.node n).setChild k q))
    (hlive : s'.live = s.live) (hr : r.todo = rest)
    (hretired : r.retired X = (s.thread t).retired X) : Graph X root s' := by
  have hother : ∀ u, u ≠ t → s'.thread u = s.thread u :=
    fun u hu => by rw [hthread, Function.update_of_ne hu]
  have hself : s'.thread t = r := by rw [hthread, Function.update_self]
  have hword : ∀ m, (s'.node m).word = (s.node m).word := by
    intro m
    rw [hnode]
    by_cases hm : m = n
    · rw [hm, Function.update_self]
      rfl
    · rw [Function.update_of_ne hm]
  have hdoomed : ∀ u m, s'.DoomedBy u m ↔ s.DoomedBy u m := by
    intro u m
    unfold World.DoomedBy
    rw [hword]
    by_cases hu : u = t
    · subst hu
      rw [hself, hr, htodo]
      simp
    · rw [hother u hu]
  have hstanding : ∀ m, s'.Standing m ↔ s.Standing m := fun m =>
    and_congr (by rw [hlive]) (forall_congr' fun u => not_congr (hdoomed u m))
  have hold : ∀ u, (s'.thread u).retired X = (s.thread u).retired X := by
    intro u
    by_cases hu : u = t
    · subst hu
      rw [hself, hretired]
    · rw [hother u hu]
  have hpub : ∀ u m j y, s'.Publishes X u m j y → u ≠ t ∧ s.Publishes X u m j y := by
    rintro u m j y ⟨q', hq', hy⟩
    by_cases hu : u = t
    · subst hu
      rw [hself, hr] at hq'
      exact absurd hq' (ho.2.1 m j q')
    · rw [hother u hu] at hq'
      exact ⟨hu, q', hq', hy⟩
  have hpub' : s.Publishes X t n k (target X q) := ⟨q, htodo ▸ List.mem_cons_self, rfl⟩
  obtain ⟨hy, hyroot, hnone⟩ := h.fresh t n k _ hpub'
  have hchild : ∀ m j z, s'.Child X m j z → m = n ∧ j = k ∧ z = target X q ∨ ¬(m = n ∧ j = k) ∧
    s.Child X m j z := by
    rintro m j z ⟨q', hq', hz⟩
    rw [hnode] at hq'
    by_cases hm : m = n
    · subst hm
      rw [Function.update_self] at hq'
      by_cases hj : j = k
      · subst hj
        simp only [Node.setChild, Function.update_self, Option.some.injEq] at hq'
        exact .inl ⟨rfl, rfl, hz ▸ hq' ▸ rfl⟩
      · simp only [Node.setChild, Function.update_of_ne hj] at hq'
        exact .inr ⟨fun hmj => hj hmj.2, q', hq', hz⟩
    · rw [Function.update_of_ne hm] at hq'
      exact .inr ⟨fun hmj => hm hmj.1, q', hq', hz⟩
  refine ⟨(hstanding root).2 h.standing_root, fun m j z hm hc => ?_,
    fun m m' j j' z hm hm' hc hc' => ?_, fun u m j y hp => ?_, fun u v m m' j j' y hp hp' => ?_,
    fun u => by rw [hold]; exact h.nodup u, fun u x hx => ?_,
    fun u v x hx hx' => ?_, fun u m j x hm hc hx => ?_⟩
  · rw [hlive]
    rcases hchild m j z hc with ⟨-, -, rfl⟩ | ⟨-, hc⟩
    · exact ⟨hy.1, hyroot⟩
    · exact h.child m j z ((hstanding m).1 hm) hc
  · rw [hstanding] at hm hm'
    rcases hchild m j z hc with ⟨rfl, rfl, rfl⟩ | ⟨-, hc⟩
    · rcases hchild m' j' _ hc' with ⟨rfl, rfl, -⟩ | ⟨-, hc'⟩
      · exact ⟨rfl, rfl⟩
      · exact absurd hc' (hnone m' j' hm')
    · rcases hchild m' j' z hc' with ⟨rfl, rfl, rfl⟩ | ⟨-, hc'⟩
      · exact absurd hc (hnone m j hm)
      · exact h.parent m m' j j' z hm hm' hc hc'
  · obtain ⟨hu, hp⟩ := hpub u m j y hp
    obtain ⟨h₁, h₂, h₃⟩ := h.fresh u m j y hp
    refine ⟨(hstanding y).2 h₁, h₂, fun m' j' hm' hc' => ?_⟩
    rcases hchild m' j' y hc' with ⟨-, -, rfl⟩ | ⟨-, hc'⟩
    · exact hu (h.fresh_unique u t m n j k _ hp hpub')
    · exact h₃ m' j' ((hstanding m').1 hm') hc'
  · exact h.fresh_unique u v m m' j j' y (hpub u m j y hp).2 (hpub v m' j' y hp').2
  · rw [hold] at hx
    obtain ⟨h₁, h₂, h₃⟩ := h.retired u x hx
    exact ⟨hlive ▸ h₁, h₂, (hdoomed u x).2 h₃⟩
  · rw [hold] at hx hx'
    exact h.retired_unique u v x hx hx'
  · rw [hold] at hx
    rw [hstanding] at hm
    rcases hchild m j x hc with ⟨-, -, rfl⟩ | ⟨hmj, hc⟩
    · exact absurd hx (h.not_retired hy u)
    · obtain ⟨y, q', hq', hy'⟩ := h.sealed u m j x hm hc hx
      refine ⟨y, q', ?_, hy'⟩
      by_cases hu : u = t
      · subst hu
        rw [htodo] at hq'
        rcases List.mem_cons.1 hq' with heq | hq'
        · cases heq
          exact absurd ⟨rfl, rfl⟩ hmj
        · exact absurd hq' (ho.2.1 m j q')
      · rw [hother u hu]
        exact hq'

/-- A slot is freed. -/
theorem free (h : Graph X root s) {x : Ref} (htodo : (s.thread t).todo = [])
    (hthread : s'.thread = Function.update s.thread t r) (hnode : s'.node = s.node)
    (hlive : s'.live = s.live.erase x) (hr : r.todo = [])
    (hretired : ((s.thread t).retired X).Perm (x :: r.retired X)) : Graph X root s' := by
  have hother : ∀ u, u ≠ t → s'.thread u = s.thread u :=
    fun u hu => by rw [hthread, Function.update_of_ne hu]
  have hself : s'.thread t = r := by rw [hthread, Function.update_self]
  have htodos : ∀ u, (s'.thread u).todo = (s.thread u).todo := by
    intro u
    by_cases hu : u = t
    · rw [hu, hself, hr, htodo]
    · rw [hother u hu]
  have hx : x ∈ (s.thread t).retired X := hretired.mem_iff.2 List.mem_cons_self
  have hnodup : x ∉ r.retired X := (List.nodup_cons.1 (hretired.nodup_iff.1 (h.nodup t))).1
  have hmem : ∀ u y, y ∈ (s'.thread u).retired X → y ∈ (s.thread u).retired X ∧ y ≠ x := by
    intro u y hy
    by_cases hu : u = t
    · subst hu
      rw [hself] at hy
      exact ⟨hretired.mem_iff.2 (List.mem_cons_of_mem _ hy), fun hyx => hnodup (hyx ▸ hy)⟩
    · rw [hother u hu] at hy
      exact ⟨hy, fun hyx => hu (h.retired_unique u t x (hyx ▸ hy) hx)⟩
  have hdoomed : ∀ u m, s'.DoomedBy u m ↔ s.DoomedBy u m := fun u m => by
    unfold World.DoomedBy
    rw [hnode, htodos]
  have hpub : ∀ u m j y, s'.Publishes X u m j y ↔ s.Publishes X u m j y := fun u m j y => by
    unfold World.Publishes
    rw [htodos]
  have hchild : ∀ m j z, s'.Child X m j z ↔ s.Child X m j z := fun m j z => by
    unfold World.Child
    rw [hnode]
  have hne : ∀ m, s.Standing m → m ≠ x := by
    rintro m hm rfl
    exact h.not_retired hm t hx
  have hstanding : ∀ m, s'.Standing m ↔ s.Standing m := by
    intro m
    have hiff : (∀ u, ¬s'.DoomedBy u m) ↔ ∀ u, ¬s.DoomedBy u m :=
      forall_congr' fun u => not_congr (hdoomed u m)
    unfold World.Standing
    rw [hiff, hlive, Finset.mem_erase]
    exact ⟨fun hm => ⟨hm.1.2, hm.2⟩, fun hm => ⟨⟨hne m hm, hm.1⟩, hm.2⟩⟩
  have hnotpub : ∀ m j y, ¬s.Publishes X t m j y := by
    rintro m j y ⟨q, hq, -⟩
    rw [htodo] at hq
    cases hq
  refine ⟨(hstanding root).2 h.standing_root, fun m j z hm hc => ?_, fun m m' j j' z => ?_,
    fun u m j y hp => ?_, fun u v m m' j j' y => ?_, fun u => ?_, fun u y hy => ?_,
    fun u v y hy hy' => ?_, fun u m j y hm hc hy => ?_⟩
  · rw [hstanding] at hm
    rw [hchild] at hc
    obtain ⟨hz, hroot⟩ := h.child m j z hm hc
    refine ⟨?_, hroot⟩
    rw [hlive, Finset.mem_erase]
    refine ⟨?_, hz⟩
    rintro rfl
    obtain ⟨y, hy⟩ := h.sealed t m j z hm hc hx
    exact hnotpub m j y hy
  · rw [hstanding, hstanding, hchild, hchild]
    exact h.parent m m' j j' z
  · obtain ⟨h₁, h₂, h₃⟩ := h.fresh u m j y ((hpub u m j y).1 hp)
    refine ⟨(hstanding y).2 h₁, h₂, fun m' j' hm' hc' => ?_⟩
    exact h₃ m' j' ((hstanding m').1 hm') ((hchild m' j' y).1 hc')
  · rw [hpub, hpub]
    exact h.fresh_unique u v m m' j j' y
  · by_cases hu : u = t
    · rw [hu, hself]
      exact (List.nodup_cons.1 (hretired.nodup_iff.1 (h.nodup t))).2
    · rw [hother u hu]
      exact h.nodup u
  · obtain ⟨hy, hyx⟩ := hmem u y hy
    obtain ⟨h₁, h₂, h₃⟩ := h.retired u y hy
    refine ⟨?_, h₂, (hdoomed u y).2 h₃⟩
    rw [hlive, Finset.mem_erase]
    exact ⟨hyx, h₁⟩
  · exact h.retired_unique u v y (hmem u y hy).1 (hmem v y hy').1
  · obtain ⟨z, hz⟩ := h.sealed u m j y ((hstanding m).1 hm) ((hchild m j y).1 hc) (hmem u y hy).1
    exact ⟨z, (hpub u m j z).2 hz⟩

/-- The slots `N` are built, to be linked by a thread that has the node `n` locked. The children of
what is built are new, or come from a node that becomes obsolete. -/
structure Builds (X : ℕ → BucketIndexer) (s s' : World) (t : ℕ) (r : Thread) (n : Ref) (k : UInt8)
    (top : Ref) (N L : List Ref) : Prop where
  todo : (s.thread t).todo = []
  thread : s'.thread = Function.update s.thread t r
  live : ∀ x, x ∈ s'.live ↔ x ∈ N ∨ x ∈ s.live
  node : ∀ x, x ∉ N → s'.node x = s.node x
  fresh : ∀ x ∈ N, x ∉ s.live
  not_obsolete : ∀ x ∈ N, ¬isObsolete (s'.node x).word = true
  change : ∀ m j q, .change m j q ∈ r.todo → m = n ∧ j = k ∧ target X q = top ∧ top ∈ N
  obsolete : ∀ x, .obsolete x ∈ r.todo →
    (s.thread t).Owns X n ∧ (s.thread t).Owns X x ∧ s.Child X n k x ∧ x ≠ n
  retired : r.retired X = L ++ (s.thread t).retired X
  nodup : L.Nodup
  retires : ∀ x ∈ L, .obsolete x ∈ r.todo ∧ ∃ q, .change n k q ∈ r.todo
  child : ∀ y ∈ N, ∀ j z, s'.Child X y j z → z ∈ N ∧ z ≠ top ∨
    ∃ x i, .obsolete x ∈ r.todo ∧ s.Child X x i z
  parent : ∀ y ∈ N, ∀ y' ∈ N, ∀ j j' z, s'.Child X y j z → s'.Child X y' j' z → y = y' ∧ j = j'

namespace Builds

variable {k : UInt8} {top : Ref} {N L : List Ref}

theorem other (hb : Builds X s s' t r n k top N L) {u : ℕ} (hu : u ≠ t) :
    s'.thread u = s.thread u := by
  rw [hb.thread, Function.update_of_ne hu]

theorem self (hb : Builds X s s' t r n k top N L) : s'.thread t = r := by
  rw [hb.thread, Function.update_self]

theorem notMem (hb : Builds X s s' t r n k top N L) {x : Ref} (hx : x ∈ s.live) : x ∉ N := fun hN =>
  hb.fresh x hN hx

theorem not_publishes (hb : Builds X s s' t r n k top N L) (m : Ref) (j : UInt8) (y : Ref) :
    ¬s.Publishes X t m j y := by
  rintro ⟨q, hq, -⟩
  rw [hb.todo] at hq
  cases hq

/-- What is about to be published after the step. -/
theorem publishes (hb : Builds X s s' t r n k top N L) {u : ℕ} {m y : Ref} {j : UInt8}
    (hp : s'.Publishes X u m j y) :
    u = t ∧ m = n ∧ j = k ∧ y = top ∧ top ∈ N ∨ u ≠ t ∧ s.Publishes X u m j y := by
  obtain ⟨q, hq, rfl⟩ := hp
  by_cases hu : u = t
  · subst hu
    rw [hb.self] at hq
    obtain ⟨hm, hj, htop, hN⟩ := hb.change m j q hq
    exact .inl ⟨rfl, hm, hj, htop, hN⟩
  · rw [hb.other hu] at hq
    exact .inr ⟨hu, q, hq, rfl⟩

theorem mem_retired (hb : Builds X s s' t r n k top N L) {u : ℕ} {x : Ref}
    (hx : x ∈ (s'.thread u).retired X) : u = t ∧ x ∈ L ∨ x ∈ (s.thread u).retired X := by
  by_cases hu : u = t
  · subst hu
    rw [hb.self, hb.retired, List.mem_append] at hx
    exact hx.imp_left fun hx => ⟨rfl, hx⟩
  · rw [hb.other hu] at hx
    exact .inr hx

theorem child_iff (hb : Builds X s s' t r n k top N L) {m z : Ref} {j : UInt8} (hm : m ∉ N) :
    s'.Child X m j z ↔ s.Child X m j z := by
  unfold World.Child
  rw [hb.node m hm]

/-! Which nodes stay: the new ones, and of the others those that the step does not doom. -/

theorem standing_of_owns (hb : Builds X s s' t r n k top N L) (hl : Locking X s) {x : Ref}
    (ho : (s.thread t).Owns X x) : s.Standing x := by
  apply hl.standing_of_owns ho
  rw [hb.todo]
  exact List.not_mem_nil

theorem standing_new (hb : Builds X s s' t r n k top N L) (hl : Locking X s) {x : Ref}
    (hx : x ∈ N) : s'.Standing x := by
  refine ⟨(hb.live x).2 (.inl hx), fun u hd => hd.elim (hb.not_obsolete x hx) fun ho =>
    hb.fresh x hx ?_⟩
  by_cases hu : u = t
  · subst hu
    rw [hb.self] at ho
    exact hl.live u x (hb.obsolete x ho).2.1
  · rw [hb.other hu] at ho
    exact hl.live u x (Thread.owns_of_obsolete ho)

theorem doomed_iff (hb : Builds X s s' t r n k top N L) {x : Ref} (hx : x ∉ N) :
    (∀ u, ¬s'.DoomedBy u x) ↔ (∀ u, ¬s.DoomedBy u x) ∧ .obsolete x ∉ r.todo := by
  unfold World.DoomedBy
  rw [hb.node x hx]
  constructor
  · refine fun hd => ⟨fun u hu => ?_, fun ho => hd t (.inr (by rwa [hb.self]))⟩
    by_cases hut : u = t
    · subst hut
      rw [hb.todo] at hu
      exact hd u (.inl (hu.resolve_right List.not_mem_nil))
    · apply hd u
      rwa [hb.other hut]
  · rintro ⟨hd, ho⟩ u hu
    by_cases hut : u = t
    · subst hut
      rw [hb.self] at hu
      exact hd u (.inl (hu.resolve_right ho))
    · rw [hb.other hut] at hu
      exact hd u hu

theorem standing_iff (hb : Builds X s s' t r n k top N L) {x : Ref} (hx : x ∉ N) :
    s'.Standing x ↔ s.Standing x ∧ .obsolete x ∉ r.todo := by
  unfold World.Standing
  rw [hb.live, hb.doomed_iff hx, or_iff_right hx, and_assoc]

/-- What becomes obsolete is the child that is replaced. -/
theorem standing_of_obsolete (hb : Builds X s s' t r n k top N L) (hl : Locking X s) {x : Ref}
    (ho : .obsolete x ∈ r.todo) : s.Standing x ∧ s.Standing n ∧ s.Child X n k x ∧ x ≠ n := by
  obtain ⟨hn, hx, hc, hne⟩ := hb.obsolete x ho
  exact ⟨hb.standing_of_owns hl hx, hb.standing_of_owns hl hn, hc, hne⟩

theorem standing_of_mem (hb : Builds X s s' t r n k top N L) (hl : Locking X s) {x : Ref}
    (hx : x ∈ L) : s.Standing x ∧ s.Standing n ∧ s.Child X n k x ∧ x ≠ n :=
  hb.standing_of_obsolete hl (hb.retires x hx).1

/-- A child that a new node takes over was the child of a node that stayed. -/
theorem taken (hb : Builds X s s' t r n k top N L) (h : Graph X root s) (hl : Locking X s)
    {x z : Ref} {i : UInt8} (ho : .obsolete x ∈ r.todo) (hc : s.Child X x i z) :
    s.Standing x ∧ z ∈ s.live ∧ z ≠ root := by
  have hx := (hb.standing_of_obsolete hl ho).1
  exact ⟨hx, h.child x i z hx hc⟩

theorem live_of_retired (hb : Builds X s s' t r n k top N L) (h : Graph X root s) (hl : Locking X s)
    {u : ℕ} {x : Ref} (hx : x ∈ (s'.thread u).retired X) : x ∈ s.live ∧ x ≠ root := by
  rcases hb.mem_retired hx with ⟨-, hx⟩ | hx
  · obtain ⟨-, hn, hc, -⟩ := hb.standing_of_mem hl hx
    exact h.child n k x hn hc
  · obtain ⟨hlive, hroot, -⟩ := h.retired u x hx
    exact ⟨hlive, hroot⟩

/-! What each clause of the graph becomes. -/

theorem root_stays (hb : Builds X s s' t r n k top N L) (h : Graph X root s) (hl : Locking X s) :
    s'.Standing root := by
  refine (hb.standing_iff (hb.notMem h.standing_root.1)).2 ⟨h.standing_root, fun ho => ?_⟩
  obtain ⟨-, hn, hc, -⟩ := hb.standing_of_obsolete hl ho
  exact (h.child n k root hn hc).2 rfl

theorem child_live (hb : Builds X s s' t r n k top N L) (h : Graph X root s) (hl : Locking X s)
    {m z : Ref} {j : UInt8} (hm : s'.Standing m) (hc : s'.Child X m j z) :
    z ∈ s'.live ∧ z ≠ root := by
  rw [hb.live]
  by_cases hmN : m ∈ N
  · rcases hb.child m hmN j z hc with ⟨hz, -⟩ | ⟨x, i, ho, hc⟩
    · refine ⟨.inl hz, ?_⟩
      rintro rfl
      exact hb.fresh z hz h.standing_root.1
    · obtain ⟨-, hz, hroot⟩ := hb.taken h hl ho hc
      exact ⟨.inr hz, hroot⟩
  · obtain ⟨hz, hroot⟩ := h.child m j z ((hb.standing_iff hmN).1 hm).1 ((hb.child_iff hmN).1 hc)
    exact ⟨.inr hz, hroot⟩

/-- Of two parents that stay one cannot be new, as the other one gave up what it took over. -/
theorem not_child_of_new (hb : Builds X s s' t r n k top N L) (h : Graph X root s)
    (hl : Locking X s) {m m' z : Ref} {j j' : UInt8} (hmN : m ∈ N) (hmN' : m' ∉ N)
    (hm' : s'.Standing m') (hc : s'.Child X m j z) : ¬s'.Child X m' j' z := by
  intro hc'
  obtain ⟨hs', hnot⟩ := (hb.standing_iff hmN').1 hm'
  rw [hb.child_iff hmN'] at hc'
  rcases hb.child m hmN j z hc with ⟨hz, -⟩ | ⟨x, i, ho, hcx⟩
  · exact hb.fresh z hz (h.child m' j' z hs' hc').1
  · obtain ⟨hx, -⟩ := hb.taken h hl ho hcx
    obtain ⟨rfl, -⟩ := h.parent x m' i j' z hx hs' hcx hc'
    exact hnot ho

theorem parent_unique (hb : Builds X s s' t r n k top N L) (h : Graph X root s) (hl : Locking X s)
    {m m' z : Ref} {j j' : UInt8} (hm : s'.Standing m) (hm' : s'.Standing m')
    (hc : s'.Child X m j z) (hc' : s'.Child X m' j' z) : m = m' ∧ j = j' := by
  by_cases hmN : m ∈ N
  · by_cases hmN' : m' ∈ N
    · exact hb.parent m hmN m' hmN' j j' z hc hc'
    · exact absurd hc' (hb.not_child_of_new h hl hmN hmN' hm' hc)
  · by_cases hmN' : m' ∈ N
    · exact absurd hc (hb.not_child_of_new h hl hmN' hmN hm hc')
    · rw [hb.standing_iff hmN] at hm
      rw [hb.standing_iff hmN'] at hm'
      rw [hb.child_iff hmN] at hc
      rw [hb.child_iff hmN'] at hc'
      exact h.parent m m' j j' z hm.1 hm'.1 hc hc'

/-- The node that is about to be linked is new, and no child yet. -/
theorem not_child_top (hb : Builds X s s' t r n k top N L) (h : Graph X root s) (hl : Locking X s)
    (htop : top ∈ N) {m : Ref} {j : UInt8} (hm : s'.Standing m) : ¬s'.Child X m j top := by
  intro hc
  apply hb.fresh top htop
  by_cases hmN : m ∈ N
  · rcases hb.child m hmN j top hc with ⟨-, hne⟩ | ⟨x, i, ho, hcx⟩
    · exact absurd rfl hne
    · exact (hb.taken h hl ho hcx).2.1
  · exact (h.child m j top ((hb.standing_iff hmN).1 hm).1 ((hb.child_iff hmN).1 hc)).1

theorem fresh_stays (hb : Builds X s s' t r n k top N L) (h : Graph X root s) (hl : Locking X s)
    {u : ℕ} {m y : Ref} {j : UInt8} (hp : s'.Publishes X u m j y) :
    s'.Standing y ∧ y ≠ root ∧ ∀ m j, s'.Standing m → ¬s'.Child X m j y := by
  rcases hb.publishes hp with ⟨rfl, rfl, rfl, rfl, hN⟩ | ⟨hu, hp⟩
  · refine ⟨hb.standing_new hl hN, ?_, fun m' j' hm' => hb.not_child_top h hl hN hm'⟩
    rintro rfl
    exact hb.fresh y hN h.standing_root.1
  · obtain ⟨hy, hroot, hnot⟩ := h.fresh u m j y hp
    refine ⟨(hb.standing_iff (hb.notMem hy.1)).2 ⟨hy, fun ho => ?_⟩, hroot, fun m' j' hm' hc' => ?_⟩
    · obtain ⟨-, hn, hc, -⟩ := hb.standing_of_obsolete hl ho
      exact hnot n k hn hc
    · by_cases hmN : m' ∈ N
      · rcases hb.child m' hmN j' y hc' with ⟨hyN, -⟩ | ⟨x, i, ho, hcx⟩
        · exact hb.fresh y hyN hy.1
        · exact hnot x i (hb.taken h hl ho hcx).1 hcx
      · exact hnot m' j' ((hb.standing_iff hmN).1 hm').1 ((hb.child_iff hmN).1 hc')

theorem publisher_unique (hb : Builds X s s' t r n k top N L) (h : Graph X root s) {u v : ℕ}
    {m m' y : Ref} {j j' : UInt8} (hp : s'.Publishes X u m j y) (hp' : s'.Publishes X v m' j' y) :
    u = v := by
  rcases hb.publishes hp with ⟨rfl, -, -, rfl, hN⟩ | ⟨-, hp⟩
  · rcases hb.publishes hp' with ⟨rfl, -⟩ | ⟨-, hp'⟩
    · rfl
    · exact absurd (h.fresh v m' j' y hp').1.1 (hb.fresh y hN)
  · rcases hb.publishes hp' with ⟨rfl, -, -, rfl, hN⟩ | ⟨-, hp'⟩
    · exact absurd (h.fresh u m j y hp).1.1 (hb.fresh y hN)
    · exact h.fresh_unique u v m m' j j' y hp hp'

theorem nodup_retired (hb : Builds X s s' t r n k top N L) (h : Graph X root s) (hl : Locking X s)
    (u : ℕ) : ((s'.thread u).retired X).Nodup := by
  by_cases hu : u = t
  · rw [hu, hb.self, hb.retired, List.nodup_append]
    refine ⟨hb.nodup, h.nodup t, fun x hx y hy hxy => ?_⟩
    subst hxy
    exact h.not_retired (hb.standing_of_mem hl hx).1 t hy
  · rw [hb.other hu]
    exact h.nodup u

theorem doomed_of_retired (hb : Builds X s s' t r n k top N L) (h : Graph X root s) {u : ℕ}
    {x : Ref} (hx : x ∈ (s'.thread u).retired X) : s'.DoomedBy u x := by
  unfold World.DoomedBy
  rcases hb.mem_retired hx with ⟨rfl, hx⟩ | hx
  · rw [hb.self]
    exact .inr (hb.retires x hx).1
  · obtain ⟨hlive, -, hdoomed⟩ := h.retired u x hx
    rw [hb.node x (hb.notMem hlive)]
    refine hdoomed.imp_right fun ho => ?_
    by_cases hu : u = t
    · subst hu
      rw [hb.todo] at ho
      cases ho
    · rwa [hb.other hu]

theorem retirer_unique (hb : Builds X s s' t r n k top N L) (h : Graph X root s) (hl : Locking X s)
    {u v : ℕ} {x : Ref} (hx : x ∈ (s'.thread u).retired X) (hx' : x ∈ (s'.thread v).retired X) :
    u = v := by
  rcases hb.mem_retired hx with ⟨rfl, hxL⟩ | hx
  · rcases hb.mem_retired hx' with ⟨rfl, -⟩ | hx'
    · rfl
    · exact absurd hx' (h.not_retired (hb.standing_of_mem hl hxL).1 v)
  · rcases hb.mem_retired hx' with ⟨rfl, hxL⟩ | hx'
    · exact absurd hx (h.not_retired (hb.standing_of_mem hl hxL).1 u)
    · exact h.retired_unique u v x hx hx'

/-- What a new node takes over is not retired: its parent was locked by the thread, which was not
about to change it. -/
theorem not_retired_of_new (hb : Builds X s s' t r n k top N L) (h : Graph X root s)
    (hl : Locking X s) {u : ℕ} {m x : Ref} {j : UInt8} (hmN : m ∈ N) (hc : s'.Child X m j x) :
    x ∉ (s'.thread u).retired X := by
  intro hx
  rcases hb.child m hmN j x hc with ⟨hxN, -⟩ | ⟨y, i, ho, hcy⟩
  · exact hb.fresh x hxN (hb.live_of_retired h hl hx).1
  · obtain ⟨hy, hn, -, hne⟩ := hb.standing_of_obsolete hl ho
    rcases hb.mem_retired hx with ⟨rfl, hxL⟩ | hx
    · obtain ⟨-, -, hc', -⟩ := hb.standing_of_mem hl hxL
      exact hne (h.parent y n i k x hy hn hcy hc').1
    · obtain ⟨z, hz⟩ := h.sealed u y i x hy hcy hx
      obtain rfl := hl.unique u t y (hl.owns_of_publishes hz) (hb.obsolete y ho).2.1
      exact hb.not_publishes y i z hz

theorem sealed_stays (hb : Builds X s s' t r n k top N L) (h : Graph X root s) (hl : Locking X s)
    {u : ℕ} {m x : Ref} {j : UInt8} (hm : s'.Standing m) (hc : s'.Child X m j x)
    (hx : x ∈ (s'.thread u).retired X) : ∃ y, s'.Publishes X u m j y := by
  have hmN : m ∉ N := fun hmN => hb.not_retired_of_new h hl hmN hc hx
  obtain ⟨hs, -⟩ := (hb.standing_iff hmN).1 hm
  rw [hb.child_iff hmN] at hc
  rcases hb.mem_retired hx with ⟨rfl, hxL⟩ | hx
  · obtain ⟨-, hn, hc', -⟩ := hb.standing_of_mem hl hxL
    obtain ⟨rfl, rfl⟩ := h.parent m n j k x hs hn hc hc'
    obtain ⟨q, hq⟩ := (hb.retires x hxL).2
    exact ⟨target X q, q, by rwa [hb.self], rfl⟩
  · obtain ⟨y, q, hq, hy⟩ := h.sealed u m j x hs hc hx
    refine ⟨y, q, ?_, hy⟩
    by_cases hu : u = t
    · subst hu
      rw [hb.todo] at hq
      cases hq
    · rwa [hb.other hu]

end Builds

/-- New nodes are built. -/
theorem built (h : Graph X root s) (hl : Locking X s) {k : UInt8} {top : Ref} {N L : List Ref}
    (hb : Builds X s s' t r n k top N L) : Graph X root s' where
  standing_root := hb.root_stays h hl
  child _ _ _ := hb.child_live h hl
  parent _ _ _ _ _ := hb.parent_unique h hl
  fresh _ _ _ _ := hb.fresh_stays h hl
  fresh_unique _ _ _ _ _ _ _ := hb.publisher_unique h
  nodup := hb.nodup_retired h hl
  retired u x hx := by
    obtain ⟨hlive, hroot⟩ := hb.live_of_retired h hl hx
    exact ⟨(hb.live x).2 (.inr hlive), hroot, hb.doomed_of_retired h hx⟩
  retired_unique _ _ _ := hb.retirer_unique h hl
  sealed _ _ _ _ := hb.sealed_stays h hl

end Graph

end TinyPointerTrees.Art.Reclamation
