import TinyPointerTrees.Trie.TinyTrie
import TinyPointerTrees.Trie.ValueTrie

/-!
# `TinyValueTrie`

The trie of values over tiny pointers. Its nodes are entries of a dereference
table, at the hashes of their paths. `allocate` neither zeroes an entry nor makes
a `Node()` in it, and no more does the trie: a new node, also the root, is what
the storage held before, but for the first byte of its value, where the free list
had its link. An entry that is not allocated can be read and written all the same.

* `tinyValueTrie_agrees` — a run does what `ValueTrie` does, if every entry that
  was allocated is blank in the storage.
* `not_tinyValueTrie_agrees` — otherwise it need not.
-/

namespace TinyPointerTrees

variable {α : Type} [Storage byteLayout α] {X : BucketIndexer}

/-- `Node`. A free entry keeps its link in the first byte, which is of `value`. -/
abbrev TinyValueNode (α : Type) := ValueNode (TinyPtr byteLayout) α

instance : Storage byteLayout (TinyValueNode α) where
  getLink n := Storage.getLink byteLayout n.value
  setLink n i := { n with value := Storage.setLink byteLayout n.value i }
  getLink_lt _ := Storage.getLink_lt _
  getLink_setLink _ _ hi := Storage.getLink_setLink _ _ hi

/-- `TinyValueTrie`. -/
def tinyValueTrie (X : BucketIndexer) :
    NodeStore (Table (TinyValueNode α)) Slot (TinyPtr byteLayout) TinyPtrHashes α where
  null := .null
  valid _ _ := true
  read m a := m.read a
  write m a n := m.write a n
  allocate h m := m.allocate byteLayout X 0 h 0
  dereference p h :=
    match DerefTable.dereference X p h with
    | .ok (some s) => .ok s
    | .ok none => .error .undefined
    | .error what => .error (.runtimeError what)
  init := (djb2HashInit, sdbmHashInit)
  next c h := djb2SdbmHash c h

/-- The state of a `TinyValueTrie`. -/
abbrev TinyValueTrieState (α : Type) := ValueTrieState (Table (TinyValueNode α)) Slot

/-- `TinyValueTrie(expected_number_of_nodes)`, on a constructed table. -/
def TinyValueTrie.create (X : BucketIndexer) (T₀ : Table (TinyValueNode α)) :
    EStateM.Result Fault (TinyValueTrieState α) Unit := (tinyValueTrie X).create (0, 0) T₀ ⟨0, 0⟩

omit [Storage byteLayout α] in
/-- `node_count`, which is `deref_table.size()`; nothing when its assertion fails. -/
def TinyValueTrie.nodeCount (X : BucketIndexer) (t : TinyValueTrieState α) : Option ℕ :=
  t.nodes.size byteLayout X

/-! ### What the storage holds -/

/-- The node that the storage holds is blank. -/
def BlankAt (storage : ℕ → ℕ → TinyValueNode α) (s : Slot) : Prop :=
  (storage s.bucket s.index).Blank .null

/-- The node at an address is the one the storage held, but for its value. -/
def Unwritten (storage : ℕ → ℕ → TinyValueNode α) (m : Table (TinyValueNode α)) (s : Slot) : Prop :=
  (m.read s).isTerminal = (storage s.bucket s.index).isTerminal ∧
    (m.read s).nodes = (storage s.bucket s.index).nodes

namespace DerefTable

/-- The constructor writes nothing but links. -/
theorem linkEntries_unwritten {e e' : ℕ → TinyValueNode α} {remaining i : ℕ}
    (h : linkEntries byteLayout remaining i e = some e') (j : ℕ) :
    (e' j).isTerminal = (e j).isTerminal ∧ (e' j).nodes = (e j).nodes := by
  induction remaining generalizing i e with
  | zero =>
    cases h
    exact ⟨rfl, rfl⟩
  | succ n ih =>
    unfold linkEntries at h
    split_ifs at h
    obtain ⟨hf, hn⟩ := ih h
    by_cases hj : j = i
    · subst hj
      rw [Function.update_self] at hf hn
      exact ⟨hf, hn⟩
    · rw [Function.update_of_ne hj] at hf hn
      exact ⟨hf, hn⟩

theorem initBuckets_unwritten {storage : ℕ → ℕ → TinyValueNode α} {n : ℕ}
    {f : ℕ → Bucket (TinyValueNode α)} (h : initBuckets byteLayout storage n = some f) (b j : ℕ) :
    ((f b).entries j).isTerminal = (storage b j).isTerminal ∧
      ((f b).entries j).nodes = (storage b j).nodes := by
  induction n generalizing f with
  | zero =>
    cases h
    exact ⟨rfl, rfl⟩
  | succ n ih =>
    unfold initBuckets at h
    simp only [Option.bind_eq_bind, Option.bind_eq_some_iff, Option.pure_def,
      Option.some.injEq] at h
    obtain ⟨g, hg, B, hB, rfl⟩ := h
    by_cases hb : b = n
    · subst hb
      obtain ⟨e', he, rfl⟩ := Option.map_eq_some_iff.mp hB
      have hlink := linkEntries_unwritten he j
      rw [Function.update_self]
      by_cases hj : j = byteLayout.entriesPerBinCount - 1
      · subst hj
        simp only [Function.update_self]
        exact hlink
      · simp only [Function.update_of_ne hj]
        exact hlink
    · rw [Function.update_of_ne hb]
      exact ih hg

theorem construct_unwritten {storage : ℕ → ℕ → TinyValueNode α} {T : Table (TinyValueNode α)}
    (h : construct byteLayout X storage = some T) (s : Slot) : Unwritten storage T s := by
  obtain ⟨f, hf, rfl⟩ := Option.map_eq_some_iff.mp h
  exact initBuckets_unwritten hf s.bucket s.index

end DerefTable

/-- The nodes are the entries allocated; the others are what the storage held. -/
def tableSpec (X : BucketIndexer) (storage : ℕ → ℕ → TinyValueNode α) :
    StoreSpec (Table (TinyValueNode α)) Slot where
  Inv m := m.Wf byteLayout X ∧ ∀ s, s ∉ m.held → Unwritten storage m s
  live m s := s ∈ m.held
  clean s := BlankAt storage s
  size m := m.held.length
  throws := True

theorem tinyValueTrie_lawful (storage : ℕ → ℕ → TinyValueNode α) :
    (tinyValueTrie X).Lawful (tableSpec X storage) where
  valid _ := rfl
  inv_write {m a n} h ha := by
    refine ⟨h.1.write ha n, fun s hs => ?_⟩
    have hne : s ≠ a := by
      rintro rfl
      exact hs ha
    unfold Unwritten
    change ((m.write a n).read s).isTerminal = _ ∧ ((m.write a n).read s).nodes = _
    rw [Table.read_write_ne hne]
    exact h.2 s hs
  live_write := Iff.rfl
  size_write := rfl
  read_write_self _ := Table.read_write_self _
  read_write_ne h := Table.read_write_ne h _
  write_write {m a n n'} := by
    change (m.write a n).write a n' = m.write a n'
    unfold Table.write
    rw [Table.modify_modify]
    congr 1
    funext B
    simp
  live_allocate {m h b} hb := by
    change b ∈ (Table.allocate byteLayout X m 0 h 0).2.held
    unfold Table.allocate Table.take
    split_ifs
    · exact hb
    · exact List.mem_cons_of_mem _ hb
  throws _ := trivial
  allocate {m m' h p a} hinv ha := by
    have hall := hinv.1.allocated (by decide) ha
    have hread := Table.read_of_allocate ha
    refine ⟨⟨hinv.1.of_allocate ha, fun s hs => ?_⟩, hall.fresh, fun b => ?_, fun b _ =>
      hread b, ?_, hall.ne_null, ?_, fun hb => ?_⟩
    · unfold Unwritten
      rw [hread s]
      exact hinv.2 s fun hm => hs (hall.held ▸ List.mem_cons_of_mem _ hm)
    · change b ∈ m'.held ↔ _
      rw [hall.held, List.mem_cons]
      rfl
    · change m'.held.length = m.held.length + 1
      rw [hall.held, List.length_cons]
    · simp only [tinyValueTrie, hall.dereference]
    · obtain ⟨hflag, hnodes⟩ := hinv.2 a hall.fresh
      change (m'.read a).Blank .null
      unfold ValueNode.Blank
      rw [hread a, hflag, hnodes]
      exact hb

/-! ### Agreement with `ValueTrie` -/

variable [Inhabited α]

/-- What a run does on a `TinyValueTrie`, unless an allocation throws, it does on a
`ValueTrie`: the answers, `size` and `node_count`. -/
def Agrees (X : BucketIndexer) (t₀ : TinyValueTrieState α) (calls : List (ValueCall α)) : Prop :=
  (∃ e t, (tinyValueTrie X).runs calls t₀ = .error (.overflow e) t) ∨
    ∃ answers t v, (tinyValueTrie X).runs calls t₀ = .ok answers t ∧
      valueTrie.runs calls ValueTrie.new = .ok answers v ∧ t.count = v.count ∧
      TinyValueTrie.nodeCount X t = some (ValueTrie.nodeCount v)

/-- A run agrees with `ValueTrie` if every entry that it has allocated is blank in the
storage, and they are not more than `capacity()`, which is a `uint32_t`. -/
theorem tinyValueTrie_agrees {storage : ℕ → ℕ → TinyValueNode α} {T₀ : Table (TinyValueNode α)}
    {t₀ : TinyValueTrieState α} (h₀ : DerefTable.construct byteLayout X storage = some T₀)
    (hcreate : TinyValueTrie.create X T₀ = .ok () t₀) {calls : List (ValueCall α)}
    (hcalls : ∀ k ∈ calls, k.Ascii)
    (hblank : ∀ s ∈ (endState ((tinyValueTrie X).runs calls t₀)).nodes.held, BlankAt storage s)
    (hcap : (endState ((tinyValueTrie X).runs calls t₀)).nodes.held.length ≤
      DerefTable.capacity byteLayout X) :
    Agrees X t₀ calls := by
  have hS := tinyValueTrie_lawful (X := X) storage
  obtain ⟨hwf, hheld⟩ := DerefTable.construct_eq_some h₀
  have hinv : (tableSpec X storage).Inv T₀ := ⟨hwf, fun s _ => DerefTable.construct_unwritten h₀ s⟩
  -- the root is still allocated after the run
  have hsize : (tableSpec X storage).size T₀ = 0 := congrArg List.length hheld
  obtain ⟨M, hrep⟩ := NodeStore.Rep.create _ hS hinv hsize hcreate fun s hs =>
    hblank s (NodeStore.Keeps.runs hS calls t₀ s hs)
  have hsat := hrep.runs hS hcalls hblank
  obtain ⟨v, Mv, hv, hrepv⟩ := valueTrie_runs hcalls
  cases hr : (tinyValueTrie X).runs calls t₀ with
  | ok r t =>
    rw [hr] at hsat hcap
    obtain ⟨rfl, M', hrep'⟩ := hsat
    refine Or.inr ⟨_, t, v, hr, hv, by rw [hrep'.count, hrepv.count], ?_⟩
    have hlen : t.nodes.held.length = ValueTrie.nodeCount v := hrep'.size.trans hrepv.size.symm
    exact hrep'.inv.1.size_eq_some_iff.mpr ⟨hlen.symm, hcap⟩
  | error e t =>
    rw [hr] at hsat
    cases e with
    | overflow e => exact Or.inl ⟨e, t, hr⟩
    | runtimeError what => exact hsat.elim
    | undefined => exact hsat.elim

/-! ### Storage that is not blank -/

section Dirty

/-- A value of four bytes. -/
abbrev FourBytes : Type := ObjectType.Bytes (L := byteLayout) ⟨4, by decide⟩

instance : Inhabited FourBytes := ⟨fun _ => 0⟩

/-- Storage in which every byte is one, and so every `is_terminal` is true. -/
def ones : ℕ → ℕ → TinyValueNode FourBytes :=
  fun _ _ => ⟨fun _ => 1, 1, fun _ => .ofFields 1 0 false⟩

/-- A `TinyValueTrie` is created on every table, with a root that is what the storage held. -/
theorem TinyValueTrie.exists_create (storage : ℕ → ℕ → TinyValueNode FourBytes) :
    ∃ T₀ t₀, DerefTable.construct byteLayout oneBucket storage = some T₀ ∧
      TinyValueTrie.create oneBucket T₀ = .ok () t₀ ∧ t₀.nodes.held.length = 1 ∧
      Unwritten storage t₀.nodes t₀.root := by
  cases h₀ : DerefTable.construct byteLayout oneBucket storage with
  | none => exact absurd (DerefTable.construct_eq_none.mp h₀) (by decide)
  | some T₀ =>
    obtain ⟨hwf, hheld⟩ := DerefTable.construct_eq_some h₀
    obtain ⟨⟨p, s⟩, T', ha⟩ : ∃ r T', T₀.allocate byteLayout oneBucket 0 (0, 0) 0 = (.ok r, T') :=
      hwf.allocate_ok hheld
    refine ⟨T₀, ⟨T', s, 0⟩, rfl, ?_, ?_, ?_⟩
    · have halloc : (tinyValueTrie (α := FourBytes) oneBucket).allocate (0, 0) T₀ =
        (.ok (p, s), T') := ha
      rw [TinyValueTrie.create, NodeStore.create,
        bind_ok (NodeStore.alloc_ok (t := ⟨T₀, ⟨0, 0⟩, 0⟩) halloc)]
      rfl
    · change T'.held.length = 1
      rw [(hwf.allocated (by decide) ha).held, hheld]
      rfl
    · unfold Unwritten
      rw [Table.read_of_allocate ha s]
      exact DerefTable.construct_unwritten h₀ s

/-- The value of the empty word is that of the root. -/
theorem TinyValueTrie.runs_get_nil (t : TinyValueTrieState FourBytes) :
    (tinyValueTrie X).runs [.get []] t = .ok [.value (if (t.nodes.read t.root).terminal then
      some (t.nodes.read t.root).value else none)] t := by
  have hget : (tinyValueTrie X).get [] t =
      .ok (if (t.nodes.read t.root).terminal then some (t.nodes.read t.root).value
      else none) t := by
    rw [NodeStore.get, bind_ok get_ok, NodeStore.getNode, pure_bind]
    dsimp only
    rw [bind_ok (NodeStore.load_ok rfl)]
    change (ite ((t.nodes.read t.root).terminal = true) _ _ : ValueM _ _ _) t = _
    split_ifs <;> rfl
  rw [NodeStore.runs, NodeStore.run, bind_ok (map_ok hget)]
  rfl

/-- On such storage a `TinyValueTrie` has a value for the empty word before any was set. -/
theorem not_tinyValueTrie_agrees :
    ¬ ∀ (X : BucketIndexer) (storage : ℕ → ℕ → TinyValueNode FourBytes)
      (T₀ : Table (TinyValueNode FourBytes)) (t₀ : TinyValueTrieState FourBytes)
      (calls : List (ValueCall FourBytes)), DerefTable.construct byteLayout X storage = some T₀ →
      TinyValueTrie.create X T₀ = .ok () t₀ →
        (∀ k ∈ calls, k.Ascii) → Agrees X t₀ calls := by
  intro h
  obtain ⟨T₀, t₀, h₀, hcreate, -, hroot, -⟩ := TinyValueTrie.exists_create ones
  have hterm : (t₀.nodes.read t₀.root).terminal = true := by rw [ValueNode.terminal, hroot]; rfl
  have hruns := TinyValueTrie.runs_get_nil (X := oneBucket) t₀
  rw [if_pos hterm] at hruns
  rcases h oneBucket ones T₀ t₀ [.get []] h₀ hcreate
    (by simp [ValueCall.Ascii, ValueCall.word]) with
    ⟨e, t, he⟩ | ⟨answers, t, v, ht, hv, -⟩
  · rw [hruns] at he
    cases he
  · rw [hruns] at ht
    cases ht
    cases hv

/-- Storage in which every byte is zero. -/
def blank : ℕ → ℕ → TinyValueNode FourBytes := fun _ _ => ⟨fun _ => 0, 0, fun _ => .null⟩

/-- Two words are set, one below the other, and the shorter one is removed. -/
def setAndRemove : List (ValueCall FourBytes) :=
  [.get [97, 98], .set [97, 98] fun _ => 7, .set [97, 98, 99] fun _ => 8, .get [97, 98],
    .remove [97, 98], .get [97, 98], .get [97, 98, 99], .remove [97]]

/-- The size and the number of nodes after these calls. -/
def sizes (t₀ : TinyValueTrieState FourBytes) : Option (ℕ × ℕ) :=
  match (tinyValueTrie oneBucket).runs setAndRemove t₀ with
  | .ok _ t => some (t.count, t.nodes.held.length)
  | .error _ _ => none

theorem sizes_blank : (match DerefTable.construct byteLayout oneBucket blank with
    | none => none
    | some T₀ => match TinyValueTrie.create oneBucket T₀ with
      | .ok () t₀ => sizes t₀
      | .error _ _ => none) = some (1, 4) := by
  decide +kernel

/-- On blank storage a run agrees. -/
theorem tinyValueTrie_agrees_blank :
    ∃ (T₀ : Table (TinyValueNode FourBytes)) (t₀ : TinyValueTrieState FourBytes),
      DerefTable.construct byteLayout oneBucket blank = some T₀ ∧
      TinyValueTrie.create oneBucket T₀ = .ok () t₀ ∧ sizes t₀ = some (1, 4) ∧
      Agrees oneBucket t₀ setAndRemove := by
  have hsizes := sizes_blank
  split at hsizes
  next => cases hsizes
  next T₀ h₀ =>
    split at hsizes
    next t₀ hcreate =>
      refine ⟨T₀, t₀, h₀, hcreate, hsizes, tinyValueTrie_agrees h₀ hcreate ?_ (fun s _ =>
        ⟨rfl, fun _ _ => rfl⟩) ?_⟩
      · simp [setAndRemove, ValueCall.Ascii, ValueCall.word]
      · unfold sizes at hsizes
        split at hsizes
        next hruns =>
          rw [hruns]
          obtain ⟨-, hheld⟩ := Prod.mk.inj (Option.some.inj hsizes)
          exact hheld.le.trans (by decide)
        next => cases hsizes
    next => cases hsizes

end Dirty

end TinyPointerTrees
