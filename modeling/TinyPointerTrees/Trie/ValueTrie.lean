import TinyPointerTrees.Trie.ValueMap

/-!
# `ValueTrie`

The trie of values whose nodes are made with `new`, which sets every byte of a
node to zero. Its node store is the heap, as the list of the nodes made; a pointer
is null or the number of a node.

`valueTrie_isMap` — a `ValueTrie` is a finite map: after every run, what it answers
and counts is what the calls of the run say.
-/

namespace TinyPointerTrees

variable {α : Type} [Inhabited α]

/-- `Node()`. -/
def ValueNode.new : ValueNode (Option ℕ) α := ⟨default, 0, fun _ => none⟩

/-- The nodes, and how many there are. -/
structure ValueHeap (α : Type) where
  /-- The nodes made with `new`. -/
  nodes : List (ValueNode (Option ℕ) α)
  /-- `node_cnt`. -/
  nodeCnt : ℕ

/-- `ValueTrie`. A node is made where `node_cnt` is counted up. -/
def valueTrie : NodeStore (ValueHeap α) ℕ (Option ℕ) Unit α where
  null := none
  valid m a := decide (a < m.nodes.length)
  read m a := m.nodes[a]?.getD .new
  write m a n := { m with nodes := m.nodes.set a n }
  allocate _ m := (.ok (some m.nodes.length, m.nodes.length), ⟨m.nodes ++ [.new], m.nodeCnt + 1⟩)
  dereference p _ := p.elim (.error .undefined) .ok
  init := ()
  next _ _ := ()

/-- `ValueTrie()`. -/
def ValueTrie.new : ValueTrieState (ValueHeap α) ℕ := ⟨⟨[.new], 1⟩, 0, 0⟩

/-- `node_count`. -/
def ValueTrie.nodeCount (t : ValueTrieState (ValueHeap α) ℕ) : ℕ := t.nodes.nodeCnt

/-- Every node made is there, and blank at first. -/
def heapSpec : StoreSpec (ValueHeap α) ℕ where
  Inv m := m.nodeCnt = m.nodes.length
  live m a := a < m.nodes.length
  clean _ := True
  size m := m.nodeCnt
  throws := False

theorem valueTrie_lawful : (valueTrie (α := α)).Lawful heapSpec where
  valid h := decide_eq_true h
  inv_write {m a n} h _ := by
    change m.nodeCnt = (m.nodes.set a n).length
    rw [List.length_set]
    exact h
  live_write {m a n b} := by
    change b < (m.nodes.set a n).length ↔ b < m.nodes.length
    rw [List.length_set]
  size_write := rfl
  read_write_self {m a n} h := by
    change ((m.nodes.set a n)[a]?).getD .new = n
    rw [List.getElem?_set_self h]
    rfl
  read_write_ne {m a n b} h := by
    change ((m.nodes.set a n)[b]?).getD .new = (m.nodes[b]?).getD .new
    rw [List.getElem?_set_ne h.symm]
  write_write {m a n n'} := by
    change (⟨(m.nodes.set a n).set a n', m.nodeCnt⟩ : ValueHeap α) = ⟨m.nodes.set a n', m.nodeCnt⟩
    rw [List.set_set]
  live_allocate {m h b} hb := by
    change b < (m.nodes ++ [ValueNode.new]).length
    rw [List.length_append]
    exact Nat.lt_add_right _ hb
  throws ha := by simp [valueTrie] at ha
  allocate {m m' h p a} hinv ha := by
    simp only [valueTrie, Prod.mk.injEq, Except.ok.injEq] at ha
    obtain ⟨⟨rfl, rfl⟩, rfl⟩ := ha
    refine ⟨?_, Nat.lt_irrefl _, fun b => ?_, fun b hb => ?_, rfl, Option.some_ne_none _,
      rfl, fun _ => ?_⟩
    · change m.nodeCnt + 1 = (m.nodes ++ [ValueNode.new]).length
      rw [List.length_append, show m.nodeCnt = m.nodes.length from hinv]
      rfl
    · change b < (m.nodes ++ [ValueNode.new]).length ↔ b = m.nodes.length ∨ b < m.nodes.length
      rw [List.length_append, List.length_singleton]
      omega
    · change ((m.nodes ++ [ValueNode.new])[b]?).getD .new = (m.nodes[b]?).getD .new
      rw [List.getElem?_append_left hb]
    · change (((m.nodes ++ [ValueNode.new])[m.nodes.length]?).getD ValueNode.new).Blank none
      rw [List.getElem?_concat_length]
      exact ⟨rfl, fun _ _ => rfl⟩

/-- A new `ValueTrie` represents the empty map. -/
theorem exists_rep_new : ∃ M, NodeStore.Rep (valueTrie (α := α)) heapSpec ValueTrie.new .empty M :=
  NodeStore.Rep.create (m := ⟨[], 0⟩) 0 (h := ()) valueTrie_lawful rfl rfl rfl fun _ _ => trivial

/-- After a run a `ValueTrie` represents the map after its calls. -/
theorem valueTrie_runs {calls : List (ValueCall α)} (hcalls : ∀ k ∈ calls, k.Ascii) : ∃ t M,
    valueTrie.runs calls ValueTrie.new = .ok (ValueMap.empty.answers calls) t ∧
      NodeStore.Rep (valueTrie (α := α)) heapSpec t (ValueMap.empty.after calls) M := by
  obtain ⟨M, hrep⟩ := exists_rep_new (α := α)
  have hsat := hrep.runs valueTrie_lawful hcalls fun _ _ => trivial
  cases hr : valueTrie.runs calls ValueTrie.new with
  | ok r t =>
    rw [hr] at hsat
    obtain ⟨rfl, M', hrep'⟩ := hsat
    exact ⟨t, M', rfl, hrep'⟩
  | error e t =>
    rw [hr] at hsat
    cases e <;> exact hsat.elim

/-! ### What the calls say -/

/-- The last call that sets `w` sets it to `v`, and no later call removes it. -/
def LastSet (calls : List (ValueCall α)) (w : Word) (v : α) : Prop :=
  ∃ before after, calls = before ++ .set w v :: after ∧
    ∀ k ∈ after, k ≠ .remove w ∧ ∀ u, k ≠ .set w u

omit [Inhabited α] in
/-- One call more. -/
theorem lastSet_concat {calls : List (ValueCall α)} {k : ValueCall α} {w : Word} {v : α} :
    LastSet (calls ++ [k]) w v ↔
      k = .set w v ∨ (k ≠ .remove w ∧ ∀ u, k ≠ .set w u) ∧ LastSet calls w v := by
  constructor
  · rintro ⟨before, after, he, hafter⟩
    rcases after.eq_nil_or_concat' with rfl | ⟨after, k', rfl⟩
    · obtain ⟨-, h⟩ := List.append_inj' he rfl
      exact Or.inl (List.singleton_inj.mp h)
    · rw [← List.cons_append, ← List.append_assoc] at he
      obtain ⟨rfl, h⟩ := List.append_inj' he rfl
      obtain rfl := List.singleton_inj.mp h
      exact Or.inr ⟨hafter _ (by simp), before, after, rfl, fun k' hk' =>
        hafter k' (List.mem_append_left _ hk')⟩
  · rintro (rfl | ⟨hk, before, after, rfl, hafter⟩)
    · exact ⟨calls, [], rfl, by simp⟩
    · refine ⟨before, after ++ [k], by simp, fun k' hk' => ?_⟩
      rcases List.mem_append.mp hk' with hk' | hk'
      · exact hafter k' hk'
      · rwa [List.mem_singleton.mp hk']

/-- The non-empty prefixes of the words that were set. -/
def setPrefixes (calls : List (ValueCall α)) : Set Word :=
  {p | p ≠ [] ∧ ∃ w v, .set w v ∈ calls ∧ p <+: w}

namespace ValueMap

omit [Inhabited α]

variable {calls : List (ValueCall α)} {k : ValueCall α}

theorem after_concat (V : ValueMap α) : V.after (calls ++ [k]) = (V.after calls).effect k := by
  simp [after]

/-- The value of a word is that of the last call that sets it. -/
theorem value_after {w : Word} {v : α} :
    (empty.after calls).value w = some v ↔ LastSet calls w v := by
  induction calls using List.reverseRecOn with
  | nil =>
    constructor
    · intro h
      cases h
    · rintro ⟨before, after, he, -⟩
      simp at he
  | append_singleton calls k ih =>
    rw [lastSet_concat, after_concat, ← ih]
    cases k with
    | set u x =>
      by_cases hu : w = u
      · subst hu
        simp [effect, ValueMap.set]
      · have hu' : u ≠ w := fun e => hu e.symm
        simp [effect, ValueMap.set, hu, hu']
    | remove u =>
      by_cases hu : w = u
      · subst hu
        simp [effect, ValueMap.remove]
      · have hu' : u ≠ w := fun e => hu e.symm
        simp [effect, ValueMap.remove, hu, hu']
    | get u => simp [effect]

/-- The paths are the prefixes of the words that were set, and the empty one. -/
theorem mem_paths_after {p : Word} :
    p ∈ (empty.after calls).paths ↔ p = [] ∨ p ∈ setPrefixes calls := by
  induction calls using List.reverseRecOn with
  | nil => simp [after, empty, setPrefixes]
  | append_singleton calls k ih =>
    rw [after_concat]
    by_cases hp : p = []
    · subst hp
      cases k <;> simp [effect, ValueMap.set, ValueMap.remove, ih]
    · cases k with
      | set u x =>
        simp only [effect, ValueMap.set, Finset.mem_union, mem_prefixes, ih, setPrefixes, hp,
          false_or, Set.mem_ofPred_eq, List.mem_append, List.mem_singleton, ValueCall.set.injEq,
          not_false_eq_true, ne_eq, true_and]
        constructor
        · rintro (⟨w, v, hm, hw⟩ | hu)
          · exact ⟨w, v, Or.inl hm, hw⟩
          · exact ⟨u, x, Or.inr ⟨rfl, rfl⟩, hu⟩
        · rintro ⟨w, v, hm | ⟨rfl, rfl⟩, hw⟩
          · exact Or.inl ⟨w, v, hm, hw⟩
          · exact Or.inr hw
      | remove u => simp [effect, ValueMap.remove, ih, setPrefixes]
      | get u => simp [effect, ih, setPrefixes]

theorem card_paths_after : (empty.after calls).paths.card = 1 + (setPrefixes calls).ncard := by
  have hset : setPrefixes calls = ↑((empty.after calls).paths.erase []) := by
    ext p
    rw [Finset.mem_coe, Finset.mem_erase, mem_paths_after]
    constructor
    · exact fun hp => ⟨hp.1, Or.inr hp⟩
    · rintro ⟨hne, rfl | hp⟩
      · exact absurd rfl hne
      · exact hp
  have hmem : [] ∈ (empty.after calls).paths := mem_paths_after.mpr (Or.inl rfl)
  rw [hset, Set.ncard_coe_finset, Finset.card_erase_of_mem hmem]
  have := Finset.card_pos.mpr ⟨_, hmem⟩
  omega

theorem card_words_after : (empty.after calls).words.card = {w | ∃ v, LastSet calls w v}.ncard := by
  have hset : {w | ∃ v, LastSet calls w v} = ↑(empty.after calls).words := by
    ext w
    rw [Finset.mem_coe, ValueMap.mem_words, Option.isSome_iff_exists]
    simp only [Set.mem_ofPred_eq, value_after]
  rw [hset, Set.ncard_coe_finset]

end ValueMap

/-- The trie is the finite map that the calls say. -/
structure IsMap (calls : List (ValueCall α)) (t : ValueTrieState (ValueHeap α) ℕ) : Prop where
  /-- `get` returns the value set last, if it was not removed. -/
  get : ∀ w, (∀ c ∈ w, c < 128) → ∃ o, valueTrie.get w t = .ok o t ∧
    ∀ v, o = some v ↔ LastSet calls w v
  /-- `set` returns true if there was none. -/
  set : ∀ w v, (∀ c ∈ w, c < 128) → ∃ b t', valueTrie.set w v t = .ok b t' ∧
    (b = true ↔ ¬ ∃ u, LastSet calls w u)
  /-- `remove` returns true if there was one. -/
  remove : ∀ w, (∀ c ∈ w, c < 128) → ∃ b t', valueTrie.remove w t = .ok b t' ∧
    (b = true ↔ ∃ u, LastSet calls w u)
  size : t.count = {w | ∃ v, LastSet calls w v}.ncard
  nodeCount : ValueTrie.nodeCount t = 1 + (setPrefixes calls).ncard

/-- A `ValueTrie` is a finite map: every run returns, and leaves the map that its calls say. -/
theorem valueTrie_isMap {calls : List (ValueCall α)} (hcalls : ∀ k ∈ calls, k.Ascii) :
    ∃ answers t, valueTrie.runs calls ValueTrie.new = .ok answers t ∧ IsMap calls t := by
  obtain ⟨t, M, hruns, hrep⟩ := valueTrie_runs hcalls
  have hhas : ∀ w, ((ValueMap.empty.after calls).value w).isSome = true ↔ ∃ u, LastSet calls w u :=
    fun w => by
    rw [Option.isSome_iff_exists]
    exact exists_congr fun u => ValueMap.value_after
  refine ⟨_, t, hruns, fun w hw => ?_, fun w v hw => ?_, fun w hw => ?_, ?_, ?_⟩
  · exact ⟨_, hrep.get_eq valueTrie_lawful hw, fun v => ValueMap.value_after⟩
  · have hsat := hrep.set_sat valueTrie_lawful hw v fun _ _ => trivial
    cases hr : valueTrie.set w v t with
    | ok b t' =>
      rw [hr] at hsat
      refine ⟨b, t', rfl, ?_⟩
      rw [hsat.1, ← hhas, Option.isNone_iff_eq_none, Bool.not_eq_true, Option.isSome_eq_false_iff,
        Option.isNone_iff_eq_none]
    | error e t' =>
      rw [hr] at hsat
      cases e <;> exact hsat.elim
  · obtain ⟨t', -, hr, -⟩ := hrep.remove_eq valueTrie_lawful hw
    exact ⟨_, t', hr, hhas w⟩
  · rw [hrep.count, ValueMap.card_words_after]
  · rw [← ValueMap.card_paths_after, ← hrep.size]
    rfl

/-- Two words that share a node, one of which is removed. -/
theorem valueTrie_isMap_share :
    ∃ answers t, valueTrie.runs [.set [97, 98] 1, .set [97] 2, .remove [97, 98], .set [] 3]
      ValueTrie.new = .ok answers t ∧ IsMap (α := ℕ) [.set [97, 98] 1, .set [97] 2,
      .remove [97, 98], .set [] 3] t :=
  valueTrie_isMap (by simp [ValueCall.Ascii, ValueCall.word])

end TinyPointerTrees
