import TinyPointerTrees.Trie.Runs

/-!
# `TinyTrie`

The trie whose nodes are addressed by the hash of their path. `remove` clears what
says that the word is stored, and frees no node.

`tinyTrie_isSet` — a `TinyTrie` is a set of words.
-/

namespace TinyPointerTrees

open PathTrie TrieM

namespace TinyTrie

/-- The hash values of a child are the two hashes of its path. -/
def hashing : Hashing where
  init := (djb2HashInit, sdbmHashInit)
  next c h := djb2SdbmHash c h
  child h _ c := djb2SdbmHash c h

/-- `remove`. -/
def remove (X : BucketIndexer) (w : Word) : TrieM Bool := do
  match w.getLast? with
  | none => removeAt (← get).root
  | some c =>
    match ← getParentNode X hashing w with
    | none => return false
    | some (curNode, h) =>
      let i ← charIndex c
      let n ← load curNode
      if n.nodes i = .null then return false
      else if n.nodes i = .tagged then
        store curNode (n.setNode i .null)
        subCount 1
        return true
      else
        let node ← dereference X (n.nodes i) (hashing.child h curNode c)
        removeAt node

theorem remove_spec {X : BucketIndexer} {t : Trie} {T : PathTrie UInt8} {M : Word → Option Slot}
    {w : Word} (hw : ∀ c ∈ w, c < 128) (h : Rep X hashing t T M) :
    ∃ b t', remove X w t = .ok b t' ∧ Removed X hashing False t T w b t' := by
  rcases w.eq_nil_or_concat' with rfl | ⟨p, c, rfl⟩
  · obtain ⟨b, t', ht', hrem⟩ := removeAt_spec h h.root
    refine ⟨b, t', ?_, hrem⟩
    simp only [remove, List.getLast?_nil]
    rw [bind_ok get_ok, ht']
  · have hc : c < 128 := hw c (by simp)
    simp only [remove, List.getLast?_append, List.getLast?_singleton, Option.some_or]
    rw [bind_ok (getParentNode_eq hw h), List.dropLast_concat]
    cases hp : M p with
    | none =>
      refine ⟨false, t, rfl, removed_of_notMem h ?_⟩
      simpa using h.not_mem_words (q := []) (c := c) hp
    | some s =>
      have hs := h.held p s hp
      simp only [Option.map_some]
      rw [bind_ok (charIndex_ok hc), bind_ok (load_ok hs)]
      obtain ⟨n, hn⟩ := h.exists_node hp
      cases hpc : M (p ++ [c]) with
      | none =>
        have hmem := h.mem_words_of_none hp hpc
        rcases h.entry_none hp hpc with he | he
        · refine ⟨false, t, by simp only [he, if_true]; rfl, removed_of_notMem h ?_⟩
          simp [hmem, he, TinyPtr.null_ne_tagged]
        · -- the word is stored by the tag
          simp only [he, TinyPtr.null_ne_tagged.symm, if_false, if_true]
          rw [bind_ok (store_ok hs _)]
          refine ⟨true, _, rfl, by simp [hmem, he], rfl, _, M,
            (h.setNull hp hn hpc).with_count _, ?_, by simp⟩
          ext w
          rw [words_untag hn (h.kid_eq_none.mp hpc)]
          exact and_comm
      | some s' =>
        obtain ⟨h₀, h₁, hslot⟩ := h.entry_some hp hpc
        obtain ⟨b, t', ht', hrem⟩ := removeAt_spec h hpc
        refine ⟨b, t', ?_, hrem⟩
        simp only [h₀, h₁, if_false]
        rw [bind_ok (dereference_ok h₀ h₁)]
        exact hslot ▸ ht'

end TinyTrie

/-- `TinyTrie`. -/
def tinyTrie : TrieClass := ⟨TinyTrie.hashing, TinyTrie.remove⟩

theorem TinyTrie.removeCorrect : tinyTrie.RemoveCorrect False := fun _ _ _ _ _ => remove_spec

/-- A `TinyTrie` is a set of words, after every run on every table. -/
theorem tinyTrie_isSet {X : BucketIndexer} {thrown : Bool} {t : Trie} {S : Finset Word}
    (h : tinyTrie.Reach X thrown t S) : tinyTrie.IsSet X t S :=
  h.isSet TinyTrie.removeCorrect

/-- After a removal and an insertion that throws. -/
theorem tinyTrie_isSet_thrown :
    ∃ t t' e t'', tinyTrie.Reach oneBucket false t {[97, 98], [97, 98, 99]} ∧
      tinyTrie.run oneBucket (.remove [97, 98, 99]) t = .ok true t' ∧
      tinyTrie.run oneBucket (.insert longWord) t' = .error (.overflow e) t'' ∧
      tinyTrie.Reach oneBucket true t'' {[97, 98]} ∧ tinyTrie.IsSet oneBucket t'' {[97, 98]} := by
  obtain ⟨t, t', h, hrun, -, -, -, e, t'', hover, hthrown⟩ :=
    TrieClass.exists_removed TinyTrie.removeCorrect
      (by decide +kernel : tinyTrie.removed = some (3, true, 3))
  exact ⟨t, t', e, t'', h, hrun, hover, hthrown, tinyTrie_isSet hthrown⟩

end TinyPointerTrees
