import Mathlib.Data.List.Sort
import TinyPointerTrees.Trie.NodeCounts

/-!
# Tries that are created from a list of words

`BulkCreate` and `BulkCreateUnsorted` of the two tries of words: a table for as many
nodes as `compute_node_counts` predicts, and an `insert` for each word.

`tries_bulkCreateUnsorted` — whatever the order of the words and however often each is
there, the table is for as many entries as the words have prefixes, and what is created
is the set of the words, in a state that calls of `insert` reach as well, with a node
for the root and for each proper prefix that is not empty.
-/

namespace TinyPointerTrees

open PathTrie TrieM Prefixes

namespace TrieClass

variable (C : TrieClass) (indexer : ℕ → BucketIndexer) (storage : ℕ → ℕ → TrieNode)

/-- `BulkCreate`. The list is sorted, as an assertion says. -/
def bulkCreate (sortedWords : List Word) : Option (EStateM.Result Fault Trie Unit) := do
  let nodeCounts ← computeNodeCounts sortedWords
  let X := indexer (∑ i, nodeCounts i)
  let T ← DerefTable.construct byteLayout X storage
  match Trie.create X T with
  | .ok () t => return insertAll X C.hashing sortedWords t
  | .error e t => return .error e t

/-- `BulkCreateUnsorted`. -/
def bulkCreateUnsorted (words : List Word) : Option (EStateM.Result Fault Trie Unit) :=
  C.bulkCreate indexer storage (words.mergeSort (· ≤ ·))

variable {C indexer storage} {X : BucketIndexer} {t t' : Trie} {S : Finset Word} {prunes : Prop}
  {words : List Word}

/-- Words that are inserted one after the other, as in any other run. -/
theorem Reach.insertAll {thrown : Bool} (h : C.Reach X thrown t S)
    (hw : ∀ w ∈ words, ∀ c ∈ w, c < 128) (hr : TrieM.insertAll X C.hashing words t = .ok () t') :
    C.Reach X thrown t' (S ∪ words.toFinset) := by
  induction words generalizing t S with
  | nil =>
    cases hr
    rwa [List.toFinset_nil, Finset.union_empty]
  | cons w words ih =>
    rw [TrieM.insertAll] at hr
    cases hi : TrieM.insert X C.hashing w t with
    | ok b t₁ =>
      rw [bind_ok hi] at hr
      have h₁ := h.call (k := .insert w) (hw w List.mem_cons_self) hi
      rw [List.toFinset_cons, Finset.union_insert, ← Finset.insert_union]
      exact ih h₁ (fun v hv => hw v (List.mem_cons_of_mem _ hv)) hr
    | error e t₁ =>
      rw [bind_error hi] at hr
      cases hr

/-- What has been created from a list of words. -/
structure Created (C : TrieClass) (X : BucketIndexer) (words : List Word) (t : Trie) : Prop where
  reach : C.Reach X false t words.toFinset
  isSet : C.IsSet X t words.toFinset
  nodes : t.table.held.length = 1 + (properPrefixes words.toFinset).card

/-- The counts are those of the prefixes. -/
theorem sum_fills (S : Finset Word) : ∑ i, fills S [] i = (below S []).card := by
  rw [← sum_fanouts 257 fun q _ => card_nexts_lt S q]
  exact Fin.sum_univ_eq_sum_range (fun n => fanouts S [] n) 257

variable (indexer storage) in
/-- `BulkCreate` creates the set of the words, unless an `insert` throws because the table is
full. -/
theorem bulkCreate_sat (hC : C.RemoveCorrect prunes) (hs : words.Pairwise (· ≤ ·))
    (hw : ∀ w ∈ words, ∀ c ∈ w, c < 128) :
    ∃ r, C.bulkCreate indexer storage words = some r ∧
      Sat r (fun _ t => C.Created (indexer (below words.toFinset []).card) words t)
        (Full (indexer (below words.toFinset []).card)) := by
  have hc := computeNodeCounts_fills hs
  rw [← sum_fills]
  generalize hX : indexer (∑ i, fills words.toFinset [] i) = X
  obtain ⟨T₀, t₀, h₀, ht₀⟩ := exists_create (X := X) storage
  have hinv : C.Inv X True t₀ ∅ := inv_create h₀ ht₀
  obtain ⟨-, T, M, hrep, hwords, ht⟩ := hinv
  have htidy := insertAll_sat hw ⟨T, M, hrep, hwords, ht trivial⟩
  rw [Finset.empty_union] at htidy
  refine ⟨TrieM.insertAll X C.hashing words t₀, by simp [bulkCreate, hc, hX, h₀, ht₀], ?_⟩
  cases hr : TrieM.insertAll X C.hashing words t₀ with
  | error e t =>
    rw [hr] at htidy
    cases e <;> exact htidy
  | ok u t =>
    rw [hr] at htidy
    obtain ⟨T', M', hrep', hwords', ht'⟩ := htidy
    have hreach : C.Reach X false t words.toFinset := by
      have := (Reach.create (C := C) h₀ ht₀).insertAll hw hr
      rwa [Finset.empty_union] at this
    exact ⟨hreach, hreach.isSet hC, hrep'.length_held_of_tight hwords' ht'⟩

/-- So does `BulkCreateUnsorted`, from any list. -/
theorem bulkCreateUnsorted_sat (hC : C.RemoveCorrect prunes) (hw : ∀ w ∈ words, ∀ c ∈ w, c < 128) :
    ∃ r, C.bulkCreateUnsorted indexer storage words = some r ∧
      Sat r (fun _ t => C.Created (indexer (below words.toFinset []).card) words t)
        (Full (indexer (below words.toFinset []).card)) := by
  have hperm := List.mergeSort_perm words (fun u v => decide (u ≤ v))
  have hset : (words.mergeSort (· ≤ ·)).toFinset = words.toFinset :=
    List.toFinset_eq_of_perm _ _ hperm
  obtain ⟨r, hr, hsat⟩ := bulkCreate_sat indexer storage hC (List.pairwise_mergeSort' (· ≤ ·) words)
    fun w hmem => hw w (hperm.mem_iff.mp hmem)
  rw [hset] at hsat
  refine ⟨r, hr, hsat.mono (fun _ t h => ?_) fun _ => id⟩
  obtain ⟨hreach, hisSet, hnodes⟩ := h
  rw [hset] at hreach hisSet hnodes
  exact ⟨hreach, hisSet, hnodes⟩

end TrieClass

/-- `BulkCreate` is the same for both tries. -/
example : tinyTrie.bulkCreate = TinyTrie.bulkCreate := rfl

/-- Both tries of words are created from any list of words, unless an `insert` throws because the
table is full. -/
theorem tries_bulkCreateUnsorted {words : List Word} (hw : ∀ w ∈ words, ∀ c ∈ w, c < 128)
    (indexer : ℕ → BucketIndexer) (storage : ℕ → ℕ → TrieNode) :
    let X := indexer (below words.toFinset []).card
    (∃ r, tinyTrie.bulkCreateUnsorted indexer storage words = some r ∧
      Sat r (fun _ t => tinyTrie.Created X words t) (Full X)) ∧
    ∀ addr, ∃ r, (tinyTrie2 addr).bulkCreateUnsorted indexer storage words = some r ∧
      Sat r (fun _ t => (tinyTrie2 addr).Created X words t) (Full X) :=
  ⟨TrieClass.bulkCreateUnsorted_sat TinyTrie.removeCorrect hw,
    fun addr => TrieClass.bulkCreateUnsorted_sat (TinyTrie2.removeCorrect addr) hw⟩

/-- Four words that are not sorted, one of them twice, in a table of one bucket. -/
theorem tries_bulkCreateUnsorted_four :
    (∃ r, tinyTrie.bulkCreateUnsorted (fun _ => oneBucket) (fun _ _ => TrieNode.new)
        [[98], [97, 98], [97], [98]] = some r ∧
      Sat r (fun _ t => tinyTrie.Created oneBucket [[98], [97, 98], [97], [98]] t)
        (Full oneBucket)) ∧
    ∀ addr, ∃ r, (tinyTrie2 addr).bulkCreateUnsorted (fun _ => oneBucket)
        (fun _ _ => TrieNode.new) [[98], [97, 98], [97], [98]] = some r ∧
      Sat r (fun _ t => (tinyTrie2 addr).Created oneBucket [[98], [97, 98], [97], [98]] t)
        (Full oneBucket) :=
  tries_bulkCreateUnsorted (by decide +kernel) (fun _ => oneBucket) fun _ _ => TrieNode.new

end TinyPointerTrees
