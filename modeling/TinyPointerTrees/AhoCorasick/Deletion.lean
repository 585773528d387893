import TinyPointerTrees.AhoCorasick.Construction
import TinyPointerTrees.Library.TreeDeletion

/-!
# What an automaton allocates and deletes

`Node::deleteChildren` and the destructor of `Automaton`. The nodes that have been
deleted are listed, the last one first, and nothing is the answer when one of them is
read or deleted again.

`destroy_exact` — `Create` allocates one node for each prefix of a word, however many
words have it, and the destructor deletes each of these nodes, and none twice, and reads
none that it has deleted.
-/

namespace TinyPointerTrees.AhoCorasick

open Automaton TreeDeletion

namespace Automaton

/-- The children of the nodes, in the order of the array. The array is left as it is. -/
def childLinks : Links Automaton ℕ UInt8 where
  keys := allBytes
  child A i c := (A.nodes i).children c
  unlink _ _ A _ := some A

/-- `deleteChildren`, when the nodes `deleted` have been deleted. -/
def deleteChildren (A : Automaton) (fuel node : ℕ) (deleted : List ℕ) : Option (List ℕ) :=
  (deleteBelow childLinks fuel node (A, deleted)).map Prod.snd

/-- `root->deleteChildren(); delete root;`. -/
def destroy (A : Automaton) (fuel : ℕ) (deleted : List ℕ) : Option (List ℕ) := do
  let deleted ← A.deleteChildren fuel 0 deleted
  if 0 ∈ deleted then none else some (0 :: deleted)

end Automaton

/-! ### Deletion -/

section Deletion

variable {n fuel : ℕ} {label : ℕ → List UInt8} {A : Automaton}

theorem childLinks_lawful : childLinks.Lawful where
  nodup := nodup_allBytes
  unlink _ _ A _ _ := ⟨A, rfl, fun _ _ _ => rfl⟩

/-- The nodes are on the paths that their labels are. -/
theorem Shape.placed (h : Shape n label A) : Placed childLinks fun u i => i < n ∧ label i = u where
  path hp hq := hp.2.symm.trans hq.2
  node hi hj := h.inj _ _ hi.1 hj.1 (hi.2.trans hj.2.symm)
  parent {p c j} hj := by
    refine ⟨mem_allBytes c, ?_⟩
    have htake := h.take_mem hj.1 p.length
    rw [hj.2, List.take_left] at htake
    exact mem_paths.mp htake

/-- The destructor deletes every node once. -/
theorem destroy_spec (h : Shape n label A) (hfuel : n ≤ fuel) :
    ∃ deleted, A.destroy fuel [] = some deleted ∧ deleted.Nodup ∧ ∀ i, i ∈ deleted ↔ i < n := by
  have hbound : ∀ u i, i < n ∧ label i = u → u.length < n := by
    rintro u i ⟨hi, rfl⟩
    exact length_lt_size h hi
  have hlinked : Linked childLinks (fun u i => i < n ∧ label i = u) A [] := by
    rintro u i - ⟨hi, rfl⟩ c - j
    exact h.child i c j hi
  obtain ⟨⟨A', deleted⟩, hrun, hnd, hmem⟩ :=
    deleteBelow_root childLinks_lawful h.placed hbound hfuel ⟨h.pos, h.root⟩ hlinked
  have hzero : 0 ∉ deleted := fun h0 => ((hmem 0).mp h0).1 rfl
  refine ⟨0 :: deleted, by simp [destroy, deleteChildren, hrun, hzero], List.nodup_cons.mpr ⟨hzero,
    hnd⟩, fun i => ?_⟩
  rw [List.mem_cons, hmem]
  constructor
  · rintro (rfl | ⟨-, u, hi, -⟩)
    · exact h.pos
    · exact hi
  · intro hi
    by_cases h0 : i = 0
    · exact Or.inl h0
    · exact Or.inr ⟨h0, label i, hi, rfl⟩

/-- The labels are different, so there are as many as nodes. -/
theorem Shape.card_paths (h : Shape n label A) : (paths n label).card = n := by
  have hinj : Set.InjOn label (Finset.range n : Set ℕ) := fun i hi j hj hlab =>
    h.inj i j (by simpa using hi) (by simpa using hj) hlab
  rw [paths, Finset.card_image_of_injOn hinj, Finset.card_range]

end Deletion

/-- The prefixes of the words, with the empty one. -/
def prefixes (words : List (List UInt8)) : Finset (List UInt8) :=
  ([] :: words.flatMap List.inits).toFinset

theorem mem_prefixes {words : List (List UInt8)} {u : List UInt8} :
    u ∈ prefixes words ↔ u = [] ∨ ∃ w ∈ words, u <+: w := by
  simp [prefixes]

/-- `Create` allocates a node for each prefix of a word, and no other. The destructor deletes each
node once, and reads none that has been deleted. -/
theorem destroy_exact (words : List (List UInt8)) (hw : ∀ w ∈ words, w.length < 2 ^ 31) (fuel : ℕ)
    (hfuel : (words.map List.length).sum < fuel) :
    ∃ A, create fuel words = some A ∧ A.size = (prefixes words).card ∧ ∀ depth ≥ A.size, ∃ deleted,
      A.destroy depth [] = some deleted ∧ deleted.Nodup ∧ ∀ i, i ∈ deleted ↔ i < A.size := by
  obtain ⟨A, n, label, hcreate, -, hbuilt, hpaths⟩ := create_paths hw hfuel
  have hsize := hbuilt.shape.size
  subst hsize
  have heq : paths A.size label = prefixes words := by
    ext u
    rw [hpaths, mem_prefixes]
  exact ⟨A, hcreate, heq ▸ hbuilt.shape.card_paths.symm, fun depth hdepth =>
    destroy_spec hbuilt.shape hdepth⟩

/-- The words "he", "her" and "she". -/
theorem destroy_exact_her :
    ∃ A, create 9 [[104, 101], [104, 101, 114], [115, 104, 101]] = some A ∧
      A.size = (prefixes [[104, 101], [104, 101, 114], [115, 104, 101]]).card ∧ ∀ depth ≥ A.size,
      ∃ deleted, A.destroy depth [] = some deleted ∧ deleted.Nodup ∧
      ∀ i, i ∈ deleted ↔ i < A.size :=
  destroy_exact [[104, 101], [104, 101, 114], [115, 104, 101]] (by decide) 9 (by decide)

end TinyPointerTrees.AhoCorasick
