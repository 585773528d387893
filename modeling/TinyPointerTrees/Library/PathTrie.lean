import Mathlib.Data.Set.Finite.Lattice
import Mathlib.Tactic

/-!
# Tries with tagged edges

A trie over an alphabet `κ`, by its paths: which paths have a node, and what the
node there says. A word is stored in one of two ways, by a flag of the node at
its path, or, when there is no node at its path, by a tag on the last edge.

`PathTrie` carries what makes this a trie: there is a root, a node's parent is a
node, a tagged edge leads to no node, and there are finitely many nodes. Its
operations tag and untag an edge, set a flag, replace a tag by a flagged node
(`grow`), and replace a node without children by a tag or by nothing (`prune`).

* `words_tag`, `words_untag`, `words_setFlag`, `words_grow`, `words_prune` — what
  they do to the words stored.
* `isSome_iff` — in a trie in which every node but the root leads somewhere, the
  nodes are at the proper prefixes of the words.
* `eq_of_words_eq` — such a trie is determined by its words.
-/

/-- What a node says: whether its own path is a word, and which edges are tagged. -/
@[ext] structure PathNode (κ : Type*) where
  /-- The path of the node is a word. -/
  flag : Prop
  /-- The path of the node, and one of these, is a word. -/
  tagged : Set κ

/-- A trie. -/
structure PathTrie (κ : Type*) where
  /-- The node at a path. -/
  node : List κ → Option (PathNode κ)
  root : (node []).isSome
  closed : ∀ p c, (node (p ++ [c])).isSome → (node p).isSome
  tag_leaf : ∀ p c n, node p = some n → c ∈ n.tagged → node (p ++ [c]) = none
  finite : {p | (node p).isSome}.Finite

namespace PathTrie

variable {κ : Type*} (T : PathTrie κ) {p q w : List κ} {c d : κ} {n m : PathNode κ}

/-- The words stored. -/
def Words : Set (List κ) :=
  {w | (∃ n, T.node w = some n ∧ n.flag) ∨ ∃ p c n, w = p ++ [c] ∧ T.node p = some n ∧ c ∈ n.tagged}

theorem mem_words :
    w ∈ T.Words ↔ (∃ n, T.node w = some n ∧ n.flag) ∨ ∃ p c n, w = p ++ [c] ∧
      T.node p = some n ∧ c ∈ n.tagged :=
  Iff.rfl

theorem nil_mem_words : [] ∈ T.Words ↔ ∃ n, T.node [] = some n ∧ n.flag := by
  rw [mem_words]
  constructor
  · rintro (h | ⟨p, c, n, he, -⟩)
    · exact h
    · simp at he
  · exact Or.inl

theorem append_mem_words : p ++ [c] ∈ T.Words ↔
    (∃ n, T.node (p ++ [c]) = some n ∧ n.flag) ∨ ∃ n, T.node p = some n ∧ c ∈ n.tagged := by
  rw [mem_words]
  refine or_congr Iff.rfl ⟨?_, fun ⟨n, h⟩ => ⟨p, c, n, rfl, h⟩⟩
  rintro ⟨q, d, n, he, h⟩
  obtain ⟨rfl, hcd⟩ := List.append_inj' he rfl
  exact ⟨n, List.singleton_inj.mp hcd ▸ h⟩

/-- A path with a node has nodes all along. -/
theorem isSome_of_append (h : (T.node (p ++ q)).isSome) : (T.node p).isSome := by
  induction q using List.reverseRecOn with
  | nil => simpa using h
  | append_singleton q c ih =>
    rw [← List.append_assoc] at h
    exact ih (T.closed _ _ h)

theorem append_singleton_ne (p : List κ) (c : κ) : p ++ [c] ≠ p := by simp

/-! ### Operations -/

/-- The trie that stores nothing. -/
def empty : PathTrie κ where
  node
    | [] => some ⟨False, ∅⟩
    | _ :: _ => none
  root := rfl
  closed p c h := by cases p <;> cases h
  tag_leaf p c n _ _ := by cases p <;> rfl
  finite := by
    refine (Set.finite_singleton []).subset fun p hp => ?_
    cases p with
    | nil => rfl
    | cons c p => cases hp

theorem node_empty_nil : (empty : PathTrie κ).node [] = some ⟨False, ∅⟩ := rfl

theorem node_empty_ne (h : p ≠ []) : (empty : PathTrie κ).node p = none := by
  cases p with
  | nil => exact absurd rfl h
  | cons c p => rfl

theorem words_empty : (empty : PathTrie κ).Words = ∅ := by
  ext w
  rw [mem_words]
  simp only [Set.mem_empty_iff_false, iff_false]
  rintro (⟨n, hn, hf⟩ | ⟨p, c, n, -, hn, hc⟩)
  · by_cases hw : w = []
    · subst hw
      rw [node_empty_nil, Option.some.injEq] at hn
      subst hn
      exact hf
    · rw [node_empty_ne hw] at hn
      cases hn
  · by_cases hp : p = []
    · subst hp
      rw [node_empty_nil, Option.some.injEq] at hn
      subst hn
      exact hc
    · rw [node_empty_ne hp] at hn
      cases hn

section Operations

variable [DecidableEq κ]

/-- Another node at a path that has one. Its new tags are on edges that lead nowhere. -/
def replace (p : List κ) (m : PathNode κ) (hp : (T.node p).isSome)
    (hm : ∀ c ∈ m.tagged, T.node (p ++ [c]) = none) : PathTrie κ where
  node := Function.update T.node p (some m)
  root := by
    by_cases h : p = []
    · subst h
      simp
    · simpa [Function.update_of_ne (Ne.symm h)] using T.root
  closed q c h := by
    by_cases hq : q = p
    · subst hq
      simp
    · rw [Function.update_of_ne hq]
      by_cases hqc : q ++ [c] = p
      · exact T.closed q c (hqc ▸ hp)
      · exact T.closed q c (by rwa [Function.update_of_ne hqc] at h)
  tag_leaf q c n hq hc := by
    have hnone : T.node (q ++ [c]) = none := by
      by_cases h : q = p
      · subst h
        simp only [Function.update_self, Option.some.injEq] at hq
        subst hq
        exact hm c hc
      · rw [Function.update_of_ne h] at hq
        exact T.tag_leaf q c n hq hc
    have hne : q ++ [c] ≠ p := by
      rintro rfl
      simp [hnone] at hp
    rwa [Function.update_of_ne hne]
  finite := by
    refine (T.finite.insert p).subset fun q hq => ?_
    by_cases h : q = p
    · exact Or.inl h
    · refine Or.inr ?_
      have hq' : (Function.update T.node p (some m) q).isSome := hq
      rwa [Function.update_of_ne h] at hq'

variable {T}

theorem node_replace_self {hp hm} : (T.replace p m hp hm).node p = some m := Function.update_self ..

theorem node_replace_ne {hp hm} (h : q ≠ p) : (T.replace p m hp hm).node q = T.node q :=
  Function.update_of_ne h ..

theorem isSome_replace {hp hm} : ((T.replace p m hp hm).node q).isSome ↔ (T.node q).isSome := by
  by_cases h : q = p
  · subst h
    simp [node_replace_self, hp]
  · rw [node_replace_ne h]

/-- What is stored after a node is replaced. -/
theorem words_replace {hp hm} : w ∈ (T.replace p m hp hm).Words ↔
    (w = p ∧ m.flag) ∨ (∃ c ∈ m.tagged, w = p ++ [c]) ∨
      (w ≠ p ∧ ∃ n, T.node w = some n ∧ n.flag) ∨
        ∃ q c n, q ≠ p ∧ w = q ++ [c] ∧ T.node q = some n ∧ c ∈ n.tagged := by
  rw [mem_words]
  constructor
  · rintro (⟨n, hn, hf⟩ | ⟨q, c, n, rfl, hn, hc⟩)
    · by_cases h : w = p
      · subst h
        rw [node_replace_self, Option.some.injEq] at hn
        exact Or.inl ⟨rfl, hn ▸ hf⟩
      · rw [node_replace_ne h] at hn
        exact Or.inr (Or.inr (Or.inl ⟨h, n, hn, hf⟩))
    · by_cases h : q = p
      · subst h
        rw [node_replace_self, Option.some.injEq] at hn
        exact Or.inr (Or.inl ⟨c, hn ▸ hc, rfl⟩)
      · rw [node_replace_ne h] at hn
        exact Or.inr (Or.inr (Or.inr ⟨q, c, n, h, rfl, hn, hc⟩))
  · rintro (⟨rfl, hf⟩ | ⟨c, hc, rfl⟩ | ⟨h, n, hn, hf⟩ | ⟨q, c, n, h, rfl, hn, hc⟩)
    · exact Or.inl ⟨m, node_replace_self, hf⟩
    · exact Or.inr ⟨p, c, m, rfl, node_replace_self, hc⟩
    · exact Or.inl ⟨n, (node_replace_ne h).trans hn, hf⟩
    · exact Or.inr ⟨q, c, n, rfl, (node_replace_ne h).trans hn, hc⟩

/-- A new node at the end of an edge that leads nowhere. -/
def add (T : PathTrie κ) (p : List κ) (c : κ) (f : Prop) (hp : T.node p = some n)
    (hc : c ∉ n.tagged) (hnone : T.node (p ++ [c]) = none) : PathTrie κ where
  node := Function.update T.node (p ++ [c]) (some ⟨f, ∅⟩)
  root := by
    rw [Function.update_of_ne (by simp)]
    exact T.root
  closed q d h := by
    by_cases hq : q = p ++ [c]
    · subst hq
      simp
    · rw [Function.update_of_ne hq]
      by_cases hqd : q ++ [d] = p ++ [c]
      · obtain ⟨rfl, -⟩ := List.append_inj' hqd rfl
        simp [hp]
      · exact T.closed q d (by rwa [Function.update_of_ne hqd] at h)
  tag_leaf q d m hq hd := by
    by_cases hqc : q = p ++ [c]
    · subst hqc
      simp only [Function.update_self, Option.some.injEq] at hq
      subst hq
      cases hd
    · rw [Function.update_of_ne hqc] at hq
      have hne : q ++ [d] ≠ p ++ [c] := by
        intro he
        obtain ⟨rfl, hdc⟩ := List.append_inj' he rfl
        rw [hp, Option.some.injEq] at hq
        subst hq
        exact hc (List.singleton_inj.mp hdc ▸ hd)
      rw [Function.update_of_ne hne]
      exact T.tag_leaf q d m hq hd
  finite := by
    refine (T.finite.insert (p ++ [c])).subset fun q hq => ?_
    by_cases h : q = p ++ [c]
    · exact Or.inl h
    · refine Or.inr ?_
      have hq' : (Function.update T.node (p ++ [c]) (some ⟨f, ∅⟩) q).isSome := hq
      rwa [Function.update_of_ne h] at hq'

/-- No node at the end of an edge, where there was one without children. -/
def remove (T : PathTrie κ) (p : List κ) (c : κ) (hc : ∀ d, T.node (p ++ [c] ++ [d]) = none) :
    PathTrie κ where
  node := Function.update T.node (p ++ [c]) none
  root := by
    rw [Function.update_of_ne (by simp)]
    exact T.root
  closed q d h := by
    by_cases hqd : q ++ [d] = p ++ [c]
    · rw [hqd] at h
      simp at h
    · rw [Function.update_of_ne hqd] at h
      have hne : q ≠ p ++ [c] := by
        rintro rfl
        rw [hc d] at h
        cases h
      rw [Function.update_of_ne hne]
      exact T.closed q d h
  tag_leaf q d m hq hd := by
    by_cases hqd : q ++ [d] = p ++ [c]
    · rw [hqd, Function.update_self]
    · rw [Function.update_of_ne hqd]
      by_cases hqc : q = p ++ [c]
      · subst hqc
        simp at hq
      · rw [Function.update_of_ne hqc] at hq
        exact T.tag_leaf q d m hq hd
  finite := by
    refine T.finite.subset fun q hq => ?_
    have hq' : (Function.update T.node (p ++ [c]) none q).isSome := hq
    by_cases h : q = p ++ [c]
    · subst h
      simp at hq'
    · rwa [Function.update_of_ne h] at hq'

variable {f : Prop} {hp : T.node p = some n} {hc : c ∉ n.tagged} {hnone : T.node (p ++ [c]) = none}

theorem node_add_self : (T.add p c f hp hc hnone).node (p ++ [c]) = some ⟨f, ∅⟩ :=
  Function.update_self ..

theorem node_add_ne (h : q ≠ p ++ [c]) : (T.add p c f hp hc hnone).node q = T.node q :=
  Function.update_of_ne h ..

theorem words_add : w ∈ (T.add p c f hp hc hnone).Words ↔ (w = p ++ [c] ∧ f) ∨ w ∈ T.Words := by
  rw [mem_words, mem_words]
  constructor
  · rintro (⟨m, hm, hf⟩ | ⟨q, d, m, rfl, hm, hd⟩)
    · by_cases h : w = p ++ [c]
      · subst h
        rw [node_add_self, Option.some.injEq] at hm
        subst hm
        exact Or.inl ⟨rfl, hf⟩
      · rw [node_add_ne h] at hm
        exact Or.inr (Or.inl ⟨m, hm, hf⟩)
    · by_cases h : q = p ++ [c]
      · subst h
        rw [node_add_self, Option.some.injEq] at hm
        subst hm
        cases hd
      · rw [node_add_ne h] at hm
        exact Or.inr (Or.inr ⟨q, d, m, rfl, hm, hd⟩)
  · rintro (⟨rfl, hf⟩ | ⟨m, hm, hf⟩ | ⟨q, d, m, rfl, hm, hd⟩)
    · exact Or.inl ⟨_, node_add_self, hf⟩
    · have h : w ≠ p ++ [c] := by
        rintro rfl
        simp [hnone] at hm
      exact Or.inl ⟨m, (node_add_ne h).trans hm, hf⟩
    · have h : q ≠ p ++ [c] := by
        rintro rfl
        simp [hnone] at hm
      exact Or.inr ⟨q, d, m, rfl, (node_add_ne h).trans hm, hd⟩

theorem node_remove_self {h} : (T.remove p c h).node (p ++ [c]) = none := Function.update_self ..

theorem node_remove_ne {h} (hq : q ≠ p ++ [c]) : (T.remove p c h).node q = T.node q :=
  Function.update_of_ne hq ..

/-- Removing a node without tags loses at most its own path. -/
theorem words_remove {h} (hm : T.node (p ++ [c]) = some m) (ht : m.tagged = ∅) :
    w ∈ (T.remove p c h).Words ↔ w ≠ p ++ [c] ∧ w ∈ T.Words := by
  rw [mem_words, mem_words]
  constructor
  · rintro (⟨n, hn, hf⟩ | ⟨q, d, n, rfl, hn, hd⟩)
    · have hne : w ≠ p ++ [c] := by
        rintro rfl
        simp [node_remove_self] at hn
      exact ⟨hne, Or.inl ⟨n, (node_remove_ne hne).symm.trans hn, hf⟩⟩
    · have hne : q ≠ p ++ [c] := by
        rintro rfl
        simp [node_remove_self] at hn
      rw [node_remove_ne hne] at hn
      refine ⟨fun he => ?_, Or.inr ⟨q, d, n, rfl, hn, hd⟩⟩
      have := T.tag_leaf q d n hn hd
      rw [he, hm] at this
      cases this
  · rintro ⟨hne, ⟨n, hn, hf⟩ | ⟨q, d, n, rfl, hn, hd⟩⟩
    · exact Or.inl ⟨n, (node_remove_ne hne).trans hn, hf⟩
    · have hq : q ≠ p ++ [c] := by
        rintro rfl
        rw [hm, Option.some.injEq] at hn
        subst hn
        simp [ht] at hd
      exact Or.inr ⟨q, d, n, rfl, (node_remove_ne hq).trans hn, hd⟩

/-! ### What they do to the words -/

theorem words_tag {hs ht} (hn : T.node p = some n) :
    w ∈ (T.replace p { n with tagged := insert c n.tagged } hs ht).Words ↔ w = p ++ [c] ∨
      w ∈ T.Words := by
  rw [words_replace, mem_words]
  constructor
  · rintro (⟨rfl, hf⟩ | ⟨d, rfl | hd, rfl⟩ | ⟨-, h⟩ | ⟨q, d, m, -, h⟩)
    · exact Or.inr (Or.inl ⟨n, hn, hf⟩)
    · exact Or.inl rfl
    · exact Or.inr (Or.inr ⟨p, d, n, rfl, hn, hd⟩)
    · exact Or.inr (Or.inl h)
    · exact Or.inr (Or.inr ⟨q, d, m, h⟩)
  · rintro (rfl | ⟨m, hm, hf⟩ | ⟨q, d, m, rfl, hm, hd⟩)
    · exact Or.inr (Or.inl ⟨c, Or.inl rfl, rfl⟩)
    · by_cases h : w = p
      · subst h
        rw [hn, Option.some.injEq] at hm
        exact Or.inl ⟨rfl, hm ▸ hf⟩
      · exact Or.inr (Or.inr (Or.inl ⟨h, m, hm, hf⟩))
    · by_cases h : q = p
      · subst h
        rw [hn, Option.some.injEq] at hm
        exact Or.inr (Or.inl ⟨d, Or.inr (hm ▸ hd), rfl⟩)
      · exact Or.inr (Or.inr (Or.inr ⟨q, d, m, h, rfl, hm, hd⟩))

theorem words_untag {hs ht} (hn : T.node p = some n) (hnone : T.node (p ++ [c]) = none) :
    w ∈ (T.replace p { n with tagged := n.tagged \ {c} } hs ht).Words ↔ w ≠ p ++ [c] ∧
      w ∈ T.Words := by
  rw [words_replace, mem_words]
  constructor
  · rintro (⟨rfl, hf⟩ | ⟨d, ⟨hd, hdc⟩, rfl⟩ | ⟨h, m, hm, hf⟩ | ⟨q, d, m, h, rfl, hm, hd⟩)
    · exact ⟨by simp, Or.inl ⟨n, hn, hf⟩⟩
    · exact ⟨by simpa using hdc, Or.inr ⟨p, d, n, rfl, hn, hd⟩⟩
    · refine ⟨?_, Or.inl ⟨m, hm, hf⟩⟩
      rintro rfl
      simp [hnone] at hm
    · refine ⟨fun he => ?_, Or.inr ⟨q, d, m, rfl, hm, hd⟩⟩
      exact h (List.append_inj' he rfl).1
  · rintro ⟨hne, ⟨m, hm, hf⟩ | ⟨q, d, m, rfl, hm, hd⟩⟩
    · by_cases h : w = p
      · subst h
        rw [hn, Option.some.injEq] at hm
        exact Or.inl ⟨rfl, hm ▸ hf⟩
      · exact Or.inr (Or.inr (Or.inl ⟨h, m, hm, hf⟩))
    · by_cases h : q = p
      · subst h
        rw [hn, Option.some.injEq] at hm
        refine Or.inr (Or.inl ⟨d, ⟨hm ▸ hd, ?_⟩, rfl⟩)
        rintro rfl
        exact hne rfl
      · exact Or.inr (Or.inr (Or.inr ⟨q, d, m, h, rfl, hm, hd⟩))

theorem words_setFlag {f : Prop} {hs ht} (hn : T.node p = some n) :
    w ∈ (T.replace p { n with flag := f } hs ht).Words ↔ (w = p ∧ f) ∨ (w ≠ p ∧ w ∈ T.Words) := by
  rw [words_replace, mem_words]
  constructor
  · rintro (⟨rfl, hf⟩ | ⟨d, hd, rfl⟩ | ⟨h, m, hm, hf⟩ | ⟨q, d, m, h, rfl, hm, hd⟩)
    · exact Or.inl ⟨rfl, hf⟩
    · exact Or.inr ⟨by simp, Or.inr ⟨p, d, n, rfl, hn, hd⟩⟩
    · exact Or.inr ⟨h, Or.inl ⟨m, hm, hf⟩⟩
    · refine Or.inr ⟨?_, Or.inr ⟨q, d, m, rfl, hm, hd⟩⟩
      rintro rfl
      simp [T.tag_leaf q d m hm hd] at hs
  · rintro (⟨rfl, hf⟩ | ⟨hne, ⟨m, hm, hf⟩ | ⟨q, d, m, rfl, hm, hd⟩⟩)
    · exact Or.inl ⟨rfl, hf⟩
    · exact Or.inr (Or.inr (Or.inl ⟨hne, m, hm, hf⟩))
    · by_cases h : q = p
      · subst h
        rw [hn, Option.some.injEq] at hm
        exact Or.inr (Or.inl ⟨d, hm ▸ hd, rfl⟩)
      · exact Or.inr (Or.inr (Or.inr ⟨q, d, m, h, rfl, hm, hd⟩))

/-- A tag is replaced by a node, which is flagged if there was a tag. -/
def grow (T : PathTrie κ) (p : List κ) (c : κ) (n : PathNode κ) (hn : T.node p = some n)
    (hnone : T.node (p ++ [c]) = none) : PathTrie κ :=
  (T.replace p { n with tagged := n.tagged \ {c} } (by simp [hn]) fun d hd =>
    T.tag_leaf p d n hn hd.1).add p c (c ∈ n.tagged) node_replace_self (by simp)
    ((node_replace_ne (by simp)).trans hnone)

theorem node_grow_self {hn hnone} :
    (T.grow p c n hn hnone).node (p ++ [c]) = some ⟨c ∈ n.tagged, ∅⟩ :=
  node_add_self

theorem node_grow_parent {hn hnone} :
    (T.grow p c n hn hnone).node p = some { n with tagged := n.tagged \ {c} } :=
  (node_add_ne (by simp)).trans node_replace_self

theorem node_grow_ne {hn hnone} (h : q ≠ p) (h' : q ≠ p ++ [c]) :
    (T.grow p c n hn hnone).node q = T.node q :=
  (node_add_ne h').trans (node_replace_ne h)

theorem isSome_grow {hn hnone} :
    ((T.grow p c n hn hnone).node q).isSome ↔ q = p ++ [c] ∨ (T.node q).isSome := by
  by_cases hqc : q = p ++ [c]
  · simp [hqc, node_grow_self]
  · by_cases hqp : q = p
    · simp [hqp, node_grow_parent, hn]
    · simp [node_grow_ne hqp hqc, hqc]

theorem words_grow {hn hnone} : (T.grow p c n hn hnone).Words = T.Words := by
  ext w
  rw [grow, words_add, words_untag hn hnone]
  constructor
  · rintro (⟨rfl, hc⟩ | ⟨-, h⟩)
    · exact (append_mem_words T).mpr (Or.inr ⟨n, hn, hc⟩)
    · exact h
  · intro h
    by_cases hw : w = p ++ [c]
    · subst hw
      rcases (append_mem_words T).mp h with ⟨m, hm, -⟩ | ⟨m, hm, hc⟩
      · simp [hnone] at hm
      · rw [hn, Option.some.injEq] at hm
        exact Or.inl ⟨rfl, hm ▸ hc⟩
    · exact Or.inr ⟨hw, h⟩

/-- A node without children is replaced by nothing, or by a tag if it was flagged. -/
def prune (T : PathTrie κ) (p : List κ) (c : κ) (n m : PathNode κ) (hn : T.node p = some n)
    (hc : ∀ d, T.node (p ++ [c] ++ [d]) = none) : PathTrie κ :=
  (T.remove p c hc).replace p { n with tagged := n.tagged ∪ {d | d = c ∧ m.flag} }
    (by rw [node_remove_ne (by simp)]; simp [hn]) fun d hd => by
      rcases hd with hd | ⟨rfl, -⟩
      · by_cases h : p ++ [d] = p ++ [c]
        · rw [h, node_remove_self]
        · exact (node_remove_ne h).trans (T.tag_leaf p d n hn hd)
      · exact node_remove_self

theorem node_prune_self {hn hc} : (T.prune p c n m hn hc).node (p ++ [c]) = none :=
  (node_replace_ne (by simp)).trans node_remove_self

theorem node_prune_parent {hn hc} :
    (T.prune p c n m hn hc).node p = some { n with tagged := n.tagged ∪ {d | d = c ∧ m.flag} } :=
  node_replace_self

theorem node_prune_ne {hn hc} (h : q ≠ p) (h' : q ≠ p ++ [c]) :
    (T.prune p c n m hn hc).node q = T.node q :=
  (node_replace_ne h).trans (node_remove_ne h')

theorem isSome_prune {hn hc} :
    ((T.prune p c n m hn hc).node q).isSome ↔ (T.node q).isSome ∧ q ≠ p ++ [c] := by
  by_cases hqc : q = p ++ [c]
  · simp [hqc, node_prune_self]
  · by_cases hqp : q = p
    · simp [hqp, node_prune_parent, hn]
    · simp [node_prune_ne hqp hqc, hqc]

theorem words_prune {hn hc} (hm : T.node (p ++ [c]) = some m) (ht : m.tagged = ∅) :
    (T.prune p c n m hn hc).Words = T.Words := by
  have hn' : (T.remove p c hc).node p = some n := (node_remove_ne (by simp)).trans hn
  have hflag : p ++ [c] ∈ T.Words ↔ m.flag := by
    rw [append_mem_words]
    constructor
    · rintro (⟨m', hm', hf⟩ | ⟨n', hn', hc'⟩)
      · rw [hm, Option.some.injEq] at hm'
        exact hm' ▸ hf
      · rw [hn, Option.some.injEq] at hn'
        subst hn'
        simp [T.tag_leaf p c n hn hc'] at hm
    · exact fun hf => Or.inl ⟨m, hm, hf⟩
  ext w
  by_cases hf : m.flag
  · have hset : n.tagged ∪ {d | d = c ∧ m.flag} = insert c n.tagged := by
      ext d
      simp [hf]
    simp only [prune, hset]
    rw [words_tag hn', words_remove hm ht]
    by_cases hw : w = p ++ [c]
    · subst hw
      simp [hflag, hf]
    · simp [hw]
  · have hset : n.tagged ∪ {d | d = c ∧ m.flag} = n.tagged := by simp [hf]
    have hsame : w ∈ (T.prune p c n m hn hc).Words ↔ w ∈ (T.remove p c hc).Words := by
      simp only [prune, hset]
      rw [words_setFlag (f := n.flag) hn']
      by_cases hw : w = p
      · subst hw
        constructor
        · rintro (⟨-, h⟩ | ⟨h, -⟩)
          · exact Or.inl ⟨n, hn', h⟩
          · exact absurd rfl h
        · intro h
          refine Or.inl ⟨rfl, ?_⟩
          rcases h with ⟨n', h, hf'⟩ | ⟨q, d, n', rfl, h, hd⟩
          · rw [hn', Option.some.injEq] at h
            exact h ▸ hf'
          · have := (T.remove _ c hc).tag_leaf q d n' h hd
            rw [hn'] at this
            cases this
      · simp [hw]
    rw [hsame, words_remove hm ht]
    constructor
    · exact And.right
    · intro h
      refine ⟨?_, h⟩
      rintro rfl
      exact hf (hflag.mp h)

end Operations

/-! ### Tight tries -/

variable {T}

/-- Every node but the root has a tagged edge or a child. -/
def Tight (T : PathTrie κ) : Prop :=
  ∀ p c n, T.node (p ++ [c]) = some n → n.tagged.Nonempty ∨ ∃ d, (T.node (p ++ [c] ++ [d])).isSome

theorem tight_empty : (empty : PathTrie κ).Tight := by
  intro p c n hn
  rw [node_empty_ne (by simp)] at hn
  cases hn

/-- Tight, but for the node at `q`. -/
def TightBut (T : PathTrie κ) (q : List κ) : Prop :=
  ∀ p c n, T.node (p ++ [c]) = some n → p ++ [c] ≠ q →
    n.tagged.Nonempty ∨ ∃ d, (T.node (p ++ [c] ++ [d])).isSome

theorem Tight.but (h : T.Tight) (q : List κ) : T.TightBut q := fun p c n hn _ => h p c n hn

theorem TightBut.tight (h : T.TightBut q)
    (hq : q = [] ∨ ∀ n, T.node q = some n → n.tagged.Nonempty ∨ ∃ d, (T.node (q ++ [d])).isSome) :
    T.Tight := by
  intro p c n hn
  by_cases he : p ++ [c] = q
  · subst he
    rcases hq with hq | hq
    · simp at hq
    · exact hq n hn
  · exact h p c n hn he

section Operations

variable [DecidableEq κ]

/-- A node with more tags. -/
theorem Tight.replace {hs hm} (h : T.Tight) (hn : T.node p = some n) (hsub : n.tagged ⊆ m.tagged) :
    (T.replace p m hs hm).Tight := by
  intro q d k hk
  have hchild : (∃ e, (T.node (q ++ [d] ++ [e])).isSome) →
    ∃ e, ((T.replace p m hs hm).node (q ++ [d] ++ [e])).isSome := by
    rintro ⟨e, he⟩
    exact ⟨e, isSome_replace.mpr he⟩
  by_cases hq : q ++ [d] = p
  · have hkm : some m = some k := by rw [← hk, hq, node_replace_self]
    cases hkm
    exact (h q d n (hq ▸ hn)).imp (fun ht => ht.mono hsub) hchild
  · rw [node_replace_ne hq] at hk
    exact (h q d k hk).imp_right hchild

theorem TightBut.replace {hs hm} (h : T.TightBut p) : (T.replace p m hs hm).TightBut p := by
  intro q d k hk hne
  rw [node_replace_ne hne] at hk
  refine (h q d k hk hne).imp_right ?_
  rintro ⟨e, he⟩
  exact ⟨e, isSome_replace.mpr he⟩

theorem TightBut.grow {hn hnone} (h : T.TightBut p) :
    (T.grow p c n hn hnone).TightBut (p ++ [c]) := by
  have hmono : ∀ r, (T.node r).isSome → ((T.grow p c n hn hnone).node r).isSome := by
    intro r hr
    by_cases hrc : r = p ++ [c]
    · rw [hrc, node_grow_self]
      rfl
    · by_cases hrp : r = p
      · rw [hrp, node_grow_parent]
        rfl
      · rwa [node_grow_ne hrp hrc]
  intro q d k hk hne
  by_cases hqp : q ++ [d] = p
  · exact Or.inr ⟨c, by rw [hqp, node_grow_self]; rfl⟩
  · rw [node_grow_ne hqp hne] at hk
    refine (h q d k hk hqp).imp_right ?_
    rintro ⟨e, he⟩
    exact ⟨e, hmono _ he⟩

theorem TightBut.prune {hn hc} (h : T.TightBut (p ++ [c])) :
    (T.prune p c n m hn hc).TightBut p := by
  intro q d k hk hne
  have hqc : q ++ [d] ≠ p ++ [c] := by
    intro he
    rw [he, node_prune_self] at hk
    cases hk
  rw [node_prune_ne hne hqc] at hk
  refine (h q d k hk hqc).imp_right ?_
  rintro ⟨e, he⟩
  have hec : q ++ [d] ++ [e] ≠ p ++ [c] := fun hec => hne (List.append_inj' hec rfl).1
  refine ⟨e, ?_⟩
  by_cases hep : q ++ [d] ++ [e] = p
  · rw [hep, node_prune_parent]
    rfl
  · rwa [node_prune_ne hep hec]

end Operations

/-- Every word below a node passes through it. -/
theorem isSome_of_word (h : p ++ [c] ++ q ∈ T.Words) : (T.node p).isSome := by
  rw [mem_words] at h
  rcases h with ⟨n, hn, -⟩ | ⟨r, d, n, he, hn, -⟩
  · rw [List.append_assoc] at hn
    exact T.isSome_of_append (by rw [hn]; rfl)
  · rcases q.eq_nil_or_concat' with rfl | ⟨q, e, rfl⟩
    · rw [List.append_nil] at he
      obtain ⟨rfl, -⟩ := List.append_inj' he rfl
      simp [hn]
    · rw [← List.append_assoc] at he
      obtain ⟨rfl, -⟩ := List.append_inj' he rfl
      rw [List.append_assoc] at hn
      exact T.isSome_of_append (by rw [hn]; rfl)

/-- In a tight trie some word passes through every node but the root. -/
theorem Tight.exists_word (h : T.Tight) (hp : (T.node p).isSome) (hne : p ≠ []) :
    ∃ c q, p ++ [c] ++ q ∈ T.Words := by
  -- the longest path with a node bounds how far one has to go down
  obtain ⟨N, hN⟩ : ∃ N, ∀ p, (T.node p).isSome → p.length ≤ N := by
    obtain ⟨N, hN⟩ := (T.finite.image List.length).bddAbove
    exact ⟨N, fun p hp => hN ⟨p, hp, rfl⟩⟩
  obtain ⟨k, hk⟩ : ∃ k, N ≤ p.length + k := ⟨N, by omega⟩
  induction k generalizing p with
  | zero =>
    obtain ⟨n, hn⟩ := Option.isSome_iff_exists.mp hp
    rcases p.eq_nil_or_concat' with rfl | ⟨p, c, rfl⟩
    · exact absurd rfl hne
    rcases h p c n hn with ⟨d, hd⟩ | ⟨d, hd⟩
    · exact ⟨d, [], by rw [List.append_nil]; exact (append_mem_words T).mpr (Or.inr ⟨n, hn, hd⟩)⟩
    · have := hN _ hd
      simp at this hk
      omega
  | succ k ih =>
    obtain ⟨n, hn⟩ := Option.isSome_iff_exists.mp hp
    rcases p.eq_nil_or_concat' with rfl | ⟨p, c, rfl⟩
    · exact absurd rfl hne
    rcases h p c n hn with ⟨d, hd⟩ | ⟨d, hd⟩
    · exact ⟨d, [], by rw [List.append_nil]; exact (append_mem_words T).mpr (Or.inr ⟨n, hn, hd⟩)⟩
    · obtain ⟨e, q, hw⟩ := ih hd (by simp) (by simp at hk ⊢; omega)
      exact ⟨d, [e] ++ q, by simpa using hw⟩

/-- The nodes of a tight trie but the root are at the proper prefixes of its words. -/
theorem isSome_iff (h : T.Tight) : (T.node p).isSome ↔ p = [] ∨ ∃ c q, p ++ [c] ++ q ∈ T.Words := by
  constructor
  · intro hp
    by_cases hne : p = []
    · exact Or.inl hne
    · exact Or.inr (h.exists_word hp hne)
  · rintro (rfl | ⟨c, q, hw⟩)
    · exact T.root
    · exact isSome_of_word hw

/-- A tight trie is determined by its words. -/
theorem eq_of_words_eq {T T' : PathTrie κ} (h : T.Tight) (h' : T'.Tight) (hw : T.Words = T'.Words) :
    T = T' := by
  have hdom : ∀ p, (T.node p).isSome ↔ (T'.node p).isSome :=
    fun p => by rw [isSome_iff h, isSome_iff h', hw]
  have hnode : ∀ p, T.node p = T'.node p := by
    intro p
    cases hn : T.node p with
    | none =>
      have := hdom p
      rw [hn] at this
      cases hn' : T'.node p with
      | none => rfl
      | some n' => simp [hn'] at this
    | some n =>
      obtain ⟨n', hn'⟩ := Option.isSome_iff_exists.mp ((hdom p).mp (hn ▸ rfl))
      rw [hn', Option.some.injEq]
      have hflag : ∀ (S : PathTrie κ) (m : PathNode κ), S.node p = some m →
        (m.flag ↔ p ∈ S.Words) := by
        intro S m hm
        constructor
        · exact fun hf => Or.inl ⟨m, hm, hf⟩
        · rintro (⟨m', hm', hf⟩ | ⟨q, d, m', rfl, hm', hd⟩)
          · rw [hm, Option.some.injEq] at hm'
            exact hm' ▸ hf
          · simp [S.tag_leaf q d m' hm' hd] at hm
      have htag : ∀ (S : PathTrie κ) (m : PathNode κ), S.node p = some m →
          ∀ c, c ∈ m.tagged ↔ p ++ [c] ∈ S.Words ∧ S.node (p ++ [c]) = none := by
        intro S m hm c
        constructor
        · exact fun hc => ⟨Or.inr ⟨p, c, m, rfl, hm, hc⟩, S.tag_leaf p c m hm hc⟩
        · rintro ⟨hw, hnone⟩
          rcases (append_mem_words S).mp hw with ⟨m', hm', -⟩ | ⟨m', hm', hc⟩
          · simp [hnone] at hm'
          · rw [hm, Option.some.injEq] at hm'
            exact hm' ▸ hc
      ext c
      · rw [hflag T n hn, hflag T' n' hn', hw]
      · rw [htag T n hn, htag T' n' hn',
          hw, ← Option.not_isSome_iff_eq_none, ← Option.not_isSome_iff_eq_none, hdom]
  cases T
  cases T'
  congr
  exact funext hnode

end PathTrie
