import TinyPointerTrees.AhoCorasick.Automaton
import TinyPointerTrees.Library.SuffixLinks

/-!
# What `Create` constructs

Every node has a label, the path to it. `Shape` says that the nodes form a trie:
the labels are different, and a child's label is one character longer.

* `addWord_building` — the first step builds a trie of the words.
* `follow_spec` — following links finds the longest suffix that has an edge, as far as the links
  are right.
* `visit_level` — one round of the second step. The queue is sorted by depth, so
  the nodes that are less deep than its head have their links.
* `create_built` — `Create` terminates, and all links are right.
-/

namespace TinyPointerTrees.AhoCorasick

open SuffixLinks Automaton

/-! ### The trie -/

/-- The labels of the nodes. -/
def paths (n : ℕ) (label : ℕ → List UInt8) : Finset (List UInt8) := (Finset.range n).image label

theorem mem_paths {n : ℕ} {label : ℕ → List UInt8} {w : List UInt8} :
    w ∈ paths n label ↔ ∃ i < n, label i = w := by
  simp [paths]

/-- The `n` nodes form a trie. -/
structure Shape (n : ℕ) (label : ℕ → List UInt8) (A : Automaton) : Prop where
  size : A.size = n
  pos : 0 < n
  root : label 0 = []
  inj : ∀ i j, i < n → j < n → label i = label j → i = j
  child : ∀ i c j, i < n → ((A.nodes i).children c = some j ↔ j < n ∧ label j = label i ++ [c])
  parent : ∀ i, i < n → i ≠ 0 → ∃ k c, k < n ∧ label i = label k ++ [c]

/-- The nodes whose labels are among the words are terminal. -/
def Marked (n : ℕ) (label : ℕ → List UInt8) (W : List (List UInt8)) (A : Automaton) : Prop :=
  ∀ i < n, (A.nodes i).wordLength = if label i ∈ W then ((label i).length : ℤ) else -1

namespace Shape

variable {n i j : ℕ} {label : ℕ → List UInt8} {A A' : Automaton} {c : UInt8} {w : List UInt8}

theorem label_mem (hi : i < n) : label i ∈ paths n label := mem_paths.mpr ⟨i, hi, rfl⟩

theorem nil_mem (h : Shape n label A) : [] ∈ paths n label := mem_paths.mpr ⟨0, h.pos, h.root⟩

/-- The labels, with the label `u` for one more node. -/
theorem update_iff_of_ne {u : List UInt8} (hne : w ≠ u) :
    j < n + 1 ∧ Function.update label n u j = w ↔ j < n ∧ label j = w := by
  constructor
  · rintro ⟨hj, hlab⟩
    rcases Nat.lt_succ_iff_lt_or_eq.mp hj with hj | rfl
    · rw [Function.update_of_ne hj.ne] at hlab
      exact ⟨hj, hlab⟩
    · rw [Function.update_self] at hlab
      exact absurd hlab.symm hne
  · rintro ⟨hj, hlab⟩
    refine ⟨Nat.lt_succ_of_lt hj, ?_⟩
    rw [Function.update_of_ne hj.ne, hlab]

theorem update_iff_self {u : List UInt8} (hu : u ∉ paths n label) :
    j < n + 1 ∧ Function.update label n u j = u ↔ j = n := by
  constructor
  · rintro ⟨hj, hlab⟩
    rcases Nat.lt_succ_iff_lt_or_eq.mp hj with hj | rfl
    · rw [Function.update_of_ne hj.ne] at hlab
      exact absurd (mem_paths.mpr ⟨j, hj, hlab⟩) hu
    · rfl
  · rintro rfl
    exact ⟨Nat.lt_succ_self _, Function.update_self ..⟩

theorem child_eq_none (h : Shape n label A) (hi : i < n) :
    (A.nodes i).children c = none ↔ label i ++ [c] ∉ paths n label := by
  rw [Option.eq_none_iff_forall_ne_some, mem_paths, not_exists]
  exact forall_congr' fun j => not_congr (h.child i c j hi)

theorem closed (h : Shape n label A) : Closed (· ∈ paths n label) := by
  intro w c hw
  obtain ⟨i, hi, hlab⟩ := mem_paths.mp hw
  have h0 : i ≠ 0 := by
    rintro rfl
    rw [h.root] at hlab
    simp at hlab
  obtain ⟨k, d, hk, hkd⟩ := h.parent i hi h0
  rw [hlab] at hkd
  obtain ⟨rfl, -⟩ := List.append_inj' hkd rfl
  exact label_mem hk

theorem take_mem (h : Shape n label A) (hi : i < n) (k : ℕ) : (label i).take k ∈ paths n label := by
  have key : ∀ m, (label i).take ((label i).length - m) ∈ paths n label := by
    intro m
    induction m with
    | zero =>
      rw [Nat.sub_zero, List.take_length]
      exact label_mem hi
    | succ m ih =>
      by_cases hm : m < (label i).length
      · have hlt : (label i).length - (m + 1) < (label i).length := by omega
        rw [show (label i).length - m = (label i).length - (m + 1) + 1 by omega,
          List.take_succ_eq_append_getElem hlt] at ih
        exact h.closed _ _ ih
      · rw [show (label i).length - (m + 1) = (label i).length - m by omega]
        exact ih
  by_cases hk : k ≤ (label i).length
  · rw [show k = (label i).length - ((label i).length - k) by omega]
    exact key _
  · rw [List.take_of_length_le (by omega)]
    exact label_mem hi

/-- Links and lengths are not part of the shape. -/
theorem congr (h : Shape n label A) (hsize : A'.size = A.size)
    (hchild : ∀ i, (A'.nodes i).children = (A.nodes i).children) : Shape n label A' :=
  ⟨hsize.trans h.size, h.pos, h.root, h.inj,
    fun i c j hi => by rw [hchild, h.child i c j hi], h.parent⟩

end Shape

@[simp] theorem Automaton.modify_size (A : Automaton) (i : ℕ) (f : Node → Node) :
    (A.modify i f).size = A.size := rfl

@[simp] theorem Automaton.modify_self (A : Automaton) (i : ℕ) (f : Node → Node) :
    (A.modify i f).nodes i = f (A.nodes i) := by simp [modify]

@[simp] theorem Automaton.modify_ne (A : Automaton) {i j : ℕ} (h : j ≠ i) (f : Node → Node) :
    (A.modify i f).nodes j = A.nodes j := by simp [modify, h]

/-- What a change of one node keeps if it keeps it in that node. -/
theorem Automaton.modify_keeps {β : Type} (A : Automaton) (i : ℕ) (f : Node → Node) (g : Node → β)
    (hf : ∀ n, g (f n) = g n) (j : ℕ) : g ((A.modify i f).nodes j) = g (A.nodes j) := by
  by_cases h : j = i
  · subst h
    rw [modify_self, hf]
  · rw [modify_ne A h]

/-- A trie of the words, in the first step of `Create`, when there are no links. -/
structure Building (label : ℕ → List UInt8) (W : List (List UInt8)) (A : Automaton) : Prop where
  shape : Shape A.size label A
  marked : Marked A.size label W A
  stored : ∀ w ∈ W, w ∈ paths A.size label
  fresh : ∀ i, A.size ≤ i → A.nodes i = {}
  unlinked : ∀ i, (A.nodes i).suffixLink = none ∧ (A.nodes i).terminalLink = none

namespace Building

variable {label : ℕ → List UInt8} {W : List (List UInt8)} {A : Automaton} {node : ℕ} {c : UInt8}

theorem new : Building (fun _ => []) [] Automaton.new := by
  have hlt : ∀ i, i < Automaton.new.size → i = 0 := fun i hi => Nat.lt_one_iff.mp hi
  refine ⟨⟨rfl, Nat.one_pos, rfl, fun i j hi hj _ => ?_, fun i c j hi => ?_,
    fun i hi h0 => ?_⟩, fun i hi => ?_, by simp, fun i _ => rfl, fun i => ⟨rfl, rfl⟩⟩
  · rw [hlt i hi, hlt j hj]
  · simp [Automaton.new]
  · exact absurd (hlt i hi) h0
  · simp [Automaton.new]

/-- A new child. -/
theorem addChild (h : Building label W A) (hnode : node < A.size)
    (hc : (A.nodes node).children c = none) :
    Building (Function.update label A.size (label node ++ [c])) W (A.addChild node c) := by
  have hs := h.shape
  have hnot : label node ++ [c] ∉ paths A.size label := (hs.child_eq_none hnode).mp hc
  have hold : ∀ i, i < A.size → Function.update label A.size (label node ++ [c]) i = label i :=
    fun i hi => Function.update_of_ne hi.ne ..
  have hnew : Function.update label A.size (label node ++ [c]) A.size = label node ++ [c] :=
    Function.update_self ..
  have hnodes : ∀ i, i ≠ node → (A.addChild node c).nodes i = A.nodes i := fun i hi => by
    simp only [Automaton.addChild, Automaton.modify_ne A hi]
  have hchildren : ((A.addChild node c).nodes node).children = Function.update
    (A.nodes node).children c (some A.size) := by
    simp [Automaton.addChild, Automaton.modify]
  have hfields : ∀ i, ((A.addChild node c).nodes i).wordLength = (A.nodes i).wordLength ∧
      ((A.addChild node c).nodes i).suffixLink = (A.nodes i).suffixLink ∧
      ((A.addChild node c).nodes i).terminalLink = (A.nodes i).terminalLink := by
    intro i
    by_cases hi : i = node
    · subst hi
      simp [Automaton.addChild, Automaton.modify]
    · rw [hnodes i hi]
      exact ⟨rfl, rfl, rfl⟩
  have hlt : ∀ i, i < A.size + 1 → i < A.size ∨ i = A.size :=
    fun i hi => Nat.lt_succ_iff_lt_or_eq.mp hi
  refine ⟨⟨rfl, Nat.succ_pos _, ?_, ?_, ?_, ?_⟩, ?_, ?_, ?_, ?_⟩
  · exact (hold 0 hs.pos).trans hs.root
  · intro i j hi hj hlab
    by_cases hu : Function.update label A.size (label node ++ [c]) j = label node ++ [c]
    · have hi' := (Shape.update_iff_self hnot).mp ⟨hi, hlab.trans hu⟩
      exact hi'.trans ((Shape.update_iff_self hnot).mp ⟨hj, hu⟩).symm
    · obtain ⟨hi, hi'⟩ := (Shape.update_iff_of_ne hu).mp ⟨hi, hlab⟩
      obtain ⟨hj, hj'⟩ := (Shape.update_iff_of_ne hu).mp ⟨hj, rfl⟩
      exact hs.inj i j hi hj (hi'.trans hj'.symm)
  · intro i d j hi'
    rcases hlt i hi' with hi | rfl
    · rw [hold i hi]
      by_cases hnew' : i = node ∧ d = c
      · obtain ⟨rfl, rfl⟩ := hnew'
        rw [hchildren, Function.update_self, Option.some.injEq, eq_comm]
        exact (Shape.update_iff_self hnot).symm
      · have hne : label i ++ [d] ≠ label node ++ [c] := by
          intro heq
          obtain ⟨hlab, hdc⟩ := List.append_inj' heq rfl
          exact hnew' ⟨hs.inj i node hi hnode hlab, List.singleton_inj.mp hdc⟩
        have hsame : ((A.addChild node c).nodes i).children d = (A.nodes i).children d := by
          by_cases hin : i = node
          · subst hin
            rw [hchildren, Function.update_of_ne fun hdc => hnew' ⟨rfl, hdc⟩]
          · rw [hnodes i hin]
        rw [hsame, hs.child i d j hi]
        exact (Shape.update_iff_of_ne hne).symm
    · -- the new node has no children
      rw [hnodes A.size hnode.ne', h.fresh A.size le_rfl, hnew]
      refine iff_of_false (Option.some_ne_none j).symm fun hj => ?_
      have hne : label node ++ [c] ++ [d] ≠ label node ++ [c] := by simp
      obtain ⟨hj, hlab⟩ := (Shape.update_iff_of_ne hne).mp hj
      exact hnot (hs.closed _ _ (mem_paths.mpr ⟨j, hj, hlab⟩))
  · intro i hi h0
    rcases hlt i hi with hi | rfl
    · obtain ⟨k, d, hk, hlab⟩ := hs.parent i hi h0
      exact ⟨k, d, Nat.lt_succ_of_lt hk, by rw [hold i hi, hold k hk, hlab]⟩
    · exact ⟨node, c, Nat.lt_succ_of_lt hnode, by rw [hnew, hold node hnode]⟩
  · intro i hi
    rw [(hfields i).1]
    rcases hlt i hi with hi | rfl
    · rw [hold i hi]
      exact h.marked i hi
    · rw [hnew, if_neg fun hw => hnot (h.stored _ hw), h.fresh A.size le_rfl]
  · intro w hw
    obtain ⟨i, hi, hlab⟩ := mem_paths.mp (h.stored w hw)
    exact mem_paths.mpr ⟨i, Nat.lt_succ_of_lt hi, (hold i hi).trans hlab⟩
  · intro i hi
    have hi' : A.size < i := hi
    rw [hnodes i (by omega)]
    exact h.fresh i hi'.le
  · intro i
    rw [(hfields i).2.1, (hfields i).2.2]
    exact h.unlinked i

/-- The walk along a word ends in the node of its path, and the nodes that are new are on the
way. -/
theorem addChars {w : List UInt8} (h : Building label W A) (hnode : node < A.size) :
    ∃ label', Building label' W (addChars w node A).2 ∧
      (addChars w node A).1 < (addChars w node A).2.size ∧
      label' (addChars w node A).1 = label node ++ w ∧
      (addChars w node A).2.size ≤ A.size + w.length ∧
        ∀ u ∈ paths (addChars w node A).2.size label', u ∈ paths A.size label ∨
          u <+: label node ++ w := by
  induction w generalizing label A node with
  | nil => exact ⟨label, h, hnode, (List.append_nil _).symm, le_rfl, fun u hu => Or.inl hu⟩
  | cons c w ih =>
    unfold Automaton.addChars
    cases hc : (A.nodes node).children c with
    | none =>
      obtain ⟨label', hb, hlt, hlab, hsize, hnew⟩ :=
        ih (h.addChild hnode hc) (Nat.lt_succ_self A.size)
      rw [Function.update_self, List.append_assoc, List.singleton_append] at hlab hnew
      refine ⟨label', hb, hlt, hlab, hsize.trans ?_, fun u hu => ?_⟩
      · simp only [Automaton.addChild, List.length_cons]
        omega
      · by_cases heq : u = label node ++ [c]
        · exact Or.inr ⟨w, by rw [heq, List.append_assoc, List.singleton_append]⟩
        · refine (hnew u hu).imp_left fun hu => ?_
          obtain ⟨i, hi⟩ := mem_paths.mp hu
          exact mem_paths.mpr ⟨i, (Shape.update_iff_of_ne heq).mp hi⟩
    | some child =>
      obtain ⟨hchild, hlabel⟩ := (h.shape.child node c child hnode).mp hc
      obtain ⟨label', hb, hlt, hlab, hsize, hnew⟩ := ih h hchild
      rw [hlabel, List.append_assoc, List.singleton_append] at hlab hnew
      refine ⟨label', hb, hlt, hlab, hsize.trans ?_, hnew⟩
      simp only [List.length_cons]
      omega

/-- A word is added. -/
theorem addWord {w : List UInt8} (h : Building label W A) (hw : w.length < 2 ^ 31) :
    ∃ label', Building label' (w :: W) (A.addWord w) ∧ (A.addWord w).size ≤ A.size + w.length ∧
      ∀ u ∈ paths (A.addWord w).size label', u ∈ paths A.size label ∨ u <+: w := by
  obtain ⟨label', hb, hlt, hlab, hsize, hnew⟩ := h.addChars (w := w) h.shape.pos
  rw [h.shape.root, List.nil_append] at hlab hnew
  generalize hnode : (Automaton.addChars w 0 A).1 = node at hlt hlab
  generalize hA : (Automaton.addChars w 0 A).2 = A₁ at hb hlt hsize hnew
  have heq : A.addWord w = A₁.modify node fun n =>
    { n with wordLength := (w.length : ℤ).bmod (2 ^ 32) } := by
    rw [← hA, ← hnode]
    rfl
  have hlen : (w.length : ℤ).bmod (2 ^ 32) = w.length := Int.bmod_eq_of_le (by omega) (by omega)
  rw [heq, hlen]
  refine ⟨label', ⟨?_, fun i hi => ?_, fun v hv => ?_, fun i hi => ?_, fun i => ?_⟩, hsize, hnew⟩
  · exact hb.shape.congr rfl (A₁.modify_keeps node _ Node.children fun _ => rfl)
  · by_cases hin : i = node
    · subst hin
      simp [hlab]
    · have hne : label' i ≠ w := fun he => hin (hb.shape.inj i node hi hlt (he.trans hlab.symm))
      simp only [Automaton.modify_ne A₁ hin, List.mem_cons, hne, false_or]
      exact hb.marked i hi
  · rcases List.mem_cons.mp hv with rfl | hv
    · exact mem_paths.mpr ⟨node, hlt, hlab⟩
    · exact hb.stored v hv
  · have hi' : A₁.size ≤ i := hi
    rw [Automaton.modify_ne A₁ (by omega)]
    exact hb.fresh i hi'
  · by_cases hin : i = node
    · subst hin
      simpa using hb.unlinked i
    · rw [Automaton.modify_ne A₁ hin]
      exact hb.unlinked i

/-- The first step builds a trie of the words. -/
theorem addWords {words : List (List UInt8)} (h : Building label W A)
    (hw : ∀ w ∈ words, w.length < 2 ^ 31) :
    ∃ label', Building label' (words.reverse ++ W) (words.foldl Automaton.addWord A) ∧
      (words.foldl Automaton.addWord A).size ≤ A.size + (words.map List.length).sum ∧
        ∀ u ∈ paths (words.foldl Automaton.addWord A).size label', u ∈ paths A.size label ∨
          ∃ w ∈ words, u <+: w := by
  induction words generalizing label W A with
  | nil => exact ⟨label, h, le_rfl, fun u hu => Or.inl hu⟩
  | cons w words ih =>
    obtain ⟨label₁, h₁, hsize₁, hnew₁⟩ := h.addWord (hw w List.mem_cons_self)
    obtain ⟨label₂, h₂, hsize₂, hnew₂⟩ := ih h₁ fun v hv => hw v (List.mem_cons_of_mem _ hv)
    refine ⟨label₂, by simpa using h₂, hsize₂.trans ?_, fun u hu => ?_⟩
    · simp only [List.map_cons, List.sum_cons]
      omega
    · rcases hnew₂ u hu with hu | ⟨v, hv, hpre⟩
      · exact (hnew₁ u hu).imp_right fun hpre => ⟨w, List.mem_cons_self, hpre⟩
      · exact Or.inr ⟨v, List.mem_cons_of_mem _ hv, hpre⟩

/-- The first step of `Create`: there is a node for each prefix of a word. -/
theorem ofWords {words : List (List UInt8)} (hw : ∀ w ∈ words, w.length < 2 ^ 31) :
    ∃ label, Building label words.reverse (words.foldl Automaton.addWord Automaton.new) ∧
      (words.foldl Automaton.addWord Automaton.new).size ≤ 1 + (words.map List.length).sum ∧
        ∀ u, u ∈ paths (words.foldl Automaton.addWord Automaton.new).size label ↔ u = [] ∨
          ∃ w ∈ words, u <+: w := by
  obtain ⟨label, hb, hsize, hnew⟩ := Building.new.addWords hw
  rw [List.append_nil] at hb
  refine ⟨label, hb, hsize, fun u => ⟨fun hu => (hnew u hu).imp_left fun hu => ?_, ?_⟩⟩
  · obtain ⟨i, -, hi⟩ := mem_paths.mp hu
    exact hi.symm
  · rintro (rfl | ⟨w, hw, r, rfl⟩)
    · exact hb.shape.nil_mem
    · obtain ⟨i, hi, hlab⟩ := mem_paths.mp (hb.stored _ (List.mem_reverse.mpr hw))
      have htake := hb.shape.take_mem hi u.length
      rwa [hlab, List.take_left] at htake

end Building

/-! ### The links -/

/-- The suffix link of a node leads to the longest proper suffix of its path that has a node. -/
def LinkOk (n : ℕ) (label : ℕ → List UInt8) (A : Automaton) (i : ℕ) : Prop :=
  ∃ j < n, (A.nodes i).suffixLink = some j ∧ link (· ∈ paths n label) (label i) = some (label j)

/-- The terminal link of a node leads to the longest proper suffix of its path that is a word. -/
def TermOk (n : ℕ) (label : ℕ → List UInt8) (W : List (List UInt8)) (A : Automaton) (i : ℕ) :
    Prop :=
  match link (· ∈ W) (label i) with
  | none => (A.nodes i).terminalLink = none
  | some w => ∃ j < n, label j = w ∧ (A.nodes i).terminalLink = some j

/-- A suffix link is not a terminal link. -/
theorem LinkOk.setTerminalLink {n i : ℕ} {label : ℕ → List UInt8} {A : Automaton}
    (h : LinkOk n label A i) (x : ℕ) (t : Option ℕ) :
    LinkOk n label (A.modify x fun m => { m with terminalLink := t }) i := by
  obtain ⟨j, hj, hs, hl⟩ := h
  exact ⟨j, hj, (A.modify_keeps x _ Node.suffixLink (by intro; rfl) i).trans hs, hl⟩

section Follow

variable {n i : ℕ} {label : ℕ → List UInt8} {A : Automaton} {c : UInt8}

/-- Following links from a node finds the longest suffix of its path that has an edge `c`, or
the root, if the links of all nodes that are no deeper are right. -/
theorem follow_spec {fuel : ℕ} (h : Shape n label A)
    (hlinks : ∀ k < n, k ≠ 0 → (label k).length ≤ (label i).length → LinkOk n label A k)
    (hi : i < n) (hfuel : (label i).length < fuel) :
    ∃ j < n, follow A c fuel i = some j ∧ ((A.nodes j).children c = none → j = 0) ∧
      (label j).length ≤ (label i).length ∧
        nearest (· ∈ paths n label) (label i ++ [c]) =
          some (label (((A.nodes j).children c).getD j)) := by
  induction fuel generalizing i with
  | zero => exact absurd hfuel (Nat.not_lt_zero _)
  | succ fuel ih =>
    unfold follow
    cases hc : (A.nodes i).children c with
    | some k =>
      obtain ⟨hk, hlab⟩ := (h.child i c k hi).mp hc
      refine ⟨i, hi, by simp, by simp [hc], le_rfl, ?_⟩
      rw [hc, Option.getD_some, hlab]
      exact nearest_of_mem (hlab ▸ Shape.label_mem hk)
    | none =>
      have hnot := (h.child_eq_none hi).mp hc
      by_cases h0 : i = 0
      · subst h0
        refine ⟨0, hi, by simp, fun _ => rfl, le_rfl, ?_⟩
        rw [hc, Option.getD_none, h.root] at *
        rw [List.nil_append, nearest_cons_of_not hnot, nearest_of_mem h.nil_mem]
      · obtain ⟨k, hk, hlink, hlab⟩ := hlinks i hi h0 le_rfl
        have hlt := link_length_lt hlab
        obtain ⟨j, hj, hfollow, hroot, hle, hnear⟩ :=
          ih (i := k) (fun m hm hm0 hle => hlinks m hm hm0 (hle.trans hlt.le)) hk (by omega)
        refine ⟨j, hj, ?_, hroot, by omega, ?_⟩
        · simp [h0, hlink, hfollow]
        · rw [nearest_step h.closed hlab hnot]
          exact hnear

end Follow

/-- Only suffix links have changed, and only those of the nodes listed. -/
structure Relinked (S : List ℕ) (A A' : Automaton) : Prop where
  size : A'.size = A.size
  children : ∀ i, (A'.nodes i).children = (A.nodes i).children
  wordLength : ∀ i, (A'.nodes i).wordLength = (A.nodes i).wordLength
  terminalLink : ∀ i, (A'.nodes i).terminalLink = (A.nodes i).terminalLink
  suffixLink : ∀ i, i ∉ S → (A'.nodes i).suffixLink = (A.nodes i).suffixLink

namespace Relinked

variable {S S' : List ℕ} {A A' A'' : Automaton} {n i : ℕ} {label : ℕ → List UInt8}
  {W : List (List UInt8)}

theorem refl (A : Automaton) : Relinked [] A A :=
  ⟨rfl, fun _ => rfl, fun _ => rfl, fun _ => rfl, fun _ _ => rfl⟩

theorem append (h : Relinked S A A') (h' : Relinked S' A' A'') : Relinked (S ++ S') A A'' where
  size := h'.size.trans h.size
  children i := (h'.children i).trans (h.children i)
  wordLength i := (h'.wordLength i).trans (h.wordLength i)
  terminalLink i := (h'.terminalLink i).trans (h.terminalLink i)
  suffixLink i hi := by
    rw [List.mem_append, not_or] at hi
    exact (h'.suffixLink i hi.2).trans (h.suffixLink i hi.1)

theorem modify (A : Automaton) (child : ℕ) (s : Option ℕ) :
    Relinked [child] A (A.modify child fun n => { n with suffixLink := s }) where
  size := rfl
  children := A.modify_keeps child _ Node.children fun _ => rfl
  wordLength := A.modify_keeps child _ Node.wordLength fun _ => rfl
  terminalLink := A.modify_keeps child _ Node.terminalLink fun _ => rfl
  suffixLink i hi := by rw [Automaton.modify_ne A (by simpa using hi)]

theorem shape (h : Relinked S A A') (hs : Shape n label A) : Shape n label A' :=
  hs.congr h.size h.children

theorem linkOk (h : Relinked S A A') (hi : i ∉ S) (hl : LinkOk n label A i) :
    LinkOk n label A' i := by
  obtain ⟨j, hj, hlink, hlab⟩ := hl
  exact ⟨j, hj, (h.suffixLink i hi).trans hlink, hlab⟩

theorem termOk (h : Relinked S A A') (ht : TermOk n label W A i) : TermOk n label W A' i := by
  unfold TermOk at ht ⊢
  rwa [h.terminalLink]

end Relinked

section Children

variable {n x : ℕ} {label : ℕ → List UInt8} {A : Automaton} {c : UInt8} {fuel : ℕ} {queue : List ℕ}

/-- The children of a node by the characters listed. -/
def childrenBy (A : Automaton) (x : ℕ) (cs : List UInt8) : List ℕ :=
  cs.filterMap (A.nodes x).children

theorem childrenBy_cons (A : Automaton) (x : ℕ) (c : UInt8) (cs : List UInt8) :
    childrenBy A x (c :: cs) = childrenBy A x [c] ++ childrenBy A x cs :=
  List.filterMap_append (l := [c])

theorem childrenBy_congr {A' : Automaton} {S : List ℕ} (hrel : Relinked S A A') (x : ℕ)
    (cs : List UInt8) : childrenBy A' x cs = childrenBy A x cs := by
  rw [childrenBy, hrel.children, childrenBy]

/-- A child is deeper than its parent, so the links of nodes that are no deeper than that have not
changed. -/
theorem Relinked.linkOk_of_le {A' : Automaton} {cs : List UInt8}
    (hrel : Relinked (childrenBy A x cs) A A') (h : Shape n label A) (hx : x < n) {k : ℕ}
    (hle : (label k).length ≤ (label x).length) (hl : LinkOk n label A k) :
    LinkOk n label A' k := by
  refine hrel.linkOk (fun hmem => ?_) hl
  obtain ⟨c, -, hc⟩ := List.mem_filterMap.mp hmem
  rw [((h.child x c k hx).mp hc).2] at hle
  simp at hle

/-- The child by `c` gets its link and is pushed, if there is one. -/
theorem linkChild_spec (queue : List ℕ) (c : UInt8) (h : Shape n label A) (hx : x < n) (h0 : x ≠ 0)
    (hlinks : ∀ k < n, k ≠ 0 → (label k).length ≤ (label x).length → LinkOk n label A k)
    (hfuel : (label x).length < fuel) :
    ∃ A', linkChild fuel x (A, queue) c = some (A', queue ++ childrenBy A x [c]) ∧
      Relinked (childrenBy A x [c]) A A' ∧ ∀ i ∈ childrenBy A x [c], LinkOk n label A' i := by
  unfold linkChild childrenBy
  cases hc : (A.nodes x).children c with
  | none => exact ⟨A, by simp [hc], by simpa [hc] using Relinked.refl A, by simp [hc]⟩
  | some child =>
    obtain ⟨hchild, hlab⟩ := (h.child x c child hx).mp hc
    obtain ⟨k, hk, hlink, hlabk⟩ := hlinks x hx h0 le_rfl
    have hlt := link_length_lt hlabk
    obtain ⟨j, hj, hfollow, hroot, hle, hnear⟩ := follow_spec (c := c) h
      (fun m hm hm0 hml => hlinks m hm hm0 (hml.trans hlt.le)) hk (hlt.trans hfuel)
    have htarget : A.fallbackLink j child c = ((A.nodes j).children c).getD j ∧
        ((A.nodes j).children c).getD j < n := by
      unfold fallbackLink
      cases hs : (A.nodes j).children c with
      | none => exact ⟨(hroot hs).symm, hj⟩
      | some s =>
        obtain ⟨hsn, hslab⟩ := (h.child j c s hj).mp hs
        have hne : s ≠ child := by
          rintro rfl
          rw [hlab] at hslab
          have := congrArg List.length hslab
          simp at this
          omega
        exact ⟨if_pos hne, hsn⟩
    refine ⟨A.modify child fun n => { n with suffixLink := some (A.fallbackLink j child c) }, ?_,
      ?_, ?_⟩
    · simp only [hlink, hfollow, List.filterMap_cons, hc, List.filterMap_nil, Option.bind_eq_bind,
        Option.bind_some]
      rfl
    · simpa [hc] using Relinked.modify A child _
    · intro i hi
      obtain rfl : i = child := by simpa [hc] using hi
      refine ⟨_, htarget.2, by rw [Automaton.modify_self, htarget.1], ?_⟩
      rw [hlab, link_append h.closed hlabk]
      exact hnear

/-- All children of a node get their links and are pushed. -/
theorem linkChildren_spec (cs : List UInt8) (queue : List ℕ) (h : Shape n label A) (hx : x < n)
    (h0 : x ≠ 0)
    (hlinks : ∀ k < n, k ≠ 0 → (label k).length ≤ (label x).length → LinkOk n label A k)
    (hfuel : (label x).length < fuel) :
    ∃ A', cs.foldlM (linkChild fuel x) (A, queue) = some (A', queue ++ childrenBy A x cs) ∧
      Relinked (childrenBy A x cs) A A' ∧ ∀ i ∈ childrenBy A x cs, LinkOk n label A' i := by
  induction cs generalizing A queue with
  | nil => exact ⟨A, by simp [childrenBy], Relinked.refl A, by simp [childrenBy]⟩
  | cons c cs ih =>
    obtain ⟨A₁, hrun₁, hrel₁, hok₁⟩ := linkChild_spec queue c h hx h0 hlinks hfuel
    obtain ⟨A₂, hrun₂, hrel₂, hok₂⟩ :=
      ih (queue ++ childrenBy A x [c]) (hrel₁.shape h) fun k hk hk0 hle =>
      hrel₁.linkOk_of_le h hx hle (hlinks k hk hk0 hle)
    have happ := childrenBy_cons A x c cs
    rw [childrenBy_congr hrel₁] at hrun₂ hrel₂ hok₂
    refine ⟨A₂, ?_, happ ▸ hrel₁.append hrel₂, fun i hi => ?_⟩
    · rw [List.foldlM_cons, hrun₁, happ, ← List.append_assoc]
      exact hrun₂
    · by_cases hi₂ : i ∈ childrenBy A x cs
      · exact hok₂ i hi₂
      · rw [happ, List.mem_append] at hi
        exact hrel₂.linkOk hi₂ (hok₁ i (hi.resolve_right hi₂))

theorem mem_allBytes (c : UInt8) : c ∈ allBytes :=
  List.mem_map.mpr ⟨c.toNat, List.mem_range.mpr c.toNat_lt, by simp⟩

theorem nodup_allBytes : allBytes.Nodup := by
  refine List.nodup_range.map_on fun i hi j hj heq => ?_
  rw [List.mem_range] at hi hj
  rw [← UInt8.toNat_inj, UInt8.toNat_ofNat_of_lt' hi, UInt8.toNat_ofNat_of_lt' hj] at heq
  exact heq

theorem mem_children {i : ℕ} (h : Shape n label A) (hx : x < n) :
    i ∈ childrenBy A x allBytes ↔ i < n ∧ ∃ c, label i = label x ++ [c] := by
  simp only [childrenBy, List.mem_filterMap]
  constructor
  · rintro ⟨c, -, hc⟩
    obtain ⟨hi, hlab⟩ := (h.child x c i hx).mp hc
    exact ⟨hi, c, hlab⟩
  · rintro ⟨hi, c, hlab⟩
    exact ⟨c, mem_allBytes c, (h.child x c i hx).mpr ⟨hi, hlab⟩⟩

theorem nodup_children (h : Shape n label A) (hx : x < n) : (childrenBy A x allBytes).Nodup := by
  refine nodup_allBytes.filterMap fun c d i hc hd => ?_
  have hlab := ((h.child x c i hx).mp hc).2.symm.trans ((h.child x d i hx).mp hd).2
  simpa using hlab

end Children

/-! ### Breadth first -/

/-- The invariant of the second step. The nodes in `done` have been popped; those in the queue have
their suffix links. -/
structure Bfs (n : ℕ) (label : ℕ → List UInt8) (W : List (List UInt8)) (A : Automaton)
    (queue : List ℕ) (done : Finset ℕ) : Prop where
  shape : Shape n label A
  marked : Marked n label W A
  root : 0 ∈ done
  lt : ∀ i, i ∈ done ∨ i ∈ queue → i < n
  nodup : queue.Nodup
  disjoint : ∀ i ∈ queue, i ∉ done
  linked : ∀ i, i ≠ 0 → i ∈ done ∨ i ∈ queue → LinkOk n label A i
  term : ∀ i ∈ done, TermOk n label W A i
  parent : ∀ i, i ≠ 0 → i ∈ done ∨ i ∈ queue → ∃ k ∈ done, ∃ c, label i = label k ++ [c]
  pushed : ∀ k ∈ done, ∀ c j, j < n → label j = label k ++ [c] → j ∈ done ∨ j ∈ queue
  sorted : queue.Pairwise fun i j => (label i).length ≤ (label j).length
  near : ∀ i ∈ queue, ∀ j ∈ queue, (label j).length ≤ (label i).length + 1

namespace Bfs

variable {n x : ℕ} {label : ℕ → List UInt8} {W : List (List UInt8)} {A : Automaton} {queue : List ℕ}
  {done : Finset ℕ} {fuel : ℕ}

/-- The nodes that are less deep than the head of the queue have been popped. -/
theorem visit_level (h : Bfs n label W A (x :: queue) done) {i : ℕ} (hi : i < n)
    (hlt : (label i).length < (label x).length) : i ∈ done := by
  induction hlen : (label i).length generalizing i with
  | zero =>
    have hnil : label i = [] := List.length_eq_zero_iff.mp hlen
    rw [h.shape.inj i 0 hi h.shape.pos (hnil.trans h.shape.root.symm)]
    exact h.root
  | succ d ih =>
    have h0 : i ≠ 0 := by
      rintro rfl
      simp [h.shape.root] at hlen
    obtain ⟨k, c, hk, hlab⟩ := h.shape.parent i hi h0
    have hkd : (label k).length = d := by
      have := congrArg List.length hlab
      simp only [List.length_append, List.length_singleton] at this
      omega
    rcases h.pushed k (ih hk (by omega) hkd) c i hi hlab with hd | hq
    · exact hd
    · -- what is in the queue is at least as deep as its head
      have hle : (label x).length ≤ (label i).length := by
        rcases List.mem_cons.mp hq with rfl | hq
        · exact le_rfl
        · exact (List.pairwise_cons.mp h.sorted).1 i hq
      omega

/-- The nodes that are no deeper than the head of the queue have their links: their parents have
been popped. -/
theorem linked_level (h : Bfs n label W A (x :: queue) done) {m : ℕ} (hm : m < n) (hm0 : m ≠ 0)
    (hle : (label m).length ≤ (label x).length) : LinkOk n label A m := by
  obtain ⟨p, c, hp, hlabp⟩ := h.shape.parent m hm hm0
  have hlen : (label m).length = (label p).length + 1 := by simp [hlabp]
  exact h.linked m hm0 (h.pushed p (h.visit_level hp (by omega)) c m hm hlabp)

theorem isTerminal_iff (hm : Marked n label W A) {i : ℕ} (hi : i < n) :
    (A.nodes i).isTerminal = true ↔ label i ∈ W := by
  unfold Node.isTerminal
  rw [hm i hi]
  split_ifs with hw
  · simp only [bne_iff_ne, ne_eq, hw, iff_true]
    omega
  · simp [hw]

/-- The terminal link of a node, from that of the node its suffix link leads to. -/
theorem terminalLinkOf_spec (hm : Marked n label W A) (hstored : ∀ w ∈ W,
      w ∈ paths n label) {k : ℕ} (hk : k < n)
    (hlab : link (· ∈ paths n label) (label x) = some (label k)) (hterm : TermOk n label W A k) :
    match link (· ∈ W) (label x) with
    | none => A.terminalLinkOf k = none
    | some w => ∃ j < n, label j = w ∧ A.terminalLinkOf k = some j := by
  rw [link_step hstored hlab]
  unfold terminalLinkOf
  by_cases hw : label k ∈ W
  · rw [if_pos hw, if_pos ((isTerminal_iff hm hk).mpr hw)]
    exact ⟨k, hk, rfl, rfl⟩
  · rw [if_neg hw, if_neg fun ht => hw ((isTerminal_iff hm hk).mp ht)]
    exact hterm

/-- The children of the head of the queue have not been pushed before, since their parent had not
been popped. -/
theorem unseen (h : Bfs n label W A (x :: queue) done) {i : ℕ} {c : UInt8}
    (hlab : label i = label x ++ [c]) : ¬(i ∈ done ∨ i ∈ x :: queue) := by
  intro hi
  have hi0 : i ≠ 0 := by
    rintro rfl
    simp [h.shape.root] at hlab
  obtain ⟨p, hp, d, hlabp⟩ := h.parent i hi0 hi
  rw [hlab] at hlabp
  have hx : x < n := h.lt x (Or.inr List.mem_cons_self)
  have hpx : p = x := h.shape.inj p x (h.lt p (Or.inl hp)) hx (List.append_inj' hlabp rfl).1.symm
  exact h.disjoint x List.mem_cons_self (hpx ▸ hp)

/-- The queue holds nodes of at most two levels. -/
theorem level_of_mem (h : Bfs n label W A (x :: queue) done) {i : ℕ} (hi : i ∈ queue) :
    (label x).length ≤ (label i).length ∧ (label i).length ≤ (label x).length + 1 :=
  ⟨(List.pairwise_cons.mp h.sorted).1 i hi, h.near x List.mem_cons_self i
    (List.mem_cons_of_mem _ hi)⟩

/-- One round. -/
theorem visit (h : Bfs n label W A (x :: queue) done) (hstored : ∀ w ∈ W, w ∈ paths n label)
    (hfuel : ∀ i < n, (label i).length < fuel) :
    ∃ A' queue', Automaton.visit fuel x A queue = some (A', queue') ∧
      Bfs n label W A' queue' (insert x done) := by
  have hx : x < n := h.lt x (Or.inr List.mem_cons_self)
  have hxdone : x ∉ done := h.disjoint x List.mem_cons_self
  have h0 : x ≠ 0 := fun he => hxdone (he ▸ h.root)
  obtain ⟨k, hk, hlink, hlab⟩ := h.linked x h0 (Or.inr List.mem_cons_self)
  have hkdone : k ∈ done := h.visit_level hk (link_length_lt hlab)
  let A₁ := A.modify x fun m => { m with terminalLink := A.terminalLinkOf k }
  have hshape₁ : Shape n label A₁ :=
    h.shape.congr rfl (A.modify_keeps x _ Node.children fun _ => rfl)
  have hlink₁ : ∀ i, LinkOk n label A i → LinkOk n label A₁ i := fun i hl => hl.setTerminalLink x _
  have hterm₁ : ∀ i ∈ insert x done, TermOk n label W A₁ i := by
    intro i hi
    rcases Finset.mem_insert.mp hi with rfl | hi
    · unfold TermOk
      rw [show (A₁.nodes i).terminalLink = A.terminalLinkOf k by simp [A₁]]
      exact terminalLinkOf_spec h.marked hstored hk hlab (h.term k hkdone)
    · have hne : i ≠ x := fun he => hxdone (he ▸ hi)
      have ht := h.term i hi
      unfold TermOk at ht ⊢
      rwa [Automaton.modify_ne A hne]
  have hlinks : ∀ m < n, m ≠ 0 → (label m).length ≤ (label x).length → LinkOk n label A₁ m :=
    fun m hm hm0 hle => hlink₁ m (h.linked_level hm hm0 hle)
  obtain ⟨A₂, hrun, hrel, hok⟩ := linkChildren_spec allBytes queue hshape₁ hx h0 hlinks (hfuel x hx)
  have hnew : ∀ i, i ∈ childrenBy A₁ x allBytes ↔ i < n ∧ ∃ c, label i = label x ++ [c] :=
    fun i => mem_children hshape₁ hx
  have hdeep : ∀ i ∈ childrenBy A₁ x allBytes, (label i).length = (label x).length + 1 := by
    intro i hi
    obtain ⟨-, c, hlabi⟩ := (hnew i).mp hi
    simp [hlabi]
  have hunseen : ∀ i ∈ childrenBy A₁ x allBytes, ¬(i ∈ done ∨ i ∈ x :: queue) := by
    intro i hi
    obtain ⟨-, c, hlabi⟩ := (hnew i).mp hi
    exact h.unseen hlabi
  have hold : ∀ i, i ∈ insert x done ∨ i ∈ queue → i ∈ done ∨ i ∈ x :: queue := by
    intro i hi
    simp only [Finset.mem_insert, List.mem_cons] at hi ⊢
    tauto
  refine ⟨A₂, queue ++ childrenBy A₁ x allBytes, ?_, ?_⟩
  · unfold Automaton.visit
    simp only [hlink, Option.bind_eq_bind, Option.bind_some]
    exact hrun
  have hsplit : ∀ i, i ∈ insert x done ∨ i ∈ queue ++ childrenBy A₁ x allBytes →
      (i ∈ done ∨ i ∈ x :: queue) ∨ i ∈ childrenBy A₁ x allBytes := by
    intro i hi
    rw [List.mem_append, ← or_assoc] at hi
    exact hi.imp_left (hold i)
  refine ⟨hrel.shape hshape₁, fun i hi => ?_, Finset.mem_insert_of_mem h.root, fun i hi => ?_,
    ?_, fun i hi => ?_, fun i hi0 hi => ?_, fun i hi => hrel.termOk (hterm₁ i hi),
    fun i hi0 hi => ?_, fun m hm c j hj hlabj => ?_, ?_, ?_⟩
  · rw [hrel.wordLength]
    exact (A.modify_keeps x _ Node.wordLength (by intro; rfl) i).trans (h.marked i hi)
  · rcases hsplit i hi with hi | hi
    · exact h.lt i hi
    · exact ((hnew i).mp hi).1
  · rw [List.nodup_append']
    exact ⟨(List.nodup_cons.mp h.nodup).2, nodup_children hshape₁ hx, fun i hi hi' =>
      hunseen i hi' (Or.inr (List.mem_cons_of_mem _ hi))⟩
  · rw [Finset.mem_insert, not_or]
    rcases List.mem_append.mp hi with hi | hi
    · exact ⟨fun he => (List.nodup_cons.mp h.nodup).1 (he ▸ hi),
        h.disjoint i (List.mem_cons_of_mem _ hi)⟩
    · exact ⟨fun he => hunseen i hi (Or.inr (he ▸ List.mem_cons_self)), fun hd =>
        hunseen i hi (Or.inl hd)⟩
  · by_cases hmem : i ∈ childrenBy A₁ x allBytes
    · exact hok i hmem
    · exact hrel.linkOk hmem (hlink₁ i (h.linked i hi0 ((hsplit i hi).resolve_right hmem)))
  · rcases hsplit i hi with hi | hi
    · obtain ⟨p, hp, c, hlabp⟩ := h.parent i hi0 hi
      exact ⟨p, Finset.mem_insert_of_mem hp, c, hlabp⟩
    · obtain ⟨-, c, hlabi⟩ := (hnew i).mp hi
      exact ⟨x, Finset.mem_insert_self x done, c, hlabi⟩
  · rcases Finset.mem_insert.mp hm with rfl | hm
    · exact Or.inr (List.mem_append_right _ ((hnew j).mpr ⟨hj, c, hlabj⟩))
    · rcases h.pushed m hm c j hj hlabj with hd | hq
      · exact Or.inl (Finset.mem_insert_of_mem hd)
      · rcases List.mem_cons.mp hq with rfl | hq
        · exact Or.inl (Finset.mem_insert_self _ _)
        · exact Or.inr (List.mem_append_left _ hq)
  · rw [List.pairwise_append]
    refine ⟨(List.pairwise_cons.mp h.sorted).2, List.pairwise_of_forall_mem_list
      fun i hi j hj => ?_, fun i hi j hj => ?_⟩
    · rw [hdeep i hi, hdeep j hj]
    · rw [hdeep j hj]
      exact (h.level_of_mem hi).2
  · intro i hi j hj
    have hi' : (label x).length ≤ (label i).length := by
      rcases List.mem_append.mp hi with hi | hi
      · exact (h.level_of_mem hi).1
      · rw [hdeep i hi]
        omega
    have hj' : (label j).length ≤ (label x).length + 1 := by
      rcases List.mem_append.mp hj with hj | hj
      · exact (h.level_of_mem hj).2
      · rw [hdeep j hj]
    omega

/-- When the queue is empty, all nodes have been popped. -/
theorem all_done (h : Bfs n label W A [] done) {i : ℕ} (hi : i < n) : i ∈ done := by
  induction hlen : (label i).length generalizing i with
  | zero =>
    have hnil : label i = [] := List.length_eq_zero_iff.mp hlen
    rw [h.shape.inj i 0 hi h.shape.pos (hnil.trans h.shape.root.symm)]
    exact h.root
  | succ d ih =>
    have h0 : i ≠ 0 := by
      rintro rfl
      simp [h.shape.root] at hlen
    obtain ⟨k, c, hk, hlab⟩ := h.shape.parent i hi h0
    have hkd : (label k).length = d := by
      have := congrArg List.length hlab
      simp only [List.length_append, List.length_singleton] at this
      omega
    simpa using h.pushed k (ih hk hkd) c i hi hlab

end Bfs

/-- An automaton of the words, with its links. -/
structure Built (n : ℕ) (label : ℕ → List UInt8) (W : List (List UInt8)) (A : Automaton) :
    Prop where
  shape : Shape n label A
  marked : Marked n label W A
  stored : ∀ w ∈ W, w ∈ paths n label
  linked : ∀ i < n, i ≠ 0 → LinkOk n label A i
  term : ∀ i < n, TermOk n label W A i

section Create

variable {n : ℕ} {label : ℕ → List UInt8} {W : List (List UInt8)} {A : Automaton} {queue : List ℕ}
  {done : Finset ℕ} {fuel rounds : ℕ}

/-- The second step ends: each round pops another node. -/
theorem visitAll_built (fuel rounds : ℕ) (h : Bfs n label W A queue done)
    (hstored : ∀ w ∈ W, w ∈ paths n label) (hfuel : ∀ i < n, (label i).length < fuel)
    (hrounds : n < done.card + rounds) :
    ∃ A', visitAll fuel rounds A queue = some A' ∧ Built n label W A' := by
  have hcard : ∀ {A queue} {done : Finset ℕ}, Bfs n label W A queue done → done.card ≤ n := by
    intro A queue done h
    have hsub : done ⊆ Finset.range n := fun i hi => Finset.mem_range.mpr (h.lt i (Or.inl hi))
    simpa using Finset.card_le_card hsub
  induction rounds generalizing A queue done with
  | zero =>
    have := hcard h
    omega
  | succ rounds ih =>
    cases queue with
    | nil => exact ⟨A, rfl, h.shape, h.marked, hstored, fun i hi h0 =>
        h.linked i h0 (Or.inl (h.all_done hi)), fun i hi => h.term i (h.all_done hi)⟩
    | cons x queue =>
      obtain ⟨A₁, queue₁, hrun, h₁⟩ := h.visit hstored hfuel
      have hnew : (insert x done).card = done.card + 1 :=
        Finset.card_insert_of_notMem (h.disjoint x List.mem_cons_self)
      obtain ⟨A₂, hrun₂, hbuilt⟩ := ih h₁ (by omega)
      refine ⟨A₂, ?_, hbuilt⟩
      unfold visitAll
      rw [hrun]
      exact hrun₂

/-- The children of the root get their links and are pushed. -/
theorem linkRootChildren_spec (cs : List UInt8) (queue : List ℕ) (h : Shape n label A) :
    ∃ A', cs.foldl linkRootChild (A, queue) = (A', queue ++ childrenBy A 0 cs) ∧
      Relinked (childrenBy A 0 cs) A A' ∧ ∀ i ∈ childrenBy A 0 cs,
      (A'.nodes i).suffixLink = some 0 := by
  induction cs generalizing A queue with
  | nil => exact ⟨A, by simp [childrenBy], Relinked.refl A, by simp [childrenBy]⟩
  | cons c cs ih =>
    rw [List.foldl_cons]
    cases hc : (A.nodes 0).children c with
    | none =>
      have hstep : linkRootChild (A, queue) c = (A, queue) := by simp [linkRootChild, hc]
      have hsame : childrenBy A 0 (c :: cs) = childrenBy A 0 cs := by simp [childrenBy, hc]
      rw [hstep, hsame]
      exact ih queue h
    | some child =>
      have hstep : linkRootChild (A, queue) c =
          (A.modify child fun n => { n with suffixLink := some 0 }, queue ++ [child]) := by
          simp [linkRootChild, hc]
      have hrel₁ := Relinked.modify A child (some 0)
      obtain ⟨A₂, hrun, hrel₂, hok⟩ := ih (queue ++ [child]) (hrel₁.shape h)
      have hsame : childrenBy (A.modify child fun n => { n with suffixLink := some 0 }) 0 cs =
        childrenBy A 0 cs := by
        unfold childrenBy
        rw [hrel₁.children]
      have hcons : childrenBy A 0 (c :: cs) = [child] ++ childrenBy A 0 cs := by
        simp [childrenBy, hc]
      rw [hsame] at hrun hrel₂ hok
      refine ⟨A₂, ?_, hcons ▸ hrel₁.append hrel₂, fun i hi => ?_⟩
      · rw [hstep, hrun, hcons, List.append_assoc]
      · by_cases hi₂ : i ∈ childrenBy A 0 cs
        · exact hok i hi₂
        · rw [hcons, List.mem_append] at hi
          obtain rfl := List.mem_singleton.mp (hi.resolve_right hi₂)
          rw [hrel₂.suffixLink i hi₂, Automaton.modify_self]

/-- The second step starts with the children of the root. -/
theorem bfs_init (h : Building label W A) :
    ∃ A' queue, allBytes.foldl linkRootChild (A, []) = (A', queue) ∧
      Bfs A.size label W A' queue {0} := by
  obtain ⟨A', hrun, hrel, hlink⟩ := linkRootChildren_spec allBytes [] h.shape
  have hpos := h.shape.pos
  have hroot := h.shape.root
  have hnew : ∀ i, i ∈ childrenBy A 0 allBytes ↔ i < A.size ∧ ∃ c, label i = [c] := by
    intro i
    rw [mem_children h.shape hpos, hroot]
    rfl
  have hdeep : ∀ i ∈ childrenBy A 0 allBytes, (label i).length = 1 := by
    intro i hi
    obtain ⟨-, c, hlab⟩ := (hnew i).mp hi
    simp [hlab]
  refine ⟨A', _, hrun, ?_⟩
  rw [List.nil_append]
  refine ⟨hrel.shape h.shape, fun i hi => ?_, Finset.mem_singleton_self 0, fun i hi => ?_,
    nodup_children h.shape hpos, fun i hi => ?_, fun i hi0 hi => ?_, fun i hi => ?_,
    fun i hi0 hi => ?_, fun k hk c j hj hlab => ?_, List.pairwise_of_forall_mem_list
    fun i hi j hj => ?_, fun i hi j hj => ?_⟩
  · rw [hrel.wordLength]
    exact h.marked i hi
  · rcases hi with hi | hi
    · exact Finset.mem_singleton.mp hi ▸ hpos
    · exact ((hnew i).mp hi).1
  · rw [Finset.mem_singleton]
    rintro rfl
    have := hdeep 0 hi
    simp [hroot] at this
  · have hi := hi.resolve_left fun hi => hi0 (Finset.mem_singleton.mp hi)
    obtain ⟨hlt, c, hlab⟩ := (hnew i).mp hi
    refine ⟨0, hpos, hlink i hi, ?_⟩
    rw [hlab, hroot]
    exact nearest_of_mem h.shape.nil_mem
  · obtain rfl := Finset.mem_singleton.mp hi
    unfold TermOk
    rw [hroot]
    exact (hrel.terminalLink 0).trans (h.unlinked 0).2
  · have hi := hi.resolve_left fun hi => hi0 (Finset.mem_singleton.mp hi)
    obtain ⟨-, c, hlab⟩ := (hnew i).mp hi
    exact ⟨0, Finset.mem_singleton_self 0, c, by rw [hlab, hroot]; rfl⟩
  · obtain rfl := Finset.mem_singleton.mp hk
    rw [hroot] at hlab
    exact Or.inr ((hnew j).mpr ⟨hj, c, hlab⟩)
  · rw [hdeep i hi, hdeep j hj]
  · rw [hdeep i hi, hdeep j hj]
    omega

/-- A path is shorter than there are nodes. -/
theorem length_lt_size (h : Shape n label A) {i : ℕ} (hi : i < n) : (label i).length < n := by
  have hsub : (Finset.range ((label i).length + 1)).image (fun k => (label i).take k) ⊆
    paths n label := by
    intro w hw
    obtain ⟨k, -, rfl⟩ := Finset.mem_image.mp hw
    exact h.take_mem hi k
  have hinj : Set.InjOn (fun k => (label i).take k)
    (Finset.range ((label i).length + 1) : Set ℕ) := by
    intro k hk m hm he
    have hlen := congrArg List.length he
    simp only [Finset.coe_range, Set.mem_Iio, List.length_take] at hk hm hlen
    omega
  have hcard := Finset.card_le_card hsub
  rw [Finset.card_image_of_injOn hinj, Finset.card_range] at hcard
  have hle : (paths n label).card ≤ n := Finset.card_image_le.trans (Finset.card_range n).le
  omega

/-- `Create` terminates, and constructs an automaton of the words, with a node for each prefix of a
word. -/
theorem create_paths {words : List (List UInt8)} (hw : ∀ w ∈ words, w.length < 2 ^ 31)
    (hfuel : (words.map List.length).sum < fuel) :
    ∃ A n label, create fuel words = some A ∧ n ≤ fuel ∧ Built n label words.reverse A ∧
      ∀ u, u ∈ paths n label ↔ u = [] ∨ ∃ w ∈ words, u <+: w := by
  obtain ⟨label, hb, hsize, hpaths⟩ := Building.ofWords hw
  obtain ⟨A₁, queue, hinit, hbfs⟩ := bfs_init hb
  obtain ⟨A, hrun, hbuilt⟩ := visitAll_built fuel fuel hbfs hb.stored
    (fun i hi => (length_lt_size hb.shape hi).trans_le (by omega)) (by simp; omega)
  refine ⟨A, _, label, ?_, by omega, hbuilt, hpaths⟩
  unfold create
  simp only [hinit]
  exact hrun

/-- `Create` terminates, and constructs an automaton of the words. -/
theorem create_built {words : List (List UInt8)} (hw : ∀ w ∈ words, w.length < 2 ^ 31)
    (hfuel : (words.map List.length).sum < fuel) :
    ∃ A n label, create fuel words = some A ∧ n ≤ fuel ∧ Built n label words.reverse A := by
  obtain ⟨A, n, label, hcreate, hn, hbuilt, -⟩ := create_paths hw hfuel
  exact ⟨A, n, label, hcreate, hn, hbuilt⟩

end Create

end TinyPointerTrees.AhoCorasick
