import TinyPointerTrees.AhoCorasick.Construction

/-!
# What `Search` reports

The node of the search is the longest suffix of the text read so far that has a
node. `search_exact`: all occurrences of the words are reported, each once, in the
order of their ends, and at the same end the longest first.
-/

namespace TinyPointerTrees.AhoCorasick

open SuffixLinks Automaton

/-- The occurrences of words `P` that end at position `i`, the longest first. -/
def occurrencesAt (P : List UInt8 → Prop) [DecidablePred P] (text : List UInt8) (i : ℕ) :
    List Match :=
  (suffixes P (text.take (i + 1))).map fun w => ⟨i + 1 - w.length, i, w⟩

/-- The order in which matches are reported. -/
def Match.Before (m m' : Match) : Prop :=
  m.stop < m'.stop ∨ m.stop = m'.stop ∧ m'.word.length < m.word.length

section Report

variable {n node i fuel : ℕ} {label : ℕ → List UInt8} {W : List (List UInt8)} {A : Automaton}
  {text w : List UInt8}

/-- A suffix of the text up to a position is what `substr` cuts out. -/
theorem substr_suffix (hw : w <:+ text.take (i + 1)) (hi : i < text.length) :
    w.length ≤ i + 1 ∧ substr text ((i : ℤ) + 1 - w.length) w.length = some w := by
  obtain ⟨v, hv⟩ := hw
  have hlen : v.length + w.length = i + 1 := by
    have := congrArg List.length hv
    simp only [List.length_append, List.length_take] at this
    omega
  have htext : text = v ++ (w ++ text.drop (i + 1)) := by
    rw [← List.append_assoc, hv, List.take_append_drop]
  have hpos : ((i : ℤ) + 1 - w.length).toNat = v.length := by omega
  refine ⟨by omega, ?_⟩
  unfold substr
  rw [if_pos (by omega), if_neg (by omega), hpos, Option.some.injEq, htext]
  simp

/-- The words reported at a node are its own path and the suffixes of it that are words. -/
theorem report_spec (h : Built n label W A) (hnode : node < n)
    (hsuffix : label node <:+ text.take (i + 1)) (hi : i < text.length)
    (hfuel : (label node).length < fuel) :
    report A text i fuel (some node) = some ((suffixes (· ∈ W) (label node)).map fun w =>
      ⟨i + 1 - w.length, i, w⟩) := by
  induction fuel generalizing node with
  | zero => exact absurd hfuel (Nat.not_lt_zero _)
  | succ fuel ih =>
    have hterminal := Bfs.isTerminal_iff h.marked hnode
    have hrest : report A text i fuel (A.nodes node).terminalLink =
        some (((link (· ∈ W) (label node)).elim [] (suffixes (· ∈ W))).map
          fun w => (⟨i + 1 - w.length, i, w⟩ : Match)) := by
      have hterm := h.term node hnode
      unfold TermOk at hterm
      cases hlink : link (· ∈ W) (label node) with
      | none =>
        rw [hlink] at hterm
        rw [hterm]
        cases fuel <;> rfl
      | some u =>
        rw [hlink] at hterm
        obtain ⟨j, hj, rfl, hlinkj⟩ := hterm
        have hlt := link_length_lt hlink
        rw [hlinkj]
        exact ih hj ((link_suffix hlink).trans hsuffix) (by omega)
    rw [suffixes_step, List.map_append]
    unfold report
    by_cases hw : label node ∈ W
    · obtain ⟨hle, hsub⟩ := substr_suffix hsuffix hi
      have hlen : (A.nodes node).wordLength = (label node).length := by
        rw [h.marked node hnode, if_pos hw]
      have hstart : ((i : ℤ) + 1 - (label node).length).toNat =
        i + 1 - (label node).length := by omega
      simp only [hterminal.mpr hw, if_true, hlen, hsub, hrest, hw, hstart, Option.bind_eq_bind,
        Option.bind_some]
      rfl
    · have hfalse : (A.nodes node).isTerminal = false := by
        rw [← Bool.not_eq_true, hterminal]
        exact hw
      simp only [hfalse, Bool.false_eq_true, if_false, hrest, hw]
      rfl

/-- The search from a position, at the node of the longest suffix of what has been read. -/
theorem searchFrom_spec (h : Built n label W A) {rest : List UInt8} (hnode : node < n)
    (hi : i + rest.length = text.length) (hrest : text.drop i = rest)
    (hnear : nearest (· ∈ paths n label) (text.take i) = some (label node))
    (hfuel : ∀ i < n, (label i).length < fuel) :
    searchFrom A fuel text rest i node = some ((List.range' i rest.length).flatMap
      (occurrencesAt (· ∈ W) text)) := by
  induction rest generalizing i node with
  | nil => rfl
  | cons c rest ih =>
    rw [List.length_cons] at hi
    have hlt : i < text.length := by omega
    have hdrop := List.drop_eq_getElem_cons hlt
    rw [hrest, List.cons.injEq] at hdrop
    have htake : text.take (i + 1) = text.take i ++ [c] := by
      rw [List.take_succ_eq_append_getElem hlt, ← hdrop.1]
    obtain ⟨j, hj, hfollow, hroot, -, hnear'⟩ := follow_spec (c := c) h.shape
      (fun k hk hk0 _ => h.linked k hk hk0) hnode (hfuel node hnode)
    rw [← nearest_append h.shape.closed hnear, ← htake] at hnear'
    generalize hnode' : ((A.nodes j).children c).getD j = node' at hnear'
    have hlt' : node' < n := by
      cases hc : (A.nodes j).children c with
      | none =>
        rw [hc, Option.getD_none] at hnode'
        exact hnode' ▸ hj
      | some k =>
        rw [hc, Option.getD_some] at hnode'
        exact hnode' ▸ ((h.shape.child j c k hj).mp hc).1
    have hreport := report_spec h hlt' (nearest_spec hnear').2 hlt (hfuel node' hlt')
    rw [← suffixes_nearest h.stored hnear'] at hreport
    have hlater := ih hlt' (i := i + 1) (by omega) hdrop.2.symm hnear'
    simp only [searchFrom, hfollow, hnode', hreport, hlater, Option.bind_eq_bind, Option.bind_some]
    rw [List.length_cons, List.range'_succ, List.flatMap_cons]
    rfl

end Report

section Occurrences

variable {W : List (List UInt8)} {text : List UInt8} {i : ℕ}

theorem mem_occurrencesAt {m : Match} :
    m ∈ occurrencesAt (· ∈ W) text i ↔ ∃ w ∈ W, w <:+ text.take (i + 1) ∧
      m = ⟨i + 1 - w.length, i, w⟩ := by
  simp only [occurrencesAt, List.mem_map, mem_suffixes]
  constructor
  · rintro ⟨w, ⟨hs, hw⟩, rfl⟩
    exact ⟨w, hw, hs, rfl⟩
  · rintro ⟨w, hw, hs, rfl⟩
    exact ⟨w, ⟨hs, hw⟩, rfl⟩

theorem pairwise_occurrencesAt : (occurrencesAt (· ∈ W) text i).Pairwise Match.Before := by
  rw [occurrencesAt, List.pairwise_map]
  exact pairwise_suffixes.imp fun hlt => Or.inr ⟨rfl, hlt⟩

theorem pairwise_occurrences {l : List ℕ} (hl : l.Pairwise (· < ·)) :
    (l.flatMap (occurrencesAt (· ∈ W) text)).Pairwise Match.Before := by
  rw [List.pairwise_flatMap]
  refine ⟨fun i _ => pairwise_occurrencesAt, hl.imp fun hij m hm m' hm' => Or.inl ?_⟩
  obtain ⟨w, -, -, rfl⟩ := mem_occurrencesAt.mp hm
  obtain ⟨w', -, -, rfl⟩ := mem_occurrencesAt.mp hm'
  exact hij

end Occurrences

/-- `Create` terminates, and `Search` on what it constructs reports every occurrence of every
word: in the order of their ends, the longest first, each once. -/
theorem search_exact (words : List (List UInt8)) (hw : ∀ w ∈ words, w.length < 2 ^ 31) (fuel : ℕ)
    (hfuel : (words.map List.length).sum < fuel) :
    ∃ A, create fuel words = some A ∧ ∀ text, ∃ l, A.search fuel text = some l ∧
      l.Pairwise Match.Before ∧ ∀ m, m ∈ l ↔ ∃ i < text.length, ∃ w ∈ words,
      w <:+ text.take (i + 1) ∧ m = ⟨i + 1 - w.length, i, w⟩ := by
  obtain ⟨A, n, label, hcreate, hn, hbuilt⟩ := create_built hw hfuel
  refine ⟨A, hcreate, fun text => ?_⟩
  have hnear : nearest (· ∈ paths n label) (text.take 0) = some (label 0) := by
    rw [List.take_zero, hbuilt.shape.root]
    exact nearest_of_mem hbuilt.shape.nil_mem
  have hrun : A.search fuel text = some ((List.range' 0 text.length).flatMap
    (occurrencesAt (· ∈ words.reverse) text)) :=
    searchFrom_spec hbuilt hbuilt.shape.pos (Nat.zero_add _) rfl hnear
      fun i hi => (length_lt_size hbuilt.shape hi).trans_le hn
  refine ⟨_, hrun, pairwise_occurrences List.pairwise_lt_range', fun m => ?_⟩
  simp only [List.mem_flatMap, List.mem_range'_1, mem_occurrencesAt, List.mem_reverse]
  constructor
  · rintro ⟨i, ⟨-, hi⟩, hm⟩
    exact ⟨i, by simpa using hi, hm⟩
  · rintro ⟨i, hi, hm⟩
    exact ⟨i, ⟨Nat.zero_le i, by simpa using hi⟩, hm⟩

/-- The words "he" and "she". -/
theorem search_exact_she : ∃ A, create 6 [[104, 101], [115, 104, 101]] = some A ∧ ∀ text, ∃ l,
    A.search 6 text = some l ∧ l.Pairwise Match.Before ∧ ∀ m, m ∈ l ↔ ∃ i < text.length,
      ∃ w ∈ [[104, 101], [115, 104, 101]], w <:+ text.take (i + 1) ∧ m = ⟨i + 1 - w.length, i, w⟩ :=
  search_exact [[104, 101], [115, 104, 101]] (by decide) 6 (by decide)

end TinyPointerTrees.AhoCorasick
