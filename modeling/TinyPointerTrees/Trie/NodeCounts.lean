import TinyPointerTrees.Library.Prefixes
import TinyPointerTrees.Trie.TinyTrie2

/-!
# `compute_node_counts`

How many nodes of each fill a trie over a sorted list of words has. The function
splits a range of the list into groups of words that have the same byte at some
depth, and counts the nodes of each group recursively.

* `computeNodeCountsForDepth_eq` — a range of words that begin alike is counted right.
* `computeNodeCounts_eq` — the counts are those of all prefixes, and `BulkCreate`
  allocates a node for each that is followed by some byte.
-/

namespace TinyPointerTrees

open PathTrie TrieM Prefixes

/-- `std::array<size_t, 257>`. -/
abbrev NodeCounts := Fin 257 → ℕ

variable (words : List Word)

/-- The loop for `first_start`, which is at index `i` and has `n` indices left. Reading beyond the
words is undefined. -/
def firstStart (depth : ℕ) : (n i : ℕ) → Option ℕ
  | 0, i => some i
  | n + 1, i => do
    let w ← words[i]?
    if depth < w.length then return i
    else firstStart depth n (i + 1)

/-- The loop for `last_end`. -/
def lastEnd (depth first : ℕ) : ℕ → Option ℕ
  | 0 => some 0
  | e + 1 =>
    if e + 1 > first then do
      let w ← words[e + 1]?
      if depth < w.length then return e + 1
      else lastEnd depth first e
    else some (e + 1)

/-- The variables of the loop over all words in range. -/
structure Groups where
  res : NodeCounts
  /-- `cur_node_child_count`. -/
  childCount : ℕ
  /-- `cur_char_start`. -/
  charStart : ℕ
  /-- `cur_char`. -/
  char : UInt8

/-- The body of the loop over all words in range, where `sub` computes the node counts for a
subtree. -/
def groupStep (sub : (start stop : ℕ) → Option NodeCounts) (depth : ℕ) (g : Groups) (i : ℕ) :
    Option Groups := do
  let w ← words[i]?
  match w[depth]? with
  | none => return g
  | some c =>
    if c ≠ g.char then
      let subtree ← sub g.charStart i
      return ⟨g.res + subtree, g.childCount + 1, i, c⟩
    else return g

/-- The groups of the words from `first` to `last`, which have the bytes `c` and `d`. All groups but
the last are counted; there is no loop if there is one group only. -/
def countGroups (sub : (start stop : ℕ) → Option NodeCounts) (depth first last : ℕ) (c d : UInt8) :
    Option Groups :=
  if last > first ∧ d ≠ c then
    (List.range' (first + 1) (last - first)).foldlM (groupStep words sub depth) ⟨0, 1, first, c⟩
  else some ⟨0, 1, first, c⟩

/-- `compute_node_counts_for_depth`. Its depth is bounded by the length of the longest word, and the
fuel is for the depth that is left. -/
def computeNodeCountsForDepth : (fuel start stop depth : ℕ) → Option NodeCounts
  | 0, _, _, _ => none
  | fuel + 1, start, stop, depth =>
    if start ≥ stop then some 0
    else do
      let first ← firstStart words depth (stop - start) start
      if first = stop then return Pi.single 0 1
      else
        let last ← lastEnd words depth first (stop - 1)
        let c ← (← words[first]?)[depth]?
        let d ← (← words[last]?)[depth]?
        let sub := fun start stop => computeNodeCountsForDepth fuel start stop (depth + 1)
        let g ← countGroups words sub depth first last c d
        let subtree ← sub g.charStart stop
        -- the assertion that the node has less than `257` children
        if h : g.childCount < 257 then return g.res + subtree + Pi.single ⟨g.childCount, h⟩ 1
        else none

/-- `compute_node_counts`. -/
def computeNodeCounts : Option NodeCounts :=
  computeNodeCountsForDepth words ((words.map List.length).foldr max 0 + 1) 0 words.length 0

example :
    (computeNodeCounts [[97], [97], [97, 98], [98]]).map (fun r => [r 0, r 1, r 2]) =
      some [2, 1, 1] := by
  decide

/-! ### Sorted words -/

theorem append_le_append_iff {p v w : Word} : p ++ v ≤ p ++ w ↔ v ≤ w := by
  induction p with
  | nil => rfl
  | cons c p ih => simp only [List.cons_append, List.cons_le_cons_iff, UInt8.lt_irrefl,
      true_and, false_or, ih]

/-- Words that have a prefix in common are sorted by the byte that follows it. -/
theorem byte_le_of_le {p v w : Word} {c d : UInt8} (hv : p ++ [c] <+: v) (hw : p ++ [d] <+: w)
    (h : v ≤ w) : c ≤ d := by
  obtain ⟨v, rfl⟩ := hv
  obtain ⟨w, rfl⟩ := hw
  rw [List.append_assoc, List.append_assoc, append_le_append_iff] at h
  rcases List.cons_le_cons_iff.1 h with h | ⟨rfl, -⟩
  · exact UInt8.le_of_lt h
  · exact UInt8.le_refl c

/-- After a word that goes on there is none that does not. -/
theorem goes_of_le {p v w : Word} {c : UInt8} (hv : p ++ [c] <+: v) (hw : p <+: w) (h : v ≤ w) :
    ∃ d, p ++ [d] <+: w := by
  obtain ⟨v, rfl⟩ := hv
  obtain ⟨w, rfl⟩ := hw
  rw [List.append_assoc, append_le_append_iff] at h
  cases w with
  | nil => exact absurd (List.le_nil.1 h) (by simp)
  | cons d w => exact ⟨d, w, by simp⟩

/-- The words in a range. -/
def slice (start stop : ℕ) : Finset Word :=
  (Finset.Ico start stop).biUnion fun i => words[i]?.toFinset

variable {words} {start first stop i j : ℕ} {p v w : Word} {c d : UInt8} {depth : ℕ}

theorem mem_slice :
    w ∈ slice words start stop ↔ ∃ i, start ≤ i ∧ i < stop ∧ words[i]? = some w := by
  simp only [slice, Finset.mem_biUnion, Finset.mem_Ico, Option.mem_toFinset,
    Option.mem_def, and_assoc]

theorem slice_eq_toFinset : slice words 0 words.length = words.toFinset := by
  ext w
  rw [mem_slice, List.mem_toFinset, List.mem_iff_getElem?]
  constructor
  · rintro ⟨i, -, -, h⟩
    exact ⟨i, h⟩
  · rintro ⟨i, h⟩
    exact ⟨i, Nat.zero_le i, (List.getElem?_eq_some_iff.1 h).1, h⟩

theorem getElem?_of_isPrefix (h : p ++ [c] <+: w) : w[p.length]? = some c := by
  obtain ⟨r, rfl⟩ := h
  rw [List.append_assoc, List.getElem?_append_right le_rfl, Nat.sub_self]
  rfl

theorem le_of_le_index (hs : words.Pairwise (· ≤ ·)) (hij : i ≤ j) (hv : words[i]? = some v)
    (hw : words[j]? = some w) : v ≤ w := by
  obtain ⟨hi, rfl⟩ := List.getElem?_eq_some_iff.1 hv
  obtain ⟨hj, rfl⟩ := List.getElem?_eq_some_iff.1 hw
  rcases hij.eq_or_lt with rfl | hlt
  · exact List.le_refl _
  · exact List.pairwise_iff_getElem.1 hs i j hi hj hlt

/-! ### The bounds of the words that go on -/

/-- The loop for `first_start` stops at the first word that goes on. -/
theorem firstStart_eq {n : ℕ} (h : i + n ≤ words.length) (depth : ℕ) :
    ∃ f, firstStart words depth n i = some f ∧ i ≤ f ∧ f ≤ i + n ∧
      (∀ j, i ≤ j → j < f → ∀ w, words[j]? = some w → w.length ≤ depth) ∧
      (f < i + n → ∃ w, words[f]? = some w ∧ depth < w.length) := by
  induction n generalizing i with
  | zero => exact ⟨i, rfl, le_rfl, le_rfl, fun j hij hji => absurd hij hji.not_ge, fun h =>
      absurd h (lt_irrefl _)⟩
  | succ n ih =>
    have hi : i < words.length := by omega
    rw [firstStart, List.getElem?_eq_getElem hi, Option.bind_eq_bind, Option.bind_some]
    split_ifs with hd
    · exact ⟨i, rfl, le_rfl, by omega, fun j hij hji => absurd hij hji.not_ge,
        fun _ => ⟨_, List.getElem?_eq_getElem hi, hd⟩⟩
    · obtain ⟨f, hf, hle, hlt, hended, hgoes⟩ := @ih (i + 1) (by omega)
      refine ⟨f, hf, by omega, by omega, fun j hij hjf w hw => ?_, fun hf => hgoes (by omega)⟩
      rcases hij.eq_or_lt with rfl | hij
      · rw [List.getElem?_eq_getElem hi, Option.some.injEq] at hw
        rw [← hw]
        exact not_lt.1 hd
      · exact hended j hij hjf w hw

/-- The loop for `last_end` does not go back over a word that goes on. -/
theorem lastEnd_eq (hle : first ≤ i) (hw : words[i]? = some w) (hd : depth < w.length) :
    lastEnd words depth first i = some i := by
  cases i with
  | zero => rfl
  | succ i =>
    rw [lastEnd, hw, Option.bind_eq_bind, Option.bind_some, if_pos hd]
    split_ifs <;> rfl

/-- How many prefixes of words that extend `p` go on with how many bytes. -/
def fills (W : Finset Word) (p : Word) : NodeCounts := fun n => fanouts W p n

/-! ### Groups -/

/-- A range of words that extend `p`; those from `first` on go on. -/
structure Opened (words : List Word) (start first stop : ℕ) (p : Word) : Prop where
  sorted : words.Pairwise (· ≤ ·)
  start_le : start ≤ first
  first_lt : first < stop
  ended : ∀ j, start ≤ j → j < first → words[j]? = some p
  goes : ∀ j, first ≤ j → j < stop → ∃ w d, words[j]? = some w ∧ p ++ [d] <+: w

/-- The loop has reached index `i`: the groups before the current one are counted. -/
structure Grouped (words : List Word) (start first stop : ℕ) (p : Word) (i : ℕ) (g : Groups) :
    Prop where
  le_charStart : first ≤ g.charStart
  charStart_lt : g.charStart < i
  char : ∀ j, g.charStart ≤ j → j < i → ∀ w, words[j]? = some w → p ++ [g.char] <+: w
  lt_char : ∀ d ∈ nexts (slice words start g.charStart) p, d < g.char
  childCount : g.childCount = (nexts (slice words start g.charStart) p).card + 1
  res : g.res = ∑ d ∈ nexts (slice words start g.charStart) p,
    fills (slice words start stop) (p ++ [d])

variable {g : Groups}

theorem mem_nexts_slice : d ∈ nexts (slice words start stop) p ↔
    ∃ j w, start ≤ j ∧ j < stop ∧ words[j]? = some w ∧ p ++ [d] <+: w := by
  simp only [mem_nexts, mem_slice]
  constructor
  · rintro ⟨w, ⟨j, hj, hj', hw⟩, hd⟩
    exact ⟨j, w, hj, hj', hw, hd⟩
  · rintro ⟨j, w, hj, hj', hw, hd⟩
    exact ⟨w, ⟨j, hj, hj', hw⟩, hd⟩

theorem eq_of_isPrefix (hc : p ++ [c] <+: w) (hd : p ++ [d] <+: w) : c = d := by
  have h := getElem?_of_isPrefix hc
  rw [getElem?_of_isPrefix hd] at h
  exact (Option.some.inj h).symm

/-- The bytes of words that go on are in order. -/
theorem Opened.byte_le (h : Opened words start first stop p) (hij : i ≤ j) (hv : words[i]? = some v)
    (hw : words[j]? = some w) (hc : p ++ [c] <+: v) (hd : p ++ [d] <+: w) : c ≤ d :=
  byte_le_of_le hc hd (le_of_le_index h.sorted hij hv hw)

namespace Grouped

variable (h : Grouped words start first stop p i g) (ho : Opened words start first stop p)

include h

theorem char_notMem : g.char ∉ nexts (slice words start g.charStart) p :=
  fun hmem => UInt8.lt_irrefl _ (h.lt_char _ hmem)

include ho

/-- The word with which the current group starts. -/
theorem exists_start (hi : i ≤ stop) : ∃ w, words[g.charStart]? = some w ∧ p ++ [g.char] <+: w := by
  obtain ⟨w, -, hw, -⟩ := ho.goes _ h.le_charStart (h.charStart_lt.trans_le hi)
  exact ⟨w, hw, h.char _ le_rfl h.charStart_lt w hw⟩

/-- The current group adds its byte. -/
theorem nexts_eq (hi : i ≤ stop) :
    nexts (slice words start i) p = insert g.char (nexts (slice words start g.charStart) p) := by
  ext d
  rw [Finset.mem_insert, mem_nexts_slice, mem_nexts_slice]
  constructor
  · rintro ⟨j, w, hj, hji, hw, hd⟩
    rcases Nat.lt_or_ge j g.charStart with hlt | hge
    · exact .inr ⟨j, w, hj, hlt, hw, hd⟩
    · exact .inl (eq_of_isPrefix hd (h.char j hge hji w hw))
  · rintro (rfl | ⟨j, w, hj, hlt, hw, hd⟩)
    · obtain ⟨w, hw, hc⟩ := h.exists_start ho hi
      exact ⟨_, w, ho.start_le.trans h.le_charStart, h.charStart_lt, hw, hc⟩
    · exact ⟨j, w, hj, hlt.trans h.charStart_lt, hw, hd⟩

/-- The words of the range that have the current byte are the current group, if those that follow
have another. -/
theorem fills_eq (hi : i ≤ stop)
    (hlt : ∀ j w, i ≤ j → j < stop → words[j]? = some w → ¬p ++ [g.char] <+: w) :
    fills (slice words g.charStart i) (p ++ [g.char]) = fills (slice words start stop)
      (p ++ [g.char]) := by
  funext n
  refine fanouts_congr (fun w hc => ?_) n
  rw [mem_slice, mem_slice]
  constructor
  · rintro ⟨j, hj, hji, hw⟩
    exact ⟨j, (ho.start_le.trans h.le_charStart).trans hj, hji.trans_le hi, hw⟩
  · rintro ⟨j, hj, hjs, hw⟩
    refine ⟨j, ?_, ?_, hw⟩
    · by_contra hlt
      exact h.char_notMem (mem_nexts_slice.2 ⟨j, w, hj, not_le.1 hlt, hw, hc⟩)
    · by_contra hge
      exact hlt j w (not_lt.1 hge) hjs hw hc

/-- The body of the loop. -/
theorem step {sub : ℕ → ℕ → Option NodeCounts} (hi : i < stop)
    (hsub : ∀ a b c, start ≤ a → a < b → b ≤ stop → (∀ j w, a ≤ j → j < b → words[j]? = some w →
      p ++ [c] <+: w) → sub a b = some (fills (slice words a b) (p ++ [c]))) :
    ∃ g', groupStep words sub p.length g i = some g' ∧ Grouped words start first stop p
      (i + 1) g' := by
  obtain ⟨w, d, hw, hd⟩ := ho.goes i (h.le_charStart.trans h.charStart_lt.le) hi
  obtain ⟨v, hv, hc⟩ := h.exists_start ho hi.le
  have hcd : g.char ≤ d := ho.byte_le h.charStart_lt.le hv hw hc hd
  unfold groupStep
  simp only [hw, getElem?_of_isPrefix hd, Option.bind_eq_bind, Option.bind_some]
  by_cases heq : d = g.char
  · subst heq
    refine ⟨g, if_neg (not_not.2 rfl), h.le_charStart, h.charStart_lt.trans (Nat.lt_succ_self i),
      fun j hj hji u hu => ?_, h.lt_char, h.childCount, h.res⟩
    rcases (Nat.lt_succ_iff.1 hji).eq_or_lt with rfl | hlt
    · rw [hw, Option.some.injEq] at hu
      exact hu ▸ hd
    · exact h.char j hj hlt u hu
  · -- a new group starts, and the last one is counted
    have hne : g.char < d := by
      rcases UInt8.lt_or_eq_of_le hcd with hlt | hlt
      · exact hlt
      · exact absurd hlt.symm heq
    rw [if_pos heq, hsub g.charStart i g.char (ho.start_le.trans h.le_charStart)
      h.charStart_lt hi.le fun j w hj hji hw => h.char j hj hji w hw]
    have hrest : ∀ j w, i ≤ j → j < stop → words[j]? = some w → ¬p ++ [g.char] <+: w := by
      intro j u hj hjs hu hcu
      exact UInt8.not_le.2 hne (ho.byte_le hj hw hu hd hcu)
    refine ⟨_, rfl, h.le_charStart.trans h.charStart_lt.le, Nat.lt_succ_self i,
      fun j hj hji u hu => ?_, fun e he => ?_, ?_, ?_⟩
    · obtain rfl : i = j := Nat.le_antisymm hj (Nat.lt_succ_iff.1 hji)
      rw [hw, Option.some.injEq] at hu
      exact hu ▸ hd
    · rw [h.nexts_eq ho hi.le, Finset.mem_insert] at he
      rcases he with rfl | he
      · exact hne
      · exact UInt8.lt_trans (h.lt_char e he) hne
    · rw [h.nexts_eq ho hi.le, Finset.card_insert_of_notMem h.char_notMem, ← h.childCount]
    · rw [h.nexts_eq ho hi.le, Finset.sum_insert h.char_notMem, ← h.res, ← h.fills_eq ho hi.le
        hrest, add_comm]

/-- The loop. -/
theorem run {sub : ℕ → ℕ → Option NodeCounts} {n : ℕ} (hi : i + n ≤ stop)
    (hsub : ∀ a b c, start ≤ a → a < b → b ≤ stop → (∀ j w, a ≤ j → j < b → words[j]? = some w →
      p ++ [c] <+: w) → sub a b = some (fills (slice words a b) (p ++ [c]))) :
    ∃ g', (List.range' i n).foldlM (groupStep words sub p.length) g = some g' ∧
      Grouped words start first stop p (i + n) g' := by
  induction n generalizing i g with
  | zero => exact ⟨g, rfl, h⟩
  | succ n ih =>
    obtain ⟨g', hg', h'⟩ := h.step ho (by omega) hsub
    obtain ⟨g'', hg'', h''⟩ := ih h' (by omega)
    refine ⟨g'', ?_, by rwa [Nat.add_assoc, Nat.add_comm 1] at h''⟩
    rw [List.range'_succ, List.foldlM_cons, hg', Option.bind_eq_bind, Option.bind_some, hg'']

end Grouped

/-! ### The counts of a range -/

theorem sum_fills {W : Finset Word} (h : ∃ w ∈ W, p <+: w) (hcard : (nexts W p).card < 257) :
    fills W p = ∑ d ∈ nexts W p, fills W (p ++ [d]) + Pi.single ⟨(nexts W p).card, hcard⟩ 1 := by
  funext n
  rw [Pi.add_apply, Finset.sum_apply, Pi.single_apply]
  simp only [fills, fanouts_eq h, Fin.ext_iff, eq_comm (a := (n : ℕ)), Nat.add_comm]

theorem card_nexts_lt (W : Finset Word) (p : Word) : (nexts W p).card < 257 := by
  have hle : (nexts W p).card ≤ (Finset.range 256).card :=
    Finset.card_le_card_of_injOn UInt8.toNat (fun c _ =>
      Finset.mem_coe.2 (Finset.mem_range.2 c.toNat_lt)) fun c _ d _ h => UInt8.toNat_inj.1 h
  rw [Finset.card_range] at hle
  omega

/-- A range of words that begin alike, and of which one goes on. -/
theorem exists_opened (hs : words.Pairwise (· ≤ ·)) (hstop : stop ≤ words.length)
    (hp : ∀ j w, start ≤ j → j < stop → words[j]? = some w → p <+: w) (hle : start ≤ first)
    (hlt : first < stop)
    (hended : ∀ j, start ≤ j → j < first → ∀ w, words[j]? = some w → w.length ≤ p.length)
    (hgoes : ∃ w, words[first]? = some w ∧ p.length < w.length) :
    Opened words start first stop p := by
  refine ⟨hs, hle, hlt, fun j hj hjf => ?_, fun j hj hjs => ?_⟩
  · have hjw : j < words.length := by omega
    have hget := List.getElem?_eq_getElem hjw
    rw [hget, Option.some.injEq]
    exact ((hp j _ hj (hjf.trans hlt) hget).eq_of_length_le (hended j hj hjf _ hget)).symm
  · obtain ⟨v, hv, hlen⟩ := hgoes
    obtain ⟨r, rfl⟩ := hp first v hle hlt hv
    cases r with
    | nil => simp at hlen
    | cons c r =>
      have hget := List.getElem?_eq_getElem (hjs.trans_le hstop)
      obtain ⟨d, hd⟩ := goes_of_le (c := c) ⟨r, by simp⟩ (hp j _ (hle.trans hj) hjs hget)
        (le_of_le_index hs hj hv hget)
      exact ⟨_, d, hget, hd⟩

/-- The variables before the loop, as long as the words have the same byte. -/
theorem Opened.grouped (h : Opened words start first stop p) (hfi : first < i)
    (hsame : ∀ j, first ≤ j → j < i → ∀ w, words[j]? = some w → p ++ [c] <+: w) :
    Grouped words start first stop p i ⟨0, 1, first, c⟩ := by
  have hnone : nexts (slice words start first) p = ∅ := by
    rw [Finset.eq_empty_iff_forall_notMem]
    intro d hd
    obtain ⟨j, w, hj, hjf, hw, hd⟩ := mem_nexts_slice.1 hd
    rw [h.ended j hj hjf, Option.some.injEq] at hw
    have hlen := hd.length_le
    rw [← hw] at hlen
    simp at hlen
  refine ⟨le_rfl, hfi, hsame, fun d hd => ?_, ?_, ?_⟩
  · rw [hnone] at hd
    simp at hd
  · rw [hnone]
    rfl
  · rw [hnone]
    rfl

/-- The groups of a range, whether the loop is skipped or not. -/
theorem Opened.groups (ho : Opened words start first stop p) {sub : ℕ → ℕ → Option NodeCounts}
    (hv : words[first]? = some v) (hc : p ++ [c] <+: v) (hw : words[stop - 1]? = some w)
    (hd : p ++ [d] <+: w)
    (hsub : ∀ a b c, start ≤ a → a < b → b ≤ stop → (∀ j w, a ≤ j → j < b → words[j]? = some w →
      p ++ [c] <+: w) → sub a b = some (fills (slice words a b) (p ++ [c]))) :
    ∃ g, countGroups words sub p.length first (stop - 1) c d = some g ∧
      Grouped words start first stop p stop g := by
  have hlt := ho.first_lt
  unfold countGroups
  split_ifs with hloop
  · have hone : Grouped words start first stop p (first + 1) ⟨0, 1, first, c⟩ := by
      refine ho.grouped (Nat.lt_succ_self first) fun j hj hjf u hu => ?_
      obtain rfl : first = j := Nat.le_antisymm hj (Nat.lt_succ_iff.1 hjf)
      rw [hv, Option.some.injEq] at hu
      exact hu ▸ hc
    have hn : first + 1 + (stop - 1 - first) = stop := by omega
    obtain ⟨g, hg, hgrouped⟩ := hone.run ho (n := stop - 1 - first) hn.le hsub
    rw [hn] at hgrouped
    exact ⟨g, hg, hgrouped⟩
  · -- the first and the last word have the same byte
    have hdc : d = c := by
      by_contra hne
      obtain rfl : first = stop - 1 := Nat.le_antisymm (by omega) (not_lt.1 fun h => hloop ⟨h, hne⟩)
      rw [hv, Option.some.injEq] at hw
      exact hne (eq_of_isPrefix hd (hw ▸ hc))
    subst hdc
    refine ⟨_, rfl, ho.grouped hlt fun j hj hjs u hu => ?_⟩
    obtain ⟨u', e, hu', he⟩ := ho.goes j hj hjs
    rw [hu, Option.some.injEq] at hu'
    subst hu'
    have hle := ho.byte_le hj hv hu hc he
    have hge := ho.byte_le (Nat.le_sub_one_of_lt hjs) hu hw he hd
    obtain rfl := UInt8.le_antisymm hle hge
    exact he

/-- The node at `p` when all groups but the last have been counted. -/
theorem Grouped.finish (h : Grouped words start first stop p stop g)
    (ho : Opened words start first stop p) :
    ∃ hcard : g.childCount < 257, g.res + fills (slice words g.charStart stop) (p ++ [g.char]) +
      Pi.single ⟨g.childCount, hcard⟩ 1 = fills (slice words start stop) p := by
  have hcount : g.childCount = (nexts (slice words start stop) p).card := by
    rw [h.childCount, h.nexts_eq ho le_rfl, Finset.card_insert_of_notMem h.char_notMem]
  have hcard := card_nexts_lt (slice words start stop) p
  obtain ⟨w, hw, hc⟩ := h.exists_start ho le_rfl
  have hmem : ∃ w ∈ slice words start stop, p <+: w :=
    ⟨w, mem_slice.2 ⟨_, ho.start_le.trans h.le_charStart, h.charStart_lt, hw⟩,
      (List.prefix_append p _).trans hc⟩
  refine ⟨hcount ▸ hcard, ?_⟩
  rw [sum_fills hmem hcard]
  simp only [hcount]
  congr 1
  rw [h.nexts_eq ho le_rfl, Finset.sum_insert h.char_notMem, ← h.res,
    h.fills_eq ho le_rfl fun j w hj hjs => absurd hj hjs.not_ge, add_comm]

theorem fills_of_ended (hstop : stop ≤ words.length) (hlt : start < stop)
    (hall : ∀ j, start ≤ j → j < stop → ∀ w, words[j]? = some w → w = p) :
    fills (slice words start stop) p = Pi.single 0 1 := by
  have hnone : nexts (slice words start stop) p = ∅ := by
    rw [nexts_eq_empty]
    intro w hw _
    obtain ⟨j, hj, hjs, hw⟩ := mem_slice.1 hw
    exact hall j hj hjs w hw
  have hget := List.getElem?_eq_getElem (hlt.trans_le hstop)
  have hmem : ∃ w ∈ slice words start stop, p <+: w :=
    ⟨_, mem_slice.2 ⟨start, le_rfl, hlt, hget⟩, by rw [hall start le_rfl hlt _ hget]⟩
  rw [sum_fills hmem (card_nexts_lt _ _)]
  simp only [hnone, Finset.sum_empty, Finset.card_empty, zero_add]
  rfl

/-- The counts of a range of words that begin alike, with fuel for the longest of them. -/
theorem computeNodeCountsForDepth_eq (hs : words.Pairwise (· ≤ ·)) {fuel : ℕ}
    (hstop : stop ≤ words.length) (hp : ∀ j w, start ≤ j → j < stop → words[j]? = some w → p <+: w)
    (hfuel : ∀ j w, start ≤ j → j < stop → words[j]? = some w → w.length < p.length + fuel)
    (hpos : 0 < fuel) :
    computeNodeCountsForDepth words fuel start stop p.length =
      some (fills (slice words start stop) p) := by
  induction fuel generalizing start stop p with
  | zero => exact absurd hpos (lt_irrefl 0)
  | succ fuel ih =>
    rw [computeNodeCountsForDepth]
    split_ifs with hempty
    · congr 1
      funext n
      refine (fanouts_of_none (fun w hw _ => ?_) n).symm
      obtain ⟨j, hj, hjs, -⟩ := mem_slice.1 hw
      omega
    rw [ge_iff_le, not_le] at hempty
    obtain ⟨first, hfirst, hle, hlast, hended, hgoes⟩ :=
      firstStart_eq (Nat.add_sub_of_le hempty.le ▸ hstop) p.length
    rw [Nat.add_sub_of_le hempty.le] at hlast hgoes
    rw [hfirst, Option.bind_eq_bind, Option.bind_some]
    split_ifs with hall
    · subst hall
      congr 1
      refine (fills_of_ended hstop hempty fun j hj hjs w hw => ?_).symm
      exact ((hp j w hj hjs hw).eq_of_length_le (hended j hj hjs w hw)).symm
    have hlt : first < stop := lt_of_le_of_ne hlast hall
    have ho := exists_opened hs hstop hp hle hlt hended (hgoes hlt)
    have hsub : ∀ a b c, start ≤ a → a < b → b ≤ stop →
        (∀ j w, a ≤ j → j < b → words[j]? = some w → p ++ [c] <+: w) →
        computeNodeCountsForDepth words fuel a b (p.length + 1) = some (fills (slice words a b)
        (p ++ [c])) := by
      intro a b c ha hab hb hc
      have hget := List.getElem?_eq_getElem (hab.trans_le (hb.trans hstop))
      have hlen := (hc a _ le_rfl hab hget).length_le
      have hshort := hfuel a _ ha (hab.trans_le hb) hget
      rw [List.length_append, List.length_singleton] at hlen
      have hdepth : (p ++ [c]).length = p.length + 1 := by simp
      rw [← hdepth]
      refine ih (hb.trans hstop) hc (fun j w hj hjb hw => ?_) (by omega)
      have := hfuel j w (ha.trans hj) (hjb.trans_le hb) hw
      omega
    obtain ⟨v, c, hv, hc⟩ := ho.goes first le_rfl hlt
    obtain ⟨u, d, hu, hd⟩ := ho.goes (stop - 1) (Nat.le_sub_one_of_lt hlt)
      (Nat.sub_one_lt_of_lt hlt)
    have hdepth : p.length < u.length := by simpa using hd.length_le
    obtain ⟨g, hg, hgrouped⟩ := ho.groups hv hc hu hd hsub
    rw [lastEnd_eq (Nat.le_sub_one_of_lt hlt) hu hdepth]
    simp only [hv, hu, getElem?_of_isPrefix hc, getElem?_of_isPrefix hd, Option.bind_eq_bind,
      Option.bind_some, hg]
    rw [hsub g.charStart stop g.char (ho.start_le.trans hgrouped.le_charStart)
      hgrouped.charStart_lt le_rfl fun j w hj hjs hw => hgrouped.char j hj hjs w hw,
      Option.bind_some]
    obtain ⟨hcard, hfinish⟩ := hgrouped.finish ho
    rw [dif_pos hcard, hfinish]
    rfl

/-- The counts of a sorted list. -/
theorem computeNodeCounts_fills (hs : words.Pairwise (· ≤ ·)) :
    computeNodeCounts words = some (fills words.toFinset []) := by
  have hmax : ∀ w ∈ words, w.length ≤ (words.map List.length).foldr max 0 := fun w hw =>
    List.le_max_of_le' 0 (List.mem_map_of_mem hw) le_rfl
  rw [← slice_eq_toFinset]
  refine computeNodeCountsForDepth_eq (p := []) hs le_rfl (fun j w _ _ _ => List.nil_prefix)
    (fun j w _ _ hw => ?_) (Nat.succ_pos _)
  have := hmax w (List.mem_of_getElem? hw)
  simp only [List.length_nil]
  omega

/-! ### The nodes of the trie -/

section Nodes

variable {S : Finset Word}

/-- Where the nodes of a trie are that stores a word that is not empty. -/
theorem nodes_eq (h : ∃ w ∈ S, w ≠ []) :
    insert [] (properPrefixes S) = (below S []).filter fun q => (nexts S q).card ≠ 0 := by
  ext q
  rw [Finset.mem_insert, mem_properPrefixes, Finset.mem_filter, Finset.card_ne_zero, mem_below]
  constructor
  · intro hq
    obtain ⟨c, r, hw⟩ : ∃ c r, q ++ [c] ++ r ∈ S := by
      rcases hq with rfl | ⟨-, hq⟩
      · obtain ⟨w, hw, hne⟩ := h
        obtain ⟨c, r, rfl⟩ := List.exists_cons_of_ne_nil hne
        exact ⟨c, r, hw⟩
      · exact hq
    have hc : q ++ [c] <+: q ++ [c] ++ r := List.prefix_append _ r
    exact ⟨⟨List.nil_prefix, _, hw, (List.prefix_append q [c]).trans hc⟩, c,
      mem_nexts.2 ⟨_, hw, hc⟩⟩
  · rintro ⟨-, c, hc⟩
    obtain ⟨w, hw, r, rfl⟩ := mem_nexts.1 hc
    exact or_iff_not_imp_left.2 fun hne => ⟨hne, c, r, hw⟩

/-- The nodes are counted by all entries but the first. -/
theorem card_nodes (h : ∃ w ∈ S, w ≠ []) :
    1 + (properPrefixes S).card = ∑ i, fills S [] i - fills S [] 0 := by
  have hsum : ∑ i, fills S [] i = (below S []).card := by
    rw [← sum_fanouts 257 fun q _ => card_nexts_lt S q]
    exact Fin.sum_univ_eq_sum_range (fun n => fanouts S [] n) 257
  have hsplit := Finset.card_filter_add_card_filter_not (s := below S []) fun q =>
    (nexts S q).card = 0
  rw [Nat.add_comm 1, ← Finset.card_insert_of_notMem
    (by simp [mem_properPrefixes] : [] ∉ properPrefixes S), nodes_eq h,
    hsum, ← hsplit]
  exact (Nat.add_sub_cancel_left ..).symm

end Nodes

/-! ### `BulkCreate` -/

/-- Insert one word after the other. -/
def TrieM.insertAll (X : BucketIndexer) (H : Hashing) : List Word → TrieM Unit
  | [] => return
  | w :: words => do
    let _ ← insert X H w
    insertAll X H words

namespace TinyTrie

/-- `TinyTrie(sorted_words)`, on a table for as many nodes as are counted; `indexer` is the indexer
of a table that is created for a number of nodes, and `storage` is what nobody has written in it. -/
def bulkCreate (indexer : ℕ → BucketIndexer) (storage : ℕ → ℕ → TrieNode) (words : List Word) :
    Option (EStateM.Result Fault Trie Unit) := do
  let nodeCounts ← computeNodeCounts words
  let X := indexer (∑ i, nodeCounts i)
  let T ← DerefTable.construct byteLayout X storage
  match Trie.create X T with
  | .ok () t => return insertAll X hashing words t
  | .error e t => return .error e t

end TinyTrie

/-- A trie that has as many nodes as were counted. -/
structure Trie.HasNodes (X : BucketIndexer) (n : ℕ) (t : Trie) : Prop where
  length_held : t.table.held.length = n
  /-- `node_count` says how many, when its assertion does not fail, -/
  nodeCount : ∀ m, t.nodeCount X = some m → m = n
  /-- and it does not fail unless the number of all entries overflows `_capacity`. -/
  nodeCount_eq : X.buckets * byteLayout.entriesPerBinCount < 2 ^ 32 → t.nodeCount X = some n

section Bulk

variable {X : BucketIndexer} {H : Hashing} {t : Trie} {S : Finset Word}

/-- A trie that is tight, and that stores a set of words. -/
def Tidy (X : BucketIndexer) (H : Hashing) (S : Finset Word) (t : Trie) : Prop :=
  ∃ T M, Rep X H t T M ∧ T.Words = ↑S ∧ T.Tight

theorem Tidy.hasNodes (h : Tidy X H S t) (hne : ∃ w ∈ S, w ≠ []) :
    t.HasNodes X (∑ i, fills S [] i - fills S [] 0) := by
  obtain ⟨T, M, hrep, hwords, ht⟩ := h
  rw [← card_nodes hne, ← hrep.length_held_of_tight hwords ht]
  exact ⟨rfl, fun m => TinyTrie2.nodeCount_eq_length hrep.wf, TinyTrie2.nodeCount_of_lt hrep.wf⟩

theorem insertAll_sat (hw : ∀ w ∈ words, ∀ c ∈ w, c < 128) (h : Tidy X H S t) :
    Sat (insertAll X H words t) (fun _ t' => Tidy X H (S ∪ words.toFinset) t') (Full X) := by
  induction words generalizing t S with
  | nil =>
    rw [List.toFinset_nil, Finset.union_empty]
    exact h
  | cons w words ih =>
    obtain ⟨T, M, hrep, hwords, ht⟩ := h
    rw [insertAll]
    refine Sat.bind ((insert_sat (hw w List.mem_cons_self) hrep).mono
      (fun _ _ => id) fun _ => And.left) ?_
    rintro b t' ⟨-, -, T', M', hrep', hwords', ht'⟩
    have htidy : Tidy X H (insert w S) t' :=
      ⟨T', M', hrep', by rw [hwords', hwords, Finset.coe_insert], ht' ht⟩
    have heq : S ∪ (w :: words).toFinset = insert w S ∪ words.toFinset := by
      rw [List.toFinset_cons, Finset.union_insert, Finset.insert_union]
    rw [heq]
    exact ih (fun v hv => hw v (List.mem_cons_of_mem w hv)) htidy

theorem tidy_create {storage : ℕ → ℕ → TrieNode} {T₀ : Table TrieNode}
    (h₀ : DerefTable.construct byteLayout X storage = some T₀) (h : Trie.create X T₀ = .ok () t) :
    Tidy X TinyTrie.hashing ∅ t := by
  have hinv : tinyTrie.Inv X True t ∅ := TrieClass.inv_create h₀ h
  obtain ⟨-, T, M, hrep, hwords, ht⟩ := hinv
  exact ⟨T, M, hrep, hwords, ht trivial⟩

end Bulk

/-- `BulkCreate` makes a trie of the words unless an insert throws because the table is full. -/
theorem TinyTrie.bulkCreate_sat {counts : NodeCounts} (hc : computeNodeCounts words = some counts)
    (hw : ∀ w ∈ words, ∀ c ∈ w, c < 128) (indexer : ℕ → BucketIndexer)
    (storage : ℕ → ℕ → TrieNode) :
    ∃ r, bulkCreate indexer storage words = some r ∧
      Sat r (fun _ t => Tidy (indexer (∑ i, counts i)) hashing words.toFinset t)
      (Full (indexer (∑ i, counts i))) := by
  obtain ⟨T₀, t, h₀, ht⟩ := TrieClass.exists_create (X := indexer (∑ i, counts i)) storage
  have htidy := insertAll_sat hw (tidy_create h₀ ht)
  rw [Finset.empty_union] at htidy
  refine ⟨_, ?_, htidy⟩
  unfold bulkCreate
  simp only [hc, h₀, ht, Option.bind_eq_bind, Option.bind_some]
  rfl

/-- What `compute_node_counts` predicts of a list of words. -/
structure Predicts (words : List Word) (counts : NodeCounts) : Prop where
  computed : computeNodeCounts words = some counts
  /-- Prefixes are counted by the number of bytes with which they go on. -/
  eq : ∀ i, counts i = fanouts words.toFinset [] i
  /-- The trie has a node for each that goes on, unless the dereference table throws because it is
  full. -/
  nodes : (∃ w ∈ words, w ≠ []) → (∀ w ∈ words, ∀ c ∈ w, c < 128) → ∀ indexer storage,
    ∃ r, TinyTrie.bulkCreate indexer storage words = some r ∧
      Sat r (fun _ t => t.HasNodes (indexer (∑ i, counts i)) (∑ i, counts i - counts 0))
        (Full (indexer (∑ i, counts i)))

/-- `compute_node_counts` of sorted words predicts the trie. -/
theorem computeNodeCounts_predicts (hs : words.Pairwise (· ≤ ·)) :
    ∃ counts, Predicts words counts := by
  have hc := computeNodeCounts_fills hs
  refine ⟨_, hc, fun i => rfl, fun hne hw indexer storage => ?_⟩
  obtain ⟨r, hr, hsat⟩ := TinyTrie.bulkCreate_sat hc hw indexer storage
  refine ⟨r, hr, hsat.mono (fun _ t ht => ht.hasNodes ?_) fun _ => id⟩
  obtain ⟨w, hw, hne⟩ := hne
  exact ⟨w, List.mem_toFinset.2 hw, hne⟩

theorem computeNodeCounts_predicts_duplicates :
    ∃ counts, Predicts [[], [97], [97], [97, 98], [98]] counts ∧ ∀ indexer storage, ∃ r,
      TinyTrie.bulkCreate indexer storage [[], [97], [97], [97, 98], [98]] = some r ∧
      Sat r (fun _ t => t.HasNodes (indexer (∑ i, counts i)) (∑ i, counts i - counts 0))
        (Full (indexer (∑ i, counts i))) := by
  obtain ⟨counts, h⟩ := @computeNodeCounts_predicts [[], [97], [97], [97, 98], [98]] (by decide)
  exact ⟨counts, h, h.nodes (by decide) (by decide +kernel)⟩

end TinyPointerTrees
