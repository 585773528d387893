import Mathlib.Data.List.Infix
import Mathlib.Tactic

/-!
# Longest suffixes and suffix links

The words that match a predicate `P`, among the suffixes of a word. `nearest P w` is
the longest suffix of `w` that matches, `link P w` the longest proper one. For a
predicate that is closed under prefixes these are what a string automaton keeps:
`nearest_append` says how the longest suffix changes as the word grows, and
`nearest_step` how to find it by following links.

`suffixes_nearest` and `suffixes_step` list all suffixes that match a second,
stronger predicate, from the longest suffix and by following its links.

A character makes the link of a word longer by one at most. `cost` is by how
much less; along a word the costs add up to no more than its length
(`sum_cost_take`), and so for all prefixes of some words (`sum_cost_le`).
-/

namespace SuffixLinks

variable {α : Type*} (P W : List α → Prop) [DecidablePred P] [DecidablePred W] {w u s : List α}
  {c : α}

/-- The longest suffix that matches. -/
def nearest (w : List α) : Option (List α) := w.tails.find? (P ·)

/-- The longest proper suffix that matches. -/
def link : List α → Option (List α)
  | [] => none
  | _ :: w => nearest P w

/-- All suffixes that match, the longest first. -/
def suffixes (w : List α) : List (List α) := w.tails.filter (P ·)

/-- Every prefix of a matching word matches. -/
def Closed (P : List α → Prop) : Prop := ∀ w c, P (w ++ [c]) → P w

variable {P W}

@[simp] theorem nearest_nil : nearest P [] = if P [] then some [] else none := by
  by_cases h : P [] <;> simp [nearest, h]

theorem nearest_of_mem (h : P w) : nearest P w = some w := by
  cases w <;> simp [nearest, h]

theorem nearest_cons_of_not (h : ¬ P (c :: w)) : nearest P (c :: w) = nearest P w := by
  simp [nearest, h]

theorem nearest_spec (h : nearest P w = some u) : P u ∧ u <:+ w := by
  have hmem := List.mem_of_find?_eq_some h
  have hP := List.find?_some h
  exact ⟨by simpa using hP, (List.mem_tails _ _).mp hmem⟩

theorem link_length_lt (h : link P w = some u) : u.length < w.length := by
  cases w with
  | nil => cases h
  | cons a w => exact Nat.lt_succ_of_le (nearest_spec h).2.length_le

theorem link_mem (h : link P w = some u) : P u := by
  cases w with
  | nil => cases h
  | cons a w => exact (nearest_spec h).1

theorem link_suffix (h : link P w = some u) : u <:+ w := by
  cases w with
  | nil => cases h
  | cons a w => exact (nearest_spec h).2.trans (List.suffix_cons a w)

/-- The longest suffix of a word that grows depends on the longest one so far. -/
theorem nearest_append (hP : Closed P) (h : nearest P w = some u) :
    nearest P (w ++ [c]) = nearest P (u ++ [c]) := by
  induction w with
  | nil =>
    have hu : u = [] := by simpa using (nearest_spec h).2
    rw [hu]
  | cons a w ih =>
    by_cases ha : P (a :: w)
    · rw [nearest_of_mem ha, Option.some.injEq] at h
      rw [h]
    · rw [nearest_cons_of_not ha] at h
      have hac : ¬ P (a :: (w ++ [c])) := fun hac => ha (hP (a :: w) c hac)
      rw [List.cons_append, nearest_cons_of_not hac]
      exact ih h

/-- Where a matching word has no matching extension, its link decides. -/
theorem nearest_step (hP : Closed P) (h : link P s = some u) (hs : ¬ P (s ++ [c])) :
    nearest P (s ++ [c]) = nearest P (u ++ [c]) := by
  cases s with
  | nil => cases h
  | cons a s =>
    have hs' : ¬ P (a :: (s ++ [c])) := hs
    rw [List.cons_append, nearest_cons_of_not hs']
    exact nearest_append hP h

/-- The link of a word that grows. -/
theorem link_append (hP : Closed P) (h : link P s = some u) :
    link P (s ++ [c]) = nearest P (u ++ [c]) := by
  cases s with
  | nil => cases h
  | cons a s => exact nearest_append hP h

/-! ### All suffixes that match -/

theorem pairwise_tails {w : List α} : w.tails.Pairwise fun u v => v.length < u.length := by
  induction w with
  | nil => simp
  | cons a w ih =>
    rw [List.tails_cons, List.pairwise_cons]
    refine ⟨fun v hv => ?_, ih⟩
    exact Nat.lt_succ_of_le ((List.mem_tails _ _).mp hv).length_le

theorem mem_suffixes : u ∈ suffixes W w ↔ u <:+ w ∧ W u := by simp [suffixes]

theorem pairwise_suffixes : (suffixes W w).Pairwise fun u v => v.length < u.length :=
  pairwise_tails.filter _

theorem suffixes_cons (a : α) (w : List α) :
    suffixes W (a :: w) = (if W (a :: w) then [a :: w] else []) ++ suffixes W w := by
  by_cases h : W (a :: w) <;> simp [suffixes, h]

/-- All suffixes that match are suffixes of the longest one. -/
theorem suffixes_nearest (hW : ∀ x, W x → P x) (h : nearest P w = some u) :
    suffixes W w = suffixes W u := by
  induction w with
  | nil =>
    have hu : u = [] := by simpa using (nearest_spec h).2
    rw [hu]
  | cons a w ih =>
    by_cases ha : P (a :: w)
    · rw [nearest_of_mem ha, Option.some.injEq] at h
      rw [h]
    · rw [nearest_cons_of_not ha] at h
      rw [suffixes_cons, if_neg fun hw => ha (hW _ hw), List.nil_append]
      exact ih h

theorem suffixes_of_nearest_none (h : nearest W w = none) : suffixes W w = [] := by
  rw [suffixes, List.filter_eq_nil_iff]
  exact List.find?_eq_none.mp h

/-- The suffixes that match are the word itself, and those of its link. -/
theorem suffixes_step (w : List α) :
    suffixes W w = (if W w then [w] else []) ++ (link W w).elim [] (suffixes W) := by
  cases w with
  | nil => by_cases h : W [] <;> simp [suffixes, h, link]
  | cons a w =>
    rw [suffixes_cons]
    congr 1
    cases h : nearest W w with
    | none =>
      rw [suffixes_of_nearest_none h]
      simp [link, h]
    | some u =>
      rw [suffixes_nearest (fun _ => id) h]
      simp [link, h]

/-- The link under a stronger predicate goes along the links. -/
theorem link_step (hW : ∀ x, W x → P x) (h : link P s = some u) :
    link W s = if W u then some u else link W u := by
  have key : ∀ {w v : List α}, nearest P w = some v → nearest W w = if W v then some v
    else link W v := by
    intro w
    induction w with
    | nil =>
      intro v hv
      have hv' : v = [] := by simpa using (nearest_spec hv).2
      subst hv'
      by_cases h0 : W [] <;> simp [h0, link]
    | cons a w ih =>
      intro v hv
      by_cases ha : P (a :: w)
      · rw [nearest_of_mem ha, Option.some.injEq] at hv
        subst hv
        by_cases hw : W (a :: w)
        · rw [nearest_of_mem hw, if_pos hw]
        · rw [nearest_cons_of_not hw, if_neg hw, link]
      · rw [nearest_cons_of_not ha] at hv
        rw [nearest_cons_of_not fun hw => ha (hW _ hw)]
        exact ih hv
  cases s with
  | nil => cases h
  | cons a s => exact key h

/-! ### What following links costs -/

/-- How long the link of a word is. -/
def linkLength (P : List α → Prop) [DecidablePred P] (w : List α) : ℕ :=
  (link P w).elim 0 List.length

/-- By how much less than a character the link has grown with the last character. -/
def cost (P : List α → Prop) [DecidablePred P] (w : List α) : ℕ :=
  linkLength P w.dropLast + 1 - linkLength P w

theorem linkLength_of_link (h : link P w = some u) : linkLength P w = u.length := by
  rw [linkLength, h]; rfl

/-- A character makes the link longer by one at most. -/
theorem linkLength_append_le (hP : Closed P) (hnil : P []) (w : List α) (c : α) :
    linkLength P (w ++ [c]) ≤ linkLength P w + 1 := by
  cases hw : link P w with
  | none =>
    cases w with
    | nil => simp [linkLength, link, hnil]
    | cons a w =>
      have hnone := List.find?_eq_none.mp hw [] ((List.mem_tails _ _).mpr List.nil_suffix)
      simp [hnil] at hnone
  | some u =>
    rw [linkLength_of_link hw, linkLength, link_append hP hw]
    cases hu : nearest P (u ++ [c]) with
    | none => exact Nat.zero_le _
    | some v => simpa using (nearest_spec hu).2.length_le

/-- Along a word the costs and the length of its link add up to its length. -/
theorem sum_cost_take (hP : Closed P) (hnil : P []) {m : ℕ} (hm : m ≤ w.length) :
    ∑ k ∈ Finset.range m, cost P (w.take (k + 1)) + linkLength P (w.take m) = m := by
  induction m with
  | zero => simp [linkLength, link]
  | succ m ih =>
    have htake : w.take (m + 1) = w.take m ++ [w[m]] := List.take_succ_eq_append_getElem hm
    have hcost : cost P (w.take (m + 1)) = linkLength P (w.take m) + 1 - linkLength P
      (w.take (m + 1)) := by
      rw [cost, htake, List.dropLast_concat]
    have hle : linkLength P (w.take (m + 1)) ≤ linkLength P (w.take m) + 1 := by
      rw [htake]
      exact linkLength_append_le hP hnil ..
    rw [Finset.sum_range_succ, hcost]
    have := ih (by omega)
    omega

/-- The prefixes of one word cost no more than its length. -/
theorem sum_cost_prefixes_le [DecidableEq α] (hP : Closed P) (hnil : P []) {F : Finset (List α)}
    (hF : ∀ u ∈ F, u ≠ [] ∧ u <+: w) : ∑ u ∈ F, cost P u ≤ w.length := by
  have hsub : F ⊆ (Finset.range w.length).image fun k => w.take (k + 1) := by
    intro u hu
    obtain ⟨hne, hpre⟩ := hF u hu
    have hpos := List.length_pos_iff.mpr hne
    refine Finset.mem_image.mpr ⟨u.length - 1, Finset.mem_range.mpr
      (by have := hpre.length_le; omega), ?_⟩
    rw [Nat.sub_add_cancel hpos]
    exact (List.prefix_iff_eq_take.mp hpre).symm
  have hinj : Set.InjOn (fun k => w.take (k + 1)) (Finset.range w.length : Set ℕ) := by
    intro k hk m hm he
    have hlen := congrArg List.length he
    simp only [Finset.coe_range, Set.mem_Iio, List.length_take] at hk hm hlen
    omega
  calc ∑ u ∈ F, cost P u ≤ ∑ u ∈ (Finset.range w.length).image fun k => w.take (k + 1), cost P u :=
        Finset.sum_le_sum_of_subset hsub
    _ = ∑ k ∈ Finset.range w.length, cost P (w.take (k + 1)) := Finset.sum_image hinj
    _ ≤ w.length := (Nat.le_add_right _ _).trans (sum_cost_take hP hnil le_rfl).le

/-- The prefixes of some words cost no more than the words are long together. -/
theorem sum_cost_le [DecidableEq α] (hP : Closed P) (hnil : P []) {words : List (List α)}
    {F : Finset (List α)} (hF : ∀ u ∈ F, u ≠ [] ∧ ∃ w ∈ words, u <+: w) :
    ∑ u ∈ F, cost P u ≤ (words.map List.length).sum := by
  induction words generalizing F with
  | nil =>
    have hempty : F = ∅ := Finset.eq_empty_of_forall_notMem fun u hu => by simpa using (hF u hu).2
    simp [hempty]
  | cons w words ih =>
    rw [← Finset.sum_filter_add_sum_filter_not F (· <+: w), List.map_cons, List.sum_cons]
    refine Nat.add_le_add (sum_cost_prefixes_le hP hnil fun u hu => ?_) (ih fun u hu => ?_)
    · obtain ⟨hu, hpre⟩ := Finset.mem_filter.mp hu
      exact ⟨(hF u hu).1, hpre⟩
    · obtain ⟨hu, hnot⟩ := Finset.mem_filter.mp hu
      obtain ⟨hne, v, hv, hpre⟩ := hF u hu
      exact ⟨hne, v, (List.mem_cons.mp hv).resolve_left fun he => hnot (he ▸ hpre), hpre⟩

end SuffixLinks
