import Mathlib.Algebra.BigOperators.Group.Finset.Basic
import Mathlib.Data.Finset.Union
import Mathlib.Tactic

/-!
# Prefixes of finitely many words

The prefixes of a finite set of words, and with how many letters each of them goes on.
`fanouts_eq` counts the prefixes that extend a given one and go on with a given number
of letters: there is this prefix itself, and for every letter with which it goes on
there are those that extend it by this letter.
-/

namespace Prefixes

variable {κ : Type*} [DecidableEq κ] (W : Finset (List κ)) (p q : List κ)

/-- The prefixes of the words that extend `p`. -/
def below : Finset (List κ) := (W.biUnion fun w => w.inits.toFinset).filter fun q => p <+: q

/-- The letters with which words go on after `p`. -/
def nexts : Finset κ := W.biUnion fun w => if p <+: w then w[p.length]?.toFinset else ∅

/-- The words that extend `p`. -/
def among : Finset (List κ) := W.filter fun w => p <+: w

/-- How many prefixes extend `p` and go on with `n` letters. -/
def fanouts (n : ℕ) : ℕ := ((below W p).filter fun q => (nexts W q).card = n).card

variable {W p q} {c d : κ} {w : List κ}

theorem mem_below : q ∈ below W p ↔ p <+: q ∧ ∃ w ∈ W, q <+: w := by
  simp only [below, Finset.mem_filter, Finset.mem_biUnion, List.mem_toFinset, List.mem_inits]
  exact and_comm

theorem mem_among : w ∈ among W p ↔ w ∈ W ∧ p <+: w := Finset.mem_filter

theorem mem_nexts : c ∈ nexts W p ↔ ∃ w ∈ W, p ++ [c] <+: w := by
  simp only [nexts, Finset.mem_biUnion]
  refine exists_congr fun w => and_congr_right fun _ => ?_
  constructor
  · intro h
    split_ifs at h with hp
    · obtain ⟨r, rfl⟩ := hp
      rw [List.getElem?_append_right le_rfl, Nat.sub_self, Option.mem_toFinset, Option.mem_def] at h
      cases r with
      | nil => cases h
      | cons d r =>
        cases h
        exact ⟨r, by simp⟩
    · simp at h
  · rintro ⟨r, rfl⟩
    have hp : p <+: p ++ [c] ++ r := ⟨[c] ++ r, by simp⟩
    rw [if_pos hp]
    simp

/-- What goes on after a longer prefix is told by the words that extend the shorter one. -/
theorem nexts_among (h : p <+: q) : nexts (among W p) q = nexts W q := by
  ext c
  simp only [mem_nexts, mem_among]
  constructor
  · rintro ⟨w, ⟨hw, -⟩, hq⟩
    exact ⟨w, hw, hq⟩
  · rintro ⟨w, hw, hq⟩
    exact ⟨w, ⟨hw, h.trans ((List.prefix_append q [c]).trans hq)⟩, hq⟩

theorem below_among (h : p <+: q) : below (among W p) q = below W q := by
  ext r
  simp only [mem_below, mem_among]
  refine and_congr_right fun hr => ?_
  constructor
  · rintro ⟨w, ⟨hw, -⟩, hq⟩
    exact ⟨w, hw, hq⟩
  · rintro ⟨w, hw, hq⟩
    exact ⟨w, ⟨hw, h.trans (hr.trans hq)⟩, hq⟩

theorem fanouts_among (h : p <+: q) (n : ℕ) : fanouts (among W p) q n = fanouts W q n := by
  unfold fanouts
  rw [below_among h]
  refine congrArg Finset.card (Finset.filter_congr fun r hr => ?_)
  rw [nexts_among (h.trans (mem_below.1 hr).1)]

/-- Only the words that extend `p` count. -/
theorem fanouts_congr {W' : Finset (List κ)} (h : ∀ w, p <+: w → (w ∈ W ↔ w ∈ W')) (n : ℕ) :
    fanouts W p n = fanouts W' p n := by
  have hamong : among W p = among W' p := by
    ext w
    rw [mem_among, mem_among]
    exact and_congr_left fun hp => h w hp
  rw [← fanouts_among List.prefix_rfl, hamong, fanouts_among List.prefix_rfl]

theorem below_eq (h : ∃ w ∈ W, p <+: w) :
    below W p = insert p ((nexts W p).biUnion fun c => below W (p ++ [c])) := by
  ext q
  simp only [Finset.mem_insert, Finset.mem_biUnion, mem_below, mem_nexts]
  constructor
  · rintro ⟨⟨r, rfl⟩, w, hw, hq⟩
    cases r with
    | nil => exact .inl (List.append_nil p)
    | cons c r =>
      have hc : p ++ [c] <+: p ++ c :: r := ⟨r, by simp⟩
      exact .inr ⟨c, ⟨w, hw, hc.trans hq⟩, hc, w, hw, hq⟩
  · rintro (rfl | ⟨c, -, hc, w, hw, hq⟩)
    · obtain ⟨w, hw, hp⟩ := h
      exact ⟨List.prefix_rfl, w, hw, hp⟩
    · exact ⟨(List.prefix_append p [c]).trans hc, w, hw, hq⟩

/-- Prefixes that extend `p` by different letters are different. -/
theorem disjoint_below (h : c ≠ d) : Disjoint (below W (p ++ [c])) (below W (p ++ [d])) := by
  rw [Finset.disjoint_left]
  intro q hc hd
  obtain ⟨r, rfl⟩ := (mem_below.1 hc).1
  obtain ⟨r', hr'⟩ := (mem_below.1 hd).1
  simp only [List.append_assoc, List.append_cancel_left_eq, List.cons_append, List.nil_append,
    List.cons.injEq] at hr'
  exact h hr'.1.symm

theorem not_mem_biUnion : p ∉ (nexts W p).biUnion fun c => below W (p ++ [c]) := by
  simp only [Finset.mem_biUnion, mem_below, not_exists, not_and]
  intro c _ hc
  have := hc.length_le
  simp at this

theorem fanouts_eq (h : ∃ w ∈ W, p <+: w) (n : ℕ) :
    fanouts W p n = (if (nexts W p).card = n then 1 else 0) + ∑ c ∈ nexts W p,
      fanouts W (p ++ [c]) n := by
  have hsum : (((nexts W p).biUnion fun c => below W (p ++ [c])).filter fun q =>
    (nexts W q).card = n).card =
      ∑ c ∈ nexts W p, fanouts W (p ++ [c]) n := by
    rw [Finset.filter_biUnion]
    refine Finset.card_biUnion fun c _ d _ hcd => ?_
    exact Finset.disjoint_filter_filter (disjoint_below hcd)
  unfold fanouts at hsum ⊢
  rw [below_eq h, Finset.filter_insert]
  split_ifs with hn
  · rw [Finset.card_insert_of_notMem fun hmem => not_mem_biUnion (Finset.mem_filter.1 hmem).1,
      hsum, Nat.add_comm]
  · rw [hsum, Nat.zero_add]

theorem nexts_eq_empty : nexts W p = ∅ ↔ ∀ w ∈ W, p <+: w → w = p := by
  rw [Finset.eq_empty_iff_forall_notMem]
  constructor
  · rintro h w hw ⟨r, rfl⟩
    cases r with
    | nil => simp
    | cons c r => exact absurd (mem_nexts.2 ⟨_, hw, r, by simp⟩) (h c)
  · intro h c hc
    obtain ⟨w, hw, hp⟩ := mem_nexts.1 hc
    have heq := h w hw ((List.prefix_append p [c]).trans hp)
    have hlen := hp.length_le
    rw [heq] at hlen
    simp at hlen

/-- Where no word extends `p` there is nothing to count. -/
theorem fanouts_of_none (h : ∀ w ∈ W, ¬p <+: w) (n : ℕ) : fanouts W p n = 0 := by
  unfold fanouts
  rw [Finset.card_eq_zero, Finset.filter_eq_empty_iff]
  intro q hq
  obtain ⟨hp, w, hw, hqw⟩ := mem_below.1 hq
  exact absurd (hp.trans hqw) (h w hw)

/-- All prefixes that extend `p` and go on. -/
theorem sum_fanouts (m : ℕ) (hm : ∀ q ∈ below W p, (nexts W q).card < m) :
    ∑ n ∈ Finset.range m, fanouts W p n = (below W p).card := by
  unfold fanouts
  rw [← Finset.card_eq_sum_card_fiberwise]
  intro q hq
  exact Finset.mem_coe.2 (Finset.mem_range.2 (hm q hq))

end Prefixes
