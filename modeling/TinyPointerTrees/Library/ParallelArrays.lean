import Mathlib.Tactic

/-!
# Parallel arrays

Two arrays of the same length, of keys and of what belongs to them, of which a first
part is in use. Pairs are put in and taken out by moving the rest of both arrays. What
is in use is a list of pairs: `pairs_insertAt` and `pairs_removeAt` say what becomes of it.

Positions are found by loops over the part in use, or by the lowest bit of a mask with
a bit for every position: `lowest_eq_find?` says that these are the same.
-/

namespace ParallelArrays

variable {κ α : Type*} {n w : ℕ}

theorem memmove_lt {dst src len i : ℕ} (h : dst + len ≤ n ∧ src + len ≤ n)
    (hi : dst ≤ i ∧ i < dst + len) : src + (i - dst) < n := by omega

/-- `memmove` of `len` elements of an array; nothing when it would read or write beyond the end. -/
def memmove (a : Fin n → α) (dst src len : ℕ) : Option (Fin n → α) :=
  if h : dst + len ≤ n ∧ src + len ≤ n then
    some fun i => if hi : dst ≤ i ∧ i < dst + len then a ⟨src + (i - dst), memmove_lt h hi⟩ else a i
  else none

/-- `memcpy` of `len` elements of what is behind a pointer; nothing when it would read or write
beyond the end. -/
def memcpy (a : Fin n → α) (src : List α) (len : ℕ) : Option (Fin n → α) :=
  if h : len ≤ n ∧ len ≤ src.length then
    some fun i => if hi : i.val < len then src[i.val] else a i
  else none

/-- `a[i] = x`. -/
def store (a : Fin n → α) (i : ℕ) (x : α) : Option (Fin n → α) :=
  if h : i < n then some (Function.update a ⟨i, h⟩ x) else none

section Copies

variable {a : Fin n → α} {src : List α} {dst pos len : ℕ}

theorem memcpy_spec (h : len ≤ n) (hsrc : len ≤ src.length) :
    ∃ a', memcpy a src len = some a' ∧ (∀ j : Fin n, j.val < len → src[j.val]? = some (a' j)) ∧
      ∀ j : Fin n, len ≤ j.val → a' j = a j := by
  refine ⟨_, dif_pos ⟨h, hsrc⟩, fun j hj => ?_, fun j hj => ?_⟩
  · rw [dif_pos hj]
    exact List.getElem?_eq_getElem _
  · exact dif_neg (Nat.not_lt.2 hj)

/-- Only what is read matters. -/
theorem memcpy_take {a' : Fin n → α} (h : memcpy a src len = some a') :
    len ≤ src.length ∧ memcpy a (src.take len) (src.take len).length = some a' := by
  unfold memcpy at h
  split_ifs at h with hlen
  cases h
  have htake : (src.take len).length = len := List.length_take_of_le hlen.2
  refine ⟨hlen.2, ?_⟩
  unfold memcpy
  rw [dif_pos (by omega)]
  congr 1
  funext i
  simp only [htake, List.getElem_take]

theorem memmove_spec (h : dst + len ≤ n) (hsrc : pos + len ≤ n) :
    ∃ a', memmove a dst pos len = some a' ∧
      (∀ i (hi : i < len), a' ⟨dst + i, by omega⟩ = a ⟨pos + i, by omega⟩) ∧ ∀ j :
      Fin n, j.val < dst → a' j = a j := by
  refine ⟨_, dif_pos ⟨h, hsrc⟩, fun i hi => ?_, fun j hj => ?_⟩
  · rw [dif_pos (by constructor <;> simp; omega)]
    simp
  · exact dif_neg fun hj' => absurd hj'.1 (Nat.not_le.2 hj)

theorem store_spec {i : ℕ} (h : i < n) (x : α) :
    ∃ a', store a i x = some a' ∧ a' ⟨i, h⟩ = x ∧ ∀ j : Fin n, j.val ≠ i → a' j = a j := by
  refine ⟨_, dif_pos h, Function.update_self .., fun j hj => ?_⟩
  exact Function.update_of_ne (fun heq => hj (congrArg Fin.val heq)) _ _

end Copies

variable (κ α n) in
/-- Two arrays, and how many of their elements are in use. -/
structure Arrays where
  keys : Fin n → κ
  children : Fin n → α
  count : ℕ
  count_le : count ≤ n

namespace Arrays

variable (a : Arrays κ α n)

/-- The positions in use. -/
def live : List (Fin n) := (List.finRange n).take a.count

/-- The pairs in use. -/
def pairs : List (κ × α) := a.live.map fun i => (a.keys i, a.children i)

/-- Move what is at `pos` and behind it back by one, and put a pair there. -/
def insertAt (pos : ℕ) (key : κ) (child : α) : Option (Arrays κ α n) :=
  (memmove a.keys (pos + 1) pos (a.count - pos)).bind fun keys =>
    (memmove a.children (pos + 1) pos (a.count - pos)).bind fun children =>
      if h : pos < n ∧ a.count < n then
        some ⟨Function.update keys ⟨pos, h.1⟩ key, Function.update children ⟨pos, h.1⟩ child,
          a.count + 1, h.2⟩
      else none

/-- Move what is behind `pos` to the front by one. -/
def removeAt (pos : ℕ) : Option (Arrays κ α n) :=
  (memmove a.keys pos (pos + 1) (a.count - pos - 1)).bind fun keys =>
    (memmove a.children pos (pos + 1) (a.count - pos - 1)).map fun children =>
      ⟨keys, children, a.count - 1, (Nat.sub_le _ 1).trans a.count_le⟩

/-- Change the child at a position. -/
def setChild (i : Fin n) (child : α) : Arrays κ α n :=
  { a with children := Function.update a.children i child }

variable {a} {a' : Arrays κ α n} {pos : ℕ} {child : α}

@[simp] theorem length_live : a.live.length = a.count := by simp [live, a.count_le]

theorem getElem_live {i : ℕ} (h : i < a.live.length) :
    a.live[i] = ⟨i, (a.length_live ▸ h).trans_le a.count_le⟩ := by
  simp [live]

@[simp] theorem mem_live {i : Fin n} : i ∈ a.live ↔ i.val < a.count := by
  rw [List.mem_iff_getElem]
  constructor
  · rintro ⟨j, hj, rfl⟩
    rw [getElem_live]
    simpa using hj
  · exact fun h => ⟨i, by simpa using h, by rw [getElem_live]⟩

/-- A loop over positions in use only. -/
theorem filter_finRange {f : Fin n → Bool} (h : ∀ i, f i = true → i.val < a.count) :
    (List.finRange n).filter f = a.live.filter f := by
  have hsplit : List.finRange n = a.live ++ (List.finRange n).drop a.count :=
    (List.take_append_drop _ _).symm
  have hdrop : ((List.finRange n).drop a.count).filter f = [] := by
    rw [List.filter_eq_nil_iff]
    intro i hi hf
    obtain ⟨j, hj, rfl⟩ := List.mem_iff_getElem.1 hi
    have hlt := h _ hf
    simp at hlt
  rw [hsplit, List.filter_append, hdrop, List.append_nil]

theorem head?_live [NeZero n] (h : 0 < a.count) : a.live.head? = some 0 := by
  have hlen : 0 < a.live.length := by simpa using h
  rw [List.head?_eq_getElem?, List.getElem?_eq_getElem hlen, getElem_live]
  rfl

@[simp] theorem length_pairs : a.pairs.length = a.count := by simp [pairs]

theorem getElem_pairs {i : ℕ} (h : i < a.pairs.length) (hi : i < n) :
    a.pairs[i] = (a.keys ⟨i, hi⟩, a.children ⟨i, hi⟩) := by
  simp [pairs, getElem_live]

/-- A pair is put where it belongs. -/
theorem insertAt_spec (hpos : pos ≤ a.count) (hcount : a.count < n) (key : κ) (child : α) :
    ∃ a', a.insertAt pos key child = some a' ∧ a'.pairs = a.pairs.take pos ++ (key, child) ::
      a.pairs.drop pos := by
  have hmove : pos + 1 + (a.count - pos) ≤ n ∧ pos + (a.count - pos) ≤ n := by omega
  have hroom : pos < n ∧ a.count < n := ⟨hpos.trans_lt hcount, hcount⟩
  unfold insertAt memmove
  simp only [dif_pos hmove, Option.bind_some, dif_pos hroom]
  refine ⟨_, rfl, List.ext_getElem (by simp; omega) fun i hi hi' => ?_⟩
  simp only [length_pairs] at hi
  rw [getElem_pairs _ (by omega), List.getElem_append]
  simp only [List.length_take, length_pairs, Nat.min_eq_left hpos]
  rcases lt_trichotomy i pos with hlt | rfl | hgt
  · rw [dif_pos hlt, List.getElem_take, getElem_pairs _ (by omega)]
    have hne : (⟨i, by omega⟩ : Fin n) ≠ ⟨pos, hroom.1⟩ := fun he => hlt.ne (Fin.mk.inj he)
    rw [Function.update_of_ne hne, Function.update_of_ne hne, dif_neg (by simp; omega),
      dif_neg (by simp; omega)]
  · simp
  · obtain ⟨k, rfl⟩ : ∃ k, i = pos + 1 + k := ⟨i - (pos + 1), by omega⟩
    have hsub : pos + 1 + k - pos = k + 1 := by omega
    rw [dif_neg (by omega)]
    simp only [hsub, List.getElem_cons_succ, List.getElem_drop]
    rw [getElem_pairs _ (by omega)]
    have hne : (⟨pos + 1 + k, by omega⟩ : Fin n) ≠ ⟨pos, hroom.1⟩ :=
      fun he => hgt.ne' (Fin.mk.inj he)
    have hin : pos + 1 ≤ pos + 1 + k ∧ pos + 1 + k < pos + 1 + (a.count - pos) := by omega
    rw [Function.update_of_ne hne, Function.update_of_ne hne, dif_pos hin, dif_pos hin]
    simp only [Nat.add_sub_cancel_left]

/-- A pair is taken out. -/
theorem removeAt_spec (hpos : pos < a.count) :
    ∃ a', a.removeAt pos = some a' ∧ a'.pairs = a.pairs.take pos ++ a.pairs.drop (pos + 1) := by
  have hle := a.count_le
  have hmove : pos + (a.count - pos - 1) ≤ n ∧ pos + 1 + (a.count - pos - 1) ≤ n := by omega
  unfold removeAt memmove
  simp only [dif_pos hmove, Option.bind_some, Option.map_some]
  refine ⟨_, rfl, List.ext_getElem (by simp; omega) fun i hi hi' => ?_⟩
  simp only [length_pairs] at hi
  rw [getElem_pairs _ (by omega), List.getElem_append]
  simp only [List.length_take, length_pairs, Nat.min_eq_left hpos.le]
  rcases Nat.lt_or_ge i pos with hlt | hge
  · rw [dif_pos hlt, List.getElem_take, getElem_pairs _ (by omega), dif_neg (by simp; omega),
      dif_neg (by simp; omega)]
  · obtain ⟨k, rfl⟩ : ∃ k, i = pos + k := ⟨i - pos, by omega⟩
    rw [dif_neg (Nat.not_lt.2 hge)]
    simp only [List.getElem_drop, Nat.add_sub_cancel_left]
    rw [getElem_pairs _ (by omega)]
    have hin : pos ≤ pos + k ∧ pos + k < pos + (a.count - pos - 1) := by omega
    rw [dif_pos hin, dif_pos hin]

/-- The child at a position is changed. -/
theorem pairs_setChild {i : Fin n} :
    (a.setChild i child).pairs = a.pairs.set i (a.keys i, child) := by
  refine List.ext_getElem (by simp [setChild]) fun j hj hj' => ?_
  have hj₁ : j < a.count := by simpa [setChild] using hj
  rw [getElem_pairs _ (hj₁.trans_le a.count_le), List.getElem_set]
  split_ifs with he
  · subst he
    simp [setChild]
  · rw [getElem_pairs _ (hj₁.trans_le a.count_le)]
    have hne : (⟨j, hj₁.trans_le a.count_le⟩ : Fin n) ≠ i := fun h => he (by rw [← h])
    simp [setChild, Function.update_of_ne hne]

/-! ### Searching -/

/-- A loop to the first position with a property ends there, or behind the last one. -/
theorem length_takeWhile_live {f : Fin n → Bool} :
    (a.live.takeWhile fun i => !f i).length = (a.live.find? f).elim a.count Fin.val := by
  have hidx : (a.live.takeWhile fun i => !f i).length = a.live.findIdx f := by
    rw [List.takeWhile_eq_take_findIdx_not, List.length_take,
      Nat.min_eq_left List.findIdx_le_length]
    simp
  rw [hidx]
  cases hfind : a.live.find? f with
  | none =>
    have hnone := List.find?_eq_none.1 hfind
    rw [List.findIdx_eq_length_of_false fun i hi => by simpa using hnone i hi, length_live]
    rfl
  | some i =>
    obtain ⟨hf, j, hj, rfl, hbefore⟩ := List.find?_eq_some_iff_getElem.1 hfind
    rw [(List.findIdx_eq hj).2 ⟨hf, fun k hk => by simpa using hbefore k hk⟩, getElem_live]
    rfl

end Arrays

/-! ### Masks -/

/-- The mask of the positions with a property. -/
def movemask (f : Fin n → Bool) : BitVec n :=
  (BitVec.ofBoolListLE (List.ofFn f)).cast List.length_ofFn

/-- `ctz`, the position of the lowest bit; nothing for zero, for which it is undefined. -/
def lowest (x : BitVec n) : Option (Fin n) := (List.finRange n).find? fun i => x.getLsbD i

theorem getLsbD_movemask {f : Fin n → Bool} (i : Fin n) : (movemask f).getLsbD i = f i := by
  rw [movemask, BitVec.getLsbD_cast, BitVec.getLsbD_ofBoolListLE, List.getD_eq_getElem?_getD]
  simp

/-- The lowest bit of a mask is at the first position of a loop. -/
theorem lowest_eq_find? {a : Arrays κ α n} {f : Fin n → Bool} {x : BitVec n}
    (hx : ∀ i : Fin n, x.getLsbD i = (decide (i.val < a.count) && f i)) :
    lowest x = a.live.find? f := by
  have hsplit : List.finRange n = a.live ++ (List.finRange n).drop a.count :=
    (List.take_append_drop _ _).symm
  have hdrop : ((List.finRange n).drop a.count).find? (fun i : Fin n => x.getLsbD i) = none := by
    rw [List.find?_eq_none]
    intro i hi
    obtain ⟨j, hj, rfl⟩ := List.mem_iff_getElem.1 hi
    rw [hx]
    simp
  rw [lowest, hsplit, List.find?_append, hdrop, Option.or_none]
  refine List.find?_congr fun i hi => ?_
  rw [hx, decide_eq_true (Arrays.mem_live.1 hi), Bool.true_and]

end ParallelArrays
