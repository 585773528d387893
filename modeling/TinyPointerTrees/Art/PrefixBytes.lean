import TinyPointerTrees.Art.Insert
import TinyPointerTrees.Library.ParallelArrays

/-!
# The bytes of a prefix

The array `prefix` of a node, and what `setPrefix`, `addPrefixBefore` and
`checkPrefixPessimistic` copy into such arrays and out of them. A copy that would leave
an array is undefined. The functions of a tree that read and write prefixes do what is
done here (`setPrefix_storedPrefix`, `checkPrefixPessimistic_writes`).

`addPrefixBefore_split` — when a prefix is split and merged again, it is as it was, and
no copy leaves its arrays.
-/

namespace TinyPointerTrees.Art

open Conc ArtM ParallelArrays

variable {V : Variant}

/-- The members of `N` that hold the prefix. -/
structure StoredPrefix where
  /-- `prefixCount`. -/
  prefixCount : UInt32
  /-- `prefix`. -/
  prefixBytes : Fin maxStoredPrefixLength → UInt8

namespace StoredPrefix

/-- `getPrefix`, as the bytes of the array. -/
def getPrefix (p : StoredPrefix) : List UInt8 := List.ofFn p.prefixBytes

/-- `setPrefix`. -/
def setPrefix (src : List UInt8) (length : UInt32) (p : StoredPrefix) : Option StoredPrefix :=
  if length > 0 then
    (memcpy p.prefixBytes src (min length.toNat maxStoredPrefixLength)).map fun bytes =>
      ⟨length, bytes⟩
  else some { p with prefixCount := 0 }

/-- `addPrefixBefore`. -/
def addPrefixBefore (p node : StoredPrefix) (key : UInt8) : Option StoredPrefix :=
  let prefixCopyCount := min maxStoredPrefixLength (node.prefixCount + 1).toNat
  (memmove p.prefixBytes prefixCopyCount 0
    (min p.prefixCount.toNat (maxStoredPrefixLength - prefixCopyCount))).bind fun bytes =>
    (memcpy bytes node.getPrefix (min prefixCopyCount node.prefixCount.toNat)).bind fun bytes =>
      (if node.prefixCount.toNat < maxStoredPrefixLength then store bytes (prefixCopyCount - 1) key
        else some bytes).map fun bytes => ⟨p.prefixCount + (node.prefixCount + 1), bytes⟩

/-- `CheckPrefixPessimisticResult`, with what the function leaves in the variables that it is given
by reference. -/
inductive Checked where
  | noMatch (level : ℕ) (nonMatchingKey : UInt8)
      (nonMatchingPrefix : Fin maxStoredPrefixLength → UInt8)
  | matched (level : ℕ)

/-- The loop of `checkPrefixPessimistic`, with so many bytes to go, where `anyKey` is the key of
some leaf below the node. -/
def comparePrefix (anyKey k : Key) (prevLevel : ℕ)
    (nonMatchingPrefix : Fin maxStoredPrefixLength → UInt8) (p : StoredPrefix) :
    (remaining i level : ℕ) → (kt : Key) → Option Checked
  | 0, _, level, _ => some (.matched level)
  | remaining + 1, i, level, kt =>
    let kt := if i = maxStoredPrefixLength then anyKey else kt
    (if h : i < maxStoredPrefixLength then some (p.prefixBytes ⟨i, h⟩)
      else kt[level]?).bind fun curKey =>
      k[level]?.bind fun b =>
        if curKey ≠ b then
          if p.prefixCount.toNat > maxStoredPrefixLength then
            let kt := if i < maxStoredPrefixLength then anyKey else kt
            (memcpy nonMatchingPrefix (kt.drop (level + 1))
              (min (p.prefixCount.toNat - (level - prevLevel) - 1) maxStoredPrefixLength)).map
              (.noMatch level curKey)
          else
            (memcpy nonMatchingPrefix (p.getPrefix.drop (i + 1)) (p.prefixCount.toNat - i - 1)).map
              (.noMatch level curKey)
        else comparePrefix anyKey k prevLevel nonMatchingPrefix p remaining (i + 1) (level + 1) kt

/-- `checkPrefixPessimistic`. -/
def checkPrefixPessimistic (anyKey k : Key) (level : ℕ)
    (nonMatchingPrefix : Fin maxStoredPrefixLength → UInt8) (p : StoredPrefix) : Option Checked :=
  p.comparePrefix anyKey k level nonMatchingPrefix p.prefixCount.toNat 0 level []

/-- The array holds as much of a prefix as it has room for. -/
structure Stores (p : StoredPrefix) (π : List UInt8) : Prop where
  prefixCount : p.prefixCount.toNat = π.length
  stored : ∀ j : Fin maxStoredPrefixLength, ∀ b, π[j.val]? = some b → p.prefixBytes j = b

/-! ### Writing prefixes -/

variable {p node : StoredPrefix} {π μ src : List UInt8} {a : UInt8} {length : UInt32}

/-- The bytes from a position on. -/
theorem Stores.getElem?_getPrefix (h : p.Stores π) {i : ℕ} (hi : i < maxStoredPrefixLength)
    {b : UInt8} (hb : π[i]? = some b) : p.getPrefix[i]? = some b := by
  rw [getPrefix, List.getElem?_ofFn, dif_pos hi, h.stored ⟨i, hi⟩ b hb]

/-- `setPrefix` from bytes that begin like the prefix. -/
theorem setPrefix_spec (hlen : length.toNat = π.length)
    (hsrc : ∀ j < maxStoredPrefixLength, ∀ b, π[j]? = some b → src[j]? = some b) :
    ∃ p', p.setPrefix src length = some p' ∧ p'.Stores π := by
  unfold setPrefix
  by_cases h0 : length > 0
  · have hread : min length.toNat maxStoredPrefixLength ≤ src.length := by
      by_contra hlt
      have hj : src.length < min π.length maxStoredPrefixLength := by
        rw [← hlen]
        omega
      have := hsrc src.length (by omega) _ (List.getElem?_eq_getElem (by omega))
      exact absurd (List.getElem?_eq_some_iff.1 this).1 (Nat.lt_irrefl _)
    obtain ⟨bytes, hcopy, hin, -⟩ := memcpy_spec (a := p.prefixBytes) (min_le_right _ _) hread
    rw [if_pos h0, hcopy]
    refine ⟨_, rfl, hlen, fun j b hb => ?_⟩
    have hj := (List.getElem?_eq_some_iff.1 hb).1
    have := hin j (by omega)
    rw [hsrc j j.isLt b hb] at this
    exact (Option.some.inj this).symm
  · have hzero : length = 0 := UInt32.toNat_inj.1 (by
      have := UInt32.lt_iff_toNat_lt.not.1 h0
      simpa using this)
    subst hzero
    rw [if_neg h0]
    refine ⟨_, rfl, hlen, fun j b hb => ?_⟩
    have hnil : π = [] := List.length_eq_zero_iff.1 hlen.symm
    rw [hnil] at hb
    cases hb

/-- `addPrefixBefore` puts a prefix and a byte in front of a prefix. -/
theorem addPrefixBefore_spec (hp : p.Stores π) (hnode : node.Stores μ)
    (hlt : (μ ++ a :: π).length < 2 ^ 32) :
    ∃ p', p.addPrefixBefore node a = some p' ∧ p'.Stores (μ ++ a :: π) := by
  rw [List.length_append, List.length_cons] at hlt
  have hsucc : (node.prefixCount + 1).toNat = μ.length + 1 := by
    rw [UInt32.toNat_add, hnode.prefixCount]
    exact Nat.mod_eq_of_lt (by simp; omega)
  have hcount : (p.prefixCount + (node.prefixCount + 1)).toNat = (μ ++ a :: π).length := by
    rw [UInt32.toNat_add, hsucc, hp.prefixCount, List.length_append, List.length_cons]
    rw [Nat.mod_eq_of_lt (by omega)]
    omega
  have hmax : maxStoredPrefixLength = 11 := rfl
  unfold addPrefixBefore
  simp only [hsucc, hnode.prefixCount, hp.prefixCount]
  have hto : min maxStoredPrefixLength (μ.length + 1) +
      min π.length (maxStoredPrefixLength - min maxStoredPrefixLength (μ.length + 1)) ≤
      maxStoredPrefixLength := by omega
  have hfrom : 0 + min π.length (maxStoredPrefixLength - min maxStoredPrefixLength (μ.length + 1)) ≤
    maxStoredPrefixLength := by
    omega
  obtain ⟨b₁, h₁, hmoved, hkept₁⟩ := memmove_spec (a := p.prefixBytes) hto hfrom
  have hread : min (min maxStoredPrefixLength (μ.length + 1)) μ.length ≤ node.getPrefix.length := by
    rw [getPrefix, List.length_ofFn]
    omega
  obtain ⟨b₂, h₂, hcopied, hkept₂⟩ := memcpy_spec (a := b₁) (by omega) hread
  obtain ⟨b₃, h₃, hkey, hkept₃⟩ : ∃ b₃, (if μ.length < maxStoredPrefixLength then
      store b₂ (min maxStoredPrefixLength (μ.length + 1) - 1) a else some b₂) = some b₃ ∧
      (∀ h : μ.length < maxStoredPrefixLength, b₃ ⟨μ.length, h⟩ = a) ∧ ∀ j, j.val ≠ μ.length →
        b₃ j = b₂ j := by
    split_ifs with hshort
    · have hpos : min maxStoredPrefixLength (μ.length + 1) - 1 = μ.length := by omega
      rw [hpos]
      obtain ⟨b₃, h₃, hkey, hkept⟩ := store_spec (a := b₂) hshort a
      exact ⟨b₃, h₃, fun _ => hkey, hkept⟩
    · exact ⟨b₂, rfl, fun h => absurd h hshort, fun _ _ => rfl⟩
  rw [h₁, Option.bind_some, h₂, Option.bind_some, h₃]
  refine ⟨_, rfl, hcount, fun j b hb => ?_⟩
  show b₃ j = b
  rcases Nat.lt_trichotomy j.val μ.length with hj | hj | hj
  · -- in front of the byte
    rw [List.getElem?_append_left hj] at hb
    have := hcopied j (by omega)
    rw [hnode.getElem?_getPrefix j.isLt hb] at this
    rw [hkept₃ j (by omega)]
    exact (Option.some.inj this).symm
  · rw [hj, List.getElem?_append_right le_rfl, Nat.sub_self] at hb
    cases hb
    have := hkey (hj ▸ j.isLt)
    simpa only [← hj] using this
  · -- behind it
    obtain ⟨i, hi⟩ : ∃ i, j.val = μ.length + 1 + i := ⟨j.val - (μ.length + 1), by omega⟩
    have hcopy : min maxStoredPrefixLength (μ.length + 1) = μ.length + 1 := min_eq_right (by omega)
    rw [hi, List.getElem?_append_right (by omega),
      show μ.length + 1 + i - μ.length = i + 1 by omega,
      List.getElem?_cons_succ] at hb
    have hlen := (List.getElem?_eq_some_iff.1 hb).1
    have hj' : j = ⟨min maxStoredPrefixLength (μ.length + 1) + i, by omega⟩ :=
      Fin.ext (by simp only; omega)
    rw [hkept₃ j (by omega), hkept₂ j (by omega), hj', hmoved i (by omega),
      hp.stored ⟨0 + i, by omega⟩ b (by simpa using hb)]

/-! ### Splitting prefixes -/

variable {anyKey k kt : Key} {level : ℕ} {d : UInt8} {r : List UInt8}
  {out : Fin maxStoredPrefixLength → UInt8}

/-- The array that is left where the key leaves the prefix holds what follows there. -/
def Remaining (r : List UInt8) (nonMatchingPrefix : Fin maxStoredPrefixLength → UInt8) : Prop :=
  ∀ j : Fin maxStoredPrefixLength, ∀ b, r[j.val]? = some b → nonMatchingPrefix j = b

theorem getElem?_of_drop {l : List UInt8} {i : ℕ} (h : l <+: k.drop level) (hi : i < l.length) :
    k[level + i]? = l[i]? := by
  obtain ⟨z, hz⟩ := h
  rw [← List.getElem?_drop, ← hz, List.getElem?_append_left hi]

/-- What `checkPrefixPessimistic` copies out of the key of a leaf. -/
theorem remaining_key (out : Fin maxStoredPrefixLength → UInt8)
    (hany : μ ++ a :: r <+: anyKey.drop level) :
    ∃ rest, memcpy out (anyKey.drop (level + μ.length + 1)) (min r.length maxStoredPrefixLength) =
      some rest ∧ Remaining r rest := by
  obtain ⟨z, hz⟩ := hany
  have hdrop : anyKey.drop (level + μ.length + 1) = r ++ z := by
    rw [Nat.add_assoc, ← List.drop_drop, ← hz]
    simp
  rw [hdrop]
  have hread : min r.length maxStoredPrefixLength ≤ (r ++ z).length := by
    rw [List.length_append]
    omega
  obtain ⟨rest, hcopy, hin, -⟩ := memcpy_spec (a := out) (min_le_right _ _) hread
  refine ⟨rest, hcopy, fun j b hb => ?_⟩
  have hj := (List.getElem?_eq_some_iff.1 hb).1
  have := hin j (lt_min hj j.isLt)
  rw [List.getElem?_append_left hj, hb] at this
  exact (Option.some.inj this).symm

/-- What it copies out of the array of the node. -/
theorem remaining_array (out : Fin maxStoredPrefixLength → UInt8) (hp : p.Stores (μ ++ a :: r))
    (hshort : (μ ++ a :: r).length ≤ maxStoredPrefixLength) :
    ∃ rest, memcpy out (p.getPrefix.drop (μ.length + 1)) r.length = some rest ∧
      Remaining r rest := by
  rw [List.length_append, List.length_cons] at hshort
  have hread : r.length ≤ (p.getPrefix.drop (μ.length + 1)).length := by
    rw [List.length_drop, getPrefix, List.length_ofFn]
    omega
  obtain ⟨rest, hcopy, hin, -⟩ := memcpy_spec (a := out) (by omega) hread
  refine ⟨rest, hcopy, fun j b hb => ?_⟩
  have hj := (List.getElem?_eq_some_iff.1 hb).1
  have hpi : (μ ++ a :: r)[μ.length + 1 + j.val]? = some b := by
    rw [List.getElem?_append_right (by omega),
      show μ.length + 1 + j.val - μ.length = j.val + 1 by omega, List.getElem?_cons_succ, hb]
  have := hin j hj
  rw [List.getElem?_drop, hp.getElem?_getPrefix (by omega) hpi] at this
  exact (Option.some.inj this).symm

/-- The loop of `checkPrefixPessimistic`, for a key that leaves the prefix behind `μ`. -/
theorem comparePrefix_spec (hp : p.Stores (μ ++ a :: r)) (hk : μ ++ [d] <+: k.drop level)
    (had : a ≠ d) (hany : μ ++ a :: r <+: anyKey.drop level) {remaining i : ℕ}
    (hsum : i + remaining = (μ ++ a :: r).length) (hi : i ≤ μ.length)
    (hkt : maxStoredPrefixLength < i → kt = anyKey) :
    ∃ rest, p.comparePrefix anyKey k level out remaining i (level + i) kt =
      some (.noMatch (level + μ.length) a rest) ∧ Remaining r rest := by
  induction remaining generalizing i kt with
  | zero =>
    rw [List.length_append, List.length_cons] at hsum
    omega
  | succ remaining ih =>
    have hlt : i < (μ ++ a :: r).length := by omega
    set kt' := if i = maxStoredPrefixLength then anyKey else kt with hkt'
    have hlong : maxStoredPrefixLength ≤ i → kt' = anyKey := fun hle => by
      rw [hkt']
      split_ifs with heq
      · rfl
      · exact hkt (by omega)
    have hcur : (if h : i < maxStoredPrefixLength then some (p.prefixBytes ⟨i, h⟩)
        else kt'[level + i]?) = (μ ++ a :: r)[i]? := by
      split_ifs with h
      · rw [List.getElem?_eq_getElem hlt, hp.stored ⟨i, h⟩ _ (List.getElem?_eq_getElem hlt)]
      · rw [hlong (by omega), getElem?_of_drop hany hlt]
    have hbyte : k[level + i]? = (μ ++ [d])[i]? := getElem?_of_drop hk (by simp; omega)
    unfold comparePrefix
    simp only [← hkt', hcur, hbyte]
    rcases hi.lt_or_eq with hi | rfl
    · -- the byte agrees
      rw [List.getElem?_append_left hi, List.getElem?_append_left hi, List.getElem?_eq_getElem hi]
      simp only [Option.bind_some, ne_eq, not_true_eq_false, if_false]
      exact ih (i := i + 1) (by omega) hi fun hlt => hlong (by omega)
    · -- it does not
      rw [List.getElem?_append_right le_rfl, List.getElem?_append_right le_rfl, Nat.sub_self]
      simp only [List.getElem?_cons_zero, Option.bind_some, if_pos had, hp.prefixCount]
      have hrest : (μ ++ a :: r).length - μ.length - 1 = r.length := by
        rw [List.length_append, List.length_cons]
        omega
      split_ifs with hlarge hkey
      · obtain ⟨rest, hcopy, hrem⟩ := remaining_key out hany
        refine ⟨rest, ?_, hrem⟩
        rw [Nat.add_sub_cancel_left, hrest, hcopy]
        rfl
      · obtain ⟨rest, hcopy, hrem⟩ := remaining_key out hany
        refine ⟨rest, ?_, hrem⟩
        rw [hlong (by omega), Nat.add_sub_cancel_left, hrest, hcopy]
        rfl
      · obtain ⟨rest, hcopy, hrem⟩ := remaining_array out hp (by omega)
        refine ⟨rest, ?_, hrem⟩
        rw [hrest, hcopy]
        rfl

/-- A prefix that is split where a key leaves it, and merged again. -/
theorem addPrefixBefore_split {i : ℕ} (hp : p.Stores π) (hi : i < π.length)
    (hk : π.take i ++ [d] <+: k.drop level) (had : π[i] ≠ d) (hany : π <+: anyKey.drop level)
    (u : StoredPrefix) (out : Fin maxStoredPrefixLength → UInt8) :
    ∃ rest upper lower merged,
      p.checkPrefixPessimistic anyKey k level out = some (.noMatch (level + i) π[i] rest) ∧
      u.setPrefix p.getPrefix (UInt32.ofNat i) = some upper ∧
      p.setPrefix (List.ofFn rest) (UInt32.ofNat (π.length - i - 1)) = some lower ∧
      lower.addPrefixBefore upper π[i] = some merged ∧ merged.Stores π := by
  have hsplit : π.take i ++ π[i] :: π.drop (i + 1) =
    π := by rw [← List.drop_eq_getElem_cons hi, List.take_append_drop]
  have hlt : π.length < 2 ^ 32 := hp.prefixCount ▸ p.prefixCount.toNat_lt
  have htake : (π.take i).length = i := List.length_take_of_le hi.le
  have hdrop : (π.drop (i + 1)).length = π.length - i - 1 := by
    rw [List.length_drop]
    omega
  have hsum : 0 + p.prefixCount.toNat = (π.take i ++ π[i] :: π.drop (i + 1)).length := by
    rw [hsplit, Nat.zero_add]
    exact hp.prefixCount
  obtain ⟨rest, hcheck, hrem⟩ : ∃ rest, p.comparePrefix anyKey k level out p.prefixCount.toNat 0
    (level + 0) [] =
      some (.noMatch (level + (π.take i).length) π[i] rest) ∧ Remaining (π.drop (i + 1)) rest :=
    comparePrefix_spec (by rwa [hsplit]) hk had (by rwa [hsplit]) hsum (Nat.zero_le _) fun h =>
      absurd h (Nat.not_lt_zero _)
  rw [htake, Nat.add_zero] at hcheck
  obtain ⟨upper, hupper, hstoresUpper⟩ : ∃ p', u.setPrefix p.getPrefix (UInt32.ofNat i) = some p' ∧
    p'.Stores (π.take i) := by
    refine setPrefix_spec ?_ fun j hj b hb => ?_
    · rw [htake, UInt32.toNat_ofNat', Nat.mod_eq_of_lt (by omega)]
    · have hji := (List.getElem?_eq_some_iff.1 hb).1
      rw [List.getElem?_take_of_lt (by omega)] at hb
      exact hp.getElem?_getPrefix hj hb
  obtain ⟨lower, hlower, hstoresLower⟩ :
    ∃ p', p.setPrefix (List.ofFn rest) (UInt32.ofNat (π.length - i - 1)) = some p' ∧
      p'.Stores (π.drop (i + 1)) := by
    refine setPrefix_spec ?_ fun j hj b hb => ?_
    · rw [hdrop, UInt32.toNat_ofNat', Nat.mod_eq_of_lt (by omega)]
    · rw [List.getElem?_ofFn, dif_pos hj, hrem ⟨j, hj⟩ b hb]
  obtain ⟨merged, hmerged, hstores⟩ := addPrefixBefore_spec (a := π[i]) hstoresLower hstoresUpper
    (by rwa [hsplit])
  rw [hsplit] at hstores
  exact ⟨rest, upper, lower, merged, hcheck, hupper, hlower, hmerged, hstores⟩

theorem addPrefixBefore_split_long :
    ∃ rest upper lower merged, checkPrefixPessimistic (List.replicate 21 7)
      (List.replicate 10 7 ++ [8]) 0 (fun _ => 0) ⟨20, fun _ => 7⟩ = some (.noMatch 10 7 rest) ∧
      setPrefix (getPrefix ⟨20, fun _ => 7⟩) 10 ⟨0, fun _ => 0⟩ = some upper ∧
      setPrefix (List.ofFn rest) 9 ⟨20, fun _ => 7⟩ = some lower ∧
      lower.addPrefixBefore upper 7 = some merged ∧ merged.Stores (List.replicate 20 7) := by
  have hp : Stores ⟨20, fun _ => 7⟩ (List.replicate 20 7) := by
    refine ⟨rfl, fun j b hb => ?_⟩
    rw [List.getElem?_replicate] at hb
    split_ifs at hb
    exact Option.some.inj hb
  exact addPrefixBefore_split (i := 10) (k := List.replicate 10 7 ++ [8]) (d := 8) hp (by decide)
    (by decide) (by decide) (by decide) ⟨0, fun _ => 0⟩ fun _ => 0

end StoredPrefix

/-! ### The prefixes of a tree -/

/-- The prefix of an object. -/
def Obj.storedPrefix (o : Obj V) : StoredPrefix := ⟨UInt32.ofNat o.prefixCount, o.prefixBytes⟩

/-- `setPrefix` of a tree. -/
theorem setPrefix_storedPrefix {o : Obj V} {src : List UInt8} {n : ℕ} (hn : n < 2 ^ 32)
    (hsrc : min n maxStoredPrefixLength ≤ src.length) :
    o.storedPrefix.setPrefix src (UInt32.ofNat n) = some (o.setPrefix src n).storedPrefix := by
  have hcount : (UInt32.ofNat n).toNat = n := by rw [UInt32.toNat_ofNat', Nat.mod_eq_of_lt hn]
  unfold StoredPrefix.setPrefix
  by_cases h0 : n > 0
  · have hpos : UInt32.ofNat n > 0 := UInt32.lt_iff_toNat_lt.2 (by simpa [hcount] using h0)
    rw [if_pos hpos, hcount]
    unfold memcpy
    rw [dif_pos ⟨min_le_right _ _, hsrc⟩, Obj.setPrefix, if_pos h0]
    simp only [Option.map_some, Obj.storedPrefix, Option.some.injEq,
      StoredPrefix.mk.injEq, true_and]
    funext i
    split_ifs with hi
    · rw [List.getD_eq_getElem]
    · rfl
  · obtain rfl : n = 0 := by omega
    rfl

/-- What `checkPrefixPessimistic` answers and what it writes. -/
inductive Written (out : Fin maxStoredPrefixLength → UInt8) :
    StoredPrefix.Checked → Tree.PessimisticResult → Prop
  | noMatch {level : ℕ} {a : UInt8} {src : List UInt8} {rest : Fin maxStoredPrefixLength → UInt8}
      (h : memcpy out src src.length = some rest) :
      Written out (.noMatch level a rest) (.noMatch level a src)
  | matched {level : ℕ} : Written out (.matched level) (.matched level)

variable {A : Tree V} {ids : ℕ → UInt64} {s : Heap V} {n : Ref} {o : Obj V} {pick : ArtM V UInt64}
  {v : UInt64} {k kt : Key} {out : Fin maxStoredPrefixLength → UInt8} {c : StoredPrefix.Checked}

/-- The key of the leaf that is picked, if it is asked for. -/
theorem ends_pick {cond : Prop} [Decidable cond] {Q : Key → Heap V → Prop}
    {E : Leave → Heap V → Prop}
    (hpick : cond → EndsOr (artHandler A.indexer ids 0) pick s (fun v' s' => s' = s ∧
      v' = v) fun _ _ => False)
    (hq : Q (if cond then A.loadKey v else kt) s) :
    EndsOr (artHandler A.indexer ids 0) (if cond then A.loadKey <$> pick else pure kt) s Q E := by
  split_ifs with hcond
  · rw [if_pos hcond] at hq
    refine EndsOr.map ((hpick hcond).mono (fun v' s' hv => ?_) fun _ _ => False.elim)
    obtain ⟨rfl, rfl⟩ := hv
    exact hq
  · rw [if_neg hcond] at hq
    exact EndsOr.pure hq

/-- The loop of `checkPrefixPessimistic` of a tree, where `v` is the leaf that is picked. -/
theorem comparePrefix_writes
    (hpick : maxStoredPrefixLength < o.prefixCount → EndsOr (artHandler A.indexer ids 0) pick s
      (fun v' s' => s' = s ∧ v' = v) fun _ _ => False)
    (hlt : o.prefixCount < 2 ^ 32) {prevLevel remaining i : ℕ}
    (hsum : i + remaining = o.prefixCount)
    (hc : o.storedPrefix.comparePrefix (A.loadKey v) k prevLevel out remaining i
      (prevLevel + i) kt = some c) :
    EndsOr (artHandler A.indexer ids 0) (A.comparePrefix pick o k prevLevel remaining i
      (prevLevel + i) kt) s (fun r s' => s' = s ∧ Written out c r) fun _ _ => False := by
  induction remaining generalizing i kt with
  | zero =>
    cases hc
    exact EndsOr.pure ⟨rfl, .matched⟩
  | succ remaining ih =>
    have hcount : o.storedPrefix.prefixCount.toNat = o.prefixCount := by
      rw [Obj.storedPrefix, UInt32.toNat_ofNat', Nat.mod_eq_of_lt hlt]
    rw [StoredPrefix.comparePrefix] at hc
    obtain ⟨curKey, hcur, hc⟩ := Option.bind_eq_some_iff.1 hc
    obtain ⟨b, hb, hc⟩ := Option.bind_eq_some_iff.1 hc
    rw [hcount] at hc
    rw [Tree.comparePrefix_succ]
    refine EndsOr.bind (ends_pick (fun heq => hpick (by omega)) ?_)
    set kt' := if i = maxStoredPrefixLength then A.loadKey v else kt
    refine EndsOr.bind (EndsOr.mono (Q := fun c s' => s' = s ∧ c = curKey)
      (E := fun _ _ => False) ?_ ?_ fun _ _ => False.elim)
    · split_ifs at hcur ⊢ with hi
      · exact EndsOr.pure ⟨rfl, Option.some.inj hcur⟩
      · exact ends_inBounds hcur ⟨rfl, rfl⟩
    rintro curKey s' ⟨rfl, rfl⟩
    refine EndsOr.bind (ends_inBounds hb ?_)
    by_cases hne : curKey = b
    · rw [if_neg (not_not.2 hne)] at hc ⊢
      exact ih (i := i + 1) (by omega) hc
    rw [if_pos hne] at hc ⊢
    by_cases hlong : o.prefixCount > maxStoredPrefixLength
    · rw [if_pos hlong] at hc ⊢
      refine EndsOr.bind (ends_pick (fun _ => hpick hlong) ?_)
      obtain ⟨rest, hcopy, rfl⟩ := Option.map_eq_some_iff.1 hc
      obtain ⟨hread, htake⟩ := memcpy_take hcopy
      rw [List.length_drop] at hread
      refine EndsOr.bind (ends_inBounds (if_pos ?_) (EndsOr.pure ⟨rfl, .noMatch htake⟩))
      by_cases hi : i < maxStoredPrefixLength
      · have hmax : maxStoredPrefixLength = 11 := rfl
        omega
      · rw [dif_neg hi] at hcur
        have hbyte := (List.getElem?_eq_some_iff.1 hcur).1
        rw [if_neg hi] at hread ⊢
        omega
    · rw [if_neg hlong] at hc ⊢
      obtain ⟨rest, hcopy, rfl⟩ := Option.map_eq_some_iff.1 hc
      exact EndsOr.pure ⟨rfl, .noMatch (memcpy_take hcopy).2⟩

/-- `checkPrefixPessimistic` of a tree writes the array that is computed here. -/
theorem checkPrefixPessimistic_writes (hl : s.Live n) (hlt : (s.get n).prefixCount < 2 ^ 32)
    (hpick : maxStoredPrefixLength < (s.get n).prefixCount → EndsOr (artHandler A.indexer ids 0)
      (A.getAnyChildTid n) s (fun v' s' => s' = s ∧ v' = v) fun _ _ => False)
    {level : ℕ}
    (hc : (s.get n).storedPrefix.checkPrefixPessimistic (A.loadKey v) k level out = some c) :
    EndsOr (artHandler A.indexer ids 0) (A.checkPrefixPessimistic n k level) s (fun r s' => s' = s ∧
      Written out c r) fun _ _ => False := by
  have hcount : (s.get n).storedPrefix.prefixCount.toNat = (s.get n).prefixCount := by
    rw [Obj.storedPrefix, UInt32.toNat_ofNat', Nat.mod_eq_of_lt hlt]
  rw [StoredPrefix.checkPrefixPessimistic, hcount] at hc
  unfold Tree.checkPrefixPessimistic
  refine EndsOr.bind (ends_read hl ?_)
  exact comparePrefix_writes (i := 0) hpick hlt (Nat.zero_add _) hc

end TinyPointerTrees.Art
