import TinyPointerTrees.Library.RadixTree
import TinyPointerTrees.Art.Heap

/-!
# A heap represents a radix tree

`Shape A s R M` says that the memory `s` of the tree `A` represents the radix tree
`R`, when `M` says at which address the node is that an edge leads to: leaves hold
their values, and inner nodes their prefix, as far as it is stored, and pointers that
denote their children under the hash values of their id and the key byte. Lock words
are left out, but for the class they carry; `Word` is about them.

A change of the tree is published by one write of a pointer, and `Shape.addLeaf`,
`Shape.grow` and `Shape.split` say what the heap represents after it. They hold
whoever else works on the tree, and serve the calls of a single thread and the
interleavings of many.
-/

namespace TinyPointerTrees.Art

open Conc

variable {V : Variant} {X : ℕ → BucketIndexer} {s s' : Heap V} {n n' m : Ref} {o o' : Obj V}

/-! ### Lock words -/

/-- What the lock word of a node has in its upper two bits. -/
def tag (V : Variant) (n : Ref) : ℕ := if V.typed then n.special else 0

/-- The lock word of the node `n`, whose version with the two lowest bits is `v`. -/
structure Word (V : Variant) (n : Ref) (w : UInt64) (v : ℕ) : Prop where
  toNat : w.toNat = tag V n * 2 ^ 62 + v
  lt : v < 2 ^ 62

namespace Word

variable {w : UInt64} {v d : ℕ}

theorem add (h : Word V n w v) (hd : v + d < 2 ^ 62) {e : UInt64} (he : e.toNat = d) :
    Word V n (w + e) (v + d) := by
  have hlt := w.toNat_lt
  have htag : tag V n ≤ 3 := by
    have := h.toNat
    omega
  refine ⟨?_, hd⟩
  rw [UInt64.toNat_add, h.toNat, he]
  omega

theorem mod_four (h : Word V n w v) : w.toNat % 4 = v % 4 := by
  rw [h.toNat]
  omega

theorem free_iff (h : Word V n w v) : Free w ↔ v % 4 = 0 := by
  unfold Free
  rw [h.mod_four]

theorem eq (h : Word V n w v) {w' : UInt64} (h' : Word V n w' v) : w = w' :=
  UInt64.toNat_inj.mp (h.toNat.trans h'.toNat.symm)

theorem inj {v' : ℕ} (h : Word V n w v) (h' : Word V n w v') : v = v' := by
  have := h.toNat.symm.trans h'.toNat
  omega

theorem getType (h : Word V n o.typeVersionLockObsolete v) : o.getType = tag V n := by
  have hlt := h.lt
  unfold Obj.getType
  rw [UInt64.toNat_shiftRight, h.toNat, Nat.shiftRight_eq_div_pow]
  simp only [UInt64.reduceToNat, Nat.reduceMod]
  omega

end Word

theorem word_construct {special : ℕ} (hs : special < 4) (hn : n.special = special) (id : UInt64)
    (src : List UInt8) (l : ℕ) :
    Word V n (o.construct special id src l).typeVersionLockObsolete 4 := by
  refine ⟨?_, by norm_num⟩
  unfold Obj.construct tag convertTypeToVersion
  rw [Obj.word_setPrefix, hn]
  cases V.typed
  · simp
  · interval_cases special <;> simp

theorem word_constructLeaf (hn : n.special = leafS) (value : UInt64) :
    Word V n (o.constructLeaf value).typeVersionLockObsolete 4 := by
  refine ⟨?_, by norm_num⟩
  unfold Obj.constructLeaf tag
  rw [hn]
  simp [leafS]

/-! ### Nodes -/

variable (X) in
/-- The pointer, under these hash values, denotes this object; the null pointer none. -/
def Denotes (q : ArtTinyPtr V) (h : TinyPtrHashes) : Option Ref → Prop
  | none => q = .null
  | some m => q ≠ .null ∧ q ≠ .tagged ∧ Heap.refOf X q h = m

variable (X) in
/-- The object at `n` is an inner node of class `t` with prefix `π`, whose children are where `M`
has what is on the edges of the path `p`. -/
structure Inner (M : Key → Option Ref) (p : Key) (π : List UInt8) (n : Ref) (t : NodeType)
    (o : Obj V) : Prop where
  nodeType : V.nodeType n.special = some t
  type : V.typed = true → o.getType = n.special
  sound : o.Sound t
  prefixCount : o.prefixCount = π.length
  stored : ∀ j : Fin maxStoredPrefixLength, ∀ b, π[j.val]? = some b → o.prefixBytes j = b
  kids : ∀ c, Denotes X (o.getChild t c) (idHash o.id c) (M (p ++ π ++ [c]))

/-- Two objects that differ in their lock words only, and not in the class there. -/
structure SameBody (o o' : Obj V) : Prop where
  type : o'.getType = o.getType
  value : o'.value = o.value
  id : o'.id = o.id
  prefixCount : o'.prefixCount = o.prefixCount
  prefixBytes : o'.prefixBytes = o.prefixBytes
  entries : o'.entries = o.entries
  children : o'.children = o.children

theorem SameBody.refl (o : Obj V) : SameBody o o := ⟨rfl, rfl, rfl, rfl, rfl, rfl, rfl⟩

theorem SameBody.trans {o'' : Obj V} (h : SameBody o o') (h' : SameBody o' o'') : SameBody o o'' :=
  ⟨h'.type.trans h.type, h'.value.trans h.value, h'.id.trans h.id,
    h'.prefixCount.trans h.prefixCount, h'.prefixBytes.trans h.prefixBytes,
    h'.entries.trans h.entries, h'.children.trans h.children⟩

theorem SameBody.of_eq (h : o' = o) : SameBody o o' := h ▸ SameBody.refl o

theorem SameBody.of_word {w : UInt64} {v v' : ℕ} (h : Word V n o.typeVersionLockObsolete v)
    (h' : Word V n w v') : SameBody o { o with typeVersionLockObsolete := w } :=
  ⟨h'.getType.trans h.getType.symm, rfl, rfl, rfl, rfl, rfl, rfl⟩

namespace Inner

variable {M M' : Key → Option Ref} {p : Key} {π : List UInt8} {t : NodeType} {c : UInt8}
  {q : ArtTinyPtr V}

theorem congr (h : Inner X M p π n t o) (ho : SameBody o o')
    (hM : ∀ c, M' (p ++ π ++ [c]) = M (p ++ π ++ [c])) : Inner X M' p π n t o' := by
  refine ⟨h.nodeType, fun ht => ho.type.trans (h.type ht), h.sound.of_entries ho.entries,
    ho.prefixCount.trans h.prefixCount, fun j b hb => by rw [ho.prefixBytes, h.stored j b hb],
    fun c => ?_⟩
  rw [Obj.getChild_congr ho.entries ho.children, ho.id, hM]
  exact h.kids c

theorem classOf (h : Inner X M p π n t o) : o.classOf n.special = some t := by
  unfold Obj.classOf
  rw [h.nodeType, if_neg]
  intro hc
  rw [Bool.and_eq_true, bne_iff_ne] at hc
  exact hc.2 (h.type hc.1)

theorem getChild_eq_null (h : Inner X M p π n t o) (hc : M (p ++ π ++ [c]) = none) :
    o.getChild t c = .null := by
  have := h.kids c
  rwa [hc] at this

theorem denotes (h : Inner X M p π n t o) (hc : M (p ++ π ++ [c]) = some m) :
    o.getChild t c ≠ .null ∧ o.getChild t c ≠ .tagged ∧
      Heap.refOf X (o.getChild t c) (idHash o.id c) = m := by
  have := h.kids c
  rwa [hc] at this

/-- Whether there is a child can be seen in the node. -/
theorem getChild_eq_null_iff (h : Inner X M p π n t o) :
    o.getChild t c = .null ↔ M (p ++ π ++ [c]) = none := by
  cases hc : M (p ++ π ++ [c]) with
  | none => exact ⟨fun _ => rfl, fun _ => h.getChild_eq_null hc⟩
  | some m => exact ⟨fun h₀ => absurd h₀ (h.denotes hc).1, fun h₀ => by cases h₀⟩

/-- A node with one child more. -/
theorem insert (h : Inner X M p π n t o) (hc : M (p ++ π ++ [c]) = none)
    (hi : o.insert t c q = some o') (hq : Denotes X q (idHash o.id c) (some m))
    (hc' : M' (p ++ π ++ [c]) = some m) (hM : ∀ d, d ≠ c → M' (p ++ π ++ [d]) = M (p ++ π ++ [d])) :
    Inner X M' p π n t o' := by
  have hh := Obj.SameHead.of_insert hi
  have hnull := h.getChild_eq_null hc
  refine ⟨h.nodeType, fun ht => ?_, h.sound.insert hi hq.1 hnull,
    hh.prefixCount.trans h.prefixCount, fun j b hb => by rw [hh.prefixBytes, h.stored j b hb],
    fun d => ?_⟩
  · rw [← h.type ht]
    unfold Obj.getType
    rw [hh.word]
  · rw [Obj.getChild_insert h.sound hi hnull, hh.id]
    split_ifs with hd
    · rw [hd, hc']
      exact hq
    · rw [hM d hd]
      exact h.kids d

/-- A node with a child replaced. -/
theorem change (h : Inner X M p π n t o) (hi : o.change t c q = some o')
    (hq : Denotes X q (idHash o.id c) (some m)) (hc' : M' (p ++ π ++ [c]) = some m)
    (hM : ∀ d, d ≠ c → M' (p ++ π ++ [d]) = M (p ++ π ++ [d])) : Inner X M' p π n t o' := by
  have hh := Obj.SameHead.of_change hi
  refine ⟨h.nodeType, fun ht => ?_, h.sound.change hi hq.1, hh.prefixCount.trans h.prefixCount,
    fun j b hb => by rw [hh.prefixBytes, h.stored j b hb], fun d => ?_⟩
  · rw [← h.type ht]
    unfold Obj.getType
    rw [hh.word]
  · rw [Obj.getChild_change hi, hh.id]
    split_ifs with hd
    · rw [hd, hc']
      exact hq
    · rw [hM d hd]
      exact h.kids d

theorem stored_setPrefix {src : List UInt8}
    (hsrc : ∀ j : Fin maxStoredPrefixLength, ∀ b, π[j.val]? = some b → src.getD j.val 0 = b) :
    ∀ j : Fin maxStoredPrefixLength, ∀ b, π[j.val]? = some b →
      (o.setPrefix src π.length).prefixBytes j = b := by
  intro j b hb
  have hlt : j.val < π.length := (List.getElem?_eq_some_iff.mp hb).1
  unfold Obj.setPrefix
  rw [if_pos (by omega)]
  simp only
  rw [if_pos (by omega)]
  exact hsrc j b hb

/-- A new node. -/
theorem construct {special : ℕ} {src : List UInt8} (id : UInt64) (ht : V.nodeType special = some t)
    (hn : n.special = special) (hM : ∀ c, M (p ++ π ++ [c]) = none)
    (hsrc : ∀ j : Fin maxStoredPrefixLength, ∀ b, π[j.val]? = some b → src.getD j.val 0 = b) :
    Inner X M p π n t (o.construct special id src π.length) := by
  have hlt := (V.nodeType_lt (c := special) (by rw [ht]; exact Option.some_ne_none t)).2
  refine ⟨hn ▸ ht, fun hty => ?_, Obj.sound_construct .., ?_, stored_setPrefix hsrc, fun c => ?_⟩
  · rw [(word_construct (V := V) hlt hn id src π.length).getType, tag, if_pos hty]
  · exact Obj.prefixCount_setPrefix ..
  · rw [hM, Obj.getChild_construct]
    rfl

end Inner

/-- What is stored of a prefix are its first bytes. -/
theorem Inner.getPrefix {M : Key → Option Ref} {p : Key} {π : List UInt8} {t : NodeType}
    (h : Inner X M p π n t o) :
    o.getPrefix.take (min o.prefixCount maxStoredPrefixLength) = π.take maxStoredPrefixLength := by
  apply List.ext_getElem?
  intro j
  rw [List.getElem?_take, List.getElem?_take, h.prefixCount]
  by_cases hj : j < min π.length maxStoredPrefixLength
  · obtain ⟨hj₁, hj₂⟩ := lt_min_iff.mp hj
    have hb : π[j]? = some π[j] := List.getElem?_eq_getElem hj₁
    have := h.stored ⟨j, hj₂⟩ π[j] hb
    simp [hj, hj₂, Obj.getPrefix, this]
  · rw [if_neg hj]
    split_ifs with hj₂
    · exact (List.getElem?_eq_none (by omega)).symm
    · rfl

/-! ### New objects at their places -/

/-- The objects `new` are put at their places. -/
def putAll (M : Key → Option Ref) : List (Key × Ref) → Key → Option Ref
  | [] => M
  | e :: new => Function.update (putAll M new) e.1 (some e.2)

section PutAll

variable {M : Key → Option Ref} {new : List (Key × Ref)} {x q : Key} {l : Ref}

/-- A function that is changed at one path, to an address it does not have, is still injective. -/
theorem inj_update (h : ∀ p q n, M p = some n → M q = some n → p = q) {m : Ref}
    (hm : ∀ q, M q ≠ some m) :
    ∀ p q n, Function.update M x (some m) p = some n →
      Function.update M x (some m) q = some n → p = q := by
  intro p q n hp hq
  by_cases hpx : p = x
  · subst hpx
    by_cases hqx : q = p
    · exact hqx.symm
    · rw [Function.update_self] at hp
      rw [Function.update_of_ne hqx, ← hp] at hq
      exact absurd hq (hm q)
  · by_cases hqx : q = x
    · subst hqx
      rw [Function.update_self] at hq
      rw [Function.update_of_ne hpx, ← hq] at hp
      exact absurd hp (hm p)
    · rw [Function.update_of_ne hpx] at hp
      rw [Function.update_of_ne hqx] at hq
      exact h p q n hp hq

theorem putAll_of_notMem (h : q ∉ new.map Prod.fst) : putAll M new q = M q := by
  induction new with
  | nil => rfl
  | cons e new ih =>
    rw [List.map_cons, List.mem_cons, not_or] at h
    rw [putAll, Function.update_of_ne h.1, ih h.2]

theorem putAll_of_mem (hnd : (new.map Prod.fst).Nodup) (h : (q, l) ∈ new) :
    putAll M new q = some l := by
  induction new with
  | nil => cases h
  | cons e new ih =>
    rw [List.map_cons, List.nodup_cons] at hnd
    rcases List.mem_cons.1 h with rfl | h
    · exact Function.update_self ..
    · have hq : q ∈ new.map Prod.fst := List.mem_map_of_mem h
      have hne : q ≠ e.1 := fun he => hnd.1 (he ▸ hq)
      rw [putAll, Function.update_of_ne hne, ih hnd.2 h]

/-- What is at a place is new, or was there before. -/
theorem putAll_cases (h : putAll M new q = some l) :
    (q, l) ∈ new ∨ q ∉ new.map Prod.fst ∧ M q = some l := by
  induction new with
  | nil => exact Or.inr ⟨List.not_mem_nil, h⟩
  | cons e new ih =>
    by_cases hq : q = e.1
    · subst hq
      rw [putAll, Function.update_self, Option.some.injEq] at h
      exact Or.inl (h ▸ List.mem_cons_self)
    · rw [putAll, Function.update_of_ne hq] at h
      refine (ih h).imp (List.mem_cons_of_mem _) fun hold => ⟨?_, hold.2⟩
      rw [List.map_cons, List.mem_cons, not_or]
      exact ⟨hq, hold.1⟩

/-- Below `x` only. -/
theorem putAll_outside (hnew : ∀ e ∈ new, x <+: e.1) (hq : ¬x <+: q) : putAll M new q = M q := by
  apply putAll_of_notMem
  intro hmem
  obtain ⟨e, he, rfl⟩ := List.mem_map.1 hmem
  exact hq (hnew e he)

theorem inj_putAll (hM : ∀ p q n, M p = some n → M q = some n → p = q)
    (hnew : ∀ e ∈ new, ∀ q, M q ≠ some e.2) (hnd : (new.map Prod.snd).Nodup) :
    ∀ p q n, putAll M new p = some n → putAll M new q = some n → p = q := by
  induction new with
  | nil => exact hM
  | cons e new ih =>
    rw [List.map_cons, List.nodup_cons] at hnd
    apply inj_update (ih (fun e' he' => hnew e' (List.mem_cons_of_mem _ he')) hnd.2)
    intro q hq
    rcases putAll_cases hq with hmem | ⟨-, hq⟩
    · exact hnd.1 (List.mem_map.2 ⟨_, hmem, rfl⟩)
    · exact hnew e List.mem_cons_self q hq

/-- A node is not below its child, nor are its other children. -/
theorem not_prefix_parent {p₀ : Key} {π₀ : List UInt8} {c₀ : UInt8} (hx : p₀ ++ π₀ ++ [c₀] = x) :
    ¬x <+: p₀ := by
  intro h
  have hlen := h.length_le
  rw [← hx] at hlen
  simp at hlen

theorem not_prefix_sibling {p₀ : Key} {π₀ : List UInt8} {c₀ d : UInt8} (hx : p₀ ++ π₀ ++ [c₀] = x)
    (hd : d ≠ c₀) : ¬x <+: p₀ ++ π₀ ++ [d] := by
  intro h
  have heq := h.eq_of_length (by simp [← hx])
  rw [← hx] at heq
  exact hd (by simpa using heq.symm)

end PutAll

/-! ### The whole tree -/

/-- What the radix tree has at `q`, the heap has at the address `M q`. -/
inductive At (X : ℕ → BucketIndexer) (s : Heap V) (R : RadixTree UInt8 UInt64)
    (M : Key → Option Ref) (q : Key) : Prop where
  /-- Nothing. -/
  | absent (hq : R.item q = none) (hM : M q = none)
  /-- A leaf. -/
  | leaf {r : List UInt8} {v : UInt64} {n : Ref} (hq : R.item q = some ⟨r, some v⟩)
      (hM : M q = some n) (hl : s.Live n) (hn : n.special = leafS) (hv : (s.get n).value = v)
  /-- An inner node. -/
  | inner {π : List UInt8} {n : Ref} {t : NodeType} (hq : R.item q = some ⟨π, none⟩)
      (hM : M q = some n) (hl : s.Live n) (hn : Inner X M q π n t (s.get n))

/-- The heap represents the radix tree `R`, with the node of path `p` at `M p`. -/
structure Shape (A : Tree V) (s : Heap V) (R : RadixTree UInt8 UInt64) (M : Key → Option Ref) :
    Prop where
  at_path : ∀ q, At A.indexer s R M q
  inj : ∀ p q n, M p = some n → M q = some n → p = q
  root : M [] = some A.root.2
  root_special : A.root.2.special = V.n256S
  keyed : ∀ k v, R.Maps k v → A.loadKey v = k

namespace Shape

variable {A : Tree V} {R R' : RadixTree UInt8 UInt64} {M M' : Key → Option Ref} {p q : Key}
  {π r : List UInt8} {c : UInt8} {v : UInt64}

theorem eq_none_iff (h : Shape A s R M) : M q = none ↔ R.item q = none := by
  cases h.at_path q with
  | absent hq hM => simp [hq, hM]
  | leaf hq hM => simp [hq, hM]
  | inner hq hM => simp [hq, hM]

theorem live (h : Shape A s R M) (hM : M q = some n) : s.Live n := by
  cases h.at_path q with
  | absent hq hM' => simp [hM'] at hM
  | leaf hq hM' hl =>
    rw [hM'] at hM
    cases hM
    exact hl
  | inner hq hM' hl =>
    rw [hM'] at hM
    cases hM
    exact hl

/-- What is at an address that is reached over an edge. -/
theorem item (h : Shape A s R M) (hM : M q = some n) :
    (∃ r v, R.item q = some ⟨r, some v⟩ ∧ n.special = leafS ∧ (s.get n).value = v) ∨
      ∃ π t, R.item q = some ⟨π, none⟩ ∧ Inner A.indexer M q π n t (s.get n) := by
  cases h.at_path q with
  | absent hq hM' => simp [hM'] at hM
  | leaf hq hM' hl hn hv =>
    rw [hM'] at hM
    cases hM
    exact Or.inl ⟨_, _, hq, hn, hv⟩
  | inner hq hM' hl hn =>
    rw [hM'] at hM
    cases hM
    exact Or.inr ⟨_, _, hq, hn⟩

theorem inner (h : Shape A s R M) (hq : R.item q = some ⟨π, none⟩) :
    ∃ n t, M q = some n ∧ s.Live n ∧ Inner A.indexer M q π n t (s.get n) := by
  cases h.at_path q with
  | absent hq' => simp [hq'] at hq
  | leaf hq' =>
    rw [hq'] at hq
    cases hq
  | inner hq' hM hl hn =>
    rw [hq'] at hq
    cases hq
    exact ⟨_, _, hM, hl, hn⟩

theorem leaf (h : Shape A s R M) (hq : R.item q = some ⟨r, some v⟩) :
    ∃ n, M q = some n ∧ s.Live n ∧ n.special = leafS ∧ (s.get n).value = v := by
  cases h.at_path q with
  | absent hq' => simp [hq'] at hq
  | leaf hq' hM hl hn hv =>
    rw [hq'] at hq
    cases hq
    exact ⟨_, hM, hl, hn, hv⟩
  | inner hq' =>
    rw [hq'] at hq
    cases hq

theorem special_ne (h : Shape A s R M) (hq : R.item q = some ⟨π, none⟩) (hn : M q = some n) :
    n.special ≠ leafS := by
  obtain ⟨n', t, hn', -, hi⟩ := h.inner hq
  rw [hn] at hn'
  cases hn'
  exact V.nodeType_ne_leafS (by rw [hi.nodeType]; exact Option.some_ne_none t)

/-- A change at the paths `D` that leaves the rest of the heap alone. -/
theorem of_changes (h : Shape A s R M) (D : Key → Prop)
    (hold : ∀ q, ¬ D q → R'.item q = R.item q ∧ M' q = M q)
    (hkids : ∀ q i c, R'.item q = some i → ¬ D q → M' (q ++ i.stem ++ [c]) = M (q ++ i.stem ++ [c]))
    (hget : ∀ q n, ¬ D q → M q = some n → s'.Live n ∧ SameBody (s.get n) (s'.get n))
    (hnew : ∀ q, D q → At A.indexer s' R' M' q)
    (hinj : ∀ p q n, M' p = some n → M' q = some n → p = q) (hroot : M' [] = M [])
    (hkeyed : ∀ k v, R'.Maps k v → A.loadKey v = k) : Shape A s' R' M' := by
  refine ⟨fun q => ?_, hinj, hroot.trans h.root, h.root_special, hkeyed⟩
  by_cases hD : D q
  · exact hnew q hD
  obtain ⟨hR, hM⟩ := hold q hD
  cases h.at_path q with
  | absent hq hq' => exact .absent (hR.trans hq) (hM.trans hq')
  | leaf hq hq' hl hn hv =>
    obtain ⟨hl', hb⟩ := hget q _ hD hq'
    exact .leaf (hR.trans hq) (hM.trans hq') hl' hn (hb.value.trans hv)
  | @inner π n t hq hq' hl hn =>
    obtain ⟨hl', hb⟩ := hget q _ hD hq'
    exact .inner (hR.trans hq) (hM.trans hq') hl' (hn.congr hb fun c =>
      hkids q ⟨π, none⟩ c (hR.trans hq) hD)

/-- A heap that differs in lock words, and in what is not part of the tree. -/
theorem congr (h : Shape A s R M)
    (hs : ∀ q n, M q = some n → s'.Live n ∧ SameBody (s.get n) (s'.get n)) : Shape A s' R M :=
  h.of_changes (fun _ => False) (fun _ _ => ⟨rfl, rfl⟩) (fun _ _ _ _ _ => rfl) (fun q n _ => hs q n)
    (fun _ hD => hD.elim) h.inj rfl h.keyed

theorem ne_of_eq_none (hx : M p = none) (hq : M q = some n) : q ≠ p := by
  rintro rfl
  rw [hx] at hq
  cases hq

/-- A node is not its child. -/
theorem child_ne {p₀ x : Key} {π₀ : List UInt8} {c₀ : UInt8} {n₀ : Ref} (h : Shape A s R M)
    (hx : p₀ ++ π₀ ++ [c₀] = x) (hn₀ : M p₀ = some n₀) (hn : M x = some n) : n ≠ n₀ := by
  rintro rfl
  apply not_prefix_parent hx
  rw [h.inj x p₀ n hn hn₀]

/-- A leaf is hung on an edge that the node at `p` did not have. -/
theorem addLeaf (h : Shape A s R M) (hp : R.item p = some ⟨π, none⟩)
    (hc : R.item (p ++ π ++ [c]) = none) {t : NodeType} (hn : M p = some n) (hl : s'.Live n)
    (hi : Inner A.indexer (Function.update M (p ++ π ++ [c]) (some m)) p π n t (s'.get n))
    (hm : ∀ q, M q ≠ some m) (hml : s'.Live m) (hms : m.special = leafS)
    (hmv : (s'.get m).value = v)
    (hget : ∀ q n', q ≠ p → M q = some n' → s'.Live n' ∧ SameBody (s.get n') (s'.get n'))
    (hk : A.loadKey v = p ++ π ++ [c] ++ r) :
    Shape A s' (R.addLeaf p ⟨π, none⟩ c r v hp rfl hc)
      (Function.update M (p ++ π ++ [c]) (some m)) := by
  have hne : p ≠ p ++ π ++ [c] := by simp
  refine h.of_changes (fun q => q = p ∨ q = p ++ π ++ [c]) (fun q hq => ?_) (fun q i d hq hD => ?_)
    (fun q n' hq hM => ?_) (fun q hq => ?_) (inj_update h.inj hm) ?_ fun k w hkw => ?_
  · rw [not_or] at hq
    exact ⟨RadixTree.item_addLeaf_ne hq.2, Function.update_of_ne hq.2 ..⟩
  · rw [not_or] at hD
    rw [RadixTree.item_addLeaf_ne hD.2] at hq
    rw [Function.update_of_ne]
    exact fun he => hD.1 (RadixTree.edge_inj hq hp he).1
  · rw [not_or] at hq
    exact hget q n' hq.1 hM
  · rcases hq with rfl | rfl
    · refine .inner (n := n) ?_ ?_ hl hi
      · rw [RadixTree.item_addLeaf_ne hne, hp]
      · rw [Function.update_of_ne hne, hn]
    · exact .leaf RadixTree.item_addLeaf_self (Function.update_self ..) hml hms hmv
  · rw [Function.update_of_ne (by simp)]
  · rcases RadixTree.maps_addLeaf.mp hkw with ⟨rfl, rfl⟩ | hkw
    · exact hk
    · exact h.keyed k w hkw

/-- A node `n'` takes the place of the node on the edge for `c₀` of its parent, with a leaf on an
edge that the old node did not have. -/
theorem grow {p₀ x : Key} {π₀ : List UInt8} {c₀ : UInt8} {n₀ : Ref} {t₀ t : NodeType}
    (h : Shape A s R M) (hp₀ : R.item p₀ = some ⟨π₀, none⟩) (hx : p₀ ++ π₀ ++ [c₀] = x)
    (hp : R.item x = some ⟨π, none⟩) (hc : R.item (x ++ π ++ [c]) = none) (hn₀ : M p₀ = some n₀)
    (hl₀ : s'.Live n₀) (hM' : M' = putAll M [(x ++ π ++ [c], m), (x, n')])
    (hi₀ : Inner A.indexer M' p₀ π₀ n₀ t₀ (s'.get n₀)) (hn' : ∀ q, M q ≠ some n') (hl' : s'.Live n')
    (hi : Inner A.indexer M' x π n' t (s'.get n')) (hm : ∀ q, M q ≠ some m) (hne : m ≠ n')
    (hml : s'.Live m) (hms : m.special = leafS) (hmv : (s'.get m).value = v)
    (hget : ∀ q k, q ≠ p₀ → q ≠ x → M q = some k → s'.Live k ∧ SameBody (s.get k) (s'.get k))
    (hk : A.loadKey v = x ++ π ++ [c] ++ r) :
    Shape A s' (R.addLeaf x ⟨π, none⟩ c r v hp rfl hc) M' := by
  have hxc : x ≠ x ++ π ++ [c] := by simp
  have hbelow : ∀ e ∈ [(x ++ π ++ [c], m), (x, n')], x <+: e.1 := by simp
  have hnd : ([(x ++ π ++ [c], m), (x, n')].map Prod.fst).Nodup := by simp
  have hx₀ := not_prefix_parent hx
  have hx₀c : p₀ ≠ x ++ π ++ [c] := fun he => hx₀ (by simp [he])
  subst hM'
  refine h.of_changes (fun q => q = p₀ ∨ q = x ∨ q = x ++ π ++ [c]) (fun q hq => ?_)
    (fun q i d hq hD => ?_) (fun q k hq hM => ?_) (fun q hq => ?_)
    (inj_putAll h.inj (by simp [hm, hn']) (by simpa using hne)) ?_ fun k w hkw => ?_
  · simp only [not_or] at hq
    exact ⟨RadixTree.item_addLeaf_ne hq.2.2,
      putAll_of_notMem (by simpa using And.intro hq.2.2 hq.2.1)⟩
  · simp only [not_or] at hD
    rw [RadixTree.item_addLeaf_ne hD.2.2] at hq
    have hx' : q ++ i.stem ++ [d] ≠ x :=
      fun he => hD.1 (RadixTree.edge_inj hq hp₀ (he.trans hx.symm)).1
    have hxc' : q ++ i.stem ++ [d] ≠ x ++ π ++ [c] :=
      fun he => hD.2.1 (RadixTree.edge_inj hq hp he).1
    apply putAll_of_notMem
    rw [List.map_cons, List.map_cons, List.mem_cons, List.mem_cons, not_or, not_or]
    exact ⟨hxc', hx', List.not_mem_nil⟩
  · simp only [not_or] at hq
    exact hget q k hq.1 hq.2.1 hM
  · rcases hq with rfl | rfl | rfl
    · refine .inner (n := n₀) ?_ ?_ hl₀ hi₀
      · rw [RadixTree.item_addLeaf_ne hx₀c, hp₀]
      · rw [putAll_outside hbelow hx₀, hn₀]
    · refine .inner (n := n') ?_ (putAll_of_mem hnd (by simp)) hl' hi
      rw [RadixTree.item_addLeaf_ne hxc, hp]
    · exact .leaf RadixTree.item_addLeaf_self (putAll_of_mem hnd List.mem_cons_self) hml hms hmv
  · apply putAll_outside hbelow
    simp [← hx]
  · rcases RadixTree.maps_addLeaf.mp hkw with ⟨rfl, rfl⟩ | hkw
    · exact hk
    · exact h.keyed k w hkw

/-- A node with two children takes the place of what is on the edge for `c₀` of its parent: what was
there, with a shorter stem, and a leaf. -/
theorem split {p₀ x μ r' : Key} {π₀ : List UInt8} {c₀ a b : UInt8} {n₀ n₁ n₂ n₃ : Ref}
    {t₀ t₁ : NodeType} {val : Option UInt64} (h : Shape A s R M) (hp₀ : R.item p₀ = some ⟨π₀, none⟩)
    (hx : p₀ ++ π₀ ++ [c₀] = x) (hs : R.item x = some ⟨μ ++ a :: r, val⟩) (hx0 : x ≠ [])
    (hab : a ≠ b) (hM' : M' = putAll M [(x ++ μ ++ [b], n₃), (x ++ μ ++ [a], n₂), (x, n₁)])
    (hn₀ : M p₀ = some n₀) (hl₀ : s'.Live n₀) (hi₀ : Inner A.indexer M' p₀ π₀ n₀ t₀ (s'.get n₀))
    (hn₁ : ∀ q, M q ≠ some n₁) (hl₁ : s'.Live n₁) (hi₁ : Inner A.indexer M' x μ n₁ t₁ (s'.get n₁))
    (hn₂ : ∀ q, M q ≠ some n₂) (h₂₁ : n₂ ≠ n₁) (hl₂ : s'.Live n₂)
    (hi₂ : (val = none ∧ ∃ t, Inner A.indexer M (x ++ μ ++ [a]) r n₂ t (s'.get n₂)) ∨
      ∃ w, val = some w ∧ n₂.special = leafS ∧ (s'.get n₂).value = w)
    (hn₃ : ∀ q, M q ≠ some n₃) (h₃₁ : n₃ ≠ n₁) (h₃₂ : n₃ ≠ n₂) (hl₃ : s'.Live n₃)
    (hms : n₃.special = leafS) (hmv : (s'.get n₃).value = v)
    (hget : ∀ q k, q ≠ p₀ → q ≠ x → M q = some k → s'.Live k ∧ SameBody (s.get k) (s'.get k))
    (hk : A.loadKey v = x ++ μ ++ [b] ++ r') :
    Shape A s' (R.split x μ a b r r' val v hs hx0 hab) M' := by
  have hxd : ∀ d, x ≠ x ++ μ ++ [d] := by simp
  have hbelow : ∀ e ∈ [(x ++ μ ++ [b], n₃), (x ++ μ ++ [a], n₂), (x, n₁)], x <+: e.1 := by simp
  have hnd : ([(x ++ μ ++ [b], n₃), (x ++ μ ++ [a], n₂), (x, n₁)].map Prod.fst).Nodup := by
    simp [hab.symm]
  have hx₀ := not_prefix_parent hx
  have hx₀x : p₀ ≠ x := fun he => hx₀ (by simp [he])
  have hx₀d : ∀ d, p₀ ≠ x ++ μ ++ [d] := fun d he => hx₀ (by simp [he])
  subst hM'
  refine h.of_changes (fun q => q = p₀ ∨ q = x ∨ q = x ++ μ ++ [a] ∨ q = x ++ μ ++ [b])
    (fun q hq => ?_) (fun q i d hq hD => ?_) (fun q k hq hM => ?_) (fun q hq => ?_)
    (inj_putAll h.inj (by simp [hn₁, hn₂, hn₃]) (by simp [h₂₁, h₃₁, h₃₂])) ?_ fun k w hkw => ?_
  · simp only [not_or] at hq
    exact ⟨RadixTree.item_split_of_ne hq.2.2.2 hq.2.2.1 hq.2.1,
      putAll_of_notMem (by simpa using And.intro hq.2.2.2 (And.intro hq.2.2.1 hq.2.1))⟩
  · simp only [not_or] at hD
    have hx' : q ++ i.stem ++ [d] ≠ x := by
      rw [RadixTree.item_split_of_ne hD.2.2.2 hD.2.2.1 hD.2.1] at hq
      exact fun he => hD.1 (RadixTree.edge_inj hq hp₀ (he.trans hx.symm)).1
    have hxd' : ∀ e, q ++ i.stem ++ [d] ≠ x ++ μ ++ [e] := fun e he =>
      hD.2.1 (RadixTree.edge_inj hq RadixTree.item_split_self he).1
    apply putAll_of_notMem
    simp only [List.map_cons, List.map_nil, List.mem_cons, not_or]
    exact ⟨hxd' b, hxd' a, hx', List.not_mem_nil⟩
  · simp only [not_or] at hq
    exact hget q k hq.1 hq.2.1 hM
  · rcases hq with rfl | rfl | rfl | rfl
    · refine .inner (n := n₀) ?_ ?_ hl₀ hi₀
      · rw [RadixTree.item_split_of_ne (hx₀d b) (hx₀d a) hx₀x, hp₀]
      · rw [putAll_outside hbelow hx₀, hn₀]
    · exact .inner RadixTree.item_split_self (putAll_of_mem hnd (by simp)) hl₁ hi₁
    · have hMa := putAll_of_mem (M := M) (q := x ++ μ ++ [a]) (l := n₂) hnd (by simp)
      rcases hi₂ with ⟨rfl, t, hi₂⟩ | ⟨w, rfl, hs₂, hv₂⟩
      · refine .inner RadixTree.item_split_a hMa hl₂ (t := t) ?_
        exact hi₂.congr (SameBody.refl _) fun e => putAll_of_notMem (by simp)
      · exact .leaf RadixTree.item_split_a hMa hl₂ hs₂ hv₂
    · exact .leaf RadixTree.item_split_b (putAll_of_mem hnd List.mem_cons_self) hl₃ hms hmv
  · apply putAll_outside hbelow
    simpa using hx0
  · rcases RadixTree.maps_split.mp hkw with ⟨rfl, rfl⟩ | hkw
    · exact hk
    · exact h.keyed k w hkw

end Shape

end TinyPointerTrees.Art
