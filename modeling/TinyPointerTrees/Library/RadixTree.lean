import Mathlib.Tactic

/-!
# Radix trees by the paths of their edges

A radix tree over an alphabet `κ` with values in `ν`, as the function that says what
is at the end of each edge. An edge is named by the path that leads over it from the
root: at the end of an edge there is a leaf, with the rest of its key and a value,
or an inner node, with its compressed prefix. The edges of the inner node at `p`
with prefix `π` are the paths `p ++ π ++ [c]`. So the position of a node does not
change when the tree is changed around it, and an insertion changes the function at
one path and at the two paths below it.

* `below` — what is under a path is under one edge of the node at that path.
* `Maps.of_inner`, `Maps.of_leaf` — how a search finds a key, or that it is not there.
* `item_eq_of_maps` — a tree is determined by its keys and values.
* `Fits` — no key of the tree is a prefix of a new key, or extends it; a key that leaves the tree
  fits.
* `addLeaf`, `split` — the two ways to insert a key, and `maps_addLeaf`, `maps_split`.
-/

/-- What is at the end of an edge: the prefix of an inner node, or the rest of a leaf's key and
its value. -/
structure RadixItem (κ ν : Type*) where
  /-- The prefix, or the rest of the key. -/
  stem : List κ
  /-- The value of a leaf. -/
  value : Option ν

/-- A radix tree. -/
structure RadixTree (κ ν : Type*) where
  /-- What is at the end of the edge with this path. -/
  item : List κ → Option (RadixItem κ ν)
  /-- The root is an inner node without a prefix. -/
  root : item [] = some ⟨[], none⟩
  /-- Every other node hangs on an edge of an inner node. -/
  edge : ∀ s i, item s = some i → s ≠ [] →
    ∃ p j c, item p = some j ∧ j.value = none ∧ s = p ++ j.stem ++ [c]
  /-- Every inner node but the root has two edges. -/
  branching : ∀ p i, item p = some i → i.value = none → p ≠ [] →
    ∃ c d, c ≠ d ∧ item (p ++ i.stem ++ [c]) ≠ none ∧ item (p ++ i.stem ++ [d]) ≠ none
  /-- The paths have a bounded length. -/
  bounded : ∃ n, ∀ s i, item s = some i → s.length ≤ n

namespace RadixTree

variable {κ ν : Type*} {T : RadixTree κ ν} {i j : RadixItem κ ν} {p s k k' : List κ} {c : κ}
  {v v' : ν}

/-- What is under a path is under one edge of the inner node at that path. -/
theorem below (hp : T.item p = some i) (hs : T.item s = some j) (h : p <+: s) (hne : p ≠ s) :
    i.value = none ∧ ∃ c, T.item (p ++ i.stem ++ [c]) ≠ none ∧ p ++ i.stem ++ [c] <+: s := by
  induction hn : s.length using Nat.strong_induction_on generalizing p s i j with
  | _ n ih =>
    subst hn
    have hs0 : s ≠ [] := by
      rintro rfl
      exact hne (List.prefix_nil.mp h)
    obtain ⟨p', i', c, hp', hv', rfl⟩ := T.edge s j hs hs0
    have hlt : p'.length < (p' ++ i'.stem ++ [c]).length := by simp
    have hpre : p' <+: p' ++ i'.stem ++ [c] := by
      rw [List.append_assoc]
      exact List.prefix_append _ _
    by_cases heq : p = p'
    · subst heq
      rw [hp'] at hp
      cases hp
      exact ⟨hv', c, by rw [hs]; exact Option.some_ne_none _, List.prefix_rfl⟩
    · rcases List.prefix_or_prefix_of_prefix h hpre with h' | h'
      · obtain ⟨hv, c', hc', hpre'⟩ := ih p'.length hlt hp hp' h' heq rfl
        exact ⟨hv, c', hc', hpre'.trans hpre⟩
      · -- `p` would be strictly inside of an edge
        have hltp : p.length < (p' ++ i'.stem ++ [c]).length := by
          rcases h.length_le.lt_or_eq with hlt | he
          · exact hlt
          · exact absurd (h.eq_of_length he) hne
        obtain ⟨-, c', -, hpre'⟩ := ih p.length hltp hp' hp h' (Ne.symm heq) rfl
        have hle := hpre'.length_le
        simp only [List.length_append, List.length_singleton] at hle hltp
        omega

/-- Nothing is under a leaf. -/
theorem eq_of_leaf (hp : T.item p = some i) (hv : i.value ≠ none) (hs : T.item s = some j)
    (h : p <+: s) : p = s := by
  by_contra hne
  exact hv (below hp hs h hne).1

/-- An edge belongs to one node. -/
theorem edge_inj {q : List κ} {c' : κ} (hp : T.item p = some i) (hq : T.item q = some j)
    (h : p ++ i.stem ++ [c] = q ++ j.stem ++ [c']) : p = q ∧ c = c' := by
  obtain ⟨h₁, h₂⟩ := List.append_inj' h rfl
  obtain rfl : c = c' := by simpa using h₂
  refine ⟨?_, rfl⟩
  by_contra hne
  have hlen := congrArg List.length h₁
  rw [List.length_append, List.length_append] at hlen
  rcases List.prefix_or_prefix_of_prefix (List.prefix_append p i.stem)
    (h₁ ▸ List.prefix_append q j.stem) with h | h
  · obtain ⟨-, c', -, hpre⟩ := below hp hq h hne
    have := hpre.length_le
    simp only [List.length_append, List.length_singleton] at this
    omega
  · obtain ⟨-, c', -, hpre⟩ := below hq hp h (Ne.symm hne)
    have := hpre.length_le
    simp only [List.length_append, List.length_singleton] at this
    omega

/-- What is on the way to an edge is on the way to its node. -/
theorem prefix_of_prefix_edge {q : List κ} (hp : T.item p = some i) (hq : T.item q = some j)
    (h : q <+: p ++ i.stem ++ [c]) (hne : q ≠ p ++ i.stem ++ [c]) : q <+: p := by
  have hpre : p <+: p ++ i.stem ++ [c] := by
    rw [List.append_assoc]
    exact List.prefix_append _ _
  rcases List.prefix_or_prefix_of_prefix h hpre with h' | h'
  · exact h'
  by_cases heq : p = q
  · rw [heq]
  obtain ⟨-, d, -, hd⟩ := below hp hq h' heq
  refine absurd (h.eq_of_length (le_antisymm h.length_le ?_)) hne
  have := hd.length_le
  simpa using this

/-- A place on the path of an edge is inside of the stem of some node. -/
theorem exists_item_over {q : List κ} (hs : T.item s = some j) (hq : q <+: s) :
    ∃ p i, T.item p = some i ∧ p <+: q ∧ q <+: p ++ i.stem := by
  induction hn : s.length using Nat.strong_induction_on generalizing s j with
  | _ n ih =>
    subst hn
    by_cases heq : q = s
    · exact ⟨s, j, hs, heq ▸ List.prefix_rfl, heq ▸ List.prefix_append _ _⟩
    have hs0 : s ≠ [] := by
      rintro rfl
      exact heq (List.prefix_nil.mp hq)
    obtain ⟨p, i, c, hp, -, rfl⟩ := T.edge s j hs hs0
    have hqp : q <+: p ++ i.stem := (List.prefix_concat_iff.mp hq).resolve_left heq
    rcases List.prefix_or_prefix_of_prefix hqp (List.prefix_append p i.stem) with h | h
    · exact ih p.length (by simp) hp h rfl
    · exact ⟨p, i, hp, h, hqp⟩

/-! ### Searching -/

/-- The tree has this value for this key. -/
def Maps (T : RadixTree κ ν) (k : List κ) (v : ν) : Prop :=
  ∃ s i, T.item s = some i ∧ i.value = some v ∧ k = s ++ i.stem

/-- A key whose path leads to an inner node goes on along one of its edges. -/
theorem Maps.of_inner (h : T.Maps k v) (hp : T.item p = some i) (hi : i.value = none)
    (hk : p <+: k) : ∃ c, T.item (p ++ i.stem ++ [c]) ≠ none ∧ p ++ i.stem ++ [c] <+: k := by
  obtain ⟨s, j, hs, hv, rfl⟩ := h
  have hpre : s <+: s ++ j.stem := List.prefix_append _ _
  have hne : p ≠ s := by
    rintro rfl
    rw [hs] at hp
    cases hp
    rw [hi] at hv
    cases hv
  rcases List.prefix_or_prefix_of_prefix hk hpre with h | h
  · obtain ⟨-, c, hc, hcs⟩ := below hp hs h hne
    exact ⟨c, hc, hcs.trans hpre⟩
  · exact absurd (eq_of_leaf hs (by rw [hv]; exact Option.some_ne_none _) hp h).symm hne

/-- A key whose path leads to a leaf is that of the leaf. -/
theorem Maps.of_leaf (h : T.Maps k v) (hp : T.item p = some i) (hi : i.value = some v')
    (hk : p <+: k) : k = p ++ i.stem ∧ v = v' := by
  obtain ⟨s, j, hs, hv, rfl⟩ := h
  have hne : ∀ w : ν, some w ≠ none := Option.some_ne_none
  have hps : p = s := by
    rcases List.prefix_or_prefix_of_prefix hk (List.prefix_append s j.stem) with h | h
    · exact eq_of_leaf hp (by rw [hi]; exact hne _) hs h
    · exact (eq_of_leaf hs (by rw [hv]; exact hne _) hp h).symm
  subst hps
  rw [hs] at hp
  cases hp
  rw [hv] at hi
  exact ⟨rfl, Option.some.inj hi⟩

theorem Maps.unique (h : T.Maps k v) (h' : T.Maps k v') : v = v' := by
  obtain ⟨s, j, hs, hv, rfl⟩ := h'
  exact (h.of_leaf hs hv (List.prefix_append _ _)).2

/-- There is a key under every edge. -/
theorem exists_maps (hp : T.item p = some i) (hne : p ≠ []) :
    ∃ k v, T.Maps k v ∧ p ++ i.stem <+: k := by
  obtain ⟨n, hn⟩ := T.bounded
  induction hm : n - p.length using Nat.strong_induction_on generalizing p i with
  | _ m ih =>
    subst hm
    cases hv : i.value with
    | some v => exact ⟨p ++ i.stem, v, ⟨p, i, hp, hv, rfl⟩, List.prefix_rfl⟩
    | none =>
      obtain ⟨c, -, -, hc, -⟩ := T.branching p i hp hv hne
      obtain ⟨j, hj⟩ := Option.ne_none_iff_exists'.mp hc
      have hlt : n - (p ++ i.stem ++ [c]).length < n - p.length := by
        have := hn _ _ hj
        simp only [List.length_append, List.length_singleton] at this ⊢
        omega
      obtain ⟨k, v, hk, hpre⟩ := ih _ hlt hj (by simp) rfl
      refine ⟨k, v, hk, List.IsPrefix.trans ?_ hpre⟩
      rw [List.append_assoc]
      exact List.prefix_append _ _

/-- An inner node has the edges that lead to keys. -/
theorem edge_ne_none_iff (hp : T.item p = some i) (hi : i.value = none) :
    T.item (p ++ i.stem ++ [c]) ≠ none ↔ ∃ k v, T.Maps k v ∧ p ++ i.stem ++ [c] <+: k := by
  constructor
  · intro h
    obtain ⟨j, hj⟩ := Option.ne_none_iff_exists'.mp h
    obtain ⟨k, v, hk, hpre⟩ := exists_maps hj (by simp)
    exact ⟨k, v, hk, (List.prefix_append _ _).trans hpre⟩
  · rintro ⟨k, v, hk, hpre⟩
    have hpk : p <+: k := by
      rw [List.append_assoc] at hpre
      exact (List.prefix_append _ _).trans hpre
    obtain ⟨d, hd, hpre'⟩ := hk.of_inner hp hi hpk
    have heq := List.prefix_of_prefix_length_le hpre hpre' (by simp)
    have hcd : c = d := by simpa using heq.eq_of_length (by simp)
    rwa [hcd]

/-- An inner node that is not the root has keys that part behind its stem. -/
theorem exists_maps_branching (hp : T.item p = some i) (hi : i.value = none) (hne : p ≠ []) :
    ∃ c d, c ≠ d ∧ (∃ k v, T.Maps k v ∧ p ++ i.stem ++ [c] <+: k) ∧ ∃ k v, T.Maps k v ∧
      p ++ i.stem ++ [d] <+: k := by
  obtain ⟨c, d, hcd, hc, hd⟩ := T.branching p i hp hi hne
  exact ⟨c, d, hcd, (edge_ne_none_iff hp hi).mp hc, (edge_ne_none_iff hp hi).mp hd⟩

/-- Inside of a stem there is nothing. -/
theorem none_of_stem {μ r : List κ} {a : κ} {x : Option ν} (hs : T.item s = some ⟨μ ++ a :: r, x⟩)
    (b : κ) : T.item (s ++ μ ++ [b]) = none := by
  cases hq : T.item (s ++ μ ++ [b]) with
  | none => rfl
  | some j =>
    have hpre : s <+: s ++ μ ++ [b] := by
      rw [List.append_assoc]
      exact List.prefix_append _ _
    obtain ⟨-, c, -, h⟩ := below hs hq hpre (by simp)
    have := h.length_le
    simp only [List.length_append, List.length_cons, List.length_nil] at this
    omega

/-! ### Where keys part -/

/-- If keys part behind a path, then nothing that all of them share goes on there. -/
theorem length_le_of_branching {q r k₁ k₂ : List κ} {d : κ} (hcd : c ≠ d) (h₁ : q ++ [c] <+: k₁)
    (h₂ : q ++ [d] <+: k₂) (hr₁ : r <+: k₁) (hr₂ : r <+: k₂) : r.length ≤ q.length := by
  by_contra hlt
  have hc : q ++ [c] <+: r := List.prefix_of_prefix_length_le h₁ hr₁ (by simp; omega)
  have hd : q ++ [d] <+: r := List.prefix_of_prefix_length_le h₂ hr₂ (by simp; omega)
  have := (List.prefix_of_prefix_length_le hc hd (by simp)).eq_of_length (by simp)
  exact hcd (by simpa using this)

/-! ### Keys that can be added -/

variable (T) in
/-- No key of the tree is a prefix of `k`, or extends it. -/
def Fits (k : List κ) : Prop := ∀ k' v, T.Maps k' v → ¬ k <+: k' ∧ ¬ k' <+: k

theorem not_prefix_of_ne {q : List κ} {d : κ} (hcd : c ≠ d) (hc : q ++ [c] <+: k)
    (hd : q ++ [d] <+: k') : ¬ k <+: k' ∧ ¬ k' <+: k := by
  constructor
  · intro h
    have := length_le_of_branching hcd hc hd hc (hc.trans h)
    simp at this
  · intro h
    have := length_le_of_branching hcd hc hd (hd.trans h) hd
    simp at this

/-- Only the keys under a place on the path of `k` matter. -/
theorem fits_of_under (hp : T.item p = some i) (hpk : p <+: k)
    (h : ∀ k' v, T.Maps k' v → p <+: k' → ¬ k <+: k' ∧ ¬ k' <+: k) : T.Fits k := by
  intro k' v hk'
  refine ⟨fun hpre => (h k' v hk' (hpk.trans hpre)).1 hpre, fun hpre => ?_⟩
  have hunder : p <+: k' := by
    rcases List.prefix_or_prefix_of_prefix hpk hpre with hp' | hp'
    · exact hp'
    · -- the leaf of `k'` is above `p`, so it is at `p`
      obtain ⟨s, j, hs, hv, rfl⟩ := hk'
      have hsp : s = p := eq_of_leaf hs (by rw [hv]; exact Option.some_ne_none _) hp
        ((List.prefix_append _ _).trans hp')
      rw [← hsp]
      exact List.prefix_append _ _
  exact (h k' v hk' hunder).2 hpre

theorem fits_of_absent (hp : T.item p = some i) (hi : i.value = none)
    (hc : T.item (p ++ i.stem ++ [c]) = none) (hk : p ++ i.stem ++ [c] <+: k) : T.Fits k := by
  have hpk : p <+: k := by
    rw [List.append_assoc] at hk
    exact (List.prefix_append _ _).trans hk
  refine fits_of_under hp hpk fun k' v hk' hunder => ?_
  obtain ⟨d, hd, hpre⟩ := hk'.of_inner hp hi hunder
  refine not_prefix_of_ne (fun hcd => ?_) hk hpre
  rw [hcd] at hc
  exact hd hc

theorem fits_of_stem {μ r : List κ} {a b : κ} {x : Option ν} (hs : T.item s = some ⟨μ ++ a :: r, x⟩)
    (hab : a ≠ b) (hk : s ++ μ ++ [b] <+: k) : T.Fits k := by
  have hsk : s <+: k := by
    rw [List.append_assoc] at hk
    exact (List.prefix_append _ _).trans hk
  refine fits_of_under hs hsk fun k' v hk' hunder => not_prefix_of_ne hab.symm hk ?_
  have hstem : s ++ (μ ++ a :: r) <+: k' := by
    cases x with
    | none =>
      obtain ⟨c, -, hpre⟩ := hk'.of_inner hs rfl hunder
      exact (List.prefix_append _ _).trans hpre
    | some v' =>
      rw [(hk'.of_leaf hs rfl hunder).1]
  refine List.IsPrefix.trans ?_ hstem
  rw [List.append_assoc, List.prefix_append_right_inj, List.prefix_append_right_inj]
  exact List.prefix_append [a] r

/-- A key that ends inside of a stem does not fit. -/
theorem not_fits_of_ends (hp : T.item p = some i) (hne : p ≠ []) (hk : k <+: p ++ i.stem) :
    ¬ T.Fits k := by
  intro hfits
  obtain ⟨k', v, hk', hpre⟩ := exists_maps hp hne
  exact (hfits k' v hk').1 (hk.trans hpre)

variable (T) in
/-- The keys of the tree. -/
def keys : Set (List κ) := {k | ∃ v, T.Maps k v}

/-- Keys part behind `q`; the root is such a place in any case. -/
def Branches (S : Set (List κ)) (q : List κ) : Prop :=
  q = [] ∨ ∃ c d, c ≠ d ∧ (∃ k ∈ S, q ++ [c] <+: k) ∧ ∃ k ∈ S, q ++ [d] <+: k

theorem exists_item_over_key {q : List κ} (hk : T.Maps k v) (hq : q <+: k) :
    ∃ p i, T.item p = some i ∧ p <+: q ∧ q <+: p ++ i.stem := by
  obtain ⟨s, i, hs, -, rfl⟩ := hk
  rcases List.prefix_or_prefix_of_prefix hq (List.prefix_append s i.stem) with h | h
  · exact exists_item_over hs h
  · exact ⟨s, i, hs, h, hq⟩

/-- Keys part where inner nodes end. -/
theorem branches_iff {q : List κ} :
    Branches T.keys q ↔ ∃ p i, T.item p = some i ∧ i.value = none ∧ q = p ++ i.stem := by
  constructor
  · rintro (rfl | ⟨c, d, hcd, ⟨k₁, ⟨v₁, hk₁⟩, h₁⟩, k₂, ⟨v₂, hk₂⟩, h₂⟩)
    · exact ⟨[], _, T.root, rfl, rfl⟩
    · have hq₁ : q <+: k₁ := (List.prefix_append _ _).trans h₁
      have hq₂ : q <+: k₂ := (List.prefix_append _ _).trans h₂
      obtain ⟨p, i, hp, hpq, hqp⟩ := exists_item_over_key hk₁ hq₁
      have hi : i.value = none := by
        by_contra hne
        obtain ⟨v, hv⟩ := Option.ne_none_iff_exists'.mp hne
        have e₁ := (hk₁.of_leaf hp hv (hpq.trans hq₁)).1
        have e₂ := (hk₂.of_leaf hp hv (hpq.trans hq₂)).1
        rw [← e₂] at e₁
        subst e₁
        have := length_le_of_branching hcd h₁ h₂ h₁ h₁
        simp at this
      have hstem : ∀ k v, T.Maps k v → q <+: k → p ++ i.stem <+: k := by
        intro k v hk hqk
        obtain ⟨c, -, hpre⟩ := hk.of_inner hp hi (hpq.trans hqk)
        exact (List.prefix_append _ _).trans hpre
      refine ⟨p, i, hp, hi, hqp.eq_of_length (le_antisymm hqp.length_le ?_)⟩
      exact length_le_of_branching hcd h₁ h₂ (hstem _ _ hk₁ hq₁) (hstem _ _ hk₂ hq₂)
  · rintro ⟨p, i, hp, hi, rfl⟩
    by_cases hne : p = []
    · subst hne
      rw [T.root] at hp
      cases hp
      exact Or.inl rfl
    · obtain ⟨c, d, hcd, ⟨k₁, v₁, hk₁, h₁⟩, k₂, v₂, hk₂, h₂⟩ := exists_maps_branching hp hi hne
      exact Or.inr ⟨c, d, hcd, ⟨k₁, ⟨v₁, hk₁⟩, h₁⟩, k₂, ⟨v₂, hk₂⟩, h₂⟩

/-! ### A tree is determined by its keys -/

section Unique

variable {T' : RadixTree κ ν} {s : List κ} {i' : RadixItem κ ν}

theorem ne_none_of_maps (h : ∀ k v, T.Maps k v → T'.Maps k v)
    (hshort : ∀ q, q.length < s.length → T.item q = T'.item q) (hs : T.item s ≠ none) :
    T'.item s ≠ none := by
  obtain ⟨j, hj⟩ := Option.ne_none_iff_exists'.mp hs
  by_cases hs0 : s = []
  · rw [hs0, T'.root]
    exact Option.some_ne_none _
  obtain ⟨p, i, c, hp, hi, rfl⟩ := T.edge s j hj hs0
  obtain ⟨k, v, hk, hpre⟩ := (edge_ne_none_iff hp hi).mp hs
  rw [hshort p (by simp)] at hp
  exact (edge_ne_none_iff hp hi).mpr ⟨k, v, h k v hk, hpre⟩

/-- What one tree has as a leaf, another one with the same keys does not have as an inner node. -/
theorem value_ne_none_of_maps (h : ∀ k v, T'.Maps k v → T.Maps k v) (hs0 : s ≠ [])
    (hs : T.item s = some i) (hi : i.value = some v) (hs' : T'.item s = some i') :
    i'.value ≠ none := by
  intro hi'
  obtain ⟨c, d, hcd, ⟨k₁, v₁, hk₁, h₁⟩, k₂, v₂, hk₂, h₂⟩ := exists_maps_branching hs' hi' hs0
  have hpre : ∀ e k, s ++ i'.stem ++ [e] <+: k → s <+: k := by
    intro e k hk
    rw [List.append_assoc] at hk
    exact (List.prefix_append _ _).trans hk
  have e₁ := ((h _ _ hk₁).of_leaf hs hi (hpre _ _ h₁)).1
  have e₂ := ((h _ _ hk₂).of_leaf hs hi (hpre _ _ h₂)).1
  rw [← e₂] at e₁
  subst e₁
  have := length_le_of_branching hcd h₁ h₂ h₁ h₁
  simp at this

theorem stem_length_le_of_maps (h : ∀ k v, T.Maps k v → T'.Maps k v) (hs0 : s ≠ [])
    (hs : T.item s = some i) (hi : i.value = none) (hs' : T'.item s = some i')
    (hi' : i'.value = none) : i'.stem.length ≤ i.stem.length := by
  obtain ⟨c, d, hcd, ⟨k₁, v₁, hk₁, h₁⟩, k₂, v₂, hk₂, h₂⟩ := exists_maps_branching hs hi hs0
  have hstem : ∀ e k v, T.Maps k v → s ++ i.stem ++ [e] <+: k → s ++ i'.stem <+: k := by
    intro e k v hk hpre
    rw [List.append_assoc] at hpre
    obtain ⟨c', -, hpre'⟩ := (h k v hk).of_inner hs' hi' ((List.prefix_append _ _).trans hpre)
    exact (List.prefix_append _ _).trans hpre'
  have := length_le_of_branching hcd h₁ h₂ (hstem c k₁ v₁ hk₁ h₁) (hstem d k₂ v₂ hk₂ h₂)
  simpa using this

/-- Trees with the same keys and values are the same. -/
theorem item_eq_of_maps (h : ∀ k v, T.Maps k v ↔ T'.Maps k v) : T.item = T'.item := by
  funext s
  induction hn : s.length using Nat.strong_induction_on generalizing s with
  | _ n ih =>
    subst hn
    have hshort : ∀ q : List κ, q.length < s.length → T.item q = T'.item q :=
      fun q hq => ih _ hq q rfl
    by_cases hs0 : s = []
    · rw [hs0, T.root, T'.root]
    cases hs : T.item s with
    | none =>
      by_contra hne
      exact ne_none_of_maps (fun k v => (h k v).mpr) (fun q hq => (hshort q hq).symm)
        (Ne.symm hne) hs
    | some i =>
      have hsome : T'.item s ≠ none :=
        ne_none_of_maps (fun k v => (h k v).mp) hshort (by rw [hs]; exact Option.some_ne_none _)
      obtain ⟨i', hs'⟩ := Option.ne_none_iff_exists'.mp hsome
      rw [hs']
      cases hi : i.value with
      | some v =>
        obtain ⟨v', hi'⟩ := Option.ne_none_iff_exists'.mp (value_ne_none_of_maps (fun k v =>
          (h k v).mpr) hs0 hs hi hs')
        have hk : T'.Maps (s ++ i.stem) v := (h _ _).mp ⟨s, i, hs, hi, rfl⟩
        obtain ⟨he, hv⟩ := hk.of_leaf hs' hi' (List.prefix_append _ _)
        obtain ⟨stem, value⟩ := i
        obtain ⟨stem', value'⟩ := i'
        simp only [List.append_cancel_left_eq] at he hi hi'
        rw [he, hi, hi', hv]
      | none =>
        have hi' : i'.value = none := by
          by_contra hne
          obtain ⟨v', hv'⟩ := Option.ne_none_iff_exists'.mp hne
          exact value_ne_none_of_maps (fun k v => (h k v).mp) hs0 hs' hv' hs hi
        have hle := stem_length_le_of_maps (fun k v => (h k v).mp) hs0 hs hi hs' hi'
        have hge := stem_length_le_of_maps (fun k v => (h k v).mpr) hs0 hs' hi' hs hi
        obtain ⟨k, v, hk, hpre⟩ := exists_maps hs hs0
        obtain ⟨c, -, hpre'⟩ := ((h k v).mp hk).of_inner hs' hi'
          ((List.prefix_append _ _).trans hpre)
        have hlen : (s ++ i.stem).length = (s ++ i'.stem).length := by
          rw [List.length_append, List.length_append]
          omega
        have he := (List.prefix_of_prefix_length_le hpre ((List.prefix_append _ _).trans hpre')
          hlen.le).eq_of_length hlen
        obtain ⟨stem, value⟩ := i
        obtain ⟨stem', value'⟩ := i'
        simp only [List.append_cancel_left_eq] at he hi hi'
        rw [he, hi, hi']

end Unique

/-! ### Changes -/

section Changes

variable [DecidableEq κ]

variable (T)

/-- Hang a leaf on an edge that an inner node does not have. -/
def addLeaf (p : List κ) (i : RadixItem κ ν) (c : κ) (r : List κ) (v : ν) (hp : T.item p = some i)
    (hi : i.value = none) (hc : T.item (p ++ i.stem ++ [c]) = none) : RadixTree κ ν where
  item := Function.update T.item (p ++ i.stem ++ [c]) (some ⟨r, some v⟩)
  root := by
    rw [Function.update_of_ne (by simp)]
    exact T.root
  edge s j hs hne := by
    by_cases h : s = p ++ i.stem ++ [c]
    · refine ⟨p, i, c, ?_, hi, h⟩
      rwa [Function.update_of_ne (by simp)]
    · rw [Function.update_of_ne h] at hs
      obtain ⟨p', j', c', hp', hv', rfl⟩ := T.edge s j hs hne
      refine ⟨p', j', c', ?_, hv', rfl⟩
      rwa [Function.update_of_ne]
      rintro rfl
      rw [hc] at hp'
      cases hp'
  branching s j hs hv hne := by
    have h : s ≠ p ++ i.stem ++ [c] := by
      rintro rfl
      rw [Function.update_self] at hs
      cases hs
      cases hv
    rw [Function.update_of_ne h] at hs
    have hkeep : ∀ q, T.item q ≠ none → Function.update T.item (p ++ i.stem ++ [c])
      (some ⟨r, some v⟩) q ≠ none := by
      intro q hq
      rw [Function.update_apply]
      split_ifs
      · exact Option.some_ne_none _
      · exact hq
    obtain ⟨d, e, hde, hd, he⟩ := T.branching s j hs hv hne
    exact ⟨d, e, hde, hkeep _ hd, hkeep _ he⟩
  bounded := by
    obtain ⟨n, hn⟩ := T.bounded
    refine ⟨max n (p ++ i.stem ++ [c]).length, fun s j hs => ?_⟩
    by_cases h : s = p ++ i.stem ++ [c]
    · rw [h]
      exact le_max_right _ _
    · rw [Function.update_of_ne h] at hs
      exact (hn s j hs).trans (le_max_left _ _)

variable {T}

section

variable {r : List κ} {hp : T.item p = some i} {hi : i.value = none}
  {hc : T.item (p ++ i.stem ++ [c]) = none}

theorem item_addLeaf_self :
    (T.addLeaf p i c r v hp hi hc).item (p ++ i.stem ++ [c]) = some ⟨r, some v⟩ :=
  Function.update_self ..

theorem item_addLeaf_ne (h : s ≠ p ++ i.stem ++ [c]) :
    (T.addLeaf p i c r v hp hi hc).item s = T.item s :=
  Function.update_of_ne h ..

theorem maps_addLeaf :
    (T.addLeaf p i c r v hp hi hc).Maps k v' ↔ (k = p ++ i.stem ++ [c] ++ r ∧ v' = v) ∨
      T.Maps k v' := by
  constructor
  · rintro ⟨s, j, hs, hv, rfl⟩
    by_cases h : s = p ++ i.stem ++ [c]
    · subst h
      rw [item_addLeaf_self] at hs
      cases hs
      exact Or.inl ⟨rfl, (Option.some.inj hv).symm⟩
    · rw [item_addLeaf_ne h] at hs
      exact Or.inr ⟨s, j, hs, hv, rfl⟩
  · rintro (⟨rfl, rfl⟩ | ⟨s, j, hs, hv, rfl⟩)
    · exact ⟨_, _, item_addLeaf_self, rfl, rfl⟩
    · refine ⟨s, j, ?_, hv, rfl⟩
      rw [item_addLeaf_ne, hs]
      rintro rfl
      rw [hc] at hs
      cases hs

end

/-- What is at the end of the edges when the item at `s`, whose stem is `μ ++ a :: r`, becomes an
inner node with prefix `μ` and two edges: `a` for what was there, and `b` for a leaf. -/
def splitItem (item : List κ → Option (RadixItem κ ν)) (s μ : List κ) (a b : κ) (r r' : List κ)
    (x : Option ν) (v : ν) : List κ → Option (RadixItem κ ν) := fun q =>
  if q = s ++ μ ++ [b] then some ⟨r', some v⟩
  else if q = s ++ μ ++ [a] then some ⟨r, x⟩
  else if q = s then some ⟨μ, none⟩
  else item q

variable {μ r r' : List κ} {a b : κ} {x : Option ν} {q : List κ}

theorem splitItem_a (hab : a ≠ b) {item : List κ → Option (RadixItem κ ν)} :
    splitItem item s μ a b r r' x v (s ++ μ ++ [a]) = some ⟨r, x⟩ := by
  have h : s ++ μ ++ [a] ≠ s ++ μ ++ [b] := by simpa using hab
  rw [splitItem, if_neg h, if_pos rfl]

theorem splitItem_b {item : List κ → Option (RadixItem κ ν)} :
    splitItem item s μ a b r r' x v (s ++ μ ++ [b]) = some ⟨r', some v⟩ := by
  rw [splitItem, if_pos rfl]

theorem splitItem_self {item : List κ → Option (RadixItem κ ν)} :
    splitItem item s μ a b r r' x v s = some ⟨μ, none⟩ := by
  rw [splitItem, if_neg (by simp), if_neg (by simp), if_pos rfl]

/-- Elsewhere nothing changes. -/
theorem splitItem_of_ne {item : List κ → Option (RadixItem κ ν)} (hb : q ≠ s ++ μ ++ [b])
    (ha : q ≠ s ++ μ ++ [a]) (h : q ≠ s) : splitItem item s μ a b r r' x v q = item q := by
  rw [splitItem, if_neg hb, if_neg ha, if_neg h]

/-- What was there and is not at `s` is still there. -/
theorem splitItem_of_some (hs : T.item s = some ⟨μ ++ a :: r, x⟩) (hq : T.item q = some i)
    (hne : q ≠ s) : splitItem T.item s μ a b r r' x v q = some i := by
  have h : ∀ c, q ≠ s ++ μ ++ [c] := by
    rintro c rfl
    rw [none_of_stem hs] at hq
    cases hq
  rw [splitItem_of_ne (h b) (h a) hne, hq]

variable (T)

/-- Split the stem at `s`. -/
def split (s μ : List κ) (a b : κ) (r r' : List κ) (x : Option ν) (v : ν)
    (hs : T.item s = some ⟨μ ++ a :: r, x⟩) (hne : s ≠ []) (hab : a ≠ b) : RadixTree κ ν where
  item := splitItem T.item s μ a b r r' x v
  root := splitItem_of_some hs T.root (Ne.symm hne)
  edge q j hq hq0 := by
    by_cases hqb : q = s ++ μ ++ [b]
    · exact ⟨s, ⟨μ, none⟩, b, splitItem_self, rfl, hqb⟩
    by_cases hqa : q = s ++ μ ++ [a]
    · exact ⟨s, ⟨μ, none⟩, a, splitItem_self, rfl, hqa⟩
    have hold : ∃ i, T.item q = some i := by
      by_cases hqs : q = s
      · exact ⟨_, hqs ▸ hs⟩
      · rw [splitItem_of_ne hqb hqa hqs] at hq
        exact ⟨j, hq⟩
    obtain ⟨i, hi⟩ := hold
    obtain ⟨p, i', c, hp, hv, rfl⟩ := T.edge q i hi hq0
    by_cases hps : p = s
    · -- an edge of the inner node that was at `s`
      subst hps
      rw [hs] at hp
      cases hp
      exact ⟨p ++ μ ++ [a], ⟨r, x⟩, c, splitItem_a hab, hv, by simp⟩
    · exact ⟨p, i', c, splitItem_of_some hs hp hps, hv, rfl⟩
  branching q j hq hv hq0 := by
    have hkeep : ∀ q, T.item q ≠ none → splitItem T.item s μ a b r r' x v q ≠ none := by
      intro q hq
      obtain ⟨i, hi⟩ := Option.ne_none_iff_exists'.mp hq
      by_cases h : q = s
      · rw [h, splitItem_self]
        exact Option.some_ne_none _
      · rw [splitItem_of_some hs hi h]
        exact Option.some_ne_none _
    by_cases hqb : q = s ++ μ ++ [b]
    · subst hqb
      rw [splitItem_b] at hq
      cases hq
      cases hv
    by_cases hqa : q = s ++ μ ++ [a]
    · subst hqa
      rw [splitItem_a hab] at hq
      cases hq
      obtain ⟨c, d, hcd, hc, hd⟩ := T.branching s _ hs hv hne
      have heq : ∀ c, s ++ μ ++ [a] ++ r ++ [c] = s ++ (μ ++ a :: r) ++ [c] := fun c => by simp
      refine ⟨c, d, hcd, ?_, ?_⟩
      · rw [heq]
        exact hkeep _ hc
      · rw [heq]
        exact hkeep _ hd
    by_cases hqs : q = s
    · subst hqs
      rw [splitItem_self] at hq
      cases hq
      refine ⟨a, b, hab, ?_, ?_⟩
      · rw [splitItem_a hab]
        exact Option.some_ne_none _
      · rw [splitItem_b]
        exact Option.some_ne_none _
    · rw [splitItem_of_ne hqb hqa hqs] at hq
      obtain ⟨c, d, hcd, hc, hd⟩ := T.branching q j hq hv hq0
      exact ⟨c, d, hcd, hkeep _ hc, hkeep _ hd⟩
  bounded := by
    obtain ⟨n, hn⟩ := T.bounded
    refine ⟨max n (s ++ μ ++ [a]).length, fun q j hq => ?_⟩
    by_cases hqb : q = s ++ μ ++ [b]
    · rw [hqb]
      exact le_max_of_le_right (by simp)
    by_cases hqa : q = s ++ μ ++ [a]
    · rw [hqa]
      exact le_max_right _ _
    by_cases hqs : q = s
    · rw [hqs]
      exact le_max_of_le_left (hn s _ hs)
    · rw [splitItem_of_ne hqb hqa hqs] at hq
      exact le_max_of_le_left (hn q j hq)

variable {T}

section ItemSplit

variable {hs : T.item s = some ⟨μ ++ a :: r, x⟩} {hne : s ≠ []} {hab : a ≠ b}

theorem item_split_self : (T.split s μ a b r r' x v hs hne hab).item s = some ⟨μ, none⟩ :=
  splitItem_self

theorem item_split_a : (T.split s μ a b r r' x v hs hne hab).item (s ++ μ ++ [a]) = some ⟨r, x⟩ :=
  splitItem_a hab

theorem item_split_b :
    (T.split s μ a b r r' x v hs hne hab).item (s ++ μ ++ [b]) = some ⟨r', some v⟩ := splitItem_b

theorem item_split_of_ne (hb : q ≠ s ++ μ ++ [b]) (ha : q ≠ s ++ μ ++ [a]) (h : q ≠ s) :
    (T.split s μ a b r r' x v hs hne hab).item q = T.item q := splitItem_of_ne hb ha h

theorem item_split_of_some (hq : T.item q = some i) (h : q ≠ s) :
    (T.split s μ a b r r' x v hs hne hab).item q = some i :=
  splitItem_of_some hs hq h

end ItemSplit

theorem maps_split {hs : T.item s = some ⟨μ ++ a :: r, x⟩} {hne : s ≠ []} {hab : a ≠ b} :
    (T.split s μ a b r r' x v hs hne hab).Maps k v' ↔ (k = s ++ μ ++ [b] ++ r' ∧ v' = v) ∨
      T.Maps k v' := by
  constructor
  · rintro ⟨q, j, hq, hv, rfl⟩
    have hq : splitItem T.item s μ a b r r' x v q = some j := hq
    by_cases hqb : q = s ++ μ ++ [b]
    · subst hqb
      rw [splitItem_b] at hq
      cases hq
      exact Or.inl ⟨rfl, (Option.some.inj hv).symm⟩
    by_cases hqa : q = s ++ μ ++ [a]
    · subst hqa
      rw [splitItem_a hab] at hq
      cases hq
      exact Or.inr ⟨s, _, hs, hv, by simp⟩
    by_cases hqs : q = s
    · subst hqs
      rw [splitItem_self] at hq
      cases hq
      cases hv
    · rw [splitItem_of_ne hqb hqa hqs] at hq
      exact Or.inr ⟨q, j, hq, hv, rfl⟩
  · rintro (⟨rfl, rfl⟩ | ⟨q, j, hq, hv, rfl⟩)
    · exact ⟨_, _, splitItem_b, rfl, rfl⟩
    · by_cases hqs : q = s
      · subst hqs
        rw [hs] at hq
        cases hq
        exact ⟨q ++ μ ++ [a], ⟨r, x⟩, splitItem_a hab, hv, by simp⟩
      · exact ⟨q, j, splitItem_of_some hs hq hqs, hv, rfl⟩

end Changes

/-- The tree with nothing but a root. -/
def empty [DecidableEq κ] : RadixTree κ ν where
  item s := if s = [] then some ⟨[], none⟩ else none
  root := if_pos rfl
  edge s i hs hne := by simp [hne] at hs
  branching s i hs _ hne := by simp [hne] at hs
  bounded := ⟨0, fun s i hs => by
    split_ifs at hs with h
    simp [h]⟩

theorem item_empty_ne [DecidableEq κ] (h : s ≠ []) : (empty : RadixTree κ ν).item s = none :=
  if_neg h

theorem not_maps_empty [DecidableEq κ] : ¬ (empty : RadixTree κ ν).Maps k v := by
  rintro ⟨s, i, hs, hv, -⟩
  by_cases h : s = []
  · subst h
    cases hs
    cases hv
  · rw [item_empty_ne h] at hs
    cases hs

end RadixTree
