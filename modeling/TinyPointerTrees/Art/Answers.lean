import TinyPointerTrees.Art.Tree
import TinyPointerTrees.Library.RadixTree

/-!
# What `lookup` answers on a radix tree

`Answers` follows the search of `lookup` on a radix tree. Of a long prefix, only the
first bytes are stored, and the search skips the others; it compares the whole key
at the leaf if it has skipped some, or if bytes of the key are left.

* `Answers.of_maps` — a key of the tree is found.
* `Answers.load_eq_or_cut` — an answer that is not zero is the value of the key,
  unless the path of the key ends at the leaf of a longer one (`Cut`); and then it is
  not (`Cut.answers`). `Cut` is a property of the keys alone.
-/

namespace TinyPointerTrees.Art

variable {load : UInt64 → Key} {R : RadixTree UInt8 UInt64} {k p : Key} {π : List UInt8}
  {v r : UInt64}

namespace Tree

/-- The key goes on behind the prefix `π` of the node at `p`, as far as the node can tell: of a long
prefix, the bytes that are not stored are skipped. -/
def Passes (k p : Key) (π : List UInt8) : Prop :=
  (p ++ π).length < k.length ∧
    (k.drop p.length).take (π.take maxStoredPrefixLength).length = π.take maxStoredPrefixLength

instance (k p : Key) (π : List UInt8) : Decidable (Passes k p π) :=
  inferInstanceAs (Decidable (_ ∧ _))

/-- What `lookup` answers on a radix tree, from the node at `p` on; `o` says whether bytes were
skipped on the way. -/
inductive Answers (load : UInt64 → Key) (R : RadixTree UInt8 UInt64) (k : Key) :
    Key → Bool → UInt64 → Prop where
  /-- The key ends here, or leaves the path. -/
  | gone {p : Key} {π : List UInt8} {o : Bool} (hp : R.item p = some ⟨π, none⟩)
      (h : ¬ Passes k p π) : Answers load R k p o 0
  /-- There is no edge for the next byte. -/
  | absent {p : Key} {π : List UInt8} {o : Bool} {c : UInt8} (hp : R.item p = some ⟨π, none⟩)
      (h : Passes k p π) (hc : k[(p ++ π).length]? = some c)
      (hnone : R.item (p ++ π ++ [c]) = none) : Answers load R k p o 0
  /-- The edge leads to a leaf, whose key is compared if bytes are left or were skipped. -/
  | leaf {p : Key} {π : List UInt8} {o : Bool} {c : UInt8} {r : List UInt8} {v : UInt64}
      (hp : R.item p = some ⟨π, none⟩) (h : Passes k p π) (hc : k[(p ++ π).length]? = some c)
      (hleaf : R.item (p ++ π ++ [c]) = some ⟨r, some v⟩) :
      Answers load R k p o
        (if (p ++ π).length < k.length - 1 ∨
            (o || decide (maxStoredPrefixLength < π.length)) = true then
          if k = load v then v else 0
        else v)
  /-- The edge leads to an inner node. -/
  | inner {p : Key} {π π' : List UInt8} {o : Bool} {c : UInt8} {r : UInt64}
      (hp : R.item p = some ⟨π, none⟩) (h : Passes k p π) (hc : k[(p ++ π).length]? = some c)
      (hinner : R.item (p ++ π ++ [c]) = some ⟨π', none⟩)
      (hr : Answers load R k (p ++ π ++ [c]) (o || decide (maxStoredPrefixLength < π.length)) r) :
      Answers load R k p o r

/-- `lookup` has one answer. -/
theorem Answers.unique {load : UInt64 → Key} {optimistic : Bool} {r r' : UInt64}
    (h : Answers load R k p optimistic r) (h' : Answers load R k p optimistic r') : r = r' := by
  induction h with
  | gone hp hno =>
    cases h' <;> simp_all
  | absent hp hyes hc hnone =>
    cases h' <;> simp_all
  | leaf hp hyes hc hleaf =>
    cases h' <;> simp_all
  | inner hp hyes hc hinner hr ih =>
    cases h' with
    | inner hp' hyes' hc' hinner' hr' =>
      simp_all
    | _ => simp_all

namespace Answers

variable {optimistic : Bool}

theorem passes_of_path (h : p ++ π <+: k) (hlt : (p ++ π).length < k.length) : Passes k p π := by
  refine ⟨hlt, ?_⟩
  obtain ⟨r, rfl⟩ := h
  rw [List.append_assoc, List.drop_left]
  exact (List.prefix_iff_eq_take.mp ((List.take_prefix _ π).trans (List.prefix_append _ _))).symm

/-- Where nothing is skipped, the key really goes on behind the prefix. -/
theorem prefix_of_passes (h : Passes k p π) (hshort : π.length ≤ maxStoredPrefixLength)
    (hp : p <+: k) : p ++ π <+: k := by
  obtain ⟨r, rfl⟩ := hp
  have := h.2
  rw [List.drop_left, List.take_of_length_le hshort] at this
  rw [List.prefix_append_right_inj, List.prefix_iff_eq_take]
  exact this.symm

/-- The next byte of a key that goes on behind `q`. -/
theorem isPrefix_snoc {q : Key} {c : UInt8} (h : q <+: k) (hc : k[q.length]? = some c) :
    q ++ [c] <+: k := by
  obtain ⟨r, rfl⟩ := h
  cases r with
  | nil => simp at hc
  | cons d r =>
    have : d = c := by simpa using hc
    simp [this]

theorem byte_of_snoc {q : Key} {c : UInt8} (h : q ++ [c] <+: k) : k[q.length]? = some c := by
  obtain ⟨r, rfl⟩ := h
  simp

/-- A key of the tree is found, if the search is still on its path. -/
theorem of_maps (h : Answers load R k p optimistic r) (hk : R.Maps k v) (hp : p <+: k)
    (hload : load v = k) : r = v := by
  induction h with
  | gone hi hno =>
    obtain ⟨c, -, hpre⟩ := hk.of_inner hi rfl hp
    refine absurd (passes_of_path ((List.prefix_append _ _).trans hpre) ?_) hno
    have := hpre.length_le
    simp only [List.length_append, List.length_singleton] at this ⊢
    omega
  | absent hi hyes hc hnone =>
    obtain ⟨d, hd, hpre⟩ := hk.of_inner hi rfl hp
    have := byte_of_snoc hpre
    rw [hc] at this
    cases this
    exact absurd hnone hd
  | leaf hi hyes hc hleaf =>
    obtain ⟨d, hd, hpre⟩ := hk.of_inner hi rfl hp
    have := byte_of_snoc hpre
    rw [hc] at this
    cases this
    obtain ⟨-, rfl⟩ := hk.of_leaf hleaf rfl hpre
    rw [hload, if_pos rfl, ite_self]
  | inner hi hyes hc hinner hr ih =>
    obtain ⟨d, hd, hpre⟩ := hk.of_inner hi rfl hp
    have := byte_of_snoc hpre
    rw [hc] at this
    cases this
    exact ih hpre

/-- An answer that is not zero is a value of the tree. -/
theorem exists_maps (h : Answers load R k p optimistic r) (hr : r ≠ 0) : ∃ k', R.Maps k' r := by
  induction h with
  | gone => exact absurd rfl hr
  | absent => exact absurd rfl hr
  | leaf hi hyes hc hleaf =>
    refine ⟨_, _, _, hleaf, ?_, rfl⟩
    split_ifs at hr ⊢
    · rfl
    · exact absurd rfl hr
    · rfl
  | inner hi hyes hc hinner _ ih => exact ih hr

/-! ### Paths that end at the leaf of a longer key -/

end Answers

/-- The path of `k` ends at a leaf, whose key goes on, and no node on the way has a prefix of which
bytes are skipped. -/
structure CutAt (R : RadixTree UInt8 UInt64) (k : Key) : Prop where
  leaf : ∃ r v, R.item k = some ⟨r, some v⟩ ∧ r ≠ []
  short : ∀ p π, R.item p = some ⟨π, none⟩ → p <+: k → π.length ≤ maxStoredPrefixLength

/-- An answer that is not zero is the value of the key, or there is such a path. -/
theorem Answers.load_eq_or_cutAt {optimistic : Bool} (h : Answers load R k p optimistic r)
    (hr : r ≠ 0) (hload : ∀ k v, R.Maps k v → load v = k) (hp : optimistic = false → p <+: k)
    (hshort : optimistic = false → ∀ q π, R.item q = some ⟨π, none⟩ → q <+: p → q ≠ p →
      π.length ≤ maxStoredPrefixLength) : load r = k ∨ CutAt R k := by
  have hnode : ∀ {p : Key} {π : List UInt8} {c : UInt8}, R.item p = some ⟨π, none⟩ →
    π.length ≤ maxStoredPrefixLength →
      (∀ q π, R.item q = some ⟨π, none⟩ → q <+: p → q ≠ p → π.length ≤ maxStoredPrefixLength) →
      ∀ q π', R.item q = some ⟨π', none⟩ → q <+: p ++ π ++ [c] → q ≠ p ++ π ++ [c] →
        π'.length ≤ maxStoredPrefixLength := by
    intro p π c hi hπ hs q π' hq hpre hne
    have hqp := RadixTree.prefix_of_prefix_edge hi hq hpre hne
    by_cases heq : q = p
    · subst heq
      rw [hq] at hi
      cases hi
      exact hπ
    · exact hs q π' hq hqp heq
  induction h with
  | gone => exact absurd rfl hr
  | absent => exact absurd rfl hr
  | @leaf p π optimistic c rest v hi hyes hc hleaf =>
    split_ifs at hr ⊢ with hcheck hkey
    · exact Or.inl hkey.symm
    · exact absurd rfl hr
    · -- nothing is left of the key, and nothing was skipped
      rw [not_or, Bool.not_eq_true, Bool.or_eq_false_iff, decide_eq_false_iff_not] at hcheck
      obtain ⟨hlen, rfl, hlong⟩ := hcheck
      have hπ := Nat.not_lt.mp hlong
      have hpre := isPrefix_snoc (prefix_of_passes hyes hπ (hp rfl)) hc
      have hk : p ++ π ++ [c] = k := by
        refine hpre.eq_of_length (le_antisymm hpre.length_le ?_)
        rw [List.length_append, List.length_singleton]
        omega
      rw [hk] at hleaf
      by_cases hrest : rest = []
      · subst hrest
        exact Or.inl (hload k v ⟨k, _, hleaf, rfl, by simp⟩)
      · refine Or.inr ⟨⟨rest, v, hleaf, hrest⟩, fun q π' hq hqk => ?_⟩
        refine hnode hi hπ (hshort rfl) q π' hq (hk ▸ hqk) (c := c) ?_
        rintro rfl
        rw [hk, hleaf] at hq
        cases hq
  | @inner p π π' optimistic c r hi hyes hc hinner hrest ih =>
    have hfalse : ∀ {o : Bool}, (o || decide (maxStoredPrefixLength < π.length)) = false →
        o = false ∧ π.length ≤ maxStoredPrefixLength := by
      intro o h
      rw [Bool.or_eq_false_iff, decide_eq_false_iff_not, not_lt] at h
      exact h
    refine ih hr (fun ho => ?_) fun ho => ?_
    · obtain ⟨ho, hπ⟩ := hfalse ho
      exact isPrefix_snoc (prefix_of_passes hyes hπ (hp ho)) hc
    · obtain ⟨ho, hπ⟩ := hfalse ho
      exact hnode hi hπ (hshort ho)

/-- With such a path, the answer is the value of the longer key. -/
theorem CutAt.answers (load : UInt64 → Key) (h : CutAt R k) :
    ∃ r v, R.item k = some ⟨r, some v⟩ ∧ r ≠ [] ∧ Answers load R k [] false v := by
  obtain ⟨rest, v, hleaf, hrest⟩ := h.leaf
  refine ⟨rest, v, hleaf, hrest, ?_⟩
  suffices hgo : ∀ p π, R.item p = some ⟨π, none⟩ → p <+: k → Answers load R k p false v from
    hgo [] [] R.root List.nil_prefix
  intro p π hp hpk
  induction hn : k.length - p.length using Nat.strong_induction_on generalizing p π with
  | _ n ih =>
    subst hn
    have hne : p ≠ k := by
      rintro rfl
      rw [hp] at hleaf
      cases hleaf
    obtain ⟨-, c, hc, hpre⟩ := RadixTree.below hp hleaf hpk hne
    have hlen := hpre.length_le
    simp only [List.length_append, List.length_singleton] at hlen
    have hlt : (p ++ π).length < k.length := by
      rw [List.length_append]
      omega
    have hpass := Answers.passes_of_path ((List.prefix_append _ _).trans hpre) hlt
    have hbyte := Answers.byte_of_snoc hpre
    have hshort : (false || decide (maxStoredPrefixLength < π.length)) = false := by
      have := h.short p π hp hpk
      simpa using this
    obtain ⟨⟨stem, value⟩, hj⟩ := Option.ne_none_iff_exists'.mp hc
    cases value with
    | some w =>
      have hk : p ++ π ++ [c] = k := RadixTree.eq_of_leaf hj (Option.some_ne_none w) hleaf hpre
      have hlast : ¬ (p ++ π).length < k.length - 1 := by
        have := congrArg List.length hk
        rw [List.length_append, List.length_singleton] at this
        omega
      rw [hk, hleaf] at hj
      cases hj
      have hans : Answers load R k p false _ := .leaf (o := false) hp hpass hbyte (hk ▸ hleaf)
      rwa [hshort, if_neg (not_or.mpr ⟨hlast, Bool.false_ne_true⟩)] at hans
    | none =>
      refine .inner hp hpass hbyte hj ?_
      rw [hshort]
      refine ih _ ?_ _ _ hj hpre rfl
      simp only [List.length_append, List.length_singleton]
      omega

/-- Among the keys `S`, the path of `k` ends at the leaf of a longer key. -/
structure Cut (S : Set Key) (k : Key) : Prop where
  /-- There is one key that extends `k`, and it is longer. -/
  longer : ∃ s ∈ S, k <+: s ∧ s ≠ k ∧ ∀ s' ∈ S, k <+: s' → s' = s
  /-- Keys part before the last byte of `k`. -/
  branches : RadixTree.Branches S k.dropLast
  /-- On the way there, keys part after every few bytes. -/
  short : ∀ q t, q ≠ [] → q ++ t <+: k.dropLast → (∀ s ∈ S, q <+: s → q ++ t <+: s) →
    t.length ≤ maxStoredPrefixLength

theorem cut_iff (hk : k ≠ []) : Cut R.keys k ↔ CutAt R k := by
  obtain ⟨q, c, rfl⟩ := k.eq_nil_or_concat'.resolve_left hk
  constructor
  · rintro ⟨⟨s, ⟨v, hs⟩, hpre, hne, honly⟩, hbr, hshort⟩
    rw [List.dropLast_concat] at hbr hshort
    obtain ⟨p, ⟨π, value⟩, hp, hi, rfl⟩ := RadixTree.branches_iff.mp hbr
    obtain rfl : value = none := hi
    obtain ⟨⟨rest, value⟩, hj⟩ := Option.ne_none_iff_exists'.mp
      ((RadixTree.edge_ne_none_iff hp rfl).mpr ⟨s, v, hs, hpre⟩)
    have hleaf : ∃ w, value = some w := by
      rw [← Option.ne_none_iff_exists']
      rintro rfl
      obtain ⟨d, e, hde, ⟨k₁, v₁, hk₁, h₁⟩, k₂, v₂, hk₂, h₂⟩ :=
        RadixTree.exists_maps_branching hj rfl (by simp)
      have hext : ∀ x k', p ++ π ++ [c] ++ rest ++ [x] <+: k' → p ++ π ++ [c] <+: k' := by
        intro x k' hx
        rw [List.append_assoc _ rest] at hx
        exact (List.prefix_append _ _).trans hx
      have e₁ := honly k₁ ⟨v₁, hk₁⟩ (hext _ _ h₁)
      have e₂ := honly k₂ ⟨v₂, hk₂⟩ (hext _ _ h₂)
      rw [e₁] at h₁
      rw [e₂] at h₂
      have := RadixTree.length_le_of_branching hde h₁ h₂ h₁ h₁
      simp at this
    obtain ⟨w, rfl⟩ := hleaf
    refine ⟨⟨rest, w, hj, ?_⟩, fun p' π' hp' hpk => ?_⟩
    · rintro rfl
      have := (hs.of_leaf hj rfl hpre).1
      exact hne (by simpa using this)
    · by_cases hp'0 : p' = []
      · subst hp'0
        rw [R.root] at hp'
        cases hp'
        exact Nat.zero_le _
      have hne' : p' ≠ p ++ π ++ [c] := by
        rintro rfl
        rw [hj] at hp'
        cases hp'
      obtain ⟨-, d, -, hd⟩ := RadixTree.below hp' hj hpk hne'
      refine hshort p' π' hp'0 ?_ fun s' ⟨v', hs'⟩ hext => ?_
      · exact List.prefix_of_prefix_length_le ((List.prefix_append _ _).trans hd)
          (List.prefix_append _ _) (by
          have := hd.length_le
          simp only [List.length_append, List.length_singleton] at this ⊢
          omega)
      · obtain ⟨e, -, he⟩ := hs'.of_inner hp' rfl hext
        exact (List.prefix_append _ _).trans he
  · rintro ⟨⟨rest, v, hleaf, hrest⟩, hshort⟩
    have hmaps : R.Maps (q ++ [c] ++ rest) v := ⟨_, _, hleaf, rfl, rfl⟩
    obtain ⟨p, ⟨π, value⟩, d, hp, hi, heq⟩ := R.edge _ _ hleaf (by simp)
    obtain rfl : value = none := hi
    obtain ⟨hq, hcd⟩ := List.append_inj' heq rfl
    refine ⟨⟨_, ⟨v, hmaps⟩, List.prefix_append _ _, by simpa using hrest, fun s ⟨w, hs⟩ hpre =>
      (hs.of_leaf hleaf rfl hpre).1⟩, ?_, fun q' t hq' hqt hforced => ?_⟩
    · rw [List.dropLast_concat]
      exact RadixTree.branches_iff.mpr ⟨p, _, hp, rfl, hq⟩
    · -- the place `q'` is inside of the stem of a node, and keys part where the stem ends
      rw [List.dropLast_concat] at hqt
      have hq'k : q' <+: q ++ [c] :=
        ((List.prefix_append _ _).trans hqt).trans (List.prefix_append _ _)
      obtain ⟨p', ⟨π', value'⟩, hp', hpq, hqp⟩ := RadixTree.exists_item_over hleaf hq'k
      have hne' : p' ≠ q ++ [c] := by
        rintro rfl
        have h₁ := hpq.length_le
        have h₂ := hqt.length_le
        simp only [List.length_append, List.length_singleton] at h₁ h₂
        omega
      obtain ⟨hi', -⟩ := RadixTree.below hp' hleaf (hpq.trans hq'k) hne'
      obtain rfl : value' = none := hi'
      have hp'0 : p' ≠ [] := by
        rintro rfl
        rw [R.root] at hp'
        cases hp'
        exact hq' (List.prefix_nil.mp hqp)
      obtain ⟨x, y, hxy, ⟨k₁, v₁, hk₁, h₁⟩, k₂, v₂, hk₂, h₂⟩ :=
        RadixTree.exists_maps_branching hp' rfl hp'0
      have hext : ∀ z k', p' ++ π' ++ [z] <+: k' → q' <+: k' := fun z k' hz =>
        (hqp.trans (List.prefix_append _ _)).trans hz
      have hlen := RadixTree.length_le_of_branching hxy h₁ h₂ (hforced _ ⟨v₁, hk₁⟩ (hext _ _ h₁))
        (hforced _ ⟨v₂, hk₂⟩ (hext _ _ h₂))
      have hpl := hpq.length_le
      have hπ := hshort p' π' hp' (hpq.trans hq'k)
      simp only [List.length_append] at hlen
      omega

/-- `lookup` answers a value that is not zero and not of this key only if its path is cut. -/
theorem Answers.load_eq_or_cut (h : Answers load R k [] false r) (hr : r ≠ 0) (hk : k ≠ [])
    (hload : ∀ k v, R.Maps k v → load v = k) : load r = k ∨ Cut R.keys k := by
  rw [cut_iff hk]
  refine h.load_eq_or_cutAt hr hload (fun _ => List.nil_prefix) fun _ q π _ hq hne => ?_
  exact absurd (List.prefix_nil.mp hq) hne

/-- If the path is cut, `lookup` answers the value of another key. -/
theorem Cut.answers (h : Cut R.keys k) (hk : k ≠ []) (hload : ∀ k v, R.Maps k v → load v = k) :
    ∃ k' v, R.Maps k' v ∧ load v ≠ k ∧ Answers load R k [] false v := by
  obtain ⟨rest, v, hleaf, hrest, hans⟩ := ((cut_iff hk).mp h).answers load
  have hmaps : R.Maps (k ++ rest) v := ⟨k, _, hleaf, rfl, rfl⟩
  refine ⟨_, v, hmaps, ?_, hans⟩
  rw [hload _ _ hmaps]
  simpa using hrest

end Tree

end TinyPointerTrees.Art
