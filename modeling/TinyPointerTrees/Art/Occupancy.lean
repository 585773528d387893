import TinyPointerTrees.Art.Represents

/-!
# How full the nodes are

A node is of a class that grows only when it is full, so that it has more children than
the class below has room for. `Filled` says this of all inner nodes but the root, in
terms of the radix tree and of the classes alone.

`Filled.addLeaf` and `Filled.split` — both ways in which a tree changes keep it.
-/

namespace TinyPointerTrees.Art

variable {V : Variant} {R : RadixTree UInt8 UInt64} {M M' : Key → Option Ref} {p q x : Key}
  {π : List UInt8} {n : Ref} {t t' : NodeType}

/-- The least number of children of a node that was never shrunk: two in an `InitialNode`, and one
more than there was room for in a node that has grown. -/
def Variant.leastCount : Variant → NodeType → ℕ
  | .olc, .n16 => 5
  | .olc, .n256 => 17
  | .olc64, .n64 => 17
  | .olc64, .n256 => 65
  | _, _ => 2

theorem Variant.leastCount_initialS (h : V.nodeType V.initialS = some t) : V.leastCount t = 2 := by
  cases V <;> cases h <;> rfl

theorem Variant.leastCount_biggerS {c cap : ℕ} (h : V.nodeType c = some t)
    (ht : t.capacity = some cap) (ht' : V.nodeType (V.biggerS c) = some t') :
    V.leastCount t' = cap + 1 := by
  unfold Variant.nodeType at h
  split at h <;> cases h <;> cases ht <;> cases ht' <;> rfl

/-- The key bytes of the children of the node at `q` with prefix `π`. -/
def kids (R : RadixTree UInt8 UInt64) (q : Key) (π : List UInt8) : Set UInt8 :=
  {c | R.item (q ++ π ++ [c]) ≠ none}

instance finite_byte : Finite UInt8 := .of_injective UInt8.toFin fun _ _ => UInt8.toFin_inj.mp

theorem kids_mono {R' : RadixTree UInt8 UInt64} {π' : List UInt8}
    (h : ∀ c, R.item (q ++ π ++ [c]) ≠ none → R'.item (x ++ π' ++ [c]) ≠ none) :
    (kids R q π).ncard ≤ (kids R' x π').ncard :=
  Set.ncard_le_ncard h (Set.toFinite _)

/-- Every inner node but the root has the least number of children of its class. -/
def Filled (V : Variant) (R : RadixTree UInt8 UInt64) (M : Key → Option Ref) : Prop :=
  ∀ q π n t, q ≠ [] → R.item q = some ⟨π, none⟩ → M q = some n → V.nodeType n.special = some t →
    V.leastCount t ≤ (kids R q π).ncard

theorem filled_empty : Filled V .empty M := by
  intro q π n t hq hitem
  rw [RadixTree.item_empty_ne hq] at hitem
  cases hitem

/-- The arrays of a node have its children. -/
theorem Inner.ncard_kids {X : ℕ → BucketIndexer} {o : Obj V} {cap : ℕ} (h : Inner X M q π n t o)
    (ht : t.capacity = some cap) : {c | M (q ++ π ++ [c]) ≠ none}.ncard = o.entries.length := by
  have hset : {c | M (q ++ π ++ [c]) ≠ none} = ↑(o.entries.map Prod.fst).toFinset := by
    ext c
    rw [Set.mem_ofPred_eq, Ne, ← h.getChild_eq_null_iff, List.coe_toFinset, Set.mem_ofPred_eq]
    refine ⟨fun hc => ?_, fun hc hnull => h.sound.notMem_of_null ht hnull hc⟩
    by_contra hnot
    refine hc ?_
    have hlookup : o.entries.lookup c = none := by
      refine List.lookup_eq_none_iff.mpr fun e he => ?_
      rw [bne_iff_ne]
      rintro rfl
      exact hnot (List.mem_map_of_mem he)
    simp [Obj.getChild, ht, hlookup]
  rw [hset, Set.ncard_coe_finset, List.toFinset_card_of_nodup h.sound.nodup, List.length_map]

/-- A node that is full has as many children as there is room for. -/
theorem Inner.ncard_of_isFull {X : ℕ → BucketIndexer} {o : Obj V} {cap : ℕ}
    (h : Inner X M q π n t o) (ht : t.capacity = some cap) (hfull : o.isFull t = true) :
    {c | M (q ++ π ++ [c]) ≠ none}.ncard = cap := by
  rw [h.ncard_kids ht]
  simpa [Obj.isFull, ht] using hfull

namespace Filled

variable {i : RadixItem UInt8 UInt64} {c : UInt8} {r : List UInt8} {v : UInt64}

/-- A leaf is added to a node, which may have grown. -/
theorem addLeaf (h : Filled V R M) {hp : R.item p = some i} {hi : i.value = none}
    {hc : R.item (p ++ i.stem ++ [c]) = none}
    (hM : ∀ q n, q ≠ p → q ≠ p ++ i.stem ++ [c] → M' q = some n → M q = some n)
    (hgrown : ∀ n t, p ≠ [] → M' p = some n → V.nodeType n.special = some t →
      V.leastCount t ≤ (kids R p i.stem).ncard + 1) :
    Filled V (R.addLeaf p i c r v hp hi hc) M' := by
  intro q π n t hq hitem hn ht
  have hqc : q ≠ p ++ i.stem ++ [c] := by
    rintro rfl
    rw [RadixTree.item_addLeaf_self] at hitem
    cases hitem
  have hkeep : ∀ s, R.item s ≠ none → (R.addLeaf p i c r v hp hi hc).item s ≠ none := by
    intro s hs
    rwa [RadixTree.item_addLeaf_ne]
    rintro rfl
    exact hs hc
  rw [RadixTree.item_addLeaf_ne hqc] at hitem
  by_cases hqp : q = p
  · subst hqp
    obtain rfl : i = ⟨π, none⟩ := Option.some.inj (hp.symm.trans hitem)
    have hkids : insert c (kids R q π) ⊆ kids (R.addLeaf q ⟨π, none⟩ c r v hp hi hc) q π := by
      rintro d (rfl | hd)
      · change (R.addLeaf q ⟨π, none⟩ d r v hp hi hc).item _ ≠ none
        rw [RadixTree.item_addLeaf_self]
        exact Option.some_ne_none _
      · exact hkeep _ hd
    calc V.leastCount t ≤ (kids R q π).ncard + 1 := hgrown n t hq hn ht
      _ = (insert c (kids R q π)).ncard :=
      (Set.ncard_insert_of_notMem (fun hd : c ∈ kids R q π => hd hc) (Set.toFinite _)).symm
      _ ≤ _ := Set.ncard_le_ncard hkids (Set.toFinite _)
  · exact (h q π n t hq hitem (hM q n hqp hqc hn) ht).trans (kids_mono fun d hd => hkeep _ hd)

/-- A new node with two children takes the place of a node, which keeps its class. -/
theorem split (h : Filled V R M) {μ r' : List UInt8} {a b : UInt8} {val : Option UInt64}
    {hs : R.item x = some ⟨μ ++ a :: r, val⟩} {hne : x ≠ []} {hab : a ≠ b}
    (hM : ∀ q n, q ≠ x → q ≠ x ++ μ ++ [a] → q ≠ x ++ μ ++ [b] → M' q = some n → M q = some n)
    (hx : ∀ n t, M' x = some n → V.nodeType n.special = some t → V.leastCount t = 2)
    (ha : ∀ n, val = none → M' (x ++ μ ++ [a]) = some n → ∃ n₀, M x = some n₀ ∧
      n₀.special = n.special) : Filled V (R.split x μ a b r r' val v hs hne hab) M' := by
  intro q π n t hq hitem hn ht
  have hkeep : ∀ s, R.item s ≠ none → (R.split x μ a b r r' val v hs hne hab).item s ≠ none := by
    intro s hs₀
    by_cases hsx : s = x
    · rw [hsx, RadixTree.item_split_self]
      exact Option.some_ne_none _
    · obtain ⟨i, hi⟩ := Option.ne_none_iff_exists'.mp hs₀
      rw [RadixTree.item_split_of_some hi hsx]
      exact Option.some_ne_none _
  by_cases hqb : q = x ++ μ ++ [b]
  · rw [hqb, RadixTree.item_split_b] at hitem
    cases hitem
  by_cases hqa : q = x ++ μ ++ [a]
  · -- the children of the node that was split are still its children
    subst hqa
    rw [RadixTree.item_split_a] at hitem
    cases hitem
    obtain ⟨n₀, hn₀, hspecial⟩ := ha n rfl hn
    refine (h x (μ ++ a :: r) n₀ t hne hs hn₀ (hspecial ▸ ht)).trans
      (kids_mono fun d hd => hkeep _ ?_)
    simpa using hd
  by_cases hqx : q = x
  · subst hqx
    rw [RadixTree.item_split_self] at hitem
    cases hitem
    rw [hx n t hn ht]
    have hpair : {a, b} ⊆ kids (R.split q μ a b r r' val v hs hne hab) q μ := by
      rintro d (rfl | rfl)
      · rw [kids, Set.mem_ofPred_eq, RadixTree.item_split_a]
        exact Option.some_ne_none _
      · rw [kids, Set.mem_ofPred_eq, RadixTree.item_split_b]
        exact Option.some_ne_none _
    rw [← Set.ncard_pair hab]
    exact Set.ncard_le_ncard hpair (Set.toFinite _)
  · rw [RadixTree.item_split_of_ne hqb hqa hqx] at hitem
    exact (h q π n t hq hitem (hM q n hqx hqa hqb hn) ht).trans (kids_mono fun d hd => hkeep _ hd)

end Filled

end TinyPointerTrees.Art
