import TinyPointerTrees.Art.Runs

/-!
# Path compression

What is expected of the prefixes of a tree, read off the nodes alone. `Entered` says at
which level of a key a node is entered, and `Below` which keys are below it. Prefixes
longer than what is stored exist only in these keys.

`Reach.pathCompressed` — the prefixes of every tree that is reached are right, and are checked
right. -/

namespace TinyPointerTrees.Art

open Conc ArtM

variable {V : Variant} {A : Tree V} {ids : ℕ → UInt64} {s s' : Heap V} {R : RadixTree UInt8 UInt64}
  {M : Key → Option Ref} {b d : ℕ} {k q : Key} {π : List UInt8} {n : Ref} {c : UInt8}
  {v tid : UInt64} {l : List (Key × UInt64)}

/-- A node is entered at a level: that of its parent, behind the prefix there and the key byte. -/
inductive Entered (A : Tree V) (s : Heap V) : Ref → ℕ → Prop
  | root : Entered A s A.root.2 0
  | child {n : Ref} {d : ℕ} {t : NodeType} {c : UInt8} (hn : Entered A s n d)
      (ht : V.nodeType n.special = some t) (hp : (s.get n).getChild t c ≠ .null)
      (hleaf : isLeaf ((s.get n).getChild t c) = false) :
      Entered A s (s.child A.indexer n c ((s.get n).getChild t c)) (d + (s.get n).prefixCount + 1)

/-- A key of a leaf below a node, by the child under a byte. -/
inductive Below (A : Tree V) (s : Heap V) : Ref → UInt8 → Key → Prop
  | leaf {n : Ref} {t : NodeType} {c : UInt8} (ht : V.nodeType n.special = some t)
      (hp : (s.get n).getChild t c ≠ .null) (hleaf : isLeaf ((s.get n).getChild t c) = true) :
      Below A s n c (A.loadKey (s.get (s.child A.indexer n c ((s.get n).getChild t c))).value)
  | node {n : Ref} {t : NodeType} {c c' : UInt8} {k : Key} (ht : V.nodeType n.special = some t)
      (hp : (s.get n).getChild t c ≠ .null) (hleaf : isLeaf ((s.get n).getChild t c) = false)
      (hk : Below A s (s.child A.indexer n c ((s.get n).getChild t c)) c' k) : Below A s n c k

variable (A) in
/-- `checkPrefixPessimistic`, with any other program that picks a leaf below the node. -/
def Tree.checkPrefixBy (pick : ArtM V UInt64) (n : Ref) (k : Key) (level : ℕ) :
    ArtM V PessimisticResult := do
  let o ← read n
  A.comparePrefix pick o k level o.prefixCount 0 level []

theorem Tree.checkPrefixPessimistic_eq {level : ℕ} :
    A.checkPrefixPessimistic n k level = A.checkPrefixBy (A.getAnyChildTid n) n k level := rfl

/-- A check of the prefix of a node matches a key if it has the bytes of all keys below the node
there. -/
def Checks (A : Tree V) (ids : ℕ → UInt64) (s : Heap V) (n : Ref) (d : ℕ) (k : Key)
    (check : ArtM V Tree.PessimisticResult) : Prop :=
  ∃ r, A.Runs ids check s (.ok r) s ∧
    ∀ level, r = .matched level ↔ level = d + (s.get n).prefixCount ∧
      ∀ c k', Below A s n c k' → ∀ i < (s.get n).prefixCount, k[d + i]? = k'[d + i]?

/-- What is expected of a node that is entered at the level `d`. -/
structure Compressed (A : Tree V) (ids : ℕ → UInt64) (l : List (Key × UInt64)) (s : Heap V)
    (n : Ref) (d : ℕ) : Prop where
  /-- The keys below it agree on its prefix, and part behind it. -/
  agree : ∀ c k c' k', Below A s n c k → Below A s n c' k' → ∀ i < (s.get n).prefixCount,
    k[d + i]? = k'[d + i]?
  stored : ∀ c k, Below A s n c k → ∀ j : Fin maxStoredPrefixLength, j.val < (s.get n).prefixCount →
    k[d + j.val]? = some ((s.get n).prefixBytes j)
  edge : ∀ c k, Below A s n c k → k[d + (s.get n).prefixCount]? = some c
  branching : n ≠ A.root.2 → ∃ t c c', V.nodeType n.special = some t ∧ c ≠ c' ∧
    (s.get n).getChild t c ≠ .null ∧ (s.get n).getChild t c' ≠ .null
  /-- `getAnyChildTid` picks a leaf below it. -/
  anyChild : n ≠ A.root.2 → ∃ v c, A.Runs ids (A.getAnyChildTid n) s (.ok v) s ∧
    Below A s n c (A.loadKey v)
  /-- A key that gets to the node, and is not a proper prefix of a stored one, is checked right
  whichever leaf is picked. -/
  check : ∀ pick : ArtM V UInt64,
    (n ≠ A.root.2 → ∃ v c, A.Runs ids pick s (.ok v) s ∧ Below A s n c (A.loadKey v)) →
    ∀ k, (∀ c k', Below A s n c k' → k.take d = k'.take d) →
    (∀ e ∈ l, k <+: e.1 → k = e.1) → Checks A ids s n d k (A.checkPrefixBy pick n k d)

/-! ### Nodes and keys by their paths -/

namespace Shape

/-- Where the child is that a pointer leads to. -/
theorem exists_child {t : NodeType} (h : Shape A s R M) (hq : M q = some n)
    (ht : V.nodeType n.special = some t) (hp : (s.get n).getChild t c ≠ .null) :
    ∃ π m, R.item q = some ⟨π, none⟩ ∧ (s.get n).prefixCount = π.length ∧
      s.child A.indexer n c ((s.get n).getChild t c) = m ∧ M (q ++ π ++ [c]) = some m ∧
      (isLeaf ((s.get n).getChild t c) = true ↔ m.special = leafS) := by
  rcases h.item hq with ⟨_, _, -, hleaf, -⟩ | ⟨π, t', hitem, hi⟩
  · refine absurd hleaf (V.nodeType_ne_leafS ?_)
    rw [ht]
    exact Option.some_ne_none t
  · obtain rfl : t = t' := Option.some.inj (ht.symm.trans hi.nodeType)
    obtain ⟨m, hm⟩ := Option.ne_none_iff_exists'.mp fun h₀ => hp (hi.getChild_eq_null h₀)
    have hd := hi.denotes hm
    refine ⟨π, m, hitem, hi.prefixCount, hd.2.2, hm, ?_⟩
    rw [← (dereference_of_denotes hd).2, isLeaf, beq_iff_eq]

theorem exists_item (h : Shape A s R M) (hn : Entered A s n d) :
    ∃ q π, M q = some n ∧ R.item q = some ⟨π, none⟩ ∧ q.length = d := by
  induction hn with
  | root => exact ⟨[], [], h.root, R.root, rfl⟩
  | @child n d t c _ ht hp hleaf ih =>
    obtain ⟨q, π, hq, hitem, rfl⟩ := ih
    obtain ⟨π', m, hitem', hcount, hm, hM, hleaf'⟩ := h.exists_child hq ht hp
    rw [hitem] at hitem'
    cases hitem'
    rw [hm]
    rcases h.item hM with ⟨_, _, -, hspecial, -⟩ | ⟨π', -, hitem', -⟩
    · rw [hleaf'.2 hspecial] at hleaf
      cases hleaf
    · refine ⟨_, π', hM, hitem', ?_⟩
      rw [List.length_append, List.length_append, List.length_singleton, hcount]

/-- A key below a node goes through it. -/
theorem maps_of_below (h : Shape A s R M) (hb : Below A s n c k) (hq : M q = some n)
    (hitem : R.item q = some ⟨π, none⟩) : q ++ π ++ [c] <+: k ∧ ∃ v, R.Maps k v := by
  induction hb generalizing q π with
  | @leaf n t c ht hp hleaf =>
    obtain ⟨π', m, hitem', -, hm, hM, hleaf'⟩ := h.exists_child hq ht hp
    rw [hitem] at hitem'
    cases hitem'
    rw [hm]
    rcases h.item hM with ⟨r, v, hitem', -, hv⟩ | ⟨π', t', -, hi⟩
    · have hmaps : R.Maps (q ++ π ++ [c] ++ r) v := ⟨_, _, hitem', rfl, rfl⟩
      rw [hv, h.keyed _ v hmaps]
      exact ⟨List.prefix_append _ _, v, hmaps⟩
    · refine absurd (hleaf'.1 hleaf) (V.nodeType_ne_leafS ?_)
      rw [hi.nodeType]
      exact Option.some_ne_none t'
  | @node n t c c' k ht hp hleaf _ ih =>
    obtain ⟨π', m, hitem', -, hm, hM, hleaf'⟩ := h.exists_child hq ht hp
    rw [hitem] at hitem'
    cases hitem'
    rw [hm] at ih
    rcases h.item hM with ⟨_, _, -, hspecial, -⟩ | ⟨π', -, hitem', -⟩
    · rw [hleaf'.2 hspecial] at hleaf
      cases hleaf
    · obtain ⟨hpre, hmaps⟩ := ih hM hitem'
      rw [List.append_assoc] at hpre
      exact ⟨(List.prefix_append _ _).trans hpre, hmaps⟩

/-- A key that goes through a node is below it. The induction is on what is left of the key. -/
theorem exists_below (h : Shape A s R M) (hk : R.Maps k v) (hq : M q = some n)
    (hitem : R.item q = some ⟨π, none⟩) (hpre : q <+: k) : ∃ c, Below A s n c k := by
  induction hlen : k.length - q.length using Nat.strong_induction_on generalizing q π n with
  | _ len ih =>
    subst hlen
    obtain ⟨c, hc, hpre'⟩ := hk.of_inner hitem rfl hpre
    obtain ⟨n', t, hn', -, hi⟩ := h.inner hitem
    obtain rfl : n = n' := Option.some.inj (hq.symm.trans hn')
    have hp : (s.get n).getChild t c ≠ .null :=
      fun h₀ => hc (h.eq_none_iff.mp (hi.getChild_eq_null_iff.mp h₀))
    obtain ⟨π', m, hitem', -, hm, hM, hleaf⟩ := h.exists_child hq hi.nodeType hp
    rw [hitem] at hitem'
    cases hitem'
    refine ⟨c, ?_⟩
    rcases h.item hM with ⟨r, v', hitem', hspecial, hv⟩ | ⟨π', t', hitem', hi'⟩
    · obtain ⟨hkr, rfl⟩ := hk.of_leaf hitem' rfl hpre'
      have hbelow := Below.leaf (A := A) hi.nodeType hp (hleaf.2 hspecial)
      rw [hm, hv, h.keyed k v hk] at hbelow
      exact hbelow
    · have hnot : isLeaf ((s.get n).getChild t c) = false := by
        rw [Bool.eq_false_iff]
        intro htrue
        refine V.nodeType_ne_leafS ?_ (hleaf.1 htrue)
        rw [hi'.nodeType]
        exact Option.some_ne_none t'
      have hlt : k.length - (q ++ π ++ [c]).length < k.length - q.length := by
        have := hpre'.length_le
        simp only [List.length_append, List.length_singleton] at this ⊢
        omega
      obtain ⟨c', hbelow⟩ := ih _ hlt hM hitem' hpre' rfl
      rw [← hm] at hbelow
      exact .node hi.nodeType hp hnot hbelow

theorem below_iff (h : Shape A s R M) (hq : M q = some n) (hitem : R.item q = some ⟨π, none⟩) :
    (∃ c, Below A s n c k) ↔ q <+: k ∧ ∃ v, R.Maps k v := by
  constructor
  · rintro ⟨c, hb⟩
    obtain ⟨hpre, hmaps⟩ := h.maps_of_below hb hq hitem
    rw [List.append_assoc] at hpre
    exact ⟨(List.prefix_append _ _).trans hpre, hmaps⟩
  · rintro ⟨hpre, v, hk⟩
    exact h.exists_below hk hq hitem hpre

/-- An inner node is entered at the length of its path, by induction on this length. -/
theorem entered (h : Shape A s R M) (hq : M q = some n) (hitem : R.item q = some ⟨π, none⟩) :
    Entered A s n q.length := by
  induction hlen : q.length using Nat.strong_induction_on generalizing q n π with
  | _ len ih =>
    subst hlen
    by_cases hq0 : q = []
    · subst hq0
      rw [h.root] at hq
      cases hq
      exact .root
    · obtain ⟨p, ⟨π', value⟩, c, hp, hv, rfl⟩ := R.edge q _ hitem hq0
      obtain rfl : value = none := hv
      obtain ⟨m, t, hm, -, hi⟩ := h.inner hp
      have hm' := ih p.length (by simp) hm hp rfl
      have hne := (hi.denotes hq).1
      obtain ⟨π'', n', hp', -, hn', hM, hleaf⟩ := h.exists_child hm hi.nodeType hne
      rw [hp] at hp'
      cases hp'
      rw [hq] at hM
      cases hM
      have hnot : isLeaf ((s.get m).getChild t c) = false := by
        rw [Bool.eq_false_iff]
        exact fun htrue => h.special_ne hitem hq (hleaf.1 htrue)
      have hchild := hm'.child hi.nodeType hne hnot
      rw [hn', hi.prefixCount] at hchild
      rwa [List.length_append, List.length_append, List.length_singleton]

end Shape

/-! ### What is expected holds -/

/-- The bytes of a key that goes on with the bytes of `π`. -/
theorem getElem?_of_through (hpre : q ++ π <+: k) {i : ℕ} (hi : i < π.length) :
    k[q.length + i]? = π[i]? := by
  obtain ⟨z, rfl⟩ := hpre
  rw [List.append_assoc, List.getElem?_append_right (by omega), Nat.add_sub_cancel_left,
    List.getElem?_append_left hi]

/-- The key byte behind the prefix. -/
theorem getElem?_of_edge (hpre : q ++ π ++ [c] <+: k) : k[q.length + π.length]? = some c := by
  have hlast := getElem?_of_through hpre (i := 0) Nat.one_pos
  rwa [List.length_append] at hlast

namespace Tree

/-- `checkPrefixPessimistic` with a leaf below the node, for a key that does not end inside of the
prefix. -/
theorem checkPrefixBy_spec {pick : ArtM V UInt64} {t : NodeType} (hl : s.Live n)
    (hi : Inner A.indexer M q π n t (s.get n))
    (hpick : π ≠ [] → ∃ v, A.Runs ids pick s (.ok v) s ∧ q ++ π <+: A.loadKey v) (hk : q <+: k)
    (hends : k <+: q ++ π → (q ++ π).length ≤ k.length) :
    ∃ r, A.Runs ids (A.checkPrefixBy pick n k q.length) s (.ok r) s ∧ Compared q π k r := by
  have hspec : EndsOr (artHandler A.indexer ids 0) (A.checkPrefixBy pick n k q.length) s
      (fun r s' => s' = s ∧ Compared q π k r) fun _ _ => False := by
    refine EndsOr.bind (ends_read hl ?_)
    rw [hi.prefixCount]
    by_cases hπ : π = []
    · subst hπ
      rw [← List.append_nil q] at hk
      have hmatched := Compared.matched hk
      rw [List.append_nil] at hmatched
      exact EndsOr.pure ⟨rfl, hmatched⟩
    · obtain ⟨v, hrun, hbelow⟩ := hpick hπ
      exact comparePrefix_spec (i := 0) hi ⟨_, s, hrun, rfl, hbelow⟩
        (fun hpre hlt => absurd (hends hpre) (Nat.not_le.2 hlt)) (Nat.zero_add π.length)
        (by simpa using hk)
        fun hlt => absurd hlt (Nat.not_lt_zero _)
  obtain ⟨r, s', hr, hq⟩ := hspec
  cases r with
  | ok r =>
    obtain ⟨rfl, hc⟩ := hq
    exact ⟨r, hr, hc⟩
  | error e => exact hq.elim

/-- A key matches if it has the bytes of the prefix. -/
theorem Compared.matched_iff {r : PessimisticResult} {level : ℕ} (h : Compared q π k r) :
    r = .matched level ↔ level = q.length + π.length ∧ ∀ i < π.length,
      k[q.length + i]? = π[i]? := by
  cases h with
  | matched hk =>
    rw [PessimisticResult.matched.injEq, List.length_append, eq_comm]
    exact ⟨fun heq => ⟨heq, fun i hi => getElem?_of_through hk hi⟩, fun heq => heq.1⟩
  | @noMatch μ r rest a d hπ had hk hrest =>
    refine ⟨fun heq => (by cases heq), fun ⟨_, hall⟩ => ?_⟩
    have hbyte := hall μ.length (by simp [hπ])
    rw [getElem?_of_edge hk, hπ, List.getElem?_append_right le_rfl, Nat.sub_self] at hbyte
    exact absurd (Option.some.inj hbyte).symm had

end Tree

theorem Stores.compressed (h : Stores A s R M false l) (hn : Entered A s n d) (ids : ℕ → UInt64) :
    Compressed A ids l s n d := by
  obtain ⟨q, π, hq, hitem, rfl⟩ := h.shape.exists_item hn
  obtain ⟨n', t, hn', hl, hi⟩ := h.shape.inner hitem
  obtain rfl : n = n' := Option.some.inj (hq.symm.trans hn')
  have hthrough : ∀ c k, Below A s n c k → q ++ π ++ [c] <+: k :=
    fun c k hb => (h.shape.maps_of_below hb hq hitem).1
  have hpath : ∀ c k, Below A s n c k → q ++ π <+: k :=
    fun c k hb => (List.prefix_append _ _).trans (hthrough c k hb)
  have hroot : n ≠ A.root.2 → q ≠ [] := by
    rintro hne rfl
    rw [h.shape.root] at hq
    exact hne (Option.some.inj hq).symm
  refine ⟨fun c k c' k' hb hb' i hlt => ?_, fun c k hb j hlt => ?_, fun c k hb => ?_,
    fun hne => ?_, fun hne => ?_, fun pick hpick k hgets hproper => ?_⟩
  · rw [hi.prefixCount] at hlt
    rw [getElem?_of_through (hpath c k hb) hlt, getElem?_of_through (hpath c' k' hb') hlt]
  · rw [hi.prefixCount] at hlt
    rw [getElem?_of_through (hpath c k hb) hlt, List.getElem?_eq_getElem hlt,
      hi.stored j _ (List.getElem?_eq_getElem hlt)]
  · rw [hi.prefixCount]
    exact getElem?_of_edge (hthrough c k hb)
  · obtain ⟨c, c', hcc, hc, hc'⟩ := R.branching q _ hitem rfl (hroot hne)
    have hchild : ∀ c, R.item (q ++ π ++ [c]) ≠ none → (s.get n).getChild t c ≠ .null :=
      fun c hc h₀ =>
      hc (h.shape.eq_none_iff.mp (hi.getChild_eq_null_iff.mp h₀))
    exact ⟨t, c, c', hi.nodeType, hcc, hchild c hc, hchild c' hc'⟩
  · have hspec : EndsOr (artHandler A.indexer ids 0) (A.getAnyChildTid n) s
        (fun v s' => s' = s ∧ ∃ k', R.Maps k' v ∧ q ++ π <+: k') (Stuck s M) :=
      Tree.getAnyChildTid_spec h.toSettled hitem hq (hroot hne)
    obtain ⟨r, s', hr, hres⟩ := hspec
    cases r with
    | error e => exact absurd hres.2.2 (h.rested rfl).not_held
    | ok v =>
      obtain ⟨rfl, k', hk', hpre⟩ := hres
      obtain ⟨c, hb⟩ := h.shape.exists_below hk' hq hitem ((List.prefix_append _ _).trans hpre)
      rw [← h.shape.keyed k' v hk'] at hb
      exact ⟨v, c, hr, hb⟩
  · rw [Checks, hi.prefixCount]
    have hstem : π ≠ [] → n ≠ A.root.2 := by
      rintro hπ rfl
      obtain rfl : q = [] := h.shape.inj q [] _ hq h.shape.root
      rw [R.root] at hitem
      cases hitem
      exact hπ rfl
    have hqk : q <+: k := by
      by_cases hne : n = A.root.2
      · obtain rfl : q = [] := h.shape.inj q [] n hq (hne ▸ h.shape.root)
        exact List.nil_prefix
      · obtain ⟨v, c, -, hb⟩ := hpick hne
        have htake := hgets c _ hb
        obtain ⟨z, hz⟩ := hpath c _ hb
        rw [← hz, List.append_assoc, List.take_left] at htake
        rw [← htake]
        exact List.take_prefix _ _
    have hbelow : π ≠ [] → ∃ v c, A.Runs ids pick s (.ok v) s ∧ Below A s n c (A.loadKey v) :=
      fun hπ => hpick (hstem hπ)
    have hends : k <+: q ++ π → (q ++ π).length ≤ k.length := by
      intro hkπ
      by_cases hπ : π = []
      · rw [hπ, List.append_nil]
        exact hqk.length_le
      · obtain ⟨v, c, -, hb⟩ := hbelow hπ
        obtain ⟨v', hv'⟩ := (h.shape.maps_of_below hb hq hitem).2
        have heq := hproper _ ((h.maps _ _).1 hv') (hkπ.trans (hpath c _ hb))
        rw [heq]
        exact (hpath c _ hb).length_le
    obtain ⟨r, hr, hc⟩ := Tree.checkPrefixBy_spec hl hi (fun hπ =>
      (hbelow hπ).imp fun v ⟨c, hrun, hb⟩ => ⟨hrun, hpath c _ hb⟩)
      hqk hends
    refine ⟨r, hr, fun level => ?_⟩
    rw [hc.matched_iff]
    refine and_congr_right fun _ => ⟨fun hall c k' hb i hlt => ?_, fun hall i hlt => ?_⟩
    · rw [hall i hlt, getElem?_of_through (hpath c k' hb) hlt]
    · obtain ⟨v, c, -, hb⟩ := hbelow (List.ne_nil_of_length_pos (Nat.zero_lt_of_lt hlt))
      rw [hall c _ hb i hlt, getElem?_of_through (hpath c _ hb) hlt]

/-! ### Splitting a prefix -/

/-- The prefix of the node `n` of the tree `s` is split between the nodes `n₁` and `n₂` of the tree
`s'`, when the key `k` is inserted that leaves it behind `m` bytes. -/
structure SplitInto (A : Tree V) (ids : ℕ → UInt64) (s : Heap V) (n : Ref) (d m : ℕ) (k : Key)
    (l : List (Key × UInt64)) (s' : Heap V) (n₁ n₂ : Ref) : Prop where
  entered₁ : Entered A s' n₁ d
  entered₂ : Entered A s' n₂ (d + m + 1)
  prefixCount₁ : (s'.get n₁).prefixCount = m
  prefixCount₂ : (s'.get n₂).prefixCount = (s.get n).prefixCount - (m + 1)
  compressed₁ : Compressed A ids l s' n₁ d
  compressed₂ : Compressed A ids l s' n₂ (d + m + 1)
  keys₁ : ∀ k', (∃ c, Below A s' n₁ c k') ↔ k' = k ∨ ∃ c, Below A s n c k'
  keys₂ : ∀ k', (∃ c, Below A s' n₂ c k') ↔ ∃ c, Below A s n c k'

/-- The key that leaves the prefix of a node in a tree that stores it. -/
theorem Stores.splitInto {μ r r' : List UInt8} {a e : UInt8} {R' : RadixTree UInt8 UInt64}
    {M' : Key → Option Ref} (h : Stores A s R M false l) (hq : M q = some n)
    (hitem : R.item q = some ⟨μ ++ a :: r, none⟩) (hq0 : q ≠ []) (hae : a ≠ e)
    (hk : k = q ++ μ ++ [e] ++ r') (h' : Stores A s' R' M' false ((k, tid) :: l))
    (ids : ℕ → UInt64) :
    ∃ n₁ n₂, SplitInto A ids s n q.length μ.length k ((k, tid) :: l) s' n₁ n₂ := by
  have hitems : R'.item = (R.split q μ a e r r' none tid hitem hq0 hae).item := by
    refine RadixTree.item_eq_of_maps fun k' v => ?_
    rw [h'.maps, RadixTree.maps_split, h.maps, List.mem_cons, Prod.mk.injEq, hk]
  have hitem₁ : R'.item q = some ⟨μ, none⟩ := by
    rw [hitems]
    exact RadixTree.item_split_self
  have hitem₂ : R'.item (q ++ μ ++ [a]) = some ⟨r, none⟩ := by
    rw [hitems]
    exact RadixTree.item_split_a
  obtain ⟨n₀, t, hn₀, -, hi⟩ := h.shape.inner hitem
  obtain rfl : n = n₀ := Option.some.inj (hq.symm.trans hn₀)
  obtain ⟨n₁, t₁, hn₁, -, hi₁⟩ := h'.shape.inner hitem₁
  obtain ⟨n₂, t₂, hn₂, -, hi₂⟩ := h'.shape.inner hitem₂
  have hlen : (q ++ μ ++ [a]).length = q.length + μ.length + 1 := by
    rw [List.length_append, List.length_append, List.length_singleton]
  have hentered₁ := h'.shape.entered hn₁ hitem₁
  have hentered₂ := h'.shape.entered hn₂ hitem₂
  rw [hlen] at hentered₂
  have hmaps : ∀ k', (∃ v, R'.Maps k' v) ↔ k' = k ∨ ∃ v, R.Maps k' v := by
    intro k'
    simp only [h'.maps, h.maps, List.mem_cons, Prod.mk.injEq]
    exact ⟨fun ⟨v, hv⟩ => hv.imp And.left fun hl => ⟨v, hl⟩, fun hk' =>
      hk'.elim (fun heq => ⟨tid, .inl ⟨heq, rfl⟩⟩) fun ⟨v, hl⟩ => ⟨v, .inr hl⟩⟩
  refine ⟨n₁, n₂, hentered₁, hentered₂, hi₁.prefixCount, ?_, h'.compressed hentered₁ ids,
    h'.compressed hentered₂ ids, fun k' => ?_, fun k' => ?_⟩
  · rw [hi₂.prefixCount, hi.prefixCount, List.length_append, List.length_cons]
    omega
  · rw [h'.shape.below_iff hn₁ hitem₁, h.shape.below_iff hq hitem, hmaps]
    have hqk : q <+: k := by
      rw [hk, List.append_assoc, List.append_assoc]
      exact List.prefix_append _ _
    exact ⟨fun ⟨hpre, hm⟩ => hm.imp_right fun hm => ⟨hpre, hm⟩, fun hm =>
      hm.elim (fun heq => ⟨heq ▸ hqk, .inl heq⟩) fun hm => ⟨hm.1, .inr hm.2⟩⟩
  · rw [h'.shape.below_iff hn₂ hitem₂, h.shape.below_iff hq hitem, hmaps]
    constructor
    · rintro ⟨hpre, hm⟩
      have hqk' : q <+: k' := by
        rw [List.append_assoc] at hpre
        exact (List.prefix_append _ _).trans hpre
      refine ⟨hqk', hm.resolve_left fun heq => hae ?_⟩
      -- The new key goes on with another byte.
      have ha := getElem?_of_edge hpre
      have he : k[q.length + μ.length]? = some e := by
        rw [hk]
        exact getElem?_of_edge (List.prefix_append _ _)
      rw [heq, he] at ha
      exact (Option.some.inj ha).symm
    · rintro ⟨hpre, v, hm⟩
      obtain ⟨c, -, hthrough⟩ := hm.of_inner hitem rfl hpre
      refine ⟨List.IsPrefix.trans ⟨r ++ [c], ?_⟩ hthrough, .inr ⟨v, hm⟩⟩
      simp only [List.append_assoc, List.cons_append, List.nil_append]

/-! ### Trees that are reached -/

/-- What is expected of the prefixes of a tree. -/
structure PathCompressed (A : Tree V) (ids : ℕ → UInt64) (l : List (Key × UInt64)) (s : Heap V) :
    Prop where
  root : (s.get A.root.2).prefixCount = 0
  keys : ∀ k, (∃ c, Below A s A.root.2 c k) ↔ ∃ v, (k, v) ∈ l
  nodes : ∀ n d, Entered A s n d → Compressed A ids l s n d
  checkPrefixPessimistic : ∀ n d, Entered A s n d →
    ∀ k, (∀ c k', Below A s n c k' → k.take d = k'.take d) → (∀ e ∈ l, k <+: e.1 → k = e.1) →
    Checks A ids s n d k (A.checkPrefixPessimistic n k d)
  /-- A key that leaves the prefix of a node splits it. -/
  split : ∀ n d m, Entered A s n d → m < (s.get n).prefixCount → ∀ k tid s', k ≠ [] →
    A.loadKey tid = k → A.Runs ids (A.insert k tid) s (.ok ()) s' →
    (∀ c k', Below A s n c k' → k.take (d + m) = k'.take (d + m) ∧ k[d + m]? ≠ k'[d + m]?) →
      ∃ n₁ n₂, SplitInto A ids s n d m k ((k, tid) :: l) s' n₁ n₂

/-- A key that leaves the prefix of a node behind `m` bytes. -/
theorem leaves_prefix {m : ℕ} {k' : Key} (hpre : q ++ π <+: k') (hm : m < π.length)
    (htake : k.take (q.length + m) = k'.take (q.length + m))
    (hne : k[q.length + m]? ≠ k'[q.length + m]?) (hk : ¬ k <+: k') :
    ∃ μ a r e r', π = μ ++ a :: r ∧ μ.length = m ∧ a ≠ e ∧ k = q ++ μ ++ [e] ++ r' := by
  have hlen : q.length + m < k.length := by
    by_contra hle
    rw [List.take_of_length_le (Nat.le_of_not_lt hle)] at htake
    rw [htake] at hk
    exact hk (List.take_prefix _ _)
  have hstem : k.take (q.length + m) = q ++ π.take m := by
    obtain ⟨z, rfl⟩ := hpre
    rw [htake, List.append_assoc, List.take_length_add_append, List.take_append_of_le_length hm.le]
  refine ⟨π.take m, π[m], π.drop (m + 1), k[q.length + m],
    k.drop (q.length + m + 1), ?_, ?_, ?_, ?_⟩
  · rw [← List.drop_eq_getElem_cons, List.take_append_drop]
  · exact List.length_take_of_le hm.le
  · intro heq
    rw [List.getElem?_eq_getElem hlen, getElem?_of_through hpre hm,
      List.getElem?_eq_getElem hm, heq] at hne
    exact hne rfl
  · rw [← hstem, List.append_assoc, List.singleton_append, ← List.drop_eq_getElem_cons,
      List.take_append_drop]

/-- By the structure of the tree. -/
theorem Reach.pathCompressed (h : Reach A ids false l s) : PathCompressed A ids l s := by
  obtain ⟨R, M, hst⟩ := h.stores
  have hnodes : ∀ n d, Entered A s n d → Compressed A ids l s n d :=
    fun n d hn => hst.compressed hn ids
  refine ⟨?_, fun k => ?_, hnodes, fun n d hn k hgets hproper => ?_,
    fun n d m hn hm k tid s' hk hload hr hleaves => ?_⟩
  · obtain ⟨n, t, hn, -, hi⟩ := hst.shape.inner R.root
    rw [hst.shape.root] at hn
    cases hn
    exact hi.prefixCount
  · rw [hst.shape.below_iff hst.shape.root R.root]
    simp only [List.nil_prefix, true_and, hst.maps]
  · rw [Tree.checkPrefixPessimistic_eq]
    exact (hnodes n d hn).check _ (hnodes n d hn).anyChild k hgets hproper
  · obtain ⟨q, π, hq, hitem, rfl⟩ := hst.shape.exists_item hn
    obtain ⟨n', t, hn', -, hi⟩ := hst.shape.inner hitem
    obtain rfl : n = n' := Option.some.inj (hq.symm.trans hn')
    rw [hi.prefixCount] at hm
    obtain ⟨hfits, R', M', hst'⟩ :=
      hst.insert (Tree.insert_runs hst.toSettled hst.version_lt hk hload hr)
    have hq0 : q ≠ [] := by
      rintro rfl
      rw [R.root] at hitem
      cases hitem
      exact Nat.not_lt_zero m hm
    obtain ⟨k', v, hk', hpre⟩ := RadixTree.exists_maps hitem hq0
    obtain ⟨c, hb⟩ := hst.shape.exists_below hk' hq hitem ((List.prefix_append _ _).trans hpre)
    obtain ⟨htake, hne⟩ := hleaves c k' hb
    obtain ⟨μ, a, r, e, r', rfl, rfl, hae, heq⟩ :=
      leaves_prefix hpre hm htake hne (hfits _ ((hst.maps k' v).1 hk')).1
    exact hst.splitInto hq hitem hq0 hae heq hst' ids

open Several in
theorem Reach.pathCompressed_several :
    ∃ (A : Tree .olc) (s : Heap .olc), Reach A nodeIds false entries s ∧
      2 ≤ (s.deletionLists 0).pending.length ∧ PathCompressed A nodeIds entries s := by
  obtain ⟨A, s, -, h, hpending⟩ := Several.exists_reach .olc
  exact ⟨A, s, h, hpending, h.pathCompressed⟩

end TinyPointerTrees.Art
