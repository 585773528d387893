import TinyPointerTrees.Trie.TinyTrie

/-!
# `TinyTrie2`

The trie whose nodes are addressed by the address of their parent. `remove` walks
to the word with the nodes on its way, and then frees the nodes that have become
empty, from the last one up.

* `tinyTrie2_isSet` — a `TinyTrie2` is a set of words.
* `tinyTrie2_canonical` — as long as no insert has thrown, the nodes are the root
  and the nonempty proper prefixes of the words, and what they look like depends
  on the set of words alone.
-/

namespace TinyPointerTrees

open PathTrie TrieM

namespace TinyTrie2

/-- The hash values of a child are those of the address of its parent. -/
def hashing (addr : Slot → UInt64) : Hashing where
  init := (0, 0)
  next _ h := h
  child _ s c := addressHash (addr s) c

/-- `compute_child_count`. -/
def computeChildCount (n : TrieNode) : ℕ := (List.finRange 256).countP fun i => n.nodes i ≠ .null

variable (addr : Slot → UInt64) (X : BucketIndexer)

/-- The loop that deletes empty nodes along the path, which is listed from its end. -/
def pruneLoop : List (UInt8 × Slot) → TrieM Unit
  | (parentC, node) :: (c, parentNode) :: path => do
    let n ← load node
    if computeChildCount n = 0 then
      let nodeIsTerminal := n.terminal
      let i ← charIndex parentC
      free X ((← load parentNode).nodes i) (addressHash (addr parentNode) parentC)
      if nodeIsTerminal then
        store parentNode ((← load parentNode).setNode i .tagged)
      else
        store parentNode ((← load parentNode).setNode i .null)
        pruneLoop ((c, parentNode) :: path)
    else return
  | _ => return

/-- The loop of `remove` over the characters that are left, and what follows it; the path is
listed from its end. -/
def removeLoop : Word → Slot → List (UInt8 × Slot) → TrieM Bool
  | [], curNode, _ => removeAt curNode
  | c :: w, curNode, path => do
    let i ← charIndex c
    let n ← load curNode
    if n.nodes i = .null ∨ n.nodes i = .tagged ∧ !w.isEmpty then return false
    else if n.nodes i = .tagged then
      store curNode (n.setNode i .null)
      subCount 1
      pruneLoop addr X path
      return true
    else
      let node ← dereference X (n.nodes i) (addressHash (addr curNode) c)
      removeLoop w node ((c, node) :: path)

/-- `remove`. -/
def remove (w : Word) : TrieM Bool := do
  let root := (← get).root
  removeLoop addr X w root [(0, root)]

/-! ### Removing -/

theorem computeChildCount_eq_zero {n : TrieNode} :
    computeChildCount n = 0 ↔ ∀ i, n.nodes i = .null := by
  simp [computeChildCount, List.countP_eq_zero]

/-- The nodes on the way to a path, as `remove` lists them. -/
inductive NodePath (M : Word → Option Slot) : Word → Slot → List (UInt8 × Slot) → Prop
  | root {s : Slot} (h : M [] = some s) : NodePath M [] s [(0, s)]
  | snoc {p : Word} {s s' : Slot} {c : UInt8} {path : List (UInt8 × Slot)}
      (hp : NodePath M p s path) (hc : c < 128) (h : M (p ++ [c]) = some s') :
      NodePath M (p ++ [c]) s' ((c, s') :: path)

variable {addr X} {H : Hashing} {t : Trie} {T : PathTrie UInt8} {M M' : Word → Option Slot}
  {p w : Word} {s : Slot} {path : List (UInt8 × Slot)}

theorem NodePath.slot (h : NodePath M p s path) : M p = some s := by
  cases h with
  | root h => exact h
  | snoc hp hc h => exact h

theorem NodePath.eq_cons (h : NodePath M p s path) : ∃ c rest, path = (c, s) :: rest := by
  cases h with
  | root h => exact ⟨0, [], rfl⟩
  | snoc hp hc h => exact ⟨_, _, rfl⟩

theorem NodePath.congr (h : NodePath M p s path) (hM : ∀ q, q.length ≤ p.length → M' q = M q) :
    NodePath M' p s path := by
  induction h with
  | root h => exact .root ((hM [] le_rfl).trans h)
  | snoc hp hc h ih =>
    refine .snoc (ih fun q hq => hM q ?_) hc ((hM _ le_rfl).trans h)
    simp only [List.length_append, List.length_singleton]
    omega

/-- A node is empty when its child count is zero. -/
theorem empty_of_computeChildCount {m : PathNode UInt8} (h : Rep X H t T M) (hp : M p = some s)
    (hm : T.node p = some m) (h0 : computeChildCount (t.table.read s) = 0) :
    m.tagged = ∅ ∧ ∀ d, T.node (p ++ [d]) = none := by
  have hnull := computeChildCount_eq_zero.mp h0
  have hrep := h.node p s m hp hm
  have hboth : ∀ d, d ∉ m.tagged ∧ M (p ++ [d]) = none := fun d => (hrep.null d).mp (hnull _)
  exact ⟨Set.eq_empty_of_forall_notMem fun d => (hboth d).1, fun d => h.kid_eq_none.mp (hboth d).2⟩

/-- A node that is not empty has a tag or a child. -/
theorem nonempty_of_computeChildCount {m : PathNode UInt8} (h : Rep X H t T M) (hp : M p = some s)
    (hm : T.node p = some m) (h0 : computeChildCount (t.table.read s) ≠ 0) :
    m.tagged.Nonempty ∨ ∃ d, (T.node (p ++ [d])).isSome := by
  by_contra hno
  rw [not_or, Set.not_nonempty_iff_eq_empty, not_exists] at hno
  refine h0 (computeChildCount_eq_zero.mpr fun i => ?_)
  have hidx : entryIdx (UInt8.ofNat i) = i := by
    ext
    simp [entryIdx]
  rw [← hidx, (h.node p s m hp hm).null]
  refine ⟨by simp [hno.1], h.kid_eq_none.mpr ?_⟩
  simpa using hno.2 (UInt8.ofNat i)

/-- Deleting the empty nodes along a path stores the same words, and leaves no empty node. -/
theorem pruneLoop_spec (h : Rep X (hashing addr) t T M) (hpath : NodePath M p s path) :
    ∃ t', pruneLoop addr X path t = .ok () t' ∧ t'.count = t.count ∧
      ∃ T' M', Rep X (hashing addr) t' T' M' ∧ T'.Words = T.Words ∧ (T.TightBut p → T'.Tight) := by
  -- from the end of the path up; the nodes above it have not changed
  induction path generalizing p s t T M with
  | nil => cases hpath
  | cons a path ih =>
    cases hpath with
    | root hr =>
      refine ⟨t, ?_, rfl, T, M, h, rfl, fun ht => ht.tight (Or.inl rfl)⟩
      rw [pruneLoop]
      · rfl
      · simp
    | @snoc p s₀ _ c _ hp hc hs' =>
      obtain ⟨d, rest, rfl⟩ := hp.eq_cons
      have hs₀ := hp.slot
      obtain ⟨m, hm⟩ := h.exists_node hs'
      rw [pruneLoop, bind_ok (load_ok (h.held _ _ hs'))]
      by_cases h0 : computeChildCount (t.table.read s) = 0
      · simp only [h0, if_true]
        obtain ⟨htag, hnone⟩ := empty_of_computeChildCount h hs' hm h0
        obtain ⟨n, hn⟩ := h.exists_node hs₀
        obtain ⟨-, -, hslot⟩ := h.entry_some hs₀ hs'
        have hne : s₀ ≠ s := by
          rintro rfl
          exact append_singleton_ne p c (h.inj _ _ _ hs' hs₀)
        have hfree : DerefTable.slotOf X ((t.table.read s₀).nodes (entryIdx c))
          (addressHash (addr s₀) c) = s := hslot
        have hheld : s₀ ∈ (t.table.free byteLayout X 0 ((t.table.read s₀).nodes (entryIdx c))
            (addressHash (addr s₀) c)).held := by
          show s₀ ∈ t.table.held.erase _
          rw [hfree]
          exact h.wf.held_nodup.mem_erase_iff.mpr ⟨hne, h.held _ _ hs₀⟩
        have hprune : Rep X (hashing addr) _ (T.prune p c n m hn hnone) _ :=
          h.prune hs₀ hs' (h.node _ _ m hs' hm).flag hnone
        have hgive : t.table.free byteLayout X 0 ((t.table.read s₀).nodes (entryIdx c))
          (addressHash (addr s₀) c) =
            t.table.give byteLayout 0 s := by
          rw [Table.free, hfree]
        rw [bind_ok (charIndex_ok hc), bind_ok (load_ok (h.held _ _ hs₀)),
          bind_ok (free_ok (hfree ▸ h.held _ _ hs'))]
        rw [hgive] at hheld ⊢
        have hread : (t.table.give byteLayout 0 s).read s₀ = t.table.read s₀ := Table.read_give hne
        by_cases hterm : (t.table.read s).terminal = true
        · -- the deleted node was a word, and the tag stands for it
          simp only [hterm, if_true]
          rw [bind_ok (load_ok hheld), store_ok hheld]
          simp only [Rep.unlinkChild, hterm, if_true, ← hread] at hprune
          refine ⟨_, rfl, rfl, _, _, hprune, words_prune hm htag, fun ht => ?_⟩
          have hbut : (T.prune p c n m hn hnone).TightBut p := ht.prune
          refine hbut.tight (Or.inr fun k hk => Or.inl ⟨c, ?_⟩)
          rw [node_prune_parent, Option.some.injEq] at hk
          subst hk
          exact Or.inr ⟨rfl, (h.node _ _ m hs' hm).flag.mp hterm⟩
        · rw [Bool.not_eq_true] at hterm
          simp only [hterm, Bool.false_eq_true, if_false]
          rw [bind_ok (load_ok hheld), bind_ok (store_ok hheld _)]
          simp only [Rep.unlinkChild, hterm, Bool.false_eq_true, if_false, ← hread] at hprune
          have hcongr : NodePath (Function.update M (p ++ [c]) none) p s₀ ((d, s₀) :: rest) := by
            refine hp.congr fun q hq => Function.update_of_ne ?_ ..
            rintro rfl
            simp at hq
          obtain ⟨t', ht', hcount, T', M', hrep, hwords, htight⟩ := ih hprune hcongr
          exact ⟨t', ht', hcount, T', M', hrep, hwords.trans (words_prune hm htag), fun ht =>
            htight ht.prune⟩
      · simp only [h0, if_false]
        refine ⟨t, rfl, rfl, T, M, h, rfl, fun ht => ht.tight (Or.inr fun k hk => ?_)⟩
        exact nonempty_of_computeChildCount h hs' hk h0

theorem removeLoop_spec (hw : ∀ c ∈ w, c < 128) (h : Rep X (hashing addr) t T M)
    (hpath : NodePath M p s path) :
    ∃ b t', removeLoop addr X w s path t = .ok b t' ∧ Removed X (hashing addr) True t T
      (p ++ w) b t' := by
  induction w generalizing p s path with
  | nil =>
    rw [List.append_nil]
    exact removeAt_spec h hpath.slot
  | cons c w ih =>
    have hp := hpath.slot
    have hs := h.held p s hp
    have hc : c < 128 := hw c List.mem_cons_self
    have happ : p ++ c :: w = p ++ [c] ++ w := by simp
    rw [removeLoop, bind_ok (charIndex_ok hc), bind_ok (load_ok hs), happ]
    obtain ⟨n, hn⟩ := h.exists_node hp
    cases hpc : M (p ++ [c]) with
    | none =>
      have hmem := h.mem_words_of_none hp hpc
      rcases h.entry_none hp hpc with he | he
      · simp only [he, true_or, if_true]
        refine ⟨false, t, rfl, removed_of_notMem h ?_⟩
        cases w with
        | nil => simp [hmem, he, TinyPtr.null_ne_tagged]
        | cons d w => simpa using h.not_mem_words (c := d) (q := w) hpc
      · cases w with
        | cons d w =>
          simp only [he, List.isEmpty_cons, Bool.not_false, and_self, or_true, if_true]
          exact ⟨false, t, rfl, removed_of_notMem h
            (by simpa using h.not_mem_words (c := d) (q := w) hpc)⟩
        | nil =>
          -- the word is stored by the tag
          simp only [he, TinyPtr.null_ne_tagged.symm, List.isEmpty_nil, Bool.not_true,
            Bool.false_eq_true, and_false, or_self, if_false, if_true]
          rw [bind_ok (store_ok hs _)]
          obtain ⟨t', ht', hcount, T', M', hrep, hwords, htight⟩ :=
            pruneLoop_spec ((h.setNull hp hn hpc).with_count (t.count - 1)) hpath
          refine ⟨true, t', ?_, by simp [hmem, he], hcount, T', M', hrep, ?_, fun _ ht =>
            htight (ht.but p).replace⟩
          · rw [bind_ok (x := subCount 1) rfl]
            exact bind_ok ht'
          · rw [hwords, List.append_nil]
            ext w
            rw [words_untag hn (h.kid_eq_none.mp hpc)]
            exact and_comm
    | some s' =>
      obtain ⟨h₀, h₁, hslot⟩ := h.entry_some hp hpc
      simp only [h₀, h₁, false_and, or_self, if_false]
      rw [bind_ok (dereference_ok h₀ h₁)]
      have hslot' : DerefTable.slotOf X ((t.table.read s).nodes (entryIdx c))
        (addressHash (addr s) c) = s' := hslot
      rw [hslot']
      exact ih (fun d hd => hw d (List.mem_cons_of_mem _ hd)) (.snoc hpath hc hpc)

theorem remove_spec (hw : ∀ c ∈ w, c < 128) (h : Rep X (hashing addr) t T M) :
    ∃ b t', remove addr X w t = .ok b t' ∧ Removed X (hashing addr) True t T w b t' := by
  rw [remove, bind_ok get_ok]
  exact removeLoop_spec hw h (.root h.root)

end TinyTrie2

/-- `TinyTrie2`; `addr` is the address of an entry as a number. -/
def tinyTrie2 (addr : Slot → UInt64) : TrieClass := ⟨TinyTrie2.hashing addr, TinyTrie2.remove addr⟩

theorem TinyTrie2.removeCorrect (addr : Slot → UInt64) : (tinyTrie2 addr).RemoveCorrect True :=
  fun _ _ _ _ _ => remove_spec

/-- A `TinyTrie2` is a set of words, after every run on every table. -/
theorem tinyTrie2_isSet {addr : Slot → UInt64} {X : BucketIndexer} {thrown : Bool} {t : Trie}
    {S : Finset Word} (h : (tinyTrie2 addr).Reach X thrown t S) : (tinyTrie2 addr).IsSet X t S :=
  h.isSet (TinyTrie2.removeCorrect addr)

theorem TinyTrie2.removed_eq : (tinyTrie2 fun _ => 0).removed = some (3, true, 2) := by
  decide +kernel

/-- After a removal that frees a node, and an insertion that throws. -/
theorem tinyTrie2_isSet_thrown :
    ∃ t t' e t'', (tinyTrie2 fun _ => 0).Reach oneBucket false t {[97, 98], [97, 98, 99]} ∧
      (tinyTrie2 fun _ => 0).run oneBucket (.remove [97, 98, 99]) t = .ok true t' ∧
      t.table.held.length = 3 ∧ t'.table.held.length = 2 ∧
      (tinyTrie2 fun _ => 0).run oneBucket (.insert longWord) t' = .error (.overflow e) t'' ∧
      (tinyTrie2 fun _ => 0).Reach oneBucket true t'' {[97, 98]} ∧
      (tinyTrie2 fun _ => 0).IsSet oneBucket t'' {[97, 98]} := by
  obtain ⟨t, t', h, hrun, hm, hn, -, e, t'', hover, hthrown⟩ :=
    TrieClass.exists_removed (TinyTrie2.removeCorrect _) TinyTrie2.removed_eq
  exact ⟨t, t', e, t'', h, hrun, hm, hn, hover, hthrown, tinyTrie2_isSet hthrown⟩

/-! ### The nodes of a tight trie -/

/-- `node_count`, which is `deref_table.size()`. -/
def Trie.nodeCount (X : BucketIndexer) (t : Trie) : Option ℕ := t.table.size byteLayout X

/-- What an entry of a node is. -/
inductive Edge where
  | null
  | tagged
  | node
  deriving DecidableEq

/-- What a pointer in a node is. -/
def TinyPtr.edge (p : TinyPtr byteLayout) : Edge :=
  if p = .null then .null else if p = .tagged then .tagged else .node

/-- The node that `get_parent_node` walks to along a path: whether it is terminal, and what its
entries are. -/
def Trie.shapeAt (X : BucketIndexer) (H : Hashing) (t : Trie) (p : Word) :
    Option (Bool × (Fin 256 → Edge)) :=
  match getNodes X H p t.root H.init t with
  | .ok (some (s, _)) _ =>
    some ((t.table.read s).terminal, fun i => ((t.table.read s).nodes i).edge)
  | _ => none

/-- The nonempty proper prefixes of a set of words. -/
def properPrefixes (S : Finset Word) : Finset Word :=
  S.biUnion fun w => (w.inits.toFinset.erase w).erase []

theorem mem_properPrefixes {S : Finset Word} {p : Word} :
    p ∈ properPrefixes S ↔ p ≠ [] ∧ ∃ c q, p ++ [c] ++ q ∈ S := by
  simp only [properPrefixes, Finset.mem_biUnion, Finset.mem_erase,
    List.mem_toFinset, List.mem_inits]
  constructor
  · rintro ⟨w, hw, hne, hpw, q, rfl⟩
    cases q with
    | nil => simp at hpw
    | cons c q => exact ⟨hne, c, q, by simpa using hw⟩
  · rintro ⟨hne, c, q, hw⟩
    exact ⟨_, hw, hne, by simp, [c] ++ q, by simp⟩

section Shape

variable {X X' : BucketIndexer} {H H' : Hashing} {t t' : Trie} {T : PathTrie UInt8}
  {M M' : Word → Option Slot} {S : Finset Word} {p : Word}

/-- Where the nodes are in a tight trie. -/
theorem mem_nodes_iff (hwords : T.Words = ↑S) (ht : T.Tight) :
    p ∈ insert [] (properPrefixes S) ↔ (T.node p).isSome := by
  rw [Finset.mem_insert, mem_properPrefixes, isSome_iff ht, hwords]
  simp only [Finset.mem_coe]
  tauto

/-- How many nodes a tight trie has. -/
theorem Rep.length_held_of_tight (h : Rep X H t T M) (hwords : T.Words = ↑S) (ht : T.Tight) :
    t.table.held.length = 1 + (properPrefixes S).card := by
  rw [h.length_held fun p => mem_nodes_iff hwords ht, Finset.card_insert_of_notMem, Nat.add_comm]
  simp [mem_properPrefixes]

theorem Rep.shapeAt_eq (h : Rep X H t T M) (h' : Rep X' H' t' T M') (hp : ∀ c ∈ p, c < 128) :
    t.shapeAt X H p = t'.shapeAt X' H' p := by
  have hwalk := getNodes_eq (p := []) hp h h.root
  have hwalk' := getNodes_eq (p := []) hp h' h'.root
  rw [List.nil_append] at hwalk hwalk'
  have hinit : H.path [] = H.init := rfl
  have hinit' : H'.path [] = H'.init := rfl
  rw [hinit] at hwalk
  rw [hinit'] at hwalk'
  unfold Trie.shapeAt
  rw [hwalk, hwalk']
  cases hM : M p with
  | none =>
    rw [h'.kid_eq_none.mpr (h.kid_eq_none.mp hM)]
    rfl
  | some s =>
    obtain ⟨n, hn⟩ := h.exists_node hM
    obtain ⟨s', hM'⟩ := h'.exists_slot hn
    rw [hM']
    have hflag : (t.table.read s).terminal = (t'.table.read s').terminal := by
      rw [Bool.eq_iff_iff, (h.node p s n hM hn).flag, (h'.node p s' n hM' hn).flag]
    have hedge : ∀ c, ((t.table.read s).nodes (entryIdx c)).edge =
      ((t'.table.read s').nodes (entryIdx c)).edge := by
      intro c
      have htag : (t.table.read s).nodes (entryIdx c) = .tagged ↔
        (t'.table.read s').nodes (entryIdx c) = .tagged := by
        rw [h.tagged_iff hM hn, h'.tagged_iff hM' hn]
      have hnull : (t.table.read s).nodes (entryIdx c) = .null ↔
        (t'.table.read s').nodes (entryIdx c) = .null := by
        rw [(h.node p s n hM hn).null, (h'.node p s' n hM' hn).null, h.kid_eq_none, h'.kid_eq_none]
      simp only [TinyPtr.edge, htag, hnull]
    simp only [Option.map_some, Option.some.injEq, Prod.mk.injEq, hflag, true_and]
    funext i
    have hidx : entryIdx (UInt8.ofNat i) = i := by
      ext
      simp [entryIdx]
    rw [← hidx]
    exact hedge _

end Shape

namespace TinyTrie2

variable {addr addr' : Slot → UInt64} {X X' : BucketIndexer} {t t' : Trie} {S : Finset Word}

/-- Every node but the root has an entry that is not null. -/
theorem exists_entry_ne_null {T : PathTrie UInt8} {M : Word → Option Slot} (h : Rep X H t T M)
    (ht : T.Tight) {s : Slot} (hs : s ∈ t.table.held) (hne : s ≠ t.root) :
    ∃ i, (t.table.read s).nodes i ≠ .null := by
  obtain ⟨p, hp⟩ := h.full s hs
  obtain ⟨n, hn⟩ := h.exists_node hp
  by_contra hall
  have h0 : computeChildCount (t.table.read s) = 0 :=
    computeChildCount_eq_zero.mpr (by simpa using hall)
  obtain ⟨htag, hnone⟩ := empty_of_computeChildCount h hp hn h0
  rcases p.eq_nil_or_concat' with rfl | ⟨p, c, rfl⟩
  · rw [h.root, Option.some.injEq] at hp
    exact hne hp.symm
  · rcases ht p c n hn with hd | ⟨d, hd⟩
    · simp [htag] at hd
    · rw [hnone d] at hd
      cases hd

/-- What the nodes of a `TinyTrie2` are, as long as no insert has thrown. -/
structure Canonical (X : BucketIndexer) (addr : Slot → UInt64) (t : Trie) (S : Finset Word) :
    Prop where
  /-- Every allocated node but the root has an entry that is not null. -/
  entry : ∀ s ∈ t.table.held, s ≠ t.root → ∃ i, (t.table.read s).nodes i ≠ .null
  /-- No entry is allocated twice, -/
  held_nodup : t.table.held.Nodup
  /-- and no call frees, reads or writes one that is not allocated. -/
  defined : ∀ k : Call, k.Ascii → ∀ t', (tinyTrie2 addr).run X k t ≠ .error .undefined t'
  /-- The allocated nodes are the root and one for each nonempty proper prefix. -/
  length_held : t.table.held.length = 1 + (properPrefixes S).card
  /-- `node_count` says how many, when its assertion does not fail, -/
  nodeCount : ∀ n, t.nodeCount X = some n → n = 1 + (properPrefixes S).card
  /-- and it does not fail unless the number of all entries overflows `_capacity`. -/
  nodeCount_eq : X.buckets * byteLayout.entriesPerBinCount < 2 ^ 32 →
    t.nodeCount X = some (1 + (properPrefixes S).card)

/-- `node_count` says how many entries are allocated. -/
theorem nodeCount_eq_length {n : ℕ} (h : t.table.Wf byteLayout X) (hn : t.nodeCount X = some n) :
    n = t.table.held.length := (h.size_eq_some_iff.mp hn).1

theorem nodeCount_of_lt (h : t.table.Wf byteLayout X)
    (hX : X.buckets * byteLayout.entriesPerBinCount < 2 ^ 32) :
    t.nodeCount X = some t.table.held.length :=
  h.size_eq_some_iff.mpr ⟨rfl, h.length_held_le_capacity hX⟩

theorem canonical {T : PathTrie UInt8} {M : Word → Option Slot}
    (hset : (tinyTrie2 addr).IsSet X t S) (h : Rep X (hashing addr) t T M) (hwords : T.Words = ↑S)
    (ht : T.Tight) : Canonical X addr t S := by
  have hlen := h.length_held_of_tight hwords ht
  refine ⟨fun s => exists_entry_ne_null h ht, h.wf.held_nodup, fun k hk t' he => ?_, hlen,
    fun n hn => ?_, fun hX => ?_⟩
  · rcases hset.2 k hk with ⟨u, hr⟩ | ⟨w, e, u, -, hr, -⟩
    · rw [hr] at he
      cases he
    · rw [hr] at he
      cases he
  · rw [nodeCount_eq_length h.wf hn, hlen]
  · rw [nodeCount_of_lt h.wf hX, hlen]

end TinyTrie2

/-- A `TinyTrie2` in which no insert has thrown has no node too many, and two that store the
same words look the same, wherever their nodes are. -/
theorem tinyTrie2_canonical {addr : Slot → UInt64} {X : BucketIndexer} {t : Trie} {S : Finset Word}
    (h : (tinyTrie2 addr).Reach X false t S) :
    TinyTrie2.Canonical X addr t S ∧ ∀ (addr' : Slot → UInt64) (X' : BucketIndexer) (t' : Trie),
      (tinyTrie2 addr').Reach X' false t' S →
        t'.table.held.length = t.table.held.length ∧
        (∀ n n', t.nodeCount X = some n → t'.nodeCount X' = some n' → n' = n) ∧
        ∀ p : Word, (∀ c ∈ p, c < 128) →
          t'.shapeAt X' (TinyTrie2.hashing addr') p = t.shapeAt X (TinyTrie2.hashing addr) p := by
  obtain ⟨-, T, M, hrep, hwords, htight⟩ := h.inv (TinyTrie2.removeCorrect addr)
  have ht : T.Tight := htight ⟨trivial, rfl⟩
  have hcan := TinyTrie2.canonical (h.isSet (TinyTrie2.removeCorrect addr)) hrep hwords ht
  refine ⟨hcan, fun addr' X' t' h' => ?_⟩
  obtain ⟨-, T', M', hrep', hwords', htight'⟩ := h'.inv (TinyTrie2.removeCorrect addr')
  have ht' : T'.Tight := htight' ⟨trivial, rfl⟩
  have hcan' := TinyTrie2.canonical (h'.isSet (TinyTrie2.removeCorrect addr')) hrep' hwords' ht'
  -- a tight trie is determined by its words
  obtain rfl : T = T' := eq_of_words_eq ht ht' (hwords.trans hwords'.symm)
  refine ⟨by rw [hcan.length_held, hcan'.length_held], fun n n' hn hn' => ?_, fun p hp =>
    hrep'.shapeAt_eq hrep hp⟩
  rw [hcan.nodeCount n hn, hcan'.nodeCount n' hn']

/-- After a removal that frees a node. -/
theorem tinyTrie2_canonical_removed :
    ∃ t t', (tinyTrie2 fun _ => 0).Reach oneBucket false t {[97, 98], [97, 98, 99]} ∧
      (tinyTrie2 fun _ => 0).run oneBucket (.remove [97, 98, 99]) t = .ok true t' ∧
      t.table.held.length = 3 ∧ t'.table.held.length = 2 ∧
      (tinyTrie2 fun _ => 0).Reach oneBucket false t' {[97, 98]} ∧
      TinyTrie2.Canonical oneBucket (fun _ => 0) t' {[97, 98]} := by
  obtain ⟨t, t', h, hrun, hm, hn, hremoved, -⟩ :=
    TrieClass.exists_removed (TinyTrie2.removeCorrect _) TinyTrie2.removed_eq
  exact ⟨t, t', h, hrun, hm, hn, hremoved, (tinyTrie2_canonical hremoved).1⟩

end TinyPointerTrees
