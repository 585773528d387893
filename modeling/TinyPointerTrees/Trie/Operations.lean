import TinyPointerTrees.Trie.Represents

/-!
# What the member functions of the tries do

The specifications of the walks (`createNodes_sat`, `getNodes_eq`) and of `insert`,
`contains` and the end of `remove`, for a state that represents an abstract trie.
They hold for both classes: a walk only needs that a child has the hash values
under which it was allocated.

`Sat` is what is proved of a call that may throw: one assertion for the result and
the state it returns with, one for the state when the dereference table throws, and
no other fault.
-/

namespace TinyPointerTrees

open PathTrie

variable {X : BucketIndexer} {H : Hashing}

namespace TrieM

variable {α β : Type} {x : TrieM α} {f : α → TrieM β} {t t' : Trie} {s : Slot}

/-- A call returns with `Q`, or the dereference table throws and `E` holds. -/
def Sat (r : EStateM.Result Fault Trie α) (Q : α → Trie → Prop) (E : Trie → Prop) : Prop :=
  match r with
  | .ok a t => Q a t
  | .error (.overflow _) t => E t
  | .error _ _ => False

theorem Sat.bind {Q : α → Trie → Prop} {R : β → Trie → Prop} {E : Trie → Prop} (h : Sat (x t) Q E)
    (hf : ∀ a t', Q a t' → Sat (f a t') R E) : Sat ((x >>= f) t) R E := by
  cases hx : x t with
  | ok a t' =>
    rw [bind_ok hx]
    rw [hx] at h
    exact hf a t' h
  | error e t' =>
    rw [bind_error hx]
    rw [hx] at h
    cases e with
    | overflow e => exact h
    | runtimeError what => exact h
    | undefined => exact h

theorem Sat.mono {Q R : α → Trie → Prop} {E F : Trie → Prop} {r : EStateM.Result Fault Trie α}
    (h : Sat r Q E) (hQ : ∀ a t, Q a t → R a t) (hE : ∀ t, E t → F t) : Sat r R F := by
  unfold Sat at *
  split at h
  · exact hQ _ _ h
  · exact hE _ h
  · exact h

theorem load_ok (hs : s ∈ t.table.held) : load s t = .ok (t.table.read s) t := by
  rw [load, bind_ok get_ok, if_pos hs]
  rfl

theorem store_ok (hs : s ∈ t.table.held) (n : TrieNode) :
    store s n t = .ok () { t with table := t.table.write s n } := by
  rw [store, bind_ok get_ok, if_pos hs]
  rfl

theorem dereference_ok {p : TinyPtr byteLayout} {h : TinyPtrHashes} (h₀ : p ≠ .null)
    (h₁ : p ≠ .tagged) : dereference X p h t = .ok (DerefTable.slotOf X p h) t := by
  simp only [dereference, DerefTable.dereference, if_neg h₀, if_neg h₁]
  rfl

theorem allocate_ok {h : TinyPtrHashes} {r : TinyPtr byteLayout × Slot} {T' : Table TrieNode}
    (ha : t.table.allocate byteLayout X 0 h 0 = (.ok r, T')) :
    allocate X h t = .ok r { t with table := T' } := by
  rw [allocate, bind_ok get_ok]
  simp only [ha]
  rfl

theorem allocate_error {h : TinyPtrHashes} {e : OverflowError} {T' : Table TrieNode}
    (ha : t.table.allocate byteLayout X 0 h 0 = (.error e, T')) :
    allocate X h t = .error (.overflow e) { t with table := T' } := by
  rw [allocate, bind_ok get_ok]
  simp only [ha]
  rfl

theorem free_ok {p : TinyPtr byteLayout} {h : TinyPtrHashes}
    (hs : DerefTable.slotOf X p h ∈ t.table.held) :
    free X p h t = .ok () { t with table := t.table.free byteLayout X 0 p h } := by
  rw [free, bind_ok get_ok, if_pos hs]
  rfl

end TrieM

open TrieM

variable {t : Trie} {T : PathTrie UInt8} {M : Word → Option Slot} {p w : Word} {s : Slot}
  {c : UInt8}

/-! ### One step of a walk -/

namespace Rep

/-- A pointer that leads to a node denotes it. -/
theorem entry_some {s' : Slot} (h : Rep X H t T M) (hp : M p = some s)
    (hc : M (p ++ [c]) = some s') :
    (t.table.read s).nodes (entryIdx c) ≠ .null ∧ (t.table.read s).nodes (entryIdx c) ≠ .tagged ∧
      DerefTable.slotOf X ((t.table.read s).nodes (entryIdx c)) (H.child (H.path p) s c) = s' := by
  obtain ⟨n, hn⟩ := h.exists_node hp
  have hrep := h.node p s n hp hn
  have hnot : c ∉ n.tagged := by
    intro htag
    have := T.tag_leaf p c n hn htag
    rw [← h.kid_eq_none, hc] at this
    cases this
  refine ⟨fun he => ?_, fun he => hnot ((hrep.tagged c).mp he), hrep.denotes c s' hc⟩
  have := ((hrep.null c).mp he).2
  simp only [hc] at this
  cases this

/-- A pointer that leads to no node is null or tagged. -/
theorem entry_none (h : Rep X H t T M) (hp : M p = some s) (hc : M (p ++ [c]) = none) :
    (t.table.read s).nodes (entryIdx c) = .null ∨
      (t.table.read s).nodes (entryIdx c) = .tagged := by
  obtain ⟨n, hn⟩ := h.exists_node hp
  have hrep := h.node p s n hp hn
  by_cases htag : c ∈ n.tagged
  · exact Or.inr ((hrep.tagged c).mpr htag)
  · exact Or.inl ((hrep.null c).mpr ⟨htag, hc⟩)

theorem isSome_of_append {q : Word} (h : Rep X H t T M) (hq : (M (p ++ q)).isSome) : (M p).isSome :=
  (h.dom p).mpr (T.isSome_of_append ((h.dom _).mp hq))

/-- As many entries are held as there are nodes. -/
theorem length_held {P : Finset Word} (h : Rep X H t T M) (hP : ∀ p, p ∈ P ↔ (T.node p).isSome) :
    t.table.held.length = P.card := by
  rw [← List.toFinset_card_of_nodup h.wf.held_nodup]
  symm
  have hsome : ∀ p ∈ P, ∃ s, M p = some s := fun p hp =>
    Option.isSome_iff_exists.mp ((h.dom p).mpr ((hP p).mp hp))
  choose f hf using hsome
  refine Finset.card_bij f (fun p hp => ?_) (fun p hp q hq he => ?_) fun s hs => ?_
  · exact List.mem_toFinset.mpr (h.held p _ (hf p hp))
  · exact h.inj p q _ (hf p hp) (he ▸ hf q hq)
  · obtain ⟨p, hp⟩ := h.full s (List.mem_toFinset.mp hs)
    have hpP : p ∈ P := (hP p).mpr ((h.dom p).mp (hp ▸ rfl))
    exact ⟨p, hpP, Option.some.inj ((hf p hpP).symm.trans hp)⟩

/-- The nodes on the way to a node are allocated. -/
theorem length_lt {p : Word} {s : Slot} (h : Rep X H t T M) (hp : M p = some s) :
    p.length < t.table.held.length := by
  have hnodes : ∀ q, q ∈ T.finite.toFinset ↔ (T.node q).isSome := fun q => by simp
  have hsub : (Finset.range (p.length + 1)).image p.take ⊆ T.finite.toFinset := by
    intro q hq
    obtain ⟨i, -, rfl⟩ := Finset.mem_image.1 hq
    rw [hnodes, ← h.dom]
    refine h.isSome_of_append (q := p.drop i) ?_
    rw [List.take_append_drop, hp]
    rfl
  have hcard : ((Finset.range (p.length + 1)).image p.take).card = p.length + 1 := by
    rw [Finset.card_image_of_injOn, Finset.card_range]
    intro i hi j hj hij
    have hlen := congrArg List.length hij
    simp only [Finset.coe_range, Set.mem_Iio] at hi hj
    simp only [List.length_take] at hlen
    omega
  have hle := Finset.card_le_card hsub
  rw [h.length_held hnodes]
  omega

theorem tagged_iff {n : PathNode UInt8} (h : Rep X H t T M) (hp : M p = some s)
    (hn : T.node p = some n) : (t.table.read s).nodes (entryIdx c) = .tagged ↔ c ∈ n.tagged :=
  (h.node p s n hp hn).tagged c

/-- Where there is no node below, the tag says whether the longer path is a word. -/
theorem mem_words_of_none (h : Rep X H t T M) (hp : M p = some s) (hc : M (p ++ [c]) = none) :
    p ++ [c] ∈ T.Words ↔ (t.table.read s).nodes (entryIdx c) = .tagged := by
  obtain ⟨n, hn⟩ := h.exists_node hp
  have hnone := h.kid_eq_none.mp hc
  rw [h.tagged_iff hp hn, append_mem_words]
  simp [hnone, hn]

/-- Where there is a node, its flag says whether its path is a word. -/
theorem mem_words_of_some (h : Rep X H t T M) (hp : M p = some s) :
    p ∈ T.Words ↔ (t.table.read s).terminal = true := by
  obtain ⟨n, hn⟩ := h.exists_node hp
  rw [(h.node p s n hp hn).flag]
  rcases p.eq_nil_or_concat' with rfl | ⟨p, c, rfl⟩
  · rw [nil_mem_words]
    simp [hn]
  · rw [append_mem_words]
    constructor
    · rintro (⟨m, hm, hf⟩ | ⟨m, hm, hc⟩)
      · rw [hn, Option.some.injEq] at hm
        exact hm ▸ hf
      · rw [T.tag_leaf p c m hm hc] at hn
        cases hn
    · exact fun hf => Or.inl ⟨n, hn, hf⟩

/-- Below a path without a node there is no word. -/
theorem not_mem_words {q : Word} (h : Rep X H t T M) (hp : M p = none) :
    p ++ [c] ++ q ∉ T.Words := by
  intro hw
  have := isSome_of_word hw
  rw [← h.dom, hp] at this
  cases this

end Rep

/-! ### The walks -/

/-- `get_parent_node` goes on to a child, -/
theorem getNodes_child {s' : Slot} (hw : c < 128) (h : Rep X H t T M) (hp : M p = some s)
    (hc : M (p ++ [c]) = some s') :
    getNodes X H (c :: w) s (H.path p) t = getNodes X H w s' (H.path (p ++ [c])) t := by
  obtain ⟨h₀, h₁, hslot⟩ := h.entry_some hp hc
  rw [getNodes, bind_ok (charIndex_ok hw), bind_ok (load_ok (h.held p s hp))]
  simp only [h₀, h₁, or_self, if_false]
  rw [bind_ok (dereference_ok h₀ h₁), hslot, ← H.path_append]

/-- and finds nothing where there is none. -/
theorem getNodes_none (hw : c < 128) (h : Rep X H t T M) (hp : M p = some s)
    (hc : M (p ++ [c]) = none) : getNodes X H (c :: w) s (H.path p) t = .ok none t := by
  rw [getNodes, bind_ok (charIndex_ok hw), bind_ok (load_ok (h.held p s hp))]
  simp only [h.entry_none hp hc, if_true]
  rfl

/-- `get_parent_node` goes on with what is left of a word from the node of a path, if there is
one. -/
theorem getNodes_through {w' : Word} (hw : ∀ c ∈ w, c < 128)
    (h : Rep X H t T M) (hp : M p = some s) :
    getNodes X H (w ++ w') s (H.path p) t =
      match M (p ++ w) with
      | none => .ok none t
      | some s' => getNodes X H w' s' (H.path (p ++ w)) t := by
  induction w generalizing p s with
  | nil => rw [List.nil_append, List.append_nil, hp]
  | cons c w ih =>
    have hcw := hw c List.mem_cons_self
    have happ : p ++ c :: w = p ++ [c] ++ w := by simp
    rw [List.cons_append]
    cases hc : M (p ++ [c]) with
    | none =>
      have hnone : M (p ++ [c] ++ w) = none := by
        by_contra hne
        have := h.isSome_of_append (Option.isSome_iff_ne_none.mpr hne)
        simp [hc] at this
      rw [getNodes_none hcw h hp hc, happ, hnone]
    | some s' =>
      rw [getNodes_child hcw h hp hc, happ]
      exact ih (fun d hd => hw d (List.mem_cons_of_mem _ hd)) hc

/-- It finds the node of a path, if there is one. -/
theorem getNodes_eq (hw : ∀ c ∈ w, c < 128) (h : Rep X H t T M) (hp : M p = some s) :
    getNodes X H w s (H.path p) t = .ok ((M (p ++ w)).map fun s' => (s', H.path (p ++ w))) t := by
  have hthrough : getNodes X H (w ++ []) s (H.path p) t = _ := getNodes_through hw h hp
  rw [List.append_nil] at hthrough
  rw [hthrough]
  cases M (p ++ w) <;> rfl

/-- `create_parent_node` goes on to a child, -/
theorem createNodes_child {s' : Slot} (hw : c < 128) (h : Rep X H t T M) (hp : M p = some s)
    (hc : M (p ++ [c]) = some s') :
    createNodes X H (c :: w) s (H.path p) t = createNodes X H w s' (H.path (p ++ [c])) t := by
  obtain ⟨h₀, h₁, hslot⟩ := h.entry_some hp hc
  rw [createNodes, bind_ok (charIndex_ok hw), bind_ok (load_ok (h.held p s hp))]
  simp only [h₀, h₁, or_self, decide_false, Bool.false_eq_true, if_false]
  rw [bind_ok (dereference_ok h₀ h₁), hslot, ← H.path_append]

/-- and creates it where there is none, with the tag of the pointer for its flag, -/
theorem createNodes_create {n : PathNode UInt8} {ptr : TinyPtr byteLayout} {s' : Slot}
    {T' : Table TrieNode} (hw : c < 128) (h : Rep X H t T M) (hp : M p = some s)
    (hn : T.node p = some n) (hc : M (p ++ [c]) = none)
    (ha : t.table.allocate byteLayout X 0 (H.child (H.path p) s c) 0 = (.ok (ptr, s'), T')) :
    ∃ t₁, createNodes X H (c :: w) s (H.path p) t = createNodes X H w s' (H.path (p ++ [c])) t₁ ∧
      Rep X H t₁ (T.grow p c n hn (h.kid_eq_none.mp hc)) (Function.update M (p ++ [c]) (some s')) ∧
      t₁.count = t.count ∧ t₁.table.held = s' :: t.table.held := by
  have hs := h.held p s hp
  have hentry : (t.table.read s).nodes (entryIdx c) = .null ∨
    decide ((t.table.read s).nodes (entryIdx c) = .tagged) = true := by
    simpa using h.entry_none hp hc
  have hall := h.wf.allocated (by decide) ha
  have hread := Table.read_of_allocate ha
  have hs' : s' ∈ T'.held := hall.held ▸ List.mem_cons_self
  have hsT' : s ∈ T'.held := hall.held ▸ List.mem_cons_of_mem _ hs
  have hss' : s ≠ s' := fun e => hall.fresh (e ▸ hs)
  have htag : decide ((t.table.read s).nodes (entryIdx c) = .tagged) = true ↔ c ∈ n.tagged := by
    simpa using h.tagged_iff hp hn
  refine ⟨_, ?_, h.grow hp hall (h.wf.of_allocate ha) hread htag, rfl, hall.held⟩
  rw [createNodes, bind_ok (charIndex_ok hw), bind_ok (load_ok hs)]
  simp only [hentry, if_true]
  rw [bind_ok (allocate_ok ha), bind_ok (store_ok hs' _), bind_ok (load_ok hsT'),
    bind_ok (store_ok hsT' _), bind_ok (load_ok hs'), bind_ok (store_ok hs' _), ← H.path_append]
  simp only [Table.read_write_ne hss', Table.read_write_ne hss'.symm, Table.read_write_self, hread]
  rfl

/-- unless the dereference table throws. -/
theorem createNodes_throw {e : OverflowError} {T' : Table TrieNode} (hw : c < 128)
    (h : Rep X H t T M) (hp : M p = some s) (hc : M (p ++ [c]) = none)
    (ha : t.table.allocate byteLayout X 0 (H.child (H.path p) s c) 0 = (.error e, T')) :
    createNodes X H (c :: w) s (H.path p) t = .error (.overflow e) { t with table := T' } ∧
      Rep X H { t with table := T' } T M := by
  have hentry : (t.table.read s).nodes (entryIdx c) = .null ∨
    decide ((t.table.read s).nodes (entryIdx c) = .tagged) = true := by
    simpa using h.entry_none hp hc
  refine ⟨?_, h.of_table (h.wf.of_allocate ha) (Table.held_of_error ha) (Table.read_of_allocate ha)⟩
  rw [createNodes, bind_ok (charIndex_ok hw), bind_ok (load_ok (h.held p s hp))]
  simp only [hentry, if_true]
  rw [bind_error (allocate_error ha)]

/-- Both buckets of some hash values are full. -/
def Full (X : BucketIndexer) (t : Trie) : Prop :=
  ∃ h : TinyPtrHashes, (t.table.bucket (X.index h.1)).freeSlotCount = 0 ∧
    (t.table.bucket (X.index h.2)).freeSlotCount = 0

/-- What is left when the dereference table throws: the same words, as many, and a table that
is full. -/
def Thrown (X : BucketIndexer) (H : Hashing) (W : Set Word) (k : ℕ) (t : Trie) : Prop :=
  Full X t ∧ t.count = k ∧ ∃ T M, Rep X H t T M ∧ T.Words = W

/-- `create_parent_node` gets to the node of the path, and stores the same words; so it does
when the dereference table throws. -/
theorem createNodes_sat (hw : ∀ c ∈ w, c < 128) (h : Rep X H t T M) (hp : M p = some s) :
    Sat (createNodes X H w s (H.path p) t) (fun r t' => r.2 = H.path (p ++ w) ∧ t'.count = t.count ∧
      ∃ T' M', Rep X H t' T' M' ∧ M' (p ++ w) = some r.1 ∧
        T'.Words = T.Words ∧ (T.TightBut p → T'.TightBut (p ++ w)))
      (Thrown X H T.Words t.count) := by
  induction w generalizing p s t T M with
  | nil => exact ⟨by simp, rfl, T, M, h, by simpa using hp, rfl, by simp⟩
  | cons c w ih =>
    have hcw := hw c List.mem_cons_self
    have hw' : ∀ d ∈ w, d < 128 := fun d hd => hw d (List.mem_cons_of_mem _ hd)
    have happ : p ++ c :: w = p ++ [c] ++ w := by simp
    obtain ⟨n, hn⟩ := h.exists_node hp
    rw [happ]
    cases hc : M (p ++ [c]) with
    | none =>
      rcases ha : t.table.allocate byteLayout X 0 (H.child (H.path p) s c) 0 with ⟨r, T'⟩
      cases r with
      | error e =>
        obtain ⟨hrun, hrep⟩ := createNodes_throw (w := w) hcw h hp hc ha
        rw [hrun]
        exact ⟨⟨_, Table.full_of_error ha⟩, rfl, T, M, hrep, rfl⟩
      | ok r =>
        obtain ⟨t₁, hrun, hgrow, hcount, -⟩ := createNodes_create (w := w) hcw h hp hn hc ha
        rw [hrun]
        refine Sat.mono (ih hw' hgrow (Function.update_self ..)) ?_ ?_
        · rintro r t' ⟨hr, hk, T'', M'', hrep, hM, hwords, htight⟩
          exact ⟨hr, hk.trans hcount, T'', M'', hrep, hM, hwords.trans words_grow,
            fun ht => htight ht.grow⟩
        · rintro t' ⟨hfull, hk, T'', M'', hrep, hwords⟩
          exact ⟨hfull, hk.trans hcount, T'', M'', hrep, hwords.trans words_grow⟩
    | some s' =>
      rw [createNodes_child hcw h hp hc]
      refine Sat.mono (ih hw' h hc) ?_ fun _ => id
      rintro r t' ⟨hr, hk, T', M', hrep, hM, hwords, htight⟩
      refine ⟨hr, hk, T', M', hrep, hM, hwords, fun ht => htight (Tight.but ?_ _)⟩
      refine ht.tight (Or.inr fun m _ => Or.inr ⟨c, ?_⟩)
      rw [← h.dom, hc]
      rfl

/-! ### Changing one node -/

namespace Rep

variable {n : PathNode UInt8}

theorem replace_isSome (hn : T.node p = some n) : (T.node p).isSome := hn ▸ rfl

/-- `is_terminal` is set or cleared. -/
theorem setTerminal (h : Rep X H t T M) (hp : M p = some s) (hn : T.node p = some n) (b : Bool) :
    Rep X H { t with table := t.table.write s ((t.table.read s).setTerminal b) }
      (T.replace p { n with flag := b = true } (replace_isSome hn) fun c hc =>
      T.tag_leaf p c n hn hc) M := by
  have hrep := h.node p s n hp hn
  exact h.write hp ⟨by simp, hrep.tagged, hrep.null, hrep.denotes⟩

/-- A null pointer is tagged. -/
theorem setTagged (h : Rep X H t T M) (hp : M p = some s) (hn : T.node p = some n)
    (hc : M (p ++ [c]) = none) :
    Rep X H { t with table := t.table.write s ((t.table.read s).setNode (entryIdx c) .tagged) }
      (T.replace p { n with tagged := insert c n.tagged } (replace_isSome hn) fun d hd => by
        rcases hd with rfl | hd
        · exact h.kid_eq_none.mp hc
        · exact T.tag_leaf p d n hn hd) M := by
  have hrep := h.node p s n hp hn
  refine h.write hp ⟨hrep.flag, fun d => ?_, fun d => ?_, fun d v hd => ?_⟩
  · by_cases hdc : d = c
    · subst hdc
      simp [TrieNode.setNode]
    · have hidx : entryIdx d ≠ entryIdx c := fun e => hdc (entryIdx_inj.mp e)
      simp [TrieNode.setNode, hidx, hrep.tagged, hdc]
  · by_cases hdc : d = c
    · subst hdc
      simp [TrieNode.setNode, TinyPtr.null_ne_tagged.symm]
    · have hidx : entryIdx d ≠ entryIdx c := fun e => hdc (entryIdx_inj.mp e)
      simp [TrieNode.setNode, hidx, hrep.null, hdc]
  · have hdc : d ≠ c := by
      rintro rfl
      rw [hc] at hd
      cases hd
    have hidx : entryIdx d ≠ entryIdx c := fun e => hdc (entryIdx_inj.mp e)
    simpa [TrieNode.setNode, hidx] using hrep.denotes d v hd

/-- A tagged pointer is set to null. -/
theorem setNull (h : Rep X H t T M) (hp : M p = some s) (hn : T.node p = some n)
    (hc : M (p ++ [c]) = none) :
    Rep X H { t with table := t.table.write s ((t.table.read s).setNode (entryIdx c) .null) }
      (T.replace p { n with tagged := n.tagged \ {c} } (replace_isSome hn) fun d hd =>
      T.tag_leaf p d n hn hd.1) M := by
  have hrep := h.node p s n hp hn
  refine h.write hp ⟨hrep.flag, fun d => ?_, fun d => ?_, fun d v hd => ?_⟩
  · by_cases hdc : d = c
    · subst hdc
      simp [TrieNode.setNode, TinyPtr.null_ne_tagged]
    · have hidx : entryIdx d ≠ entryIdx c := fun e => hdc (entryIdx_inj.mp e)
      simp [TrieNode.setNode, hidx, hrep.tagged, hdc]
  · by_cases hdc : d = c
    · subst hdc
      simp [TrieNode.setNode, hc]
    · have hidx : entryIdx d ≠ entryIdx c := fun e => hdc (entryIdx_inj.mp e)
      simp [TrieNode.setNode, hidx, hrep.null, hdc]
  · have hdc : d ≠ c := by
      rintro rfl
      rw [hc] at hd
      cases hd
    have hidx : entryIdx d ≠ entryIdx c := fun e => hdc (entryIdx_inj.mp e)
    simpa [TrieNode.setNode, hidx] using hrep.denotes d v hd

end Rep

/-! ### The member functions -/

theorem getParentNode_eq (hw : ∀ c ∈ w, c < 128) (h : Rep X H t T M) :
    getParentNode X H w t = .ok ((M w.dropLast).map fun s => (s, H.path w.dropLast)) t := by
  rw [getParentNode, bind_ok get_ok]
  exact getNodes_eq (fun c hc => hw c (List.mem_of_mem_dropLast hc)) h h.root

theorem createParentNode_sat (hw : ∀ c ∈ w, c < 128) (h : Rep X H t T M) :
    Sat (createParentNode X H w t) (fun r t' => r.2 = H.path w.dropLast ∧ t'.count = t.count ∧
      ∃ T' M', Rep X H t' T' M' ∧ M' w.dropLast = some r.1 ∧
        T'.Words = T.Words ∧ (T.Tight → T'.TightBut w.dropLast))
      (Thrown X H T.Words t.count) := by
  rw [createParentNode, bind_ok get_ok]
  refine Sat.mono (createNodes_sat (fun c hc => hw c (List.mem_of_mem_dropLast hc)) h
    h.root) ?_ fun _ => id
  rintro r t' ⟨hr, hk, T', M', hrep, hp, hwords, htight⟩
  exact ⟨hr, hk, T', M', hrep, hp, hwords, fun ht => htight (ht.but [])⟩

/-- `contains` answers whether the word is stored, and changes nothing. -/
theorem contains_eq (hw : ∀ c ∈ w, c < 128) (h : Rep X H t T M) :
    ∃ b, contains X H w t = .ok b t ∧ (b = true ↔ w ∈ T.Words) := by
  rcases w.eq_nil_or_concat' with rfl | ⟨p, c, rfl⟩
  · refine ⟨(t.table.read t.root).terminal, ?_, (h.mem_words_of_some h.root).symm⟩
    simp only [contains, List.getLast?_nil]
    rw [bind_ok get_ok, bind_ok (load_ok (h.held _ _ h.root))]
    rfl
  · have hc : c < 128 := hw c (by simp)
    simp only [contains, List.getLast?_append, List.getLast?_singleton, Option.some_or]
    rw [bind_ok (getParentNode_eq hw h), List.dropLast_concat]
    cases hp : M p with
    | none =>
      refine ⟨false, rfl, ?_⟩
      simpa using h.not_mem_words (q := []) (c := c) hp
    | some s =>
      simp only [Option.map_some]
      rw [bind_ok (charIndex_ok hc), bind_ok (load_ok (h.held p s hp))]
      cases hpc : M (p ++ [c]) with
      | none =>
        rcases h.entry_none hp hpc with he | he
        · refine ⟨false, by simp only [he, if_true]; rfl, ?_⟩
          simp [h.mem_words_of_none hp hpc, he, TinyPtr.null_ne_tagged]
        · refine ⟨true, by simp only [he, TinyPtr.null_ne_tagged.symm, if_true, if_false]; rfl, ?_⟩
          simp [h.mem_words_of_none hp hpc, he]
      | some s' =>
        obtain ⟨h₀, h₁, hslot⟩ := h.entry_some hp hpc
        refine ⟨(t.table.read s').terminal, ?_, (h.mem_words_of_some hpc).symm⟩
        simp only [h₀, h₁, if_false]
        rw [bind_ok (dereference_ok h₀ h₁), hslot, bind_ok (load_ok (h.held _ _ hpc))]
        rfl

/-- What `insert` does when it returns `b`. -/
def Inserted (X : BucketIndexer) (H : Hashing) (t : Trie) (T : PathTrie UInt8) (w : Word) (b : Bool)
    (t' : Trie) : Prop :=
  (b = true ↔ w ∉ T.Words) ∧ t'.count = t.count + b.toNat ∧
    ∃ T' M', Rep X H t' T' M' ∧ T'.Words = insert w T.Words ∧ (T.Tight → T'.Tight)

/-- What `remove` does when it returns `b`; if it `prunes`, a tight trie stays tight. -/
def Removed (X : BucketIndexer) (H : Hashing) (prunes : Prop) (t : Trie) (T : PathTrie UInt8)
    (w : Word) (b : Bool) (t' : Trie) : Prop :=
  (b = true ↔ w ∈ T.Words) ∧ t'.count = t.count - b.toNat ∧
    ∃ T' M', Rep X H t' T' M' ∧ T'.Words = T.Words \ {w} ∧ (prunes → T.Tight → T'.Tight)

/-- Nothing is removed that was not there. -/
theorem removed_of_notMem {prunes : Prop} (h : Rep X H t T M) (hw : w ∉ T.Words) :
    Removed X H prunes t T w false t :=
  ⟨by simp [hw], rfl, T, M, h, (Set.sdiff_singleton_eq_self hw).symm, fun _ => id⟩

theorem insertAt_spec (h : Rep X H t T M) (hp : M p = some s) :
    ∃ b t', insertAt s t = .ok b t' ∧ Inserted X H t T p b t' := by
  obtain ⟨n, hn⟩ := h.exists_node hp
  have hs := h.held p s hp
  have hmem := h.mem_words_of_some hp
  refine ⟨!(t.table.read s).terminal, _, ?_, by simp [hmem], rfl, _, M,
    (h.setTerminal hp hn true).with_count _, ?_, ?_⟩
  · rw [insertAt, bind_ok (load_ok hs), bind_ok (store_ok hs _)]
    rfl
  · ext w
    rw [words_setFlag hn]
    by_cases hwp : w = p <;> simp [hwp]
  · exact fun ht => ht.replace hn subset_rfl

/-- The end of `remove`. -/
theorem removeAt_spec {prunes : Prop} (h : Rep X H t T M) (hp : M p = some s) :
    ∃ b t', removeAt s t = .ok b t' ∧ Removed X H prunes t T p b t' := by
  obtain ⟨n, hn⟩ := h.exists_node hp
  have hs := h.held p s hp
  have hmem := h.mem_words_of_some hp
  refine ⟨(t.table.read s).terminal, _, ?_, by simp [hmem], rfl, _, M,
    (h.setTerminal hp hn false).with_count _, ?_, ?_⟩
  · rw [removeAt, bind_ok (load_ok hs), bind_ok (store_ok hs _)]
    rfl
  · ext w
    rw [words_setFlag hn]
    by_cases hwp : w = p <;> simp [hwp]
  · exact fun _ ht => ht.replace hn subset_rfl

/-- `insert` answers whether the word was absent, and stores it too; when it throws, it stores
what it did. -/
theorem insert_sat (hw : ∀ c ∈ w, c < 128) (h : Rep X H t T M) :
    Sat (TrieM.insert X H w t) (Inserted X H t T w) (Thrown X H T.Words t.count) := by
  rcases w.eq_nil_or_concat' with rfl | ⟨p, c, rfl⟩
  · obtain ⟨b, t', ht', hins⟩ := insertAt_spec h h.root
    simp only [TrieM.insert, List.getLast?_nil]
    rw [bind_ok get_ok, ht']
    exact hins
  · have hc : c < 128 := hw c (by simp)
    have hwp : ∀ d ∈ p, d < 128 := fun d hd => hw d (List.mem_append_left _ hd)
    simp only [TrieM.insert, List.getLast?_append, List.getLast?_singleton, Option.some_or]
    refine Sat.bind (createParentNode_sat hw h) ?_
    rintro ⟨s, hash⟩ t' ⟨hhash, hk, T', M', hrep, hp, hwords, htight⟩
    rw [List.dropLast_concat] at hhash hp htight
    simp only at hhash hp
    subst hhash
    have hs := hrep.held p s hp
    simp only
    rw [bind_ok (charIndex_ok hc), bind_ok (load_ok hs)]
    obtain ⟨n, hn⟩ := hrep.exists_node hp
    cases hpc : M' (p ++ [c]) with
    | none =>
      have hmem := hrep.mem_words_of_none hp hpc
      rcases hrep.entry_none hp hpc with he | he
      · -- the last pointer is tagged
        simp only [he, TinyPtr.null_ne_tagged, if_false, if_true]
        rw [bind_ok (store_ok hs _)]
        refine ⟨?_, ?_, _, M', (hrep.setTagged hp hn hpc).with_count _, ?_, ?_⟩
        · simp [← hwords, hmem, he, TinyPtr.null_ne_tagged]
        · simp [hk]
        · ext w
          rw [words_tag hn, hwords]
          rfl
        · intro ht
          refine (htight ht).replace.tight (Or.inr fun m hm => Or.inl ⟨c, ?_⟩)
          rw [node_replace_self, Option.some.injEq] at hm
          exact hm ▸ Set.mem_insert c _
      · -- the word is there already
        simp only [he, if_true]
        have hin : p ++ [c] ∈ T.Words := hwords ▸ hmem.mpr he
        refine ⟨by simp [hin], by simp [hk], T', M', hrep, ?_, ?_⟩
        · rw [hwords, Set.insert_eq_of_mem hin]
        · intro ht
          refine (htight ht).tight (Or.inr fun m hm => Or.inl ⟨c, ?_⟩)
          rw [hn, Option.some.injEq] at hm
          exact hm ▸ (hrep.tagged_iff hp hn).mp he
    | some s' =>
      obtain ⟨h₀, h₁, hslot⟩ := hrep.entry_some hp hpc
      obtain ⟨b, t'', ht'', hb, hcount, T'', M'', hrep', hwords', htight'⟩ := insertAt_spec hrep hpc
      simp only [h₀, h₁, if_false]
      rw [bind_ok (dereference_ok h₀ h₁), hslot, ht'']
      refine ⟨by rw [hb, hwords], by rw [hcount, hk], T'', M'', hrep', by rw [hwords', hwords],
        fun ht => htight' ?_⟩
      refine (htight ht).tight (Or.inr fun m _ => Or.inr ⟨c, ?_⟩)
      rw [← hrep.dom, hpc]
      rfl

end TinyPointerTrees
