import TinyPointerTrees.Trie.TinyTrie2
import TinyPointerTrees.Trie.TinyValueTrie

/-!
# The index of a `char`

Every trie has an array of 256 pointers in a node, "one for each possible byte
value", and indexes it with a `char`, which is signed. A byte of `128` or more is
negative, and as a `size_t` it is far out of bounds. What a walk does up to the
first such byte decides whether it gets there.

* `index_inBounds` — a call stays in bounds exactly when no node is reached under
  whose array the first byte of `128` or more is looked up; for all four classes,
  in every state that calls with any words reach.
* `not_index_inBounds` — a new trie of each class is indexed out of bounds by the
  first call that stores the byte `128`.
-/

namespace TinyPointerTrees

open PathTrie

/-- The first byte of `128` or more, if there is one. -/
theorem ascii_or_exists (w : Word) :
    (∀ d ∈ w, d < 128) ∨ ∃ u c v, w = u ++ c :: v ∧ (∀ d ∈ u, d < 128) ∧ ¬ c < 128 := by
  induction w with
  | nil => exact Or.inl (by simp)
  | cons b w ih =>
    by_cases hb : b < 128
    · rcases ih with h | ⟨u, c, v, rfl, hu, hc⟩
      · exact Or.inl fun d hd => (List.mem_cons.mp hd).elim (fun e => e ▸ hb) (h d)
      · exact Or.inr ⟨b :: u, c, v, rfl, fun d hd => (List.mem_cons.mp hd).elim (fun e =>
          e ▸ hb) (hu d), hc⟩
    · exact Or.inr ⟨[], b, w, rfl, by simp, hb⟩

/-- A call does not index an array out of bounds, nor does it read, write or free a node that is not
there. -/
def InBounds {σ β : Type} (r : EStateM.Result Fault σ β) : Prop := ∀ t, r ≠ .error .undefined t

/-- The first byte of `128` or more is not looked up: the bytes before it lead to no node. -/
def ByteSafe (arrives : Word → Prop) (w : Word) : Prop :=
  ∀ u c v, w = u ++ c :: v → (∀ d ∈ u, d < 128) → arrives u → c < 128

/-! ### The tries of values -/

namespace NodeStore

variable {μ A P κ α : Type} {S : NodeStore μ A P κ α} {D : StoreSpec μ A} {β γ : Type}
  {t : ValueTrieState μ A} {a : A} {h : κ} {u v w : Word} {c : UInt8}

variable [DecidableEq P]

/-- A walk goes on from where its first part gets to. -/
theorem getNode_append : S.getNode (u ++ w) a h = S.getNode u a h >>= fun o =>
    match o with
    | none => pure none
    | some b => S.getNode w b (u.foldl (fun h c => S.next c h) h) := by
  induction u generalizing a h with
  | nil => simp [getNode]
  | cons b u ih =>
    simp only [List.cons_append, getNode, bind_assoc, List.foldl_cons]
    refine bind_congr fun i => bind_congr fun n => ?_
    split_ifs
    · rw [pure_bind]
    · simp only [bind_assoc, ih]

theorem createNode_append : S.createNode (u ++ w) a h = S.createNode u a h >>= fun b =>
    S.createNode w b (u.foldl (fun h c => S.next c h) h) := by
  induction u generalizing a h with
  | nil => simp [createNode]
  | cons b u ih =>
    simp only [List.cons_append, createNode, bind_assoc, List.foldl_cons]
    refine bind_congr fun i => bind_congr fun n => ?_
    split_ifs
    · simp only [bind_assoc, ih]
    · simp only [bind_assoc, ih]

/-- A walk that gets to a byte of `128` or more is out of bounds there. -/
theorem getNode_bad (hc : ¬ c < 128) : S.getNode (u ++ c :: v) a h = S.getNode u a h >>= fun o =>
    match o with
    | none => pure none
    | some _ => throw .undefined := by
  rw [getNode_append]
  refine bind_congr fun o => ?_
  cases o with
  | none => rfl
  | some b => exact charIndex_bad hc _

theorem createNode_bad (hc : ¬ c < 128) :
    S.createNode (u ++ c :: v) a h = S.createNode u a h >>= fun _ => throw .undefined := by
  rw [createNode_append]
  exact bind_congr fun b => charIndex_bad hc _

/-- What a member function does when its walk throws. -/
theorem set_of_error {x : α} {e : Fault} {t' : ValueTrieState μ A}
    (he : S.createNode w t.root S.init t = .error e t') : S.set w x t = .error e t' := by
  rw [set, bind_ok get_ok, bind_error he]

theorem remove_of_error {e : Fault} {t' : ValueTrieState μ A}
    (he : S.getNode w t.root S.init t = .error e t') : S.remove w t = .error e t' := by
  rw [remove, bind_ok get_ok, bind_error he]

theorem get_of_error {e : Fault} {t' : ValueTrieState μ A}
    (he : S.getNode w t.root S.init t = .error e t') : S.get w t = .error e t' := by
  rw [NodeStore.get, bind_ok get_ok, bind_error he]

/-- The walk of a call finds a node for some bytes, or makes it. -/
def Arrives (S : NodeStore μ A P κ α) (t : ValueTrieState μ A) : ValueCall α → Word → Prop
  | .set _ _, u => ∃ a t', S.createNode u t.root S.init t = .ok a t'
  | .remove _, u => ∃ a t', S.getNode u t.root S.init t = .ok (some a) t'
  | .get _, u => ∃ a t', S.getNode u t.root S.init t = .ok (some a) t'

/-- The walk finds a node for the bytes before, and is out of bounds, or it does what it does
for these bytes alone. -/
theorem getNode_cases (hc : ¬ c < 128) (v : Word) :
    ((∃ b t', S.getNode u a h t = .ok (some b) t') ∧
      ∃ t', S.getNode (u ++ c :: v) a h t = .error .undefined t') ∨
    (¬ ∃ b t', S.getNode u a h t = .ok (some b) t') ∧
      S.getNode (u ++ c :: v) a h t = S.getNode u a h t := by
  rw [getNode_bad hc]
  cases hr : S.getNode u a h t with
  | ok o t' =>
    rw [bind_ok hr]
    cases o with
    | none => exact Or.inr ⟨by simp, rfl⟩
    | some b => exact Or.inl ⟨⟨b, t', rfl⟩, t', rfl⟩
  | error e t' =>
    rw [bind_error hr]
    exact Or.inr ⟨by simp, rfl⟩

theorem createNode_cases (hc : ¬ c < 128) (v : Word) :
    ((∃ b t', S.createNode u a h t = .ok b t') ∧
      ∃ t', S.createNode (u ++ c :: v) a h t = .error .undefined t') ∨
    (¬ ∃ b t', S.createNode u a h t = .ok b t') ∧
      ∃ e t', S.createNode u a h t = .error e t' ∧
        S.createNode (u ++ c :: v) a h t = .error e t' := by
  rw [createNode_bad hc]
  cases hr : S.createNode u a h t with
  | ok b t' =>
    rw [bind_ok hr]
    exact Or.inl ⟨⟨b, t', rfl⟩, t', rfl⟩
  | error e t' =>
    rw [bind_error hr]
    exact Or.inr ⟨by simp, e, t', rfl, rfl⟩

/-- A call whose walk gets to a byte of `128` or more is out of bounds; any other does what a
call does with the bytes before. -/
theorem run_cases (hc : ¬ c < 128) {k : ValueCall α} (hk : k.word = u ++ c :: v) :
    (S.Arrives t k u ∧ ∃ t', S.run k t = .error .undefined t') ∨
      ¬ S.Arrives t k u ∧ ∃ k' : ValueCall α, k'.word = u ∧ S.run k t = S.run k' t := by
  cases k with
  | set w x =>
    obtain rfl : w = _ := hk
    rcases createNode_cases (S := S) (t := t) (a := t.root) (h := S.init) hc v with ⟨hget, t',
      hbad⟩ | ⟨hnot, e, t', hr, hbad⟩
    · exact Or.inl ⟨hget, t', by rw [NodeStore.run, map_error (set_of_error hbad)]⟩
    · refine Or.inr ⟨hnot, .set u x, rfl, ?_⟩
      rw [NodeStore.run, NodeStore.run, map_error (set_of_error hbad), map_error (set_of_error hr)]
  | remove w =>
    obtain rfl : w = _ := hk
    rcases getNode_cases (S := S) (t := t) (a := t.root) (h := S.init) hc v with ⟨hget, t',
      hbad⟩ | ⟨hnot, hsame⟩
    · exact Or.inl ⟨hget, t', by rw [NodeStore.run, map_error (remove_of_error hbad)]⟩
    · refine Or.inr ⟨hnot, .remove u, rfl, map_congr_left ?_⟩
      rw [remove, remove, bind_ok get_ok, bind_ok get_ok]
      exact bind_congr_left hsame
  | get w =>
    obtain rfl : w = _ := hk
    rcases getNode_cases (S := S) (t := t) (a := t.root) (h := S.init) hc v with ⟨hget, t',
      hbad⟩ | ⟨hnot, hsame⟩
    · exact Or.inl ⟨hget, t', by rw [NodeStore.run, map_error (get_of_error hbad)]⟩
    · refine Or.inr ⟨hnot, .get u, rfl, map_congr_left ?_⟩
      rw [NodeStore.get, NodeStore.get, bind_ok get_ok, bind_ok get_ok]
      exact bind_congr_left hsame

/-- Where calls with words of bytes below `128` are in bounds, any call is in bounds exactly
when its walk does not get to a byte of `128` or more. -/
theorem inBounds_iff (hsafe : ∀ k : ValueCall α, k.Ascii → InBounds (S.run k t)) (k : ValueCall α) :
    InBounds (S.run k t) ↔ ByteSafe (S.Arrives t k) k.word := by
  constructor
  · intro h u c v hk hu harr
    by_contra hc
    rcases run_cases (S := S) (t := t) hc hk with ⟨-, t', hbad⟩ | ⟨hnot, -⟩
    · exact h t' hbad
    · exact hnot harr
  · intro h
    rcases ascii_or_exists k.word with hw | ⟨u, c, v, hk, hu, hc⟩
    · exact hsafe k hw
    · rcases run_cases (S := S) (t := t) hc hk with ⟨harr, -⟩ | ⟨-, k', hk', hsame⟩
      · exact absurd (h u c v hk hu harr) hc
      · rw [hsame]
        exact hsafe k' (by rw [ValueCall.Ascii, hk']; exact hu)

/-- The states that calls with any words reach, as long as they are defined. -/
inductive Visits (S : NodeStore μ A P κ α) (t₀ : ValueTrieState μ A) : ValueTrieState μ A → Prop
  | start : Visits S t₀ t₀
  | call {t t' : ValueTrieState μ A} {k : ValueCall α} {r : ValueAnswer α} (h : Visits S t₀ t)
      (hr : S.run k t = .ok r t') : Visits S t₀ t'
  | overflow {t t' : ValueTrieState μ A} {k : ValueCall α} {e : OverflowError} (h : Visits S t₀ t)
      (hr : S.run k t = .error (.overflow e) t') : Visits S t₀ t'

end NodeStore

namespace ValueTrie

variable {α : Type} [Inhabited α] {t t' : ValueTrieState (ValueHeap α) ℕ} {V : ValueMap α}
  {M : Word → Option ℕ} {k : ValueCall α}

/-- A call with a word of bytes below `128` returns. -/
theorem run_ascii (h : NodeStore.Rep valueTrie heapSpec t V M) (hk : k.Ascii) :
    ∃ r t' V' M', valueTrie.run k t = .ok r t' ∧ NodeStore.Rep valueTrie heapSpec t' V' M' := by
  have hsat := h.run valueTrie_lawful hk fun _ _ => trivial
  cases hr : valueTrie.run k t with
  | ok r t' =>
    rw [hr] at hsat
    obtain ⟨-, M', hrep⟩ := hsat
    exact ⟨r, t', _, M', rfl, hrep⟩
  | error e t' =>
    rw [hr] at hsat
    cases e <;> exact hsat.elim

theorem run_inBounds (h : NodeStore.Rep valueTrie heapSpec t V M) (hk : k.Ascii) :
    InBounds (valueTrie.run k t) := by
  obtain ⟨r, t', V', M', hr, -⟩ := run_ascii h hk
  rw [hr]
  exact fun t' he => by cases he

/-- Any call that is defined returns and represents a map. -/
theorem run_any (h : NodeStore.Rep valueTrie heapSpec t V M) (k : ValueCall α) :
    (∃ t', valueTrie.run k t = .error .undefined t') ∨
      ∃ r t' V' M', valueTrie.run k t = .ok r t' ∧ NodeStore.Rep valueTrie heapSpec t' V' M' := by
  rcases ascii_or_exists k.word with hk | ⟨u, c, v, hk, hu, hc⟩
  · exact Or.inr (run_ascii h hk)
  · rcases NodeStore.run_cases (S := valueTrie) (t := t) hc hk with ⟨-, hbad⟩ | ⟨-, k', hk', hsame⟩
    · exact Or.inl hbad
    · rw [hsame]
      exact Or.inr (run_ascii h (by rw [ValueCall.Ascii, hk']; exact hu))

/-- A `ValueTrie` represents a map in every state it gets to. -/
theorem exists_rep (h : valueTrie.Visits ValueTrie.new t) :
    ∃ V M, NodeStore.Rep valueTrie heapSpec t V M := by
  induction h with
  | start => exact ⟨_, exists_rep_new⟩
  | @call t t' k r _ hr ih =>
    obtain ⟨V, M, hrep⟩ := ih
    rcases run_any hrep k with ⟨u, hu⟩ | ⟨r, u, V', M', hu, hrep'⟩
    · rw [hr] at hu
      cases hu
    · rw [hr] at hu
      cases hu
      exact ⟨V', M', hrep'⟩
  | @overflow t t' k e _ hr ih =>
    obtain ⟨V, M, hrep⟩ := ih
    rcases run_any hrep k with ⟨u, hu⟩ | ⟨r, u, V', M', hu, -⟩
    · rw [hr] at hu
      cases hu
    · rw [hr] at hu
      cases hu

end ValueTrie

namespace TinyValueTrie

variable {α β γ : Type} {x : ValueM (Table (TinyValueNode α)) Slot β}
  {f : β → ValueM (Table (TinyValueNode α)) Slot γ}

/-- Never undefined. -/
def Total (x : ValueM (Table (TinyValueNode α)) Slot β) : Prop := ∀ t, InBounds (x t)

theorem Total.bind (hx : Total x) (hf : ∀ b, Total (f b)) : Total (x >>= f) := by
  intro t
  cases hr : x t with
  | ok b t' =>
    rw [bind_ok hr]
    exact hf b t'
  | error e t' =>
    rw [bind_error hr]
    intro u he
    cases he
    exact hx t _ hr

theorem Total.pure (b : β) : Total (α := α) (pure b) := fun t t' h => by cases h

theorem Total.get : Total (α := α) MonadState.get := fun t t' h => by cases h

theorem Total.modify (g : TinyValueTrieState α → TinyValueTrieState α) : Total (modify g) :=
  fun t t' h => by cases h

theorem Total.index {c : UInt8} (hc : c < 128) : Total (α := α) (charIndex c) := by
  rw [charIndex, if_pos hc]
  exact .pure _

variable [Storage byteLayout α] {X : BucketIndexer}

theorem Total.load (a : Slot) : Total ((tinyValueTrie (α := α) X).load a) := fun t t' h => by
  rw [NodeStore.load_ok rfl] at h
  cases h

theorem Total.store (a : Slot) (n : TinyValueNode α) : Total ((tinyValueTrie X).store a n) :=
  fun t t' h => by
  rw [NodeStore.store_ok rfl] at h
  cases h

theorem Total.alloc (h : TinyPtrHashes) : Total ((tinyValueTrie (α := α) X).alloc h) := by
  intro t t' he
  rcases ha : (tinyValueTrie X).allocate h t.nodes with ⟨r, m⟩
  cases r with
  | ok r =>
    rw [NodeStore.alloc_ok ha] at he
    cases he
  | error e =>
    rw [NodeStore.alloc_error ha] at he
    cases he

/-- A pointer that is not null can be followed, or is tagged, and then `dereference` throws. -/
theorem Total.deref {p : TinyPtr byteLayout} (hp : p ≠ .null) (h : TinyPtrHashes) :
    Total ((tinyValueTrie (α := α) X).deref p h) := by
  intro t t' he
  unfold NodeStore.deref tinyValueTrie DerefTable.dereference at he
  simp only [if_neg hp] at he
  split_ifs at he <;> cases he

theorem Total.createNode {w : Word} (hw : ∀ d ∈ w, d < 128) (a : Slot) (h : TinyPtrHashes) :
    Total ((tinyValueTrie (α := α) X).createNode w a h) := by
  induction w generalizing a h with
  | nil => exact .pure _
  | cons c w ih =>
    have hw' : ∀ d ∈ w, d < 128 := fun d hd => hw d (List.mem_cons_of_mem _ hd)
    intro t
    rw [NodeStore.createNode, bind_ok (charIndex_ok (hw c List.mem_cons_self)),
      bind_ok (NodeStore.load_ok rfl)]
    split_ifs with hnull
    · refine ((Total.alloc _).bind fun r => (Total.load _).bind fun n =>
        (Total.store _ _).bind fun _ => ?_) t
      exact ih hw' _ _
    · rw [bind_ok (NodeStore.load_ok rfl)]
      exact ((Total.deref hnull _).bind fun b => ih hw' _ _) t

theorem Total.getNode {w : Word} (hw : ∀ d ∈ w, d < 128) (a : Slot) (h : TinyPtrHashes) :
    Total ((tinyValueTrie (α := α) X).getNode w a h) := by
  induction w generalizing a h with
  | nil => exact .pure _
  | cons c w ih =>
    have hw' : ∀ d ∈ w, d < 128 := fun d hd => hw d (List.mem_cons_of_mem _ hd)
    intro t
    rw [NodeStore.getNode, bind_ok (charIndex_ok (hw c List.mem_cons_self)),
      bind_ok (NodeStore.load_ok rfl)]
    split_ifs with hnull
    · exact Total.pure _ t
    · rw [bind_ok (NodeStore.load_ok rfl)]
      exact ((Total.deref hnull _).bind fun b => ih hw' _ _) t

/-- Whatever the storage holds, a call with a word of bytes below `128` stays in bounds. -/
theorem run_inBounds {k : ValueCall α} (hk : k.Ascii) (t : TinyValueTrieState α) :
    InBounds ((tinyValueTrie X).run k t) := by
  cases k with
  | set w v =>
    rw [NodeStore.run, map_eq_pure_bind]
    refine (Total.bind ?_ fun b => .pure _) t
    refine Total.get.bind fun t => (Total.createNode hk _ _).bind fun a =>
      (Total.load _).bind fun n => ?_
    refine (Total.store _ _).bind fun _ => (Total.load _).bind fun n =>
      (Total.load _).bind fun n => ?_
    exact (Total.store _ _).bind fun _ => (Total.modify _).bind fun _ => .pure _
  | remove w =>
    rw [NodeStore.run, map_eq_pure_bind]
    refine (Total.bind ?_ fun b => .pure _) t
    refine Total.get.bind fun t => (Total.getNode hk _ _).bind fun o => ?_
    cases o with
    | none => exact .pure _
    | some a =>
      refine (Total.load _).bind fun n => ?_
      split_ifs
      · exact (Total.load _).bind fun n => (Total.store _ _).bind fun _ =>
          (Total.modify _).bind fun _ => .pure _
      · exact .pure _
  | get w =>
    rw [NodeStore.run, map_eq_pure_bind]
    refine (Total.bind ?_ fun b => .pure _) t
    refine Total.get.bind fun t => (Total.getNode hk _ _).bind fun o => ?_
    cases o with
    | none => exact .pure _
    | some a =>
      refine (Total.load _).bind fun n => ?_
      split_ifs <;> exact .pure _

end TinyValueTrie

/-! ### The tries of words -/

namespace TrieM

variable {X : BucketIndexer} {H : Hashing} {t : Trie} {β γ : Type} {s : Slot} {h : TinyPtrHashes}
  {u v w : Word} {c : UInt8}

theorem createNodes_append : createNodes X H (u ++ w) s h = createNodes X H u s h >>= fun r =>
    createNodes X H w r.1 r.2 := by
  induction u generalizing s h with
  | nil => simp [createNodes]
  | cons b u ih =>
    simp only [List.cons_append, createNodes, bind_assoc]
    refine bind_congr fun i => bind_congr fun n => ?_
    split_ifs
    · simp only [bind_assoc, ih]
    · simp only [bind_assoc, ih]

theorem getNodes_append : getNodes X H (u ++ w) s h = getNodes X H u s h >>= fun o =>
    match o with
    | none => pure none
    | some r => getNodes X H w r.1 r.2 := by
  induction u generalizing s h with
  | nil => simp [getNodes]
  | cons b u ih =>
    simp only [List.cons_append, getNodes, bind_assoc]
    refine bind_congr fun i => bind_congr fun n => ?_
    split_ifs
    · rw [pure_bind]
    · simp only [bind_assoc, ih]

/-- A word with a byte of `128` or more: that byte is the last one, or it is on the way. -/
theorem dropLast_cases (u : Word) (c : UInt8) (v : Word) :
    ((u ++ c :: v).dropLast = u ∧ (u ++ c :: v).getLast? = some c) ∨
      ∃ v' d, (u ++ c :: v).dropLast = u ++ c :: v' ∧ (u ++ c :: v).getLast? = some d := by
  rcases v.eq_nil_or_concat' with rfl | ⟨v, d, rfl⟩
  · exact Or.inl ⟨by simp, by simp⟩
  · have he : u ++ c :: (v ++ [d]) = (u ++ c :: v) ++ [d] := by simp
    rw [he]
    exact Or.inr ⟨v, d, List.dropLast_concat, List.getLast?_concat⟩

/-- No node is found for the bytes before, and none for the whole. -/
theorem getParentNode_of_none (hu : getNodes X H u t.root H.init t = .ok none t) (v : Word) :
    getParentNode X H (u ++ c :: v) t = .ok none t := by
  rw [getParentNode, bind_ok get_ok]
  rcases dropLast_cases u c v with ⟨hd, -⟩ | ⟨v', d, hd, -⟩
  · rw [hd, hu]
  · rw [hd, getNodes_append, bind_ok hu]
    rfl

/-- A node is found for the bytes before, and the byte is looked up in it. -/
theorem getParentNode_of_some {r : Slot × TinyPtrHashes} (hc : ¬ c < 128)
    (hu : getNodes X H u t.root H.init t = .ok (some r) t) (v : Word) :
    getParentNode X H (u ++ c :: v) t = .error .undefined t ∨
      getParentNode X H (u ++ c :: v) t = .ok (some r) t ∧ (u ++ c :: v).getLast? = some c := by
  rw [getParentNode, bind_ok get_ok]
  rcases dropLast_cases u c v with ⟨hd, hl⟩ | ⟨v', d, hd, -⟩
  · rw [hd, hu]
    exact Or.inr ⟨rfl, hl⟩
  · refine Or.inl ?_
    rw [hd, getNodes_append, bind_ok hu]
    dsimp only
    rw [getNodes, charIndex_bad hc]
    rfl

theorem exists_getLast (u : Word) (c : UInt8) (v : Word) :
    ∃ d, (u ++ c :: v).getLast? = some d := by
  rcases dropLast_cases u c v with ⟨-, hl⟩ | ⟨v', d, -, hl⟩
  · exact ⟨c, hl⟩
  · exact ⟨d, hl⟩

theorem contains_of_none (hu : getNodes X H u t.root H.init t = .ok none t) (v : Word) :
    TrieM.contains X H (u ++ c :: v) t = .ok false t := by
  obtain ⟨d, hl⟩ := exists_getLast u c v
  simp only [TrieM.contains, hl]
  rw [bind_ok (getParentNode_of_none hu v)]
  rfl

theorem contains_of_some {r : Slot × TinyPtrHashes} (hc : ¬ c < 128)
    (hu : getNodes X H u t.root H.init t = .ok (some r) t) (v : Word) :
    TrieM.contains X H (u ++ c :: v) t = .error .undefined t := by
  obtain ⟨d, hl⟩ := exists_getLast u c v
  rcases getParentNode_of_some hc hu v with he | ⟨hr, hl'⟩
  · simp only [TrieM.contains, hl]
    rw [bind_error he]
  · simp only [TrieM.contains, hl']
    rw [bind_ok hr]
    dsimp only
    rw [charIndex_bad hc]
    rfl

/-- The nodes for the bytes before cannot be made. -/
theorem insert_of_error {e : Fault} {t' : Trie}
    (hu : createNodes X H u t.root H.init t = .error e t') (v : Word) :
    TrieM.insert X H (u ++ c :: v) t = .error e t' := by
  obtain ⟨d, hl⟩ := exists_getLast u c v
  have hpar : createParentNode X H (u ++ c :: v) t = .error e t' := by
    rw [createParentNode, bind_ok get_ok]
    rcases dropLast_cases u c v with ⟨hd, -⟩ | ⟨v', d, hd, -⟩
    · rw [hd, hu]
    · rw [hd, createNodes_append, bind_error hu]
  simp only [TrieM.insert, hl]
  rw [bind_error hpar]

theorem insert_of_ok {r : Slot × TinyPtrHashes} {t' : Trie} (hc : ¬ c < 128)
    (hu : createNodes X H u t.root H.init t = .ok r t') (v : Word) :
    TrieM.insert X H (u ++ c :: v) t = .error .undefined t' := by
  rcases dropLast_cases u c v with ⟨hd, hl⟩ | ⟨v', d, hd, hl⟩
  · have hpar : createParentNode X H (u ++ c :: v) t = .ok r t' := by
      rw [createParentNode, bind_ok get_ok, hd, hu]
    simp only [TrieM.insert, hl]
    rw [bind_ok hpar, charIndex_bad hc]
    rfl
  · have hpar : createParentNode X H (u ++ c :: v) t = .error .undefined t' := by
      rw [createParentNode, bind_ok get_ok, hd, createNodes_append, bind_ok hu, createNodes,
        charIndex_bad hc]
      rfl
    simp only [TrieM.insert, hl]
    rw [bind_error hpar]

end TrieM

open TrieM

namespace TrieClass

/-- `remove` looks at no byte after one that it finds no node for. -/
def RemoveStops (C : TrieClass) : Prop :=
  ∀ (X : BucketIndexer) (t : Trie) (T : PathTrie UInt8) (M : Word → Option Slot) (u : Word)
    (c : UInt8) (v : Word), (∀ d ∈ u, d < 128) → Rep X C.hashing t T M →
      (M u = none → C.remove X (u ++ c :: v) t = .ok false t) ∧
        ∀ s, M u = some s → ¬ c < 128 → C.remove X (u ++ c :: v) t = .error .undefined t

end TrieClass

theorem TinyTrie.removeStops : tinyTrie.RemoveStops := by
  intro X t T M u c v hu hrep
  have hget : getNodes X TinyTrie.hashing u t.root TinyTrie.hashing.init t = _ :=
    getNodes_eq (p := []) hu hrep hrep.root
  obtain ⟨d, hl⟩ := exists_getLast u c v
  constructor
  · intro hnone
    rw [List.nil_append, hnone] at hget
    change TinyTrie.remove X (u ++ c :: v) t = _
    simp only [TinyTrie.remove, hl]
    rw [bind_ok (getParentNode_of_none hget v)]
    rfl
  · intro s hs hc
    rw [List.nil_append, hs] at hget
    change TinyTrie.remove X (u ++ c :: v) t = _
    rcases getParentNode_of_some hc hget v with he | ⟨hr, hl'⟩
    · simp only [TinyTrie.remove, hl]
      rw [bind_error he]
    · simp only [TinyTrie.remove, hl']
      rw [bind_ok hr]
      dsimp only
      rw [charIndex_bad hc]
      rfl

theorem TinyTrie2.removeLoop_stops {addr : Slot → UInt64} {X : BucketIndexer} {t : Trie}
    {T : PathTrie UInt8} {M : Word → Option Slot} {p u v : Word} {c : UInt8} {s : Slot}
    (path : List (UInt8 × Slot)) (hu : ∀ d ∈ u, d < 128) (h : Rep X (hashing addr) t T M)
    (hp : M p = some s) :
    (M (p ++ u) = none → removeLoop addr X (u ++ c :: v) s path t = .ok false t) ∧
      ∀ s', M (p ++ u) = some s' → ¬ c < 128 →
      removeLoop addr X (u ++ c :: v) s path t = .error .undefined t := by
  induction u generalizing p s path with
  | nil =>
    rw [List.append_nil, List.nil_append]
    refine ⟨fun hnone => ?_, fun s' _ hc => ?_⟩
    · rw [hp] at hnone
      cases hnone
    · rw [removeLoop, charIndex_bad hc]
      rfl
  | cons b u ih =>
    have hb : b < 128 := hu b List.mem_cons_self
    have happ : p ++ b :: u = p ++ [b] ++ u := by simp
    rw [List.cons_append, removeLoop, bind_ok (charIndex_ok hb),
      bind_ok (load_ok (h.held p s hp)), happ]
    cases hpb : M (p ++ [b]) with
    | none =>
      have hnone : M (p ++ [b] ++ u) = none := by
        by_contra hne
        have := h.isSome_of_append (Option.isSome_iff_ne_none.mpr hne)
        simp [hpb] at this
      have hstop : (t.table.read s).nodes (entryIdx b) = .null ∨
          (t.table.read s).nodes (entryIdx b) = .tagged ∧ (!(u ++ c :: v).isEmpty) = true := by
        rcases h.entry_none hp hpb with he | he
        · exact Or.inl he
        · exact Or.inr ⟨he, by simp⟩
      rw [if_pos hstop, hnone]
      exact ⟨fun _ => rfl, fun s' hs' => by cases hs'⟩
    | some s' =>
      obtain ⟨h₀, h₁, hslot⟩ := h.entry_some hp hpb
      have hslot' : DerefTable.slotOf X ((t.table.read s).nodes (entryIdx b))
        (addressHash (addr s) b) = s' := hslot
      rw [if_neg (by simp [h₀, h₁]), if_neg h₁, bind_ok (dereference_ok h₀ h₁), hslot']
      exact ih _ (fun d hd => hu d (List.mem_cons_of_mem _ hd)) hpb

theorem TinyTrie2.removeStops (addr : Slot → UInt64) : (tinyTrie2 addr).RemoveStops := by
  intro X t T M u c v hu hrep
  have hloop := removeLoop_stops [(0, t.root)] (v := v) (c := c) hu hrep hrep.root
  rw [List.nil_append] at hloop
  change (M u = none → TinyTrie2.remove addr X (u ++ c :: v) t = _) ∧
    ∀ s, M u = some s → ¬ c < 128 → TinyTrie2.remove addr X (u ++ c :: v) t = _
  rw [TinyTrie2.remove, bind_ok get_ok]
  exact hloop

namespace TrieClass

variable {C : TrieClass} {X : BucketIndexer} {prunes : Prop} {t t' : Trie} {T : PathTrie UInt8}
  {M : Word → Option Slot} {k : Call} {u v : Word} {c : UInt8}

/-- The walk of a call finds a node for some bytes, or makes it. -/
def Arrives (C : TrieClass) (X : BucketIndexer) (t : Trie) : Call → Word → Prop
  | .insert _, u => ∃ r t', createNodes X C.hashing u t.root C.hashing.init t = .ok r t'
  | .remove _, u => ∃ r, getNodes X C.hashing u t.root C.hashing.init t = .ok (some r) t
  | .contains _, u => ∃ r, getNodes X C.hashing u t.root C.hashing.init t = .ok (some r) t

/-- The states that calls with any words reach, as long as they are defined. -/
inductive Visits (C : TrieClass) (X : BucketIndexer) : Trie → Prop
  | create {storage : ℕ → ℕ → TrieNode} {T₀ : Table TrieNode} {t : Trie}
      (h₀ : DerefTable.construct byteLayout X storage = some T₀) (h : Trie.create X T₀ = .ok () t) :
      Visits C X t
  | call {t t' : Trie} {k : Call} {r : Bool} (h : Visits C X t) (hr : C.run X k t = .ok r t') :
      Visits C X t'
  | overflow {t t' : Trie} {k : Call} {e : OverflowError} (h : Visits C X t)
      (hr : C.run X k t = .error (.overflow e) t') : Visits C X t'

/-- A call with a word of bytes below `128` returns or throws, and represents a trie. -/
theorem run_ascii (hC : C.RemoveCorrect prunes) (h : Rep X C.hashing t T M) (hk : k.Ascii) :
    ∃ t' T' M', Rep X C.hashing t' T' M' ∧
      ((∃ r, C.run X k t = .ok r t') ∨ ∃ e, C.run X k t = .error (.overflow e) t') := by
  cases k with
  | insert w =>
    have hsat := insert_sat (w := w) hk h
    rw [TrieClass.run]
    cases hr : TrieM.insert X C.hashing w t with
    | ok r t' =>
      rw [hr] at hsat
      obtain ⟨-, -, T', M', hrep, -⟩ := hsat
      exact ⟨t', T', M', hrep, Or.inl ⟨r, rfl⟩⟩
    | error e t' =>
      rw [hr] at hsat
      cases e with
      | overflow e =>
        obtain ⟨-, -, T', M', hrep, -⟩ := hsat
        exact ⟨t', T', M', hrep, Or.inr ⟨e, rfl⟩⟩
      | runtimeError what => exact hsat.elim
      | undefined => exact hsat.elim
  | remove w =>
    obtain ⟨b, t', hr, -, -, T', M', hrep, -⟩ := hC X t T M w hk h
    exact ⟨t', T', M', hrep, Or.inl ⟨b, hr⟩⟩
  | contains w =>
    obtain ⟨b, hr, -⟩ := contains_eq (w := w) hk h
    exact ⟨t, T, M, h, Or.inl ⟨b, hr⟩⟩

theorem run_inBounds (hC : C.RemoveCorrect prunes) (h : Rep X C.hashing t T M) (hk : k.Ascii) :
    InBounds (C.run X k t) := by
  obtain ⟨t', -, -, -, ⟨r, hr⟩ | ⟨e, hr⟩⟩ := run_ascii hC h hk
  · rw [hr]
    exact fun u he => by cases he
  · rw [hr]
    exact fun u he => by cases he

/-- A call whose walk gets to a byte of `128` or more is out of bounds; any other does what a
call does with the bytes before, and one more. -/
theorem run_cases (hC : C.RemoveStops) (h : Rep X C.hashing t T M) (hu : ∀ d ∈ u, d < 128)
    (hc : ¬ c < 128) (hk : k.word = u ++ c :: v) :
    (C.Arrives X t k u ∧ ∃ t', C.run X k t = .error .undefined t') ∨ ¬ C.Arrives X t k u ∧ ∃ k' :
      Call, k'.Ascii ∧ C.run X k t = C.run X k' t := by
  have hget : getNodes X C.hashing u t.root C.hashing.init t = _ :=
    getNodes_eq (p := []) hu h h.root
  rw [List.nil_append] at hget
  have hzero : ∀ d ∈ u ++ [0], d < 128 := by
    intro d hd
    rcases List.mem_append.mp hd with hd | hd
    · exact hu d hd
    · rw [List.mem_singleton.mp hd]
      decide
  cases k with
  | insert w =>
    obtain rfl : w = _ := hk
    cases hr : createNodes X C.hashing u t.root C.hashing.init t with
    | ok r t' => exact Or.inl ⟨⟨r, t', hr⟩, t', insert_of_ok hc hr v⟩
    | error e t' =>
      refine Or.inr ⟨?_, .insert (u ++ [0]), hzero, ?_⟩
      · rintro ⟨r, t'', he⟩
        rw [hr] at he
        cases he
      · rw [TrieClass.run, TrieClass.run, insert_of_error hr v, insert_of_error hr []]
  | remove w =>
    obtain rfl : w = _ := hk
    cases hM : M u with
    | none =>
      rw [hM] at hget
      refine Or.inr ⟨?_, .remove (u ++ [0]), hzero, ?_⟩
      · rintro ⟨r, he⟩
        rw [hget] at he
        cases he
      · rw [TrieClass.run, TrieClass.run, (hC X t T M u c v hu h).1 hM,
          (hC X t T M u 0 [] hu h).1 hM]
    | some s =>
      rw [hM] at hget
      exact Or.inl ⟨⟨_, hget⟩, t, (hC X t T M u c v hu h).2 s hM hc⟩
  | contains w =>
    obtain rfl : w = _ := hk
    cases hM : M u with
    | none =>
      rw [hM] at hget
      refine Or.inr ⟨?_, .contains (u ++ [0]), hzero, ?_⟩
      · rintro ⟨r, he⟩
        rw [hget] at he
        cases he
      · rw [TrieClass.run, TrieClass.run, contains_of_none hget v, contains_of_none hget []]
    | some s =>
      rw [hM] at hget
      exact Or.inl ⟨⟨_, hget⟩, t, contains_of_some hc hget v⟩

/-- Any call that is defined represents a trie. -/
theorem run_any (hC : C.RemoveCorrect prunes) (hS : C.RemoveStops) (h : Rep X C.hashing t T M)
    (k : Call) :
    (∃ t', C.run X k t = .error .undefined t') ∨ ∃ t' T' M', Rep X C.hashing t' T' M' ∧
      ((∃ r, C.run X k t = .ok r t') ∨ ∃ e, C.run X k t = .error (.overflow e) t') := by
  rcases ascii_or_exists k.word with hk | ⟨u, c, v, hk, hu, hc⟩
  · exact Or.inr (run_ascii hC h hk)
  · rcases run_cases hS h hu hc hk with ⟨-, hbad⟩ | ⟨-, k', hk', hsame⟩
    · exact Or.inl hbad
    · rw [hsame]
      exact Or.inr (run_ascii hC h hk')

theorem Visits.exists_rep (hC : C.RemoveCorrect prunes) (hS : C.RemoveStops) (h : C.Visits X t) :
    ∃ T M, Rep X C.hashing t T M := by
  induction h with
  | @create _ _ t h₀ h =>
    obtain ⟨-, T, M, hrep, -⟩ : C.Inv X False t ∅ := inv_create h₀ h
    exact ⟨T, M, hrep⟩
  | @call t t' k r _ hr ih =>
    obtain ⟨T, M, hrep⟩ := ih
    rcases run_any hC hS hrep k with ⟨u, hu⟩ | ⟨u, T', M', hrep', ⟨r', hu⟩ | ⟨e, hu⟩⟩ <;>
      rw [hr] at hu <;> cases hu
    exact ⟨T', M', hrep'⟩
  | @overflow t t' k e _ hr ih =>
    obtain ⟨T, M, hrep⟩ := ih
    rcases run_any hC hS hrep k with ⟨u, hu⟩ | ⟨u, T', M', hrep', ⟨r', hu⟩ | ⟨e, hu⟩⟩ <;>
      rw [hr] at hu <;> cases hu
    exact ⟨T', M', hrep'⟩

theorem Visits.inBounds_iff (hC : C.RemoveCorrect prunes) (hS : C.RemoveStops) (h : C.Visits X t)
    (k : Call) : InBounds (C.run X k t) ↔ ByteSafe (C.Arrives X t k) k.word := by
  obtain ⟨T, M, hrep⟩ := h.exists_rep hC hS
  constructor
  · intro hin u c v hk hu harr
    by_contra hc
    rcases run_cases hS hrep hu hc hk with ⟨-, t', hbad⟩ | ⟨hnot, -⟩
    · exact hin t' hbad
    · exact hnot harr
  · intro hall
    rcases ascii_or_exists k.word with hw | ⟨u, c, v, hk, hu, hc⟩
    · exact run_inBounds hC hrep hw
    · rcases run_cases hS hrep hu hc hk with ⟨harr, -⟩ | ⟨-, k', hk', hsame⟩
      · exact absurd (hall u c v hk hu harr) hc
      · rw [hsame]
        exact run_inBounds hC hrep hk'

end TrieClass

/-! ### All four classes -/

/-- In every state that is reached, a call of `insert`, `set`, `remove`, `contains` or `get`
with any word stays in bounds exactly when its walk does not get to a byte of `128` or more;
and different bytes that stay in bounds have different entries, in the nodes of all classes. -/
theorem index_inBounds (X : BucketIndexer) (addr : Slot → UInt64) (α β : Type)
    [Storage byteLayout α] [Inhabited β] :
    (∀ t, tinyTrie.Visits X t →
      ∀ k, InBounds (tinyTrie.run X k t) ↔ ByteSafe (tinyTrie.Arrives X t k) k.word) ∧
    (∀ t, (tinyTrie2 addr).Visits X t → ∀ k, InBounds ((tinyTrie2 addr).run X k t) ↔
      ByteSafe ((tinyTrie2 addr).Arrives X t k) k.word) ∧
    (∀ (t : TinyValueTrieState α) k, InBounds ((tinyValueTrie X).run k t) ↔
      ByteSafe ((tinyValueTrie X).Arrives t k) k.word) ∧
    (∀ t : ValueTrieState (ValueHeap β) ℕ, valueTrie.Visits ValueTrie.new t →
      ∀ k, InBounds (valueTrie.run k t) ↔ ByteSafe (valueTrie.Arrives t k) k.word) ∧
    ∀ (σ : Type) (c d : UInt8) (i : Fin 256) (t t' : σ),
      charIndex c t = .ok i t' → charIndex d t = .ok i t' → c = d := by
  refine ⟨fun t h k => h.inBounds_iff TinyTrie.removeCorrect TinyTrie.removeStops k,
    fun t h k => h.inBounds_iff (TinyTrie2.removeCorrect addr) (TinyTrie2.removeStops addr) k,
    fun t k => NodeStore.inBounds_iff (fun k hk => TinyValueTrie.run_inBounds hk t) k,
    fun t h k => ?_, fun σ c d i t t' => charIndex_inj⟩
  obtain ⟨V, M, hrep⟩ := ValueTrie.exists_rep h
  exact NodeStore.inBounds_iff (fun k hk => ValueTrie.run_inBounds hrep hk) k

namespace TrieClass

variable {C : TrieClass} {X : BucketIndexer} {t : Trie} {thrown : Bool} {S : Finset Word}

theorem Reach.visits (h : C.Reach X thrown t S) : C.Visits X t := by
  induction h with
  | create h₀ h => exact .create h₀ h
  | call _ _ hr ih => exact ih.call hr
  | overflow _ _ hr ih => exact ih.overflow hr

/-- Whether a call is out of bounds when two words are stored. -/
def strays (C : TrieClass) (k : Call) : Option Bool :=
  (Trie.created.bind (C.insertEach [[97, 98], [97, 98, 99]])).map fun t =>
    match C.run oneBucket k t with
    | .error .undefined _ => true
    | _ => false

end TrieClass

theorem tinyTrie_strays :
    tinyTrie.strays (.contains [98, 128]) = some false ∧
      tinyTrie.strays (.contains [97, 128]) = some true := by
  decide +kernel

/-- When only words with the first byte `97` are stored, the byte `128` is looked up after `97`, and
not after `98`. -/
theorem index_inBounds_stored :
    ∃ t, tinyTrie.Reach oneBucket false t {[97, 98], [97, 98, 99]} ∧
      InBounds (tinyTrie.run oneBucket (.contains [98, 128]) t) ∧
      ¬ InBounds (tinyTrie.run oneBucket (.contains [97, 128]) t) ∧
      ∀ k, InBounds (tinyTrie.run oneBucket k t) ↔
      ByteSafe (tinyTrie.Arrives oneBucket t k) k.word := by
  obtain ⟨hin, hout⟩ := tinyTrie_strays
  obtain ⟨t, ht, hin⟩ := Option.map_eq_some_iff.mp hin
  obtain ⟨t', ht', hout⟩ := Option.map_eq_some_iff.mp hout
  obtain rfl : t = t' := Option.some.inj (ht.symm.trans ht')
  obtain ⟨t₀, ht₀, hinsert⟩ := Option.bind_eq_some_iff.mp ht
  have h := TrieClass.Reach.of_insertEach (C := tinyTrie) (.of_created ht₀) (by simp) hinsert
  refine ⟨t, h, fun u hu => ?_, fun hbounds => ?_, (index_inBounds oneBucket
    (fun _ => 0) FourBytes ℕ).1 t h.visits⟩
  · rw [hu] at hin
    cases hin
  · split at hout
    next u hu => exact hbounds u hu
    next => cases hout

/-- Storing the word of the byte `128` is out of bounds in a new trie of each class. -/
theorem not_index_inBounds :
    (¬ ∀ X t, tinyTrie.Visits X t → ∀ k, InBounds (tinyTrie.run X k t)) ∧
    (¬ ∀ addr X t, (tinyTrie2 addr).Visits X t → ∀ k, InBounds ((tinyTrie2 addr).run X k t)) ∧
    (¬ ∀ X t₀ t, (∃ storage T₀, DerefTable.construct byteLayout X storage = some T₀ ∧
        TinyValueTrie.create X T₀ = .ok () t₀) → (tinyValueTrie (α := FourBytes) X).Visits t₀ t →
        ∀ k, InBounds ((tinyValueTrie X).run k t)) ∧
    ¬ ∀ t, (valueTrie (α := ℕ)).Visits ValueTrie.new t → ∀ k, InBounds (valueTrie.run k t) := by
  have hbyte : ∀ {arrives : Word → Prop}, arrives [] → ¬ ByteSafe arrives [128] := by
    intro arrives ha hsafe
    have := hsafe [] 128 [] rfl (by simp) ha
    revert this
    decide
  refine ⟨fun hall => ?_, fun hall => ?_, fun hall => ?_, fun hall => ?_⟩
  · obtain ⟨T₀, t, h₀, h⟩ := TrieClass.exists_create (X := oneBucket) fun _ _ => TrieNode.new
    have hv : tinyTrie.Visits oneBucket t := .create h₀ h
    refine hbyte ?_ ((hv.inBounds_iff TinyTrie.removeCorrect TinyTrie.removeStops
      (.insert [128])).mp (hall oneBucket t hv _))
    exact ⟨_, _, rfl⟩
  · obtain ⟨T₀, t, h₀, h⟩ := TrieClass.exists_create (X := oneBucket) fun _ _ => TrieNode.new
    have hv : (tinyTrie2 fun _ => 0).Visits oneBucket t := .create h₀ h
    refine hbyte ?_ ((hv.inBounds_iff (TinyTrie2.removeCorrect _) (TinyTrie2.removeStops _)
      (.insert [128])).mp (hall _ oneBucket t hv _))
    exact ⟨_, _, rfl⟩
  · obtain ⟨T₀, t, h₀, h, -⟩ := TinyValueTrie.exists_create ones
    have hin := hall oneBucket t t ⟨_, T₀, h₀, h⟩ .start (.set [128] default)
    refine hbyte ?_ ((NodeStore.inBounds_iff (fun k hk =>
      TinyValueTrie.run_inBounds hk t) _).mp hin)
    exact ⟨_, _, rfl⟩
  · obtain ⟨M, hrep⟩ := exists_rep_new (α := ℕ)
    have hin := hall ValueTrie.new .start (.set [128] 0)
    refine hbyte ?_ ((NodeStore.inBounds_iff (fun k hk => ValueTrie.run_inBounds hrep hk) _).mp hin)
    exact ⟨_, _, rfl⟩

end TinyPointerTrees
