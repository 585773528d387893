import TinyPointerTrees.Library.NodePlacement
import TinyPointerTrees.Trie.ValueNode

/-!
# A trie of values as a finite map

What the member functions of `Trie.ValueNode` do, for every node store that obeys
its laws: `NodeStore.Lawful`. The laws say that a node that was written is read
back, that an allocation answers a node that was not there, and that this node is
blank if the store had something clean to offer. `ValueMap` is what a trie is for:
a finite map, with the paths that were created. `Rep` relates the two.

* `Rep.run` — a call answers what the map does, and represents the map after the
  call, if every node that was allocated was clean.
* `Rep.inBounds` — no call with a word of bytes below `128` is undefined.
-/

namespace TinyPointerTrees

open NodePlacement

/-- The prefixes of a word. -/
def prefixes (w : Word) : Finset Word := w.inits.toFinset

@[simp] theorem mem_prefixes {p w : Word} : p ∈ prefixes w ↔ p <+: w := by
  rw [prefixes, List.mem_toFinset, List.mem_inits]

/-- A finite map from words, with the paths that were created for it. -/
structure ValueMap (α : Type) where
  /-- The value of a word. -/
  value : Word → Option α
  /-- The words that have one. -/
  words : Finset Word
  /-- The paths. -/
  paths : Finset Word
  mem_words : ∀ w, w ∈ words ↔ (value w).isSome
  subset : words ⊆ paths

namespace ValueMap

variable {α : Type} (V : ValueMap α) {w : Word} {v : α}

/-- No word has a value. -/
def empty : ValueMap α := ⟨fun _ => none, ∅, {[]}, by simp, by simp⟩

/-- The same map, with the paths of a word. -/
def create (w : Word) : ValueMap α :=
  ⟨V.value, V.words, V.paths ∪ prefixes w, V.mem_words, V.subset.trans Finset.subset_union_left⟩

/-- Another value for a word. -/
def set (w : Word) (v : α) : ValueMap α where
  value := Function.update V.value w (some v)
  words := insert w V.words
  paths := V.paths ∪ prefixes w
  mem_words u := by
    by_cases hu : u = w
    · subst hu
      simp
    · simp [hu, V.mem_words]
  subset := by
    intro u hu
    rcases Finset.mem_insert.mp hu with rfl | hu
    · exact Finset.mem_union_right _ (mem_prefixes.mpr (List.prefix_refl u))
    · exact Finset.mem_union_left _ (V.subset hu)

/-- No value for a word. -/
def remove (w : Word) : ValueMap α where
  value := Function.update V.value w none
  words := V.words.erase w
  paths := V.paths
  mem_words u := by
    by_cases hu : u = w
    · subst hu
      simp
    · simp [hu, V.mem_words]
  subset := (Finset.erase_subset w V.words).trans V.subset

/-- What the map answers to a call. -/
def answer : ValueCall α → ValueAnswer α
  | .set w _ => .flag (V.value w).isNone
  | .remove w => .flag (V.value w).isSome
  | .get w => .value (V.value w)

/-- The map after a call. -/
def effect : ValueCall α → ValueMap α
  | .set w v => V.set w v
  | .remove w => V.remove w
  | .get _ => V

/-- What the map answers to one call after the other. -/
def answers (V : ValueMap α) : List (ValueCall α) → List (ValueAnswer α)
  | [] => []
  | k :: calls => V.answer k :: (V.effect k).answers calls

/-- The map after some calls. -/
def after (V : ValueMap α) (calls : List (ValueCall α)) : ValueMap α := calls.foldl effect V

end ValueMap

namespace ValueNode

variable {P α : Type}

/-- A node that says nothing, to a trie over the bytes below `128`. -/
def Blank (null : P) (n : ValueNode P α) : Prop :=
  n.isTerminal = 0 ∧ ∀ c : UInt8, c < 128 → n.nodes (entryIdx c) = null

end ValueNode

/-- The state in which a call ends. -/
def endState {ε σ β : Type} : EStateM.Result ε σ β → σ
  | .ok _ s => s
  | .error _ s => s

/-- What is known of the states of a node store. -/
structure StoreSpec (μ A : Type) where
  /-- The invariant. -/
  Inv : μ → Prop
  /-- There is a node at an address, from an allocation. -/
  live : μ → A → Prop
  /-- What a new node at an address is made of is blank. -/
  clean : A → Prop
  /-- The number of nodes. -/
  size : μ → ℕ
  /-- An allocation can throw. -/
  throws : Prop

namespace NodeStore

variable {μ A P κ α : Type}

/-- What an allocation answers and leaves behind. -/
structure Allocated (S : NodeStore μ A P κ α) (D : StoreSpec μ A) (m m' : μ) (h : κ) (p : P)
    (a : A) : Prop where
  inv : D.Inv m'
  fresh : ¬ D.live m a
  live : ∀ b, D.live m' b ↔ b = a ∨ D.live m b
  read : ∀ b, D.live m b → S.read m' b = S.read m b
  size : D.size m' = D.size m + 1
  ne_null : p ≠ S.null
  dereference : S.dereference p h = .ok a
  blank : D.clean a → (S.read m' a).Blank S.null

/-- The laws of a node store. -/
structure Lawful (S : NodeStore μ A P κ α) (D : StoreSpec μ A) : Prop where
  valid : ∀ {m a}, D.live m a → S.valid m a = true
  inv_write : ∀ {m a n}, D.Inv m → D.live m a → D.Inv (S.write m a n)
  live_write : ∀ {m a n b}, D.live (S.write m a n) b ↔ D.live m b
  size_write : ∀ {m a n}, D.size (S.write m a n) = D.size m
  read_write_self : ∀ {m a n}, D.live m a → S.read (S.write m a n) a = n
  read_write_ne : ∀ {m a n b}, b ≠ a → S.read (S.write m a n) b = S.read m b
  write_write : ∀ {m a n n'}, S.write (S.write m a n) a n' = S.write m a n'
  live_allocate : ∀ {m h b}, D.live m b → D.live (S.allocate h m).2 b
  allocate : ∀ {m m' h p a}, D.Inv m → S.allocate h m = (.ok (p, a), m') → S.Allocated D m m' h p a
  throws : ∀ {m m' h e}, S.allocate h m = (.error e, m') → D.throws

/-- The key of a path. -/
def key (S : NodeStore μ A P κ α) (p : Word) : κ := p.foldl (fun h c => S.next c h) S.init

theorem key_append (S : NodeStore μ A P κ α) (p : Word) (c : UInt8) :
    S.key (p ++ [c]) = S.next c (S.key p) := by
  simp [key]

/-- A node says what the map does of its path; `kid` are the addresses of its children. -/
structure NodeOf (S : NodeStore μ A P κ α) (n : ValueNode P α) (o : Option α)
    (kid : UInt8 → Option A) (h : UInt8 → κ) : Prop where
  flag : n.terminal = o.isSome
  value : ∀ v, o = some v → n.value = v
  null : ∀ c, c < 128 → (n.nodes (entryIdx c) = S.null ↔ kid c = none)
  leads : ∀ c b, kid c = some b → S.dereference (n.nodes (entryIdx c)) (h c) = .ok b

section NodeOf

variable {S : NodeStore μ A P κ α} {n : ValueNode P α} {o : Option α} {kid : UInt8 → Option A}
  {h : UInt8 → κ} {c : UInt8}

/-- A blank node has no value and no children. -/
theorem NodeOf.blank (hn : n.Blank S.null) : S.NodeOf n none (fun _ => none) h := by
  refine ⟨?_, fun v hv => ?_, fun d hd => ?_, fun d u hu => ?_⟩
  · simp [ValueNode.terminal, hn.1]
  · cases hv
  · simp [hn.2 d hd]
  · cases hu

/-- A child is linked. -/
theorem NodeOf.link {ptr : P} {b : A} (hn : S.NodeOf n o kid h) (hnull : ptr ≠ S.null)
    (hd : S.dereference ptr (h c) = .ok b) :
    S.NodeOf (n.setNode (entryIdx c) ptr) o (Function.update kid c (some b)) h where
  flag := hn.flag
  value := hn.value
  null := by
    refine forall_entry (R := fun d p o => d < 128 → (p = S.null ↔ o = none)) kid (some b)
      (fun _ => ?_) fun d _ => hn.null d
    simp [hnull]
  leads := by
    refine forall_entry (R := fun d p o => ∀ u, o = some u → S.dereference p (h d) = .ok u) kid
      (some b) ?_ fun d _ => hn.leads d
    rintro u hu
    cases hu
    exact hd

end NodeOf

/-- The state of a trie represents a finite map; `M` says where the node of a path is. -/
structure Rep (S : NodeStore μ A P κ α) (D : StoreSpec μ A) (t : ValueTrieState μ A)
    (V : ValueMap α) (M : Word → Option A) : Prop where
  inv : D.Inv t.nodes
  size : D.size t.nodes = V.paths.card
  count : t.count = V.words.card
  root : M [] = some t.root
  dom : ∀ p, (M p).isSome ↔ p ∈ V.paths
  closed : ∀ p c, (M (p ++ [c])).isSome → (M p).isSome
  inj : ∀ p q a, M p = some a → M q = some a → p = q
  live : ∀ p a, M p = some a → D.live t.nodes a
  node : ∀ p a, M p = some a →
    S.NodeOf (S.read t.nodes a) (V.value p) (fun c => M (p ++ [c])) (fun c => S.key (p ++ [c]))

/-! ### The operations on nodes -/

section Operations

variable {S : NodeStore μ A P κ α} {D : StoreSpec μ A} {β γ : Type} {x : ValueM μ A β}
  {f : β → ValueM μ A γ} {t t' : ValueTrieState μ A} {a : A}

theorem load_ok (hv : S.valid t.nodes a = true) : S.load a t = .ok (S.read t.nodes a) t := by
  rw [load, bind_ok get_ok, if_pos hv]
  rfl

theorem store_ok (hv : S.valid t.nodes a = true) (n : ValueNode P α) :
    S.store a n t = .ok () { t with nodes := S.write t.nodes a n } := by
  rw [store, bind_ok get_ok, if_pos hv]
  rfl

theorem alloc_ok {h : κ} {r : P × A} {m : μ} (ha : S.allocate h t.nodes = (.ok r, m)) :
    S.alloc h t = .ok r { t with nodes := m } := by
  rw [alloc, bind_ok get_ok]
  simp only [ha]
  rfl

theorem alloc_error {h : κ} {e : OverflowError} {m : μ}
    (ha : S.allocate h t.nodes = (.error e, m)) :
    S.alloc h t = .error (.overflow e) { t with nodes := m } := by
  rw [alloc, bind_ok get_ok]
  simp only [ha]
  rfl

theorem deref_ok {p : P} {h : κ} (hd : S.dereference p h = .ok a) : S.deref p h t = .ok a t := by
  simp only [deref, hd]
  rfl

/-- No live node is lost. -/
def Keeps (D : StoreSpec μ A) (x : ValueM μ A β) : Prop :=
  ∀ t b, D.live t.nodes b → D.live (endState (x t)).nodes b

theorem Keeps.bind (hx : Keeps D x) (hf : ∀ b, Keeps D (f b)) : Keeps D (x >>= f) := by
  intro t a ha
  have hxt := hx t a ha
  cases hr : x t with
  | ok b t' =>
    rw [bind_ok hr]
    rw [hr] at hxt
    exact hf b t' a hxt
  | error e t' =>
    rw [bind_error hr]
    rwa [hr] at hxt

theorem Keeps.pure (b : β) : Keeps D (pure b) := fun _ _ h => h

theorem Keeps.throw (e : Fault) : Keeps D (throw e : ValueM μ A β) := fun _ _ h => h

theorem Keeps.get : Keeps D (MonadState.get : ValueM μ A _) := fun _ _ h => h

theorem Keeps.index (c : UInt8) : Keeps D (charIndex c) := by
  unfold charIndex
  split
  · exact .pure _
  · exact .throw _

theorem Keeps.load (a : A) : Keeps D (S.load a) := by
  refine Keeps.get.bind fun t => ?_
  split
  · exact .pure _
  · exact .throw _

theorem Keeps.store (hS : S.Lawful D) (a : A) (n : ValueNode P α) : Keeps D (S.store a n) := by
  intro t b hb
  rw [NodeStore.store, bind_ok get_ok]
  split
  · exact hS.live_write.mpr hb
  · exact hb

theorem Keeps.alloc (hS : S.Lawful D) (h : κ) : Keeps D (S.alloc h) := by
  intro t b hb
  have hlive : D.live (S.allocate h t.nodes).2 b := hS.live_allocate hb
  rcases ha : S.allocate h t.nodes with ⟨r, m⟩
  rw [ha] at hlive
  cases r with
  | ok r =>
    rw [alloc_ok ha]
    exact hlive
  | error e =>
    rw [alloc_error ha]
    exact hlive

theorem Keeps.deref (p : P) (h : κ) : Keeps D (S.deref p h) := by
  unfold NodeStore.deref
  split
  · exact .pure _
  · exact .throw _

theorem Keeps.modify {g : ValueTrieState μ A → ValueTrieState μ A}
    (hg : ∀ t, (g t).nodes = t.nodes) : Keeps D (modify g : ValueM μ A _) := by
  intro t b hb
  change D.live (g t).nodes b
  rwa [hg]

@[simp] theorem endState_map (g : β → γ) : endState ((g <$> x) t) = endState (x t) := by
  simp only [Functor.map, EStateM.map]
  cases x t <;> rfl

/-- What is live in the middle is live in the end. -/
theorem live_of_bind (hf : ∀ b, Keeps D (f b)) (ha : D.live (endState (x t)).nodes a) :
    D.live (endState ((x >>= f) t)).nodes a := by
  cases hx : x t with
  | ok b t' =>
    rw [bind_ok hx]
    rw [hx] at ha
    exact hf b t' a ha
  | error e t' =>
    rw [bind_error hx]
    rwa [hx] at ha

theorem Keeps.createNode [DecidableEq P] (hS : S.Lawful D) (w : Word) (a : A) (h : κ) :
    Keeps D (S.createNode w a h) := by
  induction w generalizing a h with
  | nil => exact .pure _
  | cons c w ih =>
    refine (Keeps.index c).bind fun i => (Keeps.load a).bind fun n => ?_
    split
    · exact (Keeps.alloc hS _).bind fun r => (Keeps.load a).bind fun n =>
        (Keeps.store hS _ _).bind fun _ => ih _ _
    · exact (Keeps.load a).bind fun n => (Keeps.deref _ _).bind fun b => ih _ _

end Operations

/-! ### What the walks do -/

/-- A call returns with `Q`, or an allocation throws. -/
def Sat {β : Type} (D : StoreSpec μ A) (r : EStateM.Result Fault (ValueTrieState μ A) β)
    (Q : β → ValueTrieState μ A → Prop) : Prop :=
  match r with
  | .ok b t => Q b t
  | .error (.overflow _) _ => D.throws
  | .error _ _ => False

section Walks

variable {S : NodeStore μ A P κ α} {D : StoreSpec μ A} {t : ValueTrieState μ A} {V : ValueMap α}
  {M : Word → Option A} {p w : Word} {a : A} {c : UInt8}

theorem Sat.bind {β γ : Type} {x : ValueM μ A β} {f : β → ValueM μ A γ}
    {Q : β → ValueTrieState μ A → Prop} {R : γ → ValueTrieState μ A → Prop} (h : Sat D (x t) Q)
    (hf : ∀ b t', x t = .ok b t' → Q b t' → Sat D (f b t') R) : Sat D ((x >>= f) t) R := by
  cases hx : x t with
  | ok b t' =>
    rw [bind_ok hx]
    rw [hx] at h
    exact hf b t' hx h
  | error e t' =>
    rw [bind_error hx]
    rw [hx] at h
    cases e with
    | overflow e => exact h
    | runtimeError what => exact h
    | undefined => exact h

theorem Sat.map {β γ : Type} {x : ValueM μ A β} {g : β → γ} {Q : β → ValueTrieState μ A → Prop}
    {R : γ → ValueTrieState μ A → Prop} (h : Sat D (x t) Q) (hg : ∀ b t', Q b t' → R (g b) t') :
    Sat D ((g <$> x) t) R := by
  simp only [Functor.map, EStateM.map]
  cases hx : x t with
  | ok b t' =>
    rw [hx] at h
    exact hg b t' h
  | error e t' =>
    rw [hx] at h
    cases e with
    | overflow e => exact h
    | runtimeError what => exact h
    | undefined => exact h

theorem Rep.valid (hS : S.Lawful D) (h : Rep S D t V M) (hp : M p = some a) :
    S.valid t.nodes a = true :=
  hS.valid (h.live p a hp)

/-- Different nodes have different addresses. -/
theorem Rep.placement (h : Rep S D t V M) : Placed (V.paths : Set Word) {b | D.live t.nodes b} M :=
  ⟨h.dom, h.inj, h.live⟩

theorem Rep.eq_none_of_append (h : Rep S D t V M) (hp : M p = none) (w : Word) :
    M (p ++ w) = none := by
  induction w using List.reverseRecOn with
  | nil => rwa [List.append_nil]
  | append_singleton w c ih =>
    by_contra hne
    have hsome := h.closed (p ++ w) c
      (by rw [List.append_assoc]; exact Option.isSome_iff_ne_none.mpr hne)
    simp [ih] at hsome

theorem Rep.value_eq_none (h : Rep S D t V M) (hp : M p = none) : V.value p = none := by
  by_contra hne
  have hmem := V.subset ((V.mem_words p).mpr (Option.isSome_iff_ne_none.mpr hne))
  rw [← h.dom, hp] at hmem
  cases hmem

/-- Storing into one node, with which the map changes at its path. -/
theorem Rep.write {n : ValueNode P α} (V' : ValueMap α) {k : ℕ} (hS : S.Lawful D)
    (h : Rep S D t V M) (hp : M p = some a) (hk : k = V'.words.card) (hpaths : V'.paths = V.paths)
    (hother : ∀ q, q ≠ p → V'.value q = V.value q)
    (hn : S.NodeOf n (V'.value p) (fun c => M (p ++ [c])) (fun c => S.key (p ++ [c]))) :
    Rep S D { t with nodes := S.write t.nodes a n, count := k } V' M := by
  have hlive := h.live p a hp
  refine ⟨hS.inv_write h.inv hlive, ?_, hk, h.root, fun q => by rw [h.dom, hpaths], h.closed, h.inj,
    fun q b hq => hS.live_write.mpr (h.live q b hq), fun q b hq => ?_⟩
  · rw [hS.size_write, h.size, hpaths]
  · by_cases hqp : q = p
    · subst hqp
      rw [hp, Option.some.injEq] at hq
      subst hq
      rwa [hS.read_write_self hlive]
    · have hne : b ≠ a := by
        rintro rfl
        exact hqp (h.inj q p b hq hp)
      rw [hS.read_write_ne hne, hother q hqp]
      exact h.node q b hq

/-- A new child `b`, which is linked to its parent. -/
theorem Rep.grow {m : μ} {ptr : P} {b : A} (hS : S.Lawful D) (h : Rep S D t V M) (hp : M p = some a)
    (hc : M (p ++ [c]) = none) (ha : S.Allocated D t.nodes m (S.key (p ++ [c])) ptr b)
    (hb : D.clean b) :
    Rep S D { t with nodes := S.write m a ((S.read m a).setNode (entryIdx c) ptr) }
      (V.create (p ++ [c])) (Function.update M (p ++ [c]) (some b)) := by
  have hlive := h.live p a hp
  have hm : D.live m a := (ha.live a).mpr (Or.inr hlive)
  have hab : a ≠ b := fun he => ha.fresh (he ▸ hlive)
  have hplaced := h.placement.insert (q := p ++ [c]) (b := b) ha.fresh
  -- the prefixes of the new path but itself are there already
  have hpaths : (V.create (p ++ [c])).paths = insert (p ++ [c]) V.paths := by
    ext q
    simp only [ValueMap.create, Finset.mem_union, mem_prefixes, Finset.mem_insert,
      List.prefix_concat_iff]
    constructor
    · rintro (hq | rfl | hq)
      · exact Or.inr hq
      · exact Or.inl rfl
      · obtain ⟨r, rfl⟩ := hq
        refine Or.inr ((h.dom q).mp (Option.isSome_iff_ne_none.mpr fun hnone => ?_))
        rw [h.eq_none_of_append hnone] at hp
        cases hp
    · rintro (rfl | hq)
      · exact Or.inr (Or.inl rfl)
      · exact Or.inl hq
  refine ⟨hS.inv_write ha.inv hm, ?_, h.count, ?_, fun q => ?_, fun q d hq => ?_, hplaced.inj,
    fun q d hq => ?_, fun q d hq => ?_⟩
  · have hnot : p ++ [c] ∉ V.paths := by simp [← h.dom, hc]
    rw [hS.size_write, ha.size, h.size, hpaths, Finset.card_insert_of_notMem hnot]
  · rw [Function.update_of_ne (by simp)]
    exact h.root
  · rw [hpaths, hplaced.dom]
    simp
  · by_cases hqc : q = p ++ [c]
    · simp [hqc]
    · rw [Function.update_of_ne hqc]
      by_cases hqd : q ++ [d] = p ++ [c]
      · obtain ⟨rfl, -⟩ := List.append_inj' hqd rfl
        simp [hp]
      · rw [Function.update_of_ne hqd] at hq
        exact h.closed q d hq
  · exact hS.live_write.mpr ((ha.live d).mpr (hplaced.live q d hq))
  · rcases update_eq_some hq with ⟨rfl, rfl⟩ | ⟨hqc, hq'⟩
    · -- the new node
      have hkid : (fun e => M (p ++ [c] ++ [e])) = fun _ => none :=
        funext fun e => h.eq_none_of_append hc [e]
      have hvalue : (V.create (p ++ [c])).value (p ++ [c]) = none := h.value_eq_none hc
      rw [hS.read_write_ne hab.symm, children_update_of_ne (by simp), hkid, hvalue]
      exact .blank (ha.blank hb)
    · by_cases hqp : q = p
      · -- its parent
        subst hqp
        rw [hp, Option.some.injEq] at hq'
        subst hq'
        rw [hS.read_write_self hm, ha.read a hlive, children_update_parent]
        exact (h.node q a hp).link ha.ne_null ha.dereference
      · -- another node
        rw [hS.read_write_ne (h.placement.ne hq' hp hqp), ha.read d (h.live q d hq'),
          children_update_of_ne hqp]
        exact h.node q d hq'

variable [DecidableEq P]

/-- `get_node` finds the node of a path, if there is one. -/
theorem Rep.getNode_eq (hS : S.Lawful D) (h : Rep S D t V M) (hw : ∀ d ∈ w, d < 128)
    (hp : M p = some a) : S.getNode w a (S.key p) t = .ok (M (p ++ w)) t := by
  induction w generalizing p a with
  | nil =>
    rw [List.append_nil, hp]
    rfl
  | cons c w ih =>
    have hc : c < 128 := hw c List.mem_cons_self
    have hload := load_ok (h.valid hS hp)
    have hn := h.node p a hp
    have happ : p ++ c :: w = p ++ [c] ++ w := by simp
    rw [getNode, bind_ok (charIndex_ok hc), bind_ok hload, ← key_append, happ]
    cases hpc : M (p ++ [c]) with
    | none =>
      rw [if_pos ((hn.null c hc).mpr hpc), h.eq_none_of_append hpc]
      rfl
    | some b =>
      rw [if_neg (fun he => by simp [(hn.null c hc).mp he] at hpc), bind_ok hload,
        bind_ok (deref_ok (hn.leads c b hpc))]
      exact ih (fun d hd => hw d (List.mem_cons_of_mem _ hd)) hpc

/-- `create_node` gets to the node of a path, which is then there, if what it allocates is clean. -/
theorem Rep.createNode_sat (hS : S.Lawful D) (h : Rep S D t V M) (hw : ∀ d ∈ w, d < 128)
    (hp : M p = some a)
    (hclean : ∀ b, D.live (endState (S.createNode w a (S.key p) t)).nodes b → D.clean b) :
    Sat D (S.createNode w a (S.key p) t) fun b t' => ∃ M', Rep S D t' (V.create (p ++ w)) M' ∧
      M' (p ++ w) = some b := by
  induction w generalizing p a t V M with
  | nil =>
    rw [List.append_nil]
    refine ⟨M, ?_, hp⟩
    -- the paths of a node are there already
    have hpaths : (V.create p).paths = V.paths := by
      refine Finset.union_eq_left.mpr fun q hq =>
        (h.dom q).mp (Option.isSome_iff_ne_none.mpr fun hnone => ?_)
      obtain ⟨r, rfl⟩ := mem_prefixes.mp hq
      rw [h.eq_none_of_append hnone] at hp
      cases hp
    exact ⟨h.inv, by rw [hpaths]; exact h.size, h.count, h.root,
      fun q => by rw [hpaths]; exact h.dom q, h.closed, h.inj,
      h.live, h.node⟩
  | cons c w ih =>
    have hc : c < 128 := hw c List.mem_cons_self
    have hw' : ∀ d ∈ w, d < 128 := fun d hd => hw d (List.mem_cons_of_mem _ hd)
    have hload := load_ok (h.valid hS hp)
    have hn := h.node p a hp
    have happ : p ++ c :: w = p ++ [c] ++ w := by simp
    -- the paths of the longer path contain those of the shorter one
    have hcreate : (V.create (p ++ [c])).create (p ++ [c] ++ w) = V.create (p ++ [c] ++ w) := by
      have hsub : prefixes (p ++ [c]) ⊆ prefixes (p ++ [c] ++ w) := fun r hr =>
        mem_prefixes.mpr ((mem_prefixes.mp hr).trans (List.prefix_append _ _))
      simp only [ValueMap.create, Finset.union_assoc, Finset.union_eq_right.mpr hsub]
    rw [createNode, bind_ok (charIndex_ok hc), bind_ok hload, ← key_append] at hclean ⊢
    rw [happ]
    cases hpc : M (p ++ [c]) with
    | none =>
      rw [if_pos ((hn.null c hc).mpr hpc)] at hclean ⊢
      rcases ha : S.allocate (S.key (p ++ [c])) t.nodes with ⟨r, m⟩
      cases r with
      | error e =>
        rw [bind_error (alloc_error ha)]
        exact hS.throws ha
      | ok r =>
        obtain ⟨ptr, b⟩ := r
        have hall := hS.allocate h.inv ha
        have hm : S.valid m a = true := hS.valid ((hall.live a).mpr (Or.inr (h.live p a hp)))
        rw [bind_ok (alloc_ok ha)] at hclean ⊢
        dsimp only at hclean ⊢
        rw [bind_ok (load_ok hm), bind_ok (store_ok hm _)] at hclean ⊢
        have hb : D.clean b := by
          refine hclean b (Keeps.createNode hS w b _ _ b ?_)
          exact hS.live_write.mpr ((hall.live b).mpr (Or.inl rfl))
        have hgrow := h.grow hS hp hpc hall hb
        rw [← hcreate]
        exact ih hgrow hw' (Function.update_self ..) hclean
    | some b =>
      rw [if_neg (fun he => by simp [(hn.null c hc).mp he] at hpc), bind_ok hload,
        bind_ok (deref_ok (hn.leads c b hpc))] at hclean ⊢
      exact ih h hw' hpc hclean

/-! ### What the calls do -/

theorem Rep.set_sat (hS : S.Lawful D) (h : Rep S D t V M) (hw : ∀ d ∈ w, d < 128) (v : α)
    (hclean : ∀ b, D.live (endState (S.set w v t)).nodes b → D.clean b) :
    Sat D (S.set w v t) fun r t' => r = (V.value w).isNone ∧ ∃ M', Rep S D t' (V.set w v) M' := by
  rw [set, bind_ok get_ok] at hclean ⊢
  have hcreate : Sat D (S.createNode w t.root S.init t) fun b t' =>
    ∃ M', Rep S D t' (V.create w) M' ∧ M' w = some b := by
    refine h.createNode_sat (p := []) hS hw h.root fun b hb => hclean b ?_
    refine live_of_bind (fun a => ?_) hb
    refine (Keeps.load a).bind fun n => (Keeps.store hS _ _).bind fun _ =>
      (Keeps.load a).bind fun n => ?_
    refine (Keeps.load a).bind fun n => (Keeps.store hS _ _).bind fun _ =>
      (Keeps.modify ?_).bind fun _ => .pure _
    exact fun _ => rfl
  refine hcreate.bind fun a t' _ => ?_
  rintro ⟨M', hrep, hp⟩
  have hlive := hrep.live w a hp
  have hval : ∀ n, S.valid (S.write t'.nodes a n) a = true :=
    fun n => hS.valid (hS.live_write.mpr hlive)
  have hn := hrep.node w a hp
  have hflag : (S.read t'.nodes a).terminal = (V.value w).isSome := hn.flag
  rw [bind_ok (load_ok (hS.valid hlive)), bind_ok (store_ok (hS.valid hlive) _),
    bind_ok (load_ok (hval _)), bind_ok (load_ok (hval _)), bind_ok (store_ok (hval _) _)]
  simp only [hS.read_write_self hlive, hS.write_write]
  refine ⟨?_, M', hrep.write (V.set w v) hS hp ?_ rfl (fun q hq => Function.update_of_ne hq ..) ?_⟩
  · change (!(S.read t'.nodes a).terminal) = _
    rw [hflag, Option.not_isSome]
  · -- one word more, unless it had a value
    change t'.count + (!(S.read t'.nodes a).terminal).toNat = (insert w V.words).card
    rw [hrep.count, hflag]
    by_cases hw : w ∈ V.words
    · have hsome := (V.mem_words w).mp hw
      rw [Finset.insert_eq_of_mem hw, hsome]
      rfl
    · have hnone : (V.value w).isSome = false := by simpa [V.mem_words] using hw
      rw [Finset.card_insert_of_notMem hw, hnone]
      rfl
  · refine ⟨?_, fun u hu => ?_, hn.null, hn.leads⟩
    · simp [ValueMap.set, ValueNode.terminal]
    · simpa [ValueMap.set] using hu

theorem Rep.remove_eq (hS : S.Lawful D) (h : Rep S D t V M) (hw : ∀ d ∈ w, d < 128) :
    ∃ t' M', S.remove w t = .ok (V.value w).isSome t' ∧ Rep S D t' (V.remove w) M' := by
  have hget : S.getNode w t.root S.init t = .ok (M w) t := h.getNode_eq (p := []) hS hw h.root
  have hsame : V.value w = none → V.remove w = V := by
    intro hnone
    have hmem : w ∉ V.words := by simp [V.mem_words, hnone]
    cases V
    simp only [ValueMap.remove, ValueMap.mk.injEq, Finset.erase_eq_of_notMem hmem, and_true]
    rw [Function.update_eq_self_iff]
    exact hnone.symm
  rw [remove, bind_ok get_ok, bind_ok hget]
  cases hp : M w with
  | none =>
    have hnone := h.value_eq_none hp
    refine ⟨t, M, by rw [hnone]; rfl, ?_⟩
    rw [hsame hnone]
    exact h
  | some a =>
    have hlive := h.live w a hp
    have hn := h.node w a hp
    dsimp only
    rw [bind_ok (load_ok (hS.valid hlive)), hn.flag]
    cases hv : V.value w with
    | none =>
      refine ⟨t, M, rfl, ?_⟩
      rw [hsame hv]
      exact h
    | some v =>
      rw [Option.isSome_some, if_pos rfl, bind_ok (load_ok (hS.valid hlive)),
        bind_ok (store_ok (hS.valid hlive) _)]
      refine ⟨_, M, rfl, h.write (V.remove w) hS hp ?_ rfl (fun q hq =>
        Function.update_of_ne hq ..) ?_⟩
      · have hmem : w ∈ V.words := (V.mem_words w).mpr (by rw [hv]; rfl)
        change t.count - 1 = (V.words.erase w).card
        rw [Finset.card_erase_of_mem hmem, h.count]
      · refine ⟨?_, fun u hu => ?_, hn.null, hn.leads⟩
        · simp [ValueMap.remove, ValueNode.terminal]
        · simp [ValueMap.remove] at hu

theorem Rep.get_eq (hS : S.Lawful D) (h : Rep S D t V M) (hw : ∀ d ∈ w, d < 128) :
    S.get w t = .ok (V.value w) t := by
  have hget : S.getNode w t.root S.init t = .ok (M w) t := h.getNode_eq (p := []) hS hw h.root
  rw [NodeStore.get, bind_ok get_ok, bind_ok hget]
  cases hp : M w with
  | none =>
    rw [h.value_eq_none hp]
    rfl
  | some a =>
    have hn := h.node w a hp
    dsimp only
    rw [bind_ok (load_ok (h.valid hS hp)), hn.flag]
    cases hv : V.value w with
    | none => rfl
    | some v =>
      rw [Option.isSome_some, if_pos rfl, hn.value v hv]
      rfl

/-- A call answers what the map does, if what it allocates is clean. -/
theorem Rep.run (hS : S.Lawful D) (h : Rep S D t V M) {k : ValueCall α} (hk : k.Ascii)
    (hclean : ∀ b, D.live (endState (S.run k t)).nodes b → D.clean b) :
    Sat D (S.run k t) fun r t' => r = V.answer k ∧ ∃ M', Rep S D t' (V.effect k) M' := by
  cases k with
  | set w v =>
    refine (h.set_sat hS hk v fun b hb => hclean b ?_).map ?_
    · rwa [NodeStore.run, endState_map]
    · rintro b t' ⟨rfl, hrep⟩
      exact ⟨rfl, hrep⟩
  | remove w =>
    obtain ⟨t', M', hr, hrep⟩ := h.remove_eq (w := w) hS hk
    rw [NodeStore.run, map_ok hr]
    exact ⟨rfl, M', hrep⟩
  | get w =>
    rw [NodeStore.run, map_ok (h.get_eq (w := w) hS hk)]
    exact ⟨rfl, M, h⟩

theorem Keeps.run (hS : S.Lawful D) (k : ValueCall α) : Keeps D (S.run k) := by
  have hget : ∀ (w : Word) (a : A) (h : κ), Keeps D (S.getNode w a h) := by
    intro w
    induction w with
    | nil => exact fun a h => .pure _
    | cons c w ih =>
      intro a h
      refine (Keeps.index c).bind fun i => (Keeps.load a).bind fun n => ?_
      split
      · exact .pure _
      · exact (Keeps.load a).bind fun n => (Keeps.deref _ _).bind fun b => ih _ _
  cases k with
  | set w v =>
    intro t b hb
    rw [NodeStore.run, endState_map]
    refine (Keeps.get.bind fun t => (Keeps.createNode hS w _ _).bind fun a => ?_) t b hb
    refine (Keeps.load a).bind fun n => (Keeps.store hS _ _).bind fun _ =>
      (Keeps.load a).bind fun n => ?_
    refine (Keeps.load a).bind fun n => (Keeps.store hS _ _).bind fun _ =>
      (Keeps.modify ?_).bind fun _ => .pure _
    exact fun _ => rfl
  | remove w =>
    intro t b hb
    rw [NodeStore.run, endState_map]
    refine (Keeps.get.bind fun t => (hget w _ _).bind fun o => ?_) t b hb
    cases o with
    | none => exact .pure _
    | some a =>
      refine (Keeps.load a).bind fun n => ?_
      split
      · refine (Keeps.load a).bind fun n => (Keeps.store hS _ _).bind fun _ =>
          (Keeps.modify ?_).bind fun _ => .pure _
        exact fun _ => rfl
      · exact .pure _
  | get w =>
    intro t b hb
    rw [NodeStore.run, endState_map]
    refine (Keeps.get.bind fun t => (hget w _ _).bind fun o => ?_) t b hb
    cases o with
    | none => exact .pure _
    | some a =>
      refine (Keeps.load a).bind fun n => ?_
      split
      · exact .pure _
      · exact .pure _

theorem Keeps.runs (hS : S.Lawful D) (calls : List (ValueCall α)) : Keeps D (S.runs calls) := by
  induction calls with
  | nil => exact .pure _
  | cons k calls ih => exact (Keeps.run hS k).bind fun r => ih.bind fun _ => .pure _

/-- Calls answer what the map does, if what they allocate is clean. -/
theorem Rep.runs (hS : S.Lawful D) (h : Rep S D t V M) {calls : List (ValueCall α)}
    (hcalls : ∀ k ∈ calls, k.Ascii)
    (hclean : ∀ b, D.live (endState (S.runs calls t)).nodes b → D.clean b) :
    Sat D (S.runs calls t) fun r t' => r = V.answers calls ∧
      ∃ M', Rep S D t' (V.after calls) M' := by
  induction calls generalizing t V M with
  | nil => exact ⟨rfl, M, h⟩
  | cons k calls ih =>
    rw [NodeStore.runs] at hclean ⊢
    have hrun := h.run hS (hcalls k List.mem_cons_self) fun b hb =>
      hclean b (live_of_bind (fun r => (Keeps.runs hS calls).bind fun _ => .pure _) hb)
    refine hrun.bind ?_
    rintro r t' hr ⟨rfl, M', hrep⟩
    rw [bind_ok hr] at hclean
    have hruns := ih hrep (fun k hk => hcalls k (List.mem_cons_of_mem _ hk)) fun b hb =>
      hclean b (live_of_bind (fun _ => .pure _) hb)
    refine hruns.bind ?_
    rintro r t'' - ⟨rfl, hrep'⟩
    exact ⟨rfl, hrep'⟩

omit [DecidableEq P] in
/-- A new trie represents the empty map, if its root is clean. -/
theorem Rep.create {m : μ} (nowhere : A) {h : κ} (hS : S.Lawful D) (hinv : D.Inv m)
    (hsize : D.size m = 0) (hcreate : S.create h m nowhere = .ok () t)
    (hclean : ∀ b, D.live t.nodes b → D.clean b) : ∃ M, Rep S D t .empty M := by
  rw [NodeStore.create] at hcreate
  rcases ha : S.allocate h m with ⟨r, m'⟩
  cases r with
  | error e =>
    rw [bind_error (alloc_error (t := ⟨m, nowhere, 0⟩) ha)] at hcreate
    cases hcreate
  | ok r =>
    obtain ⟨p, a⟩ := r
    rw [bind_ok (alloc_ok (t := ⟨m, nowhere, 0⟩) ha)] at hcreate
    cases hcreate
    have hall := hS.allocate hinv ha
    have hblank := hall.blank (hclean a ((hall.live a).mpr (Or.inl rfl)))
    refine ⟨fun q => if q = [] then some a else none, hall.inv, ?_, rfl, by simp, fun q => ?_,
      fun q c hq => ?_, fun q r b hq hr => ?_, fun q b hq => ?_, fun q b hq => ?_⟩
    · change D.size m' = _
      rw [hall.size, hsize]
      rfl
    · by_cases hq : q = [] <;> simp [hq, ValueMap.empty]
    · simp at hq
    · simp only [Option.ite_none_right_eq_some] at hq hr
      rw [hq.1, hr.1]
    · simp only [Option.ite_none_right_eq_some, Option.some.injEq] at hq
      exact (hall.live b).mpr (Or.inl hq.2.symm)
    · simp only [Option.ite_none_right_eq_some, Option.some.injEq] at hq
      obtain ⟨rfl, rfl⟩ := hq
      refine ⟨?_, by simp [ValueMap.empty], fun c hc => ?_, by simp⟩
      · simp [ValueMap.empty, ValueNode.terminal, hblank.1]
      · simp [hblank.2 c hc]

end Walks

end NodeStore

end TinyPointerTrees
