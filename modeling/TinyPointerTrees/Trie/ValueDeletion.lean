import TinyPointerTrees.Library.TreeDeletion
import TinyPointerTrees.Trie.ValueTrie

/-!
# What a `ValueTrie` deletes

`Node::delete_children` and the destructor of `ValueTrie`, which deletes the children of
the root. The nodes that have been deleted are listed, the last one first, and nothing is
the answer when one of them is read, written or deleted again.

The pointers of a node that no byte below `128` leads to are null in every trie (`Low`),
but the destructor reads them too.

`destroy_leaves_root` — after every run the destructor deletes every node but the root,
and none twice; the root is never deleted.
-/

namespace TinyPointerTrees

open NodeStore TreeDeletion

variable {α : Type}

/-! ### The pointers that are never written -/

section Low

variable {β γ : Type} {Q : β → Prop} {R : γ → Prop} {x : ValueM (ValueHeap α) ℕ β}
  {f : β → ValueM (ValueHeap α) ℕ γ}

/-- Only bytes below `128` lead from a node. -/
def ValueNode.Low (n : ValueNode (Option ℕ) α) : Prop :=
  ∀ i : Fin 256, 128 ≤ i.val → n.nodes i = none

/-- So it is for all nodes. -/
def ValueHeap.Low (m : ValueHeap α) : Prop := ∀ n ∈ m.nodes, n.Low

/-- It stays so, and what is answered meets `Q`. -/
def KeepsLow (Q : β → Prop) (x : ValueM (ValueHeap α) ℕ β) : Prop :=
  ∀ t, t.nodes.Low → (endState (x t)).nodes.Low ∧ ∀ b t', x t = .ok b t' → Q b

theorem KeepsLow.bind (hx : KeepsLow Q x) (hf : ∀ b, Q b → KeepsLow R (f b)) :
    KeepsLow R (x >>= f) := by
  intro t ht
  obtain ⟨hlow, hQ⟩ := hx t ht
  cases hr : x t with
  | ok b t' =>
    rw [hr] at hlow
    rw [bind_ok hr]
    exact hf b (hQ b t' hr) t' hlow
  | error e t' =>
    rw [hr] at hlow
    rw [bind_error hr]
    exact ⟨hlow, fun b t'' h => by cases h⟩

theorem KeepsLow.pure {b : β} (hb : Q b) : KeepsLow (α := α) Q (pure b) := fun t ht =>
  ⟨ht, fun c t' h => by cases h; exact hb⟩

theorem KeepsLow.throw (e : Fault) : KeepsLow (α := α) Q (throw e) :=
  fun t ht => ⟨ht, fun c t' h => by cases h⟩

theorem KeepsLow.get : KeepsLow (α := α) (fun _ => True) MonadState.get :=
  fun _ ht => ⟨ht, fun _ _ _ => trivial⟩

theorem KeepsLow.modify {g : ValueTrieState (ValueHeap α) ℕ → ValueTrieState (ValueHeap α) ℕ}
    (hg : ∀ t, (g t).nodes = t.nodes) :
    KeepsLow (fun _ => True) (modify g : ValueM (ValueHeap α) ℕ _) := by
  intro t ht
  refine ⟨?_, fun _ _ _ => trivial⟩
  change (g t).nodes.Low
  rwa [hg]

theorem KeepsLow.index (c : UInt8) :
    KeepsLow (α := α) (fun i : Fin 256 => i.val < 128) (charIndex c) := by
  unfold charIndex
  split
  · exact .pure ‹_›
  · exact .throw _

/-- A pointer that is written is that of a byte below `128`. -/
theorem ValueNode.Low.setNode {n : ValueNode (Option ℕ) α} (h : n.Low) {i : Fin 256}
    (hi : i.val < 128) (p : Option ℕ) : (n.setNode i p).Low := by
  intro j hj
  have hne : j ≠ i := by
    rintro rfl
    omega
  exact (Function.update_of_ne hne ..).trans (h j hj)

variable [Inhabited α]

theorem ValueHeap.Low.read {m : ValueHeap α} (h : m.Low) (a : ℕ) : (valueTrie.read m a).Low := by
  change (m.nodes[a]?.getD .new).Low
  cases ha : m.nodes[a]? with
  | none => exact fun _ _ => rfl
  | some n => exact h n (List.mem_of_getElem? ha)

theorem KeepsLow.load (a : ℕ) :
    KeepsLow (fun n : ValueNode (Option ℕ) α => n.Low) (valueTrie.load a) := by
  intro t ht
  rw [NodeStore.load, bind_ok get_ok]
  split
  · exact ⟨ht, fun n t' h => by cases h; exact ht.read a⟩
  · exact ⟨ht, fun n t' h => by cases h⟩

theorem KeepsLow.store (a : ℕ) {n : ValueNode (Option ℕ) α} (hn : n.Low) :
    KeepsLow (fun _ => True) (valueTrie.store a n) := by
  intro t ht
  refine ⟨?_, fun _ _ _ => trivial⟩
  rw [NodeStore.store, bind_ok get_ok]
  split
  · intro n' hn'
    rcases List.mem_or_eq_of_mem_set hn' with hn' | rfl
    · exact ht n' hn'
    · exact hn
  · exact ht

theorem KeepsLow.alloc : KeepsLow (α := α) (fun _ => True) (valueTrie.alloc ()) := by
  intro t ht
  refine ⟨?_, fun _ _ _ => trivial⟩
  intro n hn
  rcases List.mem_append.mp hn with hn | hn
  · exact ht n hn
  · rw [List.mem_singleton.mp hn]
    exact fun _ _ => rfl

theorem KeepsLow.deref (p : Option ℕ) :
    KeepsLow (α := α) (fun _ => True) (valueTrie.deref p ()) := by
  unfold NodeStore.deref
  split
  · exact .pure trivial
  · exact .throw _

theorem KeepsLow.createNode (w : Word) (a : ℕ) :
    KeepsLow (α := α) (fun _ => True) (valueTrie.createNode w a ()) := by
  induction w generalizing a with
  | nil => exact .pure trivial
  | cons c w ih =>
    refine (KeepsLow.index c).bind fun i hi => (KeepsLow.load a).bind fun n _ => ?_
    split
    · refine KeepsLow.alloc.bind fun r _ => (KeepsLow.load a).bind fun n hn => ?_
      exact (KeepsLow.store a (hn.setNode hi _)).bind fun _ _ => ih _
    · exact (KeepsLow.load a).bind fun n _ => (KeepsLow.deref _).bind fun b _ => ih b

theorem KeepsLow.getNode (w : Word) (a : ℕ) :
    KeepsLow (α := α) (fun _ => True) (valueTrie.getNode w a ()) := by
  induction w generalizing a with
  | nil => exact .pure trivial
  | cons c w ih =>
    refine (KeepsLow.index c).bind fun i _ => (KeepsLow.load a).bind fun n _ => ?_
    split
    · exact .pure trivial
    · exact (KeepsLow.load a).bind fun n _ => (KeepsLow.deref _).bind fun b _ => ih b

theorem KeepsLow.run (k : ValueCall α) : KeepsLow (fun _ => True) (valueTrie.run k) := by
  cases k with
  | set w v =>
    rw [NodeStore.run, map_eq_pure_bind]
    refine KeepsLow.bind (Q := fun _ => True) ?_ fun b _ => .pure trivial
    refine KeepsLow.get.bind fun t _ => (KeepsLow.createNode w _).bind fun a _ =>
      (KeepsLow.load a).bind fun n hn => ?_
    refine (KeepsLow.store a (n := { n with value := v }) hn).bind fun _ _ =>
      (KeepsLow.load a).bind fun n _ => ?_
    refine (KeepsLow.load a).bind fun n hn =>
      (KeepsLow.store a (n := { n with isTerminal := 1 }) hn).bind fun _ _ => ?_
    refine (KeepsLow.modify ?_).bind fun _ _ => .pure trivial
    exact fun _ => rfl
  | remove w =>
    rw [NodeStore.run, map_eq_pure_bind]
    refine KeepsLow.bind (Q := fun _ => True) ?_ fun b _ => .pure trivial
    refine KeepsLow.get.bind fun t _ => (KeepsLow.getNode w _).bind fun o _ => ?_
    cases o with
    | none => exact .pure trivial
    | some a =>
      refine (KeepsLow.load a).bind fun n _ => ?_
      split
      · refine (KeepsLow.load a).bind fun n hn =>
          (KeepsLow.store a (n := { n with isTerminal := 0 }) hn).bind fun _ _ => ?_
        refine (KeepsLow.modify ?_).bind fun _ _ => .pure trivial
        exact fun _ => rfl
      · exact .pure trivial
  | get w =>
    rw [NodeStore.run, map_eq_pure_bind]
    refine KeepsLow.bind (Q := fun _ => True) ?_ fun b _ => .pure trivial
    refine KeepsLow.get.bind fun t _ => (KeepsLow.getNode w _).bind fun o _ => ?_
    cases o with
    | none => exact .pure trivial
    | some a =>
      refine (KeepsLow.load a).bind fun n _ => ?_
      split <;> exact .pure trivial

theorem KeepsLow.runs (calls : List (ValueCall α)) :
    KeepsLow (fun _ => True) (valueTrie.runs calls) := by
  induction calls with
  | nil => exact .pure trivial
  | cons k calls ih => exact (KeepsLow.run k).bind fun r _ => ih.bind fun _ _ => .pure trivial

end Low

/-! ### The destructor -/

variable [Inhabited α]

/-- The children of the nodes. `child = nullptr` writes the array they are in. -/
def ValueTrie.childLinks : Links (ValueHeap α) ℕ (Fin 256) where
  keys := List.finRange 256
  child m node i := (valueTrie.read m node).nodes i
  unlink node i m deleted :=
    if node ∈ deleted then none else
      some (valueTrie.write m node ((valueTrie.read m node).setNode i none))

/-- `delete_children`, when the nodes `deleted` have been deleted. -/
def ValueTrie.deleteChildren (fuel node : ℕ) (m : ValueHeap α) (deleted : List ℕ) :
    Option (ValueHeap α × List ℕ) :=
  deleteBelow ValueTrie.childLinks fuel node (m, deleted)

/-- `~ValueTrie()`. -/
def ValueTrie.destroy (fuel : ℕ) (t : ValueTrieState (ValueHeap α) ℕ) :
    Option (ValueHeap α × List ℕ) :=
  ValueTrie.deleteChildren fuel t.root t.nodes []

/-! ### What it deletes -/

section Deletion

variable {t : ValueTrieState (ValueHeap α) ℕ} {V : ValueMap α} {M : Word → Option ℕ}

theorem ValueTrie.childLinks_keys : (ValueTrie.childLinks (α := α)).keys = List.finRange 256 := by
  rw [ValueTrie.childLinks]

theorem ValueTrie.childLinks_lawful : (ValueTrie.childLinks (α := α)).Lawful where
  nodup := ValueTrie.childLinks_keys (α := α) ▸ List.nodup_finRange 256
  unlink node i m deleted hnode := by
    refine ⟨_, if_neg hnode, fun a j hne => ?_⟩
    change (valueTrie.read (valueTrie.write m node _) a).nodes j = (valueTrie.read m a).nodes j
    by_cases ha : a = node
    · subst ha
      have hj : j ≠ i := hne.resolve_left (not_not.mpr rfl)
      by_cases hlive : a < m.nodes.length
      · rw [valueTrie_lawful.read_write_self (D := heapSpec) hlive]
        exact Function.update_of_ne hj ..
      · change ((m.nodes.set a _)[a]?.getD .new).nodes j = _
        rw [List.set_eq_of_length_le (not_lt.mp hlive)]
        rfl
    · rw [valueTrie_lawful.read_write_ne (D := heapSpec) ha]

/-- The indices that lead along a word. -/
def indices (w : Word) : List (Fin 256) := w.map entryIdx

theorem indices_inj {u w : Word} (h : indices u = indices w) : u = w :=
  List.map_injective_iff.mpr (fun _ _ => entryIdx_inj.mp) h

/-- The indices lead along a word, to its node. -/
def LeadsTo (M : Word → Option ℕ) (p : List (Fin 256)) (a : ℕ) : Prop :=
  ∃ w, indices w = p ∧ M w = some a

theorem leadsTo_concat {w : Word} {d : Fin 256} {a : ℕ} :
    LeadsTo M (indices w ++ [d]) a ↔ M (w ++ [.ofFin d]) = some a := by
  have happ : indices (w ++ [.ofFin d]) = indices w ++ [d] := by simp [indices, entryIdx]
  constructor
  · rintro ⟨u, hu, ha⟩
    rwa [indices_inj (hu.trans happ.symm)] at ha
  · exact fun ha => ⟨_, happ, ha⟩

theorem NodeStore.Rep.placed (h : NodeStore.Rep valueTrie heapSpec t V M) :
    Placed (ValueTrie.childLinks (α := α)) (LeadsTo M) where
  path := by
    rintro p q i ⟨w, rfl, hw⟩ ⟨u, rfl, hu⟩
    rw [h.inj w u i hw hu]
  node := by
    rintro p i j ⟨w, rfl, hw⟩ ⟨u, hu, hu'⟩
    rw [indices_inj hu] at hu'
    exact Option.some.inj (hw.symm.trans hu')
  parent := by
    rintro p k j ⟨w, hw, hj⟩
    refine ⟨ValueTrie.childLinks_keys (α := α) ▸ List.mem_finRange k, ?_⟩
    rcases w.eq_nil_or_concat' with rfl | ⟨u, c, rfl⟩
    · simp [indices] at hw
    · have hu : indices u = p := by
        rw [indices, List.map_append] at hw
        exact (List.append_inj' hw rfl).1
      obtain ⟨i, hi⟩ := Option.isSome_iff_exists.mp
        (h.closed u c (Option.isSome_iff_exists.mpr ⟨j, hj⟩))
      exact ⟨i, u, hu, hi⟩

/-- The nodes are linked as the words say. -/
theorem NodeStore.Rep.linked (h : NodeStore.Rep valueTrie heapSpec t V M) (hlow : t.nodes.Low)
    (hV : ∀ w ∈ V.paths, ∀ c ∈ w, c < 128) :
    Linked (ValueTrie.childLinks (α := α)) (LeadsTo M) t.nodes [] := by
  rintro p a - ⟨w, rfl, hw⟩ d - l
  have hd : entryIdx (.ofFin d) = d := Fin.ext (by simp [entryIdx])
  rw [leadsTo_concat]
  change (valueTrie.read t.nodes a).nodes d = some l ↔ _
  by_cases hlt : d.val < 128
  · have hn := h.node w a hw
    have hnull := hn.null (.ofFin d) (UInt8.lt_iff_toNat_lt.mpr (by simpa using hlt))
    rw [hd] at hnull
    cases hM : M (w ++ [.ofFin d]) with
    | none => simp [show (valueTrie.read t.nodes a).nodes d = none from hnull.mpr hM]
    | some b =>
      have hleads := hn.leads (.ofFin d) b hM
      rw [hd] at hleads
      cases hp : (valueTrie.read t.nodes a).nodes d with
      | none =>
        rw [hp] at hleads
        cases hleads
      | some p =>
        rw [hp] at hleads
        cases hleads
        rfl
  · -- no word leads there
    have hnone : M (w ++ [.ofFin d]) = none := by
      by_contra hne
      have hc := hV _ ((h.dom _).mp (Option.isSome_iff_ne_none.mpr hne)) (.ofFin d) (by simp)
      rw [UInt8.lt_iff_toNat_lt] at hc
      exact hlt (by simpa using hc)
    rw [hnone, hlow.read a d (not_lt.mp hlt)]

theorem NodeStore.Rep.card_paths (h : NodeStore.Rep valueTrie heapSpec t V M) :
    V.paths.card = t.nodes.nodes.length :=
  h.size.symm.trans h.inv

/-- There are as many paths as nodes, so every node is on one. -/
theorem NodeStore.Rep.exists_path (h : NodeStore.Rep valueTrie heapSpec t V M) {a : ℕ}
    (ha : a < t.nodes.nodes.length) : ∃ w, M w = some a := by
  have hsome : ∀ w ∈ V.paths, M w = some ((M w).getD 0) := fun w hw => by
    obtain ⟨b, hb⟩ := Option.isSome_iff_exists.mp ((h.dom w).mpr hw)
    rw [hb, Option.getD_some]
  have hinj : Set.InjOn (fun w => (M w).getD 0) V.paths := fun u hu w hw he => by
    refine h.inj u w _ (hsome u hu) ?_
    rw [hsome w hw]
    exact congrArg some he.symm
  have hsub : V.paths.image (fun w => (M w).getD 0) ⊆ Finset.range t.nodes.nodes.length := by
    intro b hb
    obtain ⟨w, hw, rfl⟩ := Finset.mem_image.mp hb
    exact Finset.mem_range.mpr (h.live w _ (hsome w hw))
  have heq := Finset.eq_of_subset_of_card_le hsub
    (by rw [Finset.card_range, Finset.card_image_of_injOn hinj, h.card_paths])
  obtain ⟨w, hw, hwa⟩ := Finset.mem_image.mp (heq ▸ Finset.mem_range.mpr ha)
  exact ⟨w, hwa ▸ hsome w hw⟩

/-- The prefixes of a path are paths, so it is shorter than there are nodes. -/
theorem NodeStore.Rep.length_lt (h : NodeStore.Rep valueTrie heapSpec t V M) {w : Word} {a : ℕ}
    (hw : M w = some a) : w.length < t.nodes.nodes.length := by
  have hmaps : ∀ k ∈ Finset.range (w.length + 1), w.take k ∈ V.paths := by
    intro k _
    rw [← h.dom, Option.isSome_iff_ne_none]
    intro hnone
    have := h.eq_none_of_append hnone (w.drop k)
    rw [List.take_append_drop, hw] at this
    cases this
  have hinj : Set.InjOn (fun k => w.take k) (Finset.range (w.length + 1)) := by
    intro k hk l hl he
    have := congrArg List.length he
    simp only [List.length_take, Finset.coe_range, Set.mem_Iio] at this hk hl
    omega
  have := Finset.card_le_card_of_injOn _ hmaps hinj
  rw [Finset.card_range, h.card_paths] at this
  exact this

/-- The nodes below the root are deleted, and all are but the root. -/
theorem NodeStore.Rep.destroy (h : NodeStore.Rep valueTrie heapSpec t V M) (hlow : t.nodes.Low)
    (hV : ∀ w ∈ V.paths, ∀ c ∈ w, c < 128) {fuel : ℕ} (hfuel : t.nodes.nodes.length ≤ fuel) :
    ∃ m deleted, ValueTrie.destroy fuel t = some (m, deleted) ∧ deleted.Nodup ∧
      ∀ a, a ∈ deleted ↔ a ≠ t.root ∧ a < t.nodes.nodes.length := by
  have hbound : ∀ p a, LeadsTo M p a → p.length < t.nodes.nodes.length := by
    rintro p a ⟨w, rfl, hw⟩
    rw [indices, List.length_map]
    exact h.length_lt hw
  obtain ⟨⟨m, deleted⟩, hrun, hnd, hmem⟩ :=
    deleteBelow_root ValueTrie.childLinks_lawful h.placed hbound hfuel
    ⟨[], rfl, h.root⟩ (h.linked hlow hV)
  refine ⟨m, deleted, hrun, hnd, fun a => ?_⟩
  rw [hmem]
  refine and_congr_right fun _ => ⟨?_, fun ha => ?_⟩
  · rintro ⟨p, w, -, hw⟩
    exact h.live w a hw
  · obtain ⟨w, hw⟩ := h.exists_path ha
    exact ⟨indices w, w, rfl, hw⟩

end Deletion

/-- The destructor deletes every node of a trie but the root, each once, and reads none that it has
deleted; the root is never deleted, so that one node of every trie is left. -/
theorem destroy_leaves_root {calls : List (ValueCall α)} (hcalls : ∀ k ∈ calls, k.Ascii) :
    ∃ answers t, valueTrie.runs calls ValueTrie.new = .ok answers t ∧
      ∀ fuel ≥ ValueTrie.nodeCount t, ∃ m deleted, ValueTrie.destroy fuel t = some (m, deleted) ∧
        deleted.Nodup ∧ (∀ a, a ∈ deleted ↔ a ≠ t.root ∧ a < t.nodes.nodes.length) ∧
        deleted.length + 1 = ValueTrie.nodeCount t := by
  obtain ⟨t, M, hruns, hrep⟩ := valueTrie_runs hcalls
  have hlow : t.nodes.Low := by
    have hkeeps := (KeepsLow.runs calls ValueTrie.new ?_).1
    · rwa [hruns] at hkeeps
    · intro n hn
      rw [List.mem_singleton.mp hn]
      exact fun _ _ => rfl
  have hV : ∀ w ∈ (ValueMap.empty.after calls).paths, ∀ c ∈ w, c < 128 := by
    intro w hw c hc
    rcases ValueMap.mem_paths_after.mp hw with rfl | ⟨-, u, v, hmem, hpre⟩
    · cases hc
    · exact hcalls _ hmem c (hpre.subset hc)
  have hcount : ValueTrie.nodeCount t = t.nodes.nodes.length := hrep.inv
  refine ⟨_, t, hruns, fun fuel hfuel => ?_⟩
  obtain ⟨m, deleted, hrun, hnd, hmem⟩ := hrep.destroy hlow hV (hcount ▸ hfuel)
  refine ⟨m, deleted, hrun, hnd, hmem, ?_⟩
  have hset : deleted.toFinset = (Finset.range t.nodes.nodes.length).erase t.root := by
    ext a
    rw [List.mem_toFinset, hmem, Finset.mem_erase, Finset.mem_range]
  have hroot : t.root ∈ Finset.range t.nodes.nodes.length :=
    Finset.mem_range.mpr (hrep.live [] _ hrep.root)
  have hcard := congrArg Finset.card hset
  rw [List.toFinset_card_of_nodup hnd, Finset.card_erase_of_mem hroot, Finset.card_range] at hcard
  rw [Finset.mem_range] at hroot
  omega

/-- Two words that share a node, one of which is removed. -/
theorem destroy_leaves_root_share :
    ∃ answers t, valueTrie.runs [.set [97, 98] 1, .set [97] 2, .remove [97, 98]]
      (ValueTrie.new (α := ℕ)) = .ok answers t ∧ ∀ fuel ≥ ValueTrie.nodeCount t, ∃ m deleted,
      ValueTrie.destroy fuel t = some (m, deleted) ∧ deleted.Nodup ∧
      (∀ a, a ∈ deleted ↔ a ≠ t.root ∧ a < t.nodes.nodes.length) ∧
      deleted.length + 1 = ValueTrie.nodeCount t :=
  destroy_leaves_root (by simp [ValueCall.Ascii, ValueCall.word])

end TinyPointerTrees
