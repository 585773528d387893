import Mathlib.Data.List.Induction
import Mathlib.Data.List.Nodup
import Mathlib.Tactic.Tauto

/-!
# Deleting a tree

A routine that deletes what is below a node: for each key it looks for a child, deletes
what is below the child, then the child, and then does something with the link that led
to it. The nodes that have been deleted are listed, the last one first, and nothing is
the answer when one of them is read or deleted again.

* `Placed` — every node of a tree is on one path of keys.
* `deleteBelow_spec` — where the nodes are linked as their paths say, those below a node
  are deleted, each once, and only their links change, and those of the node.
-/

namespace TreeDeletion

variable {σ ι κ : Type}

/-- How nodes are linked in the states of a program. -/
structure Links (σ ι κ : Type) where
  /-- The keys, in the order in which the children are deleted. -/
  keys : List κ
  /-- The child of a node. -/
  child : σ → ι → κ → Option ι
  /-- What is done with the link to a child, when the child is the last one that has been
  deleted. -/
  unlink : ι → κ → σ → List ι → Option σ

section Routine

variable [DecidableEq ι] (L : Links σ ι κ)

/-- The child by one key. -/
def deleteChild (deleteBelow : ι → σ × List ι → Option (σ × List ι)) (i : ι) (S : σ × List ι)
    (k : κ) : Option (σ × List ι) :=
  if i ∈ S.2 then none
  else
    match L.child S.1 i k with
    | none => some S
    | some j => do
      let S ← deleteBelow j S
      if j ∈ S.2 then none else (L.unlink i k S.1 (j :: S.2)).map (·, j :: S.2)

/-- The children of a node, and what is below them. -/
def deleteBelow : (fuel : ℕ) → ι → σ × List ι → Option (σ × List ι)
  | 0, _, _ => none
  | fuel + 1, i, S => L.keys.foldlM (deleteChild L (deleteBelow fuel) i) S

end Routine

/-- A link is changed if its node is there, and no other. -/
structure Links.Lawful (L : Links σ ι κ) : Prop where
  nodup : L.keys.Nodup
  unlink : ∀ i k s deleted, i ∉ deleted →
    ∃ s', L.unlink i k s deleted = some s' ∧ ∀ j d, j ≠ i ∨ d ≠ k → L.child s' j d = L.child s j d

variable {L : Links σ ι κ} {At : List κ → ι → Prop} {p q : List κ} {k d : κ} {i j : ι}
  {S S' : σ × List ι}

/-- Every node is on one path, and what is on a path has a parent. -/
structure Placed (L : Links σ ι κ) (At : List κ → ι → Prop) : Prop where
  path : ∀ {p q i}, At p i → At q i → p = q
  node : ∀ {p i j}, At p i → At p j → i = j
  parent : ∀ {p k j}, At (p ++ [k]) j → k ∈ L.keys ∧ ∃ i, At p i

/-- The child by `k` of the node on a path, and what is below it. -/
def Under (At : List κ → ι → Prop) (p : List κ) (k : κ) (j : ι) : Prop := ∃ r, At (p ++ k :: r) j

theorem not_under (h : Placed L At) (hi : At p i) : ¬ Under At p k i := by
  rintro ⟨r, hr⟩
  have := h.path hi hr
  simp at this

theorem Under.unique (h : Placed L At) (hk : Under At p k j) (hd : Under At p d j) : k = d := by
  obtain ⟨r, hr⟩ := hk
  obtain ⟨r', hr'⟩ := hd
  have := List.append_cancel_left (h.path hr hr')
  exact (List.cons.inj this).1

/-- On the way to what is below a child there is the child. -/
theorem Under.exists_child (h : Placed L At) (hk : Under At p k j) :
    k ∈ L.keys ∧ ∃ l, At (p ++ [k]) l := by
  obtain ⟨r, hr⟩ := hk
  induction r using List.reverseRecOn generalizing j with
  | nil => exact ⟨(h.parent hr).1, j, hr⟩
  | append_singleton r d ih =>
    obtain ⟨-, l, hl⟩ := h.parent (p := p ++ k :: r) (k := d) (by simpa using hr)
    exact ih hl

/-- What is below a child is the child, or below one of its children. -/
theorem under_iff (h : Placed L At) {l : ι} (hl : At (p ++ [k]) l) :
    Under At p k j ↔ j = l ∨ ∃ d, Under At (p ++ [k]) d j := by
  constructor
  · rintro ⟨r, hr⟩
    cases r with
    | nil => exact Or.inl (h.node hr hl)
    | cons d r => exact Or.inr ⟨d, r, by simpa using hr⟩
  · rintro (rfl | ⟨d, r, hr⟩)
    · exact ⟨[], hl⟩
    · exact ⟨d :: r, by simpa using hr⟩

/-- What is below a path is below one key of it, or another path. -/
theorem under_of_prefix (hj : At q j) (hpre : p ++ [k] <+: q) : Under At p k j := by
  obtain ⟨r, rfl⟩ := hpre
  exact ⟨r, by simpa using hj⟩

/-- The nodes from a path on are linked as their paths say. -/
def Linked (L : Links σ ι κ) (At : List κ → ι → Prop) (s : σ) (p : List κ) : Prop :=
  ∀ q j, p <+: q → At q j → ∀ d ∈ L.keys, ∀ l, L.child s j d = some l ↔ At (q ++ [d]) l

/-- The children by some keys can be deleted. -/
structure Deletable (L : Links σ ι κ) (At : List κ → ι → Prop) (p : List κ) (i : ι) (ks : List κ)
    (S : σ × List ι) : Prop where
  nodup : S.2.Nodup
  here : i ∉ S.2
  intact : ∀ k ∈ ks, ∀ j ∈ S.2, ¬ Under At p k j
  child : ∀ k ∈ ks, ∀ j, L.child S.1 i k = some j ↔ At (p ++ [k]) j
  linked : ∀ k ∈ ks, Linked L At S.1 (p ++ [k])

/-- The children by some keys have been deleted, with what is below them. -/
structure Deleted (L : Links σ ι κ) (At : List κ → ι → Prop) (p : List κ) (i : ι) (ks : List κ)
    (S S' : σ × List ι) : Prop where
  nodup : S'.2.Nodup
  mem : ∀ j, j ∈ S'.2 ↔ j ∈ S.2 ∨ ∃ k ∈ ks, Under At p k j
  frame : ∀ j d, j ≠ i ∨ d ∉ ks → (∀ k ∈ ks, ¬ Under At p k j) → L.child S'.1 j d = L.child S.1 j d

/-- After one child, the next. -/
theorem Deletable.next {ks : List κ} (h : Placed L At) (hi : At p i) (hks : (k :: ks).Nodup)
    (hS : Deletable L At p i (k :: ks) S) (hd : Deleted L At p i [k] S S') :
    Deletable L At p i ks S' := by
  obtain ⟨hk, -⟩ := List.nodup_cons.mp hks
  have hmem : ∀ j, j ∈ S'.2 ↔ j ∈ S.2 ∨ Under At p k j := by simpa using hd.mem
  have hne : ∀ d ∈ ks, d ≠ k := fun d hd he => hk (he ▸ hd)
  refine ⟨hd.nodup, ?_, fun d hdks j hj hu => ?_, fun d hdks j => ?_,
    fun d hdks q j hpre hj e he l => ?_⟩
  · rw [hmem]
    rintro (hmem | hu)
    · exact hS.here hmem
    · exact not_under h hi hu
  · rcases (hmem j).mp hj with hj | hu'
    · exact hS.intact d (List.mem_cons_of_mem _ hdks) j hj hu
    · exact hne d hdks (hu.unique h hu')
  · rw [hd.frame i d (Or.inr (by simpa using hne d hdks)) (by simpa using not_under h hi)]
    exact hS.child d (List.mem_cons_of_mem _ hdks) j
  · have hu := under_of_prefix hj hpre
    have hji : j ≠ i := by
      rintro rfl
      exact not_under h hi hu
    have hnot : ¬ Under At p k j := fun hu' => hne d hdks (hu.unique h hu')
    rw [hd.frame j e (Or.inl hji) (by simpa using hnot)]
    exact hS.linked d (List.mem_cons_of_mem _ hdks) q j hpre hj e he l

theorem Deleted.trans {ks : List κ} {T : σ × List ι} (hk : Deleted L At p i [k] S S')
    (hks : Deleted L At p i ks S' T) : Deleted L At p i (k :: ks) S T := by
  refine ⟨hks.nodup, fun j => ?_, fun j d hne hu => ?_⟩
  · rw [hks.mem, hk.mem]
    simp only [List.mem_cons, exists_eq_or_imp]
    tauto
  · simp only [List.mem_cons, not_or, forall_eq_or_imp] at hne hu
    rw [hks.frame j d (hne.imp_right And.right) hu.2,
      hk.frame j d (hne.imp_right (by simpa using And.left)) (by simpa using hu.1)]

variable [DecidableEq ι]

/-- The routine is right for the nodes on paths of this length. -/
def Deletes (L : Links σ ι κ) (At : List κ → ι → Prop) (fuel depth : ℕ) : Prop :=
  ∀ p i S, At p i → p.length = depth → Deletable L At p i L.keys S →
    ∃ S', deleteBelow L fuel i S = some S' ∧ Deleted L At p i L.keys S S'

/-- One child is deleted, if there is one. -/
theorem deleteChild_spec {fuel : ℕ} (hL : L.Lawful) (h : Placed L At) (hi : At p i)
    (hrec : Deletes L At fuel (p.length + 1)) (hS : Deletable L At p i [k] S) :
    ∃ S', deleteChild L (deleteBelow L fuel) i S k = some S' ∧ Deleted L At p i [k] S S' := by
  have hchild := hS.child k List.mem_cons_self
  have hlinked := hS.linked k List.mem_cons_self
  cases hc : L.child S.1 i k with
  | none =>
    refine ⟨S, by simp [deleteChild, hS.here, hc], hS.nodup, fun j => ?_, fun _ _ _ _ => rfl⟩
    have hnot : ¬ Under At p k j := fun hu => by
      obtain ⟨l, hl⟩ := (hu.exists_child h).2
      rw [← hchild, hc] at hl
      cases hl
    simp [hnot]
  | some l =>
    have hl : At (p ++ [k]) l := (hchild l).mp hc
    have hunder : ∀ j, Under At p k j ↔ j = l ∨ ∃ d, Under At (p ++ [k]) d j :=
      fun j => under_iff h hl
    have hintact := hS.intact k List.mem_cons_self
    -- what is below the child
    have hbelow : Deletable L At (p ++ [k]) l L.keys S := by
      refine ⟨hS.nodup, fun hmem => hintact l hmem ((hunder l).mpr (Or.inl rfl)),
        fun d _ j hmem hu => ?_, fun d hd j => hlinked _ l List.prefix_rfl hl d hd j,
        fun d _ q j hpre hj e he => hlinked q j ((List.prefix_append _ _).trans hpre) hj e he⟩
      exact hintact j hmem ((hunder j).mpr (Or.inr ⟨d, hu⟩))
    obtain ⟨S₁, hrun, hdel⟩ := hrec (p ++ [k]) l S hl (by simp) hbelow
    have hmem₁ : ∀ j, j ∈ S₁.2 ↔ j ∈ S.2 ∨ ∃ d, Under At (p ++ [k]) d j := fun j => by
      rw [hdel.mem]
      exact or_congr_right ⟨fun ⟨d, _, hu⟩ => ⟨d, hu⟩, fun ⟨d, hu⟩ =>
        ⟨d, (hu.exists_child h).1, hu⟩⟩
    -- then the child
    have hl₁ : l ∉ S₁.2 := by
      rw [hmem₁]
      rintro (hmem | ⟨d, hu⟩)
      · exact hbelow.here hmem
      · exact not_under h hl hu
    have hmem₂ : ∀ j, j ∈ l :: S₁.2 ↔ j ∈ S.2 ∨ Under At p k j := fun j => by
      rw [List.mem_cons, hmem₁, hunder]
      tauto
    have hi₂ : i ∉ l :: S₁.2 := by
      rw [hmem₂]
      rintro (hmem | hu)
      · exact hS.here hmem
      · exact not_under h hi hu
    obtain ⟨s', hunlink, hframe⟩ := hL.unlink i k S₁.1 (l :: S₁.2) hi₂
    refine ⟨(s', l :: S₁.2), by simp [deleteChild, hS.here, hc, hrun, hl₁, hunlink],
      List.nodup_cons.mpr ⟨hl₁, hdel.nodup⟩, fun j => ?_, fun j d hne hu => ?_⟩
    · rw [hmem₂]
      simp
    · have hu : ¬ Under At p k j := hu k List.mem_cons_self
      rw [hunder, not_or] at hu
      rw [hframe j d (hne.imp_right (by simp)), hdel.frame j d (Or.inl hu.1) fun e _ hue =>
        hu.2 ⟨e, hue⟩]

/-- Several children are deleted. -/
theorem deleteChildren_spec {fuel : ℕ} {ks : List κ} (hL : L.Lawful) (h : Placed L At) (hi : At p i)
    (hrec : Deletes L At fuel (p.length + 1)) (hks : ks.Nodup) (hS : Deletable L At p i ks S) :
    ∃ S', ks.foldlM (deleteChild L (deleteBelow L fuel) i) S = some S' ∧
      Deleted L At p i ks S S' := by
  induction ks generalizing S with
  | nil => exact ⟨S, rfl, hS.nodup, by simp, fun _ _ _ _ => rfl⟩
  | cons k ks ih =>
    have hone : Deletable L At p i [k] S := by
      refine ⟨hS.nodup, hS.here, ?_, ?_, ?_⟩
      · simpa using hS.intact k List.mem_cons_self
      · simpa using hS.child k List.mem_cons_self
      · simpa using hS.linked k List.mem_cons_self
    obtain ⟨S₁, hrun, hdel⟩ := deleteChild_spec hL h hi hrec hone
    obtain ⟨S₂, hruns, hdels⟩ := ih (List.nodup_cons.mp hks).2 (hS.next h hi hks hdel)
    exact ⟨S₂, by rw [List.foldlM_cons, hrun]; exact hruns, hdel.trans hdels⟩

/-- What is below a node is deleted, and nothing else. -/
theorem deleteBelow_spec {fuel depth bound : ℕ} (hL : L.Lawful) (h : Placed L At)
    (hbound : ∀ p i, At p i → p.length < bound) (hfuel : bound ≤ fuel + depth) :
    Deletes L At fuel depth := by
  induction fuel generalizing depth with
  | zero =>
    rintro p i S hi rfl -
    have := hbound p i hi
    omega
  | succ fuel ih =>
    rintro p i S hi rfl hS
    exact deleteChildren_spec hL h hi (ih (by omega)) hL.nodup hS

/-- All nodes of a tree but its root are deleted, when none has been. -/
theorem deleteBelow_root {s : σ} {fuel bound : ℕ} (hL : L.Lawful) (h : Placed L At)
    (hbound : ∀ p i, At p i → p.length < bound) (hfuel : bound ≤ fuel) (hi : At [] i)
    (hlinked : Linked L At s []) :
    ∃ S', deleteBelow L fuel i (s, []) = some S' ∧ S'.2.Nodup ∧ ∀ j, j ∈ S'.2 ↔ j ≠ i ∧
      ∃ p, At p j := by
  have hS : Deletable L At [] i L.keys (s, []) :=
    ⟨List.nodup_nil, List.not_mem_nil, fun k _ j hj => absurd hj List.not_mem_nil, fun k hk j =>
      hlinked [] i List.prefix_rfl hi k hk j, fun k _ q j _ hj d hd =>
      hlinked q j List.nil_prefix hj d hd⟩
  obtain ⟨S', hrun, hdel⟩ := deleteBelow_spec hL h hbound hfuel [] i (s, []) hi rfl hS
  refine ⟨S', hrun, hdel.nodup, fun j => ?_⟩
  rw [hdel.mem]
  constructor
  · rintro (hj | ⟨k, -, hu⟩)
    · cases hj
    · refine ⟨?_, hu.imp' _ fun r hr => hr⟩
      rintro rfl
      exact not_under h hi hu
  · rintro ⟨hne, p, hj⟩
    cases p with
    | nil => exact absurd (h.node hj hi) hne
    | cons k r =>
      have hu : Under At [] k j := ⟨r, hj⟩
      exact Or.inr ⟨k, (hu.exists_child h).1, hu⟩

end TreeDeletion
