import TinyPointerTrees.Art.SharedAccess

/-!
# Writes to a shared tiny ART

The rules for a thread that builds new objects and has locked nodes. `Holding` says which
objects these are and what they are; nobody else changes them. What it has built
becomes part of the tree with one write to a locked node (`Holding.publish`).
-/

namespace TinyPointerTrees.Art

open Conc ArtM Protocol

variable {V : Variant} {A : Tree V} {ids : ℕ → UInt64} {U : Set Key} {t u : ℕ} {x y : World V}
  {α : Type} {n m : Ref} {o o' : Obj V} {κ : Kind} {p : Key} {π : List UInt8} {id v tid : UInt64}
  {E : Leave → World V → Prop}

/-- A node that a thread has locked. -/
structure Grip (V : Variant) where
  /-- The node. -/
  ref : Ref
  /-- What it is. -/
  kind : Kind
  /-- The object. -/
  obj : Obj V
  /-- It is in the tree. -/
  placed : Bool

/-- It may no longer be in the tree. -/
def Grip.replaced (g : Grip V) : Grip V := { g with placed := false }

/-- Thread `t`, which inserts `tid`, has made the objects `L` and locked the nodes `H`; `done` says
whether the key is in the tree. -/
structure Holding (t : ℕ) (tid : UInt64) (done : Bool) (L : List (Ref × Obj V)) (H : List (Grip V))
    (x : World V) : Prop where
  doing : x.2.doing t = some tid
  maps : (∃ k, x.2.tree.Maps k tid) ↔ done = true
  nodup : (L.map Prod.fst).Nodup
  fresh : ∀ e ∈ L, x.2.owner e.1 = some t ∧ x.2.kind e.1 = none ∧ x.get e.1 = e.2
  grips_nodup : (H.map Grip.ref).Nodup
  grips : ∀ g ∈ H, x.2.owner g.ref = some t ∧ x.2.kind g.ref = some g.kind ∧ x.get g.ref = g.obj ∧
    (g.placed = true → ∀ p π id, g.kind = .node p π id → x.2.place p = some g.ref)

namespace Holding

variable {done : Bool} {L L' : List (Ref × Obj V)} {H H' : List (Grip V)} {g : Grip V}

theorem rely (h : Holding t tid done L H x) (hr : Rely t x y) : Holding t tid done L H y := by
  refine ⟨hr.doing.trans h.doing, ?_, h.nodup, fun e he => ?_, h.grips_nodup, fun g hg => ?_⟩
  · rw [← h.maps]
    exact ⟨fun ⟨k, hk⟩ => ⟨k, hr.pending k tid h.doing hk⟩, fun ⟨k, hk⟩ => ⟨k, hr.maps k tid hk⟩⟩
  · obtain ⟨ho, hk, hget⟩ := h.fresh e he
    have hu := hr.untouched e.1 ho
    exact ⟨hu.owner, hu.kind.trans hk, hu.get.trans hget⟩
  · obtain ⟨ho, hk, hget, hp⟩ := h.grips g hg
    have hu := hr.untouched g.ref ho
    exact ⟨hu.owner, hu.kind.trans hk, hu.get.trans hget, fun hg p π id hκ =>
      hu.place p π id (hκ ▸ hk) (hp hg p π id hκ)⟩

theorem stable :
    (artProtocol A U).Stable t fun _ : α => Holding (V := V) t tid done L H :=
  fun _ _ _ h hr _ => h.rely hr

theorem perm (h : Holding t tid done L H x) (hL : L.Perm L') (hH : H.Perm H') :
    Holding t tid done L' H' x :=
  ⟨h.doing, h.maps, (hL.map Prod.fst).nodup_iff.mp h.nodup, fun e he =>
    h.fresh e (hL.mem_iff.mpr he), (hH.map Grip.ref).nodup_iff.mp h.grips_nodup, fun g hg =>
    h.grips g (hH.mem_iff.mpr hg)⟩

/-- The thread may forget what it holds. -/
theorem drop (h : Holding t tid done L H x) : Holding t tid done [] [] x :=
  ⟨h.doing, h.maps, List.nodup_nil, by simp, List.nodup_nil, by simp⟩

/-- The object belongs to the thread. -/
def Owns (L : List (Ref × Obj V)) (H : List (Grip V)) (n : Ref) (o : Obj V) : Prop :=
  (n, o) ∈ L ∨ ∃ g ∈ H, g.ref = n ∧ g.obj = o

theorem owns (h : Holding t tid done L H x) (ho : Owns L H n o) :
    x.2.owner n = some t ∧ x.get n = o := by
  rcases ho with ho | ⟨g, hg, rfl, rfl⟩
  · exact ⟨(h.fresh _ ho).1, (h.fresh _ ho).2.2⟩
  · exact ⟨(h.grips g hg).1, (h.grips g hg).2.2.1⟩

/-- A locked node is locked. -/
theorem word (h : Holding t tid done L H x) (hi : Inv A U x) (hg : g ∈ H) :
    ∃ v, Word V g.ref g.obj.typeVersionLockObsolete v ∧ v % 4 = 2 ∧ v ≤ 2 ^ 61 + 2 := by
  obtain ⟨ho, hk, hget, -⟩ := h.grips g hg
  have := hi.locked g.ref t g.kind ho hk
  unfold World.word at this
  rwa [hget] at this

theorem kind (h : Holding t tid done L H x) (hg : g ∈ H) : x.2.kind g.ref = some g.kind :=
  (h.grips g hg).2.1

/-- New objects are not locked nodes. -/
theorem ne (h : Holding t tid done L H x) {e : Ref × Obj V} (he : e ∈ L) (hg : g ∈ H) :
    g.ref ≠ e.1 := by
  intro heq
  have h₁ := (h.fresh e he).2.1
  have h₂ := (h.grips g hg).2.1
  rw [heq, h₁] at h₂
  cases h₂

/-! ### What the steps do -/

/-- A step that changes neither the tree nor what is known of it. -/
theorem step {s' : Heap V} {owner' : Ref → Option ℕ} (h : Holding t tid done L H x)
    (hL : (L'.map Prod.fst).Nodup)
    (hfresh : ∀ e ∈ L', owner' e.1 = some t ∧ x.2.kind e.1 = none ∧ s'.get e.1 = e.2)
    (hH : (H'.map Grip.ref).Nodup)
    (hgrips : ∀ g ∈ H', owner' g.ref = some t ∧ x.2.kind g.ref = some g.kind ∧
      s'.get g.ref = g.obj ∧ (g.placed = true → ∀ p π id, g.kind = .node p π id →
      x.2.place p = some g.ref)) : Holding t tid done L' H' (x.step s' owner') :=
  ⟨h.doing, h.maps, hL, hfresh, hH, hgrips⟩

/-- A write to a new object. -/
theorem set_step (h : Holding t tid done ((n, o) :: L) H x) (hi : Inv A U x) (o' : Obj V) :
    Inv A U (x.step (x.1.heap.set n o') x.2.owner) ∧
      (∀ u, u ≠ t → Rely u x (x.step (x.1.heap.set n o') x.2.owner)) ∧
      Holding t tid done ((n, o') :: L) H (x.step (x.1.heap.set n o') x.2.owner) := by
  obtain ⟨ho, hk, -⟩ := h.fresh (n, o) List.mem_cons_self
  have hne : ∀ m κ, x.2.kind m = some κ → m ≠ n := by
    rintro m κ hm rfl
    rw [hk] at hm
    cases hm
  have hnot : n ∉ L.map Prod.fst := (List.nodup_cons.mp h.nodup).1
  refine ⟨hi.step_private (hi.wf.set (hi.owned n t ho)) (fun m hm => Heap.live_set.mpr hm)
    (fun m κ hm => Heap.get_set_ne (hne m κ hm)) (fun m u hm => Or.inl hm), fun u hu => .of_private
    (fun m hm => Heap.live_set.mpr hm) (fun m κ hm => Heap.get_set_ne (hne m κ hm)) fun m hm =>
    ⟨hm, Heap.get_set_ne ?_⟩, h.step (by simpa using h.nodup)
    (fun e he => ?_) h.grips_nodup fun g hg => ?_⟩
  · rintro rfl
    exact hu (Option.some.inj (hm.symm.trans ho))
  · rcases List.mem_cons.mp he with rfl | hmem
    · exact ⟨ho, hk, Heap.get_set_self⟩
    · obtain ⟨ho', hk', hget⟩ := h.fresh e (List.mem_cons_of_mem _ hmem)
      refine ⟨ho', hk', ?_⟩
      rw [Heap.get_set_ne]
      · exact hget
      · rintro rfl
        exact hnot (List.mem_map_of_mem (f := Prod.fst) hmem)
  · obtain ⟨ho', hk', hget, hp⟩ := h.grips g hg
    refine ⟨ho', hk', ?_, hp⟩
    rw [Heap.get_set_ne (hne _ _ hk')]
    exact hget

/-- An allocation. -/
theorem allocated_step {c : ℕ} {h : TinyPtrHashes} {q : ArtTinyPtr V} {s' : Heap V}
    (hat : Holding t tid done L H x) (hi : Inv A U x)
    (ha : Heap.Allocated A.indexer x.1.heap s' c h q n) :
    Inv A U (x.step s' (Function.update x.2.owner n (some t))) ∧
      (∀ u, u ≠ t → Rely u x (x.step s' (Function.update x.2.owner n (some t)))) ∧
      Holding t tid done ((n, x.get n) :: L) H
      (x.step s' (Function.update x.2.owner n (some t))) := by
  have hfresh : x.2.kind n = none := by
    by_contra hne
    obtain ⟨κ, hκ⟩ := Option.ne_none_iff_exists'.mp hne
    exact ha.fresh (hi.live n κ hκ)
  have hlive : s'.Live n := (ha.live n).mpr (Or.inl rfl)
  have hown : ∀ m u, x.2.owner m = some u → m ≠ n := by
    rintro m u hm rfl
    exact ha.fresh (hi.owned m u hm)
  refine ⟨hi.step_private ha.wf (fun m hm => (ha.live m).mpr (Or.inr hm)) (fun m _ _ =>
    ha.get m) fun m u hm => ?_, fun u hu => .of_private (fun m hm => (ha.live m).mpr (Or.inr hm))
    (fun m _ _ => ha.get m) fun m hm => ⟨?_, ha.get m⟩,
    hat.step (List.nodup_cons.mpr ⟨?_, hat.nodup⟩) (fun e he => ?_) hat.grips_nodup fun g hg => ?_⟩
  · rw [Function.update_apply] at hm
    split_ifs at hm with hmn
    · subst hmn
      exact Or.inr ⟨hlive, hfresh⟩
    · exact Or.inl hm
  · rw [Function.update_of_ne (hown m u hm)]
    exact hm
  · intro hm
    obtain ⟨e, he, heq⟩ := List.mem_map.mp hm
    exact hown _ _ (hat.fresh e he).1 heq
  · rcases List.mem_cons.mp he with rfl | he
    · exact ⟨Function.update_self .., hfresh, ha.get n⟩
    · obtain ⟨ho, hk, hget⟩ := hat.fresh e he
      refine ⟨?_, hk, (ha.get e.1).trans hget⟩
      rw [Function.update_of_ne (hown _ _ ho)]
      exact ho
  · obtain ⟨ho, hk, hget, hp⟩ := hat.grips g hg
    refine ⟨?_, hk, (ha.get g.ref).trans hget, hp⟩
    rw [Function.update_of_ne (hown _ _ ho)]
    exact ho

/-- The lock word of an object that was unlocked. -/
theorem lock_step {w : UInt64} (hat : Holding t tid done L H x) (hi : Inv A U x)
    (hk : x.2.kind n = some κ) (hfree : Free (x.word n))
    (hcount : writeSections (x.word n) ≤ 2 ^ 59) (hw : w = x.word n + 0b10) :
    Inv A U (x.step (x.1.heap.set n { x.get n with typeVersionLockObsolete := w })
      (Function.update x.2.owner n (some t))) ∧ (∀ u, u ≠ t → Rely u x
        (x.step (x.1.heap.set n { x.get n with typeVersionLockObsolete := w })
          (Function.update x.2.owner n (some t)))) ∧
      Holding t tid done L (⟨n, κ, { x.get n with typeVersionLockObsolete := w }, true⟩ :: H)
        (x.step (x.1.heap.set n { x.get n with typeVersionLockObsolete := w })
        (Function.update x.2.owner n (some t))) := by
  obtain ⟨v, hv, -⟩ := hi.word n κ hk
  have hmod := hv.free_iff.mp hfree
  have hle : v ≤ 2 ^ 61 := by
    have hlt := hv.lt
    unfold writeSections at hcount
    rw [hv.toNat] at hcount
    omega
  have hw' : Word V n w (v + 2) := by
    rw [hw]
    exact hv.add (by omega) rfl
  have hown : ∀ m u, x.2.owner m = some u → m ≠ n := by
    rintro m u hm rfl
    obtain ⟨v', hv', hmod', -⟩ := hi.locked m u κ hm hk
    have := hv'.inj hv
    omega
  have hnew : ∀ m, x.2.kind m = none → m ≠ n := by
    rintro m hm rfl
    rw [hm] at hk
    cases hk
  refine ⟨hi.step_word hk hw' (by omega) (fun hf => ?_) fun m u hm => ?_, fun u hu => .of_step
    (fun m hm => Heap.live_set.mpr hm) (fun m κ' hm => ?_) fun m hm =>
    ⟨?_, Heap.get_set_ne (hown m u hm)⟩, hat.step hat.nodup (fun e he => ?_) ?_ fun g hg => ?_⟩
  · have := hw'.free_iff.mp hf
    omega
  · rw [Function.update_apply] at hm
    split_ifs at hm with hmn
    · exact Or.inr ⟨hmn, by omega, by omega⟩
    · exact Or.inl ⟨hmn, hm⟩
  · by_cases hmn : m = n
    · subst hmn
      rw [Heap.get_set_self]
      refine ⟨?_, fun _ heq => ?_⟩
      · rw [hv.toNat, hw'.toNat]
        omega
      · have := hw'.inj (heq ▸ hv)
        omega
    · rw [Heap.get_set_ne hmn]
      exact ⟨le_rfl, fun _ _ => rfl⟩
  · rw [Function.update_of_ne (hown m u hm)]
    exact hm
  · obtain ⟨ho, hk', hget⟩ := hat.fresh e he
    refine ⟨?_, hk', ?_⟩
    · rw [Function.update_of_ne (hnew _ hk')]
      exact ho
    · rw [Heap.get_set_ne (hnew _ hk')]
      exact hget
  · refine List.nodup_cons.mpr ⟨fun hm => ?_, hat.grips_nodup⟩
    obtain ⟨g, hg, heq⟩ := List.mem_map.mp hm
    exact hown _ _ (hat.grips g hg).1 heq
  · rcases List.mem_cons.mp hg with rfl | hmem
    · exact ⟨Function.update_self .., hk, Heap.get_set_self, fun _ p π id hκ =>
        hi.free n p π id (hκ ▸ hk) hfree⟩
    · obtain ⟨ho, hk', hget, hp⟩ := hat.grips g hmem
      have hne := hown _ _ ho
      refine ⟨?_, hk', ?_, hp⟩
      · rw [Function.update_of_ne hne]
        exact ho
      · rw [Heap.get_set_ne hne]
        exact hget

/-- The lock word of a node that the thread has locked: the node is unlocked and in the tree, or it
is obsolete. -/
theorem unlock_step {w : UInt64} {v : ℕ} (hat : Holding t tid done L (g :: H) x) (hi : Inv A U x)
    (hw : Word V g.ref w v) (hle : v ≤ 2 ^ 61 + 5)
    (hlt : g.obj.typeVersionLockObsolete.toNat ≤ w.toNat) (hfree : Free w → g.placed = true) :
    Inv A U (x.step (x.1.heap.set g.ref { g.obj with typeVersionLockObsolete := w })
      (Function.update x.2.owner g.ref none)) ∧ (∀ u, u ≠ t → Rely u x
        (x.step (x.1.heap.set g.ref { g.obj with typeVersionLockObsolete := w })
          (Function.update x.2.owner g.ref none))) ∧
      Holding t tid done L H
        (x.step (x.1.heap.set g.ref { g.obj with typeVersionLockObsolete := w })
        (Function.update x.2.owner g.ref none)) := by
  obtain ⟨ho, hk, hget, hp⟩ := hat.grips g List.mem_cons_self
  obtain ⟨v₀, hv₀, hmod₀, -⟩ := hat.word hi (g := g) List.mem_cons_self
  obtain ⟨hnot, hnd⟩ := List.nodup_cons.mp hat.grips_nodup
  have hlocked : ¬ Free (x.word g.ref) := by
    intro hf
    unfold World.word at hf
    rw [hget] at hf
    have := hv₀.free_iff.mp hf
    omega
  have hnew : ∀ m, x.2.kind m = none → m ≠ g.ref := by
    rintro m hm rfl
    rw [hm] at hk
    cases hk
  have hother : ∀ m u, u ≠ t → x.2.owner m = some u → m ≠ g.ref := by
    rintro m u hu hm rfl
    exact hu (Option.some.inj (hm.symm.trans ho))
  have hstep : Inv A U (World.step x _ (Function.update x.2.owner g.ref none)) :=
    hi.step_word hk hw hle
    (fun hf p π id hκ => hp (hfree hf) p π id hκ) fun m u hm => by
      rw [Function.update_apply] at hm
      split_ifs at hm with hmn
      exact Or.inl ⟨hmn, hm⟩
  rw [hget] at hstep
  refine ⟨hstep, fun u hu => .of_step (fun m hm => Heap.live_set.mpr hm)
    (fun m κ' hm => ?_) fun m hm =>
    ⟨?_, Heap.get_set_ne (hother m u hu hm)⟩, hat.step hat.nodup (fun e he => ?_) hnd
      fun g' hg => ?_⟩
  · by_cases hmn : m = g.ref
    · subst hmn
      rw [Heap.get_set_self]
      refine ⟨?_, fun hf => absurd hf hlocked⟩
      unfold World.word
      rw [hget]
      exact hlt
    · rw [Heap.get_set_ne hmn]
      exact ⟨le_rfl, fun _ _ => rfl⟩
  · rw [Function.update_of_ne (hother m u hu hm)]
    exact hm
  · obtain ⟨ho', hk', hget'⟩ := hat.fresh e he
    refine ⟨?_, hk', ?_⟩
    · rw [Function.update_of_ne (hnew _ hk')]
      exact ho'
    · rw [Heap.get_set_ne (hnew _ hk')]
      exact hget'
  · obtain ⟨ho', hk', hget', hp'⟩ := hat.grips g' (List.mem_cons_of_mem _ hg)
    have hne : g'.ref ≠ g.ref := fun heq => hnot (heq ▸ List.mem_map_of_mem (f := Grip.ref) hg)
    refine ⟨?_, hk', ?_, hp'⟩
    · rw [Function.update_of_ne hne]
      exact ho'
    · rw [Heap.get_set_ne hne]
      exact hget'

/-- What the thread holds once it has published a tree. -/
theorem publish {n₀ : Ref} {o₀ : Obj V} {R' : RadixTree UInt8 UInt64} {M' : Key → Option Ref}
    (hat : Holding t tid done L (⟨n₀, .node p π id, o₀, true⟩ :: H) x)
    (hp : Publishes A x t tid n₀ o R' M') (hM : M' p = some n₀) :
    Holding t tid true [] (⟨n₀, .node p π id, o, true⟩ :: H.map Grip.replaced)
      (x.publish n₀ o R' M') := by
  have hgrips := List.nodup_cons.mp hat.grips_nodup
  refine ⟨hat.doing, ⟨fun _ => rfl, fun _ => ⟨_, (hp.maps _ tid).mpr (Or.inl ⟨rfl, rfl⟩)⟩⟩,
    List.nodup_nil, by simp, ?_,
    fun g hg => ?_⟩
  · have hrefs : (H.map Grip.replaced).map Grip.ref = H.map Grip.ref := List.map_map ..
    rw [List.map_cons, hrefs]
    exact hat.grips_nodup
  rcases List.mem_cons.mp hg with rfl | hg
  · obtain ⟨ho, hk, -⟩ := hat.grips _ List.mem_cons_self
    refine ⟨(Publishes.owner_of_kind hk).trans ho, Publishes.kind_mono hk, Publishes.get_self,
      fun _ p' π' id' hκ => ?_⟩
    cases hκ
    exact hM
  · obtain ⟨g, hmem, rfl⟩ := List.mem_map.mp hg
    obtain ⟨ho, hk, hget, -⟩ := hat.grips g (List.mem_cons_of_mem _ hmem)
    have hne : g.ref ≠ n₀ := fun he => hgrips.1 (List.mem_map.mpr ⟨g, hmem, he⟩)
    exact ⟨(Publishes.owner_of_kind hk).trans ho, Publishes.kind_mono hk,
      (Publishes.get_ne hne).trans hget, fun hplaced => absurd hplaced Bool.false_ne_true⟩

end Holding

/-! ### The rules -/

/-- How an insertion of `k` may be left, with nothing inserted: to start again, because a table is
full, or because the key is empty. -/
def Failing (t : ℕ) (tid : UInt64) (k : Key) : Leave → World V → Prop
  | .restart, x => Holding t tid false [] [] x
  | .overflow _, x => Holding t tid false [] [] x
  | .outOfBounds, x => k = [] ∧ Holding t tid false [] [] x
  | _, _ => False

theorem Failing.stable {k : Key} : (artProtocol A U).Stable t (Failing (V := V) t tid k) := by
  intro e x y h hr hi
  cases e with
  | restart => exact Holding.stable () x y h hr hi
  | overflow f => exact Holding.stable () x y h hr hi
  | outOfBounds => exact ⟨h.1, h.2.rely hr⟩
  | _ => exact h

section Rules

variable {k : Key} {done : Bool} {L : List (Ref × Obj V)} {H : List (Grip V)} {g : Grip V}

theorem wp_own_read {Q : Obj V → World V → Prop} (hi : Inv A U x)
    (hQ : (artProtocol A U).Stable t Q) (hat : Holding t tid done L H x) (ho : Holding.Owns L H n o)
    (h : ∀ y, Inv A U y → Holding t tid done L H y → Q o y) :
    artWp A ids U t (read n) Q (Failing t tid k) x := by
  refine wp_read hi Failing.stable hQ (hi.owned n t (hat.owns ho).1) fun y hy hiy => ?_
  have haty := hat.rely hy
  rw [(haty.owns ho).2]
  exact h y hiy haty

theorem wp_own_getId {Q : UInt64 → World V → Prop} (hi : Inv A U x)
    (hQ : (artProtocol A U).Stable t Q) (hat : Holding t tid done L H x) (ho : Holding.Owns L H n o)
    (h : ∀ y, Inv A U y → Holding t tid done L H y → Q o.id y) :
    artWp A ids U t (getId n) Q (Failing t tid k) x :=
  wpOr_bind hi Failing.stable (wp_own_read hi Stable.wpOr hat ho fun y hiy hy =>
    wpOr_pure hQ (h y hiy hy))

theorem wp_allocate {Q : ArtTinyPtr V × Ref → World V → Prop} {c : ℕ} {h : TinyPtrHashes}
    (hi : Inv A U x) (hQ : (artProtocol A U).Stable t Q) (hat : Holding t tid false L H x)
    (hc : c < 2 ^ V.specialBits)
    (hq : ∀ y q n o, Inv A U y → Holding t tid false ((n, o) :: L) H y →
      Denotes A.indexer q h (some n) → n.special = c → Q (q, n) y) :
    artWp A ids U t (allocate c h) Q (Failing t tid k) x := by
  refine wpOr_bind hi Failing.stable (wpOr_op Stable.wpOr fun y hy hiy a s' hs => ?_)
  obtain ⟨-, ha, rfl⟩ := hs
  have haty := hat.rely hy
  simp only [ArtOp.exec] at ha ⊢
  cases hr : (y.1.heap.tables c).allocate V.layout (A.indexer c) t h c with
  | mk r T' =>
    rw [hr] at ha
    obtain rfl : r = a := ha.symm
    cases r with
    | ok r =>
      have hall := hiy.wf.allocated hc hr
      obtain ⟨hi', hg, hat'⟩ := haty.allocated_step hiy hall
      exact ⟨_, hi', hg, wpOr_pure hQ (hq _ _ _ _ hi' hat' ⟨hall.ne_null, hall.ne_tagged,
        hall.refOf⟩ hall.table)⟩
    | error e =>
      have href := hiy.wf.refused hr
      have hi' : Inv A U (World.step y _ y.2.owner) :=
        hiy.step_private href.wf (fun m hm => (href.live m).mpr hm) (fun m _ _ =>
        href.get m) fun m u hm => Or.inl hm
      have hr : ∀ u, Rely u y (World.step y _ y.2.owner) :=
        fun u => .of_private (fun m hm => (href.live m).mpr hm) (fun m _ _ =>
        href.get m) fun m hm => ⟨hm, href.get m⟩
      exact ⟨y.2, hi', fun u _ => hr u, wpOr_throw Failing.stable (haty.rely (hr t)).drop⟩

theorem wp_fresh_write {Q : Unit → World V → Prop} {f : Obj V → Option (Obj V)} (hi : Inv A U x)
    (hQ : (artProtocol A U).Stable t Q) (hat : Holding t tid done ((n, o) :: L) H x)
    (hf : f o = some o') (h : ∀ y, Inv A U y → Holding t tid done ((n, o') :: L) H y → Q () y) :
    artWp A ids U t (access (.write n f)) Q (Failing t tid k) x := by
  refine wp_access hi Failing.stable hQ fun y hy hiy _ => ?_
  have haty := hat.rely hy
  obtain ⟨ho, -, hget⟩ := haty.fresh (n, o) List.mem_cons_self
  obtain ⟨hi', hg, hat'⟩ := haty.set_step hiy o'
  refine ⟨(), _, y.2, ?_, hi', hg, h _ hi' hat'⟩
  have hget : y.1.heap.get n = o := hget
  simp [ArtOp.exec, Heap.access, hiy.owned n t ho, hget, hf]

theorem wp_fresh_fetchAdd {Q : Unit → World V → Prop} {d : UInt64} (hi : Inv A U x)
    (hQ : (artProtocol A U).Stable t Q) (hat : Holding t tid done ((n, o) :: L) H x)
    (h : ∀ y, Inv A U y → Holding t tid done
      ((n, { o with typeVersionLockObsolete := o.typeVersionLockObsolete + d }) :: L) H y →
      Q () y) : artWp A ids U t (access (.fetchAdd n d)) Q (Failing t tid k) x := by
  refine wp_access hi Failing.stable hQ fun y hy hiy _ => ?_
  have haty := hat.rely hy
  obtain ⟨ho, -, hget⟩ := haty.fresh (n, o) List.mem_cons_self
  obtain ⟨hi', hg, hat'⟩ := haty.set_step hiy
    { o with typeVersionLockObsolete := o.typeVersionLockObsolete + d }
  refine ⟨(), _, y.2, ?_, hi', hg, h _ hi' hat'⟩
  have hget : y.1.heap.get n = o := hget
  simp [ArtOp.exec, Heap.access, hiy.owned n t ho, hget]

theorem wp_fresh_insertChild {Q : Unit → World V → Prop} {τ : NodeType} {b : UInt8}
    {q : ArtTinyPtr V} (hi : Inv A U x) (hQ : (artProtocol A U).Stable t Q)
    (hat : Holding t tid done ((n, o) :: L) H x) (hτ : V.nodeType n.special = some τ)
    (hins : o.insert τ b q = some o')
    (h : ∀ y, Inv A U y → Holding t tid done ((n, o') :: L) H y → Q () y) :
    artWp A ids U t (insertChild n b q) Q (Failing t tid k) x :=
  wp_fresh_write hi hQ hat (by rw [hτ]; exact hins) h

theorem wp_create {Q : ArtTinyPtr V × Ref → World V → Prop} {c l : ℕ} {src : List UInt8}
    {h : TinyPtrHashes} {τ : NodeType} (hi : Inv A U x) (hQ : (artProtocol A U).Stable t Q)
    (hat : Holding t tid false L H x) (hτ : V.nodeType c = some τ)
    (hq : ∀ y q n id (new : Obj V), Inv A U y →
      Holding t tid false ((n, new.construct c id src l) :: L) H y →
      Denotes A.indexer q h (some n) → n.special = c → Q (q, n) y) :
    artWp A ids U t (create c src l h) Q (Failing t tid k) x := by
  have hlt := (V.nodeType_lt (c := c) (by rw [hτ]; exact Option.some_ne_none τ)).1
  refine wpOr_bind hi Failing.stable (wp_allocate hi Stable.wpOr hat hlt
    fun y q n o hiy hy hd hn => ?_)
  refine wpOr_bind hiy Failing.stable (wp_quiet Stable.wpOr (fun _ => rfl) fun id z hz hiz => ?_)
  refine wpOr_bind hiz Failing.stable (wp_fresh_write hiz Stable.wpOr (hy.rely hz) rfl
    fun w hiw hw => ?_)
  exact wpOr_pure hQ (hq w q n id o hiw hw hd hn)

theorem wp_createLeaf {Q : ArtTinyPtr V × Ref → World V → Prop} {w : UInt64} {h : TinyPtrHashes}
    (hi : Inv A U x) (hQ : (artProtocol A U).Stable t Q) (hat : Holding t tid false L H x)
    (hq : ∀ y q n (new : Obj V), Inv A U y → Holding t tid false ((n, new.constructLeaf w) :: L) H
      y → Denotes A.indexer q h (some n) → n.special = leafS → Q (q, n) y) :
    artWp A ids U t (createLeaf w h) Q (Failing t tid k) x := by
  refine wpOr_bind hi Failing.stable (wp_allocate hi Stable.wpOr hat (by unfold leafS; positivity)
    fun y q n o hiy hy hd hn => ?_)
  refine wpOr_bind hiy Failing.stable (wp_fresh_write hiy Stable.wpOr hy rfl fun z hiz hz => ?_)
  exact wpOr_pure hQ (hq z q n o hiz hz hd hn)

theorem wp_relocateNode {Q : ArtTinyPtr V × Ref → World V → Prop} {q : ArtTinyPtr V}
    {h : TinyPtrHashes} {τ : NodeType} (hi : Inv A U x) (hQ : (artProtocol A U).Stable t Q)
    (hat : Holding t tid false L H x) (hg : g ∈ H) (hspecial : q.special = g.ref.special)
    (hτ : V.nodeType g.ref.special = some τ)
    (hq : ∀ y q n, Inv A U y → Holding t tid false ((n, g.obj) :: L) H y →
      Denotes A.indexer q h (some n) → n.special = g.ref.special → Q (q, n) y) :
    artWp A ids U t (relocateNode q g.ref h) Q (Failing t tid k) x := by
  have hlt := (V.nodeType_lt (c := g.ref.special) (by rw [hτ]; exact Option.some_ne_none τ)).1
  unfold relocateNode
  rw [if_pos ⟨hspecial, by rw [hspecial, hτ]; rfl⟩, hspecial]
  refine wpOr_bind hi Failing.stable (wp_allocate hi Stable.wpOr hat hlt
    fun y q n o hiy hy hd hn => ?_)
  refine wpOr_bind hiy Failing.stable (wp_own_read hiy Stable.wpOr hy (Or.inr ⟨g, hg, rfl, rfl⟩)
    fun z hiz hz => ?_)
  refine wpOr_bind hiz Failing.stable (wp_fresh_write hiz Stable.wpOr hz rfl fun w hiw hw => ?_)
  exact wpOr_pure hQ (hq w q n hiw hw hd hn)

theorem wp_upgradeToWriteLock {Q : Bool → World V → Prop} {P : Obj V → Prop} (hi : Inv A U x)
    (hQ : (artProtocol A U).Stable t Q) (hat : Holding t tid done L H x) (hs : Seen n κ v P x)
    (htrue : ∀ y o, Later x y → Inv A U y → P o →
      Holding t tid done L (⟨n, κ, { o with typeVersionLockObsolete := v + 0b10 }, true⟩ :: H) y →
      Q true y)
    (hfalse : ∀ y, Inv A U y → Holding t tid done L H y → Q false y) :
    artWp A ids U t (upgradeToWriteLock n v) Q (Failing t tid k) x := by
  refine wp_access hi Failing.stable hQ fun y hy hiy hb => ?_
  have hsy := hs.rely hy
  have haty := hat.rely hy
  have hlive := hiy.live n κ hsy.kind
  by_cases hw : y.word n = v
  · obtain ⟨hi', hg, hat'⟩ := haty.lock_step hiy hsy.kind (hw ▸ hsy.free) hb
      (w := v + 0b10) (by rw [hw])
    refine ⟨true, _, _, ?_, hi', hg, htrue _ _ (hy.toLater.trans (later_of_guar hg)) hi'
      (hsy.holds hw) hat'⟩
    have hw : (y.1.heap.get n).typeVersionLockObsolete = v := hw
    simp [ArtOp.exec, Heap.access, hlive, hw, World.get]
  · have hget : ∀ m, (y.1.heap.set n (y.get n)).get m = y.get m := by
      intro m
      by_cases hm : m = n
      · rw [hm, Heap.get_set_self]
      · exact Heap.get_set_ne hm
    have hi' : Inv A U (World.step y _ y.2.owner) :=
      hiy.step_private (hiy.wf.set hlive) (fun m hm => Heap.live_set.mpr hm)
      (fun m _ _ => hget m) fun m u hm => Or.inl hm
    have hr : ∀ u, Rely u y (y.step (y.1.heap.set n (y.get n)) y.2.owner) := fun u =>
      .of_private (fun m hm => Heap.live_set.mpr hm) (fun m _ _ => hget m) fun m hm => ⟨hm, hget m⟩
    refine ⟨false, _, y.2, ?_, hi', fun u _ => hr u, hfalse _ hi' (haty.rely (hr t))⟩
    have hw : ¬ (y.1.heap.get n).typeVersionLockObsolete = v := hw
    simp [ArtOp.exec, Heap.access, hlive, hw, World.get]

theorem wp_upgradeToWriteLockOrRestart {Q : Unit → World V → Prop} {P : Obj V → Prop}
    (hi : Inv A U x) (hQ : (artProtocol A U).Stable t Q) (hat : Holding t tid false L H x)
    (hs : Seen n κ v P x)
    (h : ∀ y o, Later x y → Inv A U y → P o →
      Holding t tid false L (⟨n, κ, { o with typeVersionLockObsolete := v + 0b10 }, true⟩ :: H) y →
      Q () y) : artWp A ids U t (upgradeToWriteLockOrRestart n v) Q (Failing t tid k) x :=
  wpOr_bind hi Failing.stable (wp_upgradeToWriteLock hi Stable.wpOr hat hs
    (fun y o hl hiy ho hy => wpOr_pure hQ (h y o hl hiy ho hy))
    fun _ _ hy => wpOr_throw Failing.stable hy.drop)

theorem wp_fetchAdd {Q : Unit → World V → Prop} {d : UInt64} (hi : Inv A U x)
    (hQ : (artProtocol A U).Stable t Q) (hat : Holding t tid done L (g :: H) x)
    (hd : d = 0b10 ∧ g.placed = true ∨ d = 0b11)
    (h : ∀ y, Later x y → Inv A U y → Holding t tid done L H y → Q () y) :
    artWp A ids U t (access (.fetchAdd g.ref d)) Q (Failing t tid k) x := by
  refine wp_access hi Failing.stable hQ fun y hy hiy _ => ?_
  have haty := hat.rely hy
  obtain ⟨ho, -, hget, -⟩ := haty.grips g List.mem_cons_self
  obtain ⟨v, hv, hmod, hle⟩ := haty.word hiy (g := g) List.mem_cons_self
  have hd' : d.toNat = 2 ∨ d.toNat = 3 := by
    rcases hd with ⟨rfl, -⟩ | rfl
    · exact Or.inl rfl
    · exact Or.inr rfl
  have hw : Word V g.ref (g.obj.typeVersionLockObsolete + d) (v + d.toNat) := hv.add (by omega) rfl
  obtain ⟨hi', hg, hat'⟩ := haty.unlock_step hiy hw (by omega)
    (by rw [hv.toNat, hw.toNat]; omega) fun hfree => by
    rcases hd with ⟨-, hp⟩ | rfl
    · exact hp
    · have := hw.free_iff.mp hfree
      have h3 : (0b11 : UInt64).toNat = 3 := rfl
      omega
  refine ⟨(), _, _, ?_, hi', hg, h _ (hy.toLater.trans (later_of_guar hg)) hi' hat'⟩
  have hget : y.1.heap.get g.ref = g.obj := hget
  simp [ArtOp.exec, Heap.access, hiy.owned _ t ho, hget]

/-- The write that publishes a tree. -/
theorem wp_publish {Q : Unit → World V → Prop} {f : Obj V → Option (Obj V)} (hi : Inv A U x)
    (hQ : (artProtocol A U).Stable t Q)
    (hat : Holding t tid false L (⟨n, .node p π id, o, true⟩ :: H) x) (hf : f o = some o')
    (hp : ∀ y, Rely t x y → Inv A U y → Holding t tid false L (⟨n, .node p π id, o, true⟩ :: H) y →
      ∃ R' M', Publishes A y t tid n o' R' M' ∧ M' p = some n)
    (h : ∀ y, Inv A U y → Holding t tid true [] (⟨n, .node p π id, o', true⟩ :: H.map
      Grip.replaced) y → Q () y) : artWp A ids U t (access (.write n f)) Q (Failing t tid k) x := by
  refine wp_access hi Failing.stable hQ fun y hy hiy _ => ?_
  have haty := hat.rely hy
  obtain ⟨ho, -, hget, -⟩ := haty.grips _ List.mem_cons_self
  obtain ⟨R', M', hpub, hM⟩ := hp y hy hiy haty
  refine ⟨(), _, _, ?_, hpub.inv hiy, fun u hu => hpub.rely hiy hu, h _ (hpub.inv hiy)
    (haty.publish hpub hM)⟩
  have hget : y.1.heap.get n = o := hget
  simp [ArtOp.exec, Heap.access, hiy.owned n t ho, hget, hf]

theorem wp_writeUnlock {Q : Unit → World V → Prop} (hi : Inv A U x)
    (hQ : (artProtocol A U).Stable t Q) (hat : Holding t tid done L (g :: H) x)
    (hp : g.placed = true) (h : ∀ y, Later x y → Inv A U y → Holding t tid done L H y → Q () y) :
    artWp A ids U t (writeUnlock g.ref) Q (Failing t tid k) x :=
  wp_fetchAdd hi hQ hat (Or.inl ⟨rfl, hp⟩) h

theorem wp_writeUnlockObsolete {Q : Unit → World V → Prop} (hi : Inv A U x)
    (hQ : (artProtocol A U).Stable t Q) (hat : Holding t tid done L (g :: H) x)
    (h : ∀ y, Later x y → Inv A U y → Holding t tid done L H y → Q () y) :
    artWp A ids U t (writeUnlockObsolete g.ref) Q (Failing t tid k) x :=
  wp_fetchAdd hi hQ hat (Or.inr rfl) h

theorem wp_mark {Q : Unit → World V → Prop} {q : ArtTinyPtr V} {h : TinyPtrHashes}
    (hQ : (artProtocol A U).Stable t Q) (hat : Holding t tid done L H x)
    (hq : ∀ y, Inv A U y → Holding t tid done L H y → Q () y) :
    artWp A ids U t (Throwing.op (.markNodeForDeletion q h)) Q (Failing t tid k) x :=
  wp_quiet hQ (fun _ => rfl) fun _ z hz hiz => hq z hiz (hat.rely hz)

end Rules

end TinyPointerTrees.Art
