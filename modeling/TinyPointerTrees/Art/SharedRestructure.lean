import TinyPointerTrees.Art.Restructure
import TinyPointerTrees.Art.SharedWrites

/-!
# How insertions change a shared tree

The four ways in which `insert` ends, among other threads. Each of them locks one or two
nodes, builds what is new, and publishes it with one write of a pointer into the
upper of them: `publishes_addLeaf`, `publishes_grow` and `publishes_split` say which
tree that makes, whatever the other threads have made of the rest of it meanwhile.

A thread that cannot lock the second node starts again. It unlocks the first, but not
if the second is a leaf.
-/

namespace TinyPointerTrees.Art

open Conc ArtM Protocol

variable {V : Variant} {A : Tree V} {ids : ℕ → UInt64} {U : Set Key} {t : ℕ} {x y : World V}
  {n m : Ref} {k p : Key} {π r : List UInt8} {id v tid : UInt64} {τ : NodeType} {b c : UInt8}
  {q : ArtTinyPtr V} {o o' : Obj V} {L : List (Ref × Obj V)} {H : List (Grip V)} {n₀ n' : Ref}
  {p₀ z : Key} {π₀ : List UInt8} {id₀ : UInt64} {c₀ : UInt8} {o₀ o₀' on big : Obj V}
  {τ₀ τ' : NodeType} {n₁ n₂ n₃ : Ref} {o₁ o₂ o₃ : Obj V} {μ r' : List UInt8} {a : UInt8}
  {val : Option UInt64}

/-! ### What is published -/

theorem Holding.not_placed (hat : Holding t tid false L H x) (hi : Inv A U x) (hm : (m, o) ∈ L)
    (p : Key) : x.2.place p ≠ some m := by
  intro hp
  obtain ⟨κ, hκ⟩ := hi.exists_kind hp
  rw [(hat.fresh _ hm).2.1] at hκ
  cases hκ

/-- Thread `t` has locked an inner node, which is in the tree. -/
structure Gripped (A : Tree V) (t : ℕ) (n : Ref) (p : Key) (π : List UInt8) (id : UInt64)
    (o : Obj V) (x : World V) : Prop where
  owner : x.2.owner n = some t
  kind : x.2.kind n = some (.node p π id)
  place : x.2.place p = some n
  item : x.2.tree.item p = some ⟨π, none⟩
  get : x.1.heap.get n = o
  id_eq : o.id = id
  inner : ∀ τ, V.nodeType n.special = some τ → Inner A.indexer x.2.place p π n τ o

theorem Holding.node {done : Bool} (hat : Holding t tid done L H x) (hi : Inv A U x)
    (hg : (⟨n, .node p π id, o, true⟩ : Grip V) ∈ H) : Gripped A t n p π id o x := by
  obtain ⟨ho, hk, hget, hp⟩ := hat.grips _ hg
  have hp : x.2.place p = some n := hp rfl p π id rfl
  obtain ⟨hitem, hid, hin⟩ := hi.inner_of_place hk hp
  rw [hget] at hid hin
  exact ⟨ho, hk, hp, hitem, hget, hid, hin⟩

/-- A write into the node leaves the rest of the tree alone. -/
theorem Gripped.kept (hg : Gripped A t n p π id o x) (hi : Inv A U x) {a : Key} (ha : a ≠ p)
    (hm : x.2.place a = some m) :
    (x.1.heap.set n o').Live m ∧ SameBody (x.1.heap.get m) ((x.1.heap.set n o').get m) := by
  have hne : m ≠ n := by
    rintro rfl
    exact ha (hi.shape.inj a p m hm hg.place)
  rw [Heap.live_set, Heap.get_set_ne hne]
  exact ⟨hi.shape.live hm, SameBody.refl _⟩

/-- A write into the node leaves what was built alone. -/
theorem Holding.built (hat : Holding t tid false L H x) (o' : Obj V) (hi : Inv A U x)
    (hm : (m, o) ∈ L) (hg : Gripped A t n p π id on x) :
    (x.1.heap.set n o').Live m ∧ (x.1.heap.set n o').get m = o := by
  obtain ⟨ho, hk, hget⟩ := hat.fresh (m, o) hm
  have hget : x.1.heap.get m = o := hget
  have hne : m ≠ n := by
    rintro rfl
    rw [hg.kind] at hk
    cases hk
  rw [Heap.live_set, Heap.get_set_ne hne]
  exact ⟨hi.owned m t ho, hget⟩

/-- A write into a node publishes what was built, at places below one of its edges. -/
theorem exists_publishes {new : List (Key × Ref)} {R' : RadixTree UInt8 UInt64}
    (hat : Holding t tid false L H x) (hg : Gripped A t n₀ p₀ π₀ id₀ o₀ x)
    (hz : p₀ ++ π₀ ++ [c₀] = z) (hhead : o₀.SameHead o₀')
    (hnew : ∀ e ∈ new, ∃ o v, (e.2, o) ∈ L ∧
      Word V e.2 o.typeVersionLockObsolete v ∧ v ≤ 2 ^ 61 + 5)
    (hbelow : ∀ e ∈ new, z <+: e.1)
    (hshape : Shape A (x.1.heap.set n₀ o₀') R' (putAll x.2.place new))
    (hitem : ∀ q, q ∉ new.map Prod.fst → R'.item q = x.2.tree.item q)
    (hgone : ∀ q ∈ new.map Prod.fst, ∀ l, x.2.place q = some l →
      ∀ π id, x.2.kind l = some (.node q π id) → x.2.owner l = some t)
    (hmaps : ∀ k v, R'.Maps k v ↔ (k = A.loadKey tid ∧ v = tid) ∨ x.2.tree.Maps k v) :
    ∃ R' M', Publishes A x t tid n₀ o₀' R' M' ∧ M' p₀ = some n₀ := by
  have hM : putAll x.2.place new p₀ = some n₀ :=
    (putAll_outside hbelow (not_prefix_parent hz)).trans hg.place
  have hhead : (x.get n₀).SameHead o₀' := by
    unfold World.get
    rw [hg.get]
    exact hhead
  refine ⟨R', _, ⟨hg.owner, ⟨_, hg.kind⟩, hhead, hshape, ⟨p₀, hM⟩, fun q l hql => ?_,
    fun q π id l hkl hql => ?_, hat.doing, hmaps⟩, hM⟩
  · rcases putAll_cases hql with hmem | ⟨hq, hold⟩
    · obtain ⟨o, v, ho, hv, hle⟩ := hnew _ hmem
      obtain ⟨how, hk, hget⟩ := hat.fresh _ ho
      refine Or.inr ⟨how, hk, v, ?_, hle⟩
      unfold World.word
      rwa [hget]
    · exact Or.inl ⟨hold, hitem q hq⟩
  · by_cases hq : q ∈ new.map Prod.fst
    · exact Or.inr (hgone q hq l hql π id hkl)
    · exact Or.inl ((putAll_of_notMem hq).trans hql)

/-- A leaf is added to a node that has room. -/
theorem publishes_addLeaf (hi : Inv A U x)
    (hat : Holding t tid false [(m, o)] (⟨n, .node p π id, o', true⟩ :: H) x) {o'' : Obj V}
    (hτ : V.nodeType n.special = some τ) (hnull : o'.getChild τ c = .null)
    (hins : o'.insert τ c q = some o'') (hq : Denotes A.indexer q (idHash id c) (some m))
    (hms : m.special = leafS) (hmv : o.value = tid) (hw : Word V m o.typeVersionLockObsolete 4)
    (hk : A.loadKey tid = p ++ π ++ [c] ++ r) :
    ∃ R' M', Publishes A x t tid n o'' R' M' ∧ M' p = some n := by
  have hg := hat.node hi List.mem_cons_self
  have hin := hg.inner τ hτ
  have hnone : x.2.place (p ++ π ++ [c]) = none := hin.getChild_eq_null_iff.mp hnull
  have hfree := hi.shape.eq_none_iff.mp hnone
  obtain ⟨hlm, hgetm⟩ := hat.built o'' hi List.mem_cons_self hg
  have hin' : Inner A.indexer (Function.update x.2.place (p ++ π ++ [c]) (some m)) p π n τ
    ((x.1.heap.set n o'').get n) := by
    rw [Heap.get_set_self]
    exact hin.insert hnone hins (hg.id_eq ▸ hq) (Function.update_self ..) fun d hd =>
      Function.update_of_ne (by simpa using hd) ..
  have hshape := hi.shape.addLeaf hg.item hfree hg.place
    (Heap.live_set.mpr (hi.live n _ hg.kind)) hin' (hat.not_placed hi List.mem_cons_self) hlm hms
    (by rw [hgetm, hmv]) (fun _ _ => hg.kept hi) hk
  have hbelow : ∀ e ∈ [(p ++ π ++ [c], m)], p ++ π ++ [c] <+: e.1 := by simp
  refine exists_publishes hat hg rfl (Obj.SameHead.of_insert hins) ?_ hbelow hshape
    (fun a ha => RadixTree.item_addLeaf_ne (by simpa using ha)) ?_ fun k' v' => ?_
  · intro e he
    obtain rfl := List.mem_singleton.1 he
    exact ⟨o, 4, List.mem_cons_self, hw, by norm_num⟩
  · intro a ha l hl
    obtain rfl : a = p ++ π ++ [c] := by simpa using ha
    rw [hnone] at hl
    cases hl
  · rw [hk]
    exact RadixTree.maps_addLeaf

/-- A copy of a node takes its place, with one leaf more. -/
theorem publishes_grow (hi : Inv A U x)
    (hat : Holding t tid false [(n', big), (m, o)] [⟨n₀, .node p₀ π₀ id₀, o₀, true⟩,
      ⟨n, .node z π id, on, true⟩] x)
    (hz : p₀ ++ π₀ ++ [c₀] = z) (hτ₀ : V.nodeType n₀.special = some τ₀)
    (hq : Denotes A.indexer q (idHash id₀ c₀) (some n')) (hchange : o₀.change τ₀ c₀ q = some o₀')
    (hτ : V.nodeType n.special = some τ) (hnull : on.getChild τ c = .null)
    (hbig : ∀ M M' : Key → Option Ref, Inner A.indexer M z π n τ on → M (z ++ π ++ [c]) = none →
      M' (z ++ π ++ [c]) = some m → (∀ d, d ≠ c → M' (z ++ π ++ [d]) = M (z ++ π ++ [d])) →
      Inner A.indexer M' z π n' τ' big)
    (hw' : Word V n' big.typeVersionLockObsolete 4) (hms : m.special = leafS) (hmv : o.value = tid)
    (hw : Word V m o.typeVersionLockObsolete 4) (hk : A.loadKey tid = z ++ π ++ [c] ++ r) :
    ∃ R' M', Publishes A x t tid n₀ o₀' R' M' ∧ M' p₀ = some n₀ := by
  have hg := hat.node hi (List.mem_cons_of_mem _ List.mem_cons_self)
  have hg₀ := hat.node hi List.mem_cons_self
  have hin := hg.inner τ hτ
  obtain ⟨hl', hget'⟩ := hat.built o₀' hi List.mem_cons_self hg₀
  obtain ⟨hlm, hgetm⟩ := hat.built (m := m) (o := o) o₀' hi (by simp) hg₀
  have hnone : x.2.place (z ++ π ++ [c]) = none := hin.getChild_eq_null_iff.mp hnull
  have hfree := hi.shape.eq_none_iff.mp hnone
  have hmn' : m ≠ n' := by
    rintro rfl
    simpa using hat.nodup
  -- where the copy and the leaf are
  have hnd : ([(z ++ π ++ [c], m), (z, n')].map Prod.fst).Nodup := by simp
  have hbelow : ∀ e ∈ [(z ++ π ++ [c], m), (z, n')], z <+: e.1 := by simp
  have hMz : putAll x.2.place [(z ++ π ++ [c], m), (z, n')] z = some n' :=
    putAll_of_mem hnd (by simp)
  have hMc : putAll x.2.place [(z ++ π ++ [c], m), (z, n')] (z ++ π ++ [c]) = some m :=
    putAll_of_mem hnd (by simp)
  have hin₀' : Inner A.indexer (putAll x.2.place [(z ++ π ++ [c], m), (z, n')]) p₀ π₀ n₀ τ₀
    ((x.1.heap.set n₀ o₀').get n₀) := by
    rw [Heap.get_set_self]
    exact (hg₀.inner τ₀ hτ₀).change hchange (hg₀.id_eq ▸ hq) (hz ▸ hMz) fun d hd =>
      putAll_outside hbelow (not_prefix_sibling hz hd)
  have hin' : Inner A.indexer (putAll x.2.place [(z ++ π ++ [c], m), (z, n')]) z π n' τ'
    ((x.1.heap.set n₀ o₀').get n') := by
    rw [hget']
    exact hbig x.2.place _ hin hnone hMc fun d hd => putAll_of_notMem (by simpa using hd)
  have hshape := hi.shape.grow hg₀.item hz hg.item hfree hg₀.place
    (Heap.live_set.mpr (hi.live n₀ _ hg₀.kind)) rfl hin₀' (hat.not_placed hi List.mem_cons_self) hl'
    hin' (hat.not_placed hi (o := o) (by simp)) hmn' hlm hms (by rw [hgetm, hmv])
    (fun _ _ ha _ => hg₀.kept hi ha) hk
  refine exists_publishes hat hg₀ hz (Obj.SameHead.of_change hchange) ?_ hbelow hshape
    (fun a ha => RadixTree.item_addLeaf_ne (by simp at ha; simpa using ha.1)) ?_ fun k' v' => ?_
  · intro e he
    rcases List.mem_pair.1 he with rfl | rfl
    · exact ⟨o, 4, by simp, hw, by norm_num⟩
    · exact ⟨big, 4, by simp, hw', by norm_num⟩
  · intro a ha l hl π' id' _
    rw [List.map_cons, List.map_cons, List.map_nil, List.mem_pair] at ha
    rcases ha with rfl | rfl
    · rw [hnone] at hl
      cases hl
    · rw [hg.place] at hl
      cases hl
      exact hg.owner
  · rw [hk]
    exact RadixTree.maps_addLeaf

/-- A new node takes the place of what is on an edge: what was there, with a shorter stem, and a
leaf. -/
theorem publishes_split (hi : Inv A U x)
    (hat : Holding t tid false [(n₁, o₁), (n₂, o₂), (n₃, o₃)] H x)
    (hg : (⟨n₀, .node p₀ π₀ id₀, o₀, true⟩ : Grip V) ∈ H) (hz : p₀ ++ π₀ ++ [c₀] = z)
    (hτ₀ : V.nodeType n₀.special = some τ₀) (hq : Denotes A.indexer q (idHash id₀ c₀) (some n₁))
    (hchange : o₀.change τ₀ c₀ q = some o₀') (hitem : x.2.tree.item z = some ⟨μ ++ a :: r, val⟩)
    (hgone : ∀ l, x.2.place z = some l → ∀ π id, x.2.kind l = some (.node z π id) →
      x.2.owner l = some t)
    (had : a ≠ c)
    (hin₁ : ∀ M : Key → Option Ref, M (z ++ μ ++ [a]) = some n₂ → M (z ++ μ ++ [c]) = some n₃ →
      (∀ d, d ≠ c → d ≠ a → M (z ++ μ ++ [d]) = none) → Inner A.indexer M z μ n₁ τ o₁)
    (hw₁ : Word V n₁ o₁.typeVersionLockObsolete 4)
    (hin₂ : (val = none ∧ ∃ τ', Inner A.indexer x.2.place (z ++ μ ++ [a]) r n₂ τ' o₂) ∨
      ∃ w, val = some w ∧ n₂.special = leafS ∧ o₂.value = w)
    (hw₂ : ∃ v, Word V n₂ o₂.typeVersionLockObsolete v ∧ v ≤ 2 ^ 61 + 5) (hms : n₃.special = leafS)
    (hmv : o₃.value = tid) (hw₃ : Word V n₃ o₃.typeVersionLockObsolete 4)
    (hk : A.loadKey tid = z ++ μ ++ [c] ++ r') :
    ∃ R' M', Publishes A x t tid n₀ o₀' R' M' ∧ M' p₀ = some n₀ := by
  have hg₀ := hat.node hi hg
  have hnd : n₁ ≠ n₂ ∧ n₁ ≠ n₃ ∧ n₂ ≠ n₃ := by
    have := hat.nodup
    simp only [List.map_cons, List.map_nil, List.nodup_cons, List.mem_cons, List.not_mem_nil,
      or_false, not_or] at this
    exact ⟨this.1.1, this.1.2, this.2.1⟩
  have h₁ : (n₁, o₁) ∈ [(n₁, o₁), (n₂, o₂), (n₃, o₃)] := by simp
  have h₂ : (n₂, o₂) ∈ [(n₁, o₁), (n₂, o₂), (n₃, o₃)] := by simp
  have h₃ : (n₃, o₃) ∈ [(n₁, o₁), (n₂, o₂), (n₃, o₃)] := by simp
  obtain ⟨hl₁, hget₁⟩ := hat.built o₀' hi h₁ hg₀
  obtain ⟨hl₂, hget₂⟩ := hat.built o₀' hi h₂ hg₀
  obtain ⟨hl₃, hget₃⟩ := hat.built o₀' hi h₃ hg₀
  have hz0 : z ≠ [] := by
    rw [← hz]
    simp
  have hstem : ∀ e, x.2.place (z ++ μ ++ [e]) = none :=
    fun e => hi.shape.eq_none_iff.mpr (RadixTree.none_of_stem hitem e)
  -- where the three new objects are
  have hkeys : ([(z ++ μ ++ [c], n₃), (z ++ μ ++ [a], n₂), (z, n₁)].map Prod.fst).Nodup := by
    simp [had.symm]
  have hbelow : ∀ e ∈ [(z ++ μ ++ [c], n₃), (z ++ μ ++ [a], n₂), (z, n₁)], z <+: e.1 := by simp
  generalize hnews : [(z ++ μ ++ [c], n₃), (z ++ μ ++ [a], n₂), (z, n₁)] = new at hkeys hbelow
  have hMz : putAll x.2.place new z = some n₁ := putAll_of_mem hkeys (by simp [← hnews])
  have hMa : putAll x.2.place new (z ++ μ ++ [a]) = some n₂ :=
    putAll_of_mem hkeys (by simp [← hnews])
  have hMc : putAll x.2.place new (z ++ μ ++ [c]) = some n₃ :=
    putAll_of_mem hkeys (by simp [← hnews])
  have hin₀ : Inner A.indexer (putAll x.2.place new) p₀ π₀ n₀ τ₀
    ((x.1.heap.set n₀ o₀').get n₀) := by
    rw [Heap.get_set_self]
    exact (hg₀.inner τ₀ hτ₀).change hchange (hg₀.id_eq ▸ hq) (hz ▸ hMz) fun d hd =>
      putAll_outside hbelow (not_prefix_sibling hz hd)
  have hin₁' : Inner A.indexer (putAll x.2.place new) z μ n₁ τ ((x.1.heap.set n₀ o₀').get n₁) := by
    rw [hget₁]
    refine hin₁ _ hMa hMc fun d hdc hda => ?_
    rw [putAll_of_notMem (by simp [← hnews, hdc, hda]), hstem]
  have hshape := hi.shape.split hg₀.item hz hitem hz0 had
    (congrArg (putAll x.2.place) hnews.symm) hg₀.place (Heap.live_set.mpr (hi.live n₀ _ hg₀.kind))
    hin₀ (hat.not_placed hi h₁) hl₁ hin₁' (hat.not_placed hi h₂) hnd.1.symm hl₂ (hget₂.symm ▸ hin₂)
    (hat.not_placed hi h₃) hnd.2.1.symm hnd.2.2.symm hl₃ hms (by rw [hget₃, hmv]) (fun _ _ hq₀ _ =>
    hg₀.kept hi hq₀) hk
  refine exists_publishes hat hg₀ hz (Obj.SameHead.of_change hchange) ?_ hbelow hshape ?_
    ?_ fun k' v' => ?_
  · intro e he
    rw [← hnews, List.mem_cons, List.mem_pair] at he
    rcases he with rfl | rfl | rfl
    · exact ⟨o₃, 4, h₃, hw₃, by norm_num⟩
    · obtain ⟨v, hv, hle⟩ := hw₂
      exact ⟨o₂, v, h₂, hv, hle⟩
    · exact ⟨o₁, 4, h₁, hw₁, by norm_num⟩
  · intro q hq
    simp only [← hnews, List.map_cons, List.map_nil, List.mem_cons, List.not_mem_nil,
      or_false, not_or] at hq
    exact RadixTree.item_split_of_ne hq.1 hq.2.1 hq.2.2
  · intro q hq l hl π id hkl
    simp only [← hnews, List.map_cons, List.map_nil, List.mem_cons,
      List.not_mem_nil, or_false] at hq
    rcases hq with rfl | rfl | rfl
    · rw [hstem c] at hl
      cases hl
    · rw [hstem a] at hl
      cases hl
    · exact hgone l hl π id hkl
  · rw [hk]
    exact RadixTree.maps_split

namespace Tree

/-! ### The four ways to insert -/

theorem generateVal_wp {Q : ArtTinyPtr V → World V → Prop} (hi : Inv A U x)
    (hQ : (artProtocol A U).Stable t Q) (hat : Holding t tid false L H x)
    (ho : Holding.Owns L H n o)
    (hq : ∀ y q m (new : Obj V), Inv A U y → Holding t tid false ((m, new.constructLeaf tid) :: L) H
      y → Denotes A.indexer q (idHash o.id c) (some m) → m.special = leafS → Q q y) :
    artWp A ids U t (generateVal tid n c) Q (Failing t tid k) x :=
  wpOr_bind hi Failing.stable (wp_own_getId hi Stable.wpOr hat ho fun _ hiy hy =>
    wpOr_bind hiy Failing.stable (wp_createLeaf hiy Stable.wpOr hy fun z q m new hiz hz hd hm =>
      wpOr_pure hQ (hq z q m new hiz hz hd hm)))

theorem insertInPlace_wp (hi : Inv A U x) (hat : Holding t tid false [] [] x)
    (hτ : V.nodeType n.special = some τ)
    (hs : Seen n (.node p π id) v (fun o => o.isFull τ = false ∧ o.getChild τ c = .null) x)
    (hload : A.loadKey tid = p ++ π ++ [c] ++ r) {parentNode : Option Ref} {pv : UInt64}
    (hparent : ∀ m ∈ parentNode, ∃ κ, Seen m κ pv (fun _ => True) x) :
    artWp A ids U t (insertInPlace tid n v parentNode pv c) (fun _ => Holding t tid true [] [])
      (Failing t tid k) x := by
  have hwrite : ∀ y, Inv A U y → Holding t tid false [] [] y →
      Seen n (.node p π id) v (fun o => o.isFull τ = false ∧ o.getChild τ c = .null) y →
      artWp A ids U t (do
        upgradeToWriteLockOrRestart n v
        let p ← generateVal tid n c
        insertChild n c p
        writeUnlock n) (fun _ => Holding t tid true [] []) (Failing t tid k) y := by
    intro y hiy hy hs
    refine wpOr_bind hiy Failing.stable (wp_upgradeToWriteLockOrRestart hiy Stable.wpOr hy hs
      fun y o _ hiy ho hy => ?_)
    obtain ⟨hfull, hnull⟩ := ho
    generalize hobj : ({ o with typeVersionLockObsolete := v + 0b10 } : Obj V) = o' at hy
    have hnull' : o'.getChild τ c = .null := by rw [← hobj, ← hnull]; rfl
    have hfull' : o'.isFull τ = false := by rw [← hobj, ← hfull]; rfl
    refine wpOr_bind hiy Failing.stable (generateVal_wp hiy Stable.wpOr hy
      (Or.inr ⟨_, List.mem_cons_self, rfl, rfl⟩) fun z q m new hiz hz hd hm => ?_)
    have hgrip := hz.node hiz List.mem_cons_self
    obtain ⟨o'', hins⟩ : ∃ o'', o'.insert τ c q = some o'' :=
      Obj.insert_eq_some hfull' (hgrip.inner τ hτ).sound
    rw [hgrip.id_eq] at hd
    refine wpOr_bind hiz Failing.stable (wp_publish hiz Stable.wpOr hz (by rw [hτ]; exact hins)
      (fun w _ hiw hw =>
      publishes_addLeaf hiw hw hτ hnull' hins hd hm rfl (word_constructLeaf hm tid) hload)
        fun w hiw hw => ?_)
    exact wp_writeUnlock hiw Holding.stable hw rfl fun _ _ _ hu => hu
  unfold insertInPlace
  cases parentNode with
  | none => exact hwrite x hi hat hs
  | some m =>
    obtain ⟨κ, hm⟩ := hparent m rfl
    exact wpOr_bind hi Failing.stable (wp_readUnlockOrRestart hi Failing.stable Stable.wpOr hm hat
      fun y hy hiy _ _ =>
      hwrite y hiy (hat.rely hy) (hs.rely hy))

/-- The second of two nodes is not locked: the first is unlocked, and the insertion starts again. -/
theorem giveUp_wp {Q : α → World V → Prop} {κ : Kind} (hi : Inv A U x) (hat : Holding t tid false []
      [⟨n, κ, o, true⟩] x) :
    artWp A ids U t (do
      writeUnlock n
      throw .restart) Q (Failing t tid k) x :=
  wpOr_bind hi Failing.stable (wp_writeUnlock hi Stable.wpOr hat rfl fun _ _ _ hy => wpOr_throw
    Failing.stable hy)

theorem grow_wp {old : ArtTinyPtr V} {pv : UInt64} (hi : Inv A U x)
    (hat : Holding t tid false [] [] x) (hs₀ : Seen n₀ (.node p₀ π₀ id₀) pv (fun _ => True) x)
    (hz : p₀ ++ π₀ ++ [c₀] = z) (hτ : V.nodeType n.special = some τ)
    (hs : Seen n (.node z π id) v (fun o => o.isFull τ = true ∧ o.getChild τ c = .null) x)
    (hload : A.loadKey tid = z ++ π ++ [c] ++ r) :
    artWp A ids U t (grow tid n old v (some n₀) pv c₀ c) (fun _ => Holding t tid true [] [])
      (Failing t tid k) x := by
  obtain ⟨τ₀, hτ₀⟩ := hi.nodeType hs₀.kind
  unfold grow
  refine wpOr_bind hi Failing.stable (wp_defined Stable.wpOr rfl (wpOr_bind hi Failing.stable
    (wp_upgradeToWriteLockOrRestart hi Stable.wpOr hat hs₀ fun y o₀ hl hiy _ hy => ?_)))
  generalize ({ o₀ with typeVersionLockObsolete := pv + 0b10 } : Obj V) = o₀ at hy
  refine wpOr_bind hiy Failing.stable (wp_upgradeToWriteLock hiy Stable.wpOr hy (hs.later hl)
    (fun y on _ hiy hon hy => ?_) fun y hiy hy => giveUp_wp hiy hy)
  rw [Bool.not_true, if_neg Bool.false_ne_true]
  obtain ⟨hfull, hnull⟩ := hon
  generalize hobj : ({ on with typeVersionLockObsolete := v + 0b10 } : Obj V) = on' at hy
  have hnull' : on'.getChild τ c = .null := by rw [← hobj, ← hnull]; rfl
  have hfull' : on'.isFull τ = true := by rw [← hobj, ← hfull]; rfl
  obtain ⟨cap, hcap⟩ : ∃ cap, τ.capacity = some cap := by
    cases hcap : τ.capacity with
    | some cap => exact ⟨cap, rfl⟩
    | none => simp [Obj.isFull, hcap] at hfull'
  obtain ⟨τ', hτ', hroom⟩ := V.nodeType_biggerS hτ hcap
  have hy := hy.perm (List.Perm.refl _) (List.Perm.swap _ _ _)
  -- the copy
  refine wpOr_bind hiy Failing.stable (wp_getId hiy Failing.stable Stable.wpOr
    (hy.kind List.mem_cons_self) fun z₁ h₁ hi₁ => ?_)
  have hy₁ := hy.rely h₁
  refine wpOr_bind hi₁ Failing.stable (wp_own_read hi₁ Stable.wpOr hy₁
    (Or.inr ⟨_, List.mem_cons_of_mem _ List.mem_cons_self, rfl, rfl⟩) fun z₂ hi₂ hy₂ => ?_)
  refine wpOr_bind hi₂ Failing.stable (wp_create hi₂ Stable.wpOr hy₂ hτ'
    fun z₃ q n' id' new hi₃ hy₃ hq hn' => ?_)
  have hin := (hy₃.node hi₃ (List.mem_cons_of_mem _ List.mem_cons_self)).inner τ hτ
  obtain ⟨big₀, hcopy, hin', hroom', hw'⟩ := hin.copy hcap hτ' hroom hn' id' new
  refine wpOr_bind hi₃ Failing.stable (wp_fresh_write hi₃ Stable.wpOr hy₃ rfl fun z₄ hi₄ hy₄ => ?_)
  refine wpOr_bind hi₄ Failing.stable (wp_fresh_write hi₄ Stable.wpOr hy₄
    (show _ = some big₀ by rw [hτ, hτ']; exact hcopy)
    fun z₅ hi₅ hy₅ => ?_)
  -- the leaf, in the copy
  refine wpOr_bind hi₅ Failing.stable (generateVal_wp hi₅ Stable.wpOr hy₅
    (Or.inl List.mem_cons_self) fun z₆ q' m newm hi₆ hy₆ hd hm => ?_)
  obtain ⟨big, hins⟩ : ∃ big, big₀.insert τ' c q' = some big := Obj.insert_eq_some hroom' hin'.sound
  refine wpOr_bind hi₆ Failing.stable (wp_fresh_insertChild hi₆ Stable.wpOr
    (hy₆.perm (List.Perm.swap _ _ _) (List.Perm.refl _)) hin'.nodeType hins fun z₇ hi₇ hy₇ => ?_)
  -- the parent points to the copy
  have hplace := (hy₇.node hi₇ (List.mem_cons_of_mem _ List.mem_cons_self)).place
  have hinp := (hy₇.node hi₇ List.mem_cons_self).inner τ₀ hτ₀
  obtain ⟨o₀', hchange⟩ : ∃ o₀', o₀.change τ₀ c₀ q = some o₀' :=
    Obj.change_eq_some (hinp.denotes (by rw [hz]; exact hplace)).1
  have hbig : ∀ M M' : Key → Option Ref, Inner A.indexer M z π n τ on' → M (z ++ π ++ [c]) = none →
      M' (z ++ π ++ [c]) = some m → (∀ d, d ≠ c → M' (z ++ π ++ [d]) = M (z ++ π ++ [d])) →
      Inner A.indexer M' z π n' τ' big := by
    intro M M' hM hnone hc hne
    obtain ⟨big₁, hcopy', hM', -⟩ := hM.copy hcap hτ' hroom hn' id' new
    rw [hcopy] at hcopy'
    cases hcopy'
    exact hM'.insert hnone hins hd hc hne
  rw [← (Obj.SameHead.of_insert hins).word] at hw'
  refine wpOr_bind hi₇ Failing.stable (wp_publish hi₇ Stable.wpOr hy₇
    (by rw [hinp.classOf]; exact hchange) (fun w _ hiw hw =>
    publishes_grow hiw hw hz hτ₀ hq hchange hτ hnull' hbig hw' hm rfl (word_constructLeaf hm tid)
      hload) fun z₈ hi₈ hy₈ => ?_)
  refine wpOr_bind hi₈ Failing.stable (wp_writeUnlockObsolete hi₈ Stable.wpOr
    (hy₈.perm (List.Perm.refl _) (List.Perm.swap _ _ _)) fun z₉ _ hi₉ hy₉ => ?_)
  refine wpOr_bind hi₉ Failing.stable (wp_getId hi₉ Failing.stable Stable.wpOr
    (hy₉.kind List.mem_cons_self) fun u hu hiu => ?_)
  refine wpOr_bind hiu Failing.stable (wp_mark Stable.wpOr (hy₉.rely hu) fun w hiw hw => ?_)
  exact wp_writeUnlock hiw Holding.stable hw rfl fun _ _ _ h => h

/-- A new node with two children, wherever these are said to be. -/
theorem exists_fork {special : ℕ} {src : List UInt8} {q q' : ArtTinyPtr V}
    (hτ : V.nodeType special = some τ) (hroom : ∀ cap ∈ τ.capacity, 2 ≤ cap)
    (hn : n₁.special = special)
    (hsrc : ∀ j : Fin maxStoredPrefixLength, ∀ b, μ[j.val]? = some b → src.getD j.val 0 = b)
    (id : UInt64) (new : Obj V) (hca : c ≠ a) (hq : Denotes A.indexer q (idHash id c) (some n₃))
    (hq' : Denotes A.indexer q' (idHash id a) (some n₂)) :
    ∃ o₁ o₂, (new.construct special id src μ.length).insert τ c q = some o₁ ∧
      o₁.insert τ a q' = some o₂ ∧ Word V n₁ o₂.typeVersionLockObsolete 4 ∧ ∀ M :
      Key → Option Ref, M (z ++ μ ++ [a]) = some n₂ →
        M (z ++ μ ++ [c]) = some n₃ → (∀ d, d ≠ c → d ≠ a → M (z ++ μ ++ [d]) = none) →
          Inner A.indexer M z μ n₁ τ o₂ := by
  have hfork := fun M hc ha hM => Inner.fork (X := A.indexer) (M := M) (p := z) hτ hroom hn hsrc id
    new hca hq hq' hc ha hM
  obtain ⟨o₁, o₂, ho₁, ho₂, -, hw⟩ :=
    hfork (Function.update (Function.update (fun _ => none) (z ++ μ ++ [c]) (some n₃))
    (z ++ μ ++ [a]) (some n₂)) (by rw [Function.update_of_ne (by simpa using hca),
    Function.update_self])
    (Function.update_self ..) fun e hec hea => by
      rw [Function.update_of_ne (by simpa using hea), Function.update_of_ne (by simpa using hec)]
  refine ⟨o₁, o₂, ho₁, ho₂, hw, fun M ha hc hM => ?_⟩
  obtain ⟨o₁', o₂', ho₁', ho₂', hin, -⟩ := hfork M hc ha hM
  rw [ho₁] at ho₁'
  cases ho₁'
  rw [ho₂] at ho₂'
  cases ho₂'
  exact hin

/-- A new node, and a leaf for the edge of it that the key takes. -/
theorem wp_createWithLeaf
    {f : ArtTinyPtr V × Ref → UInt64 → UInt8 → ArtTinyPtr V × Ref → ArtM V Unit}
    {Q : Unit → World V → Prop} {src : List UInt8} {len level : ℕ} {hash : TinyPtrHashes}
    (hi : Inv A U x) (hat : Holding t tid false L H x) (hτ : V.nodeType V.initialS = some τ)
    (hbyte : k[level]? = some c)
    (hf : ∀ y q n₁ q₃ n₃ id (new o : Obj V), Inv A U y →
      Holding t tid false
        ((n₃, o.constructLeaf tid) :: (n₁, new.construct V.initialS id src len) :: L) H y →
      Denotes A.indexer q hash (some n₁) → n₁.special = V.initialS →
      Denotes A.indexer q₃ (idHash id c) (some n₃) → n₃.special = leafS →
      artWp A ids U t (f (q, n₁) id c (q₃, n₃)) Q (Failing t tid k) y) :
    artWp A ids U t (do
      let node ← create V.initialS src len hash
      let id ← getId node.2
      let c ← byteAt k level
      let leaf ← createLeaf tid (idHash id c)
      f node id c leaf) Q (Failing t tid k) x := by
  refine wpOr_bind hi Failing.stable (wp_create hi Stable.wpOr hat hτ
    fun y₁ q n₁ id new hi₁ hy₁ hq hn₁ => ?_)
  have hid : (new.construct V.initialS id src len).id = id := by simp [Obj.construct]
  refine wpOr_bind hi₁ Failing.stable (wp_own_getId hi₁ Stable.wpOr hy₁ (Or.inl List.mem_cons_self)
    fun y₂ hi₂ hy₂ => ?_)
  rw [hid]
  refine wpOr_bind hi₂ Failing.stable (wp_inBounds Stable.wpOr hbyte (wpOr_bind hi₂ Failing.stable
    (wp_createLeaf hi₂ Stable.wpOr hy₂ fun y₃ q₃ n₃ o hi₃ hy₃ hd₃ hn₃ => ?_)))
  exact hf y₃ q n₁ q₃ n₃ id new o hi₃ hy₃ hq hn₁ hd₃ hn₃

/-- The new node gets its two children. -/
theorem wp_fork {f : ArtM V Unit} {Q : Unit → World V → Prop} {src : List UInt8}
    {new : Obj V} {q q' : ArtTinyPtr V} (hi : Inv A U x)
    (hat : Holding t tid false ((n₁, new.construct V.initialS id src μ.length) :: L) H x)
    (hτ : V.nodeType V.initialS = some τ) (hroom : ∀ cap ∈ τ.capacity, 2 ≤ cap)
    (hn₁ : n₁.special = V.initialS)
    (hsrc : ∀ j : Fin maxStoredPrefixLength, ∀ b, μ[j.val]? = some b → src.getD j.val 0 = b)
    (hca : c ≠ a) (hq : Denotes A.indexer q (idHash id c) (some n₃))
    (hq' : Denotes A.indexer q' (idHash id a) (some n₂))
    (hf : ∀ y o, Inv A U y → Holding t tid false ((n₁, o) :: L) H y →
      Word V n₁ o.typeVersionLockObsolete 4 →
      (∀ M : Key → Option Ref, M (z ++ μ ++ [a]) = some n₂ → M (z ++ μ ++ [c]) = some n₃ →
        (∀ d, d ≠ c → d ≠ a → M (z ++ μ ++ [d]) = none) → Inner A.indexer M z μ n₁ τ o) →
      artWp A ids U t f Q (Failing t tid k) y) :
    artWp A ids U t (do
      insertChild n₁ c q
      insertChild n₁ a q'
      f) Q (Failing t tid k) x := by
  obtain ⟨o₁, o₂, ho₁, ho₂, hw₁, hin₁⟩ :=
    exists_fork (A := A) (z := z) hτ hroom hn₁ hsrc id new hca hq hq'
  refine wpOr_bind hi Failing.stable (wp_fresh_insertChild hi Stable.wpOr hat (hn₁ ▸ hτ) ho₁
    fun y₁ hi₁ hy₁ => ?_)
  refine wpOr_bind hi₁ Failing.stable (wp_fresh_insertChild hi₁ Stable.wpOr hy₁ (hn₁ ▸ hτ) ho₂
    fun y₂ hi₂ hy₂ => ?_)
  exact hf y₂ o₂ hi₂ hy₂ hw₁ hin₁

theorem splitPrefix_wp {old : ArtTinyPtr V} {pv : UInt64} {rest : List UInt8} (hi : Inv A U x)
    (hat : Holding t tid false [] [] x) (hs₀ : Seen n₀ (.node p₀ π₀ id₀) pv (fun _ => True) x)
    (hz : p₀ ++ π₀ ++ [c₀] = z) (hs : Seen n (.node z (μ ++ a :: r) id) v (fun _ => True) x)
    (hold : Denotes A.indexer old (idHash id₀ c₀) (some n)) (had : a ≠ c)
    (hload : A.loadKey tid = k) (hk : k = z ++ μ ++ [c] ++ r')
    (hrest : ∀ j : Fin maxStoredPrefixLength, ∀ b, r[j.val]? = some b → rest.getD j.val 0 = b) :
    artWp A ids U t (splitPrefix k tid (some n₀) c₀ pv old n v z.length (z ++ μ).length a rest)
      (fun _ => Holding t tid true [] []) (Failing t tid k) x := by
  obtain ⟨τ₀, hτ₀⟩ := hi.nodeType hs₀.kind
  obtain ⟨τ, hτ⟩ := hi.nodeType hs.kind
  obtain ⟨τ₁, hτ₁, hroom⟩ := V.nodeType_initialS
  have hlen : (z ++ μ).length - z.length = μ.length := by simp
  have hbyte : k[(z ++ μ).length]? = some c := by simp [hk]
  unfold splitPrefix
  refine wpOr_bind hi Failing.stable (wp_defined Stable.wpOr rfl (wpOr_bind hi Failing.stable
    (wp_upgradeToWriteLockOrRestart hi Stable.wpOr hat hs₀ fun y o₀ hl hiy _ hy => ?_)))
  generalize ({ o₀ with typeVersionLockObsolete := pv + 0b10 } : Obj V) = o₀ at hy
  refine wpOr_bind hiy Failing.stable (wp_upgradeToWriteLock hiy Stable.wpOr hy (hs.later hl)
    (fun y on _ hiy _ hy => ?_) fun y hiy hy => giveUp_wp hiy hy)
  rw [Bool.not_true, if_neg Bool.false_ne_true, hlen]
  generalize ({ on with typeVersionLockObsolete := v + 0b10 } : Obj V) = on at hy
  have hy := hy.perm (List.Perm.refl _) (List.Perm.swap _ _ _)
  obtain ⟨w, hw, -, hle⟩ := hy.word hiy (List.mem_cons_of_mem _ List.mem_cons_self)
  -- the new node and the leaf
  refine wpOr_bind hiy Failing.stable (wp_getId hiy Failing.stable Stable.wpOr
    (hy.kind List.mem_cons_self) fun z₁ h₁ hi₁ => ?_)
  have hy₁ := hy.rely h₁
  refine wpOr_bind hi₁ Failing.stable (wp_own_read hi₁ Stable.wpOr hy₁
    (Or.inr ⟨_, List.mem_cons_of_mem _ List.mem_cons_self, rfl, rfl⟩) fun z₂ hi₂ hy₂ => ?_)
  refine wp_createWithLeaf hi₂ hy₂ hτ₁ hbyte
    fun z₅ q n₁ q₃ n₃ id' new new₃ hi₅ hy₅ hq hn₁ hd₃ hn₃ => ?_
  -- the copy of the old node
  refine wpOr_bind hi₅ Failing.stable (wp_relocateNode hi₅ Stable.wpOr hy₅
    (List.mem_cons_of_mem _ List.mem_cons_self) (dereference_of_denotes hold).2 hτ
    fun z₆ q₂ n₂ hi₆ hy₆ hd₂ hn₂ => ?_)
  refine wpOr_bind hi₆ Failing.stable (wp_fresh_write hi₆ Stable.wpOr hy₆ rfl fun z₇ hi₇ hy₇ => ?_)
  refine wpOr_bind hi₇ Failing.stable (wp_fresh_fetchAdd hi₇ Stable.wpOr hy₇ fun z₈ hi₈ hy₈ => ?_)
  -- the two children
  obtain ⟨-, -, -, hitem, -, -, hin⟩ := hy₈.node hi₈ (List.mem_cons_of_mem _ List.mem_cons_self)
  have hin := hin τ hτ
  refine wp_fork (z := z) hi₈ (hy₈.perm (List.perm_append_singleton _ [_, _]) (List.Perm.refl _))
    hτ₁ hroom hn₁ (fun j e he => hin.getD_getPrefix j (by
      rw [List.getElem?_append_left (List.getElem?_eq_some_iff.mp he).1]
      exact he)) had.symm hd₃ hd₂ fun u o₂ hiu hyu hw₁ hin₁ => ?_
  -- the parent points to the new node
  have hplace := (hyu.node hiu (List.mem_cons_of_mem _ List.mem_cons_self)).place
  have hinp := (hyu.node hiu List.mem_cons_self).inner τ₀ hτ₀
  obtain ⟨o₀', hchange⟩ : ∃ o₀', o₀.change τ₀ c₀ q = some o₀' :=
    Obj.change_eq_some (hinp.denotes (by rw [hz]; exact hplace)).1
  refine wpOr_bind hiu Failing.stable (wp_publish hiu Stable.wpOr hyu
    (by rw [hinp.classOf]; exact hchange) (fun w' _ hiw hyw => ?_)
    fun u₁ hiu₁ hyu₁ => ?_)
  · obtain ⟨hown, -, hplace, hitem, -, -, hinw⟩ :=
      hyw.node hiw (List.mem_cons_of_mem _ List.mem_cons_self)
    obtain ⟨hin₂, hw₂⟩ := (hinw τ hτ).relocate hn₂ hw (by omega) hrest rfl
    refine publishes_split hiw hyw List.mem_cons_self hz hτ₀ hq hchange hitem
      (fun l hl π' id' _ => ?_) had hin₁ hw₁ (Or.inl ⟨rfl, τ, hin₂⟩) ⟨_, hw₂, by omega⟩ hn₃ rfl
      (word_constructLeaf hn₃ tid) (hload.trans hk)
    rw [hplace] at hl
    cases hl
    exact hown
  refine wpOr_bind hiu₁ Failing.stable (wp_writeUnlock hiu₁ Stable.wpOr hyu₁ rfl
    fun u₂ hl₂ hiu₂ hyu₂ => ?_)
  refine wpOr_bind hiu₂ Failing.stable (wp_writeUnlockObsolete hiu₂ Stable.wpOr hyu₂
    fun u₃ hl₃ hiu₃ hyu₃ => ?_)
  have hkind := hl₃.kind _ _ (hl₂.kind _ _ (hyu₁.kind List.mem_cons_self))
  refine wpOr_bind hiu₃ Failing.stable (wp_getId hiu₃ Failing.stable Stable.wpOr hkind
    fun u₄ hr₄ hiu₄ => ?_)
  exact wp_mark Holding.stable (hyu₃.rely hr₄) fun _ _ h => h

/-- The child of a locked node is where its pointer leads. -/
theorem placed_child {done : Bool} (hi : Inv A U x) (hat : Holding t tid done L H x)
    (hg : (⟨n₀, .node p₀ π₀ id₀, o₀, true⟩ : Grip V) ∈ H) (hτ₀ : V.nodeType n₀.special = some τ₀)
    (hold : Denotes A.indexer (o₀.getChild τ₀ c₀) (idHash id₀ c₀) (some n)) :
    x.2.place (p₀ ++ π₀ ++ [c₀]) = some n := by
  have hgrip := hat.node hi hg
  have hin := hgrip.inner τ₀ hτ₀
  obtain ⟨m, hm⟩ := Option.ne_none_iff_exists'.mp fun h => hold.1 (hin.getChild_eq_null_iff.mpr h)
  rw [hm, ← hold.2.2, ← hgrip.id_eq, (hin.denotes hm).2.2]

/-- The keys of two leaves part, if one of them is not in the tree yet. -/
theorem exists_parting {w : UInt64} {rest krest : List UInt8} (hU : PrefixFree U) (hi : Inv A U x)
    (hat : Holding t tid false L H x) (hw : x.2.tree.Maps (z ++ rest) w)
    (hk : A.loadKey tid = z ++ krest) :
    ∃ μ a d r r', rest = μ ++ a :: r ∧ krest = μ ++ d :: r' ∧ a ≠ d ∧
      agreeing rest krest = some μ.length := by
  cases hagree : agreeing rest krest with
  | some l =>
    obtain ⟨μ, a, d, r, r', hr, hr', had, rfl⟩ := agreeing_eq_some hagree
    exact ⟨μ, a, d, r, r', hr, hr', had, rfl⟩
  | none =>
    have hcalled := hi.doing t tid hat.doing
    have hcalled' := hi.maps _ _ hw
    have hkU := (hi.insertions.mem _ _ hcalled).1
    have hkU' := (hi.insertions.mem _ _ hcalled').1
    rw [hk] at hcalled hkU
    have heq : z ++ rest = z ++ krest := by
      rcases agreeing_eq_none hagree with hpre | hpre
      · exact hU _ hkU' _ hkU ((List.prefix_append_right_inj z).mpr hpre)
      · exact (hU _ hkU _ hkU' ((List.prefix_append_right_inj z).mpr hpre)).symm
    -- each key is inserted once
    have hsame : w = tid := congrArg Prod.snd (List.inj_on_of_nodup_map hi.insertions.nodup
      hcalled' hcalled heq)
    exact absurd (hat.maps.mp ⟨_, hsame ▸ hw⟩) Bool.false_ne_true

theorem splitLeaf_wp {old : ArtTinyPtr V} {w : UInt64} (hU : PrefixFree U) (hi : Inv A U x)
    (hat : Holding t tid false [] [] x) (hτ₀ : V.nodeType n₀.special = some τ₀)
    (hs₀ : Seen n₀ (.node p₀ π₀ id₀) v (fun o => o.getChild τ₀ c₀ = old) x)
    (hz : p₀ ++ π₀ ++ [c₀] = z) (hn : x.2.kind n = some (.leaf w))
    (hold : Denotes A.indexer old (idHash id₀ c₀) (some n)) (hload : A.loadKey tid = k)
    (hpre : z <+: k) :
    artWp A ids U t (A.splitLeaf k tid n₀ v old c₀ (p₀ ++ π₀).length) (fun _ =>
      Holding t tid true [] []) (Failing t tid k) x := by
  obtain ⟨krest, hk⟩ := hpre
  have hns := (hi.leaf_value hn).1
  have hlen : (p₀ ++ π₀).length + 1 = z.length := by
    rw [← hz]
    simp only [List.length_append, List.length_singleton]
  have hbyte : k[z.length - 1]? = some c₀ := by simp [← hk, ← hz]
  unfold splitLeaf
  refine wpOr_bind hi Failing.stable (wp_upgradeToWriteLockOrRestart hi Stable.wpOr hat hs₀
    fun y o₀ hl hiy hchild hy => ?_)
  subst hchild
  generalize hobj : ({ o₀ with typeVersionLockObsolete := v + 0b10 } : Obj V) = o₀' at hy
  have hold' : Denotes A.indexer (o₀'.getChild τ₀ c₀) (idHash id₀ c₀) (some n) := by
    rw [← hobj]
    exact hold
  -- the leaf is locked
  refine wpOr_bind hiy Failing.stable (wp_getId hiy Failing.stable Stable.wpOr
    (hy.kind List.mem_cons_self) fun z₁ h₁ hi₁ => ?_)
  have hy₁ := hy.rely h₁
  have hn₁ := h₁.kind n _ (hl.kind n _ hn)
  rw [← hns]
  refine wpOr_bind hi₁ Failing.stable (wp_derefTable Stable.wpOr hold ?_)
  refine wpOr_bind hi₁ Failing.stable (wpOr_bind hi₁ Failing.stable
    (wp_readLockOrRestart hi₁ Failing.stable Stable.wpOr hn₁ hy₁.drop fun z₂ h₂ hi₂ hs₂ =>
    wp_upgradeToWriteLockOrRestart hi₂ Stable.wpOr (hy₁.rely h₂) hs₂ fun z₃ ol _ hi₃ _ hy₃ => ?_))
  generalize ({ ol with typeVersionLockObsolete := z₂.word n + 0b10 } : Obj V) = ol at hy₃
  refine wpOr_bind hi₃ Failing.stable (wp_value hi₃ Failing.stable Stable.wpOr
    (hy₃.kind List.mem_cons_self) fun z₄ h₄ hi₄ => ?_)
  have hy₄ := hy₃.rely h₄
  have hn₄ := hy₄.kind List.mem_cons_self
  -- the keys part
  have hplace := placed_child hi₄ hy₄ (List.mem_cons_of_mem _ List.mem_cons_self) hτ₀ hold'
  rw [hz] at hplace
  obtain ⟨rest, hitem, hkey⟩ := hi₄.leaf_of_place hn₄ hplace
  obtain ⟨μ, a, d, r, r', rfl, rfl, had, hagree⟩ :=
    exists_parting hU hi₄ hy₄ ⟨z, _, hitem, rfl, rfl⟩ (hload.trans hk.symm)
  have hbyte₃ : k[z.length + μ.length]? = some d := by simp [← hk]
  have hbyte₂ : (A.loadKey w)[z.length + μ.length]? = some a := by simp [hkey]
  have hk' : A.loadKey tid = z ++ μ ++ [d] ++ r' := by simp [hload, ← hk]
  have hdrop : (A.loadKey w).drop z.length = μ ++ a :: r := by rw [hkey, List.drop_left]
  have hdrop' : k.drop z.length = μ ++ d :: r' := by rw [← hk, List.drop_left]
  obtain ⟨τ₁, hτ₁, hroom⟩ := V.nodeType_initialS
  simp only [hlen, hdrop, hdrop']
  refine wpOr_bind hi₄ Failing.stable (wp_inBounds Stable.wpOr hagree (wpOr_bind hi₄ Failing.stable
    (wp_inBounds Stable.wpOr hbyte ?_)))
  -- the new node and the leaves
  refine wp_createWithLeaf hi₄ hy₄ hτ₁ hbyte₃
    fun z₇ q n₁ q₃ n₃ id' new new₃ hi₇ hy₇ hq hn₁ hd₃ hn₃ => ?_
  refine wpOr_bind hi₇ Failing.stable (wp_inBounds Stable.wpOr hbyte₂ (wpOr_bind hi₇ Failing.stable
    (wp_createLeaf hi₇ Stable.wpOr hy₇ fun z₈ q₂ n₂ new₂ hi₈ hy₈ hd₂ hn₂ => ?_)))
  -- the two children
  refine wp_fork (z := z) hi₈ (hy₈.perm (List.perm_append_singleton _ [_, _]) (List.Perm.refl _))
    hτ₁ hroom hn₁ (fun _ _ => getD_append) had.symm hd₃ hd₂ fun u o₂ hiu hyu hw₁ hin₁ => ?_
  -- the node points to the new one
  have hnu := hyu.kind List.mem_cons_self
  refine wpOr_bind hiu Failing.stable (wp_writeUnlockObsolete hiu Stable.wpOr hyu
    fun u₁ hl₁ hiu₁ hyu₁ => ?_)
  refine wpOr_bind hiu₁ Failing.stable (wp_quiet Stable.wpOr (fun _ => rfl) fun _ u₂ h₂ hiu₂ => ?_)
  have hyu₂ := hyu₁.rely h₂
  have hnu₂ := h₂.kind n _ (hl₁.kind n _ hnu)
  have hinp := (hyu₂.node hiu₂ List.mem_cons_self).inner τ₀ hτ₀
  obtain ⟨o₃, hchange⟩ : ∃ o₃, o₀'.change τ₀ c₀ q = some o₃ := Obj.change_eq_some hold'.1
  refine wpOr_bind hiu₂ Failing.stable (wp_publish hiu₂ Stable.wpOr hyu₂
    (by rw [hinp.classOf]; exact hchange)
    (fun u₃ h₃ hiu₃ hyu₃ => ?_) fun u₄ hiu₄ hyu₄ => ?_)
  · have hplace := placed_child hiu₃ hyu₃ List.mem_cons_self hτ₀ hold'
    rw [hz] at hplace
    have hnu₃ := h₃.kind n _ hnu₂
    obtain ⟨rest, hitem, hkey'⟩ := hiu₃.leaf_of_place hnu₃ hplace
    obtain rfl : rest = μ ++ a :: r := List.append_cancel_left (hkey'.symm.trans hkey)
    refine publishes_split hiu₃ hyu₃ List.mem_cons_self hz hτ₀ hq hchange hitem
      (fun l hl π' id' hkl => ?_) had hin₁ hw₁ (Or.inr ⟨w, rfl, hn₂, rfl⟩)
      ⟨4, word_constructLeaf hn₂ w, by norm_num⟩ hn₃ rfl (word_constructLeaf hn₃ tid) hk'
    rw [hplace] at hl
    cases hl
    cases hnu₃.symm.trans hkl
  exact wp_writeUnlock hiu₄ Holding.stable hyu₄ rfl fun _ _ _ h => h

end Tree

end TinyPointerTrees.Art
