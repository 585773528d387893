import TinyPointerTrees.Art.Alone
import TinyPointerTrees.Art.Interleaving

/-!
# What threads publish in a tiny ART

A thread works on objects that nobody else knows, or that it has locked, and changes
the tree with one write of a pointer. The ghost state says which radix tree the
memory represents, what an object that was once in the tree is for ever (`Kind`), and
to which thread an object belongs.

Readers hold on to objects that may have left the tree in the meantime. Three facts
make up for that: what kind of object it is does not change; its lock word does not
decrease, and an object that is unlocked is the same as long as the word is (`Later`);
and an inner node that is unlocked is in the tree (`Inv.free`).
-/

namespace TinyPointerTrees.Art

open Conc ArtM

variable {V : Variant}

/-- What an object is for ever, once it was in the tree. -/
inductive Kind where
  /-- An inner node at the path `p`, with the prefix `π` and this id. -/
  | node (p : Key) (π : List UInt8) (id : UInt64)
  /-- A leaf with this value. -/
  | leaf (v : UInt64)

/-- The ghost state. -/
structure Ghost where
  /-- The radix tree that the memory represents. -/
  tree : RadixTree UInt8 UInt64
  /-- Where its nodes are. -/
  place : Key → Option Ref
  /-- What the objects are that are or were in the tree. -/
  kind : Ref → Option Kind
  /-- The thread that has allocated an object and not yet published it, or that has locked it. -/
  owner : Ref → Option ℕ
  /-- The value that a thread inserts. -/
  doing : ℕ → Option UInt64

/-- What is shared, with the ghost state. -/
abbrev World (V : Variant) := SharedTree V × Ghost

namespace World

/-- An object. -/
def get (x : World V) (n : Ref) : Obj V := x.1.heap.get n

/-- The lock word of an object. -/
def word (x : World V) (n : Ref) : UInt64 := (x.get n).typeVersionLockObsolete

end World

/-! ### Objects -/

section Kinds

variable (A : Tree V) (kind : Ref → Option Kind) (keys : Set Key)

/-- The object can be on the edge with path `q`. -/
inductive OnEdge (q : Key) (m : Ref) : Prop
  | node {π : List UInt8} {id : UInt64} (h : kind m = some (.node q π id))
  | leaf {v : UInt64} (h : kind m = some (.leaf v)) (hv : q <+: A.loadKey v)

/-- The object is of this kind, also if it is no longer in the tree. -/
inductive OfKind (n : Ref) (o : Obj V) : Kind → Prop
  /-- Where its edges lead to stays in the tree, or was there. -/
  | node {p : Key} {π : List UInt8} {id : UInt64} {M : Key → Option Ref} {t : NodeType}
      (hi : Inner A.indexer M p π n t o) (hid : o.id = id)
      (hM : ∀ c m, M (p ++ π ++ [c]) = some m → OnEdge A kind (p ++ π ++ [c]) m)
      (hkey : p ≠ [] → ∃ c k, M (p ++ π ++ [c]) ≠ none ∧ k ∈ keys ∧ p ++ π ++ [c] <+: k) :
      OfKind n o (.node p π id)
  | leaf {v : UInt64} (hn : n.special = leafS) (hv : o.value = v) : OfKind n o (.leaf v)

end Kinds

/-- The threads insert these keys, each once. -/
structure Insertions (load : UInt64 → Key) (U : Set Key) (called : List (Key × UInt64)) : Prop where
  mem : ∀ k v, (k, v) ∈ called → k ∈ U ∧ load v = k ∧ v ≠ 0
  nodup : (called.map Prod.fst).Nodup

/-- What the calls that have ended tell of the tree. -/
structure Observed (R : RadixTree UInt8 UInt64) (doing : ℕ → Option UInt64)
    (called : List (Key × UInt64)) (returned : List Returned) : Prop where
  /-- An insertion answers nothing. -/
  silent : ∀ i ∈ returned, ∀ k v a, i.call = .insert k v → i.answer = .ok a → a = none
  /-- What a lookup has found is in the tree. -/
  read : ∀ l ∈ returned, ∀ k r, l.call = .lookup k → l.answer = .ok (some r) → r ≠ 0 → R.Maps k r
  /-- What a lookup has found is found again. -/
  again : ∀ l ∈ returned, ∀ l' ∈ returned, ∀ k r r', l.call = .lookup k →
    l.answer = .ok (some r) → r ≠ 0 → l'.call = .lookup k → l'.answer = .ok (some r') →
    l.ended < l'.began → r' = r
  /-- What an insertion that failed was for is not in the tree, and nobody else inserts it. -/
  failed : ∀ i ∈ returned, ∀ k v e, i.call = .insert k v → i.answer = .error e →
    (k, v) ∈ called ∧ (∀ t, doing t ≠ some v) ∧ ¬ R.Maps k v

/-- The invariant. -/
structure Inv (A : Tree V) (U : Set Key) (x : World V) : Prop where
  wf : x.1.heap.Wf A.indexer
  shape : Shape A x.1.heap x.2.tree x.2.place
  /-- What is in the tree has its kind. -/
  place_node : ∀ q π n, x.2.tree.item q = some ⟨π, none⟩ → x.2.place q = some n →
    x.2.kind n = some (.node q π (x.get n).id)
  place_leaf : ∀ q r v n, x.2.tree.item q = some ⟨r, some v⟩ → x.2.place q = some n →
    x.2.kind n = some (.leaf v)
  live : ∀ n κ, x.2.kind n = some κ → x.1.heap.Live n
  ofKind : ∀ n κ, x.2.kind n = some κ → OfKind A x.2.kind x.2.tree.keys n (x.get n) κ
  word : ∀ n κ, x.2.kind n = some κ → ∃ v, Word V n (x.word n) v ∧ v ≤ 2 ^ 61 + 5
  /-- An inner node that is unlocked is in the tree. -/
  free : ∀ n p π id, x.2.kind n = some (.node p π id) → Free (x.word n) → x.2.place p = some n
  owned : ∀ n t, x.2.owner n = some t → x.1.heap.Live n
  /-- What is in the tree and belongs to a thread is locked. -/
  locked : ∀ n t κ, x.2.owner n = some t → x.2.kind n = some κ → ∃ v, Word V n (x.word n) v ∧
    v % 4 = 2 ∧ v ≤ 2 ^ 61 + 2
  insertions : Insertions A.loadKey U x.1.called
  maps : ∀ k v, x.2.tree.Maps k v → (k, v) ∈ x.1.called
  /-- A leaf that was once in the tree is for a key that is in the tree. -/
  leaf : ∀ n v, x.2.kind n = some (.leaf v) → x.2.tree.Maps (A.loadKey v) v
  doing : ∀ t v, x.2.doing t = some v → (A.loadKey v, v) ∈ x.1.called
  doing_inj : ∀ t u v, x.2.doing t = some v → x.2.doing u = some v → t = u
  began : ∀ t, x.1.began t ≤ x.1.time
  ended : ∀ l ∈ x.1.returned, l.began ≤ x.1.time
  /-- What was inserted is in the tree. -/
  stored : ∀ i ∈ x.1.returned, ∀ k v, i.call = .insert k v → i.answer = .ok none → x.2.tree.Maps k v
  observed : Observed x.2.tree x.2.doing x.1.called x.1.returned
  lawful : Lawful x.1.called x.1.returned

/-! ### What threads rely on -/

/-- What no thread undoes. -/
structure Later (x y : World V) : Prop where
  live : ∀ n, x.1.heap.Live n → y.1.heap.Live n
  kind : ∀ n κ, x.2.kind n = some κ → y.2.kind n = some κ
  maps : ∀ k v, x.2.tree.Maps k v → y.2.tree.Maps k v
  called : ∀ e ∈ x.1.called, e ∈ y.1.called
  word_le : ∀ n κ, x.2.kind n = some κ → (x.word n).toNat ≤ (y.word n).toNat
  /-- An object that is unlocked is the same as long as its word is. -/
  same : ∀ n κ, x.2.kind n = some κ → Free (x.word n) → y.word n = x.word n → y.get n = x.get n

/-- An object that belongs to a thread is left alone. -/
structure Untouched (t : ℕ) (x y : World V) (n : Ref) : Prop where
  owner : y.2.owner n = some t
  get : y.get n = x.get n
  place : ∀ p π id, x.2.kind n = some (.node p π id) → x.2.place p = some n → y.2.place p = some n
  kind : y.2.kind n = x.2.kind n

/-- What thread `t` relies on. -/
structure Rely (t : ℕ) (x y : World V) : Prop extends Later x y where
  untouched : ∀ n, x.2.owner n = some t → Untouched t x y n
  doing : y.2.doing t = x.2.doing t
  /-- No other thread inserts the same. -/
  pending : ∀ k v, x.2.doing t = some v → y.2.tree.Maps k v → x.2.tree.Maps k v
  began : y.1.began t = x.1.began t
  returned : ∀ i ∈ y.1.returned, i ∈ x.1.returned ∨ x.1.began t ≤ i.ended

theorem Later.refl (x : World V) : Later x x :=
  ⟨fun _ => id, fun _ _ => id, fun _ _ => id, fun _ => id, fun _ _ _ => le_rfl,
    fun _ _ _ _ _ => rfl⟩

theorem Later.trans {x y z : World V} (h : Later x y) (h' : Later y z) : Later x z := by
  refine ⟨fun n hn => h'.live n (h.live n hn), fun n κ hn => h'.kind n κ (h.kind n κ hn),
    fun k v hk => h'.maps k v (h.maps k v hk), fun e he => h'.called e (h.called e he),
    fun n κ hn => (h.word_le n κ hn).trans (h'.word_le n κ (h.kind n κ hn)),
    fun n κ hn hfree hw => ?_⟩
  have hle := h.word_le n κ hn
  have hle' := h'.word_le n κ (h.kind n κ hn)
  have heq : y.word n = x.word n := by
    rw [← UInt64.toNat_inj] at hw ⊢
    omega
  rw [h'.same n κ (h.kind n κ hn) (heq ▸ hfree) (hw.trans heq.symm), h.same n κ hn hfree heq]

theorem Rely.refl (t : ℕ) (x : World V) : Rely t x x :=
  ⟨Later.refl x, fun _ hn => ⟨hn, rfl, fun _ _ _ _ => id, rfl⟩, rfl, fun _ _ _ => id, rfl,
    fun _ => Or.inl⟩

theorem Rely.trans {t : ℕ} {x y z : World V} (h : Rely t x y) (h' : Rely t y z) : Rely t x z := by
  refine ⟨h.toLater.trans h'.toLater, fun n hn => ?_, h'.doing.trans h.doing, fun k v hv hk => ?_,
    h'.began.trans h.began, fun i hi => ?_⟩
  · have h₁ := h.untouched n hn
    have h₂ := h'.untouched n h₁.owner
    exact ⟨h₂.owner, h₂.get.trans h₁.get, fun p π id hk hp => h₂.place p π id (h₁.kind.trans hk)
      (h₁.place p π id hk hp), h₂.kind.trans h₁.kind⟩
  · exact h.pending k v hv (h'.pending k v (h.doing.trans hv) hk)
  · rcases h'.returned i hi with hi | hi
    · exact h.returned i hi
    · exact Or.inr (h.began ▸ hi)

/-- The rely/guarantee account of a tree. -/
def artProtocol (A : Tree V) (U : Set Key) : Protocol (SharedTree V) Ghost ℕ where
  inv := Inv A U
  rely := Rely
  idle t x := x.2.doing t = none
  rely_refl := Rely.refl
  rely_trans := Rely.trans
  idle_rely h hr := hr.doing.trans h

/-! ### What threads do -/

section Steps

variable {A : Tree V} {U : Set Key} {x : World V} {s' : Heap V} {owner' : Ref → Option ℕ}
  {n m : Ref} {o o' : Obj V} {t u : ℕ} {κ : Kind} {kind kind' : Ref → Option Kind}
  {keys keys' : Set Key} {q : Key}

theorem OnEdge.mono (h : OnEdge A kind q m) (hkind : ∀ m κ, kind m = some κ → kind' m = some κ) :
    OnEdge A kind' q m := by
  cases h with
  | node h => exact .node (hkind _ _ h)
  | leaf h hv => exact .leaf (hkind _ _ h) hv

theorem OfKind.mono (h : OfKind A kind keys n o κ)
    (hkind : ∀ m κ, kind m = some κ → kind' m = some κ) (hkeys : keys ⊆ keys')
    (ho : SameBody o o') : OfKind A kind' keys' n o' κ := by
  cases h with
  | node hi hid hM hkey =>
    refine .node (hi.congr ho fun _ => rfl) (ho.id.trans hid) (fun c m hm =>
      (hM c m hm).mono hkind) fun hp => ?_
    obtain ⟨c, k, hc, hk, hpre⟩ := hkey hp
    exact ⟨c, k, hc, hkeys hk, hpre⟩
  | leaf hn hv => exact .leaf hn (ho.value.trans hv)

namespace World

/-- The memory and the owners after a step that does not change the tree. -/
def step (x : World V) (s : Heap V) (owner : Ref → Option ℕ) : World V :=
  ({ x.1 with heap := s }, { x.2 with owner := owner })

end World

/-- What is in the tree has a kind. -/
theorem Inv.exists_kind (h : Inv A U x) (hq : x.2.place q = some n) : ∃ κ, x.2.kind n = some κ := by
  rcases h.shape.item hq with ⟨r, v, hitem, -⟩ | ⟨π, t, hitem, -⟩
  · exact ⟨_, h.place_leaf q r v n hitem hq⟩
  · exact ⟨_, h.place_node q π n hitem hq⟩

/-- A node that is in the tree has its kind there. -/
theorem Inv.inner_of_place {p : Key} {π : List UInt8} {id : UInt64} (h : Inv A U x)
    (hk : x.2.kind n = some (.node p π id)) (hp : x.2.place p = some n) :
    x.2.tree.item p = some ⟨π, none⟩ ∧ (x.get n).id = id ∧ ∀ τ, V.nodeType n.special = some τ →
      Inner A.indexer x.2.place p π n τ (x.get n) := by
  rcases h.shape.item hp with ⟨r, v, hitem, -⟩ | ⟨π', τ', hitem, hi⟩
  · have := hk.symm.trans (h.place_leaf p r v n hitem hp)
    cases this
  · have := hk.symm.trans (h.place_node p π' n hitem hp)
    cases this
    refine ⟨hitem, rfl, fun τ hτ => ?_⟩
    obtain rfl : τ' = τ := Option.some.inj (hi.nodeType.symm.trans hτ)
    exact hi

/-- What is on an edge of the tree. -/
theorem Inv.on_edge (h : Inv A U x) (hq : x.2.place q = some n) :
    (∃ r v, x.2.tree.item q = some ⟨r, some v⟩ ∧ x.2.kind n = some (.leaf v) ∧ n.special = leafS) ∨
      ∃ π id τ, x.2.tree.item q = some ⟨π, none⟩ ∧ x.2.kind n = some (.node q π id) ∧
      V.nodeType n.special = some τ := by
  rcases h.shape.item hq with ⟨r, v, hitem, hn, -⟩ | ⟨π, τ, hitem, hi⟩
  · exact Or.inl ⟨r, v, hitem, h.place_leaf q r v n hitem hq, hn⟩
  · exact Or.inr ⟨π, _, τ, hitem, h.place_node q π n hitem hq, hi.nodeType⟩

/-- Work on objects that were never in the tree. -/
theorem Inv.step_private (h : Inv A U x) (hwf : s'.Wf A.indexer)
    (hlive : ∀ n, x.1.heap.Live n → s'.Live n)
    (hget : ∀ n κ, x.2.kind n = some κ → s'.get n = x.get n)
    (howner : ∀ n t, owner' n = some t → x.2.owner n = some t ∨ (s'.Live n ∧ x.2.kind n = none)) :
    Inv A U (x.step s' owner') := by
  have hget' : ∀ n κ, x.2.kind n = some κ → (x.step s' owner').get n = x.get n := hget
  have hword' : ∀ n κ, x.2.kind n = some κ → (x.step s' owner').word n = x.word n := by
    intro n κ hn
    unfold World.word
    rw [hget' n κ hn]
  refine { h with
    wf := hwf
    shape := ?shape
    place_node := ?node
    live := fun n κ hn => hlive n (h.live n κ hn)
    ofKind := ?ofKind
    word := ?word
    free := ?free
    owned := ?owned
    locked := ?locked }
  case shape =>
    refine h.shape.congr fun q n hq => ?_
    obtain ⟨κ, hκ⟩ := h.exists_kind hq
    exact ⟨hlive n (h.live n κ hκ), SameBody.of_eq (hget n κ hκ)⟩
  case node =>
    intro q π n hitem hq
    have hκ := h.place_node q π n hitem hq
    rw [hget' n _ hκ]
    exact hκ
  case ofKind =>
    intro n κ hn
    rw [hget' n κ hn]
    exact h.ofKind n κ hn
  case word =>
    intro n κ hn
    rw [hword' n κ hn]
    exact h.word n κ hn
  case free =>
    intro n p π id hn hfree
    rw [hword' n _ hn] at hfree
    exact h.free n p π id hn hfree
  case owned =>
    intro n t hn
    rcases howner n t hn with hn | hn
    · exact hlive n (h.owned n t hn)
    · exact hn.1
  case locked =>
    intro n t κ hn hκ
    rcases howner n t hn with hn | hn
    · rw [hword' n κ hκ]
      exact h.locked n t κ hn hκ
    · exact absurd (hκ.symm.trans hn.2) (Option.some_ne_none κ)

/-- A step that changes neither the tree nor what has been called, for another thread. -/
theorem Rely.of_step (hlive : ∀ n, x.1.heap.Live n → s'.Live n)
    (hword : ∀ n κ, x.2.kind n = some κ →
      (x.word n).toNat ≤ (s'.get n).typeVersionLockObsolete.toNat ∧
      (Free (x.word n) → (s'.get n).typeVersionLockObsolete = x.word n → s'.get n = x.get n))
    (hother : ∀ n, x.2.owner n = some u → owner' n = some u ∧ s'.get n = x.get n) :
    Rely u x (x.step s' owner') :=
  ⟨⟨hlive, fun _ _ => id, fun _ _ => id, fun _ => id, fun n κ hn => (hword n κ hn).1, fun n κ hn =>
    (hword n κ hn).2⟩, fun n hn => ⟨(hother n hn).1, (hother n hn).2, fun _ _ _ _ => id, rfl⟩, rfl,
    fun _ _ _ => id, rfl, fun _ => Or.inl⟩

/-- The memory changes in what no thread knows. -/
theorem Rely.of_private (hlive : ∀ n, x.1.heap.Live n → s'.Live n)
    (hget : ∀ n κ, x.2.kind n = some κ → s'.get n = x.get n)
    (hother : ∀ n, x.2.owner n = some u → owner' n = some u ∧ s'.get n = x.get n) :
    Rely u x (x.step s' owner') := by
  refine .of_step hlive (fun n κ hn => ?_) hother
  rw [hget n κ hn]
  exact ⟨le_rfl, fun _ _ => rfl⟩

/-- The lock word of an object that is or was in the tree changes. -/
theorem Inv.step_word (h : Inv A U x) {w : UInt64} {v : ℕ} (hn : x.2.kind n = some κ)
    (hw : Word V n w v) (hv : v ≤ 2 ^ 61 + 5)
    (hfree : Free w → ∀ p π id, κ = .node p π id → x.2.place p = some n)
    (howner : ∀ m t, owner' m = some t → (m ≠ n ∧ x.2.owner m = some t) ∨
      (m = n ∧ v % 4 = 2 ∧ v ≤ 2 ^ 61 + 2)) :
    Inv A U (x.step (x.1.heap.set n { x.get n with typeVersionLockObsolete := w }) owner') := by
  obtain ⟨v₀, hv₀, -⟩ := h.word n κ hn
  have hself : (x.step (x.1.heap.set n { x.get n with typeVersionLockObsolete := w }) owner').get
    n =
      { x.get n with typeVersionLockObsolete := w } := Heap.get_set_self
  have hne : ∀ m, m ≠ n → (x.step (x.1.heap.set n { x.get n with typeVersionLockObsolete := w })
    owner').get m = x.get m :=
    fun m hm => Heap.get_set_ne hm
  have hbody : ∀ m, SameBody (x.get m)
    ((x.step (x.1.heap.set n { x.get n with typeVersionLockObsolete := w }) owner').get m) := by
    intro m
    by_cases hm : m = n
    · rw [hm, hself]
      exact SameBody.of_word hv₀ hw
    · rw [hne m hm]
      exact SameBody.refl _
  refine { h with
    wf := h.wf.set (h.live n κ hn)
    shape := h.shape.congr fun q m hq => ⟨Heap.live_set.mpr (h.shape.live hq), hbody m⟩
    place_node := ?node
    live := fun m κ hm => Heap.live_set.mpr (h.live m κ hm)
    ofKind := fun m κ hm => (h.ofKind m κ hm).mono (fun _ _ => id) subset_rfl (hbody m)
    word := ?word
    free := ?free
    owned := ?owned
    locked := ?locked }
  case node =>
    intro q π m hitem hq
    rw [(hbody m).id]
    exact h.place_node q π m hitem hq
  case word =>
    intro m κ' hm
    by_cases hmn : m = n
    · subst hmn
      refine ⟨v, ?_, hv⟩
      unfold World.word
      rw [hself]
      exact hw
    · unfold World.word
      rw [hne m hmn]
      exact h.word m κ' hm
  case free =>
    intro m p π id hm hf
    unfold World.word at hf
    by_cases hmn : m = n
    · subst hmn
      rw [hself] at hf
      have hm : x.2.kind m = some (.node p π id) := hm
      exact hfree hf p π id (Option.some.inj (hn.symm.trans hm))
    · rw [hne m hmn] at hf
      exact h.free m p π id hm hf
  case owned =>
    intro m t hm
    rcases howner m t hm with hm | ⟨rfl, -⟩
    · exact Heap.live_set.mpr (h.owned m t hm.2)
    · exact Heap.live_set.mpr (h.live m κ hn)
  case locked =>
    intro m t κ' hm hκ
    rcases howner m t hm with ⟨hmn, hm⟩ | ⟨rfl, hmod, hle⟩
    · unfold World.word
      rw [hne m hmn]
      exact h.locked m t κ' hm hκ
    · refine ⟨v, ?_, hmod, hle⟩
      unfold World.word
      rw [hself]
      exact hw

/-! ### Publishing -/

section Published

variable {s : Heap V} {R : RadixTree UInt8 UInt64} {M : Key → Option Ref}

/-- What is in the tree is of its kind. -/
theorem Shape.ofKind (h : Shape A s R M)
    (hnode : ∀ q π n, R.item q = some ⟨π, none⟩ → M q = some n →
      kind n = some (.node q π (s.get n).id))
    (hleaf : ∀ q r v n, R.item q = some ⟨r, some v⟩ → M q = some n → kind n = some (.leaf v))
    (hM : M q = some n) : ∃ κ, kind n = some κ ∧ OfKind A kind R.keys n (s.get n) κ := by
  rcases h.item hM with ⟨r, v, hitem, hn, hv⟩ | ⟨π, t, hitem, hi⟩
  · exact ⟨_, hleaf q r v n hitem hM, .leaf hn hv⟩
  · refine ⟨_, hnode q π n hitem hM, .node hi rfl (fun c m hm => ?_) fun hq => ?_⟩
    · rcases h.item hm with ⟨r, v, hitem', -⟩ | ⟨π', t', hitem', -⟩
      · refine .leaf (hleaf _ r v m hitem' hm) ?_
        rw [h.keyed _ v ⟨_, _, hitem', rfl, rfl⟩]
        exact List.prefix_append _ _
      · exact .node (hnode _ π' m hitem' hm)
    · obtain ⟨c, -, -, ⟨k, v, hk, hpre⟩, -⟩ := RadixTree.exists_maps_branching hitem rfl hq
      refine ⟨c, k, ?_, ⟨v, hk⟩, hpre⟩
      rw [Ne, h.eq_none_iff]
      exact (RadixTree.edge_ne_none_iff (i := ⟨π, none⟩) hitem rfl).mpr ⟨k, v, hk, hpre⟩

/-- What an object in the tree is. -/
inductive KindAt (s : Heap V) (R : RadixTree UInt8 UInt64) (M : Key → Option Ref) (n : Ref) :
    Kind → Prop
  | node {q : Key} {π : List UInt8} (hM : M q = some n) (hq : R.item q = some ⟨π, none⟩) :
      KindAt s R M n (.node q π (s.get n).id)
  | leaf {q : Key} {r : List UInt8} {v : UInt64} (hM : M q = some n)
      (hq : R.item q = some ⟨r, some v⟩) : KindAt s R M n (.leaf v)

theorem KindAt.unique (hinj : ∀ p q n, M p = some n → M q = some n → p = q) {κ κ' : Kind}
    (h : KindAt s R M n κ) (h' : KindAt s R M n κ') : κ = κ' := by
  cases h with
  | node hM hq => cases h' with
    | node hM' hq' =>
      obtain rfl := hinj _ _ n hM hM'
      rw [hq] at hq'
      cases hq'
      rfl
    | leaf hM' hq' =>
      obtain rfl := hinj _ _ n hM hM'
      rw [hq] at hq'
      cases hq'
  | leaf hM hq => cases h' with
    | node hM' hq' =>
      obtain rfl := hinj _ _ n hM hM'
      rw [hq] at hq'
      cases hq'
    | leaf hM' hq' =>
      obtain rfl := hinj _ _ n hM hM'
      rw [hq] at hq'
      cases hq'
      rfl

open Classical in
/-- The kinds once this is the tree: an object that had a kind keeps it. -/
noncomputable def published (s : Heap V) (R : RadixTree UInt8 UInt64) (M : Key → Option Ref)
    (kind : Ref → Option Kind) (n : Ref) : Option Kind :=
  if kind n ≠ none then kind n else if h : ∃ κ, KindAt s R M n κ then some h.choose else none

theorem published_of_kind (h : kind n = some κ) : published s R M kind n = some κ := by
  unfold published
  rw [if_pos (by rw [h]; exact Option.some_ne_none κ), h]

theorem published_of_new (hinj : ∀ p q n, M p = some n → M q = some n → p = q) (h : kind n = none)
    (hk : KindAt s R M n κ) : published s R M kind n = some κ := by
  unfold published
  have hex : ∃ κ, KindAt s R M n κ := ⟨κ, hk⟩
  rw [if_neg (not_not.mpr h), dif_pos hex, hex.choose_spec.unique hinj hk]

theorem published_cases (h : published s R M kind n = some κ) :
    kind n = some κ ∨ (kind n = none ∧ KindAt s R M n κ) := by
  unfold published at h
  split_ifs at h with h₁ h₂
  · exact Or.inl h
  · cases h
    exact Or.inr ⟨not_not.mp h₁, h₂.choose_spec⟩

end Published

/-- One write to the node `n₀`, which thread `t` has locked, makes the tree `R'`, with the key of
`tid` more. The nodes of the tree that were not there before were private, and the inner nodes that
are gone are locked. -/
structure Publishes (A : Tree V) (x : World V) (t : ℕ) (tid : UInt64) (n₀ : Ref) (o : Obj V)
    (R' : RadixTree UInt8 UInt64) (M' : Key → Option Ref) : Prop where
  owner : x.2.owner n₀ = some t
  kind : ∃ κ, x.2.kind n₀ = some κ
  head : (x.get n₀).SameHead o
  shape : Shape A (x.1.heap.set n₀ o) R' M'
  self : ∃ q, M' q = some n₀
  placed : ∀ q n, M' q = some n → (x.2.place q = some n ∧ R'.item q = x.2.tree.item q) ∨
    (x.2.owner n = some t ∧ x.2.kind n = none ∧ ∃ v, Word V n (x.word n) v ∧ v ≤ 2 ^ 61 + 5)
  gone : ∀ p π id n, x.2.kind n = some (.node p π id) → x.2.place p = some n →
    M' p = some n ∨ x.2.owner n = some t
  doing : x.2.doing t = some tid
  maps : ∀ k v, R'.Maps k v ↔ (k = A.loadKey tid ∧ v = tid) ∨ x.2.tree.Maps k v

open Classical in
/-- What is shared after a write that publishes a tree. -/
noncomputable def World.publish (x : World V) (n₀ : Ref) (o : Obj V) (R' : RadixTree UInt8 UInt64)
    (M' : Key → Option Ref) : World V :=
  ({ x.1 with heap := x.1.heap.set n₀ o },
    { x.2 with
      tree := R'
      place := M'
      kind := published (x.1.heap.set n₀ o) R' M' x.2.kind
      owner := fun n =>
        if x.2.kind n = none ∧ published (x.1.heap.set n₀ o) R' M' x.2.kind n ≠ none then none
        else x.2.owner n })

namespace Publishes

variable {tid : UInt64} {n₀ : Ref} {R' : RadixTree UInt8 UInt64} {M' : Key → Option Ref}

theorem get_self : (x.publish n₀ o R' M').get n₀ = o := Heap.get_set_self

theorem get_ne (hn : n ≠ n₀) : (x.publish n₀ o R' M').get n = x.get n := Heap.get_set_ne hn

theorem word_eq (hp : Publishes A x t tid n₀ o R' M') (n : Ref) :
    (x.publish n₀ o R' M').word n = x.word n := by
  unfold World.word
  by_cases hn : n = n₀
  · rw [hn, get_self, hp.head.word]
  · rw [get_ne hn]

theorem id_eq (hp : Publishes A x t tid n₀ o R' M') (n : Ref) :
    ((x.publish n₀ o R' M').get n).id = (x.get n).id := by
  by_cases hn : n = n₀
  · rw [hn, get_self, hp.head.id]
  · rw [get_ne hn]

theorem kind_mono (hk : x.2.kind n = some κ) : (x.publish n₀ o R' M').2.kind n = some κ :=
  published_of_kind hk

/-- What has a kind now had one before, or was private and is in the tree. -/
theorem kind_cases (hp : Publishes A x t tid n₀ o R' M') (h : Inv A U x)
    (hk : (x.publish n₀ o R' M').2.kind n = some κ) :
    x.2.kind n = some κ ∨ (x.2.owner n = some t ∧ x.2.kind n = none ∧ (∃ v, Word V n (x.word n) v ∧
      v ≤ 2 ^ 61 + 5) ∧ KindAt (x.1.heap.set n₀ o) R' M' n κ) := by
  rcases published_cases hk with hk | ⟨hnone, hk⟩
  · exact Or.inl hk
  · obtain ⟨q, hq⟩ : ∃ q, M' q = some n := by
      cases hk with
      | node hM => exact ⟨_, hM⟩
      | leaf hM => exact ⟨_, hM⟩
    rcases hp.placed q n hq with ⟨hold, -⟩ | ⟨ho, -, hw⟩
    · obtain ⟨κ', hκ'⟩ := h.exists_kind hold
      rw [hκ'] at hnone
      cases hnone
    · exact Or.inr ⟨ho, hnone, hw, hk⟩

theorem owner_cases (hn : (x.publish n₀ o R' M').2.owner n = some u) : x.2.owner n = some u ∧
    (∀ κ, (x.publish n₀ o R' M').2.kind n = some κ → x.2.kind n ≠ none) := by
  simp only [World.publish] at hn ⊢
  split_ifs at hn with hnew
  refine ⟨hn, fun κ hκ hnone => hnew ⟨hnone, ?_⟩⟩
  rw [hκ]
  exact Option.some_ne_none κ

theorem owner_of_kind (hk : x.2.kind n = some κ) :
    (x.publish n₀ o R' M').2.owner n = x.2.owner n := by
  simp only [World.publish]
  rw [if_neg]
  rintro ⟨hnone, -⟩
  rw [hk] at hnone
  cases hnone

theorem place_node (hp : Publishes A x t tid n₀ o R' M') (h : Inv A U x) {π : List UInt8}
    (hitem : R'.item q = some ⟨π, none⟩) (hM : M' q = some n) :
    (x.publish n₀ o R' M').2.kind n = some (.node q π ((x.publish n₀ o R' M').get n).id) := by
  rcases hp.placed q n hM with ⟨hold, hitem'⟩ | ⟨-, hnone, -⟩
  · rw [hp.id_eq]
    exact kind_mono (h.place_node q π n (hitem' ▸ hitem) hold)
  · exact published_of_new hp.shape.inj hnone (.node hM hitem)

theorem place_leaf (hp : Publishes A x t tid n₀ o R' M') (h : Inv A U x) {r : List UInt8}
    {v : UInt64} (hitem : R'.item q = some ⟨r, some v⟩) (hM : M' q = some n) :
    (x.publish n₀ o R' M').2.kind n = some (.leaf v) := by
  rcases hp.placed q n hM with ⟨hold, hitem'⟩ | ⟨-, hnone, -⟩
  · exact kind_mono (h.place_leaf q r v n (hitem' ▸ hitem) hold)
  · exact published_of_new hp.shape.inj hnone (.leaf hM hitem)

theorem keys_subset (hp : Publishes A x t tid n₀ o R' M') : x.2.tree.keys ⊆ R'.keys := by
  rintro k ⟨v, hk⟩
  exact ⟨v, (hp.maps k v).mpr (Or.inr hk)⟩

theorem inv (hp : Publishes A x t tid n₀ o R' M') (h : Inv A U x) :
    Inv A U (x.publish n₀ o R' M') := by
  obtain ⟨κ₀, hκ₀⟩ := hp.kind
  have hlive₀ : x.1.heap.Live n₀ := h.live n₀ κ₀ hκ₀
  have hdoing := h.doing t tid hp.doing
  have hload := (h.insertions.mem _ _ hdoing).2.1
  have hof : ∀ q n, M' q = some n → ∃ κ, (x.publish n₀ o R' M').2.kind n = some κ ∧
      OfKind A (x.publish n₀ o R' M').2.kind R'.keys n ((x.publish n₀ o R' M').get n) κ :=
    fun q n hM => hp.shape.ofKind (fun q π n hitem hM => hp.place_node h hitem hM)
      (fun q r v n hitem hM => hp.place_leaf h hitem hM) hM
  refine { h with
    wf := h.wf.set hlive₀
    shape := hp.shape
    place_node := fun q π n hitem hM => hp.place_node h hitem hM
    place_leaf := fun q r v n hitem hM => hp.place_leaf h hitem hM
    live := ?live
    ofKind := ?ofKind
    word := ?word
    free := ?free
    owned := fun n u hn => Heap.live_set.mpr (h.owned n u (owner_cases hn).1)
    locked := ?locked
    maps := ?maps
    leaf := ?leaf
    stored := fun i hi k v hc ha => (hp.maps k v).mpr (Or.inr (h.stored i hi k v hc ha))
    observed := ?observed }
  case live =>
    intro n κ hn
    refine Heap.live_set.mpr ?_
    rcases hp.kind_cases h hn with hn | ⟨ho, -⟩
    · exact h.live n κ hn
    · exact h.owned n t ho
  case ofKind =>
    intro n κ hn
    by_cases hM : ∃ q, M' q = some n
    · obtain ⟨q, hM⟩ := hM
      obtain ⟨κ', hκ', hof⟩ := hof q n hM
      rw [hn] at hκ'
      cases hκ'
      exact hof
    · -- it is no longer in the tree, or was not before
      rw [not_exists] at hM
      rcases hp.kind_cases h hn with hn | ⟨-, -, -, hk⟩
      · have hne : n ≠ n₀ := by
          rintro rfl
          obtain ⟨q, hq⟩ := hp.self
          exact hM q hq
        rw [get_ne hne]
        exact (h.ofKind n κ hn).mono (fun m κ hm => kind_mono hm) hp.keys_subset (SameBody.refl _)
      · cases hk with
        | node hM' => exact absurd hM' (hM _)
        | leaf hM' => exact absurd hM' (hM _)
  case word =>
    intro n κ hn
    rw [hp.word_eq]
    rcases hp.kind_cases h hn with hn | ⟨-, -, hw, -⟩
    · exact h.word n κ hn
    · exact hw
  case free =>
    intro n p π id hn hfree
    rw [hp.word_eq] at hfree
    rcases hp.kind_cases h hn with hn | ⟨-, -, -, hk⟩
    · refine (hp.gone p π id n hn (h.free n p π id hn hfree)).resolve_right fun ho => ?_
      obtain ⟨v, hw, hmod, -⟩ := h.locked n t _ ho hn
      have := hw.free_iff.mp hfree
      omega
    · cases hk with
      | node hM => exact hM
  case locked =>
    intro n u κ ho hn
    obtain ⟨ho', hold⟩ := owner_cases ho
    obtain ⟨κ', hκ'⟩ := Option.ne_none_iff_exists'.mp (hold κ hn)
    rw [hp.word_eq]
    exact h.locked n u κ' ho' hκ'
  case maps =>
    intro k v hk
    rcases (hp.maps k v).mp hk with ⟨rfl, rfl⟩ | hk
    · exact hdoing
    · exact h.maps k v hk
  case leaf =>
    intro n v hn
    rcases hp.kind_cases h hn with hn | ⟨-, -, -, hk⟩
    · exact (hp.maps _ v).mpr (Or.inr (h.leaf n v hn))
    · cases hk with
      | leaf hM hq =>
        have hmaps : R'.Maps _ v := ⟨_, _, hq, rfl, rfl⟩
        rwa [hp.shape.keyed _ v hmaps]
  case observed =>
    refine { h.observed with
      read := fun l hl k r hc ha h0 =>
        (hp.maps k r).mpr (Or.inr (h.observed.read l hl k r hc ha h0))
      failed := fun i hi k v e hc ha => ?_ }
    obtain ⟨hcalled, hno, hnot⟩ := h.observed.failed i hi k v e hc ha
    refine ⟨hcalled, hno, fun hk => ?_⟩
    rcases (hp.maps k v).mp hk with ⟨-, rfl⟩ | hk
    · exact hno t hp.doing
    · exact hnot hk

/-- What does not belong to the thread keeps its kind, if it has one. -/
theorem kind_eq (hp : Publishes A x t tid n₀ o R' M') (h : Inv A U x) (hn : x.2.owner n ≠ some t) :
    (x.publish n₀ o R' M').2.kind n = x.2.kind n := by
  cases hk : x.2.kind n with
  | some κ => exact kind_mono hk
  | none =>
    by_contra hne
    obtain ⟨κ, hκ⟩ := Option.ne_none_iff_exists'.mp hne
    rcases hp.kind_cases h hκ with hκ | ⟨ho, -⟩
    · rw [hk] at hκ
      cases hκ
    · exact hn ho

/-- The other threads do not mind. -/
theorem rely (hp : Publishes A x t tid n₀ o R' M') (h : Inv A U x) (hu : u ≠ t) :
    Rely u x (x.publish n₀ o R' M') := by
  obtain ⟨κ₀, hκ₀⟩ := hp.kind
  have hother : ∀ n, x.2.owner n = some u → x.2.owner n ≠ some t := by
    intro n hn ho
    exact hu (Option.some.inj (hn.symm.trans ho))
  refine ⟨⟨fun n hn => Heap.live_set.mpr hn, fun n κ hn => kind_mono hn, fun k v hk =>
    (hp.maps k v).mpr (Or.inr hk), fun _ => id, fun n κ hn =>
    (congrArg UInt64.toNat (hp.word_eq n)).ge, fun n κ hn hfree _ => get_ne ?_⟩,
    fun n hn => ⟨?_, get_ne ?_, fun q π id hk hq =>
    (hp.gone q π id n hk hq).resolve_right (hother n hn),
      hp.kind_eq h (hother n hn)⟩, rfl,
    fun k v hv hk => ?_, rfl, fun _ => Or.inl⟩
  · rintro rfl
    obtain ⟨v, hw, hmod, -⟩ := h.locked n t κ₀ hp.owner hκ₀
    have := hw.free_iff.mp hfree
    omega
  · have hk := hp.kind_eq h (hother n hn)
    simp only [World.publish] at hk ⊢
    rw [if_neg, hn]
    rintro ⟨hnone, hne⟩
    exact hne (hk.trans hnone)
  · rintro rfl
    exact hother n hn hp.owner
  · rcases (hp.maps k v).mp hk with ⟨-, rfl⟩ | hk
    · exact absurd (h.doing_inj u t v hv hp.doing) hu
    · exact hk

end Publishes

end Steps

end TinyPointerTrees.Art
