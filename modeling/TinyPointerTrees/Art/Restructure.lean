import TinyPointerTrees.Art.Occupancy
import TinyPointerTrees.Art.Settled

/-!
# How an insertion changes the tree

The four ways in which `insert` ends, for a single thread: the key byte is added to a
node that has room, the node grows, the prefix of a node is split, or a leaf is. All
of them lock one or two nodes, build what is new, and publish it with one write of a
pointer. An allocation that is refused finds the nodes `Locked`, and leaves them so
(`Locked.left`).
-/

namespace TinyPointerTrees.Art

open Conc ArtM

variable {V : Variant} {A : Tree V} {ids : ℕ → UInt64} {s s' s₁ s₂ : Heap V}
  {R R' : RadixTree UInt8 UInt64} {M M' : Key → Option Ref} {b : ℕ} {k p x : Key} {π r : List UInt8}
  {c : UInt8} {n m : Ref} {t : NodeType} {o : Obj V} {tid : UInt64} {W N : List Ref} {e : Leave}
  {p₀ : Key} {π₀ : List UInt8} {c₀ : UInt8} {n₀ n' : Ref} {t₀ t' : NodeType}
  {ptr old : ArtTinyPtr V} {hash : TinyPtrHashes}

/-- How an insertion of `k` fails: the tree is the same, but nodes may be locked. -/
inductive Failed (A : Tree V) (s : Heap V) (R : RadixTree UInt8 UInt64) (M : Key → Option Ref)
    (k : Key) (b : ℕ) : Leave → Heap V → Prop
  /-- A byte is read that a key does not have. -/
  | outOfBounds {s' : Heap V} (hfits : ¬ R.Fits k) (hs : Settled A s' R M b) :
      Failed A s R M k b .outOfBounds s'
  /-- An allocation was refused: a bucket had no more than two free entries when the call began.
  Some node stays locked. -/
  | overflow {e : OverflowError} {s' : Heap V} (hfits : R.Fits k) (hfull : s.Crowded A.indexer 2)
      (hs : Settled A s' R M b) (hheld : Held s' M) : Failed A s R M k b (.overflow e) s'

/-- How an insertion of `k` is left that is not completed. -/
inductive Left (A : Tree V) (s : Heap V) (R : RadixTree UInt8 UInt64) (M : Key → Option Ref)
    (k : Key) (b : ℕ) : Leave → Heap V → Prop
  /-- It starts again, and has done nothing. -/
  | restart {e : Leave} {s' : Heap V} (h : Stuck s M e s') : Left A s R M k b e s'
  /-- It fails. -/
  | failed {e : Leave} {s' : Heap V} (h : Failed A s R M k b e s') : Left A s R M k b e s'

/-- The insertion of `k` is completed: the tree has the key. -/
structure Inserted (A : Tree V) (s : Heap V) (R : RadixTree UInt8 UInt64) (M : Key → Option Ref)
    (k : Key) (tid : UInt64) (b : ℕ) (s' : Heap V) : Prop where
  fits : R.Fits k
  settled : ∃ R' M', Settled A s' R' M' (b + 4) ∧
    (∀ k' v, R'.Maps k' v ↔ (k' = k ∧ v = tid) ∨ R.Maps k' v) ∧
    (Rested A s M → Rested A s' M') ∧ (Filled V R M → Filled V R' M')

/-! ### Locked nodes -/

/-- The nodes `W` of the tree are locked and the objects `N` are new, and nothing else was done
since `s`. -/
structure Locked (A : Tree V) (R : RadixTree UInt8 UInt64) (M : Key → Option Ref) (s s₁ : Heap V)
    (W N : List Ref) : Prop extends Since A.indexer s s₁ W N [] where
  get_locked : ∀ w ∈ W, s₁.get w = (s.addWord w 0b10).get w
  node : ∀ w ∈ W, ∃ q, M q = some w ∧ Free (s.get w).typeVersionLockObsolete
  leaf : ∀ q π c n m, R.item q = some ⟨π, none⟩ → M q = some n → M (q ++ π ++ [c]) = some m →
    m.special = leafS → m ∈ W → n ∈ W

namespace Locked

theorem refl (hs : s.Wf A.indexer) : Locked A R M s s [] [] :=
  ⟨Since.refl hs [], by simp, by simp, by simp⟩

/-- One node more is locked. -/
theorem lock (h : Locked A R M s s₁ W []) (hset : Settled A s R M b) (hn : M p = some n)
    (hW : n ∉ W) (hfree : Free (s.get n).typeVersionLockObsolete)
    (hleaf : ∀ q π c n', R.item q = some ⟨π, none⟩ → M q = some n' → M (q ++ π ++ [c]) = some n →
      n.special = leafS → n' ∈ W) : Locked A R M s (s₁.addWord n 0b10) (n :: W) [] := by
  have hlive := hset.shape.live hn
  have hsince : Since A.indexer s s₁ (n :: W) [] [] :=
    ⟨h.wf, h.live, h.fresh, fun m hm => h.get m fun hmW =>
      hm (List.mem_cons_of_mem _ hmW), h.pending⟩
  refine ⟨hsince.addWord (Or.inl ⟨List.mem_cons_self, hlive⟩), fun w hw => ?_, fun w hw => ?_,
    fun q π c n' m hi hq hm hms hmW => ?_⟩
  · by_cases hwn : w = n
    · subst hwn
      rw [Heap.get_addWord_self, Heap.get_addWord_self, h.get w hW (by simp)]
    · rw [Heap.get_addWord_ne hwn]
      exact h.get_locked w ((List.mem_cons.mp hw).resolve_left hwn)
  · rcases List.mem_cons.mp hw with rfl | hw
    · exact ⟨p, hn, hfree⟩
    · exact h.node w hw
  · apply List.mem_cons_of_mem
    rcases List.mem_cons.mp hmW with rfl | hmW
    · exact hleaf q π c n' hi hq hm hms
    · exact h.leaf q π c n' m hi hq hm hms hmW

theorem live_locked (h : Locked A R M s s₁ W N) (hset : Settled A s R M b) {w : Ref} (hw : w ∈ W) :
    s.Live w := by
  obtain ⟨q, hq, -⟩ := h.node w hw
  exact hset.shape.live hq

theorem made {h : TinyPtrHashes} {q : ArtTinyPtr V} {d : ℕ} (hl : Locked A R M s s₁ W N)
    (hset : Settled A s R M b) (hm : Made A.indexer s₁ s₂ d h q n o) :
    Locked A R M s s₂ W (n :: N) := by
  refine ⟨hl.toSince.made hm, fun w hw => ?_, hl.node, hl.leaf⟩
  rw [hm.get_live (hl.live_old (hl.live_locked hset hw))]
  exact hl.get_locked w hw

/-- An object is made, and the ones that were made before are still there. -/
theorem make {h : TinyPtrHashes} {q : ArtTinyPtr V} {d : ℕ} (hl : Locked A R M s s₁ W N)
    (hset : Settled A s R M b) (hm : Made A.indexer s₁ s₂ d h q n o) :
    Locked A R M s s₂ W (n :: N) ∧ ∀ l ∈ N, l ≠ n ∧ s₂.get l = s₁.get l := by
  refine ⟨hl.made hset hm, fun l hN => ⟨hm.ne ?_, hm.get_live ?_⟩⟩ <;> exact hl.live_new hN

/-- Writes of new objects change nothing in the tree. -/
theorem set (hl : Locked A R M s s₁ W N) (hset : Settled A s R M b) (hn : n ∈ N) :
    Locked A R M s (s₁.set n o) W N := by
  refine ⟨hl.toSince.set (Or.inr hn), fun w hw => ?_, hl.node, hl.leaf⟩
  rw [Heap.get_set_ne]
  · exact hl.get_locked w hw
  · rintro rfl
    exact hl.fresh w hn (hl.live_locked hset hw)

theorem refused (hl : Locked A R M s s₁ W N) (hr : Heap.Refused A.indexer s₁ s₂) :
    Locked A R M s s₂ W N :=
  ⟨hl.toSince.refused hr, fun w hw => (hr.get w).trans (hl.get_locked w hw), hl.node, hl.leaf⟩

/-- The versions of a locked node. -/
theorem version (hl : Locked A R M s s₁ W N) (hset : Settled A s R M b) (hb : b + 4 ≤ 2 ^ 62)
    (hn : n ∈ W) :
    ∃ v, v % 4 = 0 ∧ v < b ∧ Word V n (s.get n).typeVersionLockObsolete v ∧
      Word V n (s₁.get n).typeVersionLockObsolete (v + 2) := by
  obtain ⟨q, hq, hfree⟩ := hl.node n hn
  obtain ⟨v, hv, hmod, hlt⟩ := hset.version hq hfree
  refine ⟨v, hmod, hlt, hv, ?_⟩
  rw [hl.get_locked n hn, Heap.get_addWord_self]
  exact hv.add (by omega) rfl

/-- The nodes of the tree have changed in their lock words only. -/
theorem body (hl : Locked A R M s s₁ W N) (hset : Settled A s R M b) (hb : b + 4 ≤ 2 ^ 62)
    (hn : M p = some n) : s₁.Live n ∧ SameBody (s.get n) (s₁.get n) := by
  have hlive := hset.shape.live hn
  refine ⟨hl.live_old hlive, ?_⟩
  by_cases hW : n ∈ W
  · obtain ⟨v, -, -, hv, hv'⟩ := hl.version hset hb hW
    have hget := hl.get_locked n hW
    rw [Heap.get_addWord_self] at hget
    rw [hget] at hv' ⊢
    exact SameBody.of_word hv hv'
  · exact SameBody.of_eq (hl.get_old hlive hW)

theorem inner (hl : Locked A R M s s₁ W N) (hset : Settled A s R M b) (hb : b + 4 ≤ 2 ^ 62)
    (hn : M p = some n) (hi : Inner A.indexer M p π n t (s.get n)) :
    Inner A.indexer M p π n t (s₁.get n) :=
  hi.congr (hl.body hset hb hn).2 fun _ => rfl

/-- The tree is still the same. -/
theorem settled (hl : Locked A R M s s₁ W N) (hset : Settled A s R M b) (hb : b + 4 ≤ 2 ^ 62) :
    Settled A s₁ R M b := by
  have hnew : ∀ {q : Key} {n : Ref}, M q = some n → n ∉ N :=
    fun hq hN => hl.fresh _ hN (hset.shape.live hq)
  have hnfree : ∀ {w : Ref}, w ∈ W → ¬ Free (s₁.get w).typeVersionLockObsolete := by
    intro w hw hfree
    obtain ⟨v, hmod, -, -, hv⟩ := hl.version hset hb hw
    have := hv.free_iff.mp hfree
    omega
  refine hset.after le_rfl hl.toSince (hset.shape.congr fun q n hq => hl.body hset hb hq)
    (fun q n hq => Or.inl ⟨q, hq⟩) (by simp [Heap.refsOf]) (by simp [Heap.refsOf])
    (by simp [Heap.refsOf])
    (fun q n hq hn => ?_) fun q π c n m hi hq hm hms hor hfree => ?_
  · obtain ⟨v, hmod, hlt, -, hv⟩ := hl.version hset hb (hn.resolve_right (hnew hq))
    exact ⟨v + 2, hv, by omega, by omega⟩
  · refine absurd hfree (hnfree ?_)
    rcases hor with hn | hm'
    · exact hn.resolve_right (hnew hq)
    · exact hl.leaf q π c n m hi hq hm hms (hm'.resolve_right (hnew hm))

/-- An allocation that is refused now leaves the nodes locked. -/
theorem left (hl : Locked A R M s s₁ W N) (hr : Heap.Refused A.indexer s₁ s₂)
    (hset : Settled A s R M b) (hb : b + 4 ≤ 2 ^ 62) (hW : W ≠ []) (hN : N.length ≤ 2)
    (hfits : R.Fits k) {e : OverflowError} : Left A s R M k b (.overflow e) s₂ := by
  obtain ⟨c, b', hb', hle⟩ := hl.crowded hr.crowded
  have hl := hl.refused hr
  refine .failed (.overflow hfits ⟨c, b', hb', by omega⟩ (hl.settled hset hb) ?_)
  obtain ⟨n, hn⟩ := List.exists_mem_of_ne_nil W hW
  obtain ⟨q, hq, -⟩ := hl.node n hn
  obtain ⟨v, hmod, -, -, hv⟩ := hl.version hset hb hn
  exact ⟨q, n, hq, hv.isLocked_iff.mpr (by omega)⟩

theorem left_outOfBounds (hl : Locked A R M s s₁ W N) (hset : Settled A s R M b)
    (hb : b + 4 ≤ 2 ^ 62) (hfits : ¬ R.Fits k) : Left A s R M k b .outOfBounds s₁ :=
  .failed (.outOfBounds hfits (hl.settled hset hb))

/-- A node and its child are locked. -/
theorem edge (h : Settled A s R M b) (hp₀ : R.item p₀ = some ⟨π₀, none⟩) (hn₀ : M p₀ = some n₀)
    (hx : p₀ ++ π₀ ++ [c₀] = x) (hn : M x = some n)
    (hfree₀ : Free (s.get n₀).typeVersionLockObsolete)
    (hfree : Free (s.get n).typeVersionLockObsolete) :
    Locked A R M s ((s.addWord n₀ 0b10).addWord n 0b10) [n, n₀] [] := by
  have hne : n ∉ [n₀] := by
    rw [List.mem_singleton]
    exact h.shape.child_ne hx hn₀ hn
  have hlock : Locked A R M s (s.addWord n₀ 0b10) [n₀] [] := by
    refine (Locked.refl h.wf).lock h hn₀ (by simp) hfree₀ fun _ _ _ _ _ _ _ hns => ?_
    exact absurd hns (h.shape.special_ne hp₀ hn₀)
  refine hlock.lock h hn hne hfree fun q π c n' hq hn' hedge _ => ?_
  -- if the child is a leaf, it hangs on the node that is locked
  obtain rfl := (RadixTree.edge_inj hq hp₀ ((h.shape.inj _ x n hedge hn).trans hx.symm)).1
  rw [hn₀] at hn'
  rw [Option.some.inj hn']
  exact List.mem_singleton_self n'

/-- What a locked node becomes when it is unlocked, after a change of what it holds. -/
theorem unlock (hl : Locked A R M s s₁ W N) (hset : Settled A s R M b) (hb : b + 4 ≤ 2 ^ 62)
    (hn : n ∈ W) (ho : (s₁.get n).SameHead o) :
    SameBody o { o with typeVersionLockObsolete := o.typeVersionLockObsolete + 0b10 } ∧
      ∃ v, Word V n (o.typeVersionLockObsolete + 0b10) v ∧ v % 4 = 0 ∧ v < b + 4 := by
  obtain ⟨v, hmod, hlt, -, hv⟩ := hl.version hset hb hn
  rw [← ho.word] at hv
  have hv' : Word V n (o.typeVersionLockObsolete + 0b10) (v + 2 + 2) := hv.add (by omega) rfl
  exact ⟨SameBody.of_word hv hv', _, hv', by omega, by omega⟩

/-- The word of a new object. -/
theorem new_word {w : UInt64} (hl : Locked A R M s s₁ W N) (hset : Settled A s R M b)
    (hb : b + 4 ≤ 2 ^ 62) (hn : n ∈ W) (hw : Word V m w 4) :
    ∃ v, Word V m w v ∧ v % 4 = 0 ∧ v < b + 4 := by
  obtain ⟨v, -, hlt, -, -⟩ := hl.version hset hb hn
  exact ⟨4, hw, by norm_num, by omega⟩

/-- The node, when its child at `c₀` is another one and it is unlocked. -/
theorem inner_change {o₀ : Obj V} {m₁ : Ref} (hl : Locked A R M s s₁ W N) (hset : Settled A s R M b)
    (hb : b + 4 ≤ 2 ^ 62) (hn₀ : M p₀ = some n₀) (hi₀ : Inner A.indexer M p₀ π₀ n₀ t₀ (s.get n₀))
    (hW : n₀ ∈ W) (ho₀ : (s₁.get n₀).change t₀ c₀ ptr = some o₀)
    (hptr : Denotes A.indexer ptr (idHash (s₁.get n₀).id c₀) (some m₁))
    (hM : M' (p₀ ++ π₀ ++ [c₀]) = some m₁)
    (hkeep : ∀ d, d ≠ c₀ → M' (p₀ ++ π₀ ++ [d]) = M (p₀ ++ π₀ ++ [d])) :
    Inner A.indexer M' p₀ π₀ n₀ t₀
      { o₀ with typeVersionLockObsolete := o₀.typeVersionLockObsolete + 0b10 } := by
  obtain ⟨hbody, -⟩ := hl.unlock hset hb hW (Obj.SameHead.of_change ho₀)
  refine Inner.congr (M := M') ?_ hbody fun _ => rfl
  exact (hl.inner hset hb hn₀ hi₀).change ho₀ hptr hM hkeep

/-- What is neither at `p₀` nor at `x`, after two nodes were written and unlocked. -/
theorem body_of_ne {G : List (PendingDelete V)} (hl : Locked A R M s s₁ [n, n₀] N)
    (hset : Settled A s R M b) (hb : b + 4 ≤ 2 ^ 62) (hs : Since A.indexer s s' [n, n₀] N G)
    (hn₀ : M p₀ = some n₀) (hn : M x = some n) (hget : ∀ l, l ≠ n₀ → l ≠ n → s'.get l = s₁.get l)
    {q : Key} {l : Ref} (hq₀ : q ≠ p₀) (hqx : q ≠ x) (hq : M q = some l) :
    s'.Live l ∧ SameBody (s.get l) (s'.get l) := by
  rw [hget l (fun he => hq₀ (hset.shape.inj q p₀ l hq (he ▸ hn₀))) fun he =>
    hqx (hset.shape.inj q x l hq (he ▸ hn))]
  exact ⟨hs.live_old (hset.shape.live hq), (hl.body hset hb hq).2⟩

/-- The pointer to a child can be replaced. -/
theorem exists_change (ptr : ArtTinyPtr V) (hl : Locked A R M s s₁ W N) (hset : Settled A s R M b)
    (hb : b + 4 ≤ 2 ^ 62) (hn₀ : M p₀ = some n₀) (hi₀ : Inner A.indexer M p₀ π₀ n₀ t₀ (s.get n₀))
    (hn : M (p₀ ++ π₀ ++ [c₀]) = some n) : ∃ o₀, (s₁.get n₀).change t₀ c₀ ptr = some o₀ := by
  have hi := hl.inner hset hb hn₀ hi₀
  exact Obj.change_eq_some (hi.denotes hn).1

/-- What is new is not in the tree. -/
theorem not_placed (hl : Locked A R M s s₁ W N) (hset : Settled A s R M b) (hn : n ∈ N) (q : Key) :
    M q ≠ some n := fun hq =>
  hl.fresh n hn (hset.shape.live hq)

end Locked

/-! ### What is left to show at the end -/

/-- Everything was unlocked, what is new is in the tree, and what is no longer there is pending. -/
theorem Inserted.of_shape {G : List (PendingDelete V)} (h : Settled A s R M b) (hfits : R.Fits k)
    (hs : Since A.indexer s s' W N G) (hshape : Shape A s' R' M')
    (hmaps : ∀ k' v, R'.Maps k' v ↔ (k' = k ∧ v = tid) ∨ R.Maps k' v)
    (hM : ∀ q n, M' q = some n → (∃ q₀, M q₀ = some n) ∨ n ∈ N)
    (hM' : ∀ q n, M q = some n → (∃ q', M' q' = some n) ∨ n ∈ Heap.refsOf A.indexer G)
    (hN : ∀ n ∈ N, ∃ q, M' q = some n) (hnd : (Heap.refsOf A.indexer G).Nodup)
    (hG : ∀ n ∈ Heap.refsOf A.indexer G, ∃ q, M q = some n)
    (hout : ∀ q n, M' q = some n → n ∉ Heap.refsOf A.indexer G)
    (hword : ∀ q n, M' q = some n → n ∈ W ∨ n ∈ N → ∃ v, Word V n (s'.get n).typeVersionLockObsolete
      v ∧ v % 4 = 0 ∧ v < b + 4)
    (hkids : ∀ q π c n m, R'.item q = some ⟨π, none⟩ → M' q = some n → M' (q ++ π ++ [c]) = some m →
      m.special = leafS → n ∈ W ∨ n ∈ N → m ∉ N → Free (s.get m).typeVersionLockObsolete)
    (hfilled : Filled V R M → Filled V R' M') : Inserted A s R M k tid b s' := by
  have hfree : ∀ q n, M' q = some n → n ∈ W ∨ n ∈ N → Free (s'.get n).typeVersionLockObsolete := by
    intro q n hq hn
    obtain ⟨v, hv, hmod, -⟩ := hword q n hq hn
    exact hv.free_iff.mpr hmod
  refine ⟨hfits, R', M', h.after (Nat.le_add_right b 4) hs hshape hM hnd hG hout
    (fun q n hq hn => ?_) (fun q π c n m hitem hq hm hms hor _ => ?_), hmaps, fun hrest =>
    hrest.after hs hM hM' hN hfree, hfilled⟩
  · obtain ⟨v, hv, hmod, hlt⟩ := hword q n hq hn
    exact ⟨v, hv, by omega, by omega⟩
  · by_cases hmWN : m ∈ W ∨ m ∈ N
    · exact hfree _ m hm hmWN
    · rw [not_or] at hmWN
      rw [hs.get m hmWN.1 hmWN.2]
      exact hkids q π c n m hitem hq hm hms (hor.resolve_right (not_or.mpr hmWN)) hmWN.2

theorem update_cases {q : Key} {l : Ref} (h : Function.update M x (some m) q = some l) :
    (q ≠ x ∧ M q = some l) ∨ (q = x ∧ l = m) := by
  rw [Function.update_apply] at h
  split_ifs at h with hq
  · exact Or.inr ⟨hq, (Option.some.inj h).symm⟩
  · exact Or.inl ⟨hq, h⟩

/-- What was at `x`, below the node `n₀`, was replaced by what is new and is pending, and `n₀` was
unlocked. -/
theorem Inserted.of_putAll {new : List (Key × Ref)} (h : Settled A s R M b) (hfits : R.Fits k)
    (hp₀ : R.item p₀ = some ⟨π₀, none⟩) (hn₀ : M p₀ = some n₀) (hx : p₀ ++ π₀ ++ [c₀] = x)
    (hn : M x = some n) (hlock : Locked A R M s s₂ [n, n₀] N) (hnd : (new.map Prod.fst).Nodup)
    (hmem : x ∈ new.map Prod.fst) (hbelow : ∀ e ∈ new, x <+: e.1)
    (habsent : ∀ e ∈ new, e.1 ≠ x → M e.1 = none) (hN : ∀ l, l ∈ N ↔ l ∈ new.map Prod.snd)
    (hold : Denotes A.indexer old hash (some n)) (hs : Since A.indexer s s' [n, n₀] N [(old, hash)])
    (hshape : Shape A s' R' (putAll M new))
    (hmaps : ∀ k' v, R'.Maps k' v ↔ (k' = k ∧ v = tid) ∨ R.Maps k' v)
    (hitem₀ : R'.item p₀ = R.item p₀)
    (hword₀ : ∃ v, Word V n₀ (s'.get n₀).typeVersionLockObsolete v ∧ v % 4 = 0 ∧ v < b + 4)
    (hword : ∀ l ∈ N, ∃ v, Word V l (s'.get l).typeVersionLockObsolete v ∧ v % 4 = 0 ∧ v < b + 4)
    (hedge : ∀ q π c l l', (q, l) ∈ new → R'.item q = some ⟨π, none⟩ → M (q ++ π ++ [c]) = some l' →
      ∃ π', R.item x = some ⟨π', none⟩ ∧ x ++ π' ++ [c] = q ++ π ++ [c])
    (hfilled : Filled V R M → Filled V R' (putAll M new)) : Inserted A s R M k tid b s' := by
  have hrefs : Heap.refsOf A.indexer [(old, hash)] = [n] := by
    simp only [Heap.refsOf, List.map_cons, List.map_nil, hold.2.2]
  have hfresh : ∀ q l, (q, l) ∈ new → l ∈ N :=
    fun q l hql => (hN l).2 (List.mem_map.2 ⟨_, hql, rfl⟩)
  have hkeep : ∀ q l, q ≠ x → M q = some l → putAll M new q = some l := by
    intro q l hqx hql
    rw [putAll_of_notMem, hql]
    intro hq
    obtain ⟨e, he, rfl⟩ := List.mem_map.1 hq
    rw [habsent e he hqx] at hql
    cases hql
  have hnotn : ∀ q, putAll M new q ≠ some n := by
    intro q hq
    rcases putAll_cases hq with hqn | ⟨hqx, hq⟩
    · exact hlock.not_placed h (hfresh q n hqn) x hn
    · rw [h.shape.inj q x n hq hn] at hqx
      exact hqx hmem
  have hM₀ : putAll M new p₀ = some n₀ := (putAll_outside hbelow (not_prefix_parent hx)).trans hn₀
  refine .of_shape h hfits hs hshape hmaps (fun q l hql => ?_) (fun q l hql => ?_) (fun l hl => ?_)
    (by rw [hrefs]; exact List.nodup_singleton n) (fun l hl => ?_) (fun q l hql hl => ?_)
    (fun q l hql hl => ?_) (fun q π c l l' hitem hql hql' hls hl hl' => ?_) hfilled
  · rcases putAll_cases hql with hmem | ⟨-, hq⟩
    · exact Or.inr (hfresh q l hmem)
    · exact Or.inl ⟨q, hq⟩
  · by_cases hqx : q = x
    · rw [hqx, hn] at hql
      rw [hrefs, Option.some.inj hql]
      exact Or.inr (List.mem_singleton_self l)
    · exact Or.inl ⟨q, hkeep q l hqx hql⟩
  · obtain ⟨e, he, rfl⟩ := List.mem_map.1 ((hN l).1 hl)
    exact ⟨e.1, putAll_of_mem hnd he⟩
  · rw [hrefs, List.mem_singleton] at hl
    exact ⟨x, hl ▸ hn⟩
  · rw [hrefs, List.mem_singleton] at hl
    exact hnotn q (hl ▸ hql)
  · rcases hl with hl | hl
    · rcases List.mem_pair.mp hl with rfl | rfl
      · exact absurd hql (hnotn q)
      · exact hword₀
    · exact hword l hl
  · -- a leaf that was there before hangs on the parent, or on what was replaced
    have hold' : M (q ++ π ++ [c]) = some l' := by
      rcases putAll_cases hql' with hmem | ⟨-, hq⟩
      · exact absurd (hfresh _ l' hmem) hl'
      · exact hq
    have hfree : ∀ w ∈ [n, n₀], Free (s.get w).typeVersionLockObsolete :=
      fun w hw => (hlock.node w hw).choose_spec.2
    rcases hl with hl | hl
    · rcases List.mem_pair.mp hl with rfl | rfl
      · exact absurd hql (hnotn q)
      · obtain rfl : q = p₀ := hshape.inj q p₀ l hql hM₀
        rw [hitem₀, hp₀] at hitem
        cases hitem
        exact h.leaf q π₀ c l l' hp₀ hn₀ hold' hls (hfree l (by simp))
    · rcases putAll_cases hql with hmem | ⟨-, hq⟩
      · obtain ⟨π', hx', hpath⟩ := hedge q π c l l' hmem hitem hold'
        exact h.leaf x π' c n l' hx' hn (hpath ▸ hold') hls (hfree n (by simp))
      · exact absurd hq (hlock.not_placed h hl q)

/-! ### New nodes -/

theorem Inner.getD_getPrefix {X : ℕ → BucketIndexer} (h : Inner X M p π n t o)
    (j : Fin maxStoredPrefixLength) {d : UInt8} (hd : π[j.val]? = some d) :
    o.getPrefix.getD j.val 0 = d := by
  rw [← h.stored j d hd]
  simp [Obj.getPrefix]

/-- A copy of a node, of a class with more room. -/
theorem Inner.copy {X : ℕ → BucketIndexer} {special cap : ℕ} {n' : Ref} {t' : NodeType}
    (h : Inner X M p π n t o) (ht : t.capacity = some cap) (ht' : V.nodeType special = some t')
    (hroom : ∀ m ∈ t'.capacity, cap < m) (hn' : n'.special = special) (id : UInt64) (new : Obj V) :
    ∃ o', o.copyTo t t' { new.construct special id o.getPrefix o.prefixCount with id := o.id } =
      some o' ∧ Inner X M p π n' t' o' ∧ o'.isFull t' = false ∧
      Word V n' o'.typeVersionLockObsolete 4 := by
  have hlt := (V.nodeType_lt (c := special) (by rw [ht']; exact Option.some_ne_none t')).2
  have hw := word_construct (o := new) hlt hn' id o.getPrefix o.prefixCount
  have hempty : (new.construct special id o.getPrefix o.prefixCount).entries = [] := by
    simp [Obj.construct]
  have hc : Inner X (fun _ => none) p π n' t' (new.construct special id o.getPrefix π.length) :=
    .construct id ht' hn' (fun _ => rfl) fun j d hd => h.getD_getPrefix j hd
  rw [← h.prefixCount] at hc
  generalize new.construct special id o.getPrefix o.prefixCount = o₁ at hw hempty hc
  have hs₁ : ({ o₁ with id := o.id } : Obj V).Sound t' := hc.sound.of_entries rfl
  obtain ⟨o', hcopy, hsound, hhead, hfull, hkids⟩ :=
    Obj.copyTo_spec h.sound ht hroom hs₁ hempty fun c =>
    hc.getChild_eq_null rfl
  refine ⟨o', hcopy, ⟨hc.nodeType, fun hty => ?_, hsound, hhead.prefixCount.trans hc.prefixCount,
    fun j d hd => ?_, fun c => ?_⟩, hfull, ?_⟩
  · rw [← hc.type hty]
    unfold Obj.getType
    rw [hhead.word]
  · rw [hhead.prefixBytes]
    exact hc.stored j d hd
  · rw [hkids, hhead.id]
    exact h.kids c
  · rw [hhead.word]
    exact hw

/-- A new node with two children. -/
theorem Inner.fork {X : ℕ → BucketIndexer} {special : ℕ} {n₁ n₂ : Ref} {src : List UInt8}
    {d : UInt8} {q q' : ArtTinyPtr V} (ht : V.nodeType special = some t)
    (hroom : ∀ cap ∈ t.capacity, 2 ≤ cap) (hn : n.special = special)
    (hsrc : ∀ j : Fin maxStoredPrefixLength, ∀ b, π[j.val]? = some b → src.getD j.val 0 = b)
    (id : UInt64) (new : Obj V) (hcd : c ≠ d) (hq : Denotes X q (idHash id c) (some n₁))
    (hq' : Denotes X q' (idHash id d) (some n₂)) (hc : M (p ++ π ++ [c]) = some n₁)
    (hd : M (p ++ π ++ [d]) = some n₂) (hM : ∀ e, e ≠ c → e ≠ d → M (p ++ π ++ [e]) = none) :
    ∃ o₁ o₂, (new.construct special id src π.length).insert t c q = some o₁ ∧
      o₁.insert t d q' = some o₂ ∧ Inner X M p π n t o₂ ∧
      Word V n o₂.typeVersionLockObsolete 4 := by
  have hlt := (V.nodeType_lt (c := special) (by rw [ht]; exact Option.some_ne_none t)).2
  have hw := word_construct (o := new) hlt hn id src π.length
  have hempty : (new.construct special id src π.length).entries = [] := by simp [Obj.construct]
  have hid : (new.construct special id src π.length).id = id := by simp [Obj.construct]
  have hi : Inner X (fun _ => none) p π n t (new.construct special id src π.length) :=
    .construct id ht hn (fun _ => rfl) hsrc
  generalize new.construct special id src π.length = o at hw hempty hid hi
  obtain ⟨o₂, hfold, hsound, hhead, -, hkids⟩ :=
    Obj.copy_spec (l := [(c, q), (d, q')]) (by simpa using hcd)
    (by simpa using ⟨hq.1, hq'.1⟩) hi.sound (fun e _ => hi.getChild_eq_null rfl) fun cap hcap => by
      rw [hempty]
      exact hroom cap hcap
  rw [List.foldlM_cons] at hfold
  obtain ⟨o₁, ho₁, hfold⟩ := Option.bind_eq_some_iff.mp hfold
  rw [List.foldlM_cons] at hfold
  obtain ⟨o₂', ho₂, hfold⟩ := Option.bind_eq_some_iff.mp hfold
  cases hfold
  refine ⟨o₁, o₂, ho₁, ho₂, ⟨hi.nodeType, fun hty => ?_, hsound,
    hhead.prefixCount.trans hi.prefixCount, fun j b hb => ?_, fun e => ?_⟩, ?_⟩
  · rw [← hi.type hty]
    unfold Obj.getType
    rw [hhead.word]
  · rw [hhead.prefixBytes]
    exact hi.stored j b hb
  · rw [hkids, hhead.id, hid, Obj.lookup_cons, Obj.lookup_cons]
    split_ifs with he he'
    · rw [he, hc]
      exact hq
    · rw [he', hd]
      exact hq'
    · rw [hM e he he']
      exact hi.getChild_eq_null rfl
  · rw [hhead.word]
    exact hw

/-- A copy of a node at the end of a longer path, with the rest of its prefix, and unlocked. -/
theorem Inner.relocate {X : ℕ → BucketIndexer} {μ r rest : List UInt8} {a : UInt8} {n' : Ref}
    {v : ℕ} (h : Inner X M x (μ ++ a :: r) n t o) (hn' : n'.special = n.special)
    (hv : Word V n o.typeVersionLockObsolete v) (hlt : v + 2 < 2 ^ 62)
    (hrest : ∀ j : Fin maxStoredPrefixLength, ∀ b, r[j.val]? = some b → rest.getD j.val 0 = b)
    {o' : Obj V} (ho' : o' = o.setPrefix rest (o.prefixCount - (μ.length + 1))) :
    Inner X M (x ++ μ ++ [a]) r n' t
      { o' with typeVersionLockObsolete := o'.typeVersionLockObsolete + 0b10 } ∧
      Word V n' (o'.typeVersionLockObsolete + 0b10) (v + 2) := by
  have hr : o.prefixCount - (μ.length + 1) = r.length := by
    rw [h.prefixCount, List.length_append, List.length_cons]
    omega
  rw [hr] at ho'
  have hv' : Word V n' o'.typeVersionLockObsolete v := by
    rw [ho', Obj.word_setPrefix]
    refine ⟨?_, hv.lt⟩
    rw [hv.toNat, tag, tag, hn']
  have hadd : Word V n' (o'.typeVersionLockObsolete + 0b10) (v + 2) := hv'.add hlt rfl
  refine ⟨?_, hadd⟩
  refine Inner.congr (M := M) (o := o') ?_ (SameBody.of_word hv' hadd) fun _ => rfl
  refine ⟨hn' ▸ h.nodeType, fun hty => ?_, h.sound.of_entries (by rw [ho', Obj.entries_setPrefix]),
    ?_, ?_, fun c => ?_⟩
  · rw [hv'.getType, tag, if_pos hty]
  · rw [ho', Obj.prefixCount_setPrefix]
  · rw [ho']
    exact Inner.stored_setPrefix hrest
  · have hpath : x ++ μ ++ [a] ++ r ++ [c] = x ++ (μ ++ a :: r) ++ [c] := by simp
    rw [hpath, Obj.getChild_congr (o := o) (by rw [ho', Obj.entries_setPrefix])
      (by rw [ho', Obj.children_setPrefix]), ho',
      Obj.id_setPrefix]
    exact h.kids c

/-! ### Adding a child in place -/

namespace Tree

theorem isFull_congr {o' : Obj V} (h : SameBody o o') : o'.isFull t = o.isFull t := by
  unfold Obj.isFull
  rw [h.entries]

theorem ends_generateVal {Q : ArtTinyPtr V → Heap V → Prop} {E : Leave → Heap V → Prop}
    (hs : s.Wf A.indexer) (hl : s.Live n)
    (hq : ∀ q m s' (o : Obj V), Made A.indexer s s' leafS (idHash (s.get n).id c) q m
      (o.constructLeaf tid) → Q q s')
    (he : ∀ e s', Heap.Refused A.indexer s s' → E (.overflow e) s') :
    EndsOr (artHandler A.indexer ids 0) (generateVal tid n c) s Q E := by
  refine EndsOr.bind (ends_getId hl (EndsOr.bind (ends_createLeaf hs (fun q m s' o hm => ?_) he)))
  exact EndsOr.pure (hq q m s' o hm)

/-- The tree when the leaf is written into the node, and the node unlocked. -/
theorem inserted_addLeaf (h : Settled A s R M b) (hb : b + 4 ≤ 2 ^ 62)
    (hp : R.item p = some ⟨π, none⟩) (hn : M p = some n) (ht : V.nodeType n.special = some t)
    (hc : R.item (p ++ π ++ [c]) = none) (hk : k = p ++ π ++ [c] ++ r) (hload : A.loadKey tid = k)
    (hlock : Locked A R M s s₂ [n] [m]) {ptr : ArtTinyPtr V} (hms : m.special = leafS)
    (hmget : s₂.get m = o.constructLeaf tid)
    (hptr : Denotes A.indexer ptr (idHash (s₂.get n).id c) (some m)) {o' : Obj V}
    (ho' : (s₂.get n).insert t c ptr = some o') :
    Inserted A s R M k tid b ((s₂.set n o').addWord n 0b10) := by
  obtain ⟨n', t', hn', hl, hi⟩ := h.shape.inner hp
  obtain rfl : n = n' := Option.some.inj (hn.symm.trans hn')
  obtain rfl : t = t' := Option.some.inj (ht.symm.trans hi.nodeType)
  have hnone : M (p ++ π ++ [c]) = none := h.shape.eq_none_iff.mpr hc
  have hmfresh : ∀ q, M q ≠ some m :=
    fun q hq => hlock.fresh m (List.mem_singleton_self m) (h.shape.live hq)
  have hmn : m ≠ n := fun he => hmfresh p (he ▸ hn)
  obtain ⟨hbody, hword⟩ := hlock.unlock h hb (List.mem_singleton_self n)
    (Obj.SameHead.of_insert ho')
  generalize hs' : (s₂.set n o').addWord n 0b10 = s'
  have hsince : Since A.indexer s s' [n] [m] [] := by
    rw [← hs']
    exact (hlock.toSince.set (Or.inl ⟨List.mem_singleton_self n, hl⟩)).addWord
      (Or.inl ⟨List.mem_singleton_self n, hl⟩)
  have hgetn : s'.get n =
    { o' with typeVersionLockObsolete := o'.typeVersionLockObsolete + 0b10 } := by
    rw [← hs', Heap.get_addWord_self, Heap.get_set_self]
  have hget : ∀ l, l ≠ n → s'.get l = s₂.get l := by
    intro l hln
    rw [← hs', Heap.get_addWord_ne hln, Heap.get_set_ne hln]
  have hgetm : s'.get m = o.constructLeaf tid := (hget m hmn).trans hmget
  have hin : Inner A.indexer (Function.update M (p ++ π ++ [c]) (some m)) p π n t (s'.get n) := by
    rw [hgetn]
    refine Inner.congr ?_ hbody fun _ => rfl
    exact (hlock.inner h hb hn hi).insert hnone ho' hptr (Function.update_self ..) fun d hd =>
      Function.update_of_ne (by simpa using hd) ..
  have hshape := h.shape.addLeaf hp hc hn (hsince.live_old hl) hin hmfresh
    (hsince.live_new (List.mem_singleton_self m)) hms (by rw [hgetm]; rfl) (fun q l hqp hq => ?_)
    (hload.trans hk)
  · refine .of_shape h (RadixTree.fits_of_absent hp rfl hc (hk ▸ List.prefix_append _ _)) hsince
      hshape (fun k' v => by rw [hk]; exact RadixTree.maps_addLeaf) (fun q l hql => ?_)
      (fun q l hql => Or.inl ⟨q, ?_⟩) (fun l hl => ⟨p ++ π ++ [c], ?_⟩)
      List.nodup_nil (by simp [Heap.refsOf]) (by simp [Heap.refsOf]) (fun q l _ hl => ?_)
      (fun q π' c' l l' hitem hql hql' hls hl hl' => ?_) fun hfilled => ?_
    · refine (update_cases hql).imp (fun hq => ⟨q, hq.2⟩) fun he => ?_
      rw [he.2]
      exact List.mem_singleton_self m
    · rw [Function.update_of_ne (Shape.ne_of_eq_none hnone hql), hql]
    · rw [List.mem_singleton.mp hl]
      exact Function.update_self ..
    · rcases hl with hl | hl
      · rw [List.mem_singleton.mp hl, hgetn]
        exact hword
      · rw [List.mem_singleton.mp hl, hgetm]
        exact hlock.new_word h hb (List.mem_singleton_self n) (word_constructLeaf hms tid)
    · rcases hl with hl | hl
      · -- the other leaves of the node were free, as the node was
        rw [List.mem_singleton.mp hl] at hql
        have hqp : q = p := hshape.inj q p n hql
          (by rw [Function.update_of_ne (Shape.ne_of_eq_none hnone hn), hn])
        subst hqp
        rw [RadixTree.item_addLeaf_ne (by simp), hp] at hitem
        cases hitem
        have hold := (update_cases hql').resolve_right fun he =>
          hl' (he.2 ▸ List.mem_singleton_self m)
        obtain ⟨_, _, hfree⟩ := hlock.node n (List.mem_singleton_self n)
        exact h.leaf q π c' n l' hp hn hold.2 hls hfree
      · rw [List.mem_singleton.mp hl] at hql
        exact absurd hms (hshape.special_ne hitem hql)
    · refine hfilled.addLeaf (fun q l _ hqc hql => by rwa [Function.update_of_ne hqc] at hql)
        fun l t' hp0 hl ht' => ?_
      rw [Function.update_of_ne (Shape.ne_of_eq_none hnone hn)] at hl
      exact (hfilled p π l t' hp0 hp hl ht').trans (Nat.le_succ _)
  · have hln : l ≠ n := by
      intro he
      rw [he] at hq
      exact hqp (h.shape.inj q p n hq hn)
    rw [hget l hln]
    exact ⟨hsince.live_old (h.shape.live hq), (hlock.body h hb hq).2⟩

theorem insertInPlace_spec (h : Settled A s R M b) (hb : b + 4 ≤ 2 ^ 62)
    (hp : R.item p = some ⟨π, none⟩) (hn : M p = some n) (ht : V.nodeType n.special = some t)
    (hfull : (s.get n).isFull t = false) (hc : R.item (p ++ π ++ [c]) = none)
    (hk : k = p ++ π ++ [c] ++ r) (hload : A.loadKey tid = k)
    (hfree : Free (s.get n).typeVersionLockObsolete) {parentNode : Option Ref} {pv : UInt64}
    (hparent : ∀ m ∈ parentNode, s.Live m ∧ (s.get m).typeVersionLockObsolete = pv) :
    EndsOr (artHandler A.indexer ids 0) (insertInPlace tid n (s.get n).typeVersionLockObsolete
      parentNode pv c) s (fun _ s' => Inserted A s R M k tid b s') (Left A s R M k b) := by
  obtain ⟨n', t', hn', hl, hi⟩ := h.shape.inner hp
  obtain rfl : n = n' := Option.some.inj (hn.symm.trans hn')
  obtain rfl : t = t' := Option.some.inj (ht.symm.trans hi.nodeType)
  have hfits : R.Fits k := RadixTree.fits_of_absent hp rfl hc (hk ▸ List.prefix_append _ _)
  have hlock : Locked A R M s (s.addWord n 0b10) [n] [] := by
    refine (Locked.refl h.wf).lock h hn (by simp) hfree fun q π' c' n' _ _ _ hns => ?_
    exact absurd hns (V.nodeType_ne_leafS (by rw [ht]; exact Option.some_ne_none t))
  have hwrite : EndsOr (artHandler A.indexer ids 0) (do
      upgradeToWriteLockOrRestart n (s.get n).typeVersionLockObsolete
      let p ← generateVal tid n c
      insertChild n c p
      writeUnlock n) s (fun _ s' => Inserted A s R M k tid b s') (Left A s R M k b) := by
    refine EndsOr.bind (ends_upgradeToWriteLockOrRestart hl rfl
      (EndsOr.bind (ends_generateVal hlock.wf
      (Heap.live_addWord.mpr hl) (fun q m s₂ o hm => ?_) fun e s₂ hr =>
      hlock.left hr h hb (List.cons_ne_nil _ _) (by simp) hfits)))
    have hlock := hlock.made h hm
    have hbody := hlock.body h hb hn
    have hi₂ := hlock.inner h hb hn hi
    have hqd : Denotes A.indexer q (idHash (s₂.get n).id c) (some m) := by
      rw [hbody.2.id, ← Heap.id_addWord (n := n) (d := 0b10)]
      exact hm.denotes
    obtain ⟨o', ho'⟩ : ∃ o', (s₂.get n).insert t c q = some o' :=
      Obj.insert_eq_some ((isFull_congr hbody.2).trans hfull) hi₂.sound
    refine EndsOr.bind (ends_insertChild hbody.1 ht ho'
      (ends_fetchAdd (Heap.live_set.mpr hbody.1) ?_))
    exact inserted_addLeaf h hb hp hn ht hc hk hload hlock hm.special hm.get_self hqd ho'
  unfold insertInPlace
  cases parentNode with
  | none => exact hwrite
  | some m => exact EndsOr.bind (ends_readUnlockOrRestart (hparent m rfl).1
      (hparent m rfl).2 hwrite)

/-! ### Growing a node -/

/-- The tree when a copy of the node with one leaf more takes its place. -/
theorem inserted_grow (h : Settled A s R M b) (hb : b + 4 ≤ 2 ^ 62)
    (hp₀ : R.item p₀ = some ⟨π₀, none⟩) (hn₀ : M p₀ = some n₀)
    (ht₀ : V.nodeType n₀.special = some t₀) (hx : p₀ ++ π₀ ++ [c₀] = x)
    (hp : R.item x = some ⟨π, none⟩) (hn : M x = some n) (hc : R.item (x ++ π ++ [c]) = none)
    (hk : k = x ++ π ++ [c] ++ r) (hload : A.loadKey tid = k)
    (hlock : Locked A R M s s₂ [n, n₀] [m, n']) (hms : m.special = leafS)
    (hmget : s₂.get m = o.constructLeaf tid)
    (hin' : Inner A.indexer (Function.update M (x ++ π ++ [c]) (some m)) x π n' t' (s₂.get n'))
    (hw' : Word V n' (s₂.get n').typeVersionLockObsolete 4)
    (hptr : Denotes A.indexer ptr (idHash (s₂.get n₀).id c₀) (some n'))
    (hold : Denotes A.indexer old hash (some n)) {o₀ : Obj V}
    (ho₀ : (s₂.get n₀).change t₀ c₀ ptr = some o₀)
    (hleast : V.leastCount t' ≤ (kids R x π).ncard + 1) :
    Inserted A s R M k tid b ((((s₂.set n₀ o₀).addWord n 0b11).mark 0 old
      hash).addWord n₀ 0b10) := by
  obtain ⟨n₀', t₀', hn₀', hl₀, hi₀⟩ := h.shape.inner hp₀
  obtain rfl : n₀ = n₀' := Option.some.inj (hn₀.symm.trans hn₀')
  obtain rfl : t₀ = t₀' := Option.some.inj (ht₀.symm.trans hi₀.nodeType)
  have hl := h.shape.live hn
  have hnn₀ := h.shape.child_ne hx hn₀ hn
  have hnone : M (x ++ π ++ [c]) = none := h.shape.eq_none_iff.mpr hc
  have hm : m ∈ [m, n'] := by simp
  have hn' : n' ∈ [m, n'] := by simp
  have hmn' : m ≠ n' := by
    intro he
    rw [he] at hms
    exact V.nodeType_ne_leafS (by rw [hin'.nodeType]; exact Option.some_ne_none t') hms
  generalize hs' : (((s₂.set n₀ o₀).addWord n 0b11).mark 0 old hash).addWord n₀ 0b10 = s'
  have hsince : Since A.indexer s s' [n, n₀] [m, n'] [(old, hash)] := by
    rw [← hs']
    exact (((hlock.toSince.set (Or.inl ⟨by simp, hl₀⟩)).addWord
      (Or.inl ⟨by simp, hl⟩)).mark).addWord
      (Or.inl ⟨by simp, hl₀⟩)
  have hget₀ : s'.get n₀ =
    { o₀ with typeVersionLockObsolete := o₀.typeVersionLockObsolete + 0b10 } := by
    rw [← hs', Heap.get_addWord_self, Heap.get_mark, Heap.get_addWord_ne hnn₀.symm,
      Heap.get_set_self]
  have hget : ∀ l, l ≠ n₀ → l ≠ n → s'.get l = s₂.get l := by
    intro l hl₀ hl
    rw [← hs', Heap.get_addWord_ne hl₀, Heap.get_mark, Heap.get_addWord_ne hl, Heap.get_set_ne hl₀]
  have hnew : ∀ l ∈ [m, n'], s'.get l = s₂.get l := fun l hl =>
    hget l (fun he => hlock.not_placed h hl p₀ (he ▸ hn₀)) fun he =>
      hlock.not_placed h hl x (he ▸ hn)
  -- where the copy and the leaf are
  have hnd : ([(x ++ π ++ [c], m), (x, n')].map Prod.fst).Nodup := by simp
  have hbelow : ∀ e ∈ [(x ++ π ++ [c], m), (x, n')], x <+: e.1 := by simp
  have hMx : putAll M [(x ++ π ++ [c], m), (x, n')] x = some n' := putAll_of_mem hnd (by simp)
  have hin₀ : Inner A.indexer (putAll M [(x ++ π ++ [c], m), (x, n')]) p₀ π₀ n₀ t₀ (s'.get n₀) := by
    rw [hget₀]
    exact hlock.inner_change h hb hn₀ hi₀ (by simp) ho₀ hptr (hx ▸ hMx) fun d hd =>
      putAll_outside hbelow (not_prefix_sibling hx hd)
  have hin : Inner A.indexer (putAll M [(x ++ π ++ [c], m), (x, n')]) x π n' t' (s'.get n') := by
    rw [hnew n' hn']
    refine hin'.congr (SameBody.refl _) fun d => ?_
    simp only [putAll, Function.update_apply]
    rw [if_neg (by simp : x ++ π ++ [d] ≠ x)]
  have hshape := h.shape.grow hp₀ hx hp hc hn₀ (hsince.live_old hl₀) rfl hin₀
    (hlock.not_placed h hn') (hsince.live_new hn') hin (hlock.not_placed h hm) hmn'
    (hsince.live_new hm) hms (by rw [hnew m hm, hmget]; rfl)
    (fun _ _ => hlock.body_of_ne h hb hsince hn₀ hn hget) (hload.trans hk)
  refine .of_putAll h (RadixTree.fits_of_absent hp rfl hc (hk ▸ List.prefix_append _ _)) hp₀ hn₀ hx
    hn hlock hnd (by simp) hbelow
    (by simpa using hnone) (by simp) hold hsince hshape
    (fun k' v => by rw [RadixTree.maps_addLeaf, hk])
    (RadixTree.item_addLeaf_ne (Shape.ne_of_eq_none hnone hn₀)) ?_ (fun l hl => ?_)
    (fun q π' c' l l' hql hitem _ => ?_) fun hfilled => ?_
  · rw [hget₀]
    exact (hlock.unlock h hb (by simp) (Obj.SameHead.of_change ho₀)).2
  · rw [hnew l hl]
    rcases List.mem_pair.mp hl with rfl | rfl
    · rw [hmget]
      exact hlock.new_word h hb List.mem_cons_self (word_constructLeaf hms tid)
    · exact hlock.new_word h hb List.mem_cons_self hw'
  · rcases List.mem_pair.mp hql with hql | hql
    · obtain ⟨rfl, rfl⟩ := Prod.mk.inj hql
      rw [RadixTree.item_addLeaf_self] at hitem
      cases hitem
    · obtain ⟨rfl, rfl⟩ := Prod.mk.inj hql
      rw [RadixTree.item_addLeaf_ne (by simp), hp] at hitem
      cases hitem
      exact ⟨π, hp, rfl⟩
  · refine hfilled.addLeaf (fun q l hqx hqc hql => ?_) fun l t _ hl ht => ?_
    · rwa [putAll_of_notMem (by simpa using And.intro hqc hqx)] at hql
    · obtain rfl : n' = l := Option.some.inj (hMx.symm.trans hl)
      obtain rfl : t' = t := Option.some.inj (hin'.nodeType.symm.trans ht)
      exact hleast

theorem grow_spec (h : Settled A s R M b) (hb : b + 4 ≤ 2 ^ 62) (hp₀ : R.item p₀ = some ⟨π₀, none⟩)
    (hn₀ : M p₀ = some n₀) (hx : p₀ ++ π₀ ++ [c₀] = x) (hp : R.item x = some ⟨π, none⟩)
    (hn : M x = some n) (ht : V.nodeType n.special = some t) (hfull : (s.get n).isFull t = true)
    (hc : R.item (x ++ π ++ [c]) = none) (hk : k = x ++ π ++ [c] ++ r) (hload : A.loadKey tid = k)
    (hfree₀ : Free (s.get n₀).typeVersionLockObsolete)
    (hfree : Free (s.get n).typeVersionLockObsolete)
    (hold : Denotes A.indexer old (idHash (s.get n₀).id c₀) (some n)) :
    EndsOr (artHandler A.indexer ids 0) (grow tid n old (s.get n).typeVersionLockObsolete (some n₀)
      (s.get n₀).typeVersionLockObsolete c₀ c) s (fun _ s' => Inserted A s R M k tid b s')
      (Left A s R M k b) := by
  obtain ⟨n₀', t₀, hn₀', hl₀, hi₀⟩ := h.shape.inner hp₀
  obtain rfl : n₀ = n₀' := Option.some.inj (hn₀.symm.trans hn₀')
  obtain ⟨n', t', hn', hl, hi⟩ := h.shape.inner hp
  obtain rfl : n = n' := Option.some.inj (hn.symm.trans hn')
  obtain rfl : t = t' := Option.some.inj (ht.symm.trans hi.nodeType)
  have hfits : R.Fits k := RadixTree.fits_of_absent hp rfl hc (hk ▸ List.prefix_append _ _)
  have hnn₀ := h.shape.child_ne hx hn₀ hn
  obtain ⟨cap, hcap⟩ : ∃ cap, t.capacity = some cap := by
    cases hcap : t.capacity with
    | some cap => exact ⟨cap, rfl⟩
    | none => simp [Obj.isFull, hcap] at hfull
  obtain ⟨t', ht', hroom⟩ := V.nodeType_biggerS ht hcap
  have hlock := Locked.edge h hp₀ hn₀ hx hn hfree₀ hfree
  unfold grow
  refine EndsOr.bind (ends_defined rfl
    (EndsOr.bind (ends_upgradeToWriteLockOrRestart hl₀ rfl (EndsOr.bind
    (ends_upgradeToWriteLock (Heap.live_addWord.mpr hl) (by rw [Heap.get_addWord_ne hnn₀]) ?_)))))
  rw [Bool.not_true, if_neg Bool.false_ne_true]
  generalize (s.addWord n₀ 0b10).addWord n 0b10 = s₁ at hlock
  have hi₁ := hlock.inner h hb hn hi
  have hid₁ := (hlock.body h hb hn₀).2.id
  -- the copy
  refine EndsOr.bind (ends_getId (hlock.body h hb hn₀).1
    (EndsOr.bind (ends_read (hlock.body h hb hn).1 (EndsOr.bind (ends_create hlock.wf ht'
    (fun ptr n' s₂ id new hm => ?_) fun e s₂ hr => hlock.left hr h hb (List.cons_ne_nil _ _)
    (by simp) hfits)))))
  obtain ⟨o', hcopy, hin', hfull', hw'⟩ := hi₁.copy hcap ht' hroom hm.special id new
  have hlock := hlock.made h hm
  have hn' : n' ∈ [n'] := List.mem_singleton_self n'
  refine EndsOr.bind (ends_write (hlock.live_new hn') rfl
    (EndsOr.bind (ends_write (Heap.live_set.mpr (hlock.live_new hn'))
    (o := o') ?_ ?_)))
  · rw [ht, ht', Heap.get_set_self, hm.get_self]
    exact hcopy
  have hlock : Locked A R M s ((s₂.set n' { s₂.get n' with id := (s₁.get n).id }).set n' o') [n, n₀]
    [n'] :=
    (hlock.set h hn').set h hn'
  have hget' := Heap.get_set_self (s := s₂.set n' { s₂.get n' with id := (s₁.get n).id })
    (n := n') (o := o')
  generalize (s₂.set n' { s₂.get n' with id := (s₁.get n).id }).set n' o' = s₃ at hlock hget'
  -- the leaf, in the copy
  refine EndsOr.bind (ends_generateVal hlock.wf (hlock.live_new hn')
    (fun q m s₄ om hm' => ?_) fun e s₂ hr =>
    hlock.left hr h hb (List.cons_ne_nil _ _) (by simp) hfits)
  have hmn' : n' ≠ m := hm'.ne (hlock.live_new hn')
  have hlock := hlock.made h hm'
  have hget₄ : s₄.get n' = o' := (hm'.get n' hmn').trans hget'
  obtain ⟨o₃, ho₃⟩ : ∃ o₃, o'.insert t' c q = some o₃ := Obj.insert_eq_some hfull' hin'.sound
  refine EndsOr.bind (ends_insertChild (hlock.live_new (by simp)) hin'.nodeType
    (by rw [hget₄]; exact ho₃) ?_)
  have hlock := hlock.set (o := o₃) h (n := n') (by simp)
  have hgetm : (s₄.set n' o₃).get m = om.constructLeaf tid := by
    rw [Heap.get_set_ne hmn'.symm, hm'.get_self]
  have hget₅ : (s₄.set n' o₃).get n' = o₃ := Heap.get_set_self
  generalize s₄.set n' o₃ = s₅ at hlock hgetm hget₅
  -- the parent points to the copy
  have hbody₀ := hlock.body h hb hn₀
  have hptr : Denotes A.indexer ptr (idHash (s₅.get n₀).id c₀) (some n') := by
    rw [hbody₀.2.id, ← hid₁]
    exact hm.denotes
  obtain ⟨o₀, ho₀⟩ := hlock.exists_change ptr h hb hn₀ hi₀ (hx ▸ hn)
  have hid₅ : (((s₅.set n₀ o₀).addWord n 0b11).get n₀).id = (s.get n₀).id := by
    rw [Heap.id_addWord, Heap.get_set_self, (Obj.SameHead.of_change ho₀).id, hbody₀.2.id]
  have hlive₀ : ((s₅.set n₀ o₀).addWord n 0b11).Live n₀ :=
    Heap.live_addWord.mpr (Heap.live_set.mpr hbody₀.1)
  refine EndsOr.bind (ends_change hbody₀.1 (hlock.inner h hb hn₀ hi₀).classOf ho₀
    (EndsOr.bind (ends_fetchAdd (Heap.live_set.mpr (hlock.body h hb hn).1)
    (EndsOr.bind (ends_getId hlive₀ (EndsOr.bind (ends_mark (ends_fetchAdd hlive₀ ?_))))))))
  rw [hid₅]
  have hpath : Function.update M (x ++ π ++ [c]) (some m) (x ++ π ++ [c]) = some m :=
    Function.update_self ..
  have hin₅ : Inner A.indexer (Function.update M (x ++ π ++ [c]) (some m)) x π n' t'
    (s₅.get n') := by
    rw [hget₅]
    refine hin'.insert (h.shape.eq_none_iff.mpr hc) ho₃ ?_ hpath fun d hd =>
      Function.update_of_ne (by simpa using hd) ..
    rw [← hget']
    exact hm'.denotes
  have hw₅ : Word V n' (s₅.get n').typeVersionLockObsolete 4 := by
    rw [hget₅, (Obj.SameHead.of_insert ho₃).word]
    exact hw'
  have hkids : (kids R x π).ncard = cap := by
    rw [← hi.ncard_of_isFull hcap hfull]
    simp only [Ne, h.shape.eq_none_iff]
    rfl
  exact inserted_grow h hb hp₀ hn₀ hi₀.nodeType hx hp hn hc hk hload hlock hm'.special hgetm hin₅
    hw₅ hptr hold ho₀ (by rw [hkids, Variant.leastCount_biggerS ht hcap ht'])

/-! ### Splitting a stem -/

variable {μ r' : List UInt8} {a d : UInt8} {val : Option UInt64} {n₁ n₂ n₃ : Ref} {t₁ : NodeType}

/-- The tree when a new node with what was there and a leaf takes the place of what was there. -/
theorem inserted_split (h : Settled A s R M b) (hb : b + 4 ≤ 2 ^ 62)
    (hp₀ : R.item p₀ = some ⟨π₀, none⟩) (hn₀ : M p₀ = some n₀)
    (ht₀ : V.nodeType n₀.special = some t₀) (hx : p₀ ++ π₀ ++ [c₀] = x)
    (hitem : R.item x = some ⟨μ ++ a :: r, val⟩) (hn : M x = some n) (had : a ≠ d)
    (hk : k = x ++ μ ++ [d] ++ r') (hload : A.loadKey tid = k)
    (hlock : Locked A R M s s₂ [n, n₀] [n₂, n₃, n₁])
    (hM' : M' = putAll M [(x ++ μ ++ [d], n₃), (x ++ μ ++ [a], n₂), (x, n₁)])
    (hin₁ : Inner A.indexer M' x μ n₁ t₁ (s₂.get n₁))
    (hw₁ : Word V n₁ (s₂.get n₁).typeVersionLockObsolete 4) (ht₁ : V.leastCount t₁ = 2)
    (hin₂ : (val = none ∧ n₂.special = n.special ∧ ∃ t, Inner A.indexer M (x ++ μ ++ [a]) r n₂ t
      (s₂.get n₂)) ∨ ∃ v, val = some v ∧ n₂.special = leafS ∧ (s₂.get n₂).value = v)
    (hw₂ : ∃ v, Word V n₂ (s₂.get n₂).typeVersionLockObsolete v ∧ v % 4 = 0 ∧ v < b + 4)
    (hms : n₃.special = leafS) (hmget : s₂.get n₃ = o.constructLeaf tid) (h₂₁ : n₂ ≠ n₁)
    (h₃₁ : n₃ ≠ n₁) (h₃₂ : n₃ ≠ n₂)
    (hptr : Denotes A.indexer ptr (idHash (s₂.get n₀).id c₀) (some n₁))
    (hold : Denotes A.indexer old hash (some n)) {o₀ : Obj V}
    (ho₀ : (s₂.get n₀).change t₀ c₀ ptr = some o₀)
    (hsince : Since A.indexer s s' [n, n₀] [n₂, n₃, n₁] [(old, hash)])
    (hget₀ : s'.get n₀ = { o₀ with typeVersionLockObsolete := o₀.typeVersionLockObsolete + 0b10 })
    (hget : ∀ l, l ≠ n₀ → l ≠ n → s'.get l = s₂.get l) : Inserted A s R M k tid b s' := by
  obtain ⟨n₀', t₀', hn₀', hl₀, hi₀⟩ := h.shape.inner hp₀
  obtain rfl : n₀ = n₀' := Option.some.inj (hn₀.symm.trans hn₀')
  obtain rfl : t₀ = t₀' := Option.some.inj (ht₀.symm.trans hi₀.nodeType)
  have hx0 : x ≠ [] := by
    rw [← hx]
    simp
  have hstem : ∀ e, M (x ++ μ ++ [e]) = none :=
    fun e => h.shape.eq_none_iff.mpr (RadixTree.none_of_stem hitem e)
  have hN := fun l (hl : l ∈ [n₂, n₃, n₁]) => hlock.not_placed h hl
  have hnew : ∀ l ∈ [n₂, n₃, n₁], s'.get l = s₂.get l := fun l hl =>
    hget l (fun he => hN l hl p₀ (he ▸ hn₀)) fun he => hN l hl x (he ▸ hn)
  have h₁ : n₁ ∈ [n₂, n₃, n₁] := by simp
  have h₂ : n₂ ∈ [n₂, n₃, n₁] := by simp
  have h₃ : n₃ ∈ [n₂, n₃, n₁] := by simp
  -- where the three new objects are
  have hnd : ([(x ++ μ ++ [d], n₃), (x ++ μ ++ [a], n₂), (x, n₁)].map Prod.fst).Nodup := by
    simp [had.symm]
  have hbelow : ∀ e ∈ [(x ++ μ ++ [d], n₃), (x ++ μ ++ [a], n₂), (x, n₁)], x <+: e.1 := by simp
  subst hM'
  generalize hnews : [(x ++ μ ++ [d], n₃), (x ++ μ ++ [a], n₂), (x, n₁)] = new at hnd hbelow hin₁
  have hMx : putAll M new x = some n₁ := putAll_of_mem hnd (by simp [← hnews])
  have hMa : putAll M new (x ++ μ ++ [a]) = some n₂ := putAll_of_mem hnd (by simp [← hnews])
  have hin₀ : Inner A.indexer (putAll M new) p₀ π₀ n₀ t₀ (s'.get n₀) := by
    rw [hget₀]
    exact hlock.inner_change h hb hn₀ hi₀ (by simp) ho₀ hptr (hx ▸ hMx) fun e he =>
      putAll_outside hbelow (not_prefix_sibling hx he)
  have hin₁' : Inner A.indexer (putAll M new) x μ n₁ t₁ (s'.get n₁) := by
    rw [hnew n₁ h₁]
    exact hin₁
  have hin₂' : (val = none ∧ ∃ t, Inner A.indexer M (x ++ μ ++ [a]) r n₂ t (s'.get n₂)) ∨
      ∃ w, val = some w ∧ n₂.special = leafS ∧ (s'.get n₂).value = w := by
    rw [hnew n₂ h₂]
    exact hin₂.imp_left fun hi => ⟨hi.1, hi.2.2⟩
  have hshape := h.shape.split hp₀ hx hitem hx0 had (congrArg (putAll M) hnews.symm) hn₀
    (hsince.live_old hl₀) hin₀ (hN n₁ h₁) (hsince.live_new h₁) hin₁' (hN n₂ h₂) h₂₁
    (hsince.live_new h₂) hin₂' (hN n₃ h₃) h₃₁ h₃₂ (hsince.live_new h₃) hms
    (by rw [hnew n₃ h₃, hmget]; rfl)
    (fun _ _ => hlock.body_of_ne h hb hsince hn₀ hn hget) (hload.trans hk)
  have hp₀x : p₀ ≠ x := fun he => not_prefix_parent hx (by rw [he])
  have hitem₀ : (R.split x μ a d r r' val tid hitem hx0 had).item p₀ = R.item p₀ :=
    RadixTree.item_split_of_ne (Shape.ne_of_eq_none (hstem d) hn₀)
      (Shape.ne_of_eq_none (hstem a) hn₀) hp₀x
  refine .of_putAll h (RadixTree.fits_of_stem hitem had (hk ▸ List.prefix_append _ _)) hp₀
    hn₀ hx hn hlock hnd (by simp [← hnews]) hbelow ?_ (by simp [← hnews, or_comm, or_left_comm])
    hold hsince hshape (fun k' v => by rw [RadixTree.maps_split, hk]) hitem₀ ?_ (fun l hl => ?_)
    (fun q π c l l' hql hitem' hql' => ?_) fun hfilled => ?_
  · intro e he hex
    rw [← hnews, List.mem_cons, List.mem_pair] at he
    rcases he with rfl | rfl | rfl
    · exact hstem d
    · exact hstem a
    · exact absurd rfl hex
  · rw [hget₀]
    exact (hlock.unlock h hb (by simp) (Obj.SameHead.of_change ho₀)).2
  · rw [hnew l hl]
    rw [List.mem_cons, List.mem_pair] at hl
    rcases hl with rfl | rfl | rfl
    · exact hw₂
    · rw [hmget]
      exact hlock.new_word h hb List.mem_cons_self (word_constructLeaf hms tid)
    · exact hlock.new_word h hb List.mem_cons_self hw₁
  · rw [← hnews, List.mem_cons, List.mem_pair] at hql
    rcases hql with hql | hql | hql <;> obtain ⟨rfl, rfl⟩ := Prod.mk.inj hql
    · rw [RadixTree.item_split_b] at hitem'
      cases hitem'
    · -- what was split keeps its leaves
      rw [RadixTree.item_split_a] at hitem'
      cases hitem'
      exact ⟨μ ++ a :: r, hitem, by simp⟩
    · rw [RadixTree.item_split_self] at hitem'
      cases hitem'
      rw [hstem c] at hql'
      cases hql'
  · refine hfilled.split (fun q l hqx hqa hqd hql => ?_) (fun l t hl ht => ?_) fun l hval hl =>
      ⟨n, hn, ?_⟩
    · rwa [putAll_of_notMem] at hql
      simpa [← hnews] using And.intro hqd (And.intro hqa hqx)
    · obtain rfl : n₁ = l := Option.some.inj (hMx.symm.trans hl)
      obtain rfl : t₁ = t := Option.some.inj (hin₁.nodeType.symm.trans ht)
      exact ht₁
    · obtain rfl : n₂ = l := Option.some.inj (hMa.symm.trans hl)
      rcases hin₂ with ⟨-, hs, -⟩ | ⟨w, hw, -⟩
      · exact hs.symm
      · rw [hval] at hw
        cases hw

/-- The new node gets what was there and the leaf as its children. -/
theorem ends_fork {f : ArtM V Unit} {Q : Unit → Heap V → Prop}
    {E : Leave → Heap V → Prop} {src : List UInt8} {id : UInt64}
    {new : Obj V} {ptr₂ ptr₃ : ArtTinyPtr V} (h : Settled A s R M b)
    (hitem : R.item x = some ⟨μ ++ a :: r, val⟩) (had : a ≠ d)
    (hlock : Locked A R M s s₂ W N) (hmem : n₁ ∈ N) (ht₁ : V.nodeType V.initialS = some t₁)
    (hroom : ∀ cap ∈ t₁.capacity, 2 ≤ cap) (hn₁ : n₁.special = V.initialS)
    (hsrc : ∀ j : Fin maxStoredPrefixLength, ∀ e, μ[j.val]? = some e → src.getD j.val 0 = e)
    (hget : s₂.get n₁ = new.construct V.initialS id src μ.length) (hptr₃ : Denotes A.indexer ptr₃
      (idHash id d) (some n₃))
    (hptr₂ : Denotes A.indexer ptr₂ (idHash id a) (some n₂))
    (hf : ∀ s', Locked A R M s s' W N → (∀ l, l ≠ n₁ → s'.get l = s₂.get l) →
      Inner A.indexer (putAll M [(x ++ μ ++ [d], n₃), (x ++ μ ++ [a], n₂), (x, n₁)]) x μ n₁
      t₁ (s'.get n₁) →
      Word V n₁ (s'.get n₁).typeVersionLockObsolete 4 →
      EndsOr (artHandler A.indexer ids 0) f s' Q E) :
    EndsOr (artHandler A.indexer ids 0) (do
      insertChild n₁ d ptr₃
      insertChild n₁ a ptr₂
      f) s₂ Q E := by
  have hnd : ([(x ++ μ ++ [d], n₃), (x ++ μ ++ [a], n₂), (x, n₁)].map Prod.fst).Nodup := by
    simp [had.symm]
  have hnone : ∀ e, e ≠ d → e ≠ a → putAll M [(x ++ μ ++ [d], n₃), (x ++ μ ++ [a], n₂), (x, n₁)]
    (x ++ μ ++ [e]) = none := by
    intro e hed hea
    rw [putAll_of_notMem (by simp [hed, hea])]
    exact h.shape.eq_none_iff.mpr (RadixTree.none_of_stem hitem e)
  obtain ⟨o₁, o₂, ho₁, ho₂, hin₁, hw₁⟩ :=
    Inner.fork (p := x) (π := μ) ht₁ hroom hn₁ hsrc id new had.symm hptr₃ hptr₂
    (putAll_of_mem hnd (by simp)) (putAll_of_mem hnd (by simp)) hnone
  have hlive := hlock.live_new hmem
  refine EndsOr.bind (ends_insertChild hlive hin₁.nodeType (by rw [hget]; exact ho₁) (EndsOr.bind
    (ends_insertChild (Heap.live_set.mpr hlive) hin₁.nodeType
    (by rw [Heap.get_set_self]; exact ho₂) ?_)))
  have hself : ((s₂.set n₁ o₁).set n₁ o₂).get n₁ = o₂ := Heap.get_set_self
  apply hf _ ((hlock.set h hmem).set h hmem)
  · intro l hl
    rw [Heap.get_set_ne hl, Heap.get_set_ne hl]
  · rw [hself]
    exact hin₁
  · rw [hself]
    exact hw₁

/-- A new node, and a leaf for the edge of it that the key takes. -/
theorem ends_createWithLeaf
    {f : ArtTinyPtr V × Ref → UInt64 → UInt8 → ArtTinyPtr V × Ref → ArtM V Unit}
    {Q : Unit → Heap V → Prop} {src : List UInt8} {len level : ℕ} {hash : TinyPtrHashes}
    (h : Settled A s R M b) (hb : b + 4 ≤ 2 ^ 62) (hlock : Locked A R M s s₁ W []) (hW : W ≠ [])
    (hfits : R.Fits k) (ht₁ : V.nodeType V.initialS = some t₁) (hbyte : k[level]? = some d)
    (hf : ∀ ptr₁ n₁ ptr₃ n₃ s' id (new o : Obj V), Locked A R M s s' W [n₃, n₁] → n₁ ≠ n₃ →
      n₁.special = V.initialS → s'.get n₁ = new.construct V.initialS id src len →
      Denotes A.indexer ptr₁ hash (some n₁) → n₃.special = leafS →
      s'.get n₃ = o.constructLeaf tid → Denotes A.indexer ptr₃ (idHash id d) (some n₃) →
      EndsOr (artHandler A.indexer ids 0) (f (ptr₁, n₁) id d (ptr₃, n₃)) s' Q
        (Left A s R M k b)) :
    EndsOr (artHandler A.indexer ids 0) (do
      let node ← create V.initialS src len hash
      let id ← getId node.2
      let c ← byteAt k level
      let leaf ← createLeaf tid (idHash id c)
      f node id c leaf) s₁ Q (Left A s R M k b) := by
  refine EndsOr.bind (ends_create hlock.wf ht₁ (fun ptr₁ n₁ s₂ id new hm₁ => ?_)
    fun e s₂ hr => hlock.left hr h hb hW (by simp) hfits)
  have hlock := hlock.made h hm₁
  have hid : (s₂.get n₁).id = id := by
    rw [hm₁.get_self]
    simp [Obj.construct]
  refine EndsOr.bind (ends_getId (hlock.live_new (by simp)) ?_)
  rw [hid]
  refine EndsOr.bind (ends_inBounds hbyte (EndsOr.bind (ends_createLeaf hlock.wf
    (fun ptr₃ n₃ s₃ o hm₃ => ?_) fun e s₃ hr => hlock.left hr h hb hW (by simp) hfits)))
  obtain ⟨hlock, hmade⟩ := hlock.make h hm₃
  obtain ⟨hne, hsame⟩ := hmade n₁ (by simp)
  exact hf ptr₁ n₁ ptr₃ n₃ s₃ id new o hlock hne hm₁.special (hsame.trans hm₁.get_self)
    hm₁.denotes hm₃.special hm₃.get_self hm₃.denotes

theorem splitPrefix_spec (h : Settled A s R M b) (hb : b + 4 ≤ 2 ^ 62)
    (hp₀ : R.item p₀ = some ⟨π₀, none⟩) (hn₀ : M p₀ = some n₀) (hx : p₀ ++ π₀ ++ [c₀] = x)
    (hitem : R.item x = some ⟨μ ++ a :: r, none⟩) (hn : M x = some n) (had : a ≠ d)
    (hk : k = x ++ μ ++ [d] ++ r') (hload : A.loadKey tid = k) {rest : List UInt8}
    (hrest : ∀ j : Fin maxStoredPrefixLength, ∀ b, r[j.val]? = some b → rest.getD j.val 0 = b)
    (hfree₀ : Free (s.get n₀).typeVersionLockObsolete)
    (hfree : Free (s.get n).typeVersionLockObsolete)
    (hold : Denotes A.indexer old (idHash (s.get n₀).id c₀) (some n)) :
    EndsOr (artHandler A.indexer ids 0) (splitPrefix k tid (some n₀) c₀
      (s.get n₀).typeVersionLockObsolete old n (s.get n).typeVersionLockObsolete x.length
      (x ++ μ).length a rest) s (fun _ s' => Inserted A s R M k tid b s') (Left A s R M k b) := by
  obtain ⟨n₀', t₀, hn₀', hl₀, hi₀⟩ := h.shape.inner hp₀
  obtain rfl : n₀ = n₀' := Option.some.inj (hn₀.symm.trans hn₀')
  obtain ⟨n', t, hn', hl, hi⟩ := h.shape.inner hitem
  obtain rfl : n = n' := Option.some.inj (hn.symm.trans hn')
  have hfits : R.Fits k := RadixTree.fits_of_stem hitem had (hk ▸ List.prefix_append _ _)
  have hnn₀ := h.shape.child_ne hx hn₀ hn
  have hlen : (x ++ μ).length - x.length = μ.length := by simp
  have hbyte : k[(x ++ μ).length]? = some d := by simp [hk]
  obtain ⟨t₁, ht₁, hroom⟩ := V.nodeType_initialS
  have hlock := Locked.edge h hp₀ hn₀ hx hn hfree₀ hfree
  unfold splitPrefix
  refine EndsOr.bind (ends_defined rfl
    (EndsOr.bind (ends_upgradeToWriteLockOrRestart hl₀ rfl (EndsOr.bind
    (ends_upgradeToWriteLock (Heap.live_addWord.mpr hl) (by rw [Heap.get_addWord_ne hnn₀]) ?_)))))
  rw [Bool.not_true, if_neg Bool.false_ne_true, hlen]
  generalize (s.addWord n₀ 0b10).addWord n 0b10 = s₁ at hlock
  have hmem : n ∈ [n, n₀] := List.mem_cons_self
  have hi₁ := hlock.inner h hb hn hi
  have hid₁ := (hlock.body h hb hn₀).2.id
  have hget₁ := hlock.get_locked n hmem
  obtain ⟨v, hmod, hlt, -, hv⟩ := hlock.version h hb hmem
  -- the new node and the leaf
  refine EndsOr.bind (ends_getId (hlock.body h hb hn₀).1 (EndsOr.bind
    (ends_read (hlock.body h hb hn).1 (ends_createWithLeaf h hb hlock (List.cons_ne_nil _ _) hfits
    ht₁ hbyte fun ptr n₁ ptr₃ n₃ s₃ id new om hlock h₁₃ hs₁ hmade₁ hd₁ hs₃ hmade₃ hd₃ => ?_))))
  have hsame : s₃.get n = s₁.get n := (hlock.get_locked n hmem).trans hget₁.symm
  -- the copy of the old node
  refine EndsOr.bind (ends_relocateNode hlock.wf (dereference_of_denotes hold).2 hi.nodeType
    (hlock.body h hb hn).1 (fun ptr₂ n₂ s₄ hm₂ => ?_) fun e s₄ hr =>
    hlock.left hr h hb (List.cons_ne_nil _ _) (by simp) hfits)
  obtain ⟨hlock, hmade₂⟩ := hlock.make h hm₂
  obtain ⟨h₁₂, hsame₁⟩ := hmade₂ n₁ (by simp)
  obtain ⟨h₃₂, hsame₃⟩ := hmade₂ n₃ (by simp)
  obtain ⟨hin₂, hw₂⟩ := hi₁.relocate hm₂.special hv (by omega) hrest rfl
  refine EndsOr.bind (ends_write (hlock.live_new (by simp)) rfl (EndsOr.bind (ends_fetchAdd
    (Heap.live_set.mpr (hlock.live_new (by simp))) ?_)))
  rw [hm₂.get_self, hsame]
  generalize hrel : (s₁.get n).setPrefix rest ((s₁.get n).prefixCount - (μ.length + 1)) =
    rel at hin₂ hw₂
  have hlock : Locked A R M s ((s₄.set n₂ rel).addWord n₂ 0b10) [n, n₀] [n₂, n₃, n₁] :=
    (hlock.set h (by simp)).set h (by simp)
  have hgetn₂ := Heap.get_addWord_self (s := s₄.set n₂ rel) (n := n₂) (d := 0b10)
  have hgetn₃ : ((s₄.set n₂ rel).addWord n₂ 0b10).get n₃ = om.constructLeaf tid := by
    rw [Heap.get_addWord_ne h₃₂, Heap.get_set_ne h₃₂, hsame₃, hmade₃]
  have hgetn₁ : ((s₄.set n₂ rel).addWord n₂ 0b10).get n₁ = new.construct V.initialS id
    (s₁.get n).getPrefix μ.length := by
    rw [Heap.get_addWord_ne h₁₂, Heap.get_set_ne h₁₂, hsame₁, hmade₁]
  rw [Heap.get_set_self] at hgetn₂
  generalize (s₄.set n₂ rel).addWord n₂ 0b10 = s₅ at hlock hgetn₂ hgetn₃ hgetn₁
  -- the two children
  refine ends_fork h hitem had hlock (by simp) ht₁ hroom hs₁
    (fun j e he => hi₁.getD_getPrefix j (by
    rw [List.getElem?_append_left (List.getElem?_eq_some_iff.mp he).1]
    exact he)) hgetn₁ hd₃ hm₂.denotes fun s₆ hlock hget hin₁ hw₁ => ?_
  rw [← hget n₂ h₁₂.symm] at hgetn₂
  rw [← hget n₃ h₁₃.symm] at hgetn₃
  -- the parent points to the new node
  have hbody₀ := hlock.body h hb hn₀
  have hbody := hlock.body h hb hn
  have hptr : Denotes A.indexer ptr (idHash (s₆.get n₀).id c₀) (some n₁) := by
    rw [hbody₀.2.id, ← hid₁]
    exact hd₁
  obtain ⟨o₀, ho₀⟩ := hlock.exists_change ptr h hb hn₀ hi₀ (hx ▸ hn)
  refine EndsOr.bind (ends_change hbody₀.1 (hlock.inner h hb hn₀ hi₀).classOf ho₀
    (EndsOr.bind (ends_fetchAdd (Heap.live_set.mpr hbody₀.1)
    (EndsOr.bind (ends_fetchAdd (Heap.live_addWord.mpr (Heap.live_set.mpr hbody.1))
    (EndsOr.bind (ends_getId (Heap.live_addWord.mpr (Heap.live_addWord.mpr
    (Heap.live_set.mpr hbody₀.1))) (ends_mark ?_))))))))
  rw [Heap.id_addWord, Heap.id_addWord, Heap.get_set_self,
    (Obj.SameHead.of_change ho₀).id, hbody₀.2.id]
  refine inserted_split h hb hp₀ hn₀ hi₀.nodeType hx hitem hn had hk hload hlock rfl hin₁ hw₁
    (Variant.leastCount_initialS ht₁) (Or.inl ⟨rfl, hm₂.special, t, hgetn₂ ▸ hin₂⟩)
    ⟨_, by rw [hgetn₂]; exact hw₂, by omega, by omega⟩ hs₃ hgetn₃ h₁₂.symm h₁₃.symm
    h₃₂ hptr hold ho₀ ?_ ?_ ?_
  · exact (((hlock.toSince.set (Or.inl ⟨by simp, hl₀⟩)).addWord (Or.inl ⟨by simp, hl₀⟩)).addWord
      (Or.inl ⟨by simp, hl⟩)).mark
  · rw [Heap.get_mark, Heap.get_addWord_ne hnn₀.symm, Heap.get_addWord_self, Heap.get_set_self]
  · intro l hl₀ hl
    rw [Heap.get_mark, Heap.get_addWord_ne hl, Heap.get_addWord_ne hl₀, Heap.get_set_ne hl₀]

theorem agreeing_eq_none {u w : Key} (h : agreeing u w = none) : u <+: w ∨ w <+: u := by
  induction u, w using agreeing.induct with
  | case1 u b w ih =>
    rw [agreeing, if_pos rfl, Option.map_eq_none_iff] at h
    simpa only [List.cons_prefix_cons, true_and] using ih h
  | case2 a u b w hab => simp [agreeing, hab] at h
  | case3 u w hnot =>
    cases u with
    | nil => exact Or.inl List.nil_prefix
    | cons a u =>
      cases w with
      | nil => exact Or.inr List.nil_prefix
      | cons b w => exact absurd rfl (hnot a u b w rfl)

theorem agreeing_eq_some {u w : Key} {l : ℕ} (h : agreeing u w = some l) :
    ∃ μ a d r r', u = μ ++ a :: r ∧ w = μ ++ d :: r' ∧ a ≠ d ∧ l = μ.length := by
  induction u, w using agreeing.induct generalizing l with
  | case1 u b w ih =>
    rw [agreeing, if_pos rfl, Option.map_eq_some_iff] at h
    obtain ⟨l', hl', rfl⟩ := h
    obtain ⟨μ, a, d, r, r', rfl, rfl, had, rfl⟩ := ih hl'
    exact ⟨b :: μ, a, d, r, r', rfl, rfl, had, rfl⟩
  | case2 a u b w hab =>
    simp only [agreeing, hab, if_false, Option.some.injEq] at h
    exact ⟨[], a, b, u, w, rfl, rfl, hab, h.symm⟩
  | case3 u w hnot =>
    unfold agreeing at h
    split at h
    · exact absurd rfl (hnot _ _ _ _ rfl)
    · cases h

theorem getD_append {u w : List UInt8} {j : ℕ} {e : UInt8} (h : u[j]? = some e) :
    (u ++ w).getD j 0 = e := by
  rw [List.getD_eq_getElem?_getD, List.getElem?_append_left (List.getElem?_eq_some_iff.mp h).1, h]
  rfl

theorem splitLeaf_spec (h : Settled A s R M b) (hb : b + 4 ≤ 2 ^ 62)
    (hp₀ : R.item p₀ = some ⟨π₀, none⟩) (hn₀ : M p₀ = some n₀) (hx : p₀ ++ π₀ ++ [c₀] = x)
    {rest krest : List UInt8} {w : UInt64} (hitem : R.item x = some ⟨rest, some w⟩)
    (hn : M x = some n) (hk : k = x ++ krest) (hload : A.loadKey tid = k)
    (hfree₀ : Free (s.get n₀).typeVersionLockObsolete)
    (hold : Denotes A.indexer old (idHash (s.get n₀).id c₀) (some n)) :
    EndsOr (artHandler A.indexer ids 0) (A.splitLeaf k tid n₀ (s.get n₀).typeVersionLockObsolete old
      c₀ (p₀ ++ π₀).length) s (fun _ s' => Inserted A s R M k tid b s') (Left A s R M k b) := by
  obtain ⟨n₀', t₀, hn₀', hl₀, hi₀⟩ := h.shape.inner hp₀
  obtain rfl : n₀ = n₀' := Option.some.inj (hn₀.symm.trans hn₀')
  obtain ⟨n', hn', hl, hns, hval⟩ := h.shape.leaf hitem
  obtain rfl : n = n' := Option.some.inj (hn.symm.trans hn')
  have hnn₀ := h.shape.child_ne hx hn₀ hn
  have hlen : (p₀ ++ π₀).length + 1 = x.length := by
    rw [← hx]
    simp only [List.length_append, List.length_singleton]
  have hbyte : k[x.length - 1]? = some c₀ := by simp [hk, ← hx]
  have hdrop : k.drop x.length = krest := by rw [hk, List.drop_left]
  have hkey : A.loadKey w = x ++ rest := h.shape.keyed _ w ⟨x, _, hitem, rfl, rfl⟩
  have hfree : Free (s.get n).typeVersionLockObsolete :=
    h.leaf p₀ π₀ c₀ n₀ n hp₀ hn₀ (hx ▸ hn) hns hfree₀
  have hlock := Locked.edge h hp₀ hn₀ hx hn hfree₀ hfree
  unfold splitLeaf
  refine EndsOr.bind (ends_upgradeToWriteLockOrRestart hl₀ rfl
    (EndsOr.bind (ends_getId (Heap.live_addWord.mpr hl₀) ?_)))
  rw [Heap.id_addWord, ← hns]
  refine EndsOr.bind (ends_derefTable hold
    (EndsOr.bind (ends_writeLockOrRestart (Heap.live_addWord.mpr hl)
    (by rw [Heap.get_addWord_ne hnn₀]; exact hfree)
    (EndsOr.bind (ends_value (Heap.live_addWord.mpr (Heap.live_addWord.mpr hl)) ?_)))))
  generalize (s.addWord n₀ 0b10).addWord n 0b10 = s₁ at hlock
  have hbody₁ := hlock.body h hb hn
  have hbody₀ := hlock.body h hb hn₀
  rw [hbody₁.2.value, hval, hkey, hlen]
  dsimp only
  rw [List.drop_left, hdrop]
  -- do the keys part?
  cases hagree : agreeing rest krest with
  | none =>
    refine EndsOr.bind (ends_outOfBounds rfl (hlock.left_outOfBounds h hb fun hfits => ?_))
    have hmaps : R.Maps (x ++ rest) w := ⟨x, _, hitem, rfl, rfl⟩
    rcases agreeing_eq_none hagree with hpre | hpre
    · exact (hfits _ w hmaps).2 (hk ▸ (List.prefix_append_right_inj x).mpr hpre)
    · exact (hfits _ w hmaps).1 (hk ▸ (List.prefix_append_right_inj x).mpr hpre)
  | some l =>
    obtain ⟨μ, a, d, r, r', rfl, rfl, had, rfl⟩ := agreeing_eq_some hagree
    have hfits : R.Fits k := RadixTree.fits_of_stem hitem had (by rw [hk]; simp)
    have hbyte₃ : k[x.length + μ.length]? = some d := by simp [hk]
    have hbyte₂ : (x ++ (μ ++ a :: r))[x.length + μ.length]? = some a := by simp
    have hk' : k = x ++ μ ++ [d] ++ r' := by simp [hk]
    obtain ⟨t₁, ht₁, hroom⟩ := V.nodeType_initialS
    -- the new node and the leaf
    refine EndsOr.bind (ends_inBounds rfl (EndsOr.bind (ends_inBounds hbyte
      (ends_createWithLeaf h hb hlock (List.cons_ne_nil _ _) hfits ht₁ hbyte₃
      fun ptr n₁ ptr₃ n₃ s₃ id new o₃ hlock h₁₃ hs₁ hgetn₁ hd₁ hs₃ hgetn₃ hd₃ => ?_))))
    -- a new leaf for the old one
    refine EndsOr.bind (ends_inBounds hbyte₂ (EndsOr.bind (ends_createLeaf hlock.wf
      (fun ptr₂ n₂ s₄ oc hm₂ => ?_) fun e s₄ hr =>
      hlock.left hr h hb (List.cons_ne_nil _ _) (by simp) hfits)))
    obtain ⟨hlock, hmade₂⟩ := hlock.make h hm₂
    obtain ⟨h₁₂, hsame₁⟩ := hmade₂ n₁ (by simp)
    obtain ⟨h₃₂, hsame₃⟩ := hmade₂ n₃ (by simp)
    have hgetn₂ := hm₂.get_self
    rw [← hsame₁] at hgetn₁
    rw [← hsame₃] at hgetn₃
    -- the two children
    refine ends_fork h hitem had hlock (by simp) ht₁ hroom hs₁ (fun _ _ => getD_append) hgetn₁
      hd₃ hm₂.denotes fun s₆ hlock hget hin₁ hw₁ => ?_
    rw [← hget n₂ h₁₂.symm] at hgetn₂
    rw [← hget n₃ h₁₃.symm] at hgetn₃
    -- the node points to the new one
    obtain ⟨v, -, hlt, -, -⟩ := hlock.version h hb (n := n₀) (by simp)
    have hbody := hlock.body h hb hn
    have hbody₆ := hlock.body h hb hn₀
    have hptr : Denotes A.indexer ptr (idHash (s₆.get n₀).id c₀) (some n₁) := by
      rw [hbody₆.2.id]
      exact hd₁
    obtain ⟨o₀, ho₀⟩ := hlock.exists_change ptr h hb hn₀ hi₀ (hx ▸ hn)
    have hget₇ : ((s₆.addWord n 0b11).mark 0 old (idHash (s.get n₀).id c₀)).get n₀ = s₆.get n₀ := by
      rw [Heap.get_mark, Heap.get_addWord_ne hnn₀.symm]
    have hlive₀ : ((s₆.addWord n 0b11).mark 0 old (idHash (s.get n₀).id c₀)).Live n₀ :=
      Heap.live_mark.mpr (Heap.live_addWord.mpr hbody₆.1)
    refine EndsOr.bind (ends_fetchAdd hbody.1
      (EndsOr.bind (ends_mark (EndsOr.bind
      (ends_change hlive₀ (by rw [hget₇]; exact (hlock.inner h hb hn₀ hi₀).classOf)
      (by rw [hget₇]; exact ho₀) (ends_fetchAdd (Heap.live_set.mpr hlive₀) ?_))))))
    refine inserted_split h hb hp₀ hn₀ hi₀.nodeType hx hitem hn had hk' hload hlock rfl hin₁ hw₁
      (Variant.leastCount_initialS ht₁) (Or.inr ⟨w, rfl, hm₂.special, by rw [hgetn₂]; rfl⟩)
      ⟨4, by rw [hgetn₂]; exact word_constructLeaf hm₂.special w, by norm_num, by omega⟩
      hs₃ hgetn₃ h₁₂.symm h₁₃.symm h₃₂ hptr hold ho₀ ?_ ?_ ?_
    · exact (((hlock.toSince.addWord (Or.inl ⟨by simp, hl⟩)).mark).set
        (Or.inl ⟨by simp, hl₀⟩)).addWord (Or.inl ⟨by simp, hl₀⟩)
    · rw [Heap.get_addWord_self, Heap.get_set_self]
    · intro l hl₀ hl
      rw [Heap.get_addWord_ne hl₀, Heap.get_set_ne hl₀, Heap.get_mark, Heap.get_addWord_ne hl]

end Tree

end TinyPointerTrees.Art
