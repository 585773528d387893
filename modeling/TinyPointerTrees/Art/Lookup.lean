import TinyPointerTrees.Art.Settled
import TinyPointerTrees.Art.Answers

/-!
# `lookup`, alone

`lookup_spec` — `lookup` answers on a tree what `Answers` says of the radix tree that
the tree represents: for every key, also for one that is not in the tree, or that
extends or is extended by keys that are.
-/

namespace TinyPointerTrees.Art

open Conc ArtM

variable {V : Variant} {A : Tree V} {ids : ℕ → UInt64} {s s' : Heap V} {R : RadixTree UInt8 UInt64}
  {M : Key → Option Ref} {b : ℕ} {k p : Key} {π : List UInt8} {n : Ref} {t : NodeType} {o : Obj V}

/-! ### Comparing a prefix -/

namespace Tree

theorem checkStored_eq {bs : List UInt8} {level : ℕ} (h : level + bs.length ≤ k.length) :
    checkStored k bs level = some (if (k.drop level).take bs.length = bs then
      some (level + bs.length) else none) := by
  induction bs generalizing level with
  | nil => simp [checkStored]
  | cons c bs ih =>
    rw [List.length_cons] at h
    have hlt : level < k.length := by omega
    have hdrop : k.drop level = k[level] :: k.drop (level + 1) := List.drop_eq_getElem_cons hlt
    rw [checkStored, List.getElem?_eq_getElem hlt, Option.bind_some, hdrop, List.length_cons,
      List.take_succ_cons]
    by_cases hc : c = k[level]
    · rw [if_neg (by simpa using hc), ih (by omega)]
      have hiff : (k[level] :: (k.drop (level + 1)).take bs.length = c :: bs) ↔
          (k.drop (level + 1)).take bs.length = bs := by simp [hc]
      simp only [hiff]
      congr 3
      omega
    · rw [if_pos hc, if_neg]
      intro he
      exact hc (List.cons.inj he).1.symm

/-- What `checkPrefix` answers at a node with prefix `π`, at the level where its prefix begins. -/
theorem checkPrefix_spec {X : ℕ → BucketIndexer} (h : Inner X M p π n t o) (k : Key) :
    (¬ Passes k p π ∧ ((checkPrefix o k p.length = some .noMatch) ∨
      (k.length ≤ (p ++ π).length ∧ checkPrefix o k p.length = some (.matched (p ++ π).length)))) ∨
    (Passes k p π ∧ checkPrefix o k p.length = some (if maxStoredPrefixLength < π.length then
      .optimisticMatch (p ++ π).length else .matched (p ++ π).length)) := by
  unfold checkPrefix Obj.hasPrefix
  rw [h.getPrefix, h.prefixCount]
  by_cases h0 : π.length > 0
  · simp only [h0, decide_true, if_true]
    by_cases hlen : k.length ≤ p.length + π.length
    · rw [if_pos hlen]
      refine Or.inl ⟨fun hp => ?_, Or.inl rfl⟩
      have := hp.1
      rw [List.length_append] at this
      omega
    · have hle : p.length + (π.take maxStoredPrefixLength).length ≤ k.length := by
        rw [List.length_take]
        omega
      have hlt : (p ++ π).length < k.length := by
        rw [List.length_append]
        omega
      rw [if_neg hlen, checkStored_eq hle]
      by_cases heq : (k.drop p.length).take (π.take maxStoredPrefixLength).length =
        π.take maxStoredPrefixLength
      · refine Or.inr ⟨⟨hlt, heq⟩, ?_⟩
        rw [if_pos heq, List.length_take]
        by_cases hlong : maxStoredPrefixLength < π.length
        · have hsum : p.length + min maxStoredPrefixLength π.length +
            (π.length - maxStoredPrefixLength) =
              (p ++ π).length := by
            rw [List.length_append]
            omega
          simp only [gt_iff_lt, hlong, if_true, hsum, Option.map_some]
        · have hsum : p.length + min maxStoredPrefixLength π.length = (p ++ π).length := by
            rw [List.length_append]
            omega
          simp only [gt_iff_lt, hlong, if_false, hsum, Option.map_some]
      · rw [if_neg heq]
        exact Or.inl ⟨fun hp => heq hp.2, Or.inl rfl⟩
  · have hnil : π = [] := List.length_eq_zero_iff.mp (by omega)
    subst hnil
    simp only [List.length_nil, gt_iff_lt, lt_irrefl, decide_false, Bool.false_eq_true, if_false,
      List.append_nil, Nat.not_lt_zero]
    by_cases hlen : k.length ≤ p.length
    · exact Or.inl ⟨fun hp => by
        have := hp.1
        rw [List.append_nil] at this
        omega, Or.inr ⟨hlen, trivial⟩⟩
    · exact Or.inr ⟨⟨by rw [List.append_nil]; omega, by simp⟩, trivial⟩

/-! ### The search -/

/-- The variables of `lookup` at the head of the loop: the node is at a path `p`, from where on the
answer is that of the whole search. -/
structure Searching (A : Tree V) (s : Heap V) (R : RadixTree UInt8 UInt64) (M : Key → Option Ref)
    (k p : Key) (c : LookupState) : Prop where
  node : M p = some c.node
  item : ∃ π, R.item p = some ⟨π, none⟩
  v : c.v = (s.get c.node).typeVersionLockObsolete
  level : c.level = p.length
  answers : ∀ r, Answers A.loadKey R k p c.optimisticPrefixMatch r →
    Answers A.loadKey R k [] false r

/-- What a pass of the loop does: it goes on one level below, or has the answer. -/
def Passed (A : Tree V) (s : Heap V) (R : RadixTree UInt8 UInt64) (M : Key → Option Ref) (k : Key)
    (level : ℕ) (r : LookupState ⊕ UInt64) (s' : Heap V) : Prop :=
  s' = s ∧ Sum.elim (fun c => level < c.level ∧ c.level ≤ k.length ∧ ∃ p, Searching A s R M k p c)
    (fun r => Answers A.loadKey R k [] false r) r

variable {c : LookupState}

variable (ids) in
theorem lookupChild_spec {optimistic : Bool} (h : Settled A s R M b)
    (hp : R.item p = some ⟨π, none⟩) (hn : M p = some n) (hpass : Passes k p π)
    (hans : ∀ r, Answers A.loadKey R k p optimistic r → Answers A.loadKey R k [] false r) :
    EndsOr (artHandler A.indexer ids 0)
      (A.lookupChild k n (s.get n).typeVersionLockObsolete (p ++ π).length
        (optimistic || decide (maxStoredPrefixLength < π.length))) s
      (Passed A s R M k p.length) (Stuck s M) := by
  obtain ⟨n', t, hn', hl, hi⟩ := h.shape.inner hp
  rw [hn] at hn'
  cases hn'
  have hlt := hpass.1
  have hc := List.getElem?_eq_getElem hlt
  unfold lookupChild
  rw [if_neg (by omega)]
  refine EndsOr.bind (ends_inBounds hc (EndsOr.bind (ends_getChild hl hi.classOf
    (EndsOr.bind (ends_readUnlockOrRestart hl rfl ?_)))))
  generalize k[(p ++ π).length] = c at hc
  by_cases hnull : (s.get n).getChild t c = .null
  · rw [if_pos hnull]
    have hnone := h.shape.eq_none_iff.mp (hi.getChild_eq_null_iff.mp hnull)
    exact EndsOr.pure ⟨rfl, hans _ (.absent hp hpass hc hnone)⟩
  rw [if_neg hnull]
  obtain ⟨m, hm⟩ := Option.ne_none_iff_exists'.mp fun h₀ => hnull (hi.getChild_eq_null_iff.mpr h₀)
  have hd : Denotes A.indexer ((s.get n).getChild t c) (idHash (s.get n).id c) (some m) :=
    hi.denotes hm
  have hspecial := (dereference_of_denotes hd).2
  have hml := h.shape.live hm
  rcases h.shape.item hm with ⟨r, v, hleaf, hms, hmv⟩ | ⟨π', t', hinner, hi'⟩
  · have hisLeaf : isLeaf ((s.get n).getChild t c) = true := by simp [isLeaf, hspecial, hms]
    rw [if_pos hisLeaf]
    refine EndsOr.bind (ends_readUnlockOrRestart hl rfl (EndsOr.bind (ends_getId hl ?_)))
    rw [← hms]
    refine EndsOr.bind (ends_derefTable hd (EndsOr.bind (h.ends_readLockOrRestart hm
      (fun _ => ?_) id)))
    refine EndsOr.bind (ends_value hml (EndsOr.bind (ends_readUnlockOrRestart hml rfl
      (EndsOr.pure ⟨rfl, ?_⟩))))
    rw [hmv]
    exact hans _ (.leaf hp hpass hc hleaf)
  · have hne : ¬ isLeaf ((s.get n).getChild t c) = true := by
      have := V.nodeType_ne_leafS (c := m.special)
        (by rw [hi'.nodeType]; exact Option.some_ne_none t')
      simp [isLeaf, hspecial, this]
    rw [if_neg hne]
    refine EndsOr.bind (ends_getId hl (EndsOr.bind (ends_dereference hd hi'.nodeType ?_)))
    refine EndsOr.bind (h.ends_readLockOrRestart hm (fun _ =>
      EndsOr.bind (ends_readUnlockOrRestart hl rfl ?_)) id)
    refine EndsOr.pure ⟨rfl, ?_, hlt, p ++ π ++ [c], hm, ⟨π', hinner⟩, rfl, ?_, fun r hr =>
      hans _ (.inner hp hpass hc hinner hr)⟩
    · show p.length < (p ++ π).length + 1
      rw [List.length_append]
      omega
    · simp only [List.length_append, List.length_singleton]

theorem lookupRound_spec (h : Settled A s R M b) (hc : Searching A s R M k p c) :
    EndsOr (artHandler A.indexer ids 0) (A.lookupRound k c) s (Passed A s R M k c.level)
      (Stuck s M) := by
  obtain ⟨π, hp⟩ := hc.item
  obtain ⟨n', t, hn', hl, hi⟩ := h.shape.inner hp
  rw [hc.node] at hn'
  cases hn'
  unfold lookupRound
  rw [hc.level]
  refine EndsOr.bind (ends_read hl ?_)
  rcases checkPrefix_spec hi k with ⟨hno, hr | ⟨hlen, hr⟩⟩ | ⟨hpass, hr⟩
  · refine EndsOr.bind (ends_inBounds hr (EndsOr.bind (ends_readUnlockOrRestart hl hc.v.symm
      (EndsOr.pure ⟨rfl, ?_⟩))))
    exact hc.answers _ (.gone hp hno)
  · refine EndsOr.bind (ends_inBounds hr ?_)
    dsimp only
    unfold lookupChild
    rw [if_pos hlen]
    exact EndsOr.pure ⟨rfl, hc.answers _ (.gone hp hno)⟩
  · have hchild := lookupChild_spec ids h hp hc.node hpass hc.answers
    refine EndsOr.bind (ends_inBounds hr ?_)
    by_cases hlong : maxStoredPrefixLength < π.length
    · simp only [hlong, if_true, decide_true, Bool.or_true] at hchild ⊢
      rwa [hc.v]
    · simp only [hlong, if_false, decide_false, Bool.or_false] at hchild ⊢
      rwa [hc.v]

variable (ids) in
theorem lookupAttempt_spec (h : Settled A s R M b) :
    EndsOr (artHandler A.indexer ids 0) (A.lookupAttempt k) s (fun r s' => s' = s ∧
      Answers A.loadKey R k [] false r) (Stuck s M) := by
  refine EndsOr.bind (h.ends_readLockOrRestart h.shape.root (fun _ => ?_) id)
  refine EndsOr.forever (fun m c s' => s' = s ∧ m = k.length - c.level ∧ c.level ≤ k.length ∧
    ∃ p, Searching A s R M k p c) ?_ (m := k.length) ⟨rfl, rfl, Nat.zero_le _, [], h.shape.root,
      ⟨[], R.root⟩, rfl, rfl, fun _ => id⟩
  rintro m c s' ⟨rfl, rfl, -, p, hc⟩
  refine EndsOr.mono (lookupRound_spec h hc) ?_ fun _ _ => id
  rintro (c' | r) s'' ⟨rfl, hq⟩
  · obtain ⟨hlt, hle, hc'⟩ := hq
    exact ⟨k.length - c'.level, by omega, rfl, rfl, hle, hc'⟩
  · exact ⟨rfl, hq⟩

/-- `lookup` answers what the radix tree says, and leaves the tree as it is. -/
theorem lookup_spec (ids : ℕ → UInt64) (k : Key) (h : AtRest A s R M b) :
    EndsOr (artHandler A.indexer ids 0) (A.lookup k) s
      (fun r s' => Answers A.loadKey R k [] false r ∧ AtRest A s' R M b) fun _ _ => False := by
  refine EndsOr.bind (EndsOr.op rfl ?_)
  have h : AtRest A (s.enter 0) R M b := h.congr rfl Heap.pending_enter
  refine EndsOr.retrying ((lookupAttempt_spec ids h.toSettled).mono ?_ ?_)
  · rintro r s' ⟨rfl, hr⟩
    exact ⟨hr, h⟩
  · rintro e s' ⟨-, -, hheld⟩
    exact absurd hheld h.not_held

/-- Even if nodes are locked, a `lookup` that returns was right. -/
theorem lookup_runs (h : Settled A s R M b) {r : Except Leave UInt64}
    (hr : Prog.Runs (artHandler A.indexer ids 0) (A.lookup k).run s r s') :
    Settled A s' R M b ∧ ∃ v, r = .ok v ∧ Answers A.loadKey R k [] false v := by
  obtain ⟨x, hx, hr⟩ := (Throwing.runs_op_bind _).mp hr
  obtain rfl : x = ((), s.enter 0) := (Option.some.inj hx).symm
  have h : Settled A (s.enter 0) R M b := h.congr rfl Heap.pending_enter
  have hq := ((lookupAttempt_spec ids h).mono (fun _ _ => id) fun e s' hs => by
    rw [hs.1]
    exact hs.2.1).of_runs_retrying (Q := fun r s' => s' = s.enter 0 ∧
      Answers A.loadKey R k [] false r) (E := fun _ _ => False) hr
  cases r with
  | ok v =>
    obtain ⟨rfl, hv⟩ := hq
    exact ⟨h, v, rfl, hv⟩
  | error e => exact hq.elim

end Tree

end TinyPointerTrees.Art
