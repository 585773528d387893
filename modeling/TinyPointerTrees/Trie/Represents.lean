import TinyPointerTrees.Library.PathTrie
import TinyPointerTrees.Library.NodePlacement
import TinyPointerTrees.Trie.Node

/-!
# What a trie over tiny pointers represents

`Rep X H t T M` relates the state `t` of a trie to an abstract trie `T`: `M` says
at which address the node of a path is, different paths have different nodes,
the nodes are what is allocated, and what one says is what `T` says of its path. A pointer
that is neither null nor tagged denotes, under the hash values of the class, the
node of the longer path.

One lemma for each thing that the member functions do to the nodes: `Rep.write`
for a store into a node, `Rep.grow` for a new child, and `Rep.prune` for one that
is freed. `Rep.of_table` is for a table whose nodes have not changed.
-/

namespace TinyPointerTrees

open PathTrie NodePlacement

variable {X : BucketIndexer} {H : Hashing}

/-- The hash of a path. -/
def Hashing.path (H : Hashing) (p : Word) : TinyPtrHashes := p.foldl (fun h c => H.next c h) H.init

theorem Hashing.path_append (H : Hashing) (p : Word) (c : UInt8) :
    H.path (p ++ [c]) = H.next c (H.path p) := by
  simp [Hashing.path]

/-- A node says what the abstract one says; `kid` are the addresses of its children, which
have the hash values `h`. -/
structure NodeRep (X : BucketIndexer) (m : TrieNode) (n : PathNode UInt8)
    (kid : UInt8 → Option Slot) (h : UInt8 → TinyPtrHashes) : Prop where
  flag : m.terminal = true ↔ n.flag
  tagged : ∀ c, m.nodes (entryIdx c) = .tagged ↔ c ∈ n.tagged
  null : ∀ c, m.nodes (entryIdx c) = .null ↔ c ∉ n.tagged ∧ kid c = none
  denotes : ∀ c s, kid c = some s → DerefTable.slotOf X (m.nodes (entryIdx c)) (h c) = s

namespace NodeRep

variable {m : TrieNode} {n : PathNode UInt8} {kid : UInt8 → Option Slot} {h : UInt8 → TinyPtrHashes}
  {c : UInt8}

/-- A node without children. -/
theorem leaf {b : Bool} {f : Prop} (hf : b = true ↔ f) :
    NodeRep X (TrieNode.new.setTerminal b) ⟨f, ∅⟩ (fun _ => none) h := by
  refine ⟨?_, fun d => ?_, fun d => ?_, fun d s hd => ?_⟩
  · rw [TrieNode.terminal_setTerminal]
    exact hf
  · simp [TrieNode.new, TrieNode.setTerminal, TinyPtr.null_ne_tagged]
  · simp [TrieNode.new, TrieNode.setTerminal]
  · cases hd

/-- A child is linked; its byte is no longer tagged. -/
theorem link {ptr : TinyPtr byteLayout} {s : Slot} (hm : NodeRep X m n kid h) (hnull : ptr ≠ .null)
    (htagged : ptr ≠ .tagged) (hslot : DerefTable.slotOf X ptr (h c) = s) :
    NodeRep X (m.setNode (entryIdx c) ptr) { n with tagged := n.tagged \ {c} }
      (Function.update kid c (some s)) h where
  flag := hm.flag
  tagged := by
    refine forall_entry (R := fun d (q : TinyPtr byteLayout) _ => q = .tagged ↔
      d ∈ n.tagged \ {c}) kid (some s) ?_ fun d hd => ?_
    · simp [htagged]
    · simp [hm.tagged, hd]
  null := by
    refine forall_entry (R := fun d (q : TinyPtr byteLayout) o => q = .null ↔ d ∉ n.tagged \ {c} ∧
      o = none) kid (some s) ?_ fun d hd => ?_
    · simp [hnull]
    · simp [hm.null, hd]
  denotes := by
    refine forall_entry (R := fun d q o => ∀ u, o = some u → DerefTable.slotOf X q (h d) = u) kid
      (some s) ?_ fun d _ =>
      hm.denotes d
    rintro u hu
    cases hu
    exact hslot

/-- A child is unlinked; its byte is tagged if it was terminal. -/
theorem unlink {b : Bool} {f : Prop} (hm : NodeRep X m n kid h) (hc : c ∉ n.tagged)
    (hf : b = true ↔ f) :
    NodeRep X (m.setNode (entryIdx c) (if b then .tagged else .null))
      { n with tagged := n.tagged ∪ {d | d = c ∧ f} } (Function.update kid c none) h where
  flag := hm.flag
  tagged := by
    refine forall_entry (R := fun d (q : TinyPtr byteLayout) _ => q = .tagged ↔
      d ∈ n.tagged ∪ {d | d = c ∧ f}) kid none ?_ fun d hd => ?_
    · cases b <;> simp [← hf, hc, TinyPtr.null_ne_tagged]
    · simp [hm.tagged, hd]
  null := by
    refine forall_entry (R := fun d (q : TinyPtr byteLayout) o => q = .null ↔
      d ∉ n.tagged ∪ {d | d = c ∧ f} ∧ o = none) kid none ?_ fun d hd => ?_
    · cases b <;> simp [← hf, hc, TinyPtr.null_ne_tagged.symm]
    · simp [hm.null, hd]
  denotes := by
    refine forall_entry (R := fun d q o => ∀ u, o = some u → DerefTable.slotOf X q (h d) = u) kid
      none ?_ fun d _ => hm.denotes d
    rintro u hu
    cases hu

end NodeRep

/-- The state of a trie represents an abstract trie. -/
structure Rep (X : BucketIndexer) (H : Hashing) (t : Trie) (T : PathTrie UInt8)
    (M : Word → Option Slot) : Prop where
  wf : t.table.Wf byteLayout X
  root : M [] = some t.root
  dom : ∀ p, (M p).isSome ↔ (T.node p).isSome
  inj : ∀ p q s, M p = some s → M q = some s → p = q
  held : ∀ p s, M p = some s → s ∈ t.table.held
  full : ∀ s ∈ t.table.held, ∃ p, M p = some s
  node : ∀ p s n, M p = some s → T.node p = some n →
    NodeRep X (t.table.read s) n (fun c => M (p ++ [c])) (H.child (H.path p) s)

namespace Rep

variable {t : Trie} {T : PathTrie UInt8} {M : Word → Option Slot} {p q : Word} {s : Slot}
  {c : UInt8} {n : PathNode UInt8} {m : TrieNode}

theorem exists_node (h : Rep X H t T M) (hp : M p = some s) : ∃ n, T.node p = some n :=
  Option.isSome_iff_exists.mp ((h.dom p).mp (hp ▸ rfl))

theorem exists_slot (h : Rep X H t T M) (hp : T.node p = some n) : ∃ s, M p = some s :=
  Option.isSome_iff_exists.mp ((h.dom p).mpr (hp ▸ rfl))

theorem kid_eq_none (h : Rep X H t T M) : M p = none ↔ T.node p = none := by
  rw [← Option.not_isSome_iff_eq_none, ← Option.not_isSome_iff_eq_none, h.dom]

/-- Different nodes have different addresses. -/
theorem placement (h : Rep X H t T M) : Placed {q | (T.node q).isSome} {s | s ∈ t.table.held} M :=
  ⟨h.dom, h.inj, h.held⟩

/-- Storing into one node. -/
theorem write {n' : PathNode UInt8} {hs hm} (h : Rep X H t T M) (hp : M p = some s)
    (hn : NodeRep X m n' (fun c => M (p ++ [c])) (H.child (H.path p) s)) :
    Rep X H { t with table := t.table.write s m } (T.replace p n' hs hm) M := by
  refine ⟨h.wf.write (h.held p s hp) m, h.root, fun q => (h.dom q).trans isSome_replace.symm,
    h.inj, h.held, h.full, fun q s' k hq hk => ?_⟩
  by_cases hqp : q = p
  · subst hqp
    rw [hp, Option.some.injEq] at hq
    subst hq
    rw [node_replace_self, Option.some.injEq] at hk
    subst hk
    rwa [Table.read_write_self]
  · rw [node_replace_ne hqp] at hk
    have hne : s' ≠ s := by
      rintro rfl
      exact hqp (h.inj q p s' hq hp)
    rw [Table.read_write_ne hne]
    exact h.node q s' k hq hk

/-- A table that holds the same nodes. -/
theorem of_table {T' : Table TrieNode} (h : Rep X H t T M) (hwf : T'.Wf byteLayout X)
    (hheld : T'.held = t.table.held) (hread : ∀ s, T'.read s = t.table.read s) :
    Rep X H { t with table := T' } T M := by
  refine ⟨hwf, h.root, h.dom, h.inj, fun p s hp => hheld ▸ h.held p s hp, fun s hs =>
    h.full s (hheld ▸ hs), fun p s n hp hn => ?_⟩
  rw [hread s]
  exact h.node p s n hp hn

/-- The number of words is not part of the representation. -/
theorem with_count (h : Rep X H t T M) (k : ℕ) : Rep X H { t with count := k } T M :=
  ⟨h.wf, h.root, h.dom, h.inj, h.held, h.full, h.node⟩

/-- The stores with which a new node `s'` is linked to its parent `s`, a node `m` so far. -/
def linkChild (T : Table TrieNode) (s : Slot) (m : TrieNode) (s' : Slot) (i : Fin 256)
    (ptr : TinyPtr byteLayout) (isTagged : Bool) : Table TrieNode :=
  ((T.write s' .new).write s (m.setNode i ptr)).write s' (TrieNode.new.setTerminal isTagged)

/-- A new child, where there was none. The table has a new entry `s'` with a new node, and
the parent points to it. -/
theorem grow {T' : Table TrieNode} {s' : Slot} {ptr : TinyPtr byteLayout} {isTagged : Bool}
    {hn hnone} (h : Rep X H t T M) (hp : M p = some s)
    (ha : Table.Allocated byteLayout X t.table T' (H.child (H.path p) s c) 0 ptr s')
    (hwf : T'.Wf byteLayout X) (hread : ∀ u, T'.read u = t.table.read u)
    (htag : isTagged = true ↔ c ∈ n.tagged) :
    Rep X H { t with table := linkChild T' s (t.table.read s) s' (entryIdx c) ptr isTagged }
      (T.grow p c n hn hnone) (Function.update M (p ++ [c]) (some s')) := by
  have hs := h.held p s hp
  have hkid : M (p ++ [c]) = none := h.kid_eq_none.mpr hnone
  have hs' : s' ∈ T'.held := ha.held ▸ List.mem_cons_self
  have hheld : ∀ u, u ∈ t.table.held → u ∈ T'.held :=
    fun u hu => ha.held ▸ List.mem_cons_of_mem _ hu
  have hne : ∀ q u, M q = some u → u ≠ s' := fun q u hq e => ha.fresh (e ▸ h.held q u hq)
  have hplaced := h.placement.insert (q := p ++ [c]) (b := s') ha.fresh
  refine ⟨?_, ?_, fun q => ?_, hplaced.inj, fun q u hq => ?_, fun u hu => ?_, fun q u k hq hk => ?_⟩
  · exact ((hwf.write hs' _).write (hheld s hs) _).write hs' _
  · rw [Function.update_of_ne (by simp)]
    exact h.root
  · exact (hplaced.dom q).trans isSome_grow.symm
  · rcases hplaced.live q u hq with rfl | hu
    · exact hs'
    · exact hheld u hu
  · have hu' : u ∈ s' :: t.table.held := ha.held ▸ hu
    rcases List.mem_cons.mp hu' with rfl | hu'
    · exact ⟨p ++ [c], Function.update_self ..⟩
    · obtain ⟨q, hq⟩ := h.full u hu'
      refine ⟨q, (Function.update_of_ne ?_ ..).trans hq⟩
      rintro rfl
      rw [hkid] at hq
      cases hq
  · rcases update_eq_some hq with ⟨rfl, rfl⟩ | ⟨hqc, hq'⟩
    · -- the new node
      rw [node_grow_self, Option.some.injEq] at hk
      subst hk
      have hdeep : (fun d => M (p ++ [c] ++ [d])) = fun _ => none := by
        funext d
        by_contra hd
        have hsome := T.closed (p ++ [c]) d ((h.dom _).mp (Option.isSome_iff_ne_none.mpr hd))
        simp [hnone] at hsome
      rw [linkChild, Table.read_write_self, children_update_of_ne (by simp), hdeep]
      exact .leaf htag
    · by_cases hqp : q = p
      · -- its parent
        subst hqp
        rw [hp, Option.some.injEq] at hq'
        subst hq'
        rw [node_grow_parent, Option.some.injEq] at hk
        subst hk
        rw [linkChild, Table.read_write_ne (hne q s hp), Table.read_write_self,
          children_update_parent]
        exact (h.node q s n hp hn).link ha.ne_null ha.ne_tagged ha.slotOf
      · -- another node
        have hus : u ≠ s := h.placement.ne hq' hp hqp
        rw [node_grow_ne hqp hqc] at hk
        rw [linkChild, Table.read_write_ne (hne q u hq'), Table.read_write_ne hus,
          Table.read_write_ne (hne q u hq'), hread, children_update_of_ne hqp]
        exact h.node q u k hq' hk

/-- The store with which a freed child is unlinked from its parent. -/
def unlinkChild (T : Table TrieNode) (s s' : Slot) (i : Fin 256) (isTerminal : Bool) :
    Table TrieNode :=
  (T.give byteLayout 0 s').write s ((T.read s).setNode i (if isTerminal then .tagged else .null))

/-- A child without children is freed; its parent keeps a tag if the child was terminal. -/
theorem prune {s' : Slot} {m : PathNode UInt8} {isTerminal : Bool} {hn} (h : Rep X H t T M)
    (hp : M p = some s) (hc : M (p ++ [c]) = some s') (hflag : isTerminal = true ↔ m.flag)
    (hnone : ∀ d, T.node (p ++ [c] ++ [d]) = none) :
    Rep X H { t with table := unlinkChild t.table s s' (entryIdx c) isTerminal }
      (T.prune p c n m hn hnone) (Function.update M (p ++ [c]) none) := by
  have hs' : s' ∈ t.table.held := h.held _ _ hc
  have hss' : s ≠ s' := h.placement.ne hp hc (by simp)
  have herase : ∀ u, u ≠ s' → u ∈ t.table.held → u ∈ (t.table.give byteLayout 0 s').held :=
    fun u hu hm => h.wf.held_nodup.mem_erase_iff.mpr ⟨hu, hm⟩
  have hplaced := h.placement.erase hc
  refine ⟨?_, ?_, fun q => ?_, hplaced.inj, fun q u hq => ?_, fun u hu => ?_, fun q u k hq hk => ?_⟩
  · exact (h.wf.give hs').write (herase s hss' (h.held p s hp)) _
  · rw [Function.update_of_ne (by simp)]
    exact h.root
  · exact (hplaced.dom q).trans isSome_prune.symm
  · obtain ⟨hheld, hus'⟩ := hplaced.live q u hq
    exact herase u hus' hheld
  · obtain ⟨hus', hu'⟩ := h.wf.held_nodup.mem_erase_iff.mp hu
    obtain ⟨q, hq⟩ := h.full u hu'
    refine ⟨q, (Function.update_of_ne ?_ ..).trans hq⟩
    rintro rfl
    rw [hc, Option.some.injEq] at hq
    exact hus' hq.symm
  · obtain ⟨hqc, hq'⟩ := update_none_eq_some hq
    by_cases hqp : q = p
    · -- the parent
      subst hqp
      rw [hp, Option.some.injEq] at hq'
      subst hq'
      rw [node_prune_parent, Option.some.injEq] at hk
      subst hk
      have hnot : c ∉ n.tagged := fun hd => by
        have := T.tag_leaf q c n hn hd
        rw [← h.kid_eq_none, hc] at this
        cases this
      rw [unlinkChild, Table.read_write_self, children_update_parent]
      exact (h.node q s n hp hn).unlink hnot hflag
    · -- another node
      have hus : u ≠ s := h.placement.ne hq' hp hqp
      rw [node_prune_ne hqp hqc] at hk
      rw [unlinkChild, Table.read_write_ne hus, Table.read_give (h.placement.ne hq' hc hqc),
        children_update_of_ne hqp]
      exact h.node q u k hq' hk

end Rep

end TinyPointerTrees
