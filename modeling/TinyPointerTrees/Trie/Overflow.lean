import TinyPointerTrees.Trie.TinyTrie
import TinyPointerTrees.Trie.TinyTrie2

/-!
# An insert that throws

`create_parent_node` links nodes one by one, and the dereference table may refuse any
of them. What it linked before that stays, and it is no word.

* `insert_overflow` — after an insert that threw, the words and `size` are what they
  were. The nodes linked before the one that was refused are there, each at its path,
  and nothing else has been allocated or freed.
* `not_leavesNoTrace` — a word that is longer than the table has entries leaves nodes
  behind.
-/

namespace TinyPointerTrees

open PathTrie TrieM

variable {X : BucketIndexer} {H : Hashing} {t t' : Trie}

/-- Both buckets of the hash values are full, so that `allocate` throws. -/
def Trie.Refuses (X : BucketIndexer) (t : Trie) (h : TinyPtrHashes) : Prop :=
  (t.table.bucket (X.index h.1)).freeSlotCount = 0 ∧
    (t.table.bucket (X.index h.2)).freeSlotCount = 0

/-- The first node that `create_parent_node` has to allocate is refused. The walk is over the
characters that are left, from a node and with the hash of its path. -/
def Trie.Blocked (X : BucketIndexer) (H : Hashing) (t : Trie) : Word → Slot → TinyPtrHashes → Prop
  | [], _, _ => False
  | c :: w, s, h =>
    let entry := (t.table.read s).nodes (entryIdx c)
    if entry = .null ∨ entry = .tagged then t.Refuses X (H.child h s c)
    else Blocked X H t w (DerefTable.slotOf X entry (H.child h s c)) (H.next c h)

instance (X : BucketIndexer) (t : Trie) (h : TinyPtrHashes) : Decidable (t.Refuses X h) :=
  inferInstanceAs (Decidable (_ ∧ _))

theorem Trie.refuses_iff {h : TinyPtrHashes} :
    t.Refuses X h ↔ ∃ e, (t.table.allocate byteLayout X 0 h 0).1 = .error e :=
  Table.allocate_eq_error_iff.symm

theorem Trie.refuses_of_error {h : TinyPtrHashes} {e : OverflowError} {T' : Table TrieNode}
    (ha : t.table.allocate byteLayout X 0 h 0 = (.error e, T')) : t.Refuses X h :=
  refuses_iff.mpr ⟨e, congrArg Prod.fst ha⟩

theorem Trie.not_refuses_of_ok {h : TinyPtrHashes} {r : TinyPtr byteLayout × Slot}
    {T' : Table TrieNode} (ha : t.table.allocate byteLayout X 0 h 0 = (.ok r, T')) :
    ¬t.Refuses X h := by
  rw [refuses_iff, ha]
  rintro ⟨e, he⟩
  cases he

/-! ### What does not throw -/

namespace TrieM

variable {α β : Type}

/-- The dereference table does not throw. -/
def NoThrow (x : TrieM α) : Prop := ∀ t e t', x t ≠ .error (.overflow e) t'

theorem NoThrow.bind {x : TrieM α} {f : α → TrieM β} (hx : NoThrow x) (hf : ∀ a, NoThrow (f a)) :
    NoThrow (x >>= f) := by
  intro t e t' h
  cases hr : x t with
  | ok a t₁ =>
    rw [bind_ok hr] at h
    exact hf a t₁ e t' h
  | error e' t₁ =>
    rw [bind_error hr] at h
    cases h
    exact hx t e t' hr

theorem NoThrow.pure (a : α) : NoThrow (pure a : TrieM α) := fun _ _ _ h => by cases h

theorem noThrow_index (c : UInt8) : NoThrow (charIndex c) := by
  intro t e t' h
  unfold charIndex at h
  split_ifs at h <;> cases h

theorem noThrow_load (s : Slot) : NoThrow (load s) := by
  intro t e t' h
  rw [load, bind_ok get_ok] at h
  split_ifs at h <;> cases h

theorem noThrow_store (s : Slot) (n : TrieNode) : NoThrow (store s n) := by
  intro t e t' h
  rw [store, bind_ok get_ok] at h
  split_ifs at h <;> cases h

theorem noThrow_dereference (p : TinyPtr byteLayout) (h : TinyPtrHashes) :
    NoThrow (dereference X p h) := by
  intro t e t' he
  cases hd : DerefTable.dereference X p h with
  | error what =>
    simp only [dereference, hd] at he
    cases he
  | ok r =>
    cases r <;> simp only [dereference, hd] at he <;> cases he

theorem noThrow_addCount (n : ℕ) : NoThrow (addCount n) := fun _ _ _ h => by cases h

theorem noThrow_insertAt (s : Slot) : NoThrow (insertAt s) := by
  unfold insertAt
  refine (noThrow_load s).bind fun n => ?_
  refine (noThrow_store s _).bind fun _ => ?_
  exact (noThrow_addCount _).bind fun _ => .pure _

/-- Only `create_parent_node` throws. -/
theorem createParentNode_of_insert {w : Word} {e : OverflowError}
    (h : insert X H w t = .error (.overflow e) t') :
    createNodes X H w.dropLast t.root H.init t = .error (.overflow e) t' := by
  unfold insert at h
  cases hl : w.getLast? with
  | none =>
    simp only [hl] at h
    rw [bind_ok get_ok] at h
    exact absurd h (noThrow_insertAt _ _ _ _)
  | some c =>
    simp only [hl] at h
    cases hr : createParentNode X H w t with
    | ok r t₁ =>
      rw [bind_ok hr] at h
      refine absurd h (NoThrow.bind (noThrow_index c) (fun i => ?_) _ _ _)
      refine (noThrow_load _).bind fun n => ?_
      split_ifs
      · exact .pure _
      · exact (noThrow_store _ _).bind fun _ => (noThrow_addCount _).bind fun _ => .pure _
      · exact (noThrow_dereference _ _).bind fun s => noThrow_insertAt s
    | error e' t₁ =>
      rw [bind_error hr] at h
      cases h
      rwa [createParentNode, bind_ok get_ok] at hr

end TrieM

/-! ### What is left behind -/

/-- The node of a path: where the loop of `get_parent_node` gets with the whole path, from the
root. -/
def Trie.nodeAt (X : BucketIndexer) (H : Hashing) (t : Trie) (p : Word) : Option Slot :=
  match getNodes X H p t.root H.init t with
  | .ok (some (s, _)) _ => some s
  | _ => none

variable {T : PathTrie UInt8} {M : Word → Option Slot}

theorem Rep.nodeAt_eq {p : Word} (h : Rep X H t T M) (hp : ∀ c ∈ p, c < 128) :
    t.nodeAt X H p = M p := by
  have hpath : H.init = H.path [] := rfl
  rw [Trie.nodeAt, hpath, getNodes_eq hp h h.root, List.nil_append]
  cases M p <;> rfl

/-- A walk that is stopped: the path of `found` has nodes already, those of `linked` are new, and
the one of `refused` is not allocated. -/
structure Stop where
  found : Word
  linked : Word
  refused : UInt8
  left : Word
  /-- The new nodes, in the order of `linked`. -/
  nodes : List Slot

namespace Stop

variable (b : Stop)

/-- The characters that the walk was to go over. -/
def word : Word := b.found ++ (b.linked ++ b.refused :: b.left)

/-- The path that the walk got to. -/
def path : Word := b.found ++ b.linked

theorem path_append_refused : b.path ++ [b.refused] = b.found ++ (b.linked ++ [b.refused]) := by
  simp [path]

end Stop

/-- What a walk from the path `p` that throws leaves behind: a trie with the same words, as many, in
which every node is where it was, and those that the walk has linked besides. -/
structure Cut (X : BucketIndexer) (H : Hashing) (t : Trie) (T : PathTrie UInt8)
    (M : Word → Option Slot) (p : Word) (b : Stop) (t' : Trie) (T' : PathTrie UInt8)
    (M' : Word → Option Slot) : Prop where
  rep : Rep X H t' T' M'
  words : T'.Words = T.Words
  count : t'.count = t.count
  stays : ∀ q s, M q = some s → M' q = some s
  ascii : ∀ c ∈ b.path ++ [b.refused], c < 128
  found : (M (p ++ b.found)).isSome
  missing : M (p ++ b.found ++ (b.linked ++ [b.refused]).take 1) = none
  held : t'.table.held = b.nodes.reverse ++ t.table.held
  length : b.nodes.length = b.linked.length
  linked : ∀ i (hi : i < b.nodes.length),
    M' (p ++ b.found ++ b.linked.take (i + 1)) = some b.nodes[i]
  refused : ∃ s, M' (p ++ b.path) = some s ∧
    t'.Refuses X (H.child (H.path (p ++ b.path)) s b.refused)

/-- The first node of a walk is refused. -/
theorem cut_of_refused {p : Word} {s : Slot} {c : UInt8} {T' : Table TrieNode} (hc : c < 128)
    (hp : M p = some s) (hk : M (p ++ [c]) = none) (hrep : Rep X H { t with table := T' } T M)
    (hheld : T'.held = t.table.held)
    (hfull : Trie.Refuses X { t with table := T' } (H.child (H.path p) s c)) (w : Word) :
    Cut X H t T M p ⟨[], [], c, w, []⟩ { t with table := T' } T M := by
  refine ⟨hrep, rfl, rfl, fun _ _ => id, by simpa [Stop.path] using hc, ?_, ?_, hheld, rfl, ?_, ?_⟩
  · simp [hp]
  · simpa using hk
  · intro i hi
    cases hi
  · exact ⟨s, by simpa [Stop.path] using hp, by simpa [Stop.path] using hfull⟩

/-- A walk that goes on from a node that it has linked, and links all that follow. -/
theorem Cut.of_create {p : Word} {s s' : Slot} {c : UInt8} {n : PathNode UInt8} {hn hnone}
    {t₁ : Trie} {b : Stop} {T' : PathTrie UInt8} {M' : Word → Option Slot} (hc : c < 128)
    (h : Rep X H t T M) (hp : M p = some s) (hk : M (p ++ [c]) = none) (hcount : t₁.count = t.count)
    (hheld : t₁.table.held = s' :: t.table.held)
    (hcut : Cut X H t₁ (T.grow p c n hn hnone) (Function.update M (p ++ [c]) (some s'))
      (p ++ [c]) b t' T' M') :
    b.found = [] ∧ Cut X H t T M p ⟨[], c :: b.linked, b.refused, b.left,
      s' :: b.nodes⟩ t' T' M' := by
  have hfound : b.found = [] := by
    cases hb : b.found with
    | nil => rfl
    | cons d q =>
      have hnode := hcut.found
      rw [hb, Function.update_of_ne (by simp)] at hnode
      have hsome := h.isSome_of_append hnode
      rw [hk] at hsome
      cases hsome
  have hlast : M' (p ++ [c]) = some s' := hcut.stays _ _ (Function.update_self ..)
  have hascii : ∀ d ∈ c :: (b.path ++ [b.refused]), d < 128 :=
    List.forall_mem_cons.mpr ⟨hc, hcut.ascii⟩
  refine ⟨hfound, hcut.rep, hcut.words.trans words_grow, hcut.count.trans hcount, fun q u hq =>
    hcut.stays q u ?_, ?_, ?_, ?_, ?_, ?_, ?_, ?_⟩
  · rw [Function.update_of_ne, hq]
    rintro rfl
    rw [hk] at hq
    cases hq
  · simpa [Stop.path, hfound] using hascii
  · simp [hp]
  · simpa using hk
  · rw [hcut.held, hheld]
    simp
  · simp [hcut.length]
  · intro i hi
    cases i with
    | zero => simpa using hlast
    | succ i =>
      have := hcut.linked i (by simpa using hi)
      simpa [hfound] using this
  · simpa [Stop.path, hfound] using hcut.refused

/-- A walk that goes on from a node that was there. -/
theorem Cut.of_child {p : Word} {c : UInt8} {b : Stop} {T' : PathTrie UInt8}
    {M' : Word → Option Slot} (hc : c < 128) (hcut : Cut X H t T M (p ++ [c]) b t' T' M') :
    Cut X H t T M p { b with found := c :: b.found } t' T' M' := by
  have happ : ∀ q : Word, p ++ [c] ++ q = p ++ c :: q := by simp
  have hascii : ∀ d ∈ c :: (b.path ++ [b.refused]), d < 128 :=
    List.forall_mem_cons.mpr ⟨hc, hcut.ascii⟩
  refine ⟨hcut.rep, hcut.words, hcut.count, hcut.stays, hascii, ?_, ?_, hcut.held,
    hcut.length, ?_, ?_⟩
  · simpa [happ] using hcut.found
  · simpa [happ] using hcut.missing
  · simpa [happ] using hcut.linked
  · simpa [happ, Stop.path] using hcut.refused

/-- A walk that throws is stopped at a node of its path, which is the first one that it had to
allocate exactly when nothing is linked. -/
theorem cut_of_error {p w : Word} {s : Slot} {e : OverflowError} (h : Rep X H t T M)
    (hp : M p = some s) (he : createNodes X H w s (H.path p) t = .error (.overflow e) t') :
    ∃ b T' M', b.word = w ∧ Cut X H t T M p b t' T' M' ∧ (t.Blocked X H w s (H.path p) ↔
      b.nodes = []) := by
  induction w generalizing p s t T M with
  | nil => cases he
  | cons c w ih =>
    obtain ⟨n, hn⟩ := h.exists_node hp
    by_cases hc : c < 128
    swap
    · -- the array is read out of bounds, and nothing is thrown
      rw [createNodes, charIndex_bad hc] at he
      cases he
    unfold Trie.Blocked
    cases hk : M (p ++ [c]) with
    | none =>
      simp only [h.entry_none hp hk, if_true]
      rcases ha : t.table.allocate byteLayout X 0 (H.child (H.path p) s c) 0 with ⟨r, T'⟩
      cases r with
      | error e' =>
        obtain ⟨hrun, hrep⟩ := createNodes_throw (w := w) hc h hp hk ha
        rw [hrun] at he
        cases he
        exact ⟨⟨[], [], c, w, []⟩, T, M, rfl,
          cut_of_refused hc hp hk hrep (Table.held_of_error ha) (Table.full_of_error ha) w,
          iff_of_true (Trie.refuses_of_error ha) rfl⟩
      | ok r =>
        obtain ⟨t₁, hrun, hgrow, hcount, hheld⟩ := createNodes_create (w := w) hc h hp hn hk ha
        rw [hrun] at he
        obtain ⟨b, T'', M'', hw, hcut, -⟩ := ih hgrow (Function.update_self ..) he
        obtain ⟨hfound, hcut⟩ := hcut.of_create hc h hp hk hcount hheld
        refine ⟨_, T'', M'', ?_, hcut, iff_of_false (Trie.not_refuses_of_ok ha) (by simp)⟩
        rw [← hw]
        simp [Stop.word, hfound]
    | some s' =>
      obtain ⟨h₀, h₁, hslot⟩ := h.entry_some hp hk
      rw [createNodes_child hc h hp hk] at he
      simp only [h₀, h₁, or_self, if_false]
      rw [hslot, ← H.path_append]
      obtain ⟨b, T', M', hw, hcut, hblocked⟩ := ih h hk he
      exact ⟨{ b with found := c :: b.found }, T', M', congrArg (c :: ·) hw,
        hcut.of_child hc, hblocked⟩

/-! ### Words with any bytes -/

/-- A word up to its first byte that is out of bounds. -/
theorem exists_ascii (w : Word) :
    ∃ a b, w = a ++ b ∧ (∀ c ∈ a, c < 128) ∧ ∀ c ∈ b.head?, ¬c < 128 := by
  refine ⟨w.takeWhile fun c => decide (c < 128), w.dropWhile fun c => decide (c < 128),
    List.takeWhile_append_dropWhile.symm, fun c hc => ?_, fun c hc => ?_⟩
  · exact of_decide_eq_true (List.all_eq_true.1 (List.all_takeWhile) c hc)
  · have := List.head?_dropWhile_not (fun c => decide (c < 128)) w
    rw [Option.mem_def] at hc
    rw [hc] at this
    simpa using this

/-- `contains` of any word that returns: the answer is no at the first byte that is out of bounds,
if there is one, as its parent has no node. -/
theorem contains_of_ok {v : Word} {b : Bool} (h : Rep X H t T M)
    (hv : contains X H v t = .ok b t') :
    (∀ c ∈ v, c < 128) ∨ b = false ∧ ∃ a r, v.dropLast = a ++ r ∧ (∀ c ∈ a, c < 128) ∧
      M a = none := by
  rcases v.eq_nil_or_concat' with rfl | ⟨p, c, rfl⟩
  · exact .inl (by simp)
  · obtain ⟨a, r, hp, ha, hr⟩ := exists_ascii p
    have hpath : H.init = H.path [] := rfl
    simp only [contains, List.getLast?_append, List.getLast?_singleton, Option.some_or] at hv
    rw [List.dropLast_concat]
    cases hk : M a with
    | none =>
      refine .inr ⟨?_, a, r, hp, ha, hk⟩
      have hnodes : getParentNode X H (p ++ [c]) t = .ok none t := by
        rw [getParentNode, bind_ok get_ok, List.dropLast_concat, hp, hpath,
          getNodes_through ha h h.root, List.nil_append, hk]
      rw [bind_ok hnodes] at hv
      cases hv
      rfl
    | some s =>
      have hnodes : getParentNode X H (p ++ [c]) t = getNodes X H r s (H.path a) t := by
        rw [getParentNode, bind_ok get_ok, List.dropLast_concat, hp, hpath,
          getNodes_through ha h h.root, List.nil_append, hk]
      cases r with
      | nil =>
        have hnodes' : getParentNode X H (p ++ [c]) t = .ok (some (s, H.path a)) t := hnodes
        by_cases hc : c < 128
        · left
          intro d hd
          rcases List.mem_append.1 hd with hd | hd
          · exact ha d (by simpa [hp] using hd)
          · exact List.mem_singleton.1 hd ▸ hc
        · rw [bind_ok hnodes'] at hv
          have hindex : charIndex c t = .error .undefined t := by
            rw [charIndex, if_neg hc]
            rfl
          simp only at hv
          rw [bind_error hindex] at hv
          cases hv
      | cons d r =>
        have hd : ¬d < 128 := hr d rfl
        have hindex : charIndex d t = .error .undefined t := by
          rw [charIndex, if_neg hd]
          rfl
        rw [getNodes, bind_error hindex] at hnodes
        rw [bind_error hnodes] at hv
        cases hv

/-- Below a path without a node there is no word. -/
theorem contains_under_none {v a r : Word} (h : Rep X H t T M) (hv : v.dropLast = a ++ r)
    (ha : ∀ c ∈ a, c < 128) (hk : M a = none) : contains X H v t = .ok false t := by
  rcases v.eq_nil_or_concat' with rfl | ⟨p, c, rfl⟩
  · obtain rfl : a = [] := by simpa using (List.append_eq_nil_iff.1 hv.symm).1
    rw [h.root] at hk
    cases hk
  · have hpath : H.init = H.path [] := rfl
    have hnodes : getParentNode X H (p ++ [c]) t = .ok none t := by
      rw [getParentNode, bind_ok get_ok, hv, hpath, getNodes_through ha h h.root,
        List.nil_append, hk]
    simp only [contains, List.getLast?_append, List.getLast?_singleton, Option.some_or]
    rw [bind_ok hnodes]
    rfl

/-- What is stored is what was, and what can be looked up afterwards could be looked up before. -/
theorem Cut.contains {T' : PathTrie UInt8} {M' : Word → Option Slot} {p : Word} {b : Stop}
    (h : Rep X H t T M) (hcut : Cut X H t T M p b t' T' M') (v : Word) :
    ((∀ c ∈ v, c < 128) → ∃ a, TrieM.contains X H v t = .ok a t ∧
      TrieM.contains X H v t' = .ok a t') ∧ ∀ a, TrieM.contains X H v t' = .ok a t' →
      TrieM.contains X H v t = .ok a t := by
  have key : (∀ c ∈ v, c < 128) → ∃ a, TrieM.contains X H v t = .ok a t ∧
    TrieM.contains X H v t' = .ok a t' := by
    intro hv
    obtain ⟨a, ha, haw⟩ := contains_eq hv h
    obtain ⟨a', ha', haw'⟩ := contains_eq hv hcut.rep
    have haa : a' = a := by rw [Bool.eq_iff_iff, haw, haw', hcut.words]
    exact ⟨a, ha, haa ▸ ha'⟩
  refine ⟨key, fun a ha => ?_⟩
  rcases contains_of_ok hcut.rep ha with hv | ⟨rfl, q, r, hv, hq, hk⟩
  · obtain ⟨a', ha', ha''⟩ := key hv
    rw [ha] at ha''
    cases ha''
    exact ha'
  · refine contains_under_none h hv hq ?_
    by_contra hne
    obtain ⟨s, hs⟩ := Option.ne_none_iff_exists'.1 hne
    rw [hcut.stays q s hs] at hk
    cases hk

/-- The nodes that an insert of `w` leaves behind. -/
structure LeftBehind (X : BucketIndexer) (H : Hashing) (w : Word) (t : Trie) (b : Stop)
    (t' : Trie) : Prop where
  /-- `create_parent_node` goes over all characters but the last. -/
  word : b.word = w.dropLast
  ascii : ∀ c ∈ b.path ++ [b.refused], c < 128
  /-- The first path without a node is the one after `found`. -/
  found : (t.nodeAt X H b.found).isSome
  missing : t.nodeAt X H (b.found ++ (b.linked ++ [b.refused]).take 1) = none
  /-- Every node is where it was, and the paths of `linked` have one each. -/
  stays : ∀ p s, (∀ c ∈ p, c < 128) → t.nodeAt X H p = some s → t'.nodeAt X H p = some s
  linked : ∀ i (hi : i < b.nodes.length),
    t'.nodeAt X H (b.found ++ b.linked.take (i + 1)) = some b.nodes[i]
  length : b.nodes.length = b.linked.length
  /-- The next one has both of its buckets full. -/
  refused : ∃ s, t'.nodeAt X H b.path = some s ∧ t'.Refuses X (H.child (H.path b.path) s b.refused)
  /-- Nothing else is allocated, and nothing freed. -/
  held : t'.table.held = b.nodes.reverse ++ t.table.held
  fresh : ∀ s ∈ b.nodes, s ∉ t.table.held

theorem Cut.leftBehind {T' : PathTrie UInt8} {M' : Word → Option Slot} {w : Word} {b : Stop}
    (h : Rep X H t T M) (hw : b.word = w.dropLast) (hcut : Cut X H t T M [] b t' T' M') :
    LeftBehind X H w t b t' := by
  have hpath : ∀ c ∈ b.path, c < 128 := fun c hc => hcut.ascii c (List.mem_append_left _ hc)
  have hfound : ∀ c ∈ b.found, c < 128 := fun c hc => hpath c (List.mem_append_left _ hc)
  have hlinked : ∀ i, ∀ c ∈ b.found ++ b.linked.take i, c < 128 := fun i c hc =>
    hpath c (List.mem_append.mpr ((List.mem_append.mp hc).imp_right List.mem_of_mem_take))
  have hmissing : ∀ c ∈ b.found ++ (b.linked ++ [b.refused]).take 1, c < 128 := fun c hc => by
    refine hcut.ascii c ?_
    rw [b.path_append_refused]
    exact List.mem_append.mpr ((List.mem_append.mp hc).imp_right List.mem_of_mem_take)
  have hnodup := hcut.rep.wf.held_nodup
  rw [hcut.held, List.nodup_append] at hnodup
  refine ⟨hw, hcut.ascii, ?_, ?_, fun p s hp hs => ?_, fun i hi => ?_, hcut.length, ?_, hcut.held,
    fun s hs hmem => ?_⟩
  · rw [h.nodeAt_eq hfound]
    exact hcut.found
  · rw [h.nodeAt_eq hmissing]
    exact hcut.missing
  · rw [h.nodeAt_eq hp] at hs
    rw [hcut.rep.nodeAt_eq hp]
    exact hcut.stays p s hs
  · rw [hcut.rep.nodeAt_eq (hlinked (i + 1))]
    exact hcut.linked i hi
  · obtain ⟨s, hs, hrefuses⟩ := hcut.refused
    exact ⟨s, (hcut.rep.nodeAt_eq hpath).trans hs, hrefuses⟩
  · exact hnodup.2.2 s (List.mem_reverse.mpr hs) s hmem rfl

/-! ### An insert that throws -/

namespace TrieClass

variable {C : TrieClass} {thrown : Bool} {S : Finset Word} {w : Word} {e : OverflowError}

/-- A call left no trace. -/
structure LeavesNoTrace (C : TrieClass) (X : BucketIndexer) (t t' : Trie) : Prop where
  contains : ∀ v, (Call.contains v).Ascii →
    ∀ b, C.run X (.contains v) t' = .ok b t' ↔ C.run X (.contains v) t = .ok b t
  size : t'.count = t.count
  nodeCount : t'.nodeCount X = t.nodeCount X

/-- What an insert that throws leaves behind. -/
structure KeepsWords (C : TrieClass) (X : BucketIndexer) (w : Word) (t : Trie) (b : Stop)
    (t' : Trie) : Prop where
  /-- `contains` answers what it did, -/
  contains : ∀ v, (Call.contains v).Ascii →
    ∃ a, C.run X (.contains v) t = .ok a t ∧ C.run X (.contains v) t' = .ok a t'
  /-- for every word that it does not read out of bounds for, -/
  contains_of_ok : ∀ v a, C.run X (.contains v) t' = .ok a t' → C.run X (.contains v) t = .ok a t
  /-- and so does `size`. -/
  size : t'.count = t.count
  /-- The nodes before the one that is refused stay, -/
  nodes : LeftBehind X C.hashing w t b t'
  /-- and the counters of the table say so: there are none exactly when the first one was
  refused. -/
  totalSize : t'.table.totalSize = t.table.totalSize + b.nodes.length
  nodes_eq_nil_iff : b.nodes = [] ↔ t.Blocked X C.hashing w.dropLast t.root C.hashing.init
  /-- `node_count` counts them, if its assertion does not fail. -/
  nodeCount : ∀ n n', t.nodeCount X = some n → t'.nodeCount X = some n' → n' = n + b.nodes.length

/-- An insert that throws, of any class whose `remove` meets its specification. -/
theorem keepsWords {prunes : Prop} (hC : C.RemoveCorrect prunes) (h : C.Reach X thrown t S)
    (hr : C.run X (.insert w) t = .error (.overflow e) t') : ∃ b, C.KeepsWords X w t b t' := by
  obtain ⟨-, T, M, hrep, -⟩ := h.inv hC
  obtain ⟨b, T', M', hw, hcut, hblocked⟩ :=
    cut_of_error hrep hrep.root (createParentNode_of_insert hr)
  have hlength : t'.table.held.length = t.table.held.length + b.nodes.length := by
    rw [hcut.held, List.length_append, List.length_reverse]
    omega
  refine ⟨b, fun v hv => (hcut.contains hrep v).1 hv, fun v a ha =>
    (hcut.contains hrep v).2 a ha, hcut.count, hcut.leftBehind hrep hw, ?_, hblocked.symm,
    fun n n' hn hn' => ?_⟩
  · rw [hrep.wf.balanced, hcut.rep.wf.balanced, hlength]
    exact Nat.cast_add _ _
  · rw [TinyTrie2.nodeCount_eq_length hrep.wf hn, TinyTrie2.nodeCount_eq_length hcut.rep.wf hn']
    exact hlength

end TrieClass

/-! ### A word that is too long -/

/-- In a full table of one bucket all entries are allocated. -/
theorem length_held_of_full (h : t.table.Wf byteLayout oneBucket) (hfull : Full oneBucket t) :
    byteLayout.entriesPerBinCount ≤ t.table.held.length := by
  obtain ⟨_, h0, -⟩ := hfull
  have hlists := h.lists 0 Nat.one_pos
  have hcount : (t.table.bucket 0).freeSlotCount = 0 := h0
  have hempty : Table.freeIn byteLayout t.table.held 0 = ∅ := by
    rw [← hlists.count_eq] at hcount
    refine (Set.ncard_eq_zero ?_).1 hcount
    exact (Set.finite_Iio byteLayout.entriesPerBinCount).subset fun i hi => hi.1
  have hsub : (Finset.range byteLayout.entriesPerBinCount).image (Slot.mk 0) ⊆
    t.table.held.toFinset := by
    intro s hs
    obtain ⟨i, hi, rfl⟩ := Finset.mem_image.1 hs
    rw [List.mem_toFinset]
    by_contra hnot
    have hmem : i ∈ Table.freeIn byteLayout t.table.held 0 := ⟨Finset.mem_range.1 hi, hnot⟩
    rw [hempty] at hmem
    exact hmem
  have hinj : Function.Injective (Slot.mk 0) := fun i j hij => (Slot.mk.inj hij).2
  calc byteLayout.entriesPerBinCount
      = ((Finset.range byteLayout.entriesPerBinCount).image (Slot.mk 0)).card := by
        rw [Finset.card_image_of_injective _ hinj, Finset.card_range]
    _ ≤ t.table.held.toFinset.card := Finset.card_le_card hsub
    _ = t.table.held.length := List.toFinset_card_of_nodup h.held_nodup

/-- The long word, inserted into an empty trie. -/
theorem TrieClass.exists_overflow {C : TrieClass} {prunes : Prop} (hC : C.RemoveCorrect prunes) :
    ∃ t e t', C.Reach oneBucket false t ∅ ∧ C.run oneBucket (.insert longWord) t = .error
      (.overflow e) t' ∧ t.nodeCount oneBucket = some 1 ∧
      t'.nodeCount oneBucket = some byteLayout.entriesPerBinCount := by
  obtain ⟨T₀, -, h₀, -⟩ := TrieClass.exists_create (X := oneBucket) fun _ _ => TrieNode.new
  obtain ⟨hwf, hheld⟩ := DerefTable.construct_eq_some h₀
  obtain ⟨p, s, T₁, ha, hcreate⟩ := TrieClass.create_ok hwf hheld
  have hreach : C.Reach oneBucket false _ ∅ := .create h₀ hcreate
  obtain ⟨-, T, M, hrep, -⟩ := hreach.inv hC
  have hcap : oneBucket.buckets * byteLayout.entriesPerBinCount < 2 ^ 32 := by decide
  have hone : (T₁.write s TrieNode.new).held.length = 1 := by
    have h1 := (hwf.allocated (by decide) ha).held
    rw [hheld] at h1
    exact congrArg List.length h1
  obtain ⟨e, t', hr, hfull, hthrown⟩ := hreach.overflow_of_long hC longWord_ascii lt_length_longWord
  obtain ⟨-, T', M', hrep', -⟩ := hthrown.inv hC
  have hmany := length_held_of_full hrep'.wf hfull
  have hle := hrep'.wf.length_held_le
  rw [show oneBucket.buckets = 1 from rfl, Nat.one_mul] at hle
  refine ⟨_, e, t', hreach, hr, ?_, ?_⟩
  · rw [TinyTrie2.nodeCount_of_lt hrep.wf hcap]
    exact congrArg some hone
  · rw [TinyTrie2.nodeCount_of_lt hrep'.wf hcap]
    exact congrArg some (hle.antisymm hmany)

/-- An insert that throws into a `TinyTrie` or a `TinyTrie2` keeps the words, and leaves exactly the
nodes behind that it has linked before one was refused. -/
theorem insert_overflow {C : TrieClass} {thrown : Bool} {S : Finset Word} {w : Word}
    {e : OverflowError} (hC : C = tinyTrie ∨ ∃ addr, C = tinyTrie2 addr) (h : C.Reach X thrown t S)
    (hr : C.run X (.insert w) t = .error (.overflow e) t') : ∃ b, C.KeepsWords X w t b t' := by
  obtain rfl | ⟨addr, rfl⟩ := hC
  · exact TrieClass.keepsWords TinyTrie.removeCorrect h hr
  · exact TrieClass.keepsWords (TinyTrie2.removeCorrect addr) h hr

theorem insert_overflow_long :
    ∃ t e t' b, tinyTrie.Reach oneBucket false t ∅ ∧
      tinyTrie.run oneBucket (.insert longWord) t = .error (.overflow e) t' ∧
      t.nodeCount oneBucket = some 1 ∧ t'.nodeCount oneBucket = some 127 ∧
      tinyTrie.KeepsWords oneBucket longWord t b t' := by
  obtain ⟨t, e, t', h, hr, hcount, hcount'⟩ := TrieClass.exists_overflow TinyTrie.removeCorrect
  obtain ⟨b, hb⟩ := insert_overflow (.inl rfl) h hr
  exact ⟨t, e, t', b, h, hr, hcount, hcount', hb⟩

/-- A word that is too long for the table leaves nodes behind. -/
theorem not_leavesNoTrace :
    ¬∀ (C : TrieClass) (X : BucketIndexer) (thrown : Bool) (t t' : Trie) (S : Finset Word)
      (w : Word) (e : OverflowError), (C = tinyTrie ∨ ∃ addr, C = tinyTrie2 addr) →
      C.Reach X thrown t S → C.run X (.insert w) t = .error (.overflow e) t' →
      C.LeavesNoTrace X t t' := by
  intro h
  obtain ⟨t, e, t', hreach, hr, hcount, hcount'⟩ := TrieClass.exists_overflow TinyTrie.removeCorrect
  have hsame := (h tinyTrie oneBucket false t t' ∅ longWord e (.inl rfl) hreach hr).nodeCount
  rw [hcount, hcount'] at hsame
  exact absurd hsame (by decide)

end TinyPointerTrees
