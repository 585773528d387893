import TinyPointerTrees.Trie.Operations

/-!
# Runs of a trie

A run constructs a table and a trie on it, and then calls `insert`, `remove` and
`contains` with words over the bytes `0` to `127`. `Reach` pairs the state of the
trie with the abstract set of words: an insert that throws leaves the set alone.

`Reach.isSet` — after every run of a class whose `remove` meets its
specification, every call answers what the abstract set says, and `size` is its
cardinality.
-/

namespace TinyPointerTrees

open PathTrie TrieM

/-- A class of tries: how the hash values of a child are derived, and `remove`. -/
structure TrieClass where
  hashing : Hashing
  /-- `remove`. -/
  remove : BucketIndexer → Word → TrieM Bool

/-- A call of a member function. -/
inductive Call where
  | insert (w : Word)
  | remove (w : Word)
  | contains (w : Word)

namespace Call

/-- The word. -/
def word : Call → Word
  | insert w => w
  | remove w => w
  | contains w => w

/-- The word has no byte above `127`. -/
def Ascii (k : Call) : Prop := ∀ c ∈ k.word, c < 128

/-- What a set of words answers. -/
def answer (S : Finset Word) : Call → Bool
  | insert w => decide (w ∉ S)
  | remove w => decide (w ∈ S)
  | contains w => decide (w ∈ S)

/-- The set of words after the call. -/
def effect (S : Finset Word) : Call → Finset Word
  | insert w => Insert.insert w S
  | remove w => S.erase w
  | contains _ => S

end Call

namespace TrieClass

variable (C : TrieClass) (X : BucketIndexer)

/-- The member function that is called. -/
def run : Call → TrieM Bool
  | .insert w => TrieM.insert X C.hashing w
  | .remove w => C.remove X w
  | .contains w => TrieM.contains X C.hashing w

/-- The states that runs reach, with the abstract set, and whether an insert has thrown. -/
inductive Reach : Bool → Trie → Finset Word → Prop
  | create {storage : ℕ → ℕ → TrieNode} {T₀ : Table TrieNode} {t : Trie}
      (h₀ : DerefTable.construct byteLayout X storage = some T₀) (h : Trie.create X T₀ = .ok () t) :
      Reach false t ∅
  | call {thrown : Bool} {t t' : Trie} {S : Finset Word} {k : Call} {r : Bool}
      (h : Reach thrown t S) (hk : k.Ascii) (hr : C.run X k t = .ok r t') :
      Reach thrown t' (k.effect S)
  | overflow {thrown : Bool} {t t' : Trie} {S : Finset Word} {w : Word} {e : OverflowError}
      (h : Reach thrown t S) (hk : (Call.insert w).Ascii)
      (hr : C.run X (.insert w) t = .error (.overflow e) t') : Reach true t' S

/-- The trie is the set `S`: `size` is its cardinality, and every call answers what `S` does,
unless an insert throws because the table is full. -/
def IsSet (t : Trie) (S : Finset Word) : Prop :=
  t.count = S.card ∧ ∀ k : Call, k.Ascii →
    (∃ t', C.run X k t = .ok (k.answer S) t') ∨
      ∃ w e t', k = .insert w ∧ C.run X k t = .error (.overflow e) t' ∧ Full X t'

/-- `remove` does what it should in every state that represents a trie. -/
def RemoveCorrect (prunes : Prop) : Prop :=
  ∀ (X : BucketIndexer) (t : Trie) (T : PathTrie UInt8) (M : Word → Option Slot) (w : Word),
    (∀ c ∈ w, c < 128) → Rep X C.hashing t T M →
      ∃ b t', C.remove X w t = .ok b t' ∧ Removed X C.hashing prunes t T w b t'

variable {C X} {t t' : Trie} {S : Finset Word} {thrown : Bool} {prunes tight : Prop}

/-- The trie represents the set of words, and is `tight` if that is claimed. -/
def Inv (C : TrieClass) (X : BucketIndexer) (tight : Prop) (t : Trie) (S : Finset Word) : Prop :=
  t.count = S.card ∧ ∃ T M, Rep X C.hashing t T M ∧ T.Words = ↑S ∧ (tight → T.Tight)

/-- A trie is created on every table. -/
theorem create_ok {T₀ : Table TrieNode} (hwf : T₀.Wf byteLayout X) (hheld : T₀.held = []) :
    ∃ p s T', T₀.allocate byteLayout X 0 (0, 0) 0 = (.ok (p, s), T') ∧
      Trie.create X T₀ = .ok () ⟨T'.write s .new, s, 0⟩ := by
  obtain ⟨⟨p, s⟩, T', ha⟩ : ∃ r T', T₀.allocate byteLayout X 0 (0, 0) 0 = (.ok r, T') :=
    hwf.allocate_ok hheld
  have hs : s ∈ T'.held := (hwf.allocated (by decide) ha).held ▸ List.mem_cons_self
  refine ⟨p, s, T', ha, ?_⟩
  rw [Trie.create, bind_ok (allocate_ok ha)]
  exact bind_ok (x := modify _) rfl |>.trans (store_ok hs _)

theorem exists_create (storage : ℕ → ℕ → TrieNode) : ∃ T₀ t,
    DerefTable.construct byteLayout X storage = some T₀ ∧ Trie.create X T₀ = .ok () t := by
  cases h₀ : DerefTable.construct byteLayout X storage with
  | none => exact absurd (DerefTable.construct_eq_none.mp h₀) (by decide)
  | some T₀ =>
    obtain ⟨hwf, hheld⟩ := DerefTable.construct_eq_some h₀
    obtain ⟨p, s, T', -, hcreate⟩ := create_ok hwf hheld
    exact ⟨T₀, _, rfl, hcreate⟩

theorem inv_create {storage : ℕ → ℕ → TrieNode} {T₀ : Table TrieNode}
    (h₀ : DerefTable.construct byteLayout X storage = some T₀) (h : Trie.create X T₀ = .ok () t) :
    C.Inv X tight t ∅ := by
  obtain ⟨hwf, hheld⟩ := DerefTable.construct_eq_some h₀
  obtain ⟨p, s, T', ha, hcreate⟩ := create_ok hwf hheld
  have hall := hwf.allocated (by decide) ha
  have hs : s ∈ T'.held := hall.held ▸ List.mem_cons_self
  rw [hcreate] at h
  cases h
  refine ⟨rfl, .empty, fun p => if p = [] then some s else none, ?_, by simp [words_empty],
    fun _ => tight_empty⟩
  have hwf' := hwf.of_allocate ha
  refine ⟨hwf'.write hs _, by simp, fun p => ?_, fun p q u hp hq => ?_,
    fun p u hp => ?_, fun u hu => ?_, fun p u n hp hn => ?_⟩
  · by_cases hp : p = []
    · subst hp
      simp [node_empty_nil]
    · simp [hp, node_empty_ne hp]
  · simp only [Option.ite_none_right_eq_some] at hp hq
    rw [hp.1, hq.1]
  · simp only [Option.ite_none_right_eq_some, Option.some.injEq] at hp
    exact hp.2 ▸ hs
  · have hu' : u ∈ s :: T₀.held := hall.held ▸ hu
    rw [hheld, List.mem_singleton] at hu'
    exact ⟨[], by simp [hu']⟩
  · simp only [Option.ite_none_right_eq_some, Option.some.injEq] at hp
    obtain ⟨rfl, rfl⟩ := hp
    rw [node_empty_nil, Option.some.injEq] at hn
    subst hn
    simp only [Table.read_write_self]
    exact ⟨by simp [TrieNode.new, TrieNode.terminal], by simp [TrieNode.new,
      TinyPtr.null_ne_tagged], by simp [TrieNode.new], by simp⟩

/-- What a call does to a trie that represents a set. -/
theorem Inv.run (hC : C.RemoveCorrect prunes) (h : C.Inv X tight t S) (hprunes : tight → prunes)
    {k : Call} (hk : k.Ascii) :
    (∃ t', C.run X k t = .ok (k.answer S) t' ∧ C.Inv X tight t' (k.effect S)) ∨
      ∃ w e t', k = .insert w ∧ C.run X k t = .error (.overflow e) t' ∧ Full X t' ∧
      C.Inv X False t' S := by
  obtain ⟨hcard, T, M, hrep, hwords, htight⟩ := h
  have hmem : ∀ w, w ∈ T.Words ↔ w ∈ S := fun w => by rw [hwords, Finset.mem_coe]
  cases k with
  | insert w =>
    have hsat := insert_sat (w := w) hk hrep
    cases hr : TrieM.insert X C.hashing w t with
    | ok b t' =>
      rw [hr] at hsat
      obtain ⟨hb, hcount, T', M', hrep', hwords', htight'⟩ := hsat
      have hbS : b = decide (w ∉ S) := by
        rw [Bool.eq_iff_iff, hb, hmem, decide_eq_true_iff]
      refine Or.inl ⟨t', by rw [TrieClass.run, hr, hbS]; rfl, ?_, T', M', hrep', ?_, fun ht =>
        htight' (htight ht)⟩
      · rw [hcount, hcard, hbS]
        by_cases hw : w ∈ S <;> simp [Call.effect, hw]
      · rw [hwords', hwords, Call.effect, Finset.coe_insert]
    | error e t' =>
      rw [hr] at hsat
      cases e with
      | overflow e =>
        obtain ⟨hfull, hcount, T', M', hrep', hwords'⟩ := hsat
        exact Or.inr ⟨w, e, t', rfl, hr, hfull, hcount.trans hcard, T', M', hrep',
          hwords'.trans hwords, by simp⟩
      | runtimeError what => exact hsat.elim
      | undefined => exact hsat.elim
  | remove w =>
    obtain ⟨b, t', hr, hb, hcount, T', M', hrep', hwords', htight'⟩ := hC X t T M w hk hrep
    have hbS : b = decide (w ∈ S) := by
      rw [Bool.eq_iff_iff, hb, hmem, decide_eq_true_iff]
    refine Or.inl ⟨t', by rw [TrieClass.run, hr, hbS]; rfl, ?_, T', M', hrep', ?_, fun ht =>
      htight' (hprunes ht) (htight ht)⟩
    · rw [hcount, hcard, hbS]
      by_cases hw : w ∈ S <;> simp [Call.effect, hw, Finset.card_erase_of_mem]
    · rw [hwords', hwords, Call.effect, Finset.coe_erase]
  | contains w =>
    obtain ⟨b, hr, hb⟩ := contains_eq (w := w) hk hrep
    have hbS : b = decide (w ∈ S) := by
      rw [Bool.eq_iff_iff, hb, hmem, decide_eq_true_iff]
    exact Or.inl ⟨t, by rw [TrieClass.run, hr, hbS]; rfl, hcard, T, M, hrep, hwords, htight⟩

theorem Reach.inv (hC : C.RemoveCorrect prunes) (h : C.Reach X thrown t S) :
    C.Inv X (prunes ∧ thrown = false) t S := by
  induction h with
  | create h₀ h => exact inv_create h₀ h
  | call _ hk hr ih =>
    rcases ih.run hC And.left hk with ⟨t', hr', hinv⟩ | ⟨w, e, t', rfl, hr', -⟩
    · rw [hr] at hr'
      cases hr'
      exact hinv
    · rw [hr] at hr'
      cases hr'
  | overflow _ hk hr ih =>
    rcases ih.run hC And.left hk with ⟨t', hr', hinv⟩ | ⟨w, e, t', hw, hr', -, hcard, T, M,
      hrep, hwords, -⟩
    · rw [hr] at hr'
      cases hr'
    · rw [hr] at hr'
      cases hr'
      exact ⟨hcard, T, M, hrep, hwords, by simp⟩

theorem Reach.isSet (hC : C.RemoveCorrect prunes) (h : C.Reach X thrown t S) : C.IsSet X t S := by
  have hinv := h.inv hC
  refine ⟨hinv.1, fun k hk => ?_⟩
  rcases hinv.run hC And.left hk with ⟨t', hr, -⟩ | ⟨w, e, t', hw, hr, hfull, -⟩
  · exact Or.inl ⟨t', hr⟩
  · exact Or.inr ⟨w, e, t', hw, hr, hfull⟩

/-- A word that has more characters than the table has entries cannot be inserted. -/
theorem Reach.overflow_of_long {w : Word} (hC : C.RemoveCorrect prunes) (h : C.Reach X thrown t S)
    (hw : ∀ c ∈ w, c < 128) (hlong : X.buckets * byteLayout.entriesPerBinCount < w.length) :
    ∃ e t', C.run X (.insert w) t = .error (.overflow e) t' ∧ Full X t' ∧ C.Reach X true t' S := by
  rcases (h.isSet hC).2 (.insert w) hw with ⟨t', hr⟩ | ⟨w', e, t', hw', hr, hfull⟩
  · -- the node of all characters but the last would make one too many
    obtain ⟨-, T, M, hrep, hwords, -⟩ := (h.call (k := .insert w) hw hr).inv hC
    have hmem : w ∈ T.Words := by
      rw [hwords]
      simp [Call.effect]
    rcases w.eq_nil_or_concat' with rfl | ⟨p, c, rfl⟩
    · cases hlong
    · have hp : p ++ [c] ++ [] ∈ T.Words := by rwa [List.append_nil]
      obtain ⟨s, hs⟩ := hrep.exists_slot (Option.eq_some_of_isSome (isSome_of_word hp))
      have hlt := hrep.length_lt hs
      have hle := hrep.wf.length_held_le
      rw [List.length_append, List.length_singleton] at hlong
      omega
  · cases hw'
    exact ⟨e, t', hr, hfull, h.overflow hw hr⟩

end TrieClass

/-! ### Runs that are executed -/

/-- A table with one bucket. -/
def oneBucket : BucketIndexer :=
  ⟨1, fun _ => 0, Nat.one_lt_two_pow (Nat.succ_ne_zero 31), fun _ => Nat.one_pos⟩

/-- A new trie on a table with one bucket. -/
def Trie.created : Option Trie :=
  match DerefTable.construct byteLayout oneBucket fun _ _ => TrieNode.new with
  | none => none
  | some T₀ =>
    match Trie.create oneBucket T₀ with
    | .ok () t => some t
    | .error _ _ => none

/-- A word with more characters than a bucket has entries. -/
def longWord : Word := List.replicate 128 97

theorem longWord_ascii : ∀ c ∈ longWord, c < 128 := by
  intro c hc
  rw [List.eq_of_mem_replicate hc]
  decide

theorem lt_length_longWord :
    oneBucket.buckets * byteLayout.entriesPerBinCount < longWord.length := by
  rw [longWord, List.length_replicate]
  decide

/-- Insertions one after the other, the last one of the list first. -/
def TrieClass.insertEach (C : TrieClass) : List Word → Trie → Option Trie
  | [], t => some t
  | w :: l, t =>
    match C.insertEach l t with
    | none => none
    | some t =>
      match C.run oneBucket (.insert w) t with
      | .ok _ t => some t
      | .error _ _ => none

namespace TrieClass

variable {C : TrieClass} {t t' : Trie}

theorem Reach.of_created (h : Trie.created = some t) : C.Reach oneBucket false t ∅ := by
  unfold Trie.created at h
  split at h
  next => cases h
  next h₀ =>
    split at h
    next hcreate =>
      cases h
      exact .create h₀ hcreate
    next => cases h

theorem Reach.of_insertEach {l : List Word} (h : C.Reach oneBucket false t ∅)
    (hl : ∀ w ∈ l, ∀ c ∈ w, c < 128) (hr : C.insertEach l t = some t') :
    C.Reach oneBucket false t' l.toFinset := by
  induction l generalizing t' with
  | nil =>
    cases hr
    exact h
  | cons w l ih =>
    simp only [insertEach] at hr
    split at hr
    next => cases hr
    next t₁ h₁ =>
      split at hr
      next hrun =>
        cases hr
        rw [List.toFinset_cons]
        exact (ih (fun v hv => hl v (List.mem_cons_of_mem _ hv)) h₁).call (k := .insert w)
          (hl w List.mem_cons_self) hrun
      next => cases hr

/-- A longer and a shorter word are inserted, and the longer one is removed: how many entries are
held before, the answer of `remove`, and how many entries are held after. -/
def removed (C : TrieClass) : Option (ℕ × Bool × ℕ) :=
  (Trie.created.bind (C.insertEach [[97, 98], [97, 98, 99]])).bind fun t =>
    match C.run oneBucket (.remove [97, 98, 99]) t with
    | .ok b t' => some (t.table.held.length, b, t'.table.held.length)
    | .error _ _ => none

/-- What `removed` has executed, as a run; then the insertion of a word that is too long throws. -/
theorem exists_removed {prunes : Prop} {m n : ℕ} {b : Bool} (hC : C.RemoveCorrect prunes)
    (h : C.removed = some (m, b, n)) :
    ∃ t t', C.Reach oneBucket false t {[97, 98], [97, 98, 99]} ∧
      C.run oneBucket (.remove [97, 98, 99]) t = .ok b t' ∧ t.table.held.length = m ∧
      t'.table.held.length = n ∧ C.Reach oneBucket false t' {[97, 98]} ∧
      ∃ e t'', C.run oneBucket (.insert longWord) t' = .error (.overflow e) t'' ∧
      C.Reach oneBucket true t'' {[97, 98]} := by
  obtain ⟨t, ht, hremove⟩ := Option.bind_eq_some_iff.mp h
  obtain ⟨t₀, ht₀, hinsert⟩ := Option.bind_eq_some_iff.mp ht
  have hreach := Reach.of_insertEach (.of_created ht₀) (by simp) hinsert
  split at hremove
  next t' hrun =>
    cases hremove
    have hascii : (Call.remove [97, 98, 99]).Ascii :=
      show ∀ c ∈ ([97, 98, 99] : Word), c < 128 by simp
    have hreach' : C.Reach oneBucket false t' {[97, 98]} := hreach.call hascii hrun
    obtain ⟨e, t'', hover, -, hthrown⟩ :=
      hreach'.overflow_of_long hC longWord_ascii lt_length_longWord
    exact ⟨t, t', hreach, hrun, rfl, rfl, hreach', e, t'', hover, hthrown⟩
  next => cases hremove

end TrieClass

end TinyPointerTrees
