import TinyPointerTrees.TinyPtr.FreeList

/-!
# Overflow and the choice between two buckets

What a call of `allocate` does in every state that a single thread reaches by
`allocate`, `free` and writes to its objects. The choice is made from the counts
that were read before the lock is taken, and the count is read once more under
the lock; alone, both reads agree, so a call throws when the fuller of the two
buckets has no free entry and not otherwise. When both hash values have the same
bucket, the two optimistic locks hold the same word, and the one that is only
validated is validated before the other is upgraded.

* `twoChoice_iff` — the calls of `allocate` in every reachable state do so, unless
  they stop at an assertion; and when they do.
-/

namespace TinyPointerTrees

open Conc Conc.Prog

variable {L : Layout} {ω : Type} [Storage L ω] {X : BucketIndexer}

namespace Table

variable {T T' : Table ω} {t : ℕ} {h : TinyPtrHashes} {special : ℕ} {p : TinyPtr L} {s : Slot}

/-- The table as it was, though a lock was taken and released. -/
structure Untouched (X : BucketIndexer) (T T' : Table ω) : Prop where
  /-- Counts, free lists and objects of every bucket. -/
  bucket : ∀ b, T'.bucket b = { T.bucket b with version := (T'.bucket b).version }
  held : T'.held = T.held
  /-- `thread_counters`. -/
  threadCounters : T'.threadCounters = T.threadCounters
  /-- Who holds a lock: no one does. -/
  quiet : T'.Quiet

theorem Quiet.untouched (hT : T.Quiet) (b : ℕ) : T.Untouched X (T.modify b Bucket.touch) := by
  refine ⟨fun c => ?_, rfl, rfl, hT.modify ?_⟩
  · by_cases hc : c = b
    · subst hc
      rw [modify_bucket_self]
      rfl
    · rw [modify_bucket_ne T hc]
  · have := hT b
    simp only [Bucket.touch]
    omega

/-- An allocation that takes an entry. -/
structure Placed (X : BucketIndexer) (T T' : Table ω) (h : TinyPtrHashes) (special : ℕ)
    (p : TinyPtr L) (s : Slot) : Prop where
  /-- The bucket with strictly more free entries, the first one on a tie. -/
  bucket : s.bucket = if T.freeCount₁ X h < T.freeCount₂ X h then X.index h.2 else X.index h.1
  /-- The hash bit says which one that is. -/
  hashFn : p.readHashFn = some (decide (T.freeCount₁ X h < T.freeCount₂ X h))
  special : p.readSpecial = some special
  dereference : DerefTable.dereference X p h = .ok (some s)
  /-- The entry was free, and now is not. -/
  fresh : s ∉ T.held
  held : T'.held = s :: T.held
  /-- No other bucket is changed. -/
  frame : ∀ b, b ≠ s.bucket → T'.bucket b = T.bucket b

theorem Wf.placed (hL : TinyPtr.Bounded L) (hT : T.Wf L X) (hs : special < 2 ^ L.S)
    (ha : T.allocate L X t h special = (.ok (p, s), T')) : Placed X T T' h special p s := by
  have hall := hT.allocated hs ha
  unfold Table.allocate Table.take at ha
  split_ifs at ha with h0
  · simp at ha
  obtain ⟨hlt, -⟩ := hT.headSlot chosen_lt h0
  simp only [Prod.mk.injEq, Except.ok.injEq] at ha
  obtain ⟨⟨rfl, rfl⟩, rfl⟩ := ha
  have hbit : T.hashBit X h = decide (T.freeCount₁ X h < T.freeCount₂ X h) := by
    rw [Bool.eq_iff_iff, hashBit_iff, decide_eq_true_iff]
  have hordinary : TinyPtr.Ordinary (.ofFields (T.headSlot (T.chosen X h)).index special
    (T.hashBit X h) : TinyPtr L) :=
    ⟨hall.ne_null, hall.ne_tagged⟩
  refine ⟨?_, ?_, ?_, hall.dereference, hall.fresh, hall.held, fun b hb => ?_⟩
  · change T.chosen X h = _
    simp only [chosen, hbit, decide_eq_true_eq]
  · rw [TinyPtr.readHashFn_eq hordinary, TinyPtr.hashFn_ofFields, hbit]
  · rw [TinyPtr.readSpecial_eq hL hordinary, hall.special]
  · exact modify_bucket_ne T hb _

end Table

namespace Client

/-- What a call of `allocate` does. -/
structure TwoChoice (X : BucketIndexer) (c : Client L ω) (h : TinyPtrHashes) (special : ℕ) :
    Prop where
  /-- It returns or throws. -/
  ends : ∃ r T', Runs (dtHandler L 0) (DerefTable.allocate L ω X h special) c.table r T'
  /-- It throws exactly when both buckets have no free entry. -/
  throws_iff : ∀ r T', Runs (dtHandler L 0) (DerefTable.allocate L ω X h special) c.table r T' →
    ((∃ e, r = .error e) ↔ c.table.freeCount₁ X h = 0 ∧ c.table.freeCount₂ X h = 0)
  /-- When it throws, nothing has changed; it reports the live objects. -/
  overflow : ∀ e T',
    Runs (dtHandler L 0) (DerefTable.allocate L ω X h special) c.table (.error e) T' →
    c.table.Untouched X T' ∧ e = ⟨c.live.length, DerefTable.capacity L X⟩
  /-- Otherwise it takes an entry of the emptier bucket. -/
  placed : ∀ p s T',
    Runs (dtHandler L 0) (DerefTable.allocate L ω X h special) c.table (.ok (p, s)) T' →
    c.table.Placed X T' h special p s

variable {c : Client L ω}

/-- What a call does that stops at no assertion. -/
theorem Inv.chooses (hc : Inv X c) {special : ℕ} (hs : special < 2 ^ L.S) {h : TinyPtrHashes}
    (hp : c.table.Passes L X (c.table.chosen X h)) : TwoChoice X c h special := by
  have hruns : ∀ r T', Runs (dtHandler L 0) (DerefTable.allocate L ω X h special) c.table r T' →
      c.table.allocate L X 0 h special = (r, T') :=
      fun r T' hr => ((hc.wf.runs_allocate hs).mp hr).2
  refine ⟨⟨_, _, (hc.wf.runs_allocate hs).mpr ⟨hp, rfl⟩⟩, fun r T' hr => ?_, fun e T' hr => ?_,
    fun p s T' hr => ?_⟩
  · have hiff : (∃ e, (c.table.allocate L X 0 h special).1 = .error e) ↔ _ :=
      Table.allocate_eq_error_iff
    rwa [hruns r T' hr] at hiff
  · have ha := hruns _ _ hr
    unfold Table.allocate Table.take at ha
    split_ifs at ha with h0
    · simp only [Prod.mk.injEq, Except.error.injEq] at ha
      obtain ⟨rfl, rfl⟩ := ha
      unfold Table.Passes at hp
      rw [if_pos h0] at hp
      have hsize := (hc.wf.size_eq_some_iff (n := c.table.narrowSize)).mp
        (Option.ite_none_right_eq_some.mpr ⟨by simpa [Table.size] using hp, rfl⟩)
      exact ⟨hc.wf.quiet.untouched _, by rw [hsize.1, hc.length_held]⟩
    · simp at ha
  · refine hc.wf.placed ?_ hs (hruns _ _ hr)
    have hiff : (∃ e, (c.table.allocate L X 0 h special).1 = .error e) ↔ _ :=
      Table.allocate_eq_error_iff
    have h0 : ¬(c.table.freeCount₁ X h = 0 ∧ c.table.freeCount₂ X h = 0) := by
      rw [← hiff, hruns _ _ hr]
      simp
    have hp' := hc.passes_iff.mp hp
    rwa [if_neg h0] at hp'

end Client

/-- In every state that a run of a single thread reaches, for all hash values, also such of the same
bucket: `allocate` throws exactly when both buckets are full, and then leaves the table as it was;
otherwise it takes an entry of the bucket that has more free entries. It stops at an assertion, and
does none of this, exactly when both are full and more is live than `capacity()` says, or one is not
and the tiny pointers of the layout cannot be constructed. -/
theorem twoChoice_iff {storage : ℕ → ℕ → ω} {T₀ : Table ω}
    (h₀ : DerefTable.construct L X storage = some T₀) {c : Client L ω}
    (hc : Client.Reachable X T₀ c) (h : TinyPtrHashes) {special : ℕ} (hs : special < 2 ^ L.S) :
    Client.TwoChoice X c h special ↔
      if c.table.freeCount₁ X h = 0 ∧ c.table.freeCount₂ X h = 0 then
        c.live.length ≤ DerefTable.capacity L X
      else L.w < 32 ∨ L.w = 32 ∧ 0 < L.S := by
  obtain ⟨hwf, hheld⟩ := DerefTable.construct_eq_some h₀
  have hinv := hc.inv hwf hheld
  rw [← TinyPtr.bounded_iff, ← hinv.passes_iff]
  constructor
  · intro htwo
    obtain ⟨r, T', hr⟩ := htwo.ends
    exact ((hinv.wf.runs_allocate hs).mp hr).1
  · exact hinv.chooses hs

/-- `DerefTable<TObject, uint32_t>` with one bucket of four-byte objects: the first call does not
return, since the assertion of the constructor of the tiny pointer leaves `int`. -/
theorem not_twoChoice :
    ¬ ∀ (L : Layout) (τ : ObjectType L) (X : BucketIndexer) (storage : ℕ → ℕ → τ.Bytes)
      (T₀ : Table τ.Bytes), DerefTable.construct L X storage = some T₀ →
      ∀ c : Client L τ.Bytes, Client.Reachable X T₀ c →
        ∀ h special, special < 2 ^ L.S → Client.TwoChoice X c h special := by
  intro htwo
  let L : Layout := ⟨32, 0, by decide, by decide⟩
  let τ : ObjectType L := ⟨4, by decide⟩
  let X : BucketIndexer := ⟨1, fun _ => 0, by decide, fun _ => by decide⟩
  let zeros : τ.Bytes := fun _ => 0
  have hspecial : 0 < 2 ^ L.S := Nat.one_pos
  obtain ⟨T₀, h₀⟩ : ∃ T₀, DerefTable.construct L X (fun _ _ => zeros) = some T₀ := by
    rw [← Option.ne_none_iff_exists', Ne, DerefTable.construct_eq_none]
    decide
  obtain ⟨r, T', hr⟩ := (htwo L τ X _ T₀ h₀ _ .refl (0, 0) 0 hspecial).ends
  exact absurd (DerefTable.bounded_of_runs h₀ hspecial hr).index (by decide)

/-! ### A small table -/

namespace Small

theorem index_bit : 6 + 1 < 8 := by decide

/-- `TinyPtr<uint8_t, 6>`: one entry to a bucket. -/
def layout : Layout := .byte 6 index_bit

/-- Objects of one byte. -/
def object : ObjectType layout := ⟨1, by decide⟩

/-- Two buckets. -/
def indexer : BucketIndexer :=
  ⟨2, fun h => h.toNat % 2, by decide, fun _ => Nat.mod_lt _ Nat.two_pos⟩

/-- Storage that nobody has written. -/
def zeros : object.Bytes := fun _ => 0

/-- Both buckets are filled; the first is emptied and filled again. -/
def actions : List Client.Action :=
  [.allocate (2, 4) 9, .allocate (0, 5) 0, .free 1, .allocate (3, 0) 63]

/-- Then the next call throws. -/
theorem twoChoice_full :
    ∃ (T₀ : Table object.Bytes) (c : Client layout object.Bytes),
      DerefTable.construct layout indexer (fun _ _ => zeros) = some T₀ ∧
      Client.Reachable indexer T₀ c ∧ c.slots = [⟨0, 0⟩, ⟨1, 0⟩] ∧
      c.table.freeCount₁ indexer (4, 7) = 0 ∧ c.table.freeCount₂ indexer (4, 7) = 0 ∧
      Client.TwoChoice indexer c (4, 7) 3 := by
  obtain ⟨T₀, h₀⟩ : ∃ T₀, DerefTable.construct layout indexer (fun _ _ => zeros) = some T₀ :=
    ⟨_, rfl⟩
  have hrun : ((DerefTable.construct layout indexer fun _ _ => zeros).bind fun T =>
      (actions.foldlM (Client.act indexer 40) (⟨T, []⟩ : Client layout object.Bytes)).map fun c =>
        (c.slots, c.table.freeCount₁ indexer (4, 7), c.table.freeCount₂ indexer (4, 7))) =
      some ([⟨0, 0⟩, ⟨1, 0⟩], 0, 0) := by decide
  rw [h₀, Option.bind_some, Option.map_eq_some_iff] at hrun
  obtain ⟨c, hc, hfacts⟩ := hrun
  obtain ⟨hslots, h₁, h₂⟩ : c.slots = [⟨0, 0⟩, ⟨1, 0⟩] ∧ _ ∧ _ := by
    simpa only [Prod.mk.injEq] using hfacts
  have hlive : c.live.length = 2 := by
    rw [← List.length_map (f := Allocation.slot), ← Client.slots, hslots]; rfl
  have hreach := Client.reachable_of_acts hc
  refine ⟨T₀, c, h₀, hreach, hslots, h₁, h₂, (twoChoice_iff h₀ hreach (4, 7) (by decide)).mpr ?_⟩
  rw [if_pos ⟨h₁, h₂⟩, hlive]
  decide

end Small

end TinyPointerTrees
