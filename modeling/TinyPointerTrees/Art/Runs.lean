import TinyPointerTrees.Art.Insert
import TinyPointerTrees.Art.Lookup
import TinyPointerTrees.Art.Reachable

/-!
# Runs of a tiny ART

A run constructs the tables and a tree on them, and then calls `insert` and `lookup`
from a single thread, with keys that `loadKey` knows. `Reach` pairs the memory with
the keys and values that were inserted; an insertion that throws is not among them.

`Reach.stores` — after every run the tree represents what was inserted. The theorems
say what this means for the next call: for a run in which nothing was thrown it ends
and answers what a map does (`art_isMap`), as far as a key fits those before.
-/

namespace TinyPointerTrees.Art

open Conc ArtM

variable {V : Variant} {A : Tree V} {ids : ℕ → UInt64} {s s' : Heap V} {R : RadixTree UInt8 UInt64}
  {M : Key → Option Ref} {b : ℕ} {k : Key} {tid : UInt64} {thrown : Bool} {l : List (Key × UInt64)}

/-- A call of the only thread. -/
abbrev Tree.Runs {α : Type} (A : Tree V) (ids : ℕ → UInt64) (x : ArtM V α) (s : Heap V)
    (r : Except Leave α) (s' : Heap V) : Prop :=
  Prog.Runs (artHandler A.indexer ids 0) x.run s r s'

/-- The trees that a single thread reaches, with what was inserted, and whether an insertion has
thrown. -/
inductive Reach (A : Tree V) (ids : ℕ → UInt64) : Bool → List (Key × UInt64) → Heap V → Prop
  | create {s : Heap V} (h : A.Created ids s) : Reach A ids false [] s
  | insert {thrown : Bool} {l : List (Key × UInt64)} {s s' : Heap V} {k : Key} {tid : UInt64}
      (h : Reach A ids thrown l s) (hk : k ≠ []) (hload : A.loadKey tid = k)
      (hr : A.Runs ids (A.insert k tid) s (.ok ()) s') : Reach A ids thrown ((k, tid) :: l) s'
  | overflow {thrown : Bool} {l : List (Key × UInt64)} {s s' : Heap V} {k : Key} {tid : UInt64}
      {e : OverflowError} (h : Reach A ids thrown l s) (hk : k ≠ []) (hload : A.loadKey tid = k)
      (hr : A.Runs ids (A.insert k tid) s (.error (.overflow e)) s') : Reach A ids true l s'
  | lookup {thrown : Bool} {l : List (Key × UInt64)} {s s' : Heap V} {k : Key} {r : UInt64}
      (h : Reach A ids thrown l s) (hr : A.Runs ids (A.lookup k) s (.ok r) s') :
      Reach A ids thrown l s'

/-- No key of the list is a prefix of `k`, or extends it. -/
def FitsIn (l : List (Key × UInt64)) (k : Key) : Prop := ∀ e ∈ l, ¬ k <+: e.1 ∧ ¬ e.1 <+: k

/-! ### Creation -/

section Creation

variable {tables : ℕ → Table (Obj V)}

/-- A bucket that is crowded has its entries held. -/
theorem Heap.Crowded.le {X : ℕ → BucketIndexer} {l : ℕ} (h : s.Crowded X l) :
    ∃ c, V.layout.entriesPerBinCount ≤ (s.tables c).held.length + l := by
  obtain ⟨c, b, -, hle⟩ := h
  refine ⟨c, ?_⟩
  have hsub : {i | i < V.layout.entriesPerBinCount} ⊆
      Table.freeIn V.layout (s.tables c).held b ∪ ↑((s.tables c).held.map Slot.index).toFinset := by
    intro i hi
    by_cases hheld : (⟨b, i⟩ : Slot) ∈ (s.tables c).held
    · refine Or.inr ?_
      rw [Finset.mem_coe, List.mem_toFinset]
      exact List.mem_map_of_mem hheld
    · exact Or.inl ⟨hi, hheld⟩
  have hfin : (Table.freeIn V.layout (s.tables c).held b).Finite := (Set.finite_Iio _).subset
    fun i hi => hi.1
  have hcard := ((s.tables c).held.map Slot.index).toFinset_card_le
  rw [List.length_map] at hcard
  calc V.layout.entriesPerBinCount =
    {i | i < V.layout.entriesPerBinCount}.ncard := (Bucket.ncard_entries _).symm
    _ ≤ _ := Set.ncard_le_ncard hsub (hfin.union (Finset.finite_toSet _))
    _ ≤ (Table.freeIn V.layout (s.tables c).held b).ncard +
    ((s.tables c).held.map Slot.index).toFinset.card := by
      rw [← Set.ncard_coe_finset]
      exact Set.ncard_union_le _ _
    _ ≤ (s.tables c).held.length + l := by omega

/-- The creation of a tree over fresh tables makes its root. -/
theorem ends_root (ids : ℕ → UInt64) (X : ℕ → BucketIndexer)
    (hwf : ∀ c, (tables c).Wf V.layout (X c)) (hheld : ∀ c, (tables c).held = []) :
    EndsOr (artHandler X ids 0) (create V.n256S [] 0 (0, 0)) (Heap.initial tables) (fun r s =>
      ∃ (id : UInt64) (o : Obj V), Made X (Heap.initial tables) s V.n256S (0, 0) r.1 r.2
      (o.construct V.n256S id [] 0)) fun _ _ => False := by
  have hwf : (Heap.initial tables).Wf X := hwf
  refine ends_create hwf V.nodeType_n256S (fun p n s' id o hm => ⟨id, o, hm⟩) fun e s' hr => ?_
  obtain ⟨c, hle⟩ := hr.crowded.le
  have := V.layout.entriesPerBinCount_pos
  rw [Heap.initial, hheld] at hle
  simp at hle
  omega

theorem Tree.Created.made (h : A.Created ids s) :
    ∃ (tables : ℕ → Table (Obj V)) (id : UInt64) (o : Obj V),
      (∀ n, ¬ (Heap.initial tables).Live n) ∧ Made A.indexer (Heap.initial tables) s V.n256S
      (0, 0) A.root.1 A.root.2 (o.construct V.n256S id [] 0) := by
  obtain ⟨storage, tables, htab, hr⟩ := h
  have hfresh := fun c => DerefTable.construct_eq_some (htab c)
  obtain ⟨id, o, hm⟩ := (ends_root ids A.indexer (fun c => (hfresh c).1) fun c =>
    (hfresh c).2).of_runs hr
  refine ⟨tables, id, o, fun n hn => ?_, hm⟩
  have := (hfresh n.special).2
  unfold Heap.Live Heap.initial at hn
  rw [this] at hn
  cases hn

/-- A new tree is at rest. -/
theorem Tree.Created.atRest (h : A.Created ids s) :
    AtRest A s .empty (Function.update (fun _ => none) [] (some A.root.2)) 5 := by
  obtain ⟨tables, id, o, hempty, hm⟩ := h.made
  have hlt :=
    (V.nodeType_lt (c := V.n256S) (by rw [V.nodeType_n256S]; exact Option.some_ne_none _)).2
  have hlive : s.Live A.root.2 := (hm.live _).mpr (Or.inl rfl)
  have hword : Word V A.root.2 (s.get A.root.2).typeVersionLockObsolete 4 := by
    rw [hm.get_self]
    exact word_construct hlt hm.special id [] 0
  have hroot : ∀ (q : Key) n, Function.update (fun _ => none) [] (some A.root.2) q = some n →
    q = [] ∧ n = A.root.2 := by
    intro q n hq
    rw [Function.update_apply] at hq
    split_ifs at hq with hq'
    exact ⟨hq', (Option.some.inj hq).symm⟩
  have hpending : (s.deletionLists 0).pending = [] := by
    rw [hm.lists]
    rfl
  refine ⟨⟨⟨fun q => ?_, fun p q n hp hq => ?_, Function.update_self .., hm.special,
    fun k v hk => ?_⟩, hm.wf, fun q n hq => ?_, ?_, ?_, fun q π c n m hitem hq hm' _ _ => ?_⟩,
    fun q n hq => ?_, fun n hn => ?_⟩
  · by_cases hq : q = []
    · subst hq
      refine .inner RadixTree.empty.root (Function.update_self ..) hlive (t := .n256) ?_
      rw [hm.get_self]
      refine Inner.construct id V.nodeType_n256S hm.special (fun c => ?_)
        (fun j d hd => by simp at hd)
      exact Function.update_of_ne (by simp) ..
    · exact .absent (RadixTree.item_empty_ne hq) (Function.update_of_ne hq ..)
  · rw [(hroot p n hp).1, (hroot q n hq).1]
  · exact absurd hk RadixTree.not_maps_empty
  · rw [(hroot q n hq).2]
    exact ⟨4, hword, by norm_num, by norm_num⟩
  · rw [hpending]
    exact ⟨List.nodup_nil, by simp, by simp⟩
  · simp [hpending, Heap.refsOf]
  · have := (hroot _ m hm').1
    simp at this
  · rw [(hroot q n hq).2]
    exact hword.free_iff.mpr rfl
  · rcases (hm.live n).mp hn with rfl | hn
    · exact Or.inl ⟨[], Function.update_self ..⟩
    · exact absurd hn (hempty n)

/-- A new tree has room. -/
theorem Tree.Created.not_crowded (h : A.Created ids s) : ¬ s.Crowded A.indexer 2 := by
  intro hc
  obtain ⟨c, hle⟩ := hc.le
  obtain ⟨tables, id, o, hempty, hm⟩ := h.made
  have hsub : {n | s.Live n ∧ n.special = c} ⊆ {A.root.2} := by
    rintro n ⟨hn, -⟩
    exact ((hm.live n).mp hn).resolve_right (hempty n)
  have hcard := Set.ncard_le_ncard hsub (Set.finite_singleton _)
  rw [ncard_live hm.wf, Set.ncard_singleton] at hcard
  have : 4 ≤ V.layout.entriesPerBinCount := by cases V <;> decide
  omega

/-- Objects that nobody has written. -/
def zeros (V : Variant) : Obj V := ⟨0, 0, 0, 0, fun _ => 0, [], fun _ => .null, 0⟩

/-- A tree can be created over every choice of buckets. -/
theorem exists_created (X : ℕ → BucketIndexer) (load : UInt64 → Key) (ids : ℕ → UInt64) :
    ∃ root s, (⟨X, load, root⟩ : Tree V).Created ids s := by
  have hsome : ∀ c, ∃ T, DerefTable.construct V.layout (X c) (fun _ _ => zeros V) = some T := by
    intro c
    rw [← Option.ne_none_iff_exists', Ne, DerefTable.construct_eq_none]
    cases V <;> decide
  choose tables htab using hsome
  have hfresh := fun c => DerefTable.construct_eq_some (htab c)
  obtain ⟨r, s, hr, hq⟩ := ends_root ids X (fun c => (hfresh c).1) fun c => (hfresh c).2
  cases r with
  | ok root => exact ⟨root, s, fun _ _ _ => zeros V, tables, htab, hr⟩
  | error e => exact hq.elim

end Creation

/-! ### What a run has stored -/

/-- The tree represents the keys and values of the list. -/
structure Stores (A : Tree V) (s : Heap V) (R : RadixTree UInt8 UInt64) (M : Key → Option Ref)
    (thrown : Bool) (l : List (Key × UInt64)) :
    Prop extends Settled A s R M (5 + 4 * l.length) where
  rested : thrown = false → Rested A s M
  maps : ∀ k v, R.Maps k v ↔ (k, v) ∈ l
  nodup : (l.map Prod.fst).Nodup
  filled : Filled V R M

namespace Stores

theorem atRest (h : Stores A s R M false l) : AtRest A s R M (5 + 4 * l.length) :=
  ⟨h.toSettled, h.rested rfl⟩

theorem fits_iff (h : Stores A s R M thrown l) : R.Fits k ↔ FitsIn l k := by
  constructor
  · intro hfits e he
    exact hfits e.1 e.2 ((h.maps _ _).mpr he)
  · intro hfits k' v hk'
    exact hfits (k', v) ((h.maps _ _).mp hk')

theorem keys (h : Stores A s R M thrown l) : R.keys = {k | ∃ v, (k, v) ∈ l} := by
  ext k
  exact exists_congr fun v => h.maps k v

/-- Every key has a leaf of its own. -/
theorem length_le (h : Stores A s R M thrown l) : l.length ≤ (s.tables leafS).held.length := by
  have hleaf : ∀ e ∈ l, ∃ slot ∈ (s.tables leafS).held, ∃ q r, M q = some ⟨leafS, slot⟩ ∧
    R.item q = some ⟨r, some e.2⟩ ∧
      e.1 = q ++ r := by
    intro e he
    obtain ⟨q, ⟨r, value⟩, hq, hv, hk⟩ := (h.maps e.1 e.2).mpr he
    obtain rfl : value = some e.2 := hv
    obtain ⟨⟨special, slot⟩, hM, hl, hn, -⟩ := h.shape.leaf hq
    obtain rfl : special = leafS := hn
    exact ⟨slot, hl, q, r, hM, hq, hk⟩
  have : Nonempty Slot := ⟨⟨0, 0⟩⟩
  choose! slot hheld q r hM hq hk using hleaf
  have hinj : ∀ e ∈ l, ∀ e' ∈ l, slot e = slot e' → e = e' := by
    intro e he e' he' heq
    have hqq : q e = q e' := h.shape.inj _ _ _ (hM e he) (heq ▸ hM e' he')
    have hitem := (hq e he).symm.trans (hqq ▸ hq e' he')
    simp only [Option.some.injEq, RadixItem.mk.injEq] at hitem
    exact Prod.ext (by rw [hk e he, hk e' he', hqq, hitem.1]) hitem.2
  calc l.length = (l.map slot).length := List.length_map _ |>.symm
    _ ≤ (s.tables leafS).held.length :=
      ((h.nodup.of_map _).map_on hinj).subperm (fun x hx => by
        obtain ⟨e, he, rfl⟩ := List.mem_map.mp hx
        exact hheld e he) |>.length_le

/-- A table is too small for the versions of a node to wrap. -/
theorem version_lt (h : Stores A s R M thrown l) : 5 + 4 * l.length + 4 ≤ 2 ^ 62 := by
  have hheld := (h.wf leafS).length_held_le
  have hbuckets := (A.indexer leafS).buckets_lt
  have hentries : V.layout.entriesPerBinCount ≤ 64 := by cases V <;> decide
  have := Nat.mul_le_mul hbuckets.le hentries
  have := h.length_le
  omega

theorem insert (h : Stores A s R M thrown l) (hi : Inserted A s R M k tid (5 + 4 * l.length) s') :
    FitsIn l k ∧ ∃ R' M', Stores A s' R' M' thrown ((k, tid) :: l) := by
  obtain ⟨hfits, R', M', hs, hmaps, hrest, hfilled⟩ := hi
  have hfits' := h.fits_iff.mp hfits
  refine ⟨hfits', R', M', hs, fun ht => hrest (h.rested ht), fun k' v => ?_, ?_, hfilled h.filled⟩
  · rw [hmaps, h.maps, List.mem_cons, Prod.mk.injEq]
  · rw [List.map_cons, List.nodup_cons]
    refine ⟨fun hk => ?_, h.nodup⟩
    obtain ⟨e, he, rfl⟩ := List.mem_map.mp hk
    exact (hfits' e he).1 List.prefix_rfl

theorem lookup (h : Stores A s R M thrown l) {r : Except Leave UInt64}
    (hr : A.Runs ids (A.lookup k) s r s') : Stores A s' R M thrown l := by
  refine ⟨(Tree.lookup_runs h.toSettled hr).1, fun ht => ?_, h.maps, h.nodup, h.filled⟩
  subst ht
  have hq := (Tree.lookup_spec ids k h.atRest).of_runs hr
  cases r with
  | ok r => exact hq.2.toRested
  | error e => exact hq.elim

end Stores

/-- By induction on the run. -/
theorem Reach.stores (h : Reach A ids thrown l s) : ∃ R M, Stores A s R M thrown l := by
  induction h with
  | create h =>
    have hrest := h.atRest
    exact ⟨_, _, hrest.toSettled, fun _ => hrest.toRested,
      fun k v => iff_of_false RadixTree.not_maps_empty (by simp), List.nodup_nil, filled_empty⟩
  | insert _ hk hload hr ih =>
    obtain ⟨R, M, h⟩ := ih
    exact (h.insert (Tree.insert_runs h.toSettled h.version_lt hk hload hr)).2
  | overflow _ hk hload hr ih =>
    obtain ⟨R, M, h⟩ := ih
    cases Tree.insert_runs h.toSettled h.version_lt hk hload hr with
    | overflow _ _ hs _ => exact ⟨R, M, hs, by simp, h.maps, h.nodup, h.filled⟩
  | lookup _ hr ih =>
    obtain ⟨R, M, h⟩ := ih
    exact ⟨R, M, h.lookup hr⟩

/-! ### What the next call does -/

/-- A `lookup` ends, and answers what the radix tree says. -/
theorem Stores.ends_lookup (h : Stores A s R M false l) (ids : ℕ → UInt64) (k : Key) :
    ∃ r s', A.Runs ids (A.lookup k) s (.ok r) s' ∧ Tree.Answers A.loadKey R k [] false r := by
  obtain ⟨r, s', hr, hq⟩ := Tree.lookup_spec ids k h.atRest
  cases r with
  | ok r => exact ⟨r, s', hr, hq.1⟩
  | error e => exact hq.elim

/-- An `insert` ends: it returns if the key fits, unless a table is almost full, and it leaves the
bounds of a key if it does not. -/
theorem Stores.ends_insert (h : Stores A s R M false l) (ids : ℕ → UInt64) (hk : k ≠ [])
    (hload : A.loadKey tid = k) :
    (FitsIn l k ∧ ∃ s', A.Runs ids (A.insert k tid) s (.ok ()) s') ∨
      (FitsIn l k ∧ ∃ e s', A.Runs ids (A.insert k tid) s (.error (.overflow e)) s' ∧
      s.Crowded A.indexer 2) ∨ (¬ FitsIn l k ∧ ∃ s', A.Runs ids (A.insert k tid) s
      (.error .outOfBounds) s') := by
  obtain ⟨r, s', hr, hq⟩ := Tree.insert_spec ids h.atRest h.version_lt hk hload
  cases r with
  | ok u => exact Or.inl ⟨h.fits_iff.mp hq.fits, s', hr⟩
  | error e =>
    cases hq with
    | overflow hfits hfull => exact Or.inr (Or.inl ⟨h.fits_iff.mp hfits, _, s', hr, hfull⟩)
    | outOfBounds hfits => exact Or.inr (Or.inr ⟨mt h.fits_iff.mpr hfits, s', hr⟩)

/-! ### Trees with one bucket -/

theorem oneBucket_lt : 1 < 2 ^ 32 := by decide

theorem oneBucket_index_lt (_ : UInt64) : 0 < 1 := Nat.one_pos

/-- A table with one bucket. -/
def oneBucket : BucketIndexer := ⟨1, fun _ => 0, oneBucket_lt, oneBucket_index_lt⟩

theorem Reach.one (h : A.Created ids s) (hk : k ≠ []) (hload : A.loadKey tid = k) :
    ∃ s', Reach A ids false [(k, tid)] s' := by
  have hreach := Reach.create h
  obtain ⟨R, M, hst⟩ := hreach.stores
  rcases hst.ends_insert ids hk hload with ⟨-, s', hr⟩ | ⟨-, e, s', -, hc⟩ | ⟨hnot, -⟩
  · exact ⟨s', hreach.insert hk hload hr⟩
  · exact absurd hc h.not_crowded
  · exact absurd (by simp [FitsIn]) hnot

/-- A tree with one key. -/
theorem exists_reach_one (V : Variant) (load : UInt64 → Key) (ids : ℕ → UInt64) (k : Key)
    (tid : UInt64) (hk : k ≠ []) (hload : load tid = k) :
    ∃ (A : Tree V) (s : Heap V), A.loadKey = load ∧ Reach A ids false [(k, tid)] s := by
  obtain ⟨root, s, h⟩ := exists_created (V := V) (fun _ => oneBucket) load ids
  obtain ⟨s', h'⟩ := Reach.one h hk hload
  exact ⟨_, s', rfl, h'⟩

/-- Keys of one byte are inserted one after the other, until a table overflows. -/
theorem Reach.grow (h : A.Created ids s) (hload : ∀ v, A.loadKey v = [v.toUInt8]) (n : ℕ)
    (hn : n ≤ 256) :
    (∃ l s', Reach A ids false l s' ∧ l.length = n ∧ ∀ e ∈ l, ∃ i < n, e.1 = [UInt8.ofNat i]) ∨
      ∃ l s₁ k tid e s₂, Reach A ids false l s₁ ∧ k ≠ [] ∧ A.loadKey tid = k ∧
      A.Runs ids (A.insert k tid) s₁ (.error (.overflow e)) s₂ := by
  induction n with
  | zero => exact Or.inl ⟨[], s, .create h, rfl, by simp⟩
  | succ n ih =>
    rcases ih (by omega) with ⟨l, s₁, hreach, hlen, hkeys⟩ | hover
    · have hl : A.loadKey (UInt64.ofNat n) = [UInt8.ofNat n] := by
        rw [hload, UInt64.toUInt8_ofNat']
      have hfits : FitsIn l [UInt8.ofNat n] := by
        intro e he
        obtain ⟨i, hi, heq⟩ := hkeys e he
        have hne : UInt8.ofNat i ≠ UInt8.ofNat n := by
          intro h'
          have := congrArg UInt8.toNat h'
          simp only [UInt8.toNat_ofNat'] at this
          omega
        rw [heq]
        constructor
        · intro hpre
          exact hne (by simpa using (hpre.eq_of_length rfl).symm)
        · intro hpre
          exact hne (by simpa using hpre.eq_of_length rfl)
      obtain ⟨R, M, hst⟩ := hreach.stores
      rcases hst.ends_insert ids (by simp) hl with ⟨-, s', hr⟩ | ⟨-, e, s', hr, -⟩ | ⟨hnot, -⟩
      · refine Or.inl ⟨_, s', hreach.insert (by simp) hl hr, by rw [List.length_cons, hlen],
          fun e he => ?_⟩
        rcases List.mem_cons.mp he with rfl | he
        · exact ⟨n, by omega, rfl⟩
        · obtain ⟨i, hi, heq⟩ := hkeys e he
          exact ⟨i, by omega, heq⟩
      · exact Or.inr ⟨l, s₁, _, _, e, s', hreach, by simp, hl, hr⟩
      · exact absurd hfits hnot
    · exact Or.inr hover

/-- In a tree whose tables have one bucket, some insertion overflows. -/
theorem exists_overflow (V : Variant) (ids : ℕ → UInt64) :
    ∃ (A : Tree V) (l : List (Key × UInt64)) (s : Heap V) (k : Key) (tid : UInt64)
      (e : OverflowError) (s' : Heap V), Reach A ids false l s ∧ k ≠ [] ∧ A.loadKey tid = k ∧
      A.Runs ids (A.insert k tid) s (.error (.overflow e)) s' := by
  obtain ⟨root, s, h⟩ := exists_created (V := V) (fun _ => oneBucket) (fun v => [v.toUInt8]) ids
  have hentries : V.layout.entriesPerBinCount < 64 := by cases V <;> decide
  rcases Reach.grow h (fun _ => rfl) (V.layout.entriesPerBinCount + 1) (by omega) with ⟨l, s₁,
    hreach, hlen, -⟩ | hover
  · obtain ⟨R, M, hst⟩ := hreach.stores
    have h₁ := hst.length_le
    have h₂ : _ ≤ oneBucket.buckets * V.layout.entriesPerBinCount := (hst.wf leafS).length_held_le
    have : oneBucket.buckets = 1 := rfl
    rw [this] at h₂
    omega
  · exact ⟨_, hover⟩

/-! ### Runs that are executed -/

/-- A new tree whose tables have one bucket: its root, and the memory. -/
def Variant.created (V : Variant) (ids : ℕ → UInt64) : Option ((ArtTinyPtr V × Ref) × Heap V) :=
  match DerefTable.construct V.layout oneBucket fun _ _ => zeros V with
  | some T =>
    match Prog.run (artHandler (fun _ => oneBucket) ids 0) 20
        (create V.n256S [] 0 (0, 0)).run (.initial fun _ => T) with
    | some (.ok root, s) => some (root, s)
    | _ => none
  | none => none

theorem Tree.Created.of_eq {load : UInt64 → Key} {root : ArtTinyPtr V × Ref}
    (h : V.created ids = some (root, s)) :
    (⟨fun _ => oneBucket, load, root⟩ : Tree V).Created ids s := by
  unfold Variant.created at h
  split at h
  next T hT =>
    split at h
    next hrun =>
      cases h
      exact ⟨fun _ _ _ => zeros V, fun _ => T, fun _ => hT, 20, hrun⟩
    next => cases h
  next => cases h

/-- Insertions one after the other, the last one of the list first. -/
def Tree.insertAll (A : Tree V) (ids : ℕ → UInt64) : List (Key × UInt64) → Heap V → Option (Heap V)
  | [], s => some s
  | (k, tid) :: l, s =>
    match A.insertAll ids l s with
    | none => none
    | some s =>
      match Prog.run (artHandler A.indexer ids 0) 200 (A.insert k tid).run s with
      | some (.ok (), s) => some s
      | _ => none

theorem Reach.insertAll {l' : List (Key × UInt64)} (h : Reach A ids thrown l s)
    (hload : ∀ e ∈ l', e.1 ≠ [] ∧ A.loadKey e.2 = e.1) (hr : A.insertAll ids l' s = some s') :
    Reach A ids thrown (l' ++ l) s' := by
  induction l' generalizing s' with
  | nil =>
    cases hr
    exact h
  | cons e l' ih =>
    simp only [Tree.insertAll] at hr
    split at hr
    next => cases hr
    next s₁ h₁ =>
      split at hr
      next hrun =>
        cases hr
        have hreach := ih (fun e he => hload e (List.mem_cons_of_mem _ he)) h₁
        exact hreach.insert (hload e List.mem_cons_self).1
          (hload e List.mem_cons_self).2 ⟨200, hrun⟩
      next => cases hr

namespace Several

/-- Keys with a prefix in common that is longer than a node stores; one parts from it early, and the
fifth child makes a node grow. The last one was inserted first. -/
def entries : List (Key × UInt64) :=
  [([1, 1, 1, 1, 1, 1, 1, 1, 1, 1, 1, 1, 1, 6, 0], 7),
    ([1, 1, 1, 1, 1, 1, 1, 1, 1, 1, 1, 1, 1, 5, 0], 6),
    ([1, 1, 1, 1, 1, 1, 1, 1, 1, 1, 1, 1, 1, 4, 0], 5), ([1, 1, 9, 0], 4), ([7, 0], 3),
    ([1, 1, 1, 1, 1, 1, 1, 1, 1, 1, 1, 1, 1, 3, 0], 2),
    ([1, 1, 1, 1, 1, 1, 1, 1, 1, 1, 1, 1, 1, 2, 0], 1)]

/-- The key of an entry. -/
def load (tid : UInt64) : Key := (entries.find? fun e => e.2 == tid).elim [] Prod.fst

theorem load_entries : ∀ e ∈ entries, e.1 ≠ [] ∧ load e.2 = e.1 := by decide

/-- Nodes are counted. -/
def nodeIds (n : ℕ) : UInt64 := UInt64.ofNat n

/-- How many entries are pending in the end. -/
def pending (V : Variant) : Option ℕ :=
  (V.created nodeIds).bind fun r =>
    ((⟨fun _ => oneBucket, load, r.1⟩ : Tree V).insertAll nodeIds entries r.2).map fun s =>
      (s.deletionLists 0).pending.length

theorem two_le_pending (V : Variant) : (pending V).any (2 ≤ ·) = true := by
  cases V <;> decide +kernel

/-- The entries can be inserted into a tree of each variant, and nodes have been replaced on the
way. -/
theorem exists_reach (V : Variant) :
    ∃ (A : Tree V) (s : Heap V), A.loadKey = load ∧ Reach A nodeIds false entries s ∧
      2 ≤ (s.deletionLists 0).pending.length := by
  obtain ⟨n, hn, hle⟩ := (Option.any_eq_true _ _).mp (two_le_pending V)
  obtain ⟨⟨root, s₀⟩, hs₀, hn⟩ := Option.bind_eq_some_iff.mp hn
  obtain ⟨s, hs, rfl⟩ := Option.map_eq_some_iff.mp hn
  have h := (Reach.create (.of_eq hs₀)).insertAll load_entries hs
  exact ⟨_, s, rfl, h, of_decide_eq_true hle⟩

end Several

/-! ### What is expected of a tree -/

/-- The tree is a map with the keys and values of the list, as far as keys fit. -/
structure IsMap (A : Tree V) (ids : ℕ → UInt64) (l : List (Key × UInt64)) (s : Heap V) : Prop where
  /-- An insertion ends: the key is stored, or a table overflows that was almost full. -/
  insert : ∀ k tid, k ≠ [] → A.loadKey tid = k → FitsIn l k →
    (∃ s', A.Runs ids (A.insert k tid) s (.ok ()) s' ∧ Reach A ids false ((k, tid) :: l) s') ∨
    ∃ e s', A.Runs ids (A.insert k tid) s (.error (.overflow e)) s' ∧ s.Crowded A.indexer 2
  /-- A `lookup` ends: it answers what was inserted, and zero for a key that could be. -/
  lookup : ∀ k, ∃ r s', A.Runs ids (A.lookup k) s (.ok r) s' ∧ Reach A ids false l s' ∧
    (∀ tid, (k, tid) ∈ l → r = tid) ∧ (FitsIn l k → r = 0)

/-- After every run in which nothing is thrown the tree is a map. -/
theorem art_isMap (h : Reach A ids false l s) : IsMap A ids l s := by
  obtain ⟨R, M, hst⟩ := h.stores
  refine ⟨fun k tid hk hload hfits => ?_, fun k => ?_⟩
  · rcases hst.ends_insert ids hk hload with ⟨-, s', hr⟩ | ⟨-, hr⟩ | ⟨hnot, -⟩
    · exact Or.inl ⟨s', hr, h.insert hk hload hr⟩
    · exact Or.inr hr
    · exact absurd hfits hnot
  · obtain ⟨r, s', hr, hans⟩ := hst.ends_lookup ids k
    refine ⟨r, s', hr, h.lookup hr, fun tid hmem => ?_, fun hfits => ?_⟩
    · have hmaps := (hst.maps k tid).mpr hmem
      exact hans.of_maps hmaps List.nil_prefix (hst.shape.keyed k tid hmaps)
    · by_contra hr0
      obtain ⟨k', hk'⟩ := hans.exists_maps hr0
      have hmem := (hst.maps k' r).mp hk'
      -- the answer is the value of another key, so the path of `k` is cut
      by_cases hk : k = []
      · exact (hfits _ hmem).1 (hk ▸ List.nil_prefix)
      · rcases hans.load_eq_or_cut hr0 hk hst.shape.keyed with hload | hcut
        · rw [hst.shape.keyed k' r hk'] at hload
          exact (hfits _ hmem).1 (hload ▸ List.prefix_rfl)
        · obtain ⟨k₂, ⟨v, hk₂⟩, hpre, -⟩ := hcut.longer
          exact (hfits _ ((hst.maps k₂ v).mp hk₂)).1 hpre

open Several in
theorem art_isMap_several : ∃ (A : Tree .olc) (s : Heap .olc), Reach A nodeIds false entries s ∧
    2 ≤ (s.deletionLists 0).pending.length ∧ IsMap A nodeIds entries s := by
  obtain ⟨A, s, -, h, hpending⟩ := Several.exists_reach .olc
  exact ⟨A, s, h, hpending, art_isMap h⟩

/-- Trees that store the same keys and values answer the same. -/
theorem Stores.agree {V' : Variant} {A' : Tree V'} {ids' : ℕ → UInt64} {u : Heap V'}
    {R' : RadixTree UInt8 UInt64} {M' : Key → Option Ref} (h : Stores A s R M false l)
    (h' : Stores A' u R' M' false l) (hload : A'.loadKey = A.loadKey) {r : UInt64}
    (hr : Tree.Answers A.loadKey R k [] false r) :
    ∃ u', A'.Runs ids' (A'.lookup k) u (.ok r) u' := by
  have hitem : R.item = R'.item := RadixTree.item_eq_of_maps fun k v =>
    (h.maps k v).trans (h'.maps k v).symm
  have heq : R = R' := by
    cases R
    cases R'
    cases hitem
    rfl
  subst heq
  obtain ⟨r', u', hrun, hans⟩ := h'.ends_lookup ids' k
  rw [hload] at hans
  rw [hr.unique hans]
  exact ⟨u', hrun⟩

/-- The three trees answer the same after the same insertions. -/
theorem art_agree {A₁ : Tree .olc} {A₂ : Tree .olc64} {A₃ : Tree .olc256}
    {ids₁ ids₂ ids₃ : ℕ → UInt64} {s₁ : Heap .olc} {s₂ : Heap .olc64} {s₃ : Heap .olc256}
    (h₁ : Reach A₁ ids₁ false l s₁) (h₂ : Reach A₂ ids₂ false l s₂) (h₃ : Reach A₃ ids₃ false l s₃)
    (hload₂ : A₂.loadKey = A₁.loadKey) (hload₃ : A₃.loadKey = A₁.loadKey) (k : Key) :
    ∃ r, (∃ s', A₁.Runs ids₁ (A₁.lookup k) s₁ (.ok r) s') ∧
      (∃ s', A₂.Runs ids₂ (A₂.lookup k) s₂ (.ok r) s') ∧
      ∃ s', A₃.Runs ids₃ (A₃.lookup k) s₃ (.ok r) s' := by
  obtain ⟨R₁, M₁, h₁⟩ := h₁.stores
  obtain ⟨R₂, M₂, h₂⟩ := h₂.stores
  obtain ⟨R₃, M₃, h₃⟩ := h₃.stores
  obtain ⟨r, s', hr, hans⟩ := h₁.ends_lookup ids₁ k
  exact ⟨r, ⟨s', hr⟩, h₁.agree h₂ hload₂ hans, h₁.agree h₃ hload₃ hans⟩

open Several in
theorem art_agree_several :
    ∃ (A₁ : Tree .olc) (A₂ : Tree .olc64) (A₃ : Tree .olc256) (s₁ : Heap .olc) (s₂ : Heap .olc64)
      (s₃ : Heap .olc256), Reach A₁ nodeIds false entries s₁ ∧ Reach A₂ nodeIds false entries s₂ ∧
      Reach A₃ nodeIds false entries s₃ ∧ ∀ k ∈ [[7, 0], [1, 1], [7, 0, 5], [9]],
        ∃ r, (∃ s', A₁.Runs nodeIds (A₁.lookup k) s₁ (.ok r) s') ∧
          (∃ s', A₂.Runs nodeIds (A₂.lookup k) s₂ (.ok r) s') ∧
          ∃ s', A₃.Runs nodeIds (A₃.lookup k) s₃ (.ok r) s' := by
  obtain ⟨A₁, s₁, hload₁, h₁, -⟩ := Several.exists_reach .olc
  obtain ⟨A₂, s₂, hload₂, h₂, -⟩ := Several.exists_reach .olc64
  obtain ⟨A₃, s₃, hload₃, h₃, -⟩ := Several.exists_reach .olc256
  exact ⟨A₁, A₂, A₃, s₁, s₂, s₃, h₁, h₂, h₃, fun k _ =>
    art_agree h₁ h₂ h₃ (hload₂.trans hload₁.symm) (hload₃.trans hload₁.symm) k⟩

/-- The addresses in a tree are as they should be. -/
theorem art_addressed (h : Reach A ids false l s) : Addressed A s := by
  obtain ⟨R, M, hst⟩ := h.stores
  exact hst.atRest.addressed

open Several in
theorem art_addressed_several : ∃ (A : Tree .olc) (s : Heap .olc), Reach A nodeIds false entries s ∧
    2 ≤ (s.deletionLists 0).pending.length ∧ Addressed A s := by
  obtain ⟨A, s, -, h, hpending⟩ := Several.exists_reach .olc
  exact ⟨A, s, h, hpending, art_addressed h⟩

theorem Stores.answers_of_cut (h : Stores A s R M false l) (ids : ℕ → UInt64)
    (h0 : ∀ e ∈ l, e.2 ≠ 0) (hk : k ≠ []) (hcut : Tree.Cut {k | ∃ v, (k, v) ∈ l} k) :
    ∃ r s', A.Runs ids (A.lookup k) s (.ok r) s' ∧ r ≠ 0 ∧ A.loadKey r ≠ k := by
  rw [← h.keys] at hcut
  obtain ⟨k', v, hk', hne, hans⟩ := hcut.answers hk h.shape.keyed
  obtain ⟨r, s', hr, hans'⟩ := h.ends_lookup ids k
  obtain rfl := hans.unique hans'
  exact ⟨v, s', hr, h0 _ ((h.maps k' v).mp hk'), hne⟩

/-- A `lookup` is right if, and only if, the path of its key is not cut. -/
theorem lookup_sound_iff (h : Reach A ids false l s) (h0 : ∀ e ∈ l, e.2 ≠ 0) (hk : k ≠ []) :
    (∀ r s', A.Runs ids (A.lookup k) s (.ok r) s' → r ≠ 0 → A.loadKey r = k) ↔
      ¬ Tree.Cut {k | ∃ v, (k, v) ∈ l} k := by
  obtain ⟨R, M, hst⟩ := h.stores
  constructor
  · intro hsound hcut
    obtain ⟨r, s', hr, hr0, hne⟩ := hst.answers_of_cut ids h0 hk hcut
    exact hne (hsound r s' hr hr0)
  · intro hcut r s' hr hr0
    obtain ⟨r', s'', hr', hans⟩ := hst.ends_lookup ids k
    obtain ⟨heq, -⟩ := Prog.Runs.unique _ hr hr'
    cases heq
    rw [← hst.keys] at hcut
    exact (hans.load_eq_or_cut hr0 hk hst.shape.keyed).resolve_right hcut

/-- With nothing but the key `1, 1` stored, the path of the key `1` is cut. -/
theorem cut_one : Tree.Cut {k | ∃ v, (k, v) ∈ [(([1, 1] : Key), (1 : UInt64))]} [1] := by
  refine ⟨⟨[1, 1], ⟨1, by simp⟩, by decide, by decide, ?_⟩, Or.inl rfl, fun q t hq hqt => ?_⟩
  · rintro s ⟨v, hv⟩ -
    simp only [List.mem_singleton, Prod.mk.injEq] at hv
    exact hv.1
  · have : q ++ t = [] := List.prefix_nil.mp hqt
    exact absurd (List.append_eq_nil_iff.mp this).1 hq

theorem lookup_not_sound :
    ∃ (A : Tree .olc) (s : Heap .olc), Reach A (fun _ => 0) false [([1, 1], 1)] s ∧
      ∃ r s', A.Runs (fun _ => 0) (A.lookup [1]) s (.ok r) s' ∧ r ≠ 0 ∧ A.loadKey r ≠ [1] := by
  obtain ⟨A, s, -, h⟩ := exists_reach_one .olc (fun _ => [1, 1]) (fun _ => 0) [1, 1] 1 (by simp) rfl
  obtain ⟨R, M, hst⟩ := h.stores
  exact ⟨A, s, h, hst.answers_of_cut _ (by simp) (by simp) cut_one⟩

theorem lookup_sound_iff_one :
    ∃ (A : Tree .olc) (s : Heap .olc), Reach A (fun _ => 0) false [([1, 1], 1)] s ∧
      ((∀ r s', A.Runs (fun _ => 0) (A.lookup [1]) s (.ok r) s' → r ≠ 0 → A.loadKey r = [1]) ↔
      ¬ Tree.Cut {k | ∃ v, (k, v) ∈ [(([1, 1] : Key), (1 : UInt64))]} [1]) := by
  obtain ⟨A, s, -, h⟩ := exists_reach_one .olc (fun _ => [1, 1]) (fun _ => 0) [1, 1] 1 (by simp) rfl
  exact ⟨A, s, h, lookup_sound_iff h (by simp) (by simp)⟩

/-- An `insert` stays in the bounds of the keys if, and only if, its key fits. -/
theorem insert_inBounds_iff (h : Reach A ids false l s) (hk : k ≠ []) (hload : A.loadKey tid = k) :
    (∃ r s', A.Runs ids (A.insert k tid) s r s' ∧ r ≠ .error .outOfBounds) ↔ FitsIn l k := by
  obtain ⟨R, M, hst⟩ := h.stores
  rcases hst.ends_insert ids hk hload with ⟨hfits, s', hr⟩ | ⟨hfits, e, s', hr, -⟩ | ⟨hnot, s', hr⟩
  · exact iff_of_true ⟨_, s', hr, by simp⟩ hfits
  · exact iff_of_true ⟨_, s', hr, by simp⟩ hfits
  · refine iff_of_false ?_ hnot
    rintro ⟨r, s'', hr', hne⟩
    exact hne (Prog.Runs.unique _ hr' hr).1

theorem insert_not_inBounds :
    ∃ (A : Tree .olc) (s : Heap .olc), Reach A (fun _ => 0) false [([7], 1)] s ∧ A.loadKey 1 = [7] ∧
      ∃ s', A.Runs (fun _ => 0) (A.insert [7] 1) s (.error .outOfBounds) s' := by
  obtain ⟨A, s, hload, h⟩ := exists_reach_one .olc (fun _ => [7]) (fun _ => 0) [7] 1 (by simp) rfl
  obtain ⟨R, M, hst⟩ := h.stores
  have hl : A.loadKey 1 = [7] := by rw [hload]
  refine ⟨A, s, h, hl, ?_⟩
  rcases hst.ends_insert (fun _ => 0) (by simp) hl with ⟨hfits, -⟩ | ⟨hfits, -⟩ | ⟨-, hr⟩
  · exact absurd List.prefix_rfl (hfits _ (List.mem_singleton_self _)).1
  · exact absurd List.prefix_rfl (hfits _ (List.mem_singleton_self _)).1
  · exact hr

theorem insert_inBounds_iff_one :
    ∃ (A : Tree .olc) (s : Heap .olc), Reach A (fun _ => 0) false [([7], 1)] s ∧
      ((∃ r s', A.Runs (fun _ => 0) (A.insert [7] 1) s r s' ∧ r ≠ .error .outOfBounds) ↔
      FitsIn [([7], 1)] [7]) := by
  obtain ⟨A, s, hload, h⟩ := exists_reach_one .olc (fun _ => [7]) (fun _ => 0) [7] 1 (by simp) rfl
  exact ⟨A, s, h, insert_inBounds_iff h (by simp) (by rw [hload])⟩

/-- What is expected of a tree that an insertion of `k` has left with an exception. -/
structure Usable (A : Tree V) (ids : ℕ → UInt64) (l : List (Key × UInt64)) (k : Key) (s : Heap V) :
    Prop where
  unlocked : ∀ n, Reachable A s n → isLocked (s.get n).typeVersionLockObsolete = false
  stored : ∀ e ∈ l, ∃ s', A.Runs ids (A.lookup e.1) s (.ok e.2) s'
  absent : ∃ s', A.Runs ids (A.lookup k) s (.ok 0) s'
  lookups : ∀ k', ∃ r s', A.Runs ids (A.lookup k') s r s'
  inserts : ∀ k' tid, k' ≠ [] → A.loadKey tid = k' → FitsIn l k' →
    ∃ r s', A.Runs ids (A.insert k' tid) s r s'

theorem Reach.locked_of_overflow (h : Reach A ids thrown l s) (hk : k ≠ [])
    (hload : A.loadKey tid = k) {e : OverflowError}
    (hr : A.Runs ids (A.insert k tid) s (.error (.overflow e)) s') :
    ∃ n, Reachable A s' n ∧ isLocked (s'.get n).typeVersionLockObsolete = true := by
  obtain ⟨R, M, hst⟩ := h.stores
  cases Tree.insert_runs hst.toSettled hst.version_lt hk hload hr with
  | overflow _ _ hs hheld =>
    obtain ⟨q, n, hn, hlock⟩ := hheld
    exact ⟨n, hs.shape.reachable hn, hlock⟩

/-- An insertion that overflows never leaves the tree usable. -/
theorem overflow_not_usable (h : Reach A ids thrown l s) (hk : k ≠ []) (hload : A.loadKey tid = k)
    {e : OverflowError} (hr : A.Runs ids (A.insert k tid) s (.error (.overflow e)) s') :
    ¬ Usable A ids l k s' := by
  intro husable
  obtain ⟨n, hn, hlock⟩ := h.locked_of_overflow hk hload hr
  rw [husable.unlocked n hn] at hlock
  cases hlock

theorem not_usable_of_overflow :
    ∃ (A : Tree .olc) (l : List (Key × UInt64)) (s : Heap .olc) (k : Key) (tid : UInt64)
      (e : OverflowError) (s' : Heap .olc), Reach A (fun _ => 0) false l s ∧ k ≠ [] ∧
      A.loadKey tid = k ∧ A.Runs (fun _ => 0) (A.insert k tid) s (.error (.overflow e)) s' ∧
      ¬ Usable A (fun _ => 0) l k s' := by
  obtain ⟨A, l, s, k, tid, e, s', h, hk, hload, hr⟩ := exists_overflow .olc fun _ => 0
  obtain ⟨n, hn, hlock⟩ := h.locked_of_overflow hk hload hr
  refine ⟨A, l, s, k, tid, e, s', h, hk, hload, hr, fun husable => ?_⟩
  rw [husable.unlocked n hn] at hlock
  cases hlock

theorem overflow_not_usable_olc256 :
    ∃ (A : Tree .olc256) (l : List (Key × UInt64)) (s : Heap .olc256) (k : Key) (tid : UInt64)
      (e : OverflowError) (s' : Heap .olc256), Reach A (fun _ => 0) false l s ∧ A.loadKey tid = k ∧
      A.Runs (fun _ => 0) (A.insert k tid) s (.error (.overflow e)) s' ∧
      ¬ Usable A (fun _ => 0) l k s' := by
  obtain ⟨A, l, s, k, tid, e, s', h, hk, hload, hr⟩ := exists_overflow .olc256 fun _ => 0
  exact ⟨A, l, s, k, tid, e, s', h, hload, hr, overflow_not_usable h hk hload hr⟩

end TinyPointerTrees.Art
