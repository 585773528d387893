import TinyPointerTrees.Library.Histories
import TinyPointerTrees.TinyPtr.Concurrent

/-!
# A table as stacks

What a dereference table is for its clients: a stack of free entries for each bucket.
`allocate` takes the top of the longer one of two stacks, the first one if they are as
long as each other, and throws if that is empty; `free` puts an entry back on its stack.

* `stackStep_allocate`, `stackStep_free` — this is what the calls of a single thread do.
* `stackObject` — what a call of `allocate` notes is which stack it takes from. Whatever is
  done to other stacks does not change that, nor does taking from it change what the others do
  (`commutes_allocate`): it makes a stack shorter that was not chosen.
-/

namespace TinyPointerTrees

open Conc FreeList

variable {L : Layout} {ω : Type} {X : BucketIndexer}

/-- The free entries of each bucket, the next one first. -/
abbrev Stacks : Type := ℕ → List ℕ

namespace Stacks

/-- The top of a stack is taken. -/
def pop (S : Stacks) (b : ℕ) : Stacks := Function.update S b (S b).tail

/-- An entry is put on its stack. -/
def push (S : Stacks) (s : Slot) : Stacks := Function.update S s.bucket (s.index :: S s.bucket)

variable (X) (S : Stacks) (h : TinyPtrHashes)

/-- Which hash value `allocate` uses. -/
def hashBit : Bool := decide (¬ (S (X.index h.1)).length ≥ (S (X.index h.2)).length)

/-- The stack `allocate` takes from. -/
def chosen : ℕ := if S.hashBit X h then X.index h.2 else X.index h.1

end Stacks

/-- Stacks, one call at a time. -/
inductive StackStep (X : BucketIndexer) : Stacks → DtCall L ω → DtRet L → Stacks → Prop where
  | allocate {S : Stacks} {h : TinyPtrHashes} {special i : ℕ} {rest : List ℕ}
      (hi : S (S.chosen X h) = i :: rest) :
      StackStep X S (.allocate h special)
        (.allocated (.ok (.ofFields i special (S.hashBit X h), ⟨S.chosen X h, i⟩)))
        (S.pop (S.chosen X h))
  /-- The text of the exception has the sum of the counters, which others may be changing. -/
  | overflow {S : Stacks} {h : TinyPtrHashes} {special size : ℕ} (h0 : S (S.chosen X h) = []) :
      StackStep X S (.allocate h special) (.allocated (.error ⟨size, DerefTable.capacity L X⟩)) S
  | free {S : Stacks} {a : Allocation L} :
      StackStep X S (.free a) .done (S.push a.slot)
  | write {S : Stacks} {a : Allocation L} {o : ω} : StackStep X S (.write a o) .done S

/-! ### The calls of a single thread -/

/-- The free list of a bucket. -/
def Bucket.freeList (L : Layout) [Storage L ω] (B : Bucket ω) : List ℕ :=
  visits (B.links L) B.freeSlotIndex B.freeSlotCount

/-- The free lists of a table. -/
def Table.freeLists (L : Layout) [Storage L ω] (T : Table ω) : Stacks :=
  fun b => (T.bucket b).freeList L

section Sequential

variable [Storage L ω]

theorem Bucket.freeList_take {B : Bucket ω} {free : Set ℕ} (h : B.Lists L free)
    (h0 : B.freeSlotCount ≠ 0) : B.freeList L = B.freeSlotIndex :: (B.take L).freeList L := by
  obtain ⟨n, hn⟩ := Nat.exists_eq_succ_of_ne_zero h0
  have hcount : (B.take L).freeSlotCount = n := by
    rw [Bucket.take, h.fetchSub h0, hn, Nat.succ_sub_one]
  rw [freeList, freeList, hcount, hn]
  rfl

theorem Bucket.freeList_give {B : Bucket ω} {free : Set ℕ} {i : ℕ} (h : B.Lists L free)
    (hi : i < L.entriesPerBinCount) (hf : i ∉ free) :
    (B.give L i).freeList L = i :: B.freeList L := by
  have hcount : (B.give L i).freeSlotCount = B.freeSlotCount + 1 :=
    Bucket.fetchAdd_eq (IsFreeList.give h hf hi)
  have hlinks : (B.give L i).links L = Function.update (B.links L) i B.freeSlotIndex :=
    Bucket.links_setLink h.head_valid
  rw [freeList, hcount, hlinks]
  exact visits_push fun hm => hf ((h.mem_iff i).mp hm)

namespace Table

variable {T T' : Table ω} {t : ℕ} {h : TinyPtrHashes} {special : ℕ}

theorem length_freeLists (b : ℕ) : (T.freeLists L b).length = (T.bucket b).freeSlotCount :=
  List.length_iterate ..

theorem hashBit_freeLists : (T.freeLists L).hashBit X h = T.hashBit X h := by
  unfold Stacks.hashBit hashBit
  rw [length_freeLists, length_freeLists]

theorem chosen_freeLists : (T.freeLists L).chosen X h = T.chosen X h := by
  unfold Stacks.chosen chosen
  rw [hashBit_freeLists]

/-- The free lists after a change of one bucket. -/
theorem freeLists_of_bucket {b : ℕ} {f : Bucket ω → Bucket ω}
    (hT' : T'.bucket = (T.modify b f).bucket) :
    T'.freeLists L = Function.update (T.freeLists L) b ((f (T.bucket b)).freeList L) := by
  funext c
  rw [freeLists, hT']
  by_cases hcb : c = b
  · subst hcb
    rw [Function.update_self, modify_bucket_self]
  · rw [Function.update_of_ne hcb, modify_bucket_ne T hcb, freeLists]

/-- `allocate` of a single thread. -/
theorem stackStep_allocate (hT : T.Wf L X) {r : Except OverflowError (TinyPtr L × Slot)}
    (ha : T.allocate L X t h special = (r, T')) :
    StackStep X (T.freeLists L) (.allocate h special : DtCall L ω) (.allocated r)
      (T'.freeLists L) := by
  have hlists := hT.lists (T.chosen X h) chosen_lt
  rw [Table.allocate, Table.take] at ha
  split_ifs at ha with h0
  · obtain ⟨rfl, rfl⟩ := Prod.mk.inj ha
    have hempty : T.freeLists L ((T.freeLists L).chosen X h) = [] := by
      rw [chosen_freeLists]
      exact List.eq_nil_of_length_eq_zero ((length_freeLists _).trans h0)
    have hsame : (T.modify (T.chosen X h) Bucket.touch).freeLists L = T.freeLists L := by
      rw [freeLists_of_bucket rfl]
      exact Function.update_eq_self _ _
    rw [hsame]
    exact .overflow hempty
  · obtain ⟨rfl, hT'⟩ := Prod.mk.inj ha
    have htop : T.freeLists L ((T.freeLists L).chosen X h) =
        (T.headSlot (T.chosen X h)).index :: ((T.bucket (T.chosen X h)).take L).freeList L := by
      rw [chosen_freeLists]
      exact Bucket.freeList_take hlists h0
    have hstep : StackStep X (T.freeLists L) (.allocate h special : DtCall L ω) _ _ :=
      .allocate htop
    rw [hashBit_freeLists, chosen_freeLists] at hstep
    rw [Stacks.pop, show T.freeLists L (T.chosen X h) = _ from Bucket.freeList_take
      hlists h0] at hstep
    rw [freeLists_of_bucket (congrArg Table.bucket hT').symm]
    exact hstep

/-- `free` of a single thread. -/
theorem stackStep_free (hT : T.Wf L X) {a : Allocation L} (hs : a.slot ∈ T.held)
    (hslot : DerefTable.slotOf X a.ptr a.hashes = a.slot) :
    StackStep X (T.freeLists L) (.free a : DtCall L ω) .done
      ((T.free L X t a.ptr a.hashes).freeLists L) := by
  obtain ⟨hb, hlt⟩ := hT.held_lt _ hs
  have hnot : a.slot.index ∉ freeIn L T.held a.slot.bucket := fun hf => hf.2 hs
  have hbucket : (T.free L X t a.ptr a.hashes).bucket = (T.modify a.slot.bucket fun B =>
    B.give L a.slot.index).bucket := by
    rw [Table.free, hslot, Table.give]
  rw [freeLists_of_bucket hbucket, Bucket.freeList_give (hT.lists _ hb) hlt hnot]
  exact .free

end Table

end Sequential

/-! ### Calls that take effect in the past -/

/-- What a call of `allocate` has validated: which hash value it uses, and the lock of its
bucket. -/
structure Validated where
  /-- The hash bit. -/
  bit : Bool
  /-- The lock. -/
  lock : OptimisticLock

namespace Stacks

/-- The stacks after a call. -/
def effect (S : Stacks) : DtCall L ω → DtRet L → Stacks
  | .allocate _ _, .allocated (.ok (_, s)) => S.pop s.bucket
  | .free a, _ => S.push a.slot
  | _, _ => S

/-- The call takes from the stack it has validated. -/
def Fits (X : BucketIndexer) (S : Stacks) : DtCall L ω → Validated → Prop
  | .allocate h _, v => S.hashBit X h = v.bit ∧ S.chosen X h = v.lock.bucket
  | _, _ => False

/-- A call that does not change the stack. -/
def Apart (v : Validated) : DtCall L ω → DtRet L → Prop
  | .allocate _ _, .allocated (.ok (_, s)) => s.bucket ≠ v.lock.bucket
  | .free a, _ => a.slot.bucket ≠ v.lock.bucket
  | _, _ => True

variable {S : Stacks} {h : TinyPtrHashes} {b c : ℕ} {s : Slot}

@[simp] theorem pop_self : S.pop b b = (S b).tail := Function.update_self ..

@[simp] theorem pop_of_ne (hcb : c ≠ b) : S.pop b c = S c := Function.update_of_ne hcb ..

theorem length_pop_le : (S.pop b c).length ≤ (S c).length := by
  by_cases hcb : c = b
  · subst hcb
    rw [pop_self, List.length_tail]
    exact Nat.sub_le _ _
  · rw [pop_of_ne hcb]

theorem pop_pop (hcb : c ≠ b) : (S.pop b).pop c = (S.pop c).pop b := by
  rw [pop, pop_of_ne hcb, pop, pop, pop_of_ne (Ne.symm hcb), pop, Function.update_comm hcb]

theorem push_pop (hs : s.bucket ≠ b) : (S.pop b).push s = (S.push s).pop b := by
  have hb : S.push s b = S b := Function.update_of_ne (Ne.symm hs) ..
  rw [pop.eq_1 (S.push s), hb, push, pop_of_ne hs, pop, push, Function.update_comm hs]

/-- Which stack is chosen does not depend on the other one being shorter. -/
theorem hashBit_pop (hb : S.chosen X h ≠ b) : (S.pop b).hashBit X h = S.hashBit X h := by
  have h₁ : (S.pop b (X.index h.1)).length ≤ _ := length_pop_le
  have h₂ : (S.pop b (X.index h.2)).length ≤ _ := length_pop_le
  unfold chosen at hb
  cases hbit : S.hashBit X h with
  | true =>
    rw [hbit, if_pos rfl] at hb
    rw [hashBit, decide_eq_true_eq] at hbit ⊢
    rw [pop_of_ne hb]
    omega
  | false =>
    rw [hbit, if_neg Bool.false_ne_true] at hb
    rw [hashBit, decide_eq_false_iff_not] at hbit ⊢
    rw [pop_of_ne hb]
    omega

theorem chosen_pop (hb : S.chosen X h ≠ b) : (S.pop b).chosen X h = S.chosen X h := by
  unfold chosen
  rw [hashBit_pop hb]

end Stacks

variable (L ω X) in
/-- Stacks, and what `allocate` validates. -/
def stackObject :
    LogObject Stacks (DtCall L ω) (DtRet L) Validated :=
  ⟨StackStep X, Stacks.effect, Stacks.Fits X, Stacks.Apart⟩

section Past

variable {S S' : Stacks} {c : DtCall L ω} {r : DtRet L} {v : Validated}

theorem StackStep.effect_eq (h : StackStep X S c r S') : S.effect c r = S' := by
  cases h <;> rfl

/-- A call leaves a stack alone from which it is apart. -/
theorem Stacks.effect_apart (h : Stacks.Apart v c r) :
    S.effect c r v.lock.bucket = S v.lock.bucket := by
  unfold Stacks.effect
  split
  · exact Function.update_of_ne (Ne.symm h) ..
  · exact Function.update_of_ne (Ne.symm h) ..
  · rfl

/-- What is done to other stacks can be done as well when the top of this one has been taken. -/
theorem StackStep.pop {b i : ℕ} {rest : List ℕ} (h : StackStep X S c r S') (hb : S b = i :: rest)
    (hapart : ∀ w : Validated, w.lock.bucket = b → Stacks.Apart w c r) :
    StackStep X (S.pop b) c r (S'.pop b) := by
  cases h with
  | @allocate h special j rest' hj =>
    have hne : S.chosen X h ≠ b := hapart ⟨false, b, 0⟩ rfl
    have hother : S.pop b ((S.pop b).chosen X h) = j :: rest' := by
      rw [Stacks.chosen_pop hne, Stacks.pop_of_ne hne, hj]
    have hstep : StackStep X (S.pop b) (.allocate h special : DtCall L ω) _ _ := .allocate hother
    rwa [Stacks.hashBit_pop hne, Stacks.chosen_pop hne, Stacks.pop_pop hne] at hstep
  | @overflow h special size h0 =>
    have hne : S.chosen X h ≠ b := by
      rintro rfl
      rw [hb] at h0
      cases h0
    exact .overflow (by rw [Stacks.chosen_pop hne, Stacks.pop_of_ne hne, h0])
  | @free a =>
    have hne : a.slot.bucket ≠ b := hapart ⟨false, b, 0⟩ rfl
    rw [← Stacks.push_pop hne]
    exact .free
  | write => exact .write

/-- An entry that is on top of a stack since it was validated may be taken at that time. -/
theorem commutes_allocate {live : Validated → Prop} {h : TinyPtrHashes} {special i : ℕ}
    {rest : List ℕ} (hlive : ∀ w, live w → w.lock.bucket ≠ v.lock.bucket) :
    (stackObject L ω X).Commutes live (fun S => S v.lock.bucket = i :: rest) v (.allocate h special)
      (.allocated (.ok (.ofFields i special v.bit, ⟨v.lock.bucket, i⟩))) := by
  refine ⟨fun S hS hfits => ?_, fun S d q hapart => ?_, fun S d q hS hapart hstep => ?_,
    fun S d w hw hS hfits => ?_⟩
  · obtain ⟨hbit, hchosen⟩ := hfits
    have hstep : StackStep X S (.allocate h special : DtCall L ω) _ _ :=
      .allocate (hchosen.symm ▸ hS)
    rw [hbit, hchosen] at hstep
    exact hstep
  · rw [show (stackObject L ω X).effect S d q v.lock.bucket = _ from Stacks.effect_apart hapart]
  · have hpop : StackStep X (S.pop v.lock.bucket) d q ((S.effect d q).pop v.lock.bucket) := by
      refine StackStep.pop hstep hS fun w hw => ?_
      change Stacks.Apart v d q at hapart
      unfold Stacks.Apart at hapart ⊢
      rwa [hw]
    have heq : (stackObject L ω X).effect (S.pop v.lock.bucket) d q = _ := hpop.effect_eq
    exact ⟨heq ▸ hpop, heq⟩
  · cases d with
    | allocate h' special' =>
      obtain ⟨hbit, hchosen⟩ := hfits
      have hne : S.chosen X h' ≠ v.lock.bucket := hchosen ▸ hlive w hw
      exact ⟨(Stacks.hashBit_pop hne).trans hbit, (Stacks.chosen_pop hne).trans hchosen⟩
    | free => exact hfits.elim
    | write => exact hfits.elim

/-- A stack that is empty since it was validated was empty at that time. -/
theorem commutes_overflow {live : Validated → Prop} {h : TinyPtrHashes} {special size : ℕ} :
    (stackObject L ω X).Commutes live (fun S => S v.lock.bucket = []) v (.allocate h special)
      (.allocated (.error ⟨size, DerefTable.capacity L X⟩)) := by
  refine ⟨fun S hS hfits => ?_, fun S d q hapart => ?_, fun S d q _ _ hstep => ⟨hstep, rfl⟩,
    fun S d w _ _ hfits => hfits⟩
  · obtain ⟨-, hchosen⟩ := hfits
    exact .overflow (hchosen.symm ▸ hS)
  · rw [show (stackObject L ω X).effect S d q v.lock.bucket = _ from Stacks.effect_apart hapart]

end Past

end TinyPointerTrees
