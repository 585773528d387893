import TinyPointerTrees.Library.RelyGuarantee
import TinyPointerTrees.Art.Tree

/-!
# Threads that share a tiny ART

Any number of threads call `insert` and `lookup` on one tree, and their accesses to
the memory interleave. Beside the memory, a state has the calls that have returned,
each with the times at which it began and ended, so that one can say what a run has
answered (`Lawful`).

A run is `Bounded` if no entry of a table is reclaimed in it, and if no node has more
write sections than its lock word can tell apart from none by a wide margin.
-/

namespace TinyPointerTrees.Art

open Conc ArtM

/-- What a thread may call. -/
inductive ArtCall where
  /-- `insert(k, tid)`. -/
  | insert (k : Key) (tid : UInt64)
  /-- `lookup(k)`. -/
  | lookup (k : Key)

/-- What a call answers, if it is not left early; `insert` answers nothing. -/
abbrev ArtRet := Except Leave (Option UInt64)

/-- A call that has returned, or was left early. -/
structure Returned where
  /-- The call. -/
  call : ArtCall
  /-- What it answered. -/
  answer : ArtRet
  /-- When it began. -/
  began : ℕ
  /-- When it ended. -/
  ended : ℕ

/-- What the threads share, and what they have done. -/
structure SharedTree (V : Variant) where
  /-- The memory of the tree. -/
  heap : Heap V
  /-- How many calls have begun or ended. -/
  time : ℕ
  /-- When a thread began its last call. -/
  began : ℕ → ℕ
  /-- The insertions that have begun. -/
  called : List (Key × UInt64)
  /-- The calls that have ended. -/
  returned : List Returned

variable {V : Variant}

/-- Nothing has been called. -/
def SharedTree.initial (s : Heap V) : SharedTree V := ⟨s, 0, fun _ => 0, [], []⟩

/-- How an insertion of `k` fails. -/
def Fails (k : Key) : Leave → Prop
  | .overflow _ => True
  | .outOfBounds => k = []
  | _ => False

/-- What is expected of the calls that have ended. -/
structure Lawful (called : List (Key × UInt64)) (returned : List Returned) : Prop where
  /-- An insertion that returned before a lookup began is not lost. -/
  found : ∀ i ∈ returned, ∀ l ∈ returned, ∀ k tid r, i.call = .insert k tid → i.answer = .ok none →
    l.call = .lookup k → l.answer = .ok (some r) → i.ended < l.began → r = tid
  /-- A lookup answers zero, or what its key was inserted with. -/
  own : ∀ l ∈ returned, ∀ k r, l.call = .lookup k → l.answer = .ok (some r) →
    r ≠ 0 → (k, r) ∈ called
  /-- A lookup that ends has answered. -/
  answers : ∀ l ∈ returned, ∀ k, l.call = .lookup k → ∃ r, l.answer = .ok (some r)
  /-- An insertion that ends has returned, or it fails. -/
  fails : ∀ i ∈ returned, ∀ k tid e, i.call = .insert k tid → i.answer = .error e → Fails k e

/-- No key is a prefix of another. -/
def PrefixFree (U : Set Key) : Prop := ∀ k ∈ U, ∀ k' ∈ U, k <+: k' → k = k'

section Machine

variable (A : Tree V) (ids : ℕ → UInt64) (U : Set Key)

/-- The program of a call. -/
def artCode : ArtCall → Prog (ArtOp V) ArtRet
  | .insert k tid => ((fun _ => none) <$> A.insert k tid).run
  | .lookup k => (some <$> A.lookup k).run

/-- Keys are those of `U`, and a key is inserted once, with a value for which `loadKey` answers
it. -/
def artInvoke (t : ℕ) : ArtCall → SharedTree V → SharedTree V → Prop
  | .insert k tid, x, y => k ∈ U ∧ A.loadKey tid = k ∧ tid ≠ 0 ∧ (∀ v, (k, v) ∉ x.called) ∧
    y = { x with
      time := x.time + 1
      began := Function.update x.began t x.time
      called := (k, tid) :: x.called }
  | .lookup k, x, y => k ∈ U ∧ y = { x with
      time := x.time + 1
      began := Function.update x.began t x.time }

/-- The end of a call is recorded. -/
def artFinish (t : ℕ) (a : ArtCall) (r : ArtRet) (x y : SharedTree V) : Prop :=
  y = { x with
    time := x.time + 1
    returned := ⟨a, r, x.began t, x.time⟩ :: x.returned }

/-- Threads that share a tree. -/
def artMachine : Machine (ArtOp V) (SharedTree V) ℕ ArtCall ArtRet where
  sem t o x b y := b = (o.exec A.indexer ids t x.heap).1 ∧
    y = { x with heap := (o.exec A.indexer ids t x.heap).2 }
  code := artCode A
  invoke := artInvoke A U
  finish := artFinish

/-- How many write sections of a node have ended, as its lock word counts them; the count of a new
node begins at one. -/
def writeSections (w : UInt64) : ℕ := w.toNat % 2 ^ 62 / 4

/-- A write section begins only if there were no more than `2 ^ 59` before, as the word counts them,
and the end of an epoch does not reclaim anything. -/
def Bounded {β : Type} (t : ℕ) : ArtOp V β → SharedTree V → Prop
  | .compareExchange n _ _, x => writeSections (x.heap.get n).typeVersionLockObsolete ≤ 2 ^ 59
  | .exitEpocheAndCleanup, x => ∃ s ∈ x.heap.exitEpocheAndCleanup A.indexer t,
      s.tables = x.heap.tables
  | _, _ => True

/-- The machine, in runs that are bounded. -/
abbrev boundedMachine : Machine (ArtOp V) (SharedTree V) ℕ ArtCall ArtRet :=
  (artMachine A ids U).restrict fun t o x => Bounded A t o x

end Machine

end TinyPointerTrees.Art
