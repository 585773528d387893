import Mathlib.Data.Finset.Insert
import TinyPointerTrees.Art.Tree

/-!
# Epoch based reclamation

`Epoche.cpp` of `art/tiny_art` under any number of threads, with the part of
`Tree.cpp` and `N.cpp` that decides which slots are in use: how a thread comes by a
pointer, what it locks, and in which order it publishes, unlocks, declares obsolete
and marks for deletion. The state is a `World`, and a `Move` is a step of a thread:
`enterEpoche` loads `currentEpoche` and stores `localEpoche` in two steps, and
`exitEpocheAndCleanup` makes a step of every `localEpoche` it looks at and of every
slot it frees.

Of a node there is the lock word, a `UInt64` that may wrap around, the length of the
prefix, and the children: the tiny pointer at a byte together with the hash values
with which it is dereferenced, for `id` does not change once a node can be reached.
What is under construction is built in one step, as nobody else has a pointer to it.
Moves are a little freer than the code: a thread may go on at any node of which it
has a pointer and come back to what it read before, and any call may go on to write.

A thread is inside a call from `enterEpoche` until the call returns, or until its
`exitEpocheAndCleanup` withdraws its epoch. `held` are the pointers that it obtained
there, read and validated.
-/

namespace TinyPointerTrees.Art.Reclamation

/-- A child pointer, with the hash values with which it is dereferenced. -/
abbrev Ptr := PendingDelete .olc

/-- A node or a leaf. -/
structure Node where
  /-- `typeVersionLockObsolete`. -/
  word : UInt64
  /-- `prefixCount`. -/
  prefixCount : ℕ
  /-- The children. -/
  child : UInt8 → Option Ptr

/-- What a thread that has its locks has yet to do. -/
inductive Act where
  /-- `N::change`, and `insert` into the node that is locked. -/
  | change (n : Ref) (k : UInt8) (q : Ptr)
  /-- `writeUnlock`. -/
  | unlock (n : Ref)
  /-- `writeUnlockObsolete`. -/
  | obsolete (n : Ref)
  /-- `markNodeForDeletion`. -/
  | mark (p : Ptr)
  deriving DecidableEq

deriving instance DecidableEq for LabelDelete

/-- Where a thread is. -/
inductive Phase where
  /-- Outside of any call. -/
  | idle
  /-- In `enterEpoche`, after the load. -/
  | entering (curEpoche : UInt64)
  /-- Reading optimistically. -/
  | reading
  /-- A node is locked, of which `v` was the lock word. -/
  | holding (n : Ref) (v : UInt64)
  /-- A node is locked, and so is its child at `k`. -/
  | both (n : Ref) (k : UInt8) (p : Ptr)
  /-- Everything that is needed is built. -/
  | writing (todo : List Act)
  /-- At the start of `exitEpocheAndCleanup`. -/
  | leaving
  /-- After `currentEpoche++`. -/
  | cleaning
  /-- After the epoch of the thread was withdrawn. -/
  | withdrawn
  /-- In the loop over the deletion lists, of which some are left. -/
  | scanning (rest : List ℕ) (oldestEpoche : UInt64)
  /-- In the loop over the labels: those that stay, the nodes of the current label that are left,
  and the labels that are left. -/
  | freeing (oldestEpoche : UInt64) (kept : List (LabelDelete .olc)) (nodes : List Ptr)
      (rest : List (LabelDelete .olc))
  deriving DecidableEq

/-- What a thread read: the child of a node at a byte, under a lock word. -/
structure Link where
  /-- The node. -/
  node : Ref
  /-- The lock word. -/
  v : UInt64
  /-- The byte. -/
  key : UInt8
  /-- The child, if there is one. -/
  child : Option Ptr
  deriving DecidableEq

/-- A thread, with what it read in its call. -/
structure Thread where
  /-- Where it is. -/
  phase : Phase := .idle
  /-- The lock words that `readLockOrRestart` returned. -/
  versions : List (Ref × UInt64) := []
  /-- The children that were read. -/
  links : List Link := []
  /-- The pointers that were read and validated. -/
  held : List Ref := []
  /-- `deletionLists.local()`. -/
  deletionList : DeletionList .olc := {}

/-- The state. -/
structure World where
  /-- The nodes. -/
  node : Ref → Node
  /-- The slots that are allocated. -/
  live : Finset Ref
  /-- `currentEpoche`. -/
  currentEpoche : UInt64
  /-- How often `currentEpoche` was increased. -/
  increments : ℕ
  /-- The threads that have a deletion list, in the order of `deletionLists`. -/
  threads : List ℕ
  /-- The threads. -/
  thread : ℕ → Thread

/-- The steps of a thread. -/
inductive Move where
  /-- `ThreadInfo(epoche)`. -/
  | register
  /-- `~ThreadInfo`. -/
  | unregister
  /-- The load of `enterEpoche`. -/
  | loadEpoche
  /-- The store of `enterEpoche`. -/
  | storeEpoche (curEpoche : UInt64)
  /-- `readLockOrRestart` that does not restart. -/
  | readLock (n : Ref)
  /-- `getChild` and `getAnyChild`. -/
  | getChild (l : Link)
  /-- `checkOrRestart` and `readUnlockOrRestart` that do not restart. -/
  | check (l : Link) (p : Ptr)
  /-- `upgradeToWriteLockOrRestart` of the first node. -/
  | upgrade (l : Link)
  /-- `upgradeToWriteLockOrRestart` of its child, and `writeLockOrRestart` of a leaf. -/
  | lockChild (n : Ref) (v : UInt64) (k : UInt8) (p : Ptr) (w : UInt64)
  /-- `writeUnlock` of the first node when the second one cannot be locked. -/
  | unlockBack (n : Ref) (v : UInt64)
  /-- `goto restart` when the leaf cannot be locked: the node stays locked. -/
  | restart (n : Ref) (v : UInt64)
  /-- The exception of a full table: locks stay, and so do slots that nothing points to, whatever is
  in them. -/
  | overflow (slots : List Ref)
  /-- `insertGrow` of a node that is not full: the new leaf. -/
  | insertInPlace (n : Ref) (v : UInt64) (k : UInt8) (leaf : Ptr)
  /-- `insertGrow` of a node that is full: `nBig`, and the new leaf at `key`. -/
  | grow (n : Ref) (k : UInt8) (p nBig : Ptr) (key : UInt8) (leaf : Ptr)
  /-- The case `NoMatch` of `insert`, behind `m` bytes of the prefix: `newNode`, with the new leaf
  and the node that is relocated. -/
  | splitPrefix (n : Ref) (k : UInt8) (p newNode : Ptr) (b : UInt8) (leaf : Ptr) (c : UInt8)
      (newCurNode : Ptr) (m : ℕ)
  /-- The case of `insert` in which the child is a leaf: `n4`, with a prefix and the two leaves. -/
  | splitLeaf (n : Ref) (k : UInt8) (p n4 : Ptr) (c : UInt8) (leaf : Ptr) (d : UInt8)
      (newNextNodeLeaf : Ptr) (prefixLength : ℕ)
  /-- The next of what there is to do. -/
  | write (a : Act) (rest : List Act)
  /-- The end of `insert`. -/
  | endInsert
  /-- An exception leaves `insert`. -/
  | abandon
  /-- The end of `lookup`. -/
  | endLookup
  /-- The first lines of `exitEpocheAndCleanup`. -/
  | countEpoche
  /-- It is too early to clean up. -/
  | keep
  /-- There is nothing to clean up. -/
  | nothing
  /-- The epoch of the thread is withdrawn. -/
  | withdraw
  /-- The loop over the deletion lists starts. -/
  | startScan
  /-- The loop over the deletion lists looks at one. -/
  | scan (u : ℕ) (rest : List ℕ) (oldestEpoche : UInt64)
  /-- The loop over the labels starts. -/
  | startFree (oldestEpoche : UInt64)
  /-- A label is older than all epochs. -/
  | old (oldestEpoche : UInt64) (kept : List (LabelDelete .olc)) (l : LabelDelete .olc)
      (rest : List (LabelDelete .olc))
  /-- A label is not older than all epochs. -/
  | young (oldestEpoche : UInt64) (kept : List (LabelDelete .olc)) (l : LabelDelete .olc)
      (rest : List (LabelDelete .olc))
  /-- `deref_tables.free`. -/
  | free (oldestEpoche : UInt64) (kept : List (LabelDelete .olc)) (p : Ptr) (nodes : List Ptr)
      (rest : List (LabelDelete .olc))
  /-- The end of `exitEpocheAndCleanup`. -/
  | done (oldestEpoche : UInt64) (kept : List (LabelDelete .olc))

/-- The thread may read lock words. -/
def Phase.reads : Phase → Bool
  | .reading => true
  | .holding _ _ => true
  | _ => false

/-- The thread has locks and may allocate. -/
def Phase.allocates : Phase → Bool
  | .holding _ _ => true
  | .both _ _ _ => true
  | _ => false

/-- Forget what was read: the call is over. -/
def Thread.leave (r : Thread) (phase : Phase) : Thread :=
  { r with phase := phase, versions := [], links := [], held := [] }

/-- The lock word of a new node in a table. -/
def newWord (special : ℕ) : UInt64 := 0b100 + convertTypeToVersion special

/-- A new node, with the length of its prefix, or a new leaf. -/
def Node.new (p : Ptr) (prefixCount : ℕ) : Node := ⟨newWord p.1.special, prefixCount, fun _ => none⟩

/-- `insert` and `change`. -/
def Node.setChild (o : Node) (k : UInt8) (q : Ptr) : Node :=
  { o with child := Function.update o.child k (some q) }

/-- `getType`, from the lock word, is the class of the table the node is in. Otherwise a member of
another class is called, or of none. -/
def Node.Typed (o : Node) (n : Ref) : Prop := (o.word >>> 62).toNat = n.special ∧ n.special ≠ leafS

instance (o : Node) (n : Ref) : Decidable (o.Typed n) := inferInstanceAs (Decidable (_ ∧ _))

namespace World

/-- Change a thread. -/
def setThread (s : World) (t : ℕ) (r : Thread) : World :=
  { s with thread := Function.update s.thread t r }

/-- Change where a thread is. -/
def setPhase (s : World) (t : ℕ) (phase : Phase) : World :=
  s.setThread t { s.thread t with phase := phase }

/-- Change a node. -/
def setNode (s : World) (n : Ref) (o : Node) : World :=
  { s with node := Function.update s.node n o }

/-- `fetch_add` on a lock word. -/
def fetchAdd (s : World) (n : Ref) (d : UInt64) : World :=
  s.setNode n { s.node n with word := (s.node n).word + d }

/-- Allocate slots and construct what is in them. -/
def build (s : World) (new : List (Ref × Node)) : World :=
  { s with
    node := fun n => (new.lookup n).getD (s.node n)
    live := (new.map Prod.fst).toFinset ∪ s.live }

/-- Slots that can be allocated. -/
def Fresh (s : World) (slots : List Ref) : Prop := slots.Nodup ∧ ∀ x ∈ slots, x ∉ s.live

instance (s : World) (slots : List Ref) : Decidable (s.Fresh slots) :=
  inferInstanceAs (Decidable (_ ∧ _))

/-- No thread, and a root without children. -/
def initial (root : Ref) : World where
  node n := ⟨newWord n.special, 0, fun _ => none⟩
  live := {root}
  currentEpoche := 0
  increments := 0
  threads := []
  thread _ := {}

end World

section Moves

variable (X : ℕ → BucketIndexer) (root : Ref) (startGCThreshhold : ℕ)

/-- The address that a pointer denotes. -/
def target (p : Ptr) : Ref := Heap.refOf X p.1 p.2

/-- A thread can make a step. -/
def Enabled (s : World) (t : ℕ) : Move → Prop
  | .register => (s.thread t).phase = .idle ∧ t ∉ s.threads
  | .unregister => (s.thread t).phase = .idle ∧ t ∈ s.threads
  | .loadEpoche => (s.thread t).phase = .idle ∧ t ∈ s.threads
  | .storeEpoche e => (s.thread t).phase = .entering e
  | .readLock n => (s.thread t).phase.reads = true ∧ (n = root ∨ n ∈ (s.thread t).held) ∧
      (isLocked (s.node n).word || isObsolete (s.node n).word) = false
  | .getChild l => (s.thread t).phase = .reading ∧ (l.node, l.v) ∈ (s.thread t).versions ∧
      (s.node l.node).Typed l.node ∧ (s.node l.node).child l.key = l.child
  | .check l p => (s.thread t).phase = .reading ∧ l ∈ (s.thread t).links ∧ l.child = some p ∧
      (s.node l.node).word = l.v
  | .upgrade l => (s.thread t).phase = .reading ∧ l ∈ (s.thread t).links ∧
      (s.node l.node).word = l.v
  | .lockChild n v k p w => (s.thread t).phase = .holding n v ∧
      ⟨n, v, k, some p⟩ ∈ (s.thread t).links ∧ target X p ∈ (s.thread t).held ∧
      (target X p, w) ∈ (s.thread t).versions ∧ (s.node (target X p)).word = w
  | .unlockBack n v => (s.thread t).phase = .holding n v
  | .restart n v => (s.thread t).phase = .holding n v
  | .overflow slots => (s.thread t).phase.allocates = true ∧ s.Fresh slots
  | .insertInPlace n v k leaf => (s.thread t).phase = .holding n v ∧
      ⟨n, v, k, none⟩ ∈ (s.thread t).links ∧ isLeaf leaf.1 = true ∧ s.Fresh [target X leaf]
  | .grow n k p nBig _ leaf => (s.thread t).phase = .both n k p ∧ isLeaf p.1 = false ∧
      isLeaf leaf.1 = true ∧ s.Fresh [target X leaf, target X nBig]
  | .splitPrefix n k p newNode b leaf c newCurNode m => (s.thread t).phase = .both n k p ∧
      isLeaf p.1 = false ∧ isLeaf leaf.1 = true ∧ newCurNode.1.special = p.1.special ∧
      m < (s.node (target X p)).prefixCount ∧ b ≠ c ∧
      s.Fresh [target X leaf, target X newCurNode, target X newNode]
  | .splitLeaf n k p n4 c leaf d newNextNodeLeaf prefixLength => (s.thread t).phase = .both n k p ∧
      isLeaf p.1 = true ∧ isLeaf leaf.1 = true ∧ isLeaf newNextNodeLeaf.1 = true ∧
      prefixLength < 2 ^ 32 ∧ c ≠ d ∧ s.Fresh [target X leaf, target X newNextNodeLeaf, target X n4]
  | .write a rest => (s.thread t).phase = .writing (a :: rest)
  | .endInsert => (s.thread t).phase = .writing []
  | .abandon => (s.thread t).phase = .reading
  | .endLookup => (s.thread t).phase = .reading
  | .countEpoche => (s.thread t).phase = .leaving
  | .keep => (s.thread t).phase = .cleaning ∧
      ¬(s.thread t).deletionList.thresholdCounter > startGCThreshhold
  | .nothing => (s.thread t).phase = .cleaning ∧
      (s.thread t).deletionList.thresholdCounter > startGCThreshhold ∧
      (s.thread t).deletionList.size = 0
  | .withdraw => (s.thread t).phase = .cleaning ∧
      (s.thread t).deletionList.thresholdCounter > startGCThreshhold ∧
      (s.thread t).deletionList.size ≠ 0
  | .startScan => (s.thread t).phase = .withdrawn
  | .scan u rest oldestEpoche => (s.thread t).phase = .scanning (u :: rest) oldestEpoche
  | .startFree oldestEpoche => (s.thread t).phase = .scanning [] oldestEpoche
  | .old oldestEpoche kept l rest =>
      (s.thread t).phase = .freeing oldestEpoche kept [] (l :: rest) ∧ l.epoche < oldestEpoche
  | .young oldestEpoche kept l rest =>
      (s.thread t).phase = .freeing oldestEpoche kept [] (l :: rest) ∧ ¬l.epoche < oldestEpoche
  | .free oldestEpoche kept p nodes rest =>
      (s.thread t).phase = .freeing oldestEpoche kept (p :: nodes) rest
  | .done oldestEpoche kept => (s.thread t).phase = .freeing oldestEpoche kept [] []

instance (s : World) (t : ℕ) (m : Move) : Decidable (Enabled X root startGCThreshhold s t m) := by
  cases m <;> unfold Enabled <;> infer_instance

/-- What an act of a thread does. -/
def act (s : World) (t : ℕ) : Act → World
  | .change n k q => s.setNode n ((s.node n).setChild k q)
  | .unlock n => s.fetchAdd n 0b10
  | .obsolete n => s.fetchAdd n 0b11
  | .mark p => s.setThread t { s.thread t with
      deletionList := { (s.thread t).deletionList.add p s.currentEpoche with
        thresholdCounter := (s.thread t).deletionList.thresholdCounter + 1 } }

/-- What a step does. -/
def after (s : World) (t : ℕ) : Move → World
  | .register => { s with threads := s.threads ++ [t] }
  | .unregister => s.setThread t { s.thread t with
      deletionList := { (s.thread t).deletionList with localEpoche := UInt64.ofNat (2 ^ 64 - 1) } }
  | .loadEpoche => s.setPhase t (.entering s.currentEpoche)
  | .storeEpoche e => s.setThread t { s.thread t with
      phase := .reading
      deletionList := { (s.thread t).deletionList with localEpoche := e } }
  | .readLock n => s.setThread t { s.thread t with
      versions := (n, (s.node n).word) :: (s.thread t).versions }
  | .getChild l => s.setThread t { s.thread t with links := l :: (s.thread t).links }
  | .check _ p => s.setThread t { s.thread t with held := target X p :: (s.thread t).held }
  | .upgrade l => (s.fetchAdd l.node 0b10).setPhase t (.holding l.node l.v)
  | .lockChild n _ k p _ => (s.fetchAdd (target X p) 0b10).setPhase t (.both n k p)
  | .unlockBack n _ => (s.fetchAdd n 0b10).setPhase t .reading
  | .restart _ _ => s.setPhase t .reading
  | .overflow slots => (s.build (slots.map fun x =>
      (x, ⟨newWord x.special, 0, fun _ => none⟩))).setPhase t .leaving
  | .insertInPlace n _ k leaf => (s.build [(target X leaf, .new leaf 0)]).setPhase t
      (.writing [.change n k leaf, .unlock n])
  | .grow n k p nBig key leaf =>
      (s.build [(target X leaf, .new leaf 0),
        (target X nBig, Node.setChild { s.node (target X p) with
          word := newWord nBig.1.special } key leaf)]).setPhase t
      (.writing [.change n k nBig, .obsolete (target X p), .mark p, .unlock n])
  | .splitPrefix n k p newNode b leaf c newCurNode m =>
      (s.build [(target X leaf, .new leaf 0),
        (target X newCurNode, { s.node (target X p) with
          word := (s.node (target X p)).word + 0b10
          prefixCount := (s.node (target X p)).prefixCount - (m + 1) }),
        (target X newNode,
          ((Node.new newNode m).setChild b leaf).setChild c newCurNode)]).setPhase t
      (.writing [.change n k newNode, .unlock n, .obsolete (target X p), .mark p])
  | .splitLeaf n k p n4 c leaf d newNextNodeLeaf prefixLength =>
      (s.build [(target X leaf, .new leaf 0), (target X newNextNodeLeaf, .new newNextNodeLeaf 0),
        (target X n4,
          ((Node.new n4 prefixLength).setChild c leaf).setChild d newNextNodeLeaf)]).setPhase t
      (.writing [.obsolete (target X p), .mark p, .change n k n4, .unlock n])
  | .write a rest => (act s t a).setPhase t (.writing rest)
  | .endInsert => s.setPhase t .leaving
  | .abandon => s.setPhase t .leaving
  | .endLookup => s.setThread t ((s.thread t).leave .idle)
  | .countEpoche =>
      if (s.thread t).deletionList.thresholdCounter % 64 = 1 then
        { s.setPhase t .cleaning with
          currentEpoche := s.currentEpoche + 1
          increments := s.increments + 1 }
      else s.setPhase t .cleaning
  | .keep => s.setThread t ((s.thread t).leave .idle)
  | .nothing => s.setThread t { (s.thread t).leave .idle with
      deletionList := { (s.thread t).deletionList with thresholdCounter := 0 } }
  | .withdraw => s.setThread t { (s.thread t).leave .withdrawn with
      deletionList := { (s.thread t).deletionList with localEpoche := UInt64.ofNat (2 ^ 64 - 1) } }
  | .startScan => s.setPhase t (.scanning s.threads (UInt64.ofNat (2 ^ 64 - 1)))
  | .scan u rest oldestEpoche => s.setPhase t (.scanning rest
      (if (s.thread u).deletionList.localEpoche < oldestEpoche then
        (s.thread u).deletionList.localEpoche
      else oldestEpoche))
  | .startFree oldestEpoche =>
      s.setPhase t (.freeing oldestEpoche [] [] (s.thread t).deletionList.labels)
  | .old oldestEpoche kept l rest => s.setPhase t (.freeing oldestEpoche kept l.nodes rest)
  | .young oldestEpoche kept l rest => s.setPhase t (.freeing oldestEpoche (kept ++ [l]) [] rest)
  | .free oldestEpoche kept p nodes rest =>
      { s.setPhase t (.freeing oldestEpoche kept nodes rest) with
        live := s.live.erase (target X p) }
  | .done _ kept => s.setThread t { s.thread t with
      phase := .idle
      deletionList := { (s.thread t).deletionList with labels := kept, thresholdCounter := 0 } }

/-- The states that any number of threads reach, in any order of steps. -/
inductive Reach : World → Prop
  | initial : Reach (.initial root)
  | step {s : World} {t : ℕ} {m : Move} (h : Reach s)
      (he : Enabled X root startGCThreshhold s t m) : Reach (after X s t m)

/-- The steps can be made one after another. -/
def Allowed : World → List (ℕ × Move) → Prop
  | _, [] => True
  | s, (t, m) :: ms => Enabled X root startGCThreshhold s t m ∧ Allowed (after X s t m) ms

instance Allowed.decidable :
    (s : World) → (ms : List (ℕ × Move)) → Decidable (Allowed X root startGCThreshhold s ms)
  | _, [] => isTrue trivial
  | s, (t, m) :: ms => @instDecidableAnd _ _ _ (Allowed.decidable (after X s t m) ms)

/-- The state after some steps. -/
def run (s : World) (ms : List (ℕ × Move)) : World := ms.foldl (fun s m => after X s m.1 m.2) s

end Moves

end TinyPointerTrees.Art.Reclamation
