import TinyPointerTrees.Library.Throwing
import TinyPointerTrees.Art.Node

/-!
# The tiny ART

`Tree.cpp`, `N.cpp`, `ArtDerefTables.h` and `Epoche.cpp` of the three trees. A call
is a program over the operations `ArtOp`: loads, compare-and-swaps and additions on
a lock word, reads of a node, writes of a node, allocations, and the calls of the
epoch based reclamation. `ArtOp.exec` says what one operation does; it serves the
calls of a single thread and the interleavings of many.

The program text is that of the sources: a restart is a `Leave.restart` with which
the code is left, as `goto restart` leaves it, and the exception of a full table is
a `Leave.overflow`. `Leave.outOfBounds` and `Leave.undefined` are undefined
behaviour: a key is read out of bounds; or an object that is not allocated is
accessed, a null pointer is followed, an array is read or written out of bounds, an
assertion fails or unreachable code is reached.
-/

namespace TinyPointerTrees.Art

open Conc

/-- The address of an object: the special bits that name its table, and the entry. -/
structure Ref where
  /-- The table. -/
  special : ℕ
  /-- The entry. -/
  slot : Slot
  deriving DecidableEq

/-- `Key`. -/
abbrev Key := List UInt8

/-! ### The memory -/

/-- `PendingDelete`. -/
abbrev PendingDelete (V : Variant) := ArtTinyPtr V × TinyPtrHashes

/-- `LabelDelete`. -/
structure LabelDelete (V : Variant) where
  /-- `nodes`, up to `nodesCount`. -/
  nodes : List (PendingDelete V)
  /-- `epoche`. -/
  epoche : UInt64

/-- `DeletionList`. -/
structure DeletionList (V : Variant) where
  /-- The labels from `headDeletionList` on. -/
  labels : List (LabelDelete V) := []
  /-- `localEpoche`. -/
  localEpoche : UInt64 := 0
  /-- `thresholdCounter`. -/
  thresholdCounter : ℕ := 0

/-- What changes in a tree. -/
structure Heap (V : Variant) where
  /-- `deref_tables`, by special bits. -/
  tables : ℕ → Table (Obj V)
  /-- How often `next_node_id` was called. -/
  ids : ℕ
  /-- `currentEpoche`. -/
  currentEpoche : UInt64
  /-- `deletionLists`. -/
  deletionLists : ℕ → DeletionList V
  /-- The threads that have a deletion list. -/
  threads : List ℕ

variable {V : Variant}

/-- `size`. -/
def DeletionList.size (d : DeletionList V) : ℕ := (d.labels.map fun l => l.nodes.length).sum

/-- What is pending. -/
def DeletionList.pending (d : DeletionList V) : List (PendingDelete V) :=
  d.labels.flatMap fun l => l.nodes

/-- `add`: into the first label, unless its 32 entries are used. -/
def DeletionList.add (d : DeletionList V) (n : PendingDelete V) (globalEpoch : UInt64) :
    DeletionList V :=
  match d.labels with
  | [] => { d with labels := [⟨[n], globalEpoch⟩] }
  | l :: ls =>
    if l.nodes.length < 32 then { d with labels := ⟨l.nodes ++ [n], globalEpoch⟩ :: ls }
    else { d with labels := ⟨[n], globalEpoch⟩ :: l :: ls }

namespace Heap

/-- The object at an address. -/
def get (s : Heap V) (n : Ref) : Obj V := (s.tables n.special).read n.slot

/-- The object at an address is allocated. -/
def Live (s : Heap V) (n : Ref) : Prop := n.slot ∈ (s.tables n.special).held

instance (s : Heap V) (n : Ref) : Decidable (s.Live n) := inferInstanceAs (Decidable (n.slot ∈ _))

/-- Change one table. -/
def setTable (s : Heap V) (c : ℕ) (T : Table (Obj V)) : Heap V :=
  { s with tables := Function.update s.tables c T }

/-- Change the object at an address. -/
def set (s : Heap V) (n : Ref) (o : Obj V) : Heap V :=
  s.setTable n.special ((s.tables n.special).write n.slot o)

/-- Change the deletion list of a thread. -/
def modifyList (s : Heap V) (t : ℕ) (f : DeletionList V → DeletionList V) : Heap V :=
  { s with deletionLists := Function.update s.deletionLists t (f (s.deletionLists t)) }

variable (X : ℕ → BucketIndexer)

/-- The address that a pointer denotes whose special bits name the table. -/
def refOf (p : ArtTinyPtr V) (h : TinyPtrHashes) : Ref :=
  ⟨p.special, DerefTable.slotOf (X p.special) p h⟩

/-- `free`. -/
def free (t : ℕ) (s : Heap V) (n : PendingDelete V) : Option (Heap V) :=
  if (n.1.special = leafS ∨ (V.nodeType n.1.special).isSome) ∧ s.Live (refOf X n.1 n.2) then
    some (s.setTable n.1.special ((s.tables n.1.special).free V.layout (X n.1.special) t n.1 n.2))
  else none

/-- The loop of `exitEpocheAndCleanup` over the labels: those that are old are freed, and the
others stay. -/
def freeLabels (t : ℕ) (oldestEpoche : UInt64) :
    List (LabelDelete V) → Heap V → Option (List (LabelDelete V) × Heap V)
  | [], s => some ([], s)
  | l :: ls, s =>
    if l.epoche < oldestEpoche then
      (l.nodes.foldlM (free X t) s).bind (freeLabels t oldestEpoche ls)
    else (freeLabels t oldestEpoche ls s).map fun r => (l :: r.1, r.2)

/-- The first lines of `exitEpocheAndCleanup`. -/
def countEpoche (t : ℕ) (s : Heap V) : Heap V :=
  if (s.deletionLists t).thresholdCounter % 64 = 1 then
    { s with currentEpoche := s.currentEpoche + 1 } else s

/-- The smallest `localEpoche`. -/
def oldestEpoche (s : Heap V) : UInt64 :=
  s.threads.foldl (fun e u => min e (s.deletionLists u).localEpoche) (UInt64.ofNat (2 ^ 64 - 1))

/-- `exitEpocheAndCleanup`, with `startGCThreshhold` 256. -/
def exitEpocheAndCleanup (t : ℕ) (s : Heap V) : Option (Heap V) :=
  let s := s.countEpoche t
  if (s.deletionLists t).thresholdCounter > 256 then
    if (s.deletionLists t).size = 0 then
      some (s.modifyList t fun d => { d with thresholdCounter := 0 })
    else
      let s := s.modifyList t fun d => { d with localEpoche := UInt64.ofNat (2 ^ 64 - 1) }
      (freeLabels X t s.oldestEpoche (s.deletionLists t).labels s).map fun r =>
        r.2.modifyList t fun d => { d with labels := r.1, thresholdCounter := 0 }
  else some s

end Heap

/-- The atomic operations of a tree. Those that access an object answer nothing when it is not
allocated, or when a write is undefined. -/
inductive ArtOp (V : Variant) : Type → Type where
  /-- `typeVersionLockObsolete.load`. -/
  | load (n : Ref) : ArtOp V (Option UInt64)
  /-- `typeVersionLockObsolete.compare_exchange_strong`. -/
  | compareExchange (n : Ref) (expected desired : UInt64) : ArtOp V (Option Bool)
  /-- `typeVersionLockObsolete.fetch_add`. -/
  | fetchAdd (n : Ref) (d : UInt64) : ArtOp V (Option Unit)
  /-- Read an object. -/
  | read (n : Ref) : ArtOp V (Option (Obj V))
  /-- Write an object, as a member function does. -/
  | write (n : Ref) (f : Obj V → Option (Obj V)) : ArtOp V (Option Unit)
  /-- `allocate`, of the table that the special bits name. -/
  | allocate (special : ℕ) (h : TinyPtrHashes) :
      ArtOp V (Except OverflowError (ArtTinyPtr V × Slot))
  /-- `next_node_id`. -/
  | nextNodeId : ArtOp V UInt64
  /-- `enterEpoche`. -/
  | enterEpoche : ArtOp V Unit
  /-- `markNodeForDeletion`. -/
  | markNodeForDeletion (p : ArtTinyPtr V) (h : TinyPtrHashes) : ArtOp V Unit
  /-- `exitEpocheAndCleanup`. -/
  | exitEpocheAndCleanup : ArtOp V (Option Unit)

section Exec

variable (X : ℕ → BucketIndexer) (ids : ℕ → UInt64) (t : ℕ)

/-- Access the object at an address, if it is allocated. -/
def Heap.access {β : Type} (s : Heap V) (n : Ref) (f : Obj V → Option (β × Obj V)) :
    Option β × Heap V :=
  if s.Live n then
    match f (s.get n) with
    | some (b, o) => (some b, s.set n o)
    | none => (none, s)
  else (none, s)

/-- Thread `t` executes an operation. `ids` are the answers of `next_node_id`, whatever they are. -/
def ArtOp.exec : {β : Type} → ArtOp V β → Heap V → β × Heap V
  | _, .load n, s => (if s.Live n then some (s.get n).typeVersionLockObsolete else none, s)
  | _, .compareExchange n expected desired, s => s.access n fun o =>
    if o.typeVersionLockObsolete = expected then
      some (true, { o with typeVersionLockObsolete := desired })
    else some (false, o)
  | _, .fetchAdd n d, s => s.access n fun o =>
    some ((), { o with typeVersionLockObsolete := o.typeVersionLockObsolete + d })
  | _, .read n, s => (if s.Live n then some (s.get n) else none, s)
  | _, .write n f, s => s.access n fun o => (f o).map fun o' => ((), o')
  | _, .allocate special h, s =>
    let r := (s.tables special).allocate V.layout (X special) t h special
    (r.1, s.setTable special r.2)
  | _, .nextNodeId, s => (ids s.ids, { s with ids := s.ids + 1 })
  | _, .enterEpoche, s => ((), s.modifyList t fun d => { d with localEpoche := s.currentEpoche })
  | _, .markNodeForDeletion p h, s =>
    ((), s.modifyList t fun d =>
      { d.add (p, h) s.currentEpoche with thresholdCounter := d.thresholdCounter + 1 })
  | _, .exitEpocheAndCleanup, s =>
    match s.exitEpocheAndCleanup X t with
    | some s' => (some (), s')
    | none => (none, s)

/-- The operations, executed by thread `t` alone. -/
def artHandler : Prog.Handler (ArtOp V) (Heap V) := ⟨fun o s => some (o.exec X ids t s)⟩

end Exec

/-! ### The lock word and the node -/

/-- Why code is left early. -/
inductive Leave where
  /-- `goto restart`. -/
  | restart
  /-- The exception of `abort_overflow`. -/
  | overflow (e : OverflowError)
  /-- The exception of `dereference`. -/
  | runtimeError (what : String)
  /-- A byte of a key is read that the key does not have. -/
  | outOfBounds
  /-- Undefined behaviour of another kind. -/
  | undefined

/-- It is a `goto restart`. -/
def Leave.isRestart : Leave → Bool
  | .restart => true
  | _ => false

/-- A stretch of code. -/
abbrev ArtM (V : Variant) : Type → Type 1 := Throwing (ArtOp V) Leave

namespace ArtM

variable {α : Type}

/-- A value, if there is one. -/
def defined : Option α → ArtM V α
  | some a => return a
  | none => throw .undefined

/-- What is read of a key, if it is there. -/
def inBounds : Option α → ArtM V α
  | some a => return a
  | none => throw .outOfBounds

/-- An operation that can be undefined. -/
def access (o : ArtOp V (Option α)) : ArtM V α := Throwing.op o >>= defined

/-- `typeVersionLockObsolete.load`. -/
def load (n : Ref) : ArtM V UInt64 := access (.load n)

/-- Read an object. -/
def read (n : Ref) : ArtM V (Obj V) := access (.read n)

/-- `readLockOrRestart`. -/
def readLockOrRestart (n : Ref) : ArtM V UInt64 := do
  let version ← load n
  if isLocked version || isObsolete version then throw .restart else return version

/-- `readUnlockOrRestart`. -/
def readUnlockOrRestart (n : Ref) (startRead : UInt64) : ArtM V Unit := do
  let version ← load n
  if startRead ≠ version then throw .restart else return ()

/-- `checkOrRestart`. -/
def checkOrRestart (n : Ref) (startRead : UInt64) : ArtM V Unit := readUnlockOrRestart n startRead

/-- `upgradeToWriteLockOrRestart`, for a caller that has something to do before it restarts. -/
def upgradeToWriteLock (n : Ref) (version : UInt64) : ArtM V Bool :=
  access (.compareExchange n version (version + 0b10))

/-- `upgradeToWriteLockOrRestart`. -/
def upgradeToWriteLockOrRestart (n : Ref) (version : UInt64) : ArtM V Unit := do
  let upgraded ← upgradeToWriteLock n version
  if upgraded then return () else throw .restart

/-- `writeLockOrRestart`. -/
def writeLockOrRestart (n : Ref) : ArtM V Unit := do
  let version ← readLockOrRestart n
  upgradeToWriteLockOrRestart n version

/-- `writeUnlock`. -/
def writeUnlock (n : Ref) : ArtM V Unit := access (.fetchAdd n 0b10)

/-- `writeUnlockObsolete`. -/
def writeUnlockObsolete (n : Ref) : ArtM V Unit := access (.fetchAdd n 0b11)

/-- `N::getChild`. -/
def getChild (k : UInt8) (n : Ref) : ArtM V (ArtTinyPtr V) := do
  let o ← read n
  let t ← defined (o.classOf n.special)
  return o.getChild t k

/-- `N::getAnyChild`. -/
def getAnyChild (n : Ref) : ArtM V (UInt8 × ArtTinyPtr V) := do
  let o ← read n
  let t ← defined (o.classOf n.special)
  return o.getAnyChild t

/-- `N::change`. -/
def change (n : Ref) (key : UInt8) (val : ArtTinyPtr V) : ArtM V Unit :=
  access (.write n fun o => (o.classOf n.special).bind fun t => o.change t key val)

/-- `insert`, of a node whose class is known. -/
def insertChild (n : Ref) (key : UInt8) (p : ArtTinyPtr V) : ArtM V Unit :=
  access (.write n fun o => (V.nodeType n.special).bind fun t => o.insert t key p)

/-- `getId`. -/
def getId (n : Ref) : ArtM V UInt64 := do
  let o ← read n
  return o.id

/-- `value`. -/
def value (n : Ref) : ArtM V UInt64 := do
  let o ← read n
  return o.value

/-- `k[i]`. -/
def byteAt (k : Key) (i : ℕ) : ArtM V UInt8 := inBounds k[i]?

/-- `deref_table.allocate`. -/
def allocate (special : ℕ) (h : TinyPtrHashes) : ArtM V (ArtTinyPtr V × Ref) := do
  let r ← Throwing.op (.allocate special h)
  match r with
  | .ok r => return (r.1, ⟨special, r.2⟩)
  | .error e => throw (.overflow e)

/-- `N4::Create` and its siblings. -/
def create (special : ℕ) (src : List UInt8) (prefixLength : ℕ) (h : TinyPtrHashes) :
    ArtM V (ArtTinyPtr V × Ref) := do
  let r ← allocate special h
  let id ← Throwing.op .nextNodeId
  access (.write r.2 fun o => some (o.construct special id src prefixLength))
  return r

/-- `Leaf::Create`. -/
def createLeaf (tid : UInt64) (h : TinyPtrHashes) : ArtM V (ArtTinyPtr V × Ref) := do
  let r ← allocate leafS h
  access (.write r.2 fun o => some (o.constructLeaf tid))
  return r

/-- `relocate_node`: the whole object is copied, its lock word included. -/
def relocateNode (p : ArtTinyPtr V) (n : Ref) (h : TinyPtrHashes) : ArtM V (ArtTinyPtr V × Ref) :=
  if p.special = n.special ∧ (V.nodeType p.special).isSome then do
    let r ← allocate p.special h
    let o ← read n
    access (.write r.2 fun _ => some o)
    return r
  else throw .undefined

/-- `Prog` under `EpocheGuard`. -/
def guarded (x : ArtM V α) : ArtM V α := ExceptT.mk (
  Prog.bind (Prog.op .enterEpoche) fun _ =>
  Prog.bind x.run fun r =>
  Prog.bind (Prog.op .exitEpocheAndCleanup) fun e =>
  match e with
  | some () => .ret r
  | none => .ret (.error .undefined))

end ArtM

open ArtM

/-- What does not change in a tree. -/
structure Tree (V : Variant) where
  /-- How the tables reduce hash values. -/
  indexer : ℕ → BucketIndexer
  /-- `loadKey`. -/
  loadKey : UInt64 → Key
  /-- `root`. -/
  root : ArtTinyPtr V × Ref

namespace Tree

variable (T : Tree V)

/-- `dereference` of the table that `special` names, for a pointer that is then followed. -/
def derefTable (special : ℕ) (p : ArtTinyPtr V) (h : TinyPtrHashes) : ArtM V Ref :=
  match DerefTable.dereference (T.indexer special) p h with
  | .ok (some s) => return ⟨special, s⟩
  | .ok none => throw .undefined
  | .error what => throw (.runtimeError what)

/-- `deref_tables.dereference`. -/
def dereference (p : ArtTinyPtr V) (h : TinyPtrHashes) : ArtM V Ref :=
  if (V.nodeType p.special).isSome then T.derefTable p.special p h else throw .undefined

/-- A pass of the loop of `getAnyChildTid`. -/
def anyChildRound (node : Ref) : ArtM V (Ref ⊕ UInt64) := do
  let v ← readLockOrRestart node
  let anyChild ← getAnyChild node
  readUnlockOrRestart node v
  let id ← getId node
  let h := idHash id anyChild.1
  if isLeaf anyChild.2 then
    let leaf ← T.derefTable leafS anyChild.2 h
    let tid ← value leaf
    return .inr tid
  else
    let next ← T.dereference anyChild.2 h
    return .inl next

/-- `getAnyChildTid`. -/
def getAnyChildTid (n : Ref) : ArtM V UInt64 := Throwing.forever T.anyChildRound n

/-! ### `lookup` -/

/-- `CheckPrefixResult`, with the level that the function leaves. -/
inductive CheckPrefixResult where
  | noMatch
  | optimisticMatch (level : ℕ)
  | matched (level : ℕ)

/-- The loop of `checkPrefix`, over the stored bytes that are left; nothing when the key is read
out of bounds, and no level when a byte differs. -/
def checkStored (k : Key) : List UInt8 → ℕ → Option (Option ℕ)
  | [], level => some (some level)
  | b :: bs, level =>
    k[level]?.bind fun c => if b ≠ c then some none else checkStored k bs (level + 1)

/-- `checkPrefix`. -/
def checkPrefix (n : Obj V) (k : Key) (level : ℕ) : Option CheckPrefixResult :=
  if n.hasPrefix then
    if k.length ≤ level + n.prefixCount then some .noMatch
    else
      (checkStored k (n.getPrefix.take (min n.prefixCount maxStoredPrefixLength)) level).map
        fun r =>
        match r with
        | none => .noMatch
        | some level =>
          if n.prefixCount > maxStoredPrefixLength then
            .optimisticMatch (level + (n.prefixCount - maxStoredPrefixLength))
          else .matched level
  else some (.matched level)

/-- `checkKey`. -/
def checkKey (tid : UInt64) (k : Key) : UInt64 := if k = T.loadKey tid then tid else 0

/-- The variables of `lookup` at the head of its loop. -/
structure LookupState where
  /-- `node`. -/
  node : Ref
  /-- `v`. -/
  v : UInt64
  /-- `level`. -/
  level : ℕ
  /-- `optimisticPrefixMatch`. -/
  optimisticPrefixMatch : Bool

/-- A pass of the loop of `lookup`, from the case `Match` on. -/
def lookupChild (k : Key) (node : Ref) (v : UInt64) (level : ℕ) (optimisticPrefixMatch : Bool) :
    ArtM V (LookupState ⊕ UInt64) := do
  if k.length ≤ level then return .inr 0 else
  let b ← byteAt k level
  let nodeTinyPtr ← getChild b node
  checkOrRestart node v
  if nodeTinyPtr = .null then return .inr 0 else
  if isLeaf nodeTinyPtr then
    readUnlockOrRestart node v
    let id ← getId node
    let leaf ← T.derefTable leafS nodeTinyPtr (idHash id b)
    let leafV ← readLockOrRestart leaf
    let tid ← value leaf
    let tid := if level < k.length - 1 ∨ optimisticPrefixMatch then T.checkKey tid k else tid
    readUnlockOrRestart leaf leafV
    return .inr tid
  else
    let id ← getId node
    let next ← T.dereference nodeTinyPtr (idHash id b)
    let nv ← readLockOrRestart next
    readUnlockOrRestart node v
    return .inl ⟨next, nv, level + 1, optimisticPrefixMatch⟩

/-- A pass of the loop of `lookup`. -/
def lookupRound (k : Key) (c : LookupState) : ArtM V (LookupState ⊕ UInt64) := do
  let o ← read c.node
  let r ← inBounds (checkPrefix o k c.level)
  match r with
  | .noMatch =>
    readUnlockOrRestart c.node c.v
    return .inr 0
  | .optimisticMatch level => T.lookupChild k c.node c.v level true
  | .matched level => T.lookupChild k c.node c.v level c.optimisticPrefixMatch

/-- `lookup` from the label `restart` on. -/
def lookupAttempt (k : Key) : ArtM V UInt64 := do
  let v ← readLockOrRestart T.root.2
  Throwing.forever (T.lookupRound k) ⟨T.root.2, v, 0, false⟩

/-- `lookup`. -/
def lookup (k : Key) : ArtM V UInt64 := do
  Throwing.op .enterEpoche
  Throwing.retrying Leave.isRestart (T.lookupAttempt k)

/-! ### `insert` -/

/-- `CheckPrefixPessimisticResult`, with what the function leaves in the variables that it is
given by reference. -/
inductive PessimisticResult where
  | noMatch (level : ℕ) (nonMatchingKey : UInt8) (nonMatchingPrefix : List UInt8)
  | matched (level : ℕ)

/-- The bytes of a key that a `memcpy` reads. -/
def slice (k : Key) (start length : ℕ) : Option (List UInt8) :=
  if start + length ≤ k.length then some ((k.drop start).take length) else none

/-- The loop of `checkPrefixPessimistic`, with so many bytes to go; `pick` is the call of
`getAnyChildTid`. `kt` is the key of some leaf below the node, as soon as it is loaded. -/
def comparePrefix (pick : ArtM V UInt64) (o : Obj V) (k : Key) (prevLevel : ℕ) :
    (remaining i level : ℕ) → (kt : Key) → ArtM V PessimisticResult
  | 0, _, level, _ => return .matched level
  | remaining + 1, i, level, kt => do
    let kt ← if i = maxStoredPrefixLength then T.loadKey <$> pick else pure kt
    let curKey ← if h : i < maxStoredPrefixLength then pure (o.prefixBytes ⟨i, h⟩)
      else byteAt kt level
    let b ← byteAt k level
    if curKey ≠ b then
      if o.prefixCount > maxStoredPrefixLength then
        let kt ← if i < maxStoredPrefixLength then T.loadKey <$> pick else pure kt
        let src ← inBounds (slice kt (level + 1)
          (min (o.prefixCount - (level - prevLevel) - 1) maxStoredPrefixLength))
        return .noMatch level curKey src
      else
        return .noMatch level curKey ((o.getPrefix.drop (i + 1)).take (o.prefixCount - i - 1))
    else comparePrefix pick o k prevLevel remaining (i + 1) (level + 1) kt

/-- `checkPrefixPessimistic`. -/
def checkPrefixPessimistic (n : Ref) (k : Key) (level : ℕ) : ArtM V PessimisticResult := do
  let o ← read n
  T.comparePrefix (T.getAnyChildTid n) o k level o.prefixCount 0 level []

/-- The case `NoMatch` of `insert`: split the prefix of a node. -/
def splitPrefix (k : Key) (tid : UInt64) (parentNode : Option Ref) (parentKey : UInt8)
    (parentVersion : UInt64) (nodeTinyPtr : ArtTinyPtr V) (node : Ref) (v : UInt64)
    (level nextLevel : ℕ) (nonMatchingKey : UInt8) (remainingPrefix : List UInt8) :
    ArtM V Unit := do
  let parentNode ← defined parentNode
  upgradeToWriteLockOrRestart parentNode parentVersion
  let upgraded ← upgradeToWriteLock node v
  if !upgraded then
    writeUnlock parentNode
    throw .restart
  else
  -- 1) new node which will be parent of the current node, and the leaf
  let parentId ← getId parentNode
  let o ← read node
  let newNode ← create V.initialS o.getPrefix (nextLevel - level) (idHash parentId parentKey)
  let newId ← getId newNode.2
  let b ← byteAt k nextLevel
  let newLeaf ← createLeaf tid (idHash newId b)
  -- 2) relocate the current node to the new parent and update its prefix
  let newCurNode ← relocateNode nodeTinyPtr node (idHash newId nonMatchingKey)
  access (.write newCurNode.2 fun o' =>
    some (o'.setPrefix remainingPrefix (o.prefixCount - ((nextLevel - level) + 1))))
  writeUnlock newCurNode.2
  -- 3) add the two as children
  insertChild newNode.2 b newLeaf.1
  insertChild newNode.2 nonMatchingKey newCurNode.1
  -- 4) the parent now points to the new node
  change parentNode parentKey newNode.1
  writeUnlock parentNode
  -- 5) the old node is obsolete
  writeUnlockObsolete node
  let parentId ← getId parentNode
  Throwing.op (.markNodeForDeletion nodeTinyPtr (idHash parentId parentKey))

/-- `generateVal`. -/
def generateVal (tid : UInt64) (parentNode : Ref) (parentKey : UInt8) : ArtM V (ArtTinyPtr V) := do
  let id ← getId parentNode
  let r ← createLeaf tid (idHash id parentKey)
  return r.1

/-- `N256::insert` of `TINY_ART_256_OLC`, and `insertGrow` of a node that is not full. -/
def insertInPlace (tid : UInt64) (n : Ref) (v : UInt64) (parentNode : Option Ref)
    (parentVersion : UInt64) (key : UInt8) : ArtM V Unit := do
  match parentNode with
  | some parentNode => readUnlockOrRestart parentNode parentVersion
  | none => pure ()
  upgradeToWriteLockOrRestart n v
  let p ← generateVal tid n key
  insertChild n key p
  writeUnlock n

/-- `insertGrow` of a node that is full. -/
def grow (tid : UInt64) (n : Ref) (nodeTinyPtr : ArtTinyPtr V) (v : UInt64)
    (parentNode : Option Ref) (parentVersion : UInt64) (keyParent key : UInt8) : ArtM V Unit := do
  let parentNode ← defined parentNode
  upgradeToWriteLockOrRestart parentNode parentVersion
  let upgraded ← upgradeToWriteLock n v
  if !upgraded then
    writeUnlock parentNode
    throw .restart
  else
  let parentId ← getId parentNode
  let o ← read n
  let nBig ← create (V.biggerS n.special) o.getPrefix o.prefixCount (idHash parentId keyParent)
  access (.write nBig.2 fun o' => some { o' with id := o.id })
  access (.write nBig.2 fun o' => (V.nodeType n.special).bind fun t =>
    (V.nodeType (V.biggerS n.special)).bind fun t' => o.copyTo t t' o')
  let p ← generateVal tid nBig.2 key
  insertChild nBig.2 key p
  change parentNode keyParent nBig.1
  writeUnlockObsolete n
  let parentId ← getId parentNode
  Throwing.op (.markNodeForDeletion nodeTinyPtr (idHash parentId keyParent))
  writeUnlock parentNode

/-- `insertAndUnlock`. -/
def insertAndUnlock (tid : UInt64) (node : Ref) (nodeTinyPtr : ArtTinyPtr V) (v : UInt64)
    (parentNode : Option Ref) (parentVersion : UInt64) (keyParent key : UInt8) : ArtM V Unit := do
  if V.typed then
    let o ← read node
    let t ← defined (o.classOf node.special)
    let o ← read node
    if !o.isFull t then insertInPlace tid node v parentNode parentVersion key
    else grow tid node nodeTinyPtr v parentNode parentVersion keyParent key
  else insertInPlace tid node v parentNode parentVersion key

/-- The loop that compares two keys from where they may differ on: how many bytes agree. -/
def agreeing : Key → Key → Option ℕ
  | a :: key, b :: k => if a = b then (agreeing key k).map (· + 1) else some 0
  | _, _ => none

/-- The case of `insert` in which the child is a leaf: a node with both leaves takes its place. -/
def splitLeaf (k : Key) (tid : UInt64) (node : Ref) (v : UInt64) (nextNodeTinyPtr : ArtTinyPtr V)
    (nodeKey : UInt8) (level : ℕ) : ArtM V Unit := do
  upgradeToWriteLockOrRestart node v
  let id ← getId node
  let nextNodeHashes := idHash id nodeKey
  let nextNodeLeaf ← T.derefTable leafS nextNodeTinyPtr nextNodeHashes
  writeLockOrRestart nextNodeLeaf
  let nextValue ← value nextNodeLeaf
  let key := T.loadKey nextValue
  let level := level + 1
  let prefixLength ← inBounds (agreeing (key.drop level) (k.drop level))
  let b ← byteAt k (level - 1)
  let n4 ← create V.initialS (k.drop level) prefixLength (idHash id b)
  let newId ← getId n4.2
  let c ← byteAt k (level + prefixLength)
  let newLeaf ← createLeaf tid (idHash newId c)
  let d ← byteAt key (level + prefixLength)
  let newNextNodeLeaf ← createLeaf nextValue (idHash newId d)
  insertChild n4.2 c newLeaf.1
  insertChild n4.2 d newNextNodeLeaf.1
  writeUnlockObsolete nextNodeLeaf
  Throwing.op (.markNodeForDeletion nextNodeTinyPtr nextNodeHashes)
  change node b n4.1
  writeUnlock node

variable (V) in
/-- The variables of `insert` at the head of its loop. -/
structure InsertState where
  /-- `node`, which becomes `parentNode`. -/
  node : Option Ref
  /-- `nodeKey`, which becomes `parentKey`. -/
  nodeKey : UInt8
  /-- `nextNodeTinyPtr`. -/
  nextNodeTinyPtr : ArtTinyPtr V
  /-- `nextNode`. -/
  nextNode : Ref
  /-- `parentVersion`. -/
  parentVersion : UInt64
  /-- `level`. -/
  level : ℕ

/-- A pass of the loop of `insert`, once the prefix matches. -/
def insertChildRound (k : Key) (tid : UInt64) (c : InsertState V) (v : UInt64) (level : ℕ) :
    ArtM V (InsertState V ⊕ Unit) := do
  let node := c.nextNode
  let nodeKey ← byteAt k level
  let nextNodeTinyPtr ← getChild nodeKey node
  checkOrRestart node v
  if nextNodeTinyPtr = .null then
    insertAndUnlock tid node c.nextNodeTinyPtr v c.node c.parentVersion c.nodeKey nodeKey
    return .inr ()
  else
  match c.node with
  | some parentNode => readUnlockOrRestart parentNode c.parentVersion
  | none => pure ()
  if isLeaf nextNodeTinyPtr then
    T.splitLeaf k tid node v nextNodeTinyPtr nodeKey level
    return .inr ()
  else
    let id ← getId node
    let nextNode ← T.dereference nextNodeTinyPtr (idHash id nodeKey)
    return .inl ⟨some node, nodeKey, nextNodeTinyPtr, nextNode, v, level + 1⟩

/-- A pass of the loop of `insert`. -/
def insertRound (k : Key) (tid : UInt64) (c : InsertState V) : ArtM V (InsertState V ⊕ Unit) := do
  let v ← readLockOrRestart c.nextNode
  let res ← T.checkPrefixPessimistic c.nextNode k c.level
  match res with
  | .noMatch nextLevel nonMatchingKey remainingPrefix =>
    splitPrefix k tid c.node c.nodeKey c.parentVersion c.nextNodeTinyPtr c.nextNode v
      c.level nextLevel nonMatchingKey remainingPrefix
    return .inr ()
  | .matched level => T.insertChildRound k tid c v level

/-- `insert` from the label `restart` on. -/
def insertAttempt (k : Key) (tid : UInt64) : ArtM V Unit :=
  Throwing.forever (T.insertRound k tid) ⟨none, 0, T.root.1, T.root.2, 0, 0⟩

/-- `insert`. -/
def insert (k : Key) (tid : UInt64) : ArtM V Unit :=
  guarded (Throwing.retrying Leave.isRestart (T.insertAttempt k tid))

end Tree

/-- A heap in which nothing is allocated, for one thread. -/
def Heap.initial (tables : ℕ → Table (Obj V)) : Heap V := ⟨tables, 0, 0, fun _ => {}, [0]⟩

/-- `Tree(loadKey, ...)`, over tables that were constructed: the root is an `N256` without a
prefix. -/
def Tree.Created (T : Tree V) (ids : ℕ → UInt64) (s : Heap V) : Prop :=
  ∃ (storage : ℕ → ℕ → ℕ → Obj V) (tables : ℕ → Table (Obj V)),
    (∀ c, DerefTable.construct V.layout (T.indexer c) (storage c) = some (tables c)) ∧
    Prog.Runs (artHandler T.indexer ids 0) (create V.n256S [] 0 (0, 0)).run
      (Heap.initial tables) (.ok T.root) s

end TinyPointerTrees.Art
