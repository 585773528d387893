import TinyPointerTrees.TinyPtr.FreeList
import TinyPointerTrees.TinyPtr.Util

/-!
# The tries over tiny pointers

`trie/tiny_trie.h` and `trie/tiny_trie_2.h`, as far as the two classes agree. A
node has a flag and 256 tiny pointers, one for each byte; a pointer is null,
leads to a node, or is tagged, and then it stands for a leaf. The classes differ
in the hash values of a child (`Hashing`) and in `remove`.

A call runs on the trie's state and either returns or faults. `Fault.overflow`
is the exception of the dereference table, and leaves the state as it was when
it was thrown; `Fault.undefined` is undefined behaviour: a node that is not
allocated is read, written or freed, a null pointer is dereferenced, or the
array of a node is read out of bounds.
-/

namespace TinyPointerTrees

open Conc Conc.Prog

/-- `TinyPtr<>`. -/
abbrev byteLayout : Layout := .byte 0 (by decide)

/-- `Node`. A free entry keeps its link in the first byte, which is `is_terminal`. -/
structure TrieNode where
  /-- `is_terminal`, as its byte. -/
  isTerminal : UInt8
  /-- `nodes`. -/
  nodes : Fin 256 → TinyPtr byteLayout

/-- `Node()`. -/
def TrieNode.new : TrieNode := ⟨0, fun _ => .null⟩

/-- `is_terminal`, as a `bool`. -/
def TrieNode.terminal (n : TrieNode) : Bool := n.isTerminal != 0

/-- The node with another `is_terminal`. -/
def TrieNode.setTerminal (n : TrieNode) (b : Bool) : TrieNode := { n with isTerminal := b.toUInt8 }

@[simp] theorem TrieNode.terminal_setTerminal (n : TrieNode) (b : Bool) :
    (n.setTerminal b).terminal = b := by
  cases b <;> rfl

/-- The node with another pointer. -/
def TrieNode.setNode (n : TrieNode) (c : Fin 256) (p : TinyPtr byteLayout) : TrieNode :=
  { n with nodes := Function.update n.nodes c p }

instance : Storage byteLayout TrieNode where
  getLink n := n.isTerminal.toNat
  setLink n i := { n with isTerminal := UInt8.ofNat i }
  getLink_lt n := UInt8.toNat_lt _
  getLink_setLink n i hi := by
    have hi' : i < 256 := hi
    simp [UInt8.toNat_ofNat', Nat.mod_eq_of_lt hi']

/-- A `std::string_view`. -/
abbrev Word := List UInt8

/-- Why a call does not return. -/
inductive Fault where
  /-- The dereference table throws. -/
  | overflow (e : OverflowError)
  /-- `dereference` throws. -/
  | runtimeError (what : String)
  /-- Undefined behaviour. -/
  | undefined
  deriving DecidableEq

/-- The entry of a byte. -/
def entryIdx (c : UInt8) : Fin 256 := ⟨c.toNat, c.toNat_lt⟩

theorem entryIdx_inj {c d : UInt8} : entryIdx c = entryIdx d ↔ c = d := by
  rw [entryIdx, entryIdx, Fin.mk.injEq, UInt8.toNat_inj]

/-- The entry of one byte is written, and the child there changes; for the other bytes both are as
they were. -/
theorem forall_entry {P A : Type} {R : UInt8 → P → Option A → Prop} {nodes : Fin 256 → P}
    {c : UInt8} {ptr : P} (kid : UInt8 → Option A) (o : Option A) (hc : R c ptr o)
    (h : ∀ d ≠ c, R d (nodes (entryIdx d)) (kid d)) (d : UInt8) :
    R d (Function.update nodes (entryIdx c) ptr (entryIdx d)) (Function.update kid c o d) := by
  by_cases hdc : d = c
  · subst hdc
    rwa [Function.update_self, Function.update_self]
  · rw [Function.update_of_ne fun he => hdc (entryIdx_inj.mp he), Function.update_of_ne hdc]
    exact h d hdc

/-- The index `[c]` of a `char`, which is in bounds if it is not negative. -/
def charIndex {σ : Type} (c : UInt8) : EStateM Fault σ (Fin 256) :=
  if c < 128 then return entryIdx c else throw .undefined

/-! ### Calls -/

section Calls

variable {σ α β : Type} {x y : EStateM Fault σ α} {f : α → EStateM Fault σ β} {g : α → β} {a : α}
  {e : Fault} {t t' : σ} {c d : UInt8}

theorem bind_ok (h : x t = .ok a t') : (x >>= f) t = f a t' := by simp [Bind.bind, EStateM.bind, h]

theorem bind_error (h : x t = .error e t') : (x >>= f) t = .error e t' := by
  simp [Bind.bind, EStateM.bind, h]

theorem map_ok (h : x t = .ok a t') : (g <$> x) t = .ok (g a) t' := by
  simp [Functor.map, EStateM.map, h]

theorem map_error (h : x t = .error e t') : (g <$> x) t = .error e t' := by
  simp only [Functor.map, EStateM.map, h]

/-- What follows does the same. -/
theorem bind_congr_left (h : x t = y t) : (x >>= f) t = (y >>= f) t := by
  simp only [Bind.bind, EStateM.bind, h]

theorem map_congr_left (h : x t = y t) : (g <$> x) t = (g <$> y) t := by
  simp only [Functor.map, EStateM.map, h]

theorem get_ok : (MonadState.get : EStateM Fault σ σ) t = .ok t t := rfl

theorem charIndex_ok (hc : c < 128) : charIndex c t = .ok (entryIdx c) t := by
  rw [charIndex, if_pos hc]
  rfl

/-- An index of `128` or more is out of bounds. -/
theorem charIndex_bad (hc : ¬ c < 128) (f : Fin 256 → EStateM Fault σ β) :
    (charIndex c >>= f) = throw .undefined := by
  rw [charIndex, if_neg hc]
  rfl

/-- Bytes that stay in bounds have entries of their own. -/
theorem charIndex_inj {i : Fin 256} {s : σ} (hc : charIndex c t = .ok i t')
    (hd : charIndex d s = .ok i t') : c = d := by
  have hidx : ∀ {e : UInt8} {s : σ}, charIndex e s = .ok i t' → entryIdx e = i := by
    intro e s he
    rw [charIndex] at he
    split_ifs at he
    · cases he
      rfl
    · cases he
  exact entryIdx_inj.mp ((hidx hc).trans (hidx hd).symm)

end Calls

/-- The members of a trie. -/
structure Trie where
  /-- `deref_table`. -/
  table : Table TrieNode
  /-- `root`, the address. -/
  root : Slot
  /-- `count`. -/
  count : ℕ

/-- What a member function does. -/
abbrev TrieM := EStateM Fault Trie

/-- How a class derives the hash values of a child: from a hash of the path, and from the
address of the parent. -/
structure Hashing where
  /-- The hash of the empty path. -/
  init : TinyPtrHashes
  /-- The hash of a path that is one byte longer. -/
  next : UInt8 → TinyPtrHashes → TinyPtrHashes
  /-- The hash values of a child, from the hash of the parent's path and the parent's address. -/
  child : TinyPtrHashes → Slot → UInt8 → TinyPtrHashes

namespace TrieM

variable (X : BucketIndexer)

/-- The node at an address. -/
def load (s : Slot) : TrieM TrieNode := do
  let t ← get
  if s ∈ t.table.held then return t.table.read s else throw .undefined

/-- Write the node at an address. -/
def store (s : Slot) (n : TrieNode) : TrieM Unit := do
  let t ← get
  if s ∈ t.table.held then set { t with table := t.table.write s n } else throw .undefined

/-- `deref_table.dereference`, of a pointer that the caller goes on to use. -/
def dereference (p : TinyPtr byteLayout) (h : TinyPtrHashes) : TrieM Slot :=
  match DerefTable.dereference X p h with
  | .ok (some s) => return s
  | .ok none => throw .undefined
  | .error what => throw (.runtimeError what)

/-- `deref_table.allocate`. -/
def allocate (h : TinyPtrHashes) : TrieM (TinyPtr byteLayout × Slot) := do
  let t ← get
  let (r, T') := t.table.allocate byteLayout X 0 h 0
  set { t with table := T' }
  match r with
  | .ok r => return r
  | .error e => throw (.overflow e)

/-- `deref_table.free`. -/
def free (p : TinyPtr byteLayout) (h : TinyPtrHashes) : TrieM Unit := do
  let t ← get
  if DerefTable.slotOf X p h ∈ t.table.held then
    set { t with table := t.table.free byteLayout X 0 p h }
  else throw .undefined

/-- `count += n`. -/
def addCount (n : ℕ) : TrieM Unit := modify fun t => { t with count := t.count + n }

/-- `count -= n`. -/
def subCount (n : ℕ) : TrieM Unit := modify fun t => { t with count := t.count - n }

variable (H : Hashing)

/-- The loop of `create_parent_node`, over the characters that are left; it answers the node
and the hash of its path. -/
def createNodes : Word → Slot → TinyPtrHashes → TrieM (Slot × TinyPtrHashes)
  | [], curNode, h => return (curNode, h)
  | c :: w, curNode, h => do
    let i ← charIndex c
    let entry := (← load curNode).nodes i
    let isTagged := decide (entry = .tagged)
    if entry = .null ∨ isTagged then
      let (ptr, node) ← allocate X (H.child h curNode c)
      store node .new
      store curNode ((← load curNode).setNode i ptr)
      store node ((← load node).setTerminal isTagged)
      createNodes w node (H.next c h)
    else
      let node ← dereference X entry (H.child h curNode c)
      createNodes w node (H.next c h)

/-- The loop of `get_parent_node`; no address is the null pointer. -/
def getNodes : Word → Slot → TinyPtrHashes → TrieM (Option (Slot × TinyPtrHashes))
  | [], curNode, h => return some (curNode, h)
  | c :: w, curNode, h => do
    let i ← charIndex c
    let entry := (← load curNode).nodes i
    if entry = .null ∨ entry = .tagged then return none
    else
      let node ← dereference X entry (H.child h curNode c)
      getNodes w node (H.next c h)

/-- `create_parent_node`, which traverses all characters except the last. -/
def createParentNode (w : Word) : TrieM (Slot × TinyPtrHashes) := do
  createNodes X H w.dropLast (← get).root H.init

/-- `get_parent_node`. -/
def getParentNode (w : Word) : TrieM (Option (Slot × TinyPtrHashes)) := do
  getNodes X H w.dropLast (← get).root H.init

/-- The end of `insert`: mark a node as terminal. -/
def insertAt (curNode : Slot) : TrieM Bool := do
  let n ← load curNode
  let newWord := !n.terminal
  store curNode (n.setTerminal true)
  addCount newWord.toNat
  return newWord

/-- `insert`. -/
def insert (w : Word) : TrieM Bool := do
  match w.getLast? with
  | none => insertAt (← get).root
  | some c =>
    let (curNode, h) ← createParentNode X H w
    let i ← charIndex c
    let n ← load curNode
    if n.nodes i = .tagged then return false
    else if n.nodes i = .null then
      store curNode (n.setNode i .tagged)
      addCount 1
      return true
    else
      let node ← dereference X (n.nodes i) (H.child h curNode c)
      insertAt node

/-- `contains`. -/
def contains (w : Word) : TrieM Bool := do
  match w.getLast? with
  | none => return (← load (← get).root).terminal
  | some c =>
    match ← getParentNode X H w with
    | none => return false
    | some (curNode, h) =>
      let i ← charIndex c
      let n ← load curNode
      if n.nodes i = .null then return false
      else if n.nodes i = .tagged then return true
      else
        let node ← dereference X (n.nodes i) (H.child h curNode c)
        return (← load node).terminal

/-- The end of `remove`: the node is no longer terminal. -/
def removeAt (curNode : Slot) : TrieM Bool := do
  let n ← load curNode
  let isTerminal := n.terminal
  store curNode (n.setTerminal false)
  subCount isTerminal.toNat
  return isTerminal

end TrieM

/-- `TinyTrie(expected_number_of_nodes)`, on a constructed table: the root is allocated. -/
def Trie.create (X : BucketIndexer) (T : Table TrieNode) : EStateM.Result Fault Trie Unit :=
  (do
    let (_, root) ← TrieM.allocate X (0, 0)
    modify fun t => { t with root := root }
    TrieM.store root .new : TrieM Unit) ⟨T, ⟨0, 0⟩, 0⟩

end TinyPointerTrees
