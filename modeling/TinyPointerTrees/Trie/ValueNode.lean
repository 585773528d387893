import TinyPointerTrees.Trie.Runs

/-!
# The tries that store values

`trie/value_trie.h` and `trie/tiny_value_trie.h`. The member functions of the two
classes are the same; they differ in what a node is kept in, which is a
`NodeStore`: how a node is allocated, what a pointer in a node is, and how it is
followed. A pointer leads to the child of a node under a byte, or is null; no
pointer is tagged, and no node is ever freed.

An access to a node that is not there, and an access to the array of a node out
of its bounds, is the fault `undefined`.
-/

namespace TinyPointerTrees

/-- `Node`, with pointers of type `P` and values of type `α`. -/
structure ValueNode (P α : Type) where
  /-- `value`. -/
  value : α
  /-- `is_terminal`, as its byte. -/
  isTerminal : UInt8
  /-- `nodes`. -/
  nodes : Fin 256 → P

namespace ValueNode

variable {P α : Type}

/-- `is_terminal`, as a `bool`. -/
def terminal (n : ValueNode P α) : Bool := n.isTerminal != 0

/-- The node with another pointer. -/
def setNode (n : ValueNode P α) (c : Fin 256) (p : P) : ValueNode P α :=
  { n with nodes := Function.update n.nodes c p }

end ValueNode

/-- What the nodes of a trie are kept in, in states of type `μ`. The key of a node is what
its address depends on besides the pointer that leads to it. -/
structure NodeStore (μ A P κ α : Type) where
  /-- The null pointer. -/
  null : P
  /-- There is a node at an address. -/
  valid : μ → A → Bool
  /-- The node at an address. -/
  read : μ → A → ValueNode P α
  /-- Another node at an address. -/
  write : μ → A → ValueNode P α → μ
  /-- A new node, by a pointer to it and its address. -/
  allocate : κ → μ → Except OverflowError (P × A) × μ
  /-- The address a pointer leads to. -/
  dereference : P → κ → Except Fault A
  /-- The key of the root, as a path. -/
  init : κ
  /-- The key of a path that is one byte longer. -/
  next : UInt8 → κ → κ

/-- The members of a trie. -/
structure ValueTrieState (μ A : Type) where
  /-- The nodes. -/
  nodes : μ
  /-- `root`, the address. -/
  root : A
  /-- `count`. -/
  count : ℕ

/-- What a member function does. -/
abbrev ValueM (μ A : Type) := EStateM Fault (ValueTrieState μ A)

namespace NodeStore

variable {μ A P κ α : Type}

variable (S : NodeStore μ A P κ α)

/-- The node at an address. -/
def load (a : A) : ValueM μ A (ValueNode P α) := do
  let t ← get
  if S.valid t.nodes a then return S.read t.nodes a else throw .undefined

/-- Write the node at an address. -/
def store (a : A) (n : ValueNode P α) : ValueM μ A Unit := do
  let t ← get
  if S.valid t.nodes a then set { t with nodes := S.write t.nodes a n } else throw .undefined

/-- Allocate a node. -/
def alloc (h : κ) : ValueM μ A (P × A) := do
  let t ← get
  let (r, m) := S.allocate h t.nodes
  set { t with nodes := m }
  match r with
  | .ok r => return r
  | .error e => throw (.overflow e)

/-- Follow a pointer. -/
def deref (p : P) (h : κ) : ValueM μ A A :=
  match S.dereference p h with
  | .ok a => return a
  | .error e => throw e

variable [DecidableEq P]

/-- The loop of `create_node`, over the characters that are left. -/
def createNode : Word → A → κ → ValueM μ A A
  | [], curNode, _ => return curNode
  | c :: w, curNode, h => do
    let h := S.next c h
    let i ← charIndex c
    if (← S.load curNode).nodes i = S.null then
      let (ptr, node) ← S.alloc h
      S.store curNode ((← S.load curNode).setNode i ptr)
      createNode w node h
    else
      let node ← S.deref ((← S.load curNode).nodes i) h
      createNode w node h

/-- The loop of `get_node`. -/
def getNode : Word → A → κ → ValueM μ A (Option A)
  | [], curNode, _ => return some curNode
  | c :: w, curNode, h => do
    let h := S.next c h
    let i ← charIndex c
    if (← S.load curNode).nodes i = S.null then return none
    else
      let node ← S.deref ((← S.load curNode).nodes i) h
      getNode w node h

/-- `set`. -/
def set (w : Word) (v : α) : ValueM μ A Bool := do
  let node ← S.createNode w (← get).root S.init
  S.store node { ← S.load node with value := v }
  let newWord := !(← S.load node).terminal
  S.store node { ← S.load node with isTerminal := 1 }
  modify fun t => { t with count := t.count + newWord.toNat }
  return newWord

/-- `remove`. -/
def remove (w : Word) : ValueM μ A Bool := do
  match ← S.getNode w (← get).root S.init with
  | none => return false
  | some node =>
    if (← S.load node).terminal then
      S.store node { ← S.load node with isTerminal := 0 }
      modify fun t => { t with count := t.count - 1 }
      return true
    else return false

/-- `get`. -/
def get (w : Word) : ValueM μ A (Option α) := do
  match ← S.getNode w (← MonadState.get).root S.init with
  | none => return none
  | some node =>
    let n ← S.load node
    if n.terminal then return some n.value else return none

/-- The constructor, on what it finds: the root is allocated, under a key of its own. -/
def create (h : κ) (m : μ) (nowhere : A) : EStateM.Result Fault (ValueTrieState μ A) Unit :=
  (do
    let (_, root) ← S.alloc h
    modify fun t => { t with root := root } : ValueM μ A Unit) ⟨m, nowhere, 0⟩

end NodeStore

/-- A call of a member function. -/
inductive ValueCall (α : Type) where
  | set (w : Word) (v : α)
  | remove (w : Word)
  | get (w : Word)

/-- What a call answers: the flag of `set` and `remove`, the value of `get`. -/
inductive ValueAnswer (α : Type) where
  | flag (b : Bool)
  | value (o : Option α)

namespace ValueCall

variable {α : Type}

/-- The word. -/
def word : ValueCall α → Word
  | set w _ => w
  | remove w => w
  | get w => w

/-- The word has no byte above `127`. -/
def Ascii (k : ValueCall α) : Prop := ∀ c ∈ k.word, c < 128

end ValueCall

/-- The member function that is called. -/
def NodeStore.run {μ A P κ α : Type} (S : NodeStore μ A P κ α) [DecidableEq P] :
    ValueCall α → ValueM μ A (ValueAnswer α)
  | .set w v => .flag <$> S.set w v
  | .remove w => .flag <$> S.remove w
  | .get w => .value <$> S.get w

/-- One call after the other. -/
def NodeStore.runs {μ A P κ α : Type} (S : NodeStore μ A P κ α) [DecidableEq P] :
    List (ValueCall α) → ValueM μ A (List (ValueAnswer α))
  | [] => return []
  | k :: calls => do
    let r ← S.run k
    let answers ← S.runs calls
    return r :: answers

end TinyPointerTrees
