import Mathlib.Tactic

/-!
# The Aho-Corasick automaton

`aho_corasick/automaton.hpp` and `automaton.cpp`. The nodes are on the heap, and a
node is known by its number, the root being the first one. A pointer is a number
or null.

The loops that follow links are not bounded in the code; here they have `fuel`,
and nothing is the answer when it runs out or when a null pointer is dereferenced.
-/

namespace TinyPointerTrees.AhoCorasick

/-- `Node`. -/
structure Node where
  children : UInt8 → Option ℕ := fun _ => none
  suffixLink : Option ℕ := none
  terminalLink : Option ℕ := none
  /-- `wordLength`, an `int32_t`. -/
  wordLength : ℤ := -1

/-- `isTerminal`. -/
def Node.isTerminal (n : Node) : Bool := n.wordLength != -1

/-- The heap of an automaton; the root is node `0`. -/
structure Automaton where
  /-- The nodes. -/
  nodes : ℕ → Node
  /-- How many nodes have been allocated. -/
  size : ℕ

/-- `Match`. -/
@[ext] structure Match where
  start : ℕ
  /-- `end`. -/
  stop : ℕ
  word : List UInt8
  deriving DecidableEq, Repr

namespace Automaton

/-- `Automaton()`, which allocates the root. -/
def new : Automaton := ⟨fun _ => {}, 1⟩

/-- Change one node. -/
def modify (A : Automaton) (i : ℕ) (f : Node → Node) : Automaton :=
  { A with nodes := Function.update A.nodes i (f (A.nodes i)) }

/-- `node->children[c] = new Node()`; the new node is the last one. -/
def addChild (A : Automaton) (node : ℕ) (c : UInt8) : Automaton :=
  { A.modify node fun n => { n with
      children := Function.update n.children c (some A.size) } with
    size := A.size + 1 }

/-! ### `Create` -/

/-- The loop over the characters of a word; it answers the node it ends in. -/
def addChars : List UInt8 → ℕ → Automaton → ℕ × Automaton
  | [], node, A => (node, A)
  | c :: w, node, A =>
    match (A.nodes node).children c with
    | none => addChars w A.size (A.addChild node c)
    | some child => addChars w child A

/-- One word is added to the trie. Its length is narrowed to an `int32_t`. -/
def addWord (A : Automaton) (word : List UInt8) : Automaton :=
  let (node, A) := addChars word 0 A
  A.modify node fun n => { n with wordLength := (word.length : ℤ).bmod (2 ^ 32) }

/-- `while (node != root && node->children[c] == nullptr) node = node->suffixLink`. -/
def follow (A : Automaton) (c : UInt8) : (fuel : ℕ) → ℕ → Option ℕ
  | 0, _ => none
  | fuel + 1, node =>
    if node ≠ 0 ∧ (A.nodes node).children c = none then
      (A.nodes node).suffixLink.bind (follow A c fuel)
    else some node

/-- The link a child by `c` gets from the node it falls back to. -/
def fallbackLink (A : Automaton) (fallback child : ℕ) (c : UInt8) : ℕ :=
  match (A.nodes fallback).children c with
  | some s => if s ≠ child then s else 0
  | none => 0

/-- The body of the loop over the children: the child by `c` gets its suffix link and is
pushed. -/
def linkChild (fuel node : ℕ) : Automaton × List ℕ → UInt8 → Option (Automaton × List ℕ)
  | (A, queue), c =>
    match (A.nodes node).children c with
    | none => some (A, queue)
    | some child => do
      let link ← (A.nodes node).suffixLink
      let fallback ← follow A c fuel link
      return (A.modify child fun n =>
        { n with suffixLink := some (A.fallbackLink fallback child c) }, queue ++ [child])

/-- `for (int c = 0; c < 256; ++c)`. -/
def allBytes : List UInt8 := (List.range 256).map UInt8.ofNat

/-- The terminal link of a node: the nearest suffix that ends a word. -/
def terminalLinkOf (A : Automaton) (link : ℕ) : Option ℕ :=
  if (A.nodes link).isTerminal then some link else (A.nodes link).terminalLink

/-- What is done with a node that is popped. -/
def visit (fuel node : ℕ) (A : Automaton) (queue : List ℕ) : Option (Automaton × List ℕ) := do
  let link ← (A.nodes node).suffixLink
  allBytes.foldlM (linkChild fuel node)
    (A.modify node fun n => { n with terminalLink := A.terminalLinkOf link }, queue)

/-- `while (!queue.empty())`. -/
def visitAll (fuel : ℕ) : (rounds : ℕ) → Automaton → (queue : List ℕ) → Option Automaton
  | 0, _, _ => none
  | _ + 1, A, [] => some A
  | rounds + 1, A, node :: queue => do
    let (A, queue) ← visit fuel node A queue
    visitAll fuel rounds A queue

/-- The root's direct children fall back to the root on mismatch, and are the first to be pushed. -/
def linkRootChild : Automaton × List ℕ → UInt8 → Automaton × List ℕ
  | (A, queue), c =>
    match (A.nodes 0).children c with
    | none => (A, queue)
    | some child => (A.modify child fun n => { n with suffixLink := some 0 }, queue ++ [child])

/-- `Create`. -/
def create (fuel : ℕ) (words : List (List UInt8)) : Option Automaton :=
  let A := words.foldl addWord new
  let (A, queue) := allBytes.foldl linkRootChild (A, [])
  visitAll fuel fuel A queue

/-! ### `Search` -/

/-- `text.substr(pos, n)`, which throws when `pos` is past the end. The arguments are converted
to `size_t`, which makes a negative number larger than any string is long. -/
def substr (text : List UInt8) (pos n : ℤ) : Option (List UInt8) :=
  if 0 ≤ pos ∧ pos ≤ text.length then
    some ((text.drop pos.toNat).take (if n < 0 then text.length else n.toNat))
  else none

/-- The loop that reports the word ending at position `i` and every shorter one. -/
def report (A : Automaton) (text : List UInt8) (i : ℕ) : (fuel : ℕ) → Option ℕ → Option (List Match)
  | _, none => some []
  | 0, some _ => none
  | fuel + 1, some node => do
    let n := A.nodes node
    if n.isTerminal then
      let start := (i : ℤ) + 1 - n.wordLength
      let word ← substr text start n.wordLength
      let shorter ← report A text i fuel n.terminalLink
      return ⟨start.toNat, i, word⟩ :: shorter
    else report A text i fuel n.terminalLink

/-- The loop over the text, from position `i` on, where the characters `rest` are left. -/
def searchFrom (A : Automaton) (fuel : ℕ) (text : List UInt8) :
    (rest : List UInt8) → (i node : ℕ) → Option (List Match)
  | [], _, _ => some []
  | c :: rest, i, node => do
    let node ← follow A c fuel node
    let node := ((A.nodes node).children c).getD node
    let reported ← report A text i fuel (some node)
    let later ← searchFrom A fuel text rest (i + 1) node
    return reported ++ later

/-- `Search`. -/
def search (A : Automaton) (fuel : ℕ) (text : List UInt8) : Option (List Match) :=
  searchFrom A fuel text text 0 0

end Automaton

end TinyPointerTrees.AhoCorasick
