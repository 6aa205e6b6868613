import Porcupine.Model.Entries
/-!
# The arena

The index-based doubly linked list of `src/checker.rs`. The sentinel is
node 0 and the entries are nodes 1, 2, … in order. Node references are
unsigned 32-bit integers: building the arena truncates them, and the
largest one stands for an absent reference.
-/

namespace Porcupine

variable {Input Output : Type}

/-- `NodeRef::NONE`, which is `u32::MAX`. -/
def NONE : ℕ := 2 ^ 32 - 1

/-- `as u32`. -/
def asU32 (n : ℕ) : ℕ := n % 2 ^ 32

structure Node (Input Output : Type) where
  /-- `none` only for the sentinel. -/
  value : Option (EntryValue Input Output)
  id : ℕ
  /-- `NONE` if absent. -/
  matchIdx : ℕ
  prev : ℕ
  /-- `NONE` if absent. -/
  next : ℕ
  deriving DecidableEq, Repr

structure NodeArena (Input Output : Type) where
  nodes : List (Node Input Output)
  deriving DecidableEq, Repr

namespace NodeArena

/-- The sentinel, before the nodes are linked. -/
def sentinel : Node Input Output := ⟨none, NONE, NONE, 0, NONE⟩

/-- The slot of an entry, before it is matched and linked. -/
def slot (entry : Entry Input Output) : Node Input Output :=
  ⟨some entry.value, asU32 entry.id, NONE, 0, NONE⟩

/-- Records where each operation's return is. -/
def recordReturn (returnIdx : List ℕ) : Entry Input Output × ℕ → Result (List ℕ)
  | (entry, i) =>
    if entry.value.isReturn then writeAt returnIdx entry.id (asU32 (i + 1)) else return returnIdx

/-- Fills `match_idx` for a call node. -/
def fillMatch (returnIdx : List ℕ) (node : Node Input Output) : Result (Node Input Output) :=
  if node.value.any EntryValue.isCall then do
    let retRef ← readAt returnIdx node.id
    if retRef ≠ NONE then return { node with matchIdx := retRef } else return node
  else return node

/-- Links a node to the ones before and after it in order. -/
def linkNode (n : ℕ) : Node Input Output × ℕ → Node Input Output
  | (node, i) =>
    { node with prev := asU32 (i - 1), next := if i < n then asU32 (i + 1) else node.next }

/-- Build the arena from a sorted entry list. -/
def fromEntries (entries : List (Entry Input Output)) : Result (NodeArena Input Output) := do
  let n := entries.length
  let returnIdx ← entries.zipIdx.foldlM recordReturn (List.replicate (n / 2) NONE)
  let nodes ← (entries.map slot).mapM (fillMatch returnIdx)
  return ⟨{ sentinel with next := if 0 < n then 1 else NONE } ::
    (nodes.zipIdx 1).map (linkNode n)⟩

variable (a : NodeArena Input Output)

/-- A reference, unless it is the absent one. -/
def ofRaw (r : ℕ) : Option ℕ := if r = NONE then none else some r

/-- Index of the first live node after the sentinel. -/
def headNext : Result (Option ℕ) := do
  let node ← readAt a.nodes 0
  return ofRaw node.next

/-- Next node after `r`, or `none` if at end. -/
def nextOf (r : ℕ) : Result (Option ℕ) := do
  let node ← readAt a.nodes r
  return ofRaw node.next

/-- Match index for a call node, or `none` for return/sentinel. -/
def matchOf (r : ℕ) : Result (Option ℕ) := do
  let node ← readAt a.nodes r
  return ofRaw node.matchIdx

/-- `self.nodes[i].next = next`. -/
def setNext (i next : ℕ) : Result (NodeArena Input Output) := do
  let node ← readAt a.nodes i
  return ⟨a.nodes.set i { node with next }⟩

/-- `self.nodes[i].prev = prev`. -/
def setPrev (i prev : ℕ) : Result (NodeArena Input Output) := do
  let node ← readAt a.nodes i
  return ⟨a.nodes.set i { node with prev }⟩

/-- Unlink one node, which keeps its own links. -/
def unlink (r : ℕ) : Result (NodeArena Input Output) := do
  let node ← readAt a.nodes r
  let a ← a.setNext node.prev node.next
  if node.next ≠ NONE then a.setPrev node.next node.prev else return a

/-- Link one node back in between the neighbours it kept. -/
def relink (r : ℕ) : Result (NodeArena Input Output) := do
  let node ← readAt a.nodes r
  let a ← a.setNext node.prev r
  if node.next ≠ NONE then a.setPrev node.next r else return a

/-- Remove a call and its matched return node from the live list. -/
def lift (debug : Bool) (callRef : ℕ) : Result (NodeArena Input Output) := do
  let node ← readAt a.nodes callRef
  debugAssert debug (node.matchIdx ≠ NONE) .matchIsNone
  let a ← a.unlink callRef
  a.unlink node.matchIdx

/-- Re-insert a call and its matched return node, in the reverse order. -/
def unlift (debug : Bool) (callRef : ℕ) : Result (NodeArena Input Output) := do
  let node ← readAt a.nodes callRef
  debugAssert debug (node.matchIdx ≠ NONE) .matchIsNone
  let a ← a.relink node.matchIdx
  a.relink callRef

end NodeArena

end Porcupine
