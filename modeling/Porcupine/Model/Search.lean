import Porcupine.Model.Arena
import Porcupine.Model.Bitset
import Porcupine.Common.Machine
/-!
# The search

`check_single` of `src/checker.rs`. `Search` holds the locals of its
loop, `Search.step` is one pass through the loop body after the load of
the kill flag, and `checkSingle` is the loop as a machine, for the runs in
which that load never reads true. The load itself is a step of the
threads in `Model/Parallel.lean`.
-/

namespace Porcupine

variable {State Input Output : Type}

/-- A linearization prefix and the model state it leads to. -/
structure CacheEntry (State : Type) where
  linearized : Bitset
  state : State

/-- `FxHashMap<u64, SmallVec<[CacheEntry; 2]>>`: the entries under each
key, none for a key that is absent. -/
abbrev Cache (State : Type) := BitVec 64 → List (CacheEntry State)

/-- `cache.entry(h).or_insert_with(SmallVec::new).push(entry)`. -/
def Cache.push (cache : Cache State) (h : BitVec 64) (entry : CacheEntry State) : Cache State :=
  Function.update cache h (cache h ++ [entry])

/-- Probes the cache as if `bitPos` were already set in `bitset`. -/
def cacheContainsWithBit [BEq State] (cache : Cache State) (hash : BitVec 64) (bitset : Bitset)
    (bitPos : ℕ) (state : State) : Bool :=
  (cache hash).any fun e => bitset.eqWithBit bitPos e.linearized && e.state == state

structure CallFrame (State : Type) where
  /-- The call node that was linearized. -/
  nodeRef : ℕ
  /-- Model state before this linearization step. -/
  state : State

/-- The locals of the loop of `check_single`. -/
structure Search (State Input Output : Type) where
  arena : NodeArena Input Output
  linearized : Bitset
  cache : Cache State
  /-- The backtrack stack, its top first. -/
  calls : List (CallFrame State)
  state : State
  cursor : Option ℕ

namespace Search

/-- What precedes the loop: a verdict on no entries at all, and otherwise
the locals. -/
def start (model : Model State Input Output) (entries : List (Entry Input Output)) :
    Result (Search State Input Output ⊕ Bool) :=
  if entries.isEmpty then return .inr true
  else do
    let arena ← NodeArena.fromEntries entries
    let cursor ← arena.headNext
    return .inl ⟨arena, .new (entries.length / 2), fun _ => [], [], model.init, cursor⟩

/-- `as_ref().unwrap()`. -/
def unwrapValue (node : Node Input Output) : Result (EntryValue Input Output) :=
  match node.value with
  | some value => .ok value
  | none => .error .unwrapNone

/-- The input and output of a call node and the return node it matches. -/
def callAndReturn (call ret : Node Input Output) : Result (Input × Output) := do
  match ← unwrapValue call, ← unwrapValue ret with
  | .call input, .ret output => return (input, output)
  | _, _ => .error .matchNotReturn

/-- A call node: a candidate for linearization. -/
def tryCall [BEq State] (debug : Bool) (model : Model State Input Output)
    (s : Search State Input Output) (idx retRef : ℕ) : Result (Search State Input Output) := do
  let node ← readAt s.arena.nodes idx
  let ret ← readAt s.arena.nodes retRef
  let opId := node.id
  let (input, output) ← callAndReturn node ret
  match model.step s.state input output with
  | some nextState =>
    let h ← s.linearized.hashWithBit opId
    if !cacheContainsWithBit s.cache h s.linearized opId nextState then
      let newLinearized ← s.linearized.set opId
      let linearized ← s.linearized.set opId
      let arena ← s.arena.lift debug idx
      let cursor ← arena.headNext
      return {
        arena, linearized, cursor
        cache := s.cache.push h ⟨newLinearized, nextState⟩
        calls := ⟨idx, s.state⟩ :: s.calls
        state := nextState }
    else
      -- already explored this (bitset, state)
      return { s with cursor := ← s.arena.nextOf idx }
  | none => return { s with cursor := ← s.arena.nextOf idx }

/-- A return node that blocks progress: undo the latest linearization, or
fail if there is none. -/
def backtrack (debug : Bool) (s : Search State Input Output) :
    Result (Search State Input Output ⊕ Bool) :=
  match s.calls with
  | [] => return .inr false
  | frame :: calls => do
    let node ← readAt s.arena.nodes frame.nodeRef
    let linearized ← s.linearized.clear node.id
    let arena ← s.arena.unlift debug frame.nodeRef
    let cursor ← arena.nextOf frame.nodeRef
    return .inl { s with arena, linearized, calls, cursor, state := frame.state }

/-- **One pass through the loop**, after the kill flag has read false. -/
def step [BEq State] (debug : Bool) (model : Model State Input Output)
    (s : Search State Input Output) : Result (Search State Input Output ⊕ Bool) :=
  match s.cursor with
  | none => return .inr true
  | some idx => do
    match ← s.arena.matchOf idx with
    | some retRef => return .inl (← s.tryCall debug model idx retRef)
    | none => s.backtrack debug

end Search

/-- The loop of `check_single`, in the runs that are not killed. -/
def checkSingle [BEq State] (debug : Bool) (model : Model State Input Output) :
    Transition.Machine (Search State Input Output) Unit Bool where
  step _ s := match s.step debug model with
    | .ok (.inl s') => some s'
    | _ => none
  result s := match s.step debug model with
    | .ok (.inr b) => some b
    | _ => none

end Porcupine
