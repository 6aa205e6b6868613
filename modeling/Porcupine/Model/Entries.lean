import Porcupine.Model.Types
import Mathlib.Data.List.Sort
import Mathlib.Logic.Function.Basic
/-!
# Entries

The builders of `src/checker.rs` that flatten a history, or the part of
it that a partition lists, into call and return entries. Operations are
sorted by time, calls first at equal times; events keep the order they
are listed in, and their position is their time.
-/

namespace Porcupine

variable {Input Output : Type}

inductive EntryValue (Input Output : Type)
  | call (input : Input)
  | ret (output : Output)
  deriving DecidableEq, Repr

namespace EntryValue

def isCall : EntryValue Input Output → Bool
  | call _ => true
  | ret _ => false

def isReturn : EntryValue Input Output → Bool
  | call _ => false
  | ret _ => true

end EntryValue

structure Entry (Input Output : Type) where
  /-- Operation id; call and return share the same id. -/
  id : ℕ
  time : ℕ
  value : EntryValue Input Output
  deriving DecidableEq, Repr

/-- The comparison entries are sorted by: calls before returns at equal
timestamps. -/
def Entry.cmp (a b : Entry Input Output) : Ordering :=
  (compare a.time b.time).then <|
    match a.value, b.value with
    | .call _, .ret _ => .lt
    | .ret _, .call _ => .gt
    | _, _ => .eq

/-- `entries.sort_by(..)`, which is stable. -/
def sortEntries (entries : List (Entry Input Output)) : List (Entry Input Output) :=
  entries.insertionSort fun a b => a.cmp b ≠ .gt

/-- The two entries an operation is flattened into. -/
def entriesOf (id : ℕ) (op : Operation Input Output) : List (Entry Input Output) :=
  [⟨id, op.call, .call op.input⟩, ⟨id, op.returnTime, .ret op.output⟩]

/-- Flatten operations into a sorted list of entry pairs. -/
def makeEntries (ops : List (Operation Input Output)) : List (Entry Input Output) :=
  sortEntries (ops.zipIdx.flatMap fun (op, id) => entriesOf id op)

/-- Build entries for a partition directly from the full history and an
index list, assigning dense 0-based ids within the partition. -/
def makeEntriesFromIndices (history : List (Operation Input Output)) (indices : List ℕ) :
    Result (List (Entry Input Output)) := do
  let entries ← indices.zipIdx.mapM fun (globalIdx, localId) => do
    let op ← readAt history globalIdx
    return entriesOf localId op
  return sortEntries entries.flatten

/-- The id map of `renumber`, and the next id it hands out. -/
structure IdMap where
  map : ℕ → Option ℕ
  nextId : ℕ

namespace IdMap

/-- No id has been handed out. -/
def empty : IdMap := ⟨fun _ => none, 0⟩

/-- `*map.entry(id).or_insert_with(..)`: the new id of `id`, which is the
next one if `id` has none yet. -/
def assign (m : IdMap) (id : ℕ) : ℕ × IdMap :=
  match m.map id with
  | some newId => (newId, m)
  | none => (m.nextId, ⟨Function.update m.map id (some m.nextId), m.nextId + 1⟩)

end IdMap

/-- The loop of `renumber`. -/
def renumberFrom (m : IdMap) : List (Event Input Output) → List (Event Input Output)
  | [] => []
  | ev :: events => { ev with id := (m.assign ev.id).1 } :: renumberFrom (m.assign ev.id).2 events

/-- Renumber event ids to be contiguous starting at 0. -/
def renumber (events : List (Event Input Output)) : List (Event Input Output) :=
  renumberFrom .empty events

/-- The value of an event's entry. -/
def eventValue (ev : Event Input Output) : Result (EntryValue Input Output) :=
  match ev.kind with
  | .call =>
    match ev.input with
    | some input => .ok (.call input)
    | none => .error .callMustHaveInput
  | .ret =>
    match ev.output with
    | some output => .ok (.ret output)
    | none => .error .returnMustHaveOutput

/-- Convert renumbered events into entries, index as time. -/
def convertEntries (events : List (Event Input Output)) : Result (List (Entry Input Output)) :=
  events.zipIdx.mapM fun (ev, i) => do
    let value ← eventValue ev
    return ⟨ev.id, i, value⟩

/-- The loop of `convert_entries_from_indices`. -/
def convertFromIndices (history : List (Event Input Output)) (m : IdMap) :
    List (ℕ × ℕ) → Result (List (Entry Input Output))
  | [] => return []
  | (globalIdx, localTime) :: indices => do
    let ev ← readAt history globalIdx
    let (newId, m) := m.assign ev.id
    let value ← eventValue ev
    let entries ← convertFromIndices history m indices
    return ⟨newId, localTime, value⟩ :: entries

/-- Build entries for a partition directly from the full event history and
an index list, renumbering ids and converting in a single pass. -/
def convertEntriesFromIndices (history : List (Event Input Output)) (indices : List ℕ) :
    Result (List (Entry Input Output)) :=
  convertFromIndices history .empty indices.zipIdx

end Porcupine
