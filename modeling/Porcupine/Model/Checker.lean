import Porcupine.Model.Parallel
import Porcupine.Model.Invariants
/-!
# The entry points

`check_operations` and `check_events` of `src/checker.rs`: the debug gate,
the partitions, and a check about to start on them.
-/

namespace Porcupine

variable {State Input Output : Type}

/-- The check the entry points start, unless they panic before. -/
def Check.begin (timeout : Option ℕ) :
    Result (List (List (Entry Input Output))) → Check State Input Output
  | .ok partitions => { main := .start timeout partitions }
  | .error p => { main := .panicked p }

/-- The entry lists `check_operations` checks. -/
def operationPartitions (debug : Bool) (model : Model State Input Output)
    (history : List (Operation Input Output)) : Result (List (List (Entry Input Output))) := do
  assertWellFormed debug history
  match model.partition history with
  | some parts => do
    assertPartitionCoversOps debug parts history.length
    parts.mapM (makeEntriesFromIndices history)
  | none => return [makeEntries history]

/-- Check an operation-based history for linearizability. -/
def checkOperations (debug : Bool) (model : Model State Input Output)
    (history : List (Operation Input Output)) (timeout : Option ℕ) : Check State Input Output :=
  .begin timeout (operationPartitions debug model history)

/-- The entry lists `check_events` checks. -/
def eventPartitions (debug : Bool) (model : Model State Input Output)
    (history : List (Event Input Output)) : Result (List (List (Entry Input Output))) := do
  assertWellFormedEvents debug history
  match model.partitionEvents history with
  | some parts => do
    assertPartitionEventsPaired debug parts history
    parts.mapM (convertEntriesFromIndices history)
  | none => return [← convertEntries (renumber history)]

/-- Check an event-based history for linearizability. -/
def checkEvents (debug : Bool) (model : Model State Input Output)
    (history : List (Event Input Output)) (timeout : Option ℕ) : Check State Input Output :=
  .begin timeout (eventPartitions debug model history)

end Porcupine
