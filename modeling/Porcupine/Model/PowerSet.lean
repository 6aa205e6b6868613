import Porcupine.Model.Types
/-!
# Nondeterministic specifications

The `NondeterministicModel` trait of `src/model.rs` and the two power-set
adapters that turn one into a `Model`.
-/

namespace Porcupine

variable {State Input Output : Type}

/-- A sequential specification whose step returns every valid successor. -/
structure NondeterministicModel (State Input Output : Type) where
  /-- All possible initial states. -/
  init : List State
  /-- All valid successor states for the given transition. -/
  step : State → Input → Output → List State
  partition : List (Operation Input Output) → Option (List (List ℕ)) := fun _ => none
  partitionEvents : List (Event Input Output) → Option (List (List ℕ)) := fun _ => none

/-- The loop of `deduplicate`. -/
def deduplicateInto [BEq State] : List State → List State → List State
  | out, [] => out
  | out, s :: states => deduplicateInto (if out.contains s then out else out ++ [s]) states

/-- Remove duplicate states, preserving first-occurrence order. -/
def deduplicate [BEq State] (states : List State) : List State :=
  deduplicateInto [] states

/-- **The power-set construction**: the states the system could currently
be in, as a deterministic model. -/
def PowerSetModel [BEq State] (m : NondeterministicModel State Input Output) :
    Model (List State) Input Output where
  init := deduplicate m.init
  step states input output :=
    let deduped := deduplicate (states.flatMap fun s => m.step s input output)
    if deduped.isEmpty then none else some deduped
  partition := m.partition
  partitionEvents := m.partitionEvents

/-- The loop of `deduplicate_hashed`: `seen.insert(..)` is true when the
state was not in the set yet. -/
def deduplicateHashedInto [BEq State] [Hashable State] :
    Std.HashSet State → List State → List State → List State
  | _, out, [] => out
  | seen, out, s :: states =>
    let (contained, seen) := seen.containsThenInsert s
    deduplicateHashedInto seen (if !contained then out ++ [s] else out) states

/-- Remove duplicate states using a hash set. -/
def deduplicateHashed [BEq State] [Hashable State] (states : List State) : List State :=
  deduplicateHashedInto (.emptyWithCapacity states.length) [] states

/-- Like `PowerSetModel`, with a hash set to deduplicate. -/
def HashedPowerSetModel [BEq State] [Hashable State] (m : NondeterministicModel State Input Output) :
    Model (List State) Input Output where
  init := deduplicateHashed m.init
  step states input output :=
    let deduped := deduplicateHashed (states.flatMap fun s => m.step s input output)
    if deduped.isEmpty then none else some deduped
  partition := m.partition
  partitionEvents := m.partitionEvents

end Porcupine
