import Porcupine.Model.Types
import Mathlib.Logic.Function.Basic
/-!
# The debug gate

The assertions of `src/invariants.rs` that the two entry points run on
their input and on what the model's partition returns. All of them are
debug assertions: a release build skips them.
-/

namespace Porcupine

variable {Input Output : Type}

/-- Every operation has `call ≤ return_time`. -/
def assertWellFormed (debug : Bool) (ops : List (Operation Input Output)) : Result Unit :=
  ops.forM fun op => debugAssert debug (op.call ≤ op.returnTime)
    (.callAfterReturn op.clientId op.call op.returnTime)

/-! ## Partitions -/

/-- `idx_to_part`, and how many indices have been claimed in it. -/
abbrev Covering := List (Option ℕ) × ℕ

/-- One index of a partition: in bounds, and not claimed before. -/
def claimIndex (n partId : ℕ) (covering : Covering) (idx : ℕ) : Result Covering := do
  debugAssert true (idx < n) (.partitionOutOfBounds idx n)
  let owner ← readAt covering.1 idx
  debugAssert true owner.isNone (.partitionOverlap idx)
  let idxToPart ← writeAt covering.1 idx (some partId)
  return (idxToPart, covering.2 + 1)

/-- One partition. -/
def scanPartition (n : ℕ) (covering : Covering) : List ℕ × ℕ → Result Covering
  | (partition, partIdx) =>
    if partIdx < 2 ^ 32 then partition.foldlM (claimIndex n partIdx) covering
    else .error .partitionCount

/-- Walks every partition once. Returns the partition that owns each
index. -/
def scanPartitionCovering (partitions : List (List ℕ)) (n : ℕ) : Result (List (Option ℕ)) := do
  let (idxToPart, count) ← partitions.zipIdx.foldlM (scanPartition n) (List.replicate n none, 0)
  debugAssert true (count = n) (.partitionMissing count n (n - count))
  return idxToPart

/-- Operations form: the partition output is disjoint, complete and
in-bounds. -/
def assertPartitionCoversOps (debug : Bool) (partitions : List (List ℕ)) (historyLen : ℕ) :
    Result Unit := do
  if !debug then return ()
  let _ ← scanPartitionCovering partitions historyLen
  return ()

/-- The partition recorded at the call of each event id. -/
abbrev CallPart := ℕ → Option ℕ

/-- One event of the pairing pass. -/
def checkPaired (idxToPart : List (Option ℕ)) (callPart : CallPart) :
    Event Input Output × ℕ → Result CallPart
  | (ev, pos) => do
    match ← readAt idxToPart pos with
    | none => .error .partitionCoversSome
    | some part =>
      match ev.kind with
      | .call => return Function.update callPart ev.id (some part)
      | .ret =>
        match callPart ev.id with
        | some cpart =>
          debugAssert true (cpart = part) (.pairSplit ev.id cpart part)
          return callPart
        | none => return callPart

/-- Events form: the partition output is disjoint, complete, in-bounds, and
keeps every call/return pair together. -/
def assertPartitionEventsPaired (debug : Bool) (partitions : List (List ℕ))
    (history : List (Event Input Output)) : Result Unit := do
  if !debug then return ()
  let idxToPart ← scanPartitionCovering partitions history.length
  let _ ← history.zipIdx.foldlM (checkPaired idxToPart) (fun _ => none)
  return ()

/-! ## Event histories -/

/-- `call_pos` and `return_pos`: the position of each id's call and
return. -/
structure Positions where
  callPos : List (ℕ × ℕ)
  returnPos : List (ℕ × ℕ)

/-- One event of the first pass. -/
def recordEvent (seen : Positions) : Event Input Output × ℕ → Result Positions
  | (ev, pos) =>
    match ev.kind with
    | .call => do
      debugAssert true ev.input.isSome (.callWithoutInput ev.id pos)
      debugAssert true (seen.callPos.lookup ev.id).isNone (.callRepeated ev.id)
      return { seen with callPos := (ev.id, pos) :: seen.callPos }
    | .ret => do
      debugAssert true ev.output.isSome (.returnWithoutOutput ev.id pos)
      debugAssert true (seen.returnPos.lookup ev.id).isNone (.returnRepeated ev.id)
      return { seen with returnPos := (ev.id, pos) :: seen.returnPos }

/-- Every call must have a matching return, and must precede it. -/
def checkCall (returnPos : List (ℕ × ℕ)) : ℕ × ℕ → Result Unit
  | (id, cPos) =>
    match returnPos.lookup id with
    | none => .error (.callUnmatched id cPos)
    | some rPos => debugAssert true (cPos < rPos) (.callNotBeforeReturn id cPos rPos)

/-- Every return must have a matching call. -/
def checkReturn (callPos : List (ℕ × ℕ)) : ℕ × ℕ → Result Unit
  | (id, rPos) => debugAssert true (callPos.lookup id).isSome (.returnUnmatched id rPos)

/-- Every id has exactly one call, with its input, and exactly one return,
with its output, and the call comes first. -/
def assertWellFormedEvents (debug : Bool) (events : List (Event Input Output)) : Result Unit := do
  if !debug then return ()
  let seen ← events.zipIdx.foldlM recordEvent ⟨[], []⟩
  seen.callPos.forM (checkCall seen.returnPos)
  seen.returnPos.forM (checkReturn seen.callPos)

end Porcupine
