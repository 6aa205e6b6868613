import Porcupine.Model.Fixtures
/-!
# Operations turned into events

The two converters of `tests/common/mod.rs` through which one history is
given to both entry points. One lists the operations as they come, each
call followed by its return. The other sorts the calls and the returns by
time, calls first at equal times, as `make_entries` does.
-/

namespace Porcupine

variable {Input Output : Type}

/-- The call of the `i`th operation, or its return. -/
def opEvent (i : ℕ) (op : Operation Input Output) (isCall : Bool) : Event Input Output :=
  if isCall then ⟨op.clientId, .call, some op.input, none, i⟩
  else ⟨op.clientId, .ret, none, some op.output, i⟩

/-- Convert a sequential operation history to an ordered event slice. -/
def sequentialOpsToEvents (ops : List (Operation RegisterInput ℤ)) :
    List (Event RegisterInput ℤ) :=
  ops.zipIdx.flatMap fun (op, i) => [opEvent i op true, opEvent i op false]

/-- What the second one sorts: a time, whether it is a call's, and the
index of the operation. -/
structure TimedIndex where
  time : ℕ
  isCall : Bool
  index : ℕ
  deriving DecidableEq, Repr

/-- The comparison it sorts by. -/
def TimedIndex.cmp (a b : TimedIndex) : Ordering :=
  (compare a.time b.time).then <|
    match a.isCall, b.isCall with
    | true, false => .lt
    | false, true => .gt
    | _, _ => .eq

/-- Convert any operation history to an event slice ordered by time. -/
def opsToEventsSortedByTime (ops : List (Operation Input Output)) :
    Result (List (Event Input Output)) :=
  let entries : List TimedIndex :=
    ops.zipIdx.flatMap fun (op, i) => [⟨op.call, true, i⟩, ⟨op.returnTime, false, i⟩]
  (entries.insertionSort fun a b => a.cmp b ≠ .gt).mapM fun e => do
    let op ← readAt ops e.index
    return opEvent e.index op e.isCall

end Porcupine
