import Porcupine.Model.PowerSet
/-!
# The stream model

The nondeterministic specification of an S2 stream that
`examples/s2_checker.rs` and `tests/s2_model.rs` check histories against,
each the same. Lengths wrap as they do in a release build.
-/

namespace Porcupine

structure S2StreamState where
  tail : UInt32
  xxh3 : UInt64
  fencingToken : Option String
  deriving DecidableEq, Repr

/-- What an operation is called with. -/
inductive S2Input
  /-- The hash is that of the batch's last record. A token to set becomes
  the stream's, and the other two fields guard the append. -/
  | append (numRecords : UInt32) (xxh3 : UInt64) (setFencingToken fencingToken : Option String)
      (matchSeqNum : Option UInt32)
  | read
  | checkTail
  deriving DecidableEq, Repr

/-- What an operation returns. -/
inductive S2Output
  | appendSuccess (tail : UInt32)
  /-- The append did not become durable. -/
  | appendDefiniteFailure
  /-- The append may or may not have become durable. -/
  | appendIndefiniteFailure
  | readSuccess (tail : UInt32) (xxh3 : UInt64)
  | readFailure
  | checkTailSuccess (tail : UInt32)
  | checkTailFailure
  deriving DecidableEq, Repr

/-- The stream-storage model. -/
def S2StreamModel : NondeterministicModel S2StreamState S2Input S2Output where
  init := [⟨0, 0, none⟩]
  step state input output :=
    match input with
    | .append numRecords xxh3 setFencingToken fencingToken matchSeqNum =>
      let optimisticToken := setFencingToken.or state.fencingToken
      let optimistic : S2StreamState := ⟨state.tail + numRecords, xxh3, optimisticToken⟩
      match output with
      | .appendDefiniteFailure => [state]
      | .appendIndefiniteFailure =>
        -- a stream without a token does not rule a guarded append out
        if fencingToken.any fun bt => state.fencingToken.any fun ft => bt != ft then [state]
        else if matchSeqNum.any fun msn => msn != state.tail then [state]
        else [optimistic, state]
      | .appendSuccess tail =>
        -- but a guarded append that succeeded needs one
        if fencingToken.any fun bt => state.fencingToken.all fun ft => ft != bt then []
        else if matchSeqNum.any fun msn => msn != state.tail then []
        else if tail != optimistic.tail then []
        else [optimistic]
      | _ => []
    | .read =>
      match output with
      | .readSuccess tail xxh3 =>
        if state.xxh3 != xxh3 then [] else if state.tail == tail then [state] else []
      | .readFailure => [state]
      | _ => []
    | .checkTail =>
      match output with
      | .checkTailSuccess tail => if state.tail == tail then [state] else []
      | .checkTailFailure => [state]
      | _ => []

end Porcupine
