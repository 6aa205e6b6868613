import Porcupine.Common.Json
import Porcupine.Common.Text
import Porcupine.Model.Checker
import Porcupine.Model.S2
/-!
# The stream checker

`examples/s2_checker.rs` from the content of a log to an exit code: the
parser of the log, of which `tests/s2_model.rs` has the same, and `main`
once it has its arguments and has read the file. What a line says as JSON
is left to a parameter, as the JSON parser is a library.
-/

namespace Porcupine

namespace S2

/-- The ways the parser panics, with what its message interpolates. -/
inductive LogPanic
  /-- "failed to parse line", and why. -/
  | unparsed (e line : String)
  /-- `unwrap` where there is no 64-bit unsigned integer. -/
  | noU64
  /-- "unknown Start string". -/
  | unknownStart (other : String)
  /-- "unrecognised Start event". -/
  | unrecognisedStart (v : Json)
  /-- "unknown Finish string". -/
  | unknownFinish (other : String)
  /-- "unrecognised Finish event". -/
  | unrecognisedFinish (v : Json)
  /-- "event has neither Start nor Finish". -/
  | neither (event : Json)

/-- `v[key].as_u64().unwrap()`. -/
def unwrapU64 (v : Json) (key : String) : Except LogPanic UInt64 :=
  match (v.index key).asU64 with
  | some n => .ok n
  | none => .error .noU64

/-- What an operation is called with. Lengths keep their low 32 bits. -/
def parseStart (v : Json) : Except LogPanic S2Input :=
  match v.asStr with
  | some s =>
    if s = "Read" then .ok .read
    else if s = "CheckTail" then .ok .checkTail
    else .error (.unknownStart s)
  | none =>
    match v.get "Append" with
    | some append => do
      let numRecords ← unwrapU64 append "num_records"
      let xxh3 ← unwrapU64 append "last_record_xxh3"
      let setFencingToken := (append.get "set_fencing_token").bind Json.asStr
      let fencingToken := (append.get "fencing_token").bind Json.asStr
      let matchSeqNum := ((append.get "match_seq_num").bind Json.asU64).map UInt64.toUInt32
      return .append numRecords.toUInt32 xxh3 setFencingToken fencingToken matchSeqNum
    | none => .error (.unrecognisedStart v)

/-- What an operation returns. -/
def parseFinish (v : Json) : Except LogPanic S2Output :=
  match v.asStr with
  | some s =>
    if s = "AppendDefiniteFailure" then .ok .appendDefiniteFailure
    else if s = "AppendIndefiniteFailure" then .ok .appendIndefiniteFailure
    else if s = "ReadFailure" then .ok .readFailure
    else if s = "CheckTailFailure" then .ok .checkTailFailure
    else .error (.unknownFinish s)
  | none =>
    match v.get "AppendSuccess", v.get "ReadSuccess", v.get "CheckTailSuccess" with
    | some inner, _, _ => do
      let tail ← unwrapU64 inner "tail"
      return .appendSuccess tail.toUInt32
    | none, some inner, _ => do
      let tail ← unwrapU64 inner "tail"
      let xxh3 ← unwrapU64 inner "xxh3"
      return .readSuccess tail.toUInt32 xxh3
    | none, none, some inner => do
      let tail ← unwrapU64 inner "tail"
      return .checkTailSuccess tail.toUInt32
    | none, none, none => .error (.unrecognisedFinish v)

/-- The event of a record. -/
def parseRecord (record : Json) : Except LogPanic (Event S2Input S2Output) := do
  let clientId ← unwrapU64 record "client_id"
  let opId ← unwrapU64 record "op_id"
  let eventObj := record.index "event"
  match eventObj.get "Start", eventObj.get "Finish" with
  | some startVal, _ => do
    let input ← parseStart startVal
    return ⟨clientId.toNat, .call, some input, none, opId.toNat⟩
  | none, some finishVal => do
    let output ← parseFinish finishVal
    return ⟨clientId.toNat, .ret, none, some output, opId.toNat⟩
  | none, none => .error (.neither eventObj)

/-- The events of a log. Its lines are trimmed, and blank ones are passed
over. -/
def parseS2Jsonl (fromStr : String → Except String Json) (input : String) :
    Except LogPanic (List (Event S2Input S2Output)) :=
  (((Text.lines input).map Text.trim).filter (· ≠ "")).mapM fun line =>
    match fromStr line with
    | .ok record => parseRecord record
    | .error e => .error (.unparsed e line)

/-- The check that `main` runs, once it has parsed the content. -/
def main (debug : Bool) (fromStr : String → Except String Json) (content : String)
    (timeout : Option ℕ) : Except LogPanic (Check (List S2StreamState) S2Input S2Output) := do
  let events ← parseS2Jsonl fromStr content
  return checkEvents debug (PowerSetModel S2StreamModel) events timeout

end S2

end Porcupine
