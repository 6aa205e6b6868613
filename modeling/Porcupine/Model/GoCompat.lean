import Porcupine.Model.Fixtures
import Mathlib.Data.Finmap
import Mathlib.Data.List.Destutter
/-!
# The models and the log parsers ported from Go

The specifications of `tests/go_compat.rs`, and its two log parsers, from
where a line has been split into its fields on. Integers are unbounded,
since they are only stored and compared. Where the code walks a hash map
the order is a parameter.
-/

namespace Porcupine

namespace GoCompat

/-! ## A key of etcd -/

inductive EtcdOp
  | read
  | write
  | cas
  deriving DecidableEq, Repr

structure EtcdInput where
  op : EtcdOp
  arg1 : ℤ
  arg2 : ℤ
  deriving DecidableEq, Repr

structure EtcdOutput where
  ok : Bool
  present : Bool
  value : ℤ
  /-- The operation timed out. -/
  unknown : Bool
  deriving DecidableEq, Repr

/-- A single key supporting read, write and compare-and-set, absent at
first. -/
def EtcdModel : Model (Option ℤ) EtcdInput EtcdOutput where
  init := none
  step state input output :=
    match input.op with
    | .read =>
      let ok := match state with
        | none => !output.present || output.unknown
        | some v => output.present && output.value == v || output.unknown
      if ok then some state else none
    | .write => some (some input.arg1)
    | .cas =>
      let stMatches := state == some input.arg1
      let nextState := if stMatches then some input.arg2 else state
      if stMatches && output.ok || !stMatches && !output.ok || output.unknown then some nextState
      else none

/-! ## Key-value stores -/

inductive KvOp
  | get
  | put
  | append
  deriving DecidableEq, Repr

structure KvInput where
  op : KvOp
  key : String
  value : String
  deriving DecidableEq, Repr

structure KvOutput where
  value : String
  deriving DecidableEq, Repr

/-- The key of each id, which its calls carry. The last one counts. -/
def idToKey (history : List (Event KvInput KvOutput)) : List (ℕ × String) :=
  history.foldl (fun keys ev =>
    match ev.kind, ev.input with
    | .call, some input => (ev.id, input.key) :: keys
    | _, _ => keys) []

/-- The value of one key, all keys being apart. The partition lists them in
the order in which `visit` walks the map. -/
def KvModel (visit : List (String × List ℕ) → List (String × List ℕ)) :
    Model String KvInput KvOutput where
  init := ""
  step state input output :=
    match input.op with
    | .get => if output.value = state then some state else none
    | .put => some input.value
    | .append => some (state ++ input.value)
  partition history :=
    some ((visit (indicesByKey (fun op => some op.input.key) history)).map Prod.snd)
  partitionEvents history :=
    some ((visit (indicesByKey (fun ev => (idToKey history).lookup ev.id) history)).map Prod.snd)

/-- The same store as one map of all keys. -/
def KvNoPartitionModel : Model (Finmap fun _ : String => String) KvInput KvOutput where
  init := ∅
  step state input output :=
    match input.op with
    | .get => if output.value = (state.lookup input.key).getD "" then some state else none
    | .put => some (state.insert input.key input.value)
    | .append =>
      some (state.insert input.key ((state.lookup input.key).getD "" ++ input.value))

/-! ## Sets -/

inductive SetOp
  | add
  | read
  deriving DecidableEq, Repr

structure SetInput where
  op : SetOp
  value : ℤ
  deriving DecidableEq, Repr

structure SetOutput where
  values : List ℤ
  unknown : Bool
  deriving DecidableEq, Repr

/-- A set, kept as a sorted vector without duplicates. -/
def SetModel : Model (List ℤ) SetInput SetOutput where
  init := []
  step state input output :=
    match input.op with
    | .add => some ((state ++ [input.value]).mergeSort.destutter (· ≠ ·))
    | .read =>
      if output.unknown then some state
      else
        let vals := output.values.mergeSort
        -- duplicates in the output make this observation impossible
        if (vals.zip vals.tail).any fun w => w.1 == w.2 then none
        else if vals = state then some state else none

/-! ## Log parsers -/

/-- The ways the parsers panic on a line that has its fields. -/
inductive LogPanic
  /-- `unwrap` where a value has no integer. -/
  | unreadable
  /-- "unknown kv op". -/
  | unknownKvOp
  /-- "unmatched :ok for process". -/
  | unmatchedOk (process : ℕ)
  deriving DecidableEq, Repr

/-- What a parser has come to: its events, the next id, and the id of each
process's outstanding call. -/
structure LogParser (Input Output : Type) where
  events : List (Event Input Output)
  idCounter : ℕ
  pending : List (ℕ × ℕ)

namespace LogParser

variable {Input Output : Type}

def start : LogParser Input Output := ⟨[], 0, []⟩

/-- `pending.remove(&process)`, without what it returns. -/
def removed (process : ℕ) (pending : List (ℕ × ℕ)) : List (ℕ × ℕ) :=
  pending.filter fun x => x.1 != process

/-- A new id for a call of the process, which takes the place of one that
is outstanding. -/
def allocate (parser : LogParser Input Output) (process : ℕ) : LogParser Input Output :=
  { parser with
    idCounter := parser.idCounter + 1
    pending := (process, parser.idCounter) :: removed process parser.pending }

def release (parser : LogParser Input Output) (process : ℕ) : LogParser Input Output :=
  { parser with pending := removed process parser.pending }

def push (parser : LogParser Input Output) (ev : Event Input Output) : LogParser Input Output :=
  { parser with events := parser.events ++ [ev] }

end LogParser

/-- The second field of a Jepsen line. -/
inductive JepsenStatus
  | invoke
  | ok
  | fail
  /-- `:info`, and anything else. -/
  | other
  deriving DecidableEq, Repr

/-- The third field. -/
inductive JepsenOp
  | read
  | write
  | cas
  | other
  deriving DecidableEq, Repr

/-- The fourth field, by what there is to read in it. -/
inductive JepsenValue
  | nil
  | timedOut
  | number (n : ℤ)
  /-- Two integers, in brackets or not. -/
  | pair (arg1 arg2 : ℤ)
  | other
  deriving DecidableEq, Repr

/-- A line that names `jepsen.util` and has its four fields. -/
structure JepsenLine where
  process : ℕ
  status : JepsenStatus
  op : JepsenOp
  val : JepsenValue
  deriving DecidableEq, Repr

namespace JepsenLine

/-- The input that a call is logged with, unless the line is passed
over. -/
def input (line : JepsenLine) : Except LogPanic (Option EtcdInput) :=
  match line.op, line.val with
  | .read, _ => .ok (some ⟨.read, 0, 0⟩)
  | .write, .number n => .ok (some ⟨.write, n, 0⟩)
  | .cas, .pair arg1 arg2 => .ok (some ⟨.cas, arg1, arg2⟩)
  | .other, _ => .ok none
  | _, _ => .error .unreadable

/-- What a call is taken to have returned when nobody knows. -/
def unknownOutput : EtcdOutput := ⟨false, false, 0, true⟩

/-- The output that a return is logged with. -/
def output (line : JepsenLine) : Except LogPanic (Option EtcdOutput) :=
  match line.op, line.val with
  | .read, .nil => .ok (some ⟨true, false, 0, false⟩)
  | .read, .number n => .ok (some ⟨true, true, n, false⟩)
  | .read, .timedOut => if line.status = .fail then .ok (some unknownOutput) else .error .unreadable
  | .read, _ => .error .unreadable
  | .write, _ => .ok (some ⟨true, false, 0, false⟩)
  | .cas, _ => .ok (some ⟨line.status == .ok, false, 0, false⟩)
  | .other, _ => .ok none

/-- A return of the process's outstanding call. -/
def parseReturn (parser : LogParser EtcdInput EtcdOutput) (line : JepsenLine) :
    Except LogPanic (LogParser EtcdInput EtcdOutput) :=
  match parser.pending.lookup line.process with
  | none => .ok parser -- unmatched return
  | some eid => do
    let parser := parser.release line.process
    match ← line.output with
    | none => .ok parser
    | some output => .ok (parser.push ⟨line.process, .ret, none, some output, eid⟩)

def parse (parser : LogParser EtcdInput EtcdOutput) (line : JepsenLine) :
    Except LogPanic (LogParser EtcdInput EtcdOutput) :=
  match line.status with
  | .invoke => do
    let eid := parser.idCounter
    let parser := parser.allocate line.process
    match ← line.input with
    | none => .ok parser
    | some input => .ok (parser.push ⟨line.process, .call, some input, none, eid⟩)
  | .ok => parseReturn parser line
  | .fail => parseReturn parser line
  | .other => .ok parser

end JepsenLine

/-- The events of a Jepsen log. Calls that never received a response
return at the end, in the order in which `visit` walks the map. -/
def parseJepsenLog (visit : List (ℕ × ℕ) → List (ℕ × ℕ)) (lines : List JepsenLine) :
    Except LogPanic (List (Event EtcdInput EtcdOutput)) := do
  let parser ← lines.foldlM JepsenLine.parse .start
  .ok (parser.events ++ (visit parser.pending).map fun x =>
    ⟨x.1, .ret, none, some JepsenLine.unknownOutput, x.2⟩)

/-- The `:type` of a line of a key-value log. -/
inductive KvType
  | invoke
  | ok
  | other
  deriving DecidableEq, Repr

/-- A line with its fields. A value `nil` is the empty string, and a
function that is no operation is `none`. -/
structure KvLine where
  process : ℕ
  typ : KvType
  f : Option KvOp
  key : String
  value : String
  deriving DecidableEq, Repr

def KvLine.parse (parser : LogParser KvInput KvOutput) (line : KvLine) :
    Except LogPanic (LogParser KvInput KvOutput) :=
  match line.typ with
  | .invoke =>
    match line.f with
    | some op => .ok ((parser.allocate line.process).push
        ⟨line.process, .call, some ⟨op, line.key, line.value⟩, none, parser.idCounter⟩)
    | none => .error .unknownKvOp
  | .ok =>
    match parser.pending.lookup line.process with
    | none => .error (.unmatchedOk line.process)
    | some eid => .ok ((parser.release line.process).push
        ⟨line.process, .ret, none, some ⟨line.value⟩, eid⟩)
  | .other => .ok parser

/-- The events of a key-value log. -/
def parseKvLog (lines : List KvLine) : Except LogPanic (List (Event KvInput KvOutput)) := do
  let parser ← lines.foldlM KvLine.parse .start
  .ok parser.events

end GoCompat

end Porcupine
