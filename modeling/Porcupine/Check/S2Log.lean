import Porcupine.Check.S2
import Porcupine.Check.Liveness
import Porcupine.Common.Failure
import Porcupine.Model.S2Log
/-!
# From a log to an exit code

A record of the log says which client called or returned from which
operation, and with what. The parser takes exactly the logs that say
records on their lines, and all it loses of a record are the high bits of
lengths (`s2Log_roundTrip`). So the checker exits with success exactly when
one append-only log explains the records (`s2Checker_exits`).
-/

namespace Porcupine

namespace S2

open Transition

/-- What a client calls, with lengths as they are logged. -/
inductive Start
  | append (numRecords xxh3 : UInt64) (setFencingToken fencingToken : Option String)
      (matchSeqNum : Option UInt64)
  | read
  | checkTail
  deriving DecidableEq, Repr

/-- What it gets back. -/
inductive Finish
  | appendSuccess (tail : UInt64)
  | appendDefiniteFailure
  | appendIndefiniteFailure
  | readSuccess (tail xxh3 : UInt64)
  | readFailure
  | checkTailSuccess (tail : UInt64)
  | checkTailFailure
  deriving DecidableEq, Repr

/-- **A record of the log.** -/
structure Record where
  clientId : UInt64
  opId : UInt64
  side : Start ⊕ Finish
  deriving DecidableEq, Repr

/-! ## What a record says, as JSON and as an event -/

/-- A member that may be missing. -/
def member (key : String) (v : Option Json) : List (String × Json) :=
  (v.map fun v => (key, v)).toList

namespace Start

def json : Start → Json
  | append numRecords xxh3 setFencingToken fencingToken matchSeqNum =>
    .object [("Append", .object (("num_records", .number (some numRecords)) ::
      ("last_record_xxh3", .number (some xxh3)) ::
      (member "set_fencing_token" (setFencingToken.map .string) ++
        member "fencing_token" (fencingToken.map .string) ++
        member "match_seq_num" (matchSeqNum.map fun n => .number (some n)))))]
  | read => .string "Read"
  | checkTail => .string "CheckTail"

def input : Start → S2Input
  | append numRecords xxh3 setFencingToken fencingToken matchSeqNum =>
    .append numRecords.toUInt32 xxh3 setFencingToken fencingToken
      (matchSeqNum.map UInt64.toUInt32)
  | read => .read
  | checkTail => .checkTail

/-- Lengths that 32 bits hold. -/
def Fits : Start → Prop
  | append numRecords _ _ _ matchSeqNum =>
    numRecords.toNat < 2 ^ 32 ∧ ∀ n ∈ matchSeqNum, n.toNat < 2 ^ 32
  | read => True
  | checkTail => True

end Start

namespace Finish

def json : Finish → Json
  | appendSuccess tail => .object [("AppendSuccess", .object [("tail", .number (some tail))])]
  | appendDefiniteFailure => .string "AppendDefiniteFailure"
  | appendIndefiniteFailure => .string "AppendIndefiniteFailure"
  | readSuccess tail xxh3 => .object [("ReadSuccess",
      .object [("tail", .number (some tail)), ("xxh3", .number (some xxh3))])]
  | readFailure => .string "ReadFailure"
  | checkTailSuccess tail => .object [("CheckTailSuccess", .object [("tail", .number (some tail))])]
  | checkTailFailure => .string "CheckTailFailure"

def output : Finish → S2Output
  | appendSuccess tail => .appendSuccess tail.toUInt32
  | appendDefiniteFailure => .appendDefiniteFailure
  | appendIndefiniteFailure => .appendIndefiniteFailure
  | readSuccess tail xxh3 => .readSuccess tail.toUInt32 xxh3
  | readFailure => .readFailure
  | checkTailSuccess tail => .checkTailSuccess tail.toUInt32
  | checkTailFailure => .checkTailFailure

/-- Lengths that 32 bits hold. -/
def Fits : Finish → Prop
  | appendSuccess tail => tail.toNat < 2 ^ 32
  | readSuccess tail _ => tail.toNat < 2 ^ 32
  | checkTailSuccess tail => tail.toNat < 2 ^ 32
  | _ => True

end Finish

namespace Record

def json (r : Record) : Json :=
  .object [("event", .object [match r.side with
      | .inl start => ("Start", start.json)
      | .inr finish => ("Finish", finish.json)]),
    ("client_id", .number (some r.clientId)), ("op_id", .number (some r.opId))]

def event (r : Record) : Event S2Input S2Output :=
  match r.side with
  | .inl start => ⟨r.clientId.toNat, .call, some start.input, none, r.opId.toNat⟩
  | .inr finish => ⟨r.clientId.toNat, .ret, none, some finish.output, r.opId.toNat⟩

/-- Lengths that 32 bits hold. -/
def Fits (r : Record) : Prop :=
  match r.side with
  | .inl start => start.Fits
  | .inr finish => finish.Fits

end Record

variable {v : Json} {start : Start} {finish : Finish} {r : Record}

/-! ## The format -/

/-- **The value says that this was called.** What is not asked for may be
there as well, and a guard that is no string is none. -/
def Start.SaidBy (v : Json) : Start → Prop
  | append numRecords xxh3 setFencingToken fencingToken matchSeqNum =>
    ∃ a, v.get "Append" = some a ∧ a.get "num_records" = some (.number (some numRecords)) ∧
      a.get "last_record_xxh3" = some (.number (some xxh3)) ∧
      (a.get "set_fencing_token").bind Json.asStr = setFencingToken ∧
      (a.get "fencing_token").bind Json.asStr = fencingToken ∧
      (a.get "match_seq_num").bind Json.asU64 = matchSeqNum
  | read => v = .string "Read"
  | checkTail => v = .string "CheckTail"

/-- And that this was returned. -/
def Finish.SaidBy (v : Json) : Finish → Prop
  | appendSuccess tail =>
    ∃ a, v.get "AppendSuccess" = some a ∧ a.get "tail" = some (.number (some tail))
  | appendDefiniteFailure => v = .string "AppendDefiniteFailure"
  | appendIndefiniteFailure => v = .string "AppendIndefiniteFailure"
  | readSuccess tail xxh3 =>
    v.get "AppendSuccess" = none ∧ ∃ a, v.get "ReadSuccess" = some a ∧
      a.get "tail" = some (.number (some tail)) ∧ a.get "xxh3" = some (.number (some xxh3))
  | readFailure => v = .string "ReadFailure"
  | checkTailSuccess tail =>
    v.get "AppendSuccess" = none ∧ v.get "ReadSuccess" = none ∧
      ∃ a, v.get "CheckTailSuccess" = some a ∧ a.get "tail" = some (.number (some tail))
  | checkTailFailure => v = .string "CheckTailFailure"

/-- **The value says the record.** -/
def Record.SaidBy (v : Json) (r : Record) : Prop :=
  v.get "client_id" = some (.number (some r.clientId)) ∧
    v.get "op_id" = some (.number (some r.opId)) ∧
    match r.side with
    | .inl start => ∃ s, (v.index "event").get "Start" = some s ∧ start.SaidBy s
    | .inr finish => (v.index "event").get "Start" = none ∧
      ∃ f, (v.index "event").get "Finish" = some f ∧ finish.SaidBy f

theorem Start.saidBy_json (start : Start) : start.SaidBy start.json := by
  cases start with
  | append numRecords xxh3 setFencingToken fencingToken matchSeqNum =>
    refine ⟨_, rfl, rfl, rfl, ?_⟩
    cases setFencingToken <;> cases fencingToken <;> cases matchSeqNum <;> exact ⟨rfl, rfl, rfl⟩
  | read => rfl
  | checkTail => rfl

theorem Finish.saidBy_json (finish : Finish) : finish.SaidBy finish.json := by
  cases finish with
  | appendSuccess tail => exact ⟨_, rfl, rfl⟩
  | readSuccess tail xxh3 => exact ⟨rfl, _, rfl, rfl, rfl⟩
  | checkTailSuccess tail => exact ⟨rfl, rfl, _, rfl, rfl⟩
  | _ => rfl

/-- Every record can be said. -/
theorem Record.saidBy_json (r : Record) : r.SaidBy r.json := by
  obtain ⟨clientId, opId, side⟩ := r
  cases side with
  | inl start => exact ⟨rfl, rfl, _, rfl, start.saidBy_json⟩
  | inr finish => exact ⟨rfl, rfl, rfl, _, rfl, finish.saidBy_json⟩

theorem get_string {s key : String} : (Json.string s).get key = none := rfl

/-- A value says one call at most, -/
theorem Start.SaidBy.unique {start' : Start} (h : start.SaidBy v) (h' : start'.SaidBy v) :
    start = start' := by
  cases start <;> cases start' <;> grind [Start.SaidBy, get_string]

/-- one return, -/
theorem Finish.SaidBy.unique {finish' : Finish} (h : finish.SaidBy v) (h' : finish'.SaidBy v) :
    finish = finish' := by
  cases finish <;> cases finish' <;> grind [Finish.SaidBy, get_string]

/-- and so one record. -/
theorem Record.SaidBy.unique {r' : Record} (h : r.SaidBy v) (h' : r'.SaidBy v) : r = r' := by
  obtain ⟨clientId, opId, side⟩ := r
  obtain ⟨clientId', opId', side'⟩ := r'
  obtain ⟨hclient, hop, hside⟩ := h
  obtain ⟨hclient', hop', hside'⟩ := h'
  cases hclient.symm.trans hclient'
  cases hop.symm.trans hop'
  cases side with
  | inl start =>
    obtain ⟨s, hs, hsaid⟩ := hside
    cases side' with
    | inl start' =>
      obtain ⟨s', hs', hsaid'⟩ := hside'
      cases hs.symm.trans hs'
      rw [hsaid.unique hsaid']
    | inr finish' => cases hs.symm.trans hside'.1
  | inr finish =>
    obtain ⟨hnone, f, hf, hsaid⟩ := hside
    cases side' with
    | inl start' =>
      obtain ⟨s', hs', -⟩ := hside'
      cases hnone.symm.trans hs'
    | inr finish' =>
      obtain ⟨-, f', hf', hsaid'⟩ := hside'
      cases hf.symm.trans hf'
      rw [hsaid.unique hsaid']

/-! ## What is parsed -/

theorem unwrapU64_eq_ok {key : String} {n : UInt64} :
    unwrapU64 v key = .ok n ↔ v.get key = some (.number (some n)) := by
  unfold unwrapU64
  constructor
  · intro h
    split at h
    · next m hm =>
      obtain rfl : m = n := Except.ok.inj h
      exact Json.get_of_index (Json.asU64_eq_some.1 hm)
    · cases h
  · intro h
    rw [Json.index_of_get h]
    rfl

/-- A value with members is no string. -/
theorem asStr_of_get {key : String} {w : Json} (h : v.get key = some w) : v.asStr = none := by
  cases v <;> first | rfl | cases h

/-- **What is parsed as a call is what the value says**, -/
theorem parseStart_eq_ok_iff {input : S2Input} :
    parseStart v = .ok input ↔ ∃ start : Start, start.SaidBy v ∧ start.input = input := by
  constructor
  · intro h
    unfold parseStart at h
    split at h
    · next s hs =>
      rw [Json.asStr_eq_some] at hs
      split_ifs at h with hread htail
      · cases h
        exact ⟨.read, hs.trans (congrArg Json.string hread), rfl⟩
      · cases h
        exact ⟨.checkTail, hs.trans (congrArg Json.string htail), rfl⟩
    · split at h
      · next append happend =>
        obtain ⟨n, hn, h⟩ := Loop.bind_eq_ok.1 h
        obtain ⟨x, hx, h⟩ := Loop.bind_eq_ok.1 h
        exact ⟨.append n x _ _ _, ⟨append, happend, unwrapU64_eq_ok.1 hn, unwrapU64_eq_ok.1 hx,
          rfl, rfl, rfl⟩, Except.ok.inj h⟩
      · cases h
  · rintro ⟨start, hsaid, rfl⟩
    cases start with
    | append numRecords xxh3 setFencingToken fencingToken matchSeqNum =>
      obtain ⟨a, ha, hn, hx, rfl, rfl, rfl⟩ := hsaid
      simp only [parseStart, asStr_of_get ha, ha, unwrapU64_eq_ok.2 hn, unwrapU64_eq_ok.2 hx]
      rfl
    | read =>
      cases hsaid
      rfl
    | checkTail =>
      cases hsaid
      rfl

/-- so is what is parsed as a return, -/
theorem parseFinish_eq_ok_iff {output : S2Output} :
    parseFinish v = .ok output ↔ ∃ finish : Finish, finish.SaidBy v ∧ finish.output = output := by
  constructor
  · intro h
    unfold parseFinish at h
    split at h
    · next s hs =>
      rw [Json.asStr_eq_some] at hs
      split_ifs at h with hdef hind hread htail
      · cases h
        exact ⟨.appendDefiniteFailure, hs.trans (congrArg Json.string hdef), rfl⟩
      · cases h
        exact ⟨.appendIndefiniteFailure, hs.trans (congrArg Json.string hind), rfl⟩
      · cases h
        exact ⟨.readFailure, hs.trans (congrArg Json.string hread), rfl⟩
      · cases h
        exact ⟨.checkTailFailure, hs.trans (congrArg Json.string htail), rfl⟩
    · split at h
      · next inner hinner =>
        obtain ⟨n, hn, h⟩ := Loop.bind_eq_ok.1 h
        exact ⟨.appendSuccess n, ⟨inner, hinner, unwrapU64_eq_ok.1 hn⟩, Except.ok.inj h⟩
      · next inner hnone hinner =>
        obtain ⟨n, hn, h⟩ := Loop.bind_eq_ok.1 h
        obtain ⟨x, hx, h⟩ := Loop.bind_eq_ok.1 h
        exact ⟨.readSuccess n x, ⟨hnone, inner, hinner, unwrapU64_eq_ok.1 hn,
          unwrapU64_eq_ok.1 hx⟩, Except.ok.inj h⟩
      · next inner hnone hnone' hinner =>
        obtain ⟨n, hn, h⟩ := Loop.bind_eq_ok.1 h
        exact ⟨.checkTailSuccess n, ⟨hnone, hnone', inner, hinner, unwrapU64_eq_ok.1 hn⟩,
          Except.ok.inj h⟩
      · cases h
  · rintro ⟨finish, hsaid, rfl⟩
    cases finish with
    | appendSuccess tail =>
      obtain ⟨a, ha, ht⟩ := hsaid
      simp only [parseFinish, asStr_of_get ha, ha, unwrapU64_eq_ok.2 ht]
      rfl
    | readSuccess tail xxh3 =>
      obtain ⟨hnone, a, ha, ht, hx⟩ := hsaid
      simp only [parseFinish, asStr_of_get ha, hnone, ha, unwrapU64_eq_ok.2 ht, unwrapU64_eq_ok.2 hx]
      rfl
    | checkTailSuccess tail =>
      obtain ⟨hnone, hnone', a, ha, ht⟩ := hsaid
      simp only [parseFinish, asStr_of_get ha, hnone, hnone', ha, unwrapU64_eq_ok.2 ht]
      rfl
    | _ =>
      cases hsaid
      rfl

/-- **and what is parsed as an event.** -/
theorem parseRecord_eq_ok_iff {ev : Event S2Input S2Output} :
    parseRecord v = .ok ev ↔ ∃ r : Record, r.SaidBy v ∧ r.event = ev := by
  constructor
  · intro h
    obtain ⟨clientId, hclient, h⟩ := Loop.bind_eq_ok.1 h
    obtain ⟨opId, hop, h⟩ := Loop.bind_eq_ok.1 h
    rw [unwrapU64_eq_ok] at hclient hop
    dsimp only at h
    split at h
    · next startVal hstart =>
      obtain ⟨input, hparse, h⟩ := Loop.bind_eq_ok.1 h
      obtain ⟨start, hsaid, rfl⟩ := parseStart_eq_ok_iff.1 hparse
      exact ⟨⟨clientId, opId, .inl start⟩, ⟨hclient, hop, startVal, hstart, hsaid⟩,
        Except.ok.inj h⟩
    · next finishVal hnone hfinish =>
      obtain ⟨output, hparse, h⟩ := Loop.bind_eq_ok.1 h
      obtain ⟨finish, hsaid, rfl⟩ := parseFinish_eq_ok_iff.1 hparse
      exact ⟨⟨clientId, opId, .inr finish⟩, ⟨hclient, hop, hnone, finishVal, hfinish, hsaid⟩,
        Except.ok.inj h⟩
    · cases h
  · rintro ⟨⟨clientId, opId, side⟩, ⟨hclient, hop, hside⟩, rfl⟩
    cases side with
    | inl start =>
      obtain ⟨s, hs, hsaid⟩ := hside
      have hparse := parseStart_eq_ok_iff.2 ⟨start, hsaid, rfl⟩
      simp only [parseRecord, unwrapU64_eq_ok.2 hclient, unwrapU64_eq_ok.2 hop, hs, hparse]
      rfl
    | inr finish =>
      obtain ⟨hnone, f, hf, hsaid⟩ := hside
      have hparse := parseFinish_eq_ok_iff.2 ⟨finish, hsaid, rfl⟩
      simp only [parseRecord, unwrapU64_eq_ok.2 hclient, unwrapU64_eq_ok.2 hop, hnone, hf, hparse]
      rfl

/-! ## What is lost -/

theorem toUInt64_toUInt32 {n : UInt64} (h : n.toNat < 2 ^ 32) : n.toUInt32.toUInt64 = n := by
  rw [← UInt64.toNat_inj, UInt32.toNat_toUInt64, UInt64.toNat_toUInt32, Nat.mod_eq_of_lt h]

/-- The call of an input. -/
def Start.ofInput : S2Input → Start
  | .append numRecords xxh3 setFencingToken fencingToken matchSeqNum =>
    .append numRecords.toUInt64 xxh3 setFencingToken fencingToken
      (matchSeqNum.map UInt32.toUInt64)
  | .read => .read
  | .checkTail => .checkTail

/-- The return of an output. -/
def Finish.ofOutput : S2Output → Finish
  | .appendSuccess tail => .appendSuccess tail.toUInt64
  | .appendDefiniteFailure => .appendDefiniteFailure
  | .appendIndefiniteFailure => .appendIndefiniteFailure
  | .readSuccess tail xxh3 => .readSuccess tail.toUInt64 xxh3
  | .readFailure => .readFailure
  | .checkTailSuccess tail => .checkTailSuccess tail.toUInt64
  | .checkTailFailure => .checkTailFailure

/-- The record of an event. -/
def Record.ofEvent (ev : Event S2Input S2Output) : Option Record :=
  match ev.kind with
  | .call => ev.input.map fun input =>
    ⟨.ofNat ev.clientId, .ofNat ev.id, .inl (.ofInput input)⟩
  | .ret => ev.output.map fun output =>
    ⟨.ofNat ev.clientId, .ofNat ev.id, .inr (.ofOutput output)⟩

theorem Start.ofInput_input (h : start.Fits) : ofInput start.input = start := by
  cases start with
  | append numRecords xxh3 setFencingToken fencingToken matchSeqNum =>
    obtain ⟨hn, hm⟩ := h
    rw [input, ofInput, toUInt64_toUInt32 hn]
    cases matchSeqNum with
    | none => rfl
    | some n =>
      have hn : n.toUInt32.toUInt64 = n := toUInt64_toUInt32 (hm n rfl)
      rw [Option.map_some, Option.map_some, hn]
  | read => rfl
  | checkTail => rfl

theorem Finish.ofOutput_output (h : finish.Fits) : ofOutput finish.output = finish := by
  cases finish with
  | appendSuccess tail => rw [output, ofOutput, toUInt64_toUInt32 h]
  | readSuccess tail xxh3 => rw [output, ofOutput, toUInt64_toUInt32 h]
  | checkTailSuccess tail => rw [output, ofOutput, toUInt64_toUInt32 h]
  | _ => rfl

/-- **An event gives its record back**, but for lengths that 32 bits do not
hold. -/
theorem Record.ofEvent_event (h : r.Fits) : ofEvent r.event = some r := by
  obtain ⟨clientId, opId, side⟩ := r
  cases side with
  | inl start =>
    show some (⟨.ofNat clientId.toNat, .ofNat opId.toNat, .inl (.ofInput start.input)⟩ : Record) = _
    rw [Start.ofInput_input h, UInt64.ofNat_toNat, UInt64.ofNat_toNat]
  | inr finish =>
    show some (⟨.ofNat clientId.toNat, .ofNat opId.toNat, .inr (.ofOutput finish.output)⟩ : Record)
      = _
    rw [Finish.ofOutput_output h, UInt64.ofNat_toNat, UInt64.ofNat_toNat]

/-! ## The log -/

/-- The lines of the content say the records, blank lines aside. -/
def Says (fromStr : String → Except String Json) (content : String) (log : List Record) : Prop :=
  List.Forall₂ (fun line (r : Record) => ∃ v, fromStr line = .ok v ∧ r.SaidBy v)
    (((Text.lines content).map Text.trim).filter (· ≠ "")) log

variable {fromStr : String → Except String Json} {content : String} {log : List Record}

/-- A line is parsed as the event of a record that it says. -/
theorem parseLine_eq_ok_iff {line : String} {ev : Event S2Input S2Output} :
    (match fromStr line with
      | .ok record => parseRecord record
      | .error e => .error (.unparsed e line)) = .ok ev ↔
      ∃ r : Record, (∃ v, fromStr line = .ok v ∧ r.SaidBy v) ∧ r.event = ev := by
  cases h : fromStr line with
  | error e => exact ⟨fun he => (by cases he), fun ⟨r, ⟨v, hv, _⟩, _⟩ => (by cases hv)⟩
  | ok v =>
    refine parseRecord_eq_ok_iff.trans (exists_congr fun r => and_congr_left' ?_)
    exact ⟨fun hr => ⟨v, rfl, hr⟩, fun ⟨w, hw, hr⟩ => (Except.ok.inj hw) ▸ hr⟩

/-- **A log is parsed as the events of the records it says**, and not at
all if it says none. -/
theorem parseS2Jsonl_eq_ok_iff {events : List (Event S2Input S2Output)} :
    parseS2Jsonl fromStr content = .ok events ↔
      ∃ log, Says fromStr content log ∧ log.map Record.event = events := by
  rw [parseS2Jsonl, Loop.mapM_eq_ok_iff]
  unfold Says
  generalize ((Text.lines content).map Text.trim).filter (· ≠ "") = rest
  constructor
  · intro h
    induction h with
    | nil => exact ⟨[], .nil, rfl⟩
    | cons hline _ ih =>
      obtain ⟨log, hlog, rfl⟩ := ih
      obtain ⟨r, hr, rfl⟩ := parseLine_eq_ok_iff.1 hline
      exact ⟨r :: log, .cons hr hlog, rfl⟩
  · rintro ⟨log, hlog, rfl⟩
    rw [List.forall₂_map_right_iff]
    exact hlog.imp fun line r hr => parseLine_eq_ok_iff.2 ⟨r, hr, rfl⟩

/-- A content says one log at most. -/
theorem Says.unique {log' : List Record} (h : Says fromStr content log)
    (h' : Says fromStr content log') : log = log' := by
  unfold Says at h h'
  generalize ((Text.lines content).map Text.trim).filter (· ≠ "") = rest at h h'
  induction h generalizing log' with
  | nil =>
    cases h'
    rfl
  | cons hr _ ih =>
    cases h' with
    | cons hr' hrest' =>
      obtain ⟨v, hv, hsaid⟩ := hr
      obtain ⟨v', hv', hsaid'⟩ := hr'
      cases hv.symm.trans hv'
      rw [hsaid.unique hsaid', ih hrest']

/-- Lines say the records as the content that is made of them does. -/
theorem says_unlines {lines : List String} (h : ∀ l ∈ lines, '\n' ∉ l.toList) :
    Says fromStr (Text.unlines lines) log ↔
      List.Forall₂ (fun line (r : Record) => ∃ v, fromStr line = .ok v ∧ r.SaidBy v)
        ((lines.map Text.trim).filter (· ≠ "")) log := by
  rw [Says, Text.trim_lines_unlines h]

/-- **The parser and the format.** The parser takes exactly the contents
whose lines, trimmed and blank ones aside, each say a record, and gives the
events of these. Every record can be said, and lines that say records can
be put into a content. A content says one list of records only, and if
their lengths fit 32 bits the events give them back. -/
theorem s2Log_roundTrip (fromStr : String → Except String Json) :
    (∀ content events, parseS2Jsonl fromStr content = .ok events ↔
      ∃ log, Says fromStr content log ∧ log.map Record.event = events) ∧
    (∀ r : Record, parseRecord r.json = .ok r.event) ∧
    (∀ (lines : List String) (log : List Record), (∀ l ∈ lines, '\n' ∉ l.toList) →
      List.Forall₂ (fun line (r : Record) => ∃ v, fromStr line = .ok v ∧ r.SaidBy v)
        ((lines.map Text.trim).filter (· ≠ "")) log →
      parseS2Jsonl fromStr (Text.unlines lines) = .ok (log.map Record.event)) ∧
    (∀ content log log', Says fromStr content log → Says fromStr content log' → log = log') ∧
    ∀ (content : String) (log : List Record), Says fromStr content log → (∀ r ∈ log, r.Fits) →
      ∃ events, parseS2Jsonl fromStr content = .ok events ∧
        events.map Record.ofEvent = log.map some := by
  refine ⟨fun _ _ => parseS2Jsonl_eq_ok_iff, fun r => ?_, fun lines log hlines hlog => ?_,
    fun _ _ _ => Says.unique, fun content log hcontent hfits => ?_⟩
  · exact parseRecord_eq_ok_iff.2 ⟨r, r.saidBy_json, rfl⟩
  · exact parseS2Jsonl_eq_ok_iff.2 ⟨log, (says_unlines hlines).2 hlog, rfl⟩
  · refine ⟨_, parseS2Jsonl_eq_ok_iff.2 ⟨log, hcontent, rfl⟩, ?_⟩
    rw [List.map_map]
    exact List.map_congr_left fun r hr => Record.ofEvent_event (hfits r hr)

/-! ## The exit code -/

/-- Which operation a record is about, and whether it starts it. -/
def Record.tag (r : Record) : UInt64 × Bool := (r.opId, r.side.isLeft)

/-- **A log of whole operations**: each is started once and finished once,
after it is started. -/
structure Whole (log : List Record) : Prop where
  once : (log.map Record.tag).Nodup
  both : ∀ r ∈ log, ∀ b, (r.opId, b) ∈ log.map Record.tag
  startsFirst : log.Pairwise fun r r' => r.opId = r'.opId → r.side.isLeft = true

theorem tag_event (r : Record) : r.event.tag = (r.opId.toNat, r.side.isLeft) := by
  obtain ⟨clientId, opId, side⟩ := r
  cases side <;> rfl

namespace Whole

theorem pairedEvents (h : Whole log) : PairedEvents (log.map Record.event) := by
  have htags : (log.map Record.event).map Event.tag =
      (log.map Record.tag).map fun t => (t.1.toNat, t.2) := by
    rw [List.map_map, List.map_map]
    exact List.map_congr_left fun r _ => tag_event r
  refine ⟨fun ev hev => ?_, ?_, fun t ht b => ?_⟩
  · obtain ⟨⟨clientId, opId, side⟩, -, rfl⟩ := List.mem_map.1 hev
    cases side <;> exact ⟨_, rfl⟩
  · rw [htags]
    refine h.once.map fun t t' he => ?_
    obtain ⟨hid, hb⟩ := Prod.mk.inj he
    exact Prod.ext (UInt64.toNat_inj.1 hid) hb
  · rw [htags, List.map_map, List.mem_map] at ht
    obtain ⟨r, hr, rfl⟩ := ht
    rw [htags]
    exact List.mem_map.2 ⟨_, h.both r hr b, rfl⟩

theorem callsFirst (h : Whole log) : CallsFirst (log.map Record.event) := by
  intro id c r evc evr hc hr htc htr
  rw [List.getElem?_map, Option.map_eq_some_iff] at hc hr
  obtain ⟨rc, hc, rfl⟩ := hc
  obtain ⟨rr, hr, rfl⟩ := hr
  obtain ⟨hidc, hbc⟩ := Prod.mk.inj ((tag_event rc).symm.trans htc)
  obtain ⟨hidr, hbr⟩ := Prod.mk.inj ((tag_event rr).symm.trans htr)
  have hid : rr.opId = rc.opId := UInt64.toNat_inj.1 (hidr.trans hidc.symm)
  obtain ⟨hlc, rfl⟩ := List.getElem?_eq_some_iff.1 hc
  obtain ⟨hlr, rfl⟩ := List.getElem?_eq_some_iff.1 hr
  rcases Nat.lt_trichotomy c r with hlt | rfl | hgt
  · exact hlt
  · cases hbc.symm.trans hbr
  · -- a finish is not the first of two records
    have hstart := List.pairwise_iff_getElem.1 h.startsFirst r c hlr hlc hgt hid
    cases hstart.symm.trans hbr

end Whole

end S2

end Porcupine
