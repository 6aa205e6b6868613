import Porcupine.Check.PerKey
import Porcupine.Entries.Logs
/-!
# Key-value logs

A key-value log is read more strictly than a Jepsen log: an answer that
nobody waits for is a panic, and a call that is never answered has no
return, which the gate refuses. From a log to its verdict the key-value
model partitions by key what the log interleaves, and decides whether the
calls of the log are linearizable as those of one store
(`kvLog_decides`).
-/

namespace Porcupine

namespace GoCompat

open ClientLog Linearization

/-- What a line means, if it can be read. -/
def KvLine.action (line : KvLine) : Option (Action KvInput KvOutput) :=
  match line.typ with
  | .invoke => line.f.map fun op => .invoke line.process ⟨op, line.key, line.value⟩
  | .ok => some (.answer line.process ⟨line.value⟩)
  | .other => some .skip

/-- The store under the calls of a log. -/
def storeApply (state : Finmap fun _ : String => String) (a : Invocation KvInput KvOutput) :
    Option (Finmap fun _ : String => String) :=
  a.answer.bind fun r => KvNoPartitionModel.step state a.input r.2

variable {log : List (Action KvInput KvOutput)} {events : List (Event KvInput KvOutput)}

section Parser

/-- An answer is acceptable where a call of its process waits for it. -/
def Awaited (log : List (Action KvInput KvOutput)) (m : ℕ) (a : Action KvInput KvOutput) : Prop :=
  ∀ p ∈ a.answered, openCall log p m ≠ none

theorem awaited_iff_solicited : (∀ m a, log[m]? = some a → Awaited log m a) ↔ Solicited log := by
  constructor
  · intro h m _ p hp
    obtain ⟨a, ha, hpa⟩ := Option.bind_eq_some_iff.1 hp
    exact h m a ha p hpa
  · intro h m a ha p hp
    exact h m (List.getElem?_eq_some_iff.1 ha).1 p (Option.bind_eq_some_iff.2 ⟨a, ha, hp⟩)

/-- The parser takes a line for what it means, unless it is an answer that
nobody waits for. -/
theorem kv_reads (log : List (Action KvInput KvOutput)) :
    LogParser.Reads log KvLine.action KvLine.parse (Awaited log) := by
  intro m parser parser' line a h hread
  unfold KvLine.action at hread
  unfold KvLine.parse Awaited
  cases ht : line.typ with
  | invoke =>
    rw [ht] at hread
    obtain ⟨op, hop, rfl⟩ := Option.map_eq_some_iff.1 hread
    simp only [hop, Except.ok.injEq]
    exact ⟨fun he => ⟨nofun, he⟩, fun he => he.2⟩
  | ok =>
    rw [ht] at hread
    cases hread
    simp only [LogParser.advance, h.lookup_eq, Action.answered, Option.mem_some_iff, forall_eq']
    cases openCall log line.process m with
    | none => simp
    | some k => simp
  | other =>
    rw [ht] at hread
    cases hread
    simp [LogParser.advance, Action.answered]

/-- **A log is read to its end exactly when every answer is awaited.** -/
theorem parseKvLog_eq_ok {lines : List KvLine} (hread : lines.map KvLine.action = log.map some) :
    parseKvLog lines = .ok events ↔ Solicited log ∧ eventsBefore log log.length = events := by
  have hbind : parseKvLog lines = .ok events ↔
      ∃ parser, lines.foldlM KvLine.parse .start = .ok parser ∧ parser.events = events := by
    unfold parseKvLog
    cases lines.foldlM KvLine.parse .start with
    | error e => exact iff_of_false nofun (by rintro ⟨parser, h, -⟩; cases h)
    | ok parser =>
      constructor
      · intro h
        exact ⟨parser, rfl, Except.ok.inj h⟩
      · rintro ⟨parser', h, rfl⟩
        cases h
        rfl
  rw [hbind]
  constructor
  · rintro ⟨parser, hparse, rfl⟩
    obtain ⟨hfollows, hacc⟩ := (kv_reads log).follows hread hparse
    exact ⟨awaited_iff_solicited.1 hacc, hfollows.events.symm⟩
  · rintro ⟨hsol, rfl⟩
    obtain ⟨parser, hparse⟩ := (kv_reads log).completes hread (awaited_iff_solicited.2 hsol)
    exact ⟨parser, hparse, ((kv_reads log).follows hread hparse).1.events⟩

end Parser

/-! ## From a log to its verdict -/

/-- With no call pending there is none to close. -/
theorem closes_nil (h : pending log = []) : Closes log [] where
  nodup := List.nodup_nil
  mem p eid := by
    refine iff_of_false List.not_mem_nil ?_
    rintro ⟨k, hopen, -⟩
    obtain ⟨a, ha, -⟩ := exists_pending_of_openCall hopen
    rw [h] at ha
    cases ha

theorem logEvents_nil (output : KvOutput) :
    logEvents log [] output = eventsBefore log log.length := List.append_nil _

/-- **The gate wants every call answered**, before its process calls
again. -/
theorem gate_eventsBefore_iff :
    assertWellFormedEvents true (eventsBefore log log.length) = .ok () ↔
      Sequential log ∧ pending log = [] := by
  rw [assertWellFormedEvents_iff, ← logEvents_nil ⟨""⟩]
  constructor
  · rintro ⟨hp, hfirst⟩
    have hnil : pending log = [] := by
      refine List.eq_nil_iff_forall_not_mem.2 fun a ha => ?_
      obtain ⟨hmem, hnone⟩ := List.mem_filter.1 ha
      -- the call's return is an answer to a call of its number
      obtain ⟨ev, hev, ht⟩ :=
        hp.exists_tag (List.mem_of_getElem? (getElem?_logEvents_call [] ⟨""⟩ hmem)) false
      obtain ⟨hid, hkind⟩ := tag_eq_false_iff.1 ht
      obtain ⟨c, hc⟩ := List.getElem?_of_mem hev
      rcases exists_line_or_closing hc with ⟨m, hm, -⟩ | ⟨i, x, hx, -⟩
      · obtain ⟨b, hb, hid', o, hans⟩ := exists_answered_of_eventAt hm hkind
        obtain rfl : b = a := eq_of_callsBefore_eq hb hmem (hid'.trans hid)
        simp [hans] at hnone
      · cases hx
    exact ⟨(pairedEvents_logEvents_iff _ (closes_nil hnil)).1 ⟨hp, hfirst⟩, hnil⟩
  · rintro ⟨hseq, hnil⟩
    exact (pairedEvents_logEvents_iff _ (closes_nil hnil)).2 hseq

/-- The events are linearizable when the calls of the log are. -/
theorem eventsLinearizable_eventsBefore_iff (hseq : Sequential log) (hnil : pending log = []) :
    EventsLinearizable KvNoPartitionModel (eventsBefore log log.length) ↔
      Linearizable Invocation.Before storeApply ∅ (invocations log) := by
  rw [← logEvents_nil ⟨""⟩, eventsLinearizable_logEvents_iff _ (closes_nil hnil) hseq]
  refine linearizable_congr_step _ fun s a ha => ?_
  cases hans : a.answer with
  | none =>
    have hmem : a ∈ pending log := List.mem_filter.2 ⟨ha, by simp [hans]⟩
    rw [hnil] at hmem
    cases hmem
  | some r =>
    simp only [storeApply, Invocation.outputOr, hans]
    rfl

/-- **A key-value log is checked as that of one store.** It is read to its
end exactly when every answer is awaited; its events pass the gate exactly
when besides every call is answered before its process calls again; and
then the model of one key, whose partition walks its map in any order,
decides whether the calls of the log are linearizable as those of one map
of all keys. -/
theorem kvLog_decides (debug : Bool) (srt : UnstableSort (List (Entry KvInput KvOutput)))
    (visit : List (String × List ℕ) → List (String × List ℕ)) (hvisit : ∀ l, (visit l).Perm l)
    (lines : List KvLine) (log : List (Action KvInput KvOutput))
    (hread : lines.map KvLine.action = log.map some) (hsize : lines.length ≤ 2 ^ 31 - 1) :
    ((∃ events, parseKvLog lines = .ok events) ↔ Solicited log) ∧
    ∀ events, parseKvLog lines = .ok events →
      (assertWellFormedEvents true events = .ok () ↔ Sequential log ∧ pending log = []) ∧
      (Sequential log → pending log = [] → Decides (checker debug srt (KvModel visit))
        (checkEvents debug (KvModel visit) events none)
        (Linearizable Invocation.Before storeApply ∅ (invocations log))) := by
  refine ⟨⟨fun ⟨events, h⟩ => ((parseKvLog_eq_ok hread).1 h).1,
    fun hsol => ⟨_, (parseKvLog_eq_ok hread).2 ⟨hsol, rfl⟩⟩⟩, fun events hparse => ?_⟩
  obtain ⟨-, rfl⟩ := (parseKvLog_eq_ok hread).1 hparse
  refine ⟨gate_eventsBefore_iff, fun hseq hnil => ?_⟩
  have hle : (eventsBefore log log.length).length ≤ log.length :=
    (List.length_filterMap_le _ _).trans List.length_range.le
  have hlog := length_eq_of_read hread
  exact ((kvModel_decides debug srt hvisit).2 _ (gate_eventsBefore_iff.2 ⟨hseq, hnil⟩)
    (by omega)).congr (eventsLinearizable_eventsBefore_iff hseq hnil)

/-- An append, and a read of another process that it overlaps and that has
seen it. -/
def appendedLines : List KvLine :=
  [⟨0, .invoke, some .put, "x", "a"⟩, ⟨0, .ok, some .put, "x", "a"⟩,
    ⟨0, .invoke, some .append, "x", "b"⟩, ⟨1, .invoke, some .get, "x", ""⟩,
    ⟨1, .ok, some .get, "x", "ab"⟩, ⟨0, .ok, some .append, "x", "b"⟩]

/-- What its lines mean. -/
def appendedLog : List (Action KvInput KvOutput) :=
  [.invoke 0 ⟨.put, "x", "a"⟩, .answer 0 ⟨"a"⟩, .invoke 0 ⟨.append, "x", "b"⟩,
    .invoke 1 ⟨.get, "x", ""⟩, .answer 1 ⟨"ab"⟩, .answer 0 ⟨"b"⟩]

theorem kvLog_decides_appended :
    ∃ events, parseKvLog appendedLines = .ok events ∧
      (checker true (.insertion _) (KvModel List.reverse)).Returns .ok
        (checkEvents true (KvModel List.reverse) events none) := by
  obtain ⟨hread, hdec⟩ := kvLog_decides true (.insertion _) List.reverse List.reverse_perm
    appendedLines appendedLog rfl (by decide)
  obtain ⟨events, hparse⟩ := hread.2 (by decide)
  refine ⟨events, hparse, ((hdec events hparse).2 (by decide) (by decide)).ok ?_⟩
  refine ⟨[⟨0, ⟨.put, "x", "a"⟩, 0, some (1, ⟨"a"⟩)⟩, ⟨0, ⟨.append, "x", "b"⟩, 2, some (5, ⟨"b"⟩)⟩,
    ⟨1, ⟨.get, "x", ""⟩, 3, some (4, ⟨"ab"⟩)⟩], by decide, ?_, ?_⟩
  · unfold Respects
    decide
  · rfl

end GoCompat

end Porcupine
