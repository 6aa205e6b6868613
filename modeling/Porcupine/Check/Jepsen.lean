import Porcupine.Check.Agreement
import Porcupine.Common.Completion
import Porcupine.Entries.Logs
/-!
# Jepsen logs

A Jepsen log has calls that time out: nobody knows whether they took
effect. The parser lets them return after everything else with an output
that the model takes in any state, so a check of its events decides
whether the log is linearizable with those that took effect, whichever
they are (`jepsen_decides_completion`).
-/

namespace Porcupine

namespace GoCompat

open ClientLog Linearization

/-- What a line means, if it can be read. -/
def JepsenLine.action (line : JepsenLine) : Option (Action EtcdInput EtcdOutput) :=
  match line.status with
  | .invoke => line.input.toOption.join.map (.invoke line.process)
  | .ok => line.output.toOption.join.map (.answer line.process)
  | .fail => line.output.toOption.join.map (.answer line.process)
  | .other => some .skip

/-- What a call does to the key whatever it would have returned. -/
def etcdEffect (state : Option ℤ) (input : EtcdInput) : Option ℤ :=
  match input.op with
  | .read => state
  | .write => some input.arg1
  | .cas => if state = some input.arg1 then some input.arg2 else state

/-- **The key under the calls of a log**: one that was answered has to be
accepted with its answer, and one that was not has its effect. -/
def etcdApply (state : Option ℤ) (a : Invocation EtcdInput EtcdOutput) : Option (Option ℤ) :=
  match a.answer with
  | some r => EtcdModel.step state a.input r.2
  | none => some (etcdEffect state a.input)

theorem join_toOption_eq_some {α : Type} {x : Except LogPanic (Option α)} {a : α} :
    x.toOption.join = some a ↔ x = .ok (some a) := by
  cases x with
  | error p => exact iff_of_false nofun nofun
  | ok b =>
    show b = some a ↔ _
    rw [Except.ok.injEq]

section Parser

variable {parser : LogParser EtcdInput EtcdOutput} {line : JepsenLine}
variable {a : Action EtcdInput EtcdOutput}

theorem JepsenLine.parseReturn_eq {output : EtcdOutput} (h : line.output = .ok (some output)) :
    line.parseReturn parser = .ok (parser.advance (.answer line.process output)) := by
  simp only [JepsenLine.parseReturn, LogParser.advance]
  cases parser.pending.lookup line.process with
  | none => rfl
  | some eid =>
    simp only [h]
    rfl

/-- The parser takes a line for what it means. -/
theorem JepsenLine.parse_eq (h : line.action = some a) :
    JepsenLine.parse parser line = .ok (parser.advance a) := by
  unfold JepsenLine.action at h
  unfold JepsenLine.parse
  cases hs : line.status with
  | invoke =>
    rw [hs] at h
    obtain ⟨input, hin, rfl⟩ := Option.map_eq_some_iff.1 h
    simp only [join_toOption_eq_some.1 hin]
    rfl
  | ok =>
    rw [hs] at h
    obtain ⟨output, hout, rfl⟩ := Option.map_eq_some_iff.1 h
    exact JepsenLine.parseReturn_eq (join_toOption_eq_some.1 hout)
  | fail =>
    rw [hs] at h
    obtain ⟨output, hout, rfl⟩ := Option.map_eq_some_iff.1 h
    exact JepsenLine.parseReturn_eq (join_toOption_eq_some.1 hout)
  | other =>
    rw [hs] at h
    cases h
    rfl

theorem jepsen_reads (log : List (Action EtcdInput EtcdOutput)) :
    LogParser.Reads log JepsenLine.action JepsenLine.parse fun _ _ => True := by
  intro m parser parser' line a _ ha
  rw [JepsenLine.parse_eq ha, Except.ok.injEq, true_and]

end Parser

/-- An unknown outcome is accepted in any state. -/
theorem etcdModel_step_unknown (state : Option ℤ) (input : EtcdInput) :
    EtcdModel.step state input JepsenLine.unknownOutput = some (etcdEffect state input) := by
  obtain ⟨op, arg1, arg2⟩ := input
  cases op with
  | read => cases state <;> rfl
  | write => rfl
  | cas =>
    simp [EtcdModel, JepsenLine.unknownOutput, etcdEffect]

theorem etcdApply_eq (state : Option ℤ) (a : Invocation EtcdInput EtcdOutput) :
    EtcdModel.step state a.input (a.outputOr JepsenLine.unknownOutput) = etcdApply state a := by
  unfold Invocation.outputOr etcdApply
  cases a.answer with
  | some r => rfl
  | none => exact etcdModel_step_unknown state a.input

variable {log : List (Action EtcdInput EtcdOutput)} {closing : List (ℕ × ℕ)}

/-- **The events are linearizable when the log is with some of the calls
that were not answered.** -/
theorem eventsLinearizable_iff_completion (hc : Closes log closing) (hseq : Sequential log) :
    EventsLinearizable EtcdModel (logEvents log closing JepsenLine.unknownOutput) ↔
      LinearizableWith Invocation.Before etcdApply none (completed log) (pending log) := by
  have hnone : ∀ a ∈ pending log, a.answer = none := by
    intro a ha
    simpa using (List.mem_filter.1 ha).2
  rw [eventsLinearizable_logEvents_iff EtcdModel hc hseq]
  simp only [etcdApply_eq]
  rw [← linearizable_perm completed_append_pending]
  refine linearizable_append_pending_iff (fun b hb a _ => ?_) fun s b hb => ?_
  · rintro ⟨r, hr, -⟩
    rw [hnone b hb] at hr
    cases hr
  · rw [etcdApply, hnone b hb]
    rfl

/-- **A Jepsen log is checked with its timeouts.** In whatever order the
parser walks its map, the events of a log that it can read pass the gate
exactly when no process calls before its last call is answered, and a
check of them decides whether the answered calls are linearizable with
some of those that were never answered. -/
theorem jepsen_decides_completion (debug : Bool)
    (srt : UnstableSort (List (Entry EtcdInput EtcdOutput)))
    (visit : List (ℕ × ℕ) → List (ℕ × ℕ)) (hvisit : ∀ l, (visit l).Perm l)
    (lines : List JepsenLine) (log : List (Action EtcdInput EtcdOutput))
    (hread : lines.map JepsenLine.action = log.map some) (hsize : lines.length ≤ 2 ^ 31 - 1) :
    ∃ events, parseJepsenLog visit lines = .ok events ∧
      (assertWellFormedEvents true events = .ok () ↔ Sequential log) ∧
      (Sequential log → Decides (checker debug srt EtcdModel)
        (checkEvents debug EtcdModel events none)
        (LinearizableWith Invocation.Before etcdApply none (completed log) (pending log))) := by
  obtain ⟨parser, hparse⟩ := (jepsen_reads log).completes hread fun _ _ _ => trivial
  obtain ⟨hfollows, -⟩ := (jepsen_reads log).follows hread hparse
  have hc : Closes log (visit parser.pending) := hfollows.closes (hvisit _)
  refine ⟨logEvents log (visit parser.pending) JepsenLine.unknownOutput, ?_, ?_, fun hseq => ?_⟩
  · simp only [parseJepsenLog, hparse, logEvents, ← hfollows.events]
    rfl
  · rw [assertWellFormedEvents_iff, pairedEvents_logEvents_iff _ hc]
  · obtain ⟨hp, hfirst⟩ := (pairedEvents_logEvents_iff JepsenLine.unknownOutput hc).2 hseq
    have hlen := (operationsOf_logEvents JepsenLine.unknownOutput hc hseq).length_eq hp
    have hle : (invocations log).length ≤ log.length := length_invocations_le
    have hlog := length_eq_of_read hread
    rw [List.length_map] at hlen
    have hdec : Decides (checker debug srt EtcdModel) (checkEvents debug EtcdModel _ none)
        (EventsLinearizable EtcdModel
          (logEvents log (visit parser.pending) JepsenLine.unknownOutput)) :=
      (prepares_events debug rfl hp hfirst (by rw [NONE]; omega)).decides
        (Model.lawful_of_lawfulBEq _)
    exact hdec.congr (eventsLinearizable_iff_completion hc hseq)

/-- A compare-and-set that times out, and a read of what it has set. -/
def timedOutCas : List JepsenLine :=
  [⟨0, .invoke, .write, .number 5⟩, ⟨1, .invoke, .cas, .pair 5 7⟩, ⟨1, .other, .cas, .timedOut⟩,
    ⟨0, .ok, .write, .number 5⟩, ⟨2, .invoke, .read, .nil⟩, ⟨2, .ok, .read, .number 7⟩]

/-- What its lines mean. -/
def timedOutCasLog : List (Action EtcdInput EtcdOutput) :=
  [.invoke 0 ⟨.write, 5, 0⟩, .invoke 1 ⟨.cas, 5, 7⟩, .skip, .answer 0 ⟨true, false, 0, false⟩,
    .invoke 2 ⟨.read, 0, 0⟩, .answer 2 ⟨true, true, 7, false⟩]

theorem jepsen_decides_completion_timedOut :
    ∃ events, parseJepsenLog id timedOutCas = .ok events ∧
      (checker true (.insertion _) EtcdModel).Returns .ok
        (checkEvents true EtcdModel events none) := by
  obtain ⟨events, hparse, -, hdec⟩ := jepsen_decides_completion true (.insertion _) id
    (fun _ => .refl _) timedOutCas timedOutCasLog (by decide) (by decide)
  refine ⟨events, hparse, (hdec (by decide)).ok ⟨pending timedOutCasLog, .refl _, ?_⟩⟩
  -- the write, the compare-and-set that took effect, and the read of its value
  refine ⟨[⟨0, ⟨.write, 5, 0⟩, 0, some (3, ⟨true, false, 0, false⟩)⟩, ⟨1, ⟨.cas, 5, 7⟩, 1, none⟩,
    ⟨2, ⟨.read, 0, 0⟩, 4, some (5, ⟨true, true, 7, false⟩)⟩], by decide, ?_, rfl⟩
  unfold Respects
  decide

end GoCompat

end Porcupine
