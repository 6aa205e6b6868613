import Porcupine.Common.ClientLog
import Porcupine.Entries.Gate
import Porcupine.Entries.Pairing
import Porcupine.Model.GoCompat
import Porcupine.Spec.Events
/-!
# The events of a log

A log parser that reads a line as an action keeps an event for each call
and for each answer to an open call, under the number of the call
(`LogParser.Follows`). Calls that are left open can be given a return at
the end. The events are then well formed exactly when the log is
sequential (`pairedEvents_logEvents_iff`), and their operations are the
calls of the log (`eventsLinearizable_logEvents_iff`).
-/

namespace Porcupine

namespace GoCompat

open ClientLog Linearization

variable {Input Output : Type} {log : List (Action Input Output)}
variable {parser : LogParser Input Output} {closing : List (ℕ × ℕ)}
variable {p k m j eid : ℕ}

/-- What the parsers do at a line that they can read. -/
def LogParser.advance (parser : LogParser Input Output) :
    Action Input Output → LogParser Input Output
  | .invoke process input =>
    (parser.allocate process).push ⟨process, .call, some input, none, parser.idCounter⟩
  | .answer process output =>
    match parser.pending.lookup process with
    | some eid => (parser.release process).push ⟨process, .ret, none, some output, eid⟩
    | none => parser
  | .skip => parser

/-- The event of a line. -/
def eventAt (log : List (Action Input Output)) (m : ℕ) : Option (Event Input Output) :=
  match log[m]? with
  | some (.invoke p input) => some ⟨p, .call, some input, none, callsBefore log m⟩
  | some (.answer p output) =>
    (openCall log p m).map fun k => ⟨p, .ret, none, some output, callsBefore log k⟩
  | _ => none

/-- The events of the lines before line `m`. -/
def eventsBefore (log : List (Action Input Output)) (m : ℕ) : List (Event Input Output) :=
  (List.range m).filterMap (eventAt log)

/-- Where the event of line `m` is, if it has one. -/
def eventPos (log : List (Action Input Output)) (m : ℕ) : ℕ := (eventsBefore log m).length

/-- The events of the log, the calls of `closing` returning `output` at the
end. -/
def logEvents (log : List (Action Input Output)) (closing : List (ℕ × ℕ)) (output : Output) :
    List (Event Input Output) :=
  eventsBefore log log.length ++ closing.map fun x => ⟨x.1, .ret, none, some output, x.2⟩

section Parser

/-- **What a parser has come to before line `m`.** -/
structure LogParser.Follows (log : List (Action Input Output)) (m : ℕ)
    (parser : LogParser Input Output) : Prop where
  events : parser.events = eventsBefore log m
  idCounter : parser.idCounter = callsBefore log m
  pending : ∀ p eid, (p, eid) ∈ parser.pending ↔
    ∃ k, openCall log p m = some k ∧ callsBefore log k = eid
  nodup : parser.pending.Nodup

theorem LogParser.follows_start : LogParser.Follows log 0 .start where
  events := rfl
  idCounter := rfl
  pending p eid := iff_of_false List.not_mem_nil (by rintro ⟨k, hk, -⟩; cases hk)
  nodup := List.nodup_nil

theorem eventsBefore_succ :
    eventsBefore log (m + 1) = eventsBefore log m ++ (eventAt log m).toList := by
  rw [eventsBefore, List.range_succ, List.filterMap_append, eventsBefore]
  cases h : eventAt log m <;> simp [h]

@[simp] theorem LogParser.mem_removed {process : ℕ} {pending : List (ℕ × ℕ)} :
    (p, eid) ∈ LogParser.removed process pending ↔ (p, eid) ∈ pending ∧ p ≠ process := by
  simp [LogParser.removed]

/-- The pending call that is looked up is the one that is open. -/
theorem LogParser.Follows.lookup_eq (h : parser.Follows log m) :
    parser.pending.lookup p = (openCall log p m).map (callsBefore log) := by
  cases hl : parser.pending.lookup p with
  | none =>
    have hnone := lookup_isNone.1 (Option.isNone_iff_eq_none.2 hl)
    cases ho : openCall log p m with
    | none => rfl
    | some k => exact absurd ((h.pending p _).2 ⟨k, ho, rfl⟩) (hnone _)
  | some eid =>
    obtain ⟨k, hk, rfl⟩ := (h.pending p eid).1 (mem_of_lookup hl)
    rw [hk, Option.map_some]

/-- **A line at a time.** -/
theorem LogParser.Follows.advance {a : Action Input Output} (h : parser.Follows log m)
    (ha : log[m]? = some a) : (parser.advance a).Follows log (m + 1) := by
  cases a with
  | skip =>
    refine ⟨?_, ?_, fun p eid => ?_, h.nodup⟩
    · rw [eventsBefore_succ, eventAt, ha]
      exact h.events.trans (List.append_nil _).symm
    · rw [callsBefore_succ ha]
      exact h.idCounter
    · rw [openCall_skip ha]
      exact h.pending p eid
  | invoke q input =>
    refine ⟨?_, ?_, fun p eid => ?_, ?_⟩
    · rw [eventsBefore_succ, eventAt, ha, ← h.events, ← h.idCounter]
      rfl
    · rw [callsBefore_succ ha, ← h.idCounter]
      rfl
    · rw [openCall_invoke ha]
      simp only [LogParser.advance, LogParser.allocate, LogParser.push, List.mem_cons,
        Prod.mk.injEq, LogParser.mem_removed, h.pending, h.idCounter]
      split
      · next hq =>
        subst hq
        simp [eq_comm]
      · next hq => simp [Ne.symm hq]
    · refine List.nodup_cons.2 ⟨fun hmem => ?_, h.nodup.filter _⟩
      exact (LogParser.mem_removed.1 hmem).2 rfl
  | answer q output =>
    simp only [LogParser.advance, h.lookup_eq]
    cases ho : openCall log q m with
    | none =>
      show parser.Follows log (m + 1)
      refine ⟨?_, ?_, fun p eid => ?_, h.nodup⟩
      · rw [eventsBefore_succ, eventAt, ha]
        simp [ho, h.events]
      · rw [callsBefore_succ ha]
        exact h.idCounter
      · rw [openCall_answer ha]
        split
        · next hq =>
          subst hq
          simp [h.pending, ho]
        · exact h.pending p eid
    | some k =>
      show ((parser.release q).push ⟨q, .ret, none, some output, callsBefore log k⟩).Follows log
        (m + 1)
      refine ⟨?_, ?_, fun p eid => ?_, h.nodup.filter _⟩
      · rw [eventsBefore_succ, eventAt, ha, ← h.events]
        simp [ho, LogParser.release, LogParser.push]
      · rw [callsBefore_succ ha]
        exact h.idCounter
      · rw [openCall_answer ha]
        simp only [LogParser.release, LogParser.push, LogParser.mem_removed, h.pending]
        split
        · next hq => simp [hq]
        · next hq => simp [Ne.symm hq]

variable {Line : Type} {lines : List Line} {read : Line → Option (Action Input Output)}
variable {parse : LogParser Input Output → Line → Except LogPanic (LogParser Input Output)}
variable {accepts : ℕ → Action Input Output → Prop}

/-- **A parser takes lines for what they mean**: where line `m` means an
action it does as much, or panics if the action is not acceptable there. -/
def LogParser.Reads (log : List (Action Input Output)) (read : Line → Option (Action Input Output))
    (parse : LogParser Input Output → Line → Except LogPanic (LogParser Input Output))
    (accepts : ℕ → Action Input Output → Prop) : Prop :=
  ∀ (m : ℕ) (parser parser' : LogParser Input Output) (line : Line) (a : Action Input Output),
    parser.Follows log m → read line = some a →
    (parse parser line = .ok parser' ↔ accepts m a ∧ parser.advance a = parser')

/-- What a line means is what the log has there. -/
theorem exists_action (hread : lines.map read = log.map some) {pre post : List Line} {line : Line}
    (hl : lines = pre ++ line :: post) : ∃ a, log[pre.length]? = some a ∧ read line = some a := by
  have hget : (log.map some)[pre.length]? = some (read line) := by
    rw [← hread, hl]
    simp
  rw [List.getElem?_map] at hget
  obtain ⟨a, ha, hsome⟩ := Option.map_eq_some_iff.1 hget
  exact ⟨a, ha, hsome.symm⟩

theorem length_eq_of_read (hread : lines.map read = log.map some) : lines.length = log.length := by
  simpa using congrArg List.length hread

/-- **A log is read to its end** when everything in it is acceptable, -/
theorem LogParser.Reads.completes (h : LogParser.Reads log read parse accepts)
    (hread : lines.map read = log.map some) (hacc : ∀ m a, log[m]? = some a → accepts m a) :
    ∃ parser, lines.foldlM parse .start = .ok parser := by
  have hloop := Loop.foldlM_ok (l := lines) (f := parse)
    (I := fun pre parser => LogParser.Follows log pre.length parser) LogParser.follows_start ?_
  · obtain ⟨parser, hparse, -⟩ := hloop
    exact ⟨parser, hparse⟩
  · intro pre line post parser hl hfollows
    obtain ⟨a, ha, hact⟩ := exists_action hread hl
    refine ⟨_, (h _ parser _ line a hfollows hact).2 ⟨hacc _ a ha, rfl⟩, ?_⟩
    rw [List.length_append, List.length_singleton]
    exact hfollows.advance ha

/-- and not otherwise. -/
theorem LogParser.Reads.follows (h : LogParser.Reads log read parse accepts)
    (hread : lines.map read = log.map some) (hok : lines.foldlM parse .start = .ok parser) :
    parser.Follows log log.length ∧ ∀ m a, log[m]? = some a → accepts m a := by
  have hinv := Loop.foldlM_inv (I := fun pre parser => LogParser.Follows log pre.length parser ∧
    ∀ m < pre.length, ∀ a, log[m]? = some a → accepts m a) ⟨LogParser.follows_start, nofun⟩ ?_ hok
  · rw [length_eq_of_read hread] at hinv
    exact ⟨hinv.1, fun m a ha => hinv.2 m (List.getElem?_eq_some_iff.1 ha).1 a ha⟩
  · rintro pre line post s s' hl ⟨hfollows, hold⟩ hstep
    obtain ⟨a, ha, hact⟩ := exists_action hread hl
    obtain ⟨hnew, rfl⟩ := (h _ s s' line a hfollows hact).1 hstep
    rw [List.length_append, List.length_singleton]
    refine ⟨hfollows.advance ha, fun m hm b hb => ?_⟩
    rcases (Nat.lt_succ_iff.1 hm).eq_or_lt with rfl | hlt
    · cases ha.symm.trans hb
      exact hnew
    · exact hold m hlt b hb

end Parser

section Lines

variable {ev : Event Input Output} {output : Output} {c : ℕ}

theorem eventAt_of_invoke {input : Input} (h : log[k]? = some (.invoke p input)) :
    eventAt log k = some ⟨p, .call, some input, none, callsBefore log k⟩ := by
  rw [eventAt, h]

theorem eventAt_of_answer (h : log[j]? = some (.answer p output)) (hk : openCall log p j = some k) :
    eventAt log j = some ⟨p, .ret, none, some output, callsBefore log k⟩ := by
  rw [eventAt, h]
  simp [hk]

/-- The event of a line is of its call, or of the call that it answers. -/
theorem eventAt_eq_some (h : eventAt log m = some ev) :
    (∃ p input, log[m]? = some (.invoke p input) ∧
      ev = ⟨p, .call, some input, none, callsBefore log m⟩) ∨
    ∃ p output k, log[m]? = some (.answer p output) ∧ openCall log p m = some k ∧
      ev = ⟨p, .ret, none, some output, callsBefore log k⟩ := by
  unfold eventAt at h
  split at h
  · next p input hm => exact Or.inl ⟨p, input, hm, (Option.some.inj h).symm⟩
  · next p output hm =>
    obtain ⟨k, hk, rfl⟩ := Option.map_eq_some_iff.1 h
    exact Or.inr ⟨p, output, k, hm, hk, rfl⟩
  · cases h

theorem lt_length_of_eventAt (h : eventAt log m = some ev) : m < log.length := by
  rcases eventAt_eq_some h with ⟨p, input, hm, -⟩ | ⟨p, output, k, hm, -⟩
  · exact (List.getElem?_eq_some_iff.1 hm).1
  · exact (List.getElem?_eq_some_iff.1 hm).1

theorem eventPos_succ : eventPos log (m + 1) = eventPos log m + (eventAt log m).toList.length := by
  rw [eventPos, eventsBefore_succ, List.length_append, eventPos]

theorem eventPos_mono {m' : ℕ} (h : m ≤ m') : eventPos log m ≤ eventPos log m' := by
  induction h with
  | refl => exact le_rfl
  | step _ ih =>
    rw [eventPos_succ]
    omega

/-- Events are in the order of their lines. -/
theorem eventPos_lt {m' : ℕ} (h : eventAt log m = some ev) (hlt : m < m') :
    eventPos log m < eventPos log m' := by
  have hsucc : eventPos log (m + 1) = eventPos log m + 1 := by rw [eventPos_succ, h]; rfl
  have hmono : eventPos log (m + 1) ≤ eventPos log m' := eventPos_mono hlt
  omega

theorem eventPos_lt_iff {m' : ℕ} (h : eventAt log m = some ev) :
    eventPos log m < eventPos log m' ↔ m < m' := by
  refine ⟨fun hlt => ?_, eventPos_lt h⟩
  by_contra hge
  have hmono : eventPos log m' ≤ eventPos log m := eventPos_mono (by omega)
  omega

theorem getElem?_eventsBefore {n : ℕ} (h : eventAt log m = some ev) (hm : m < n) :
    (eventsBefore log n)[eventPos log m]? = some ev := by
  induction n with
  | zero => omega
  | succ n ih =>
    rw [eventsBefore_succ]
    rcases (Nat.lt_succ_iff.1 hm).eq_or_lt with rfl | hlt
    · rw [eventPos, List.getElem?_append_right le_rfl, h]
      simp
    · have hget := ih hlt
      rw [List.getElem?_append_left (List.getElem?_eq_some_iff.1 hget).1, hget]

/-- **Every event is that of a line.** -/
theorem exists_line_of_getElem? {n : ℕ} (h : (eventsBefore log n)[c]? = some ev) :
    ∃ m < n, eventAt log m = some ev ∧ eventPos log m = c := by
  induction n with
  | zero => simp [eventsBefore] at h
  | succ n ih =>
    rw [eventsBefore_succ] at h
    rcases Nat.lt_or_ge c (eventsBefore log n).length with hlt | hge
    · rw [List.getElem?_append_left hlt] at h
      obtain ⟨m, hm, hev, hpos⟩ := ih h
      exact ⟨m, by omega, hev, hpos⟩
    · rw [List.getElem?_append_right hge] at h
      cases hn : eventAt log n with
      | none => simp [hn] at h
      | some ev' =>
        rw [hn, Option.toList_some, List.getElem?_singleton] at h
        split at h
        · next h0 =>
          cases h
          exact ⟨n, Nat.lt_succ_self n, hn, by rw [eventPos]; omega⟩
        · cases h

end Lines

section Closed

variable {ev : Event Input Output} {output : Output} {c id : ℕ} {a b : Invocation Input Output}

/-- **The calls that are open at the end**, each with its number, in any
order. -/
structure Closes (log : List (Action Input Output)) (closing : List (ℕ × ℕ)) : Prop where
  nodup : closing.Nodup
  mem : ∀ p eid, (p, eid) ∈ closing ↔
    ∃ k, openCall log p log.length = some k ∧ callsBefore log k = eid

/-- What a parser is left with at the end of the log. -/
theorem LogParser.Follows.closes (h : parser.Follows log log.length)
    (hperm : closing.Perm parser.pending) : Closes log closing where
  nodup := hperm.nodup_iff.2 h.nodup
  mem p eid := hperm.mem_iff.trans (h.pending p eid)

/-- Where the return of a call is. -/
def returnPos (log : List (Action Input Output)) (closing : List (ℕ × ℕ))
    (a : Invocation Input Output) : ℕ :=
  match a.answer with
  | some r => eventPos log r.1
  | none => eventPos log log.length + closing.idxOf (a.process, callsBefore log a.call)

theorem getElem?_logEvents_line (h : eventAt log m = some ev) :
    (logEvents log closing output)[eventPos log m]? = some ev := by
  have hget := getElem?_eventsBefore h (lt_length_of_eventAt h)
  rw [logEvents, List.getElem?_append_left (List.getElem?_eq_some_iff.1 hget).1, hget]

/-- An event is that of a line, or the return of a call that was left
open. -/
theorem exists_line_or_closing (h : (logEvents log closing output)[c]? = some ev) :
    (∃ m, eventAt log m = some ev ∧ eventPos log m = c) ∨
      ∃ (i : ℕ) (x : ℕ × ℕ), closing[i]? = some x ∧
        ev = ⟨x.1, .ret, none, some output, x.2⟩ ∧ eventPos log log.length + i = c := by
  rw [logEvents, List.getElem?_append] at h
  split at h
  · obtain ⟨m, -, hev, hpos⟩ := exists_line_of_getElem? h
    exact Or.inl ⟨m, hev, hpos⟩
  · rw [List.getElem?_map] at h
    obtain ⟨x, hx, rfl⟩ := Option.map_eq_some_iff.1 h
    exact Or.inr ⟨_, x, hx, rfl, by rw [eventPos]; omega⟩

/-- A call is at the place of its line. -/
theorem getElem?_logEvents_call (closing : List (ℕ × ℕ)) (output : Output)
    (ha : a ∈ invocations log) :
    (logEvents log closing output)[eventPos log a.call]? =
      some ⟨a.process, .call, some a.input, none, callsBefore log a.call⟩ :=
  getElem?_logEvents_line (eventAt_of_invoke (mem_invocations.1 ha).1)

/-- The line that answers a call. -/
theorem eventAt_answer {r : ℕ × Output} (ha : a ∈ invocations log) (hr : a.answer = some r) :
    a.call < r.1 ∧
      eventAt log r.1 = some ⟨a.process, .ret, none, some r.2, callsBefore log a.call⟩ := by
  obtain ⟨hk, hans⟩ := mem_invocations.1 ha
  obtain ⟨q, hj, hopen⟩ := answerTo_eq_some.1 (hans.symm.trans hr)
  obtain rfl : a.process = q := process_of_openCall hopen hk
  exact ⟨(invoke_of_openCall hopen).1, eventAt_of_answer hj hopen⟩

/-- A call that ends returns at the place of its answer, or with those
that are left open. -/
theorem getElem?_logEvents_return (hc : Closes log closing) (ha : a ∈ invocations log)
    (hends : a.Ends log) : (logEvents log closing output)[returnPos log closing a]? =
      some ⟨a.process, .ret, none, some (a.outputOr output), callsBefore log a.call⟩ := by
  unfold returnPos Invocation.outputOr
  cases hr : a.answer with
  | some r => exact getElem?_logEvents_line (eventAt_answer ha hr).2
  | none =>
    have hopen := hends.resolve_left fun hne => hne hr
    have hmem : (a.process, callsBefore log a.call) ∈ closing := (hc.mem _ _).2 ⟨_, hopen, rfl⟩
    have hlt := List.idxOf_lt_length_of_mem hmem
    simp only [logEvents, eventPos]
    rw [List.getElem?_append_right (Nat.le_add_right _ _), Nat.add_sub_cancel_left,
      List.getElem?_map, List.getElem?_eq_getElem hlt, List.getElem_idxOf hlt]
    rfl

/-- It returns after it is called. -/
theorem eventPos_lt_returnPos (ha : a ∈ invocations log) :
    eventPos log a.call < returnPos log closing a := by
  have hev := eventAt_of_invoke (mem_invocations.1 ha).1
  unfold returnPos
  cases hr : a.answer with
  | some r => exact eventPos_lt hev (eventAt_answer ha hr).1
  | none => exact (eventPos_lt hev (lt_length_of_eventAt hev)).trans_le (Nat.le_add_right _ _)

/-- A line that has a return answers a call. -/
theorem exists_answered_of_eventAt (h : eventAt log m = some ev) (hkind : ev.kind = .ret) :
    ∃ a ∈ invocations log, callsBefore log a.call = ev.id ∧ ∃ o, a.answer = some (m, o) := by
  rcases eventAt_eq_some h with ⟨p, i, hm, rfl⟩ | ⟨p, o, k, hm, hk, rfl⟩
  · cases hkind
  · obtain ⟨-, i, hget⟩ := invoke_of_openCall hk
    exact ⟨⟨p, i, k, answerTo log k⟩, mem_invocations.2 ⟨hget, rfl⟩, rfl, o,
      answerTo_eq_some.2 ⟨p, hm, hk⟩⟩

/-- **Every event is of a call**, -/
theorem exists_invocation_of_call (h : (logEvents log closing output)[c]? = some ev)
    (ht : ev.tag = (id, true)) :
    ∃ a ∈ invocations log, callsBefore log a.call = id ∧ eventPos log a.call = c := by
  obtain ⟨rfl, hkind⟩ := tag_eq_true_iff.1 ht
  rcases exists_line_or_closing h with ⟨m, hev, rfl⟩ | ⟨i, x, -, rfl, -⟩
  · rcases eventAt_eq_some hev with ⟨p, i, hm, rfl⟩ | ⟨p, o, k, hm, hk, rfl⟩
    · exact ⟨⟨p, i, m, answerTo log m⟩, mem_invocations.2 ⟨hm, rfl⟩, rfl, rfl⟩
    · cases hkind
  · cases hkind

/-- and every return is that of a call that ends. -/
theorem exists_invocation_of_return (hc : Closes log closing)
    (h : (logEvents log closing output)[c]? = some ev) (ht : ev.tag = (id, false)) :
    ∃ a ∈ invocations log, a.Ends log ∧ callsBefore log a.call = id ∧
      returnPos log closing a = c := by
  obtain ⟨rfl, hkind⟩ := tag_eq_false_iff.1 ht
  rcases exists_line_or_closing h with ⟨m, hev, rfl⟩ | ⟨i, ⟨p, eid⟩, hx, rfl, rfl⟩
  · obtain ⟨a, ha, hid, o, hans⟩ := exists_answered_of_eventAt hev hkind
    exact ⟨a, ha, Or.inl (by simp [hans]), hid, by simp [returnPos, hans]⟩
  · obtain ⟨k, hopen, rfl⟩ := (hc.mem p eid).1 (List.mem_of_getElem? hx)
    obtain ⟨a, ha, rfl, rfl⟩ := exists_pending_of_openCall hopen
    obtain ⟨hmem, hans⟩ := List.mem_filter.1 ha
    refine ⟨a, hmem, Or.inr hopen, rfl, ?_⟩
    obtain ⟨hi, hx⟩ := List.getElem?_eq_some_iff.1 hx
    have hidx := hc.nodup.idxOf_getElem i hi
    have hnone : a.answer = none := by simpa using hans
    rw [hx] at hidx
    simp only [returnPos, hnone, hidx]

theorem exists_invocation (hc : Closes log closing) (h : ev ∈ logEvents log closing output) :
    ∃ a ∈ invocations log, callsBefore log a.call = ev.id := by
  obtain ⟨c, hget⟩ := List.getElem?_of_mem h
  cases hb : ev.tag.2 with
  | true =>
    obtain ⟨a, ha, hid, -⟩ := exists_invocation_of_call hget (Prod.ext rfl hb)
    exact ⟨a, ha, hid⟩
  | false =>
    obtain ⟨a, ha, -, hid, -⟩ := exists_invocation_of_return hc hget (Prod.ext rfl hb)
    exact ⟨a, ha, hid⟩

/-- **Events of one call are two**, and their places tell which. -/
theorem nodup_tag_logEvents (hc : Closes log closing) :
    ((logEvents log closing output).map Event.tag).Nodup := by
  rw [List.nodup_iff_getElem?_ne_getElem?]
  intro c r hlt hr he
  rw [List.length_map] at hr
  have hr' := List.getElem?_eq_getElem hr
  have hc' := List.getElem?_eq_getElem (hlt.trans hr)
  rw [List.getElem?_map, List.getElem?_map, hr', hc'] at he
  have ht := Option.some.inj he
  cases hb : (logEvents log closing output)[r].tag.2 with
  | true =>
    obtain ⟨a, ha, hid, hpos⟩ := exists_invocation_of_call hr' (Prod.ext rfl hb)
    obtain ⟨b, hb', hid', hpos'⟩ := exists_invocation_of_call hc' (ht.trans (Prod.ext rfl hb))
    obtain rfl : a = b := eq_of_callsBefore_eq ha hb' (hid.trans hid'.symm)
    omega
  | false =>
    obtain ⟨a, ha, -, hid, hpos⟩ := exists_invocation_of_return hc hr' (Prod.ext rfl hb)
    obtain ⟨b, hb', -, hid', hpos'⟩ :=
      exists_invocation_of_return hc hc' (ht.trans (Prod.ext rfl hb))
    obtain rfl : a = b := eq_of_callsBefore_eq ha hb' (hid.trans hid'.symm)
    omega

/-- **The events of a log are well formed exactly when it is
sequential**, where the calls left open return at the end. -/
theorem pairedEvents_logEvents_iff (output : Output) (hc : Closes log closing) :
    PairedEvents (logEvents log closing output) ∧ CallsFirst (logEvents log closing output) ↔
      Sequential log := by
  constructor
  · rintro ⟨hp, -⟩
    refine sequential_of_ends fun a ha => ?_
    -- the call's return is that of a call of its number
    obtain ⟨ev, hev, ht⟩ := hp.exists_tag
      (List.mem_of_getElem? (getElem?_logEvents_call closing output ha)) false
    obtain ⟨r, hr⟩ := List.getElem?_of_mem hev
    obtain ⟨b, hb, hends, hid, -⟩ := exists_invocation_of_return hc hr ht
    obtain rfl : b = a := eq_of_callsBefore_eq hb ha hid
    exact hends
  · intro hseq
    refine ⟨⟨fun ev hev => ?_, nodup_tag_logEvents hc, ?_⟩, ?_⟩
    · obtain ⟨c, hc'⟩ := List.getElem?_of_mem hev
      rw [exists_eventValue_iff]
      rcases exists_line_or_closing hc' with ⟨m, hm, -⟩ | ⟨i, x, -, rfl, -⟩
      · rcases eventAt_eq_some hm with ⟨p, i, -, rfl⟩ | ⟨p, o, k, -, -, rfl⟩ <;> simp
      · simp
    · rintro t ht b
      obtain ⟨ev, hev, rfl⟩ := List.mem_map.1 ht
      obtain ⟨a, ha, hid⟩ := exists_invocation hc hev
      rw [List.mem_map]
      cases b with
      | true => exact ⟨_, List.mem_of_getElem? (getElem?_logEvents_call closing output ha), Prod.ext hid rfl⟩
      | false => exact ⟨_, List.mem_of_getElem? (getElem?_logEvents_return hc ha (hseq.ends ha)),
          Prod.ext hid rfl⟩
    · intro id c r evc evr hevc hevr htc htr
      obtain ⟨a, ha, hid, rfl⟩ := exists_invocation_of_call hevc htc
      obtain ⟨b, hb, -, hid', rfl⟩ := exists_invocation_of_return hc hevr htr
      obtain rfl : a = b := eq_of_callsBefore_eq ha hb (hid.trans hid'.symm)
      exact eventPos_lt_returnPos ha

/-- The operation of a call, in the times of the events. -/
def operationOf (log : List (Action Input Output)) (closing : List (ℕ × ℕ)) (output : Output)
    (a : Invocation Input Output) : Operation Input Output where
  clientId := a.process
  input := a.input
  call := eventPos log a.call
  output := a.outputOr output
  returnTime := returnPos log closing a

/-- **The operations of the events are the calls of the log.** -/
theorem operationsOf_logEvents (output : Output) (hc : Closes log closing)
    (hseq : Sequential log) :
    OperationsOf (logEvents log closing output)
      ((invocations log).map (operationOf log closing output)) := by
  refine ⟨(invocations log).map fun a => callsBefore log a.call, ?_, fun id => ?_, ?_⟩
  · exact nodup_invocations.map_on fun a ha b hb => eq_of_callsBefore_eq ha hb
  · rw [List.mem_map]
    constructor
    · rintro ⟨a, ha, rfl⟩
      exact ⟨_, List.mem_of_getElem? (getElem?_logEvents_call closing output ha), rfl⟩
    · rintro ⟨ev, hev, rfl⟩
      exact exists_invocation hc hev
  · rw [List.forall₂_map_left_iff, List.forall₂_map_right_iff, List.forall₂_same]
    intro a ha
    exact ⟨⟨_, getElem?_logEvents_call closing output ha, rfl, rfl, rfl⟩,
      ⟨_, getElem?_logEvents_return hc ha (hseq.ends ha), rfl, rfl, rfl⟩⟩

/-- The times of the events keep the order of the lines. -/
theorem operationOf_before_iff (ha : a ∈ invocations log) (hb : b ∈ invocations log) :
    (operationOf log closing output a).Before (operationOf log closing output b) ↔ a.Before b := by
  show returnPos log closing a < eventPos log b.call ↔ ∃ r ∈ a.answer, r.1 < b.call
  have hlen := lt_length_of_eventAt (eventAt_of_invoke (mem_invocations.1 hb).1)
  unfold returnPos
  cases hr : a.answer with
  | some r =>
    simp only [Option.mem_some_iff, exists_eq_left', eventPos_lt_iff (eventAt_answer ha hr).2]
  | none =>
    have hmono : eventPos log b.call ≤ eventPos log log.length := eventPos_mono hlen.le
    simp only [Option.not_mem_none, false_and, exists_false, iff_false]
    omega

variable {State : Type}

/-- **The events are linearizable when the calls of the log are**, a call
without an answer returning `output`. -/
theorem eventsLinearizable_logEvents_iff (model : Model State Input Output)
    (hc : Closes log closing) (hseq : Sequential log) :
    EventsLinearizable model (logEvents log closing output) ↔
      Linearizable Invocation.Before (fun s a => model.step s a.input (a.outputOr output))
        model.init (invocations log) := by
  have hp := ((pairedEvents_logEvents_iff output hc).2 hseq).1
  rw [(operationsOf_logEvents output hc hseq).linearizable_iff hp.nodup_kind, HistoryLinearizable,
    linearizable_map]
  exact linearizable_congr _ fun a ha b hb => (operationOf_before_iff ha hb).symm

end Closed

end GoCompat

end Porcupine
