import Porcupine.Check.Agreement
import Porcupine.Check.PowerSet
import Porcupine.Common.Ledger
import Porcupine.Model.S2
/-!
# Streams are logs

A stream is the log of the batches that became durable, of which its
state keeps the length, the last hash and the last token set. Checking a
history of a stream decides whether one log explains it
(`s2_ok_iff_ledger`).
-/

namespace Porcupine

open Linearization

section Events

variable {Input Output : Type} {events : List (Event Input Output)}
variable {ops : List (Operation Input Output)}

/-- Operations of events are called at different positions. -/
theorem OperationsOf.nodup (h : OperationsOf events ops) : ops.Nodup := by
  obtain ⟨ids, hnd, -, hall⟩ := h
  induction hall with
  | nil => exact List.nodup_nil
  | @cons id op ids ops hop hall ih =>
    obtain ⟨hnot, hnd⟩ := List.nodup_cons.1 hnd
    refine List.nodup_cons.2 ⟨fun hmem => hnot ?_, ih hnd⟩
    obtain ⟨i, hi, rfl⟩ := List.getElem_of_mem hmem
    have hi' : i < ids.length := hall.length_eq ▸ hi
    have hop' : OperationOf events ids[i] ops[i] := hall.get hi' hi
    obtain ⟨ev, hev, -, hid, -⟩ := hop.call
    obtain ⟨ev', hev', -, hid', -⟩ := hop'.call
    rw [hev] at hev'
    cases hev'
    rw [← hid, hid']
    exact List.getElem_mem hi'

end Events

namespace S2

/-- A batch of records that became durable. -/
structure Batch where
  numRecords : UInt32
  xxh3 : UInt64
  setFencingToken : Option String
  deriving DecidableEq

/-- How many records a log holds. -/
def records (log : List Batch) : ℕ := (log.map fun b => b.numRecords.toNat).sum

/-- They are counted modulo `2 ^ 32`. -/
def tailOf (log : List Batch) : UInt32 := UInt32.ofNat (records log)

def hashOf (log : List Batch) : UInt64 := (log.getLast?.map Batch.xxh3).getD 0

/-- The token that was set last. -/
def tokenOf (log : List Batch) : Option String := (log.filterMap Batch.setFencingToken).getLast?

/-- The state of the stream with a log. -/
def streamOf (log : List Batch) : S2StreamState := ⟨tailOf log, hashOf log, tokenOf log⟩

/-- What returned without the stream having changed. -/
def Keeps (log : List Batch) (op : Operation S2Input S2Output) : Prop :=
  match op.input, op.output with
  | .append .., .appendDefiniteFailure => True
  | .append .., .appendIndefiniteFailure => True
  | .read, .readSuccess tail xxh3 => tail = tailOf log ∧ xxh3 = hashOf log
  | .read, .readFailure => True
  | .checkTail, .checkTailSuccess tail => tail = tailOf log
  | .checkTail, .checkTailFailure => True
  | _, _ => False

/-- **What an append needs of the log it extends.** To have succeeded it
needs the token that guards it to be the stream's; if its fate is unknown
a stream without a token will do. -/
def Adds (log : List Batch) (op : Operation S2Input S2Output) (b : Batch) : Prop :=
  match op.input, op.output with
  | .append numRecords xxh3 setFencingToken fencingToken matchSeqNum, .appendSuccess tail =>
    b = ⟨numRecords, xxh3, setFencingToken⟩ ∧
      (∀ bt, fencingToken = some bt → tokenOf log = some bt) ∧
      (∀ msn, matchSeqNum = some msn → msn = tailOf log) ∧ tail = tailOf (log ++ [b])
  | .append numRecords xxh3 setFencingToken fencingToken matchSeqNum, .appendIndefiniteFailure =>
    b = ⟨numRecords, xxh3, setFencingToken⟩ ∧
      (∀ bt ft, fencingToken = some bt → tokenOf log = some ft → bt = ft) ∧
      ∀ msn, matchSeqNum = some msn → msn = tailOf log
  | _, _ => False

section Log

variable {log : List Batch} {b : Batch}

@[simp] theorem records_append {log' : List Batch} :
    records (log ++ log') = records log + records log' := by
  simp [records]

@[simp] theorem records_singleton : records [b] = b.numRecords.toNat := by
  simp [records]

theorem tailOf_append : tailOf (log ++ [b]) = tailOf log + b.numRecords := by
  rw [tailOf, records_append, records_singleton, UInt32.ofNat_add, UInt32.ofNat_toNat, tailOf]

@[simp] theorem hashOf_append : hashOf (log ++ [b]) = b.xxh3 := by
  simp [hashOf]

theorem tokenOf_append : tokenOf (log ++ [b]) = b.setFencingToken.or (tokenOf log) := by
  unfold tokenOf
  rw [List.filterMap_append, List.getLast?_append]
  cases hset : b.setFencingToken <;> simp [hset]

/-- The state after a batch. -/
theorem streamOf_append : streamOf (log ++ [b]) =
    ⟨tailOf log + b.numRecords, b.xxh3, b.setFencingToken.or (tokenOf log)⟩ := by
  rw [streamOf, tailOf_append, hashOf_append, tokenOf_append]

end Log

/-- An append succeeds by adding its batch, -/
theorem mem_step_appendSuccess (log : List Batch) (numRecords : UInt32) (xxh3 : UInt64)
    (setFencingToken fencingToken : Option String) (matchSeqNum : Option UInt32) (tail : UInt32)
    (t : S2StreamState) :
    t ∈ S2StreamModel.step (streamOf log)
        (.append numRecords xxh3 setFencingToken fencingToken matchSeqNum) (.appendSuccess tail) ↔
      (∀ bt, fencingToken = some bt → tokenOf log = some bt) ∧
        (∀ msn, matchSeqNum = some msn → msn = tailOf log) ∧ tail = tailOf log + numRecords ∧
        t = ⟨tailOf log + numRecords, xxh3, setFencingToken.or (tokenOf log)⟩ := by
  show t ∈ (if fencingToken.any fun bt => (tokenOf log).all fun ft => ft != bt then []
    else if matchSeqNum.any fun msn => msn != tailOf log then []
    else if tail != tailOf log + numRecords then []
    else [⟨tailOf log + numRecords, xxh3, setFencingToken.or (tokenOf log)⟩]) ↔ _
  generalize tokenOf log = ft
  cases fencingToken with
  | none => cases matchSeqNum <;> simp
  | some bt => cases ft <;> cases matchSeqNum <;> simp

/-- and one whose fate is unknown may have added it. -/
theorem mem_step_appendIndefiniteFailure (log : List Batch) (numRecords : UInt32) (xxh3 : UInt64)
    (setFencingToken fencingToken : Option String) (matchSeqNum : Option UInt32)
    (t : S2StreamState) :
    t ∈ S2StreamModel.step (streamOf log)
        (.append numRecords xxh3 setFencingToken fencingToken matchSeqNum)
        .appendIndefiniteFailure ↔
      t = streamOf log ∨ ((∀ bt ft, fencingToken = some bt → tokenOf log = some ft → bt = ft) ∧
        (∀ msn, matchSeqNum = some msn → msn = tailOf log) ∧
        t = ⟨tailOf log + numRecords, xxh3, setFencingToken.or (tokenOf log)⟩) := by
  show t ∈ (if fencingToken.any fun bt => (tokenOf log).any fun ft => bt != ft then [streamOf log]
    else if matchSeqNum.any fun msn => msn != tailOf log then [streamOf log]
    else [⟨tailOf log + numRecords, xxh3, setFencingToken.or (tokenOf log)⟩, streamOf log]) ↔ _
  generalize tokenOf log = ft
  cases fencingToken with
  | none => cases matchSeqNum <;> grind
  | some bt => cases ft <;> cases matchSeqNum <;> grind

/-- **A step of the stream** keeps the log or adds a batch to it. -/
theorem mem_step (log : List Batch) (op : Operation S2Input S2Output) (t : S2StreamState) :
    t ∈ S2StreamModel.step (streamOf log) op.input op.output ↔
      t = streamOf log ∧ Keeps log op ∨ ∃ b, Adds log op b ∧ t = streamOf (log ++ [b]) := by
  obtain ⟨client, input, call, output, ret⟩ := op
  cases input with
  | append numRecords xxh3 setFencingToken fencingToken matchSeqNum =>
    cases output with
    | appendSuccess tail =>
      simp only [mem_step_appendSuccess, Keeps, Adds, and_false, false_or, and_assoc,
        exists_eq_left, streamOf_append, tailOf_append]
    | appendDefiniteFailure =>
      show t ∈ [streamOf log] ↔ _
      simp [Keeps, Adds]
    | appendIndefiniteFailure =>
      simp only [mem_step_appendIndefiniteFailure, Keeps, Adds, and_true, and_assoc,
        exists_eq_left, streamOf_append]
    | _ =>
      show t ∈ ([] : List S2StreamState) ↔ _
      simp [Keeps, Adds]
  | read =>
    cases output with
    | readSuccess tail xxh3 =>
      have hmem : t ∈ S2StreamModel.step (streamOf log) .read (.readSuccess tail xxh3) ↔
          hashOf log = xxh3 ∧ tailOf log = tail ∧ t = streamOf log := by
        show t ∈ (if hashOf log != xxh3 then [] else
          if tailOf log == tail then [streamOf log] else []) ↔ _
        simp
      simp only [hmem, Keeps, Adds, false_and, exists_false, or_false]
      exact ⟨fun ⟨hx, ht, hs⟩ => ⟨hs, ht.symm, hx.symm⟩, fun ⟨hs, ht, hx⟩ => ⟨hx.symm, ht.symm, hs⟩⟩
    | readFailure =>
      show t ∈ [streamOf log] ↔ _
      simp [Keeps, Adds]
    | _ =>
      show t ∈ ([] : List S2StreamState) ↔ _
      simp [Keeps, Adds]
  | checkTail =>
    cases output with
    | checkTailSuccess tail =>
      have hmem : t ∈ S2StreamModel.step (streamOf log) .checkTail (.checkTailSuccess tail) ↔
          tailOf log = tail ∧ t = streamOf log := by
        show t ∈ (if tailOf log == tail then [streamOf log] else []) ↔ _
        simp
      simp only [hmem, Keeps, Adds, false_and, exists_false, or_false]
      exact ⟨fun ⟨ht, hs⟩ => ⟨hs, ht.symm⟩, fun ⟨hs, ht⟩ => ⟨ht.symm, hs⟩⟩
    | checkTailFailure =>
      show t ∈ [streamOf log] ↔ _
      simp [Keeps, Adds]
    | _ =>
      show t ∈ ([] : List S2StreamState) ↔ _
      simp [Keeps, Adds]

variable {ops : List (Operation S2Input S2Output)} {events : List (Event S2Input S2Output)}

/-- A branch of the stream is a log that grows. -/
theorem exists_path_iff_grows {order : List (Operation S2Input S2Output)} :
    (∃ s ∈ S2StreamModel.init, ∃ t,
      Path (fun s (op : Operation S2Input S2Output) => S2StreamModel.step s op.input op.output)
        s order t) ↔ ∃ log, Grows Keeps Adds [] order log := by
  have hinit : S2StreamModel.init = [streamOf []] := rfl
  have hpath : ∀ t, Path (fun s (op : Operation S2Input S2Output) =>
      S2StreamModel.step s op.input op.output) (streamOf []) order t ↔
        ∃ log, Grows Keeps Adds [] order log ∧ t = streamOf log := fun t =>
    path_iff_grows streamOf mem_step
  simp only [hinit, List.mem_singleton, exists_eq_left, hpath]
  exact ⟨fun ⟨_, log, hlog, _⟩ => ⟨log, hlog⟩, fun ⟨log, hlog⟩ => ⟨_, log, hlog, rfl⟩⟩

/-- **Histories of a stream are linearizable when one log explains
them.** -/
theorem historyLinearizable_iff_ledger (hwf : ∀ op ∈ ops, op.WellFormed) :
    S2StreamModel.HistoryLinearizable ops ↔ ∃ (log : List Batch)
      (placed : List (Operation S2Input S2Output × Place)), placed.map Prod.fst = ops ∧
        Ledger Keeps Adds Operation.Before log placed := by
  have hrank : ∀ a ∈ ops, ∀ b ∈ ops, a.Before b → a.call < b.call :=
    fun a ha b _ hab => (hwf a ha).trans_lt hab
  rw [← linearizable_iff_ledger hrank]
  exact exists_congr fun order => and_congr_right fun _ => and_congr_right fun _ =>
    exists_path_iff_grows

/-- There is one log in which every operation has a place. -/
def HasLog (ops : List (Operation S2Input S2Output)) : Prop :=
  ∃ (log : List Batch) (placed : List (Operation S2Input S2Output × Place)),
    placed.map Prod.fst = ops ∧ Ledger Keeps Adds Operation.Before log placed

/-- `check_events` decides whether there is. -/
theorem decides_ledger (srt : UnstableSort (List (Entry S2Input S2Output)))
    (hgate : assertWellFormedEvents true events = .ok ())
    (hsize : events.length ≤ 2 * (2 ^ 31 - 1)) (hops : OperationsOf events ops) :
    Decides (checker false srt (PowerSetModel S2StreamModel))
      (checkEvents false (PowerSetModel S2StreamModel) events none) (HasLog ops) := by
  obtain ⟨hp, hfirst⟩ := assertWellFormedEvents_iff.1 hgate
  have h : Decides (checker false srt (PowerSetModel S2StreamModel))
      (checkEvents false (PowerSetModel S2StreamModel) events none)
      (EventsLinearizable (PowerSetModel S2StreamModel) events) :=
    (prepares_events false rfl hp hfirst (by rw [NONE]; omega)).decides
      (Model.lawful_of_lawfulBEq _)
  refine h.congr ?_
  rw [hops.linearizable_iff hp.nodup_kind, historyLinearizable_powerSetModel (Or.inr (by decide)),
    historyLinearizable_iff_ledger (hops.wellFormed hfirst), HasLog]

/-- **A checked stream is a log**: in a release build, whose lengths wrap,
`check_events` returns `Ok` exactly when there is a log in which every
operation has a place. A read saw a prefix of it, an append that succeeded
added its batch where its guards held, one whose fate is unknown did so or
did not, one that failed did not, no batch is added twice, and operations
that do not overlap are placed in the order of their times. -/
theorem s2_ok_iff_ledger (srt : UnstableSort (List (Entry S2Input S2Output)))
    (events : List (Event S2Input S2Output)) (ops : List (Operation S2Input S2Output))
    (hgate : assertWellFormedEvents true events = .ok ())
    (hsize : events.length ≤ 2 * (2 ^ 31 - 1)) (hops : OperationsOf events ops) :
    (checker false srt (PowerSetModel S2StreamModel)).Returns .ok
        (checkEvents false (PowerSetModel S2StreamModel) events none) ↔
      ∃ (log : List Batch) (placed : List (Operation S2Input S2Output × Place)),
        placed.map Prod.fst = ops ∧ Ledger Keeps Adds Operation.Before log placed :=
  (decides_ledger srt hgate hsize hops).ok_iff

/-- An append whose fate is unknown, and a read of what it appended. -/
def indefiniteAppend : List (Operation S2Input S2Output) :=
  [⟨0, .append 4 12345 none none none, 0, .appendSuccess 4, 1⟩,
    ⟨0, .read, 2, .readSuccess 4 12345, 3⟩, ⟨0, .checkTail, 4, .checkTailSuccess 4, 5⟩,
    ⟨0, .append 5 67890 none none none, 6, .appendIndefiniteFailure, 7⟩,
    ⟨0, .read, 8, .readSuccess 9 67890, 9⟩]

/-- The same history as events. -/
def indefiniteAppendEvents : List (Event S2Input S2Output) :=
  [⟨0, .call, some (.append 4 12345 none none none), none, 0⟩,
    ⟨0, .ret, none, some (.appendSuccess 4), 0⟩,
    ⟨0, .call, some .read, none, 1⟩, ⟨0, .ret, none, some (.readSuccess 4 12345), 1⟩,
    ⟨0, .call, some .checkTail, none, 2⟩, ⟨0, .ret, none, some (.checkTailSuccess 4), 2⟩,
    ⟨0, .call, some (.append 5 67890 none none none), none, 3⟩,
    ⟨0, .ret, none, some .appendIndefiniteFailure, 3⟩,
    ⟨0, .call, some .read, none, 4⟩, ⟨0, .ret, none, some (.readSuccess 9 67890), 4⟩]

theorem operationsOf_indefiniteAppend : OperationsOf indefiniteAppendEvents indefiniteAppend := by
  refine ⟨[0, 1, 2, 3, 4], by decide, fun id => ?_, ?_⟩
  · simp only [indefiniteAppendEvents, List.mem_cons, List.not_mem_nil, or_false, exists_eq_or_imp,
      exists_eq_left]
    omega
  · refine .cons ?_ (.cons ?_ (.cons ?_ (.cons ?_ (.cons ?_ .nil)))) <;>
      exact ⟨⟨_, rfl, rfl, rfl, rfl⟩, ⟨_, rfl, rfl, rfl, rfl⟩⟩

theorem s2_ok_iff_ledger_indefinite :
    (checker false (.insertion _) (PowerSetModel S2StreamModel)).Returns .ok
      (checkEvents false (PowerSetModel S2StreamModel) indefiniteAppendEvents none) := by
  refine (s2_ok_iff_ledger (.insertion _) indefiniteAppendEvents indefiniteAppend (by decide)
    (by decide) operationsOf_indefiniteAppend).2 ⟨[⟨4, 12345, none⟩, ⟨5, 67890, none⟩],
      indefiniteAppend.zip [.added 0, .saw 1, .saw 1, .added 1, .saw 2], rfl, ?_⟩
  refine ⟨fun p hp => ?_, by decide, by simp [indefiniteAppend], by decide⟩
  simp only [indefiniteAppend, List.zip_cons_cons, List.zip_nil_right, List.mem_cons,
    List.not_mem_nil, or_false] at hp
  rcases hp with rfl | rfl | rfl | rfl | rfl
  · exact ⟨_, rfl, rfl, nofun, nofun, by decide⟩
  · exact ⟨by decide, by decide, by decide⟩
  · exact ⟨by decide, show (4 : UInt32) = tailOf [⟨4, 12345, none⟩] by decide⟩
  · exact ⟨_, rfl, rfl, nofun, nofun⟩
  · exact ⟨by decide, by decide, by decide⟩

end S2

end Porcupine
