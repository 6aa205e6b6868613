import Porcupine.Check.GroupOrder
import Porcupine.Check.Malformed
/-!
# `Ok` is never a guess

The search returns true only on a chain of model steps it has taken, so an
`Ok` needs no law of `==`, no patience and no gate: whatever the model, its
`==`, the timeout and the schedule, and in a release build whatever the
index lists, an `Ok` that a check has returned says that every group is
well formed and has a linearization (`ok_explained`). The index lists of
events are read as sets of positions by the gate, and `Ok` also says that
each lists its calls first.
-/

namespace Porcupine

open Transition

variable {State Input Output : Type} {debug : Bool} {model : Model State Input Output}
variable {srt : UnstableSort (List (Entry Input Output))} {timeout : Option ℕ}

/-- **What explains operations**: they return after they are called, and
have a linearization. -/
def Explained (model : Model State Input Output) (ops : List (Operation Input Output)) : Prop :=
  (∀ op ∈ ops, op.WellFormed) ∧ HistoryLinearizable model ops

/-- The history, or what each index list picks out of it, is explained. -/
structure OperationsExplained (model : Model State Input Output)
    (history : List (Operation Input Output)) : Prop where
  whole : model.partition history = none → Explained model history
  groups : ∀ parts, model.partition history = some parts →
    ∀ g ∈ parts, Explained model (pick history g)

/-- The same of events, whose positions are their times. -/
structure EventsExplained (model : Model State Input Output) (events : List (Event Input Output)) :
    Prop where
  whole : model.partitionEvents events = none → EventsLinearizable model events
  groups : ∀ parts, model.partitionEvents events = some parts →
    ListsCallsFirst events parts ∧ ∀ g ∈ parts, EventsLinearizable model (pick events g)

/-- No group has more entries than node references count. -/
structure OperationsSized (model : Model State Input Output)
    (history : List (Operation Input Output)) : Prop where
  whole : model.partition history = none → 2 * history.length < 2 ^ 32 - 1
  groups : ∀ parts, model.partition history = some parts → ∀ g ∈ parts, 2 * g.length < 2 ^ 32 - 1

/-- The same of events. -/
structure EventsSized (model : Model State Input Output) (events : List (Event Input Output)) :
    Prop where
  whole : model.partitionEvents events = none → events.length < 2 ^ 32 - 1
  groups : ∀ parts, model.partitionEvents events = some parts → ∀ g ∈ parts,
    g.length < 2 ^ 32 - 1

/-- The events, and what the model partitions them into, pass the gate. -/
structure EventsGate (model : Model State Input Output) (events : List (Event Input Output)) :
    Prop where
  history : assertWellFormedEvents true events = .ok ()
  groups : ∀ parts, model.partitionEvents events = some parts →
    assertPartitionEventsPaired true parts events = .ok ()

/-! ## What reached the searches -/

section Reached

variable {history : List (Operation Input Output)} {events : List (Event Input Output)}
variable {partitions : List (List (Entry Input Output))} {parts : List (List ℕ)} {g : List ℕ}

/-- An index list that was flattened is in bounds. -/
theorem lt_of_makeEntriesFromIndices {entries : List (Entry Input Output)}
    (h : makeEntriesFromIndices history g = .ok entries) : ∀ i ∈ g, i < history.length := by
  obtain ⟨lists, hlists, -⟩ := Result.bind_eq_ok.1 h
  intro i hi
  obtain ⟨k, hk⟩ := List.getElem?_of_mem hi
  have hmem : (i, k) ∈ g.zipIdx := List.mem_zipIdx_iff_getElem?.2 hk
  obtain ⟨j, hj, hget⟩ := List.getElem_of_mem hmem
  have hread := (Loop.mapM_eq_ok_iff.1 hlists).get hj
    ((Loop.mapM_eq_ok_iff.1 hlists).length_eq ▸ hj)
  simp only [List.get_eq_getElem, hget] at hread
  obtain ⟨op, hop, -⟩ := Result.bind_eq_ok.1 hread
  exact (List.getElem?_eq_some_iff.1 (readAt_eq_ok.1 hop)).1

/-- **What operations are checked as**, once nothing has panicked. -/
theorem exists_groups_of_operationPartitions
    (h : operationPartitions debug model history = .ok partitions) :
    (model.partition history = none → partitions = [makeEntries history]) ∧
    ∀ parts, model.partition history = some parts →
      partitions = parts.map fun g => makeEntries (pick history g) := by
  obtain ⟨-, -, h⟩ := Result.bind_eq_ok.1 h
  refine ⟨fun hpart => ?_, fun parts hpart => ?_⟩
  · rw [hpart] at h
    cases h
    rfl
  · rw [hpart] at h
    obtain ⟨-, -, hmap⟩ := Result.bind_eq_ok.1 h
    have hlt : ∀ g ∈ parts, ∀ i ∈ g, i < history.length := by
      intro g hg
      obtain ⟨k, hk, rfl⟩ := List.getElem_of_mem hg
      have hall := Loop.mapM_eq_ok_iff.1 hmap
      exact lt_of_makeEntriesFromIndices (hall.get hk (hall.length_eq ▸ hk))
    rw [Loop.mapM_ok fun g hg => makeEntriesFromIndices_eq (hlt g hg)] at hmap
    exact (Except.ok.inj hmap).symm

/-- Operations whose groups are sized and have come to their searches: the
searches return. -/
theorem OperationsSized.halts (hsize : OperationsSized model history)
    (h : operationPartitions debug model history = .ok partitions) :
    Halts (operationPartitions debug model history) := by
  obtain ⟨hwhole, hgroups⟩ := exists_groups_of_operationPartitions h
  have hpair : ∀ ops : List (Operation Input Output), 2 * ops.length < 2 ^ 32 - 1 →
      ∃ n, Paired (makeEntries ops) n ∧ (makeEntries ops).length < NONE := fun ops hlen =>
    ⟨ops.length, makeEntries_arranged.paired, makeEntries_length_lt hlen⟩
  refine ⟨partitions, h, fun entries hmem => ?_⟩
  cases hpart : model.partition history with
  | none =>
    rw [hwhole hpart, List.mem_singleton] at hmem
    rw [hmem]
    exact hpair history (hsize.whole hpart)
  | some parts =>
    rw [hgroups parts hpart] at hmem
    obtain ⟨g, hg, rfl⟩ := List.mem_map.1 hmem
    have hle := length_pick_le_length history g
    have hlt := hsize.groups parts hpart g hg
    exact hpair (pick history g) (by omega)

/-- A debug build that has come to its searches has passed the gate. -/
theorem eventsGate_of_eventPartitions (h : eventPartitions true model events = .ok partitions) :
    EventsGate model events := by
  obtain ⟨_, hgate, h⟩ := Result.bind_eq_ok.1 h
  refine ⟨hgate, fun parts hpart => ?_⟩
  rw [hpart] at h
  obtain ⟨_, hparts, -⟩ := Result.bind_eq_ok.1 h
  exact hparts

/-- Events that have passed it, of which the groups are sized: the searches
return. -/
theorem EventsGate.halts (h : EventsGate model events) (hsize : EventsSized model events)
    (debug : Bool) : Halts (eventPartitions debug model events) := by
  have hfit : EventsFit model events :=
    ⟨hsize.whole, fun parts hpart => ⟨h.groups parts hpart, hsize.groups parts hpart⟩⟩
  exact hfit.halts h.history debug

end Reached

/-! ## What they returned -/

section Returned

variable [BEq State] {c : Check State Input Output} {ps : Result (List (List (Entry Input Output)))}
variable {entries : List (Entry Input Output)} {ops : List (Operation Input Output)}

/-- A check whose input panicked does nothing more, -/
theorem eq_of_reachable_panicked {p : Panic}
    (h : (checker debug srt model).Reachable (.begin timeout (.error p)) c) :
    c = .begin timeout (.error p) := by
  refine h.invariant (I := fun c => c = _) rfl fun t choice u ht _ hs => ?_
  subst ht
  cases choice <;> cases hs

/-- so a verdict is about partitions. -/
theorem exists_partitions_of_result {r : CheckResult}
    (h : (checker debug srt model).Reachable (.begin timeout ps) c)
    (hr : (checker debug srt model).result c = some r) : ∃ partitions, ps = .ok partitions := by
  cases ps with
  | ok partitions => exact ⟨partitions, rfl⟩
  | error p =>
    rw [eq_of_reachable_panicked h] at hr
    cases hr

/-- **An `Ok` says that each partition's search has returned true.** -/
theorem checksTo_of_ok (hhalts : Halts ps)
    (h : (checker debug srt model).Reachable (.begin timeout ps) c)
    (hr : (checker debug srt model).result c = some .ok) :
    ∃ partitions, ps = .ok partitions ∧ ∀ g ∈ partitions, ChecksTo debug model g true := by
  obtain ⟨partitions, rfl, hpair⟩ := hhalts
  obtain ⟨V⟩ := exists_verdicts_of_paired debug model hpair
  have hans := V.answered_of_reachable h hr
  refine ⟨partitions, rfl, fun g hg => ?_⟩
  rw [← hans.ok rfl g hg]
  exact (V.checks g hg).checksTo

/-- Operations on which the search returns true are explained. -/
theorem explained_of_checksTo (hsize : 2 * ops.length < 2 ^ 32 - 1)
    (h : ChecksTo debug model (makeEntries ops) true) : Explained model ops := by
  have hrep : Represents (makeEntries ops) ops := makeEntries_arranged.represents
  have hlt : (makeEntries ops).length < NONE := makeEntries_length_lt hsize
  exact ⟨hrep.callFirst_iff.1 (hrep.paired.callFirst_of_checksTo hlt h),
    hrep.linearizable_iff.1 (hrep.paired.linearizable_of_checksTo hlt h)⟩

theorem PairedEvents.explained_of_checksTo {events : List (Event Input Output)}
    (hp : PairedEvents events) (hent : List.Forall₂ (IsEntryOf events) events entries)
    (hsize : entries.length < NONE) (h : ChecksTo debug model entries true) :
    CallsFirst events ∧ EventsLinearizable model events := by
  have hpair := hp.paired hent
  exact ⟨hp.callsFirst_of_callFirst hent (hpair.callFirst_of_checksTo hsize h),
    (hp.linearizable_iff hent).1 (hpair.linearizable_of_checksTo hsize h)⟩

end Returned

section Sound

variable [BEq State] {c : Check State Input Output} {history : List (Operation Input Output)}
variable {events : List (Event Input Output)}

theorem operationsExplained_of_ok (hsize : OperationsSized model history)
    (h : (checker debug srt model).Reachable (checkOperations debug model history timeout) c)
    (hr : (checker debug srt model).result c = some .ok) : OperationsExplained model history := by
  obtain ⟨partitions, hps⟩ := exists_partitions_of_result h hr
  obtain ⟨hwhole, hgroups⟩ := exists_groups_of_operationPartitions hps
  obtain ⟨partitions', hps', hall⟩ := checksTo_of_ok (hsize.halts hps) h hr
  obtain rfl : partitions = partitions' := Except.ok.inj (hps.symm.trans hps')
  refine ⟨fun hpart => ?_, fun parts hpart g hg => ?_⟩
  · have hchecks := hall (makeEntries history) (by rw [hwhole hpart]; exact List.mem_singleton_self _)
    exact explained_of_checksTo (hsize.whole hpart) hchecks
  · have hle := length_pick_le_length history g
    have hlt := hsize.groups parts hpart g hg
    have hchecks := hall (makeEntries (pick history g))
      (by rw [hgroups parts hpart]; exact List.mem_map_of_mem hg)
    exact explained_of_checksTo (by omega) hchecks

theorem eventsExplained_of_ok (hsize : EventsSized model events)
    (hgate : debug = false → EventsGate model events)
    (h : (checker debug srt model).Reachable (checkEvents debug model events timeout) c)
    (hr : (checker debug srt model).result c = some .ok) : EventsExplained model events := by
  obtain ⟨partitions, hps⟩ := exists_partitions_of_result h hr
  have hpassed : EventsGate model events := by
    cases debug with
    | false => exact hgate rfl
    | true => exact eventsGate_of_eventPartitions hps
  obtain ⟨hp, hfirst⟩ := assertWellFormedEvents_iff.1 hpassed.history
  obtain ⟨partitions, hps, hall⟩ := checksTo_of_ok (hpassed.halts hsize debug) h hr
  refine ⟨fun hpart => ?_, fun parts hpart => ?_⟩
  · obtain ⟨entries, hconv, hent, -⟩ := hp.convert
    have hwhole : eventPartitions debug model events = .ok [entries] := by
      simp only [eventPartitions, assertWellFormedEvents_ok hp hfirst, hpart, hconv,
        Result.ok_bind, Result.pure_eq]
    obtain rfl : [entries] = partitions := Except.ok.inj (hwhole.symm.trans hps)
    have hlt : entries.length < NONE := by
      rw [← hent.length_eq]
      exact hsize.whole hpart
    exact (hp.explained_of_checksTo hent hlt (hall _ (List.mem_singleton_self _))).2
  · obtain ⟨hcov, hcount⟩ := (assertPartitionEventsPaired_iff hp hfirst).1 (hpassed.groups parts hpart)
    obtain ⟨conv, hparts, hconv⟩ := eventPartitions_eq debug hpart hp hfirst hcov hcount
    obtain rfl : parts.map conv = partitions := Except.ok.inj (hparts.symm.trans hps)
    have hexp : ∀ g ∈ parts, CallsFirst (pick events g) ∧ EventsLinearizable model (pick events g) := by
      intro g hg
      refine (hcov.paired g hg).explained_of_checksTo (hconv g hg) ?_
        (hall _ (List.mem_map_of_mem hg))
      rw [← (hconv g hg).length_eq]
      exact (length_pick_le_length events g).trans_lt (hsize.groups parts hpart g hg)
    exact ⟨fun g hg => (hexp g hg).1, fun g hg => (hexp g hg).2⟩

/-- **An `Ok` is backed by linearizations**: in every state that a check
comes to under any schedule, whatever the model, its `==` and the timeout,
a returned `Ok` says that the history, or each of its groups, has calls
before their returns and a linearization. Operations may be malformed and
index lists overlap, repeat or leave out indices; events have passed the
gate, as those of a debug build that returns have. -/
theorem ok_explained (debug : Bool) (srt : UnstableSort (List (Entry Input Output)))
    (model : Model State Input Output) (timeout : Option ℕ) :
    (∀ history : List (Operation Input Output), OperationsSized model history → ∀ c,
      (checker debug srt model).Reachable (checkOperations debug model history timeout) c →
      (checker debug srt model).result c = some .ok → OperationsExplained model history) ∧
    ∀ events : List (Event Input Output), EventsSized model events →
      (debug = false → EventsGate model events) → ∀ c,
      (checker debug srt model).Reachable (checkEvents debug model events timeout) c →
      (checker debug srt model).result c = some .ok → EventsExplained model events :=
  ⟨fun _ hsize _ => operationsExplained_of_ok hsize,
    fun _ hsize hgate _ => eventsExplained_of_ok hsize hgate⟩

/-- The register, an index in two groups of two operations. -/
def overlapGroups : Model ℤ RegisterInput ℤ :=
  { RegisterModel with partition := fun _ => some [[0, 1], [1]] }

/-- A release build under a timeout and an `==` that never holds, and a
debug build. -/
theorem ok_explained_overlapping :
    OperationsExplained overlapGroups overlapping ∧ EventsExplained RegisterModel readAndWriteEvents := by
  have hops : ((@checker ℤ RegisterInput ℤ ⟨fun _ _ => false⟩ false (.insertion _)
      overlapGroups).runs (fun _ _ => true) (.replicate 16 .main)
        (checkOperations false overlapGroups overlapping (some 5))).bind Check.result =
      some .ok := by decide +kernel
  have hevents : ((checker true (.insertion _) RegisterModel).runs (fun _ _ => true)
      (.replicate 8 .main) (checkEvents true RegisterModel readAndWriteEvents none)).bind
        Check.result = some .ok := by decide
  obtain ⟨c, hc, hret⟩ := Option.bind_eq_some_iff.1 hops
  obtain ⟨c', hc', hret'⟩ := Option.bind_eq_some_iff.1 hevents
  refine ⟨?_, ?_⟩
  · exact (@ok_explained ℤ RegisterInput ℤ ⟨fun _ _ => false⟩ false (.insertion _) overlapGroups
      (some 5)).1 overlapping ⟨nofun, fun parts h => by cases h; decide⟩ c
      (.of_runs (fun _ _ _ => trivial) hc) hret
  · exact (ok_explained true (.insertion _) RegisterModel none).2 readAndWriteEvents
      ⟨fun _ => by decide, nofun⟩ nofun c' (.of_runs (fun _ _ _ => trivial) hc') hret'

end Sound

end Porcupine
