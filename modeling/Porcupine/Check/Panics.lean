import Porcupine.Check.Contract
import Porcupine.Entries.Diagnosis
/-!
# Every panic of a debug build is about its input

A debug check that panics does so before it starts a search, and its
message names a fault that is there: of the operations or the events
themselves, or of the index lists that the model's partition made of them
(`panics_are_faults`). A faulty input panics, whatever the model, its `==`,
the timeout and the schedule, and no other does. The order in which the
event gate walks its two hash maps decides at most which fault is named.
-/

namespace Porcupine

open Transition

variable {State Input Output : Type} {model : Model State Input Output}
variable {srt : UnstableSort (List (Entry Input Output))} {timeout : Option ℕ} {p : Panic}
variable {history : List (Operation Input Output)} {events : List (Event Input Output)}

/-- **What a panic of `check_operations` says of its input.** -/
inductive OperationsFault (model : Model State Input Output)
    (history : List (Operation Input Output)) : Panic → Prop
  | callAfterReturn {op : Operation Input Output} : op ∈ history → op.returnTime < op.call →
      OperationsFault model history (.callAfterReturn op.clientId op.call op.returnTime)
  | lists {parts : List (List ℕ)} {p : Panic} : model.partition history = some parts →
      ListsFault parts history.length p → OperationsFault model history p

/-- What a panic of `check_events` says of its input. -/
inductive HistoryFault (model : Model State Input Output) (events : List (Event Input Output)) :
    Panic → Prop
  | events {p : Panic} : EventsFault events p → HistoryFault model events p
  | lists {parts : List (List ℕ)} {p : Panic} : model.partitionEvents events = some parts →
      PartitionFault parts events p → HistoryFault model events p

/-- `eventPartitions` of a debug build, the gate walking its maps in the
order `visit` puts them in. -/
def eventPartitionsVisiting (visit : List (ℕ × ℕ) → List (ℕ × ℕ)) (model : Model State Input Output)
    (history : List (Event Input Output)) : Result (List (List (Entry Input Output))) := do
  gateVisiting visit history
  match model.partitionEvents history with
  | some parts => do
    assertPartitionEventsPaired true parts history
    parts.mapM (convertEntriesFromIndices history)
  | none => return [← convertEntries (renumber history)]

/-- `check_events` of a debug build, likewise. -/
def checkEventsVisiting (visit : List (ℕ × ℕ) → List (ℕ × ℕ)) (model : Model State Input Output)
    (history : List (Event Input Output)) (timeout : Option ℕ) : Check State Input Output :=
  .begin timeout (eventPartitionsVisiting visit model history)

theorem checkEventsVisiting_id :
    checkEventsVisiting id model events timeout = checkEvents true model events timeout := rfl

variable {visit : List (ℕ × ℕ) → List (ℕ × ℕ)}

/-- The order of the walk does not matter to what goes on. -/
theorem eventPartitionsVisiting_eq_ok_iff (hvisit : ∀ l, (visit l).Perm l)
    {partitions : List (List (Entry Input Output))} :
    eventPartitionsVisiting visit model events = .ok partitions ↔
      eventPartitions true model events = .ok partitions := by
  unfold eventPartitionsVisiting eventPartitions
  rw [Result.bind_eq_ok, Result.bind_eq_ok]
  exact exists_congr fun _ => and_congr_left fun _ => gateVisiting_eq_ok_iff hvisit

/-! ## What is reported -/

theorem operationsFault_of_error (h : operationPartitions true model history = .error p) :
    OperationsFault model history p := by
  rcases Result.bind_eq_error.1 h with h | ⟨_, -, h⟩
  · obtain ⟨pre, op, post, rfl, -, hlt, rfl⟩ := assertWellFormed_eq_error_iff.1 h
    exact .callAfterReturn (by simp) hlt
  · cases hpart : model.partition history with
    | none =>
      rw [hpart] at h
      cases h
    | some parts =>
      rw [hpart] at h
      rcases Result.bind_eq_error.1 h with h | ⟨_, hgate, h⟩
      · exact .lists hpart (assertPartitionCoversOps_faults.2 p h)
      · -- the lists that pass are in bounds
        obtain ⟨hcov, -⟩ := assertPartitionCoversOps_iff.1 hgate
        rw [Loop.mapM_ok fun g hg => makeEntriesFromIndices_eq (lt_of_covers hcov g hg)] at h
        cases h

theorem historyFault_of_error (hvisit : ∀ l, (visit l).Perm l)
    (h : eventPartitionsVisiting visit model events = .error p) : HistoryFault model events p := by
  rcases Result.bind_eq_error.1 h with h | ⟨_, hgate, h⟩
  · exact .events (eventsFault_of_gateVisiting hvisit h)
  · rw [gateVisiting_eq_ok_iff hvisit] at hgate
    obtain ⟨hp, hfirst⟩ := assertWellFormedEvents_iff.1 hgate
    cases hpart : model.partitionEvents events with
    | none =>
      obtain ⟨entries, hconv, -⟩ := hp.convert
      rw [hpart] at h
      simp only [hconv, Result.ok_bind] at h
      cases h
    | some parts =>
      rw [hpart] at h
      rcases Result.bind_eq_error.1 h with h | ⟨_, hparts, h⟩
      · exact .lists hpart ((assertPartitionEventsPaired_faults events hgate parts).2 p h)
      · obtain ⟨hcov, hcount⟩ := (assertPartitionEventsPaired_iff hp hfirst).1 hparts
        obtain ⟨conv, hok, -⟩ := eventPartitions_eq true hpart hp hfirst hcov hcount
        have hgate' := assertWellFormedEvents_ok hp hfirst true
        simp only [eventPartitions, hgate', hpart, hparts, Result.ok_bind] at hok
        rw [hok] at h
        cases h

/-! ## What is accepted has no fault -/

theorem not_operationsFault (h : AcceptsOperations true model history) :
    ¬ OperationsFault model history p := by
  intro hfault
  cases hfault with
  | callAfterReturn hop hlt => exact Nat.not_le_of_lt hlt (h.wellFormed rfl _ hop)
  | lists hpart hfault =>
    have hlists := h.lists _ hpart
    exact not_listsFault (hlists.covers rfl) (hlists.count rfl) hfault

theorem not_historyFault (h : EventsGate model events) : ¬ HistoryFault model events p := by
  intro hfault
  obtain ⟨hp, hfirst⟩ := assertWellFormedEvents_iff.1 h.history
  cases hfault with
  | events hfault => exact hp.not_eventsFault hfirst hfault
  | lists hpart hfault =>
    obtain ⟨hcov, hcount⟩ := (assertPartitionEventsPaired_iff hp hfirst).1 (h.groups _ hpart)
    exact hcov.not_partitionFault hp hcount hfault

section Runs

variable [BEq State]

/-- A run that starts in a panic stays there; one that does not never
panics. -/
theorem panicked_iff {ps : Result (List (List (Entry Input Output)))}
    (hhalts : ∀ partitions, ps = .ok partitions → Halts ps) {c : Check State Input Output}
    (h : (checker true srt model).Reachable (.begin timeout ps) c) :
    c.main = .panicked p ↔ ps = .error p := by
  cases ps with
  | ok partitions =>
    exact iff_of_false ((hhalts partitions rfl).not_panicked h p) nofun
  | error q =>
    rw [eq_of_reachable_panicked h]
    exact ⟨fun he => by cases he; rfl, fun he => by cases he; rfl⟩

/-- **A debug check panics on faulty input and on no other, and names a
fault that is there**, in whatever order the event gate walks its maps. -/
theorem panics_are_faults (srt : UnstableSort (List (Entry Input Output)))
    (model : Model State Input Output) (timeout : Option ℕ) :
    (∀ history : List (Operation Input Output), OperationsSized model history →
      (∀ c p, (checker true srt model).Reachable (checkOperations true model history timeout) c →
        c.main = .panicked p → OperationsFault model history p) ∧
      ∀ q, OperationsFault model history q → ∃ p, OperationsFault model history p ∧
        ∀ c, (checker true srt model).Reachable (checkOperations true model history timeout) c →
          c.main = .panicked p) ∧
    ∀ visit : List (ℕ × ℕ) → List (ℕ × ℕ), (∀ l, (visit l).Perm l) →
      ∀ events : List (Event Input Output), EventsSized model events →
        (∀ c p,
          (checker true srt model).Reachable (checkEventsVisiting visit model events timeout) c →
          c.main = .panicked p → HistoryFault model events p) ∧
        ∀ q, HistoryFault model events q → ∃ p, HistoryFault model events p ∧
          ∀ c,
            (checker true srt model).Reachable (checkEventsVisiting visit model events timeout) c →
            c.main = .panicked p := by
  refine ⟨fun history hsize => ?_, fun visit hvisit events hsize => ?_⟩
  · have hhalts : ∀ partitions, operationPartitions true model history = .ok partitions →
        Halts (operationPartitions true model history) := fun _ hok => hsize.halts hok
    refine ⟨fun c p hreach hp => operationsFault_of_error ((panicked_iff hhalts hreach).1 hp),
      fun q hq => ?_⟩
    cases h : operationPartitions true model history with
    | ok partitions =>
      exact absurd hq (not_operationsFault (exists_operationPartitions_iff.1 ⟨partitions, h⟩))
    | error p =>
      exact ⟨p, operationsFault_of_error h, fun c hreach => (panicked_iff hhalts hreach).2 h⟩
  · have hhalts : ∀ partitions, eventPartitionsVisiting visit model events = .ok partitions →
        Halts (eventPartitionsVisiting visit model events) := by
      intro partitions hok
      have hok' := (eventPartitionsVisiting_eq_ok_iff hvisit).1 hok
      rw [hok, ← hok']
      exact (eventsGate_of_eventPartitions hok').halts hsize true
    refine ⟨fun c p hreach hp => historyFault_of_error hvisit ((panicked_iff hhalts hreach).1 hp),
      fun q hq => ?_⟩
    cases h : eventPartitionsVisiting visit model events with
    | ok partitions =>
      have hok' := (eventPartitionsVisiting_eq_ok_iff hvisit).1 h
      exact absurd hq (not_historyFault (eventsGate_of_eventPartitions hok'))
    | error p =>
      exact ⟨p, historyFault_of_error hvisit h, fun c hreach => (panicked_iff hhalts hreach).2 h⟩

/-- An index in two groups, and two calls without a return, of which the
order of the walk picks one. -/
theorem panics_are_faults_overlapping :
    OperationsFault overlapGroups overlapping (.partitionOverlap 1) ∧
    HistoryFault RegisterModel (readAndWriteEvents.take 2) (.callUnmatched 8 1) ∧
    HistoryFault RegisterModel (readAndWriteEvents.take 2) (.callUnmatched 9 0) := by
  have hops := (panics_are_faults (.insertion _) overlapGroups none).1 overlapping
    ⟨nofun, fun parts h => by cases h; decide⟩
  have hsize : EventsSized RegisterModel (readAndWriteEvents.take 2) :=
    ⟨fun _ => by decide, nofun⟩
  obtain ⟨-, hevents⟩ := panics_are_faults (.insertion _) RegisterModel none
  exact ⟨hops.1 _ _ .refl rfl, (hevents id .refl _ hsize).1 _ _ .refl rfl,
    (hevents List.reverse List.reverse_perm _ hsize).1 _ _ .refl rfl⟩

end Runs

end Porcupine
