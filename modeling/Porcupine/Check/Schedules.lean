import Porcupine.Check.Partitions
import Porcupine.Check.Operations
import Porcupine.Check.Locality
/-!
# What a verdict says, whatever the schedule

The threads of a check interleave as they please and the timer may fire
between any two steps. `Ok` and `Illegal` are nonetheless about the groups
the history was partitioned into, `Illegal` is the verdict exactly when a
group reported it, and `Unknown` is the timer's doing.
-/

namespace Porcupine

open Transition

variable {State Input Output : Type}

/-- The groups `check_operations` checks. -/
def operationGroups (model : Model State Input Output) (history : List (Operation Input Output)) :
    List (List (Operation Input Output)) :=
  match model.partition history with
  | some parts => parts.map (pick history)
  | none => [history]

/-- The groups `check_events` checks. -/
def eventGroups (model : Model State Input Output) (events : List (Event Input Output)) :
    List (List (Event Input Output)) :=
  match model.partitionEvents events with
  | some parts => parts.map (pick events)
  | none => [events]

/-- **A verdict that a check whose groups are `groups` may return** in the
state `c`, `Lin` saying which groups are linearizable. -/
structure Justifies {α : Type} (Lin : α → Prop) (groups : List α) (c : Check State Input Output)
    (r : CheckResult) : Prop where
  ok : r = .ok → ∀ g ∈ groups, Lin g
  illegal : r = .illegal → ∃ g ∈ groups, ¬ Lin g
  definitive : r = .illegal ↔ c.flags.definitiveIllegal = true
  unknown : r = .unknown → c.flags.timedOut = true

variable {debug : Bool} {model : Model State Input Output}
variable {srt : UnstableSort (List (Entry Input Output))}
variable {history : List (Operation Input Output)} {events : List (Event Input Output)}

theorem prepares_operationGroups (debug : Bool)
    (hparts : ∀ parts, model.partition history = some parts →
      parts.flatten.Perm (List.range history.length) ∧ parts.length ≤ 2 ^ 32)
    (hwf : ∀ op ∈ history, op.WellFormed) (hsize : history.length < 2 ^ 31) :
    Prepares model (operationPartitions debug model history)
      (∀ g ∈ operationGroups model history, HistoryLinearizable model g) := by
  unfold operationGroups
  cases hpart : model.partition history with
  | none =>
    simp only [List.mem_singleton, forall_eq]
    exact prepares_operations debug hpart hwf hsize
  | some parts =>
    obtain ⟨hcov, hcount⟩ := hparts parts hpart
    simp only [List.forall_mem_map]
    exact prepares_operations_partition debug hpart hcov hcount hwf hsize

theorem prepares_eventGroups (debug : Bool)
    (hparts : ∀ parts, model.partitionEvents events = some parts →
      assertPartitionEventsPaired true parts events = .ok () ∧ Ascending parts)
    (hgate : assertWellFormedEvents true events = .ok ()) (hsize : events.length < NONE) :
    Prepares model (eventPartitions debug model events)
      (∀ g ∈ eventGroups model events, EventsLinearizable model g) := by
  unfold eventGroups
  cases hpart : model.partitionEvents events with
  | none =>
    obtain ⟨hp, hfirst⟩ := assertWellFormedEvents_iff.1 hgate
    simp only [List.mem_singleton, forall_eq]
    exact prepares_events debug hpart hp hfirst hsize
  | some parts =>
    obtain ⟨hok, hasc⟩ := hparts parts hpart
    have hacc := accepted_of_gate hgate hsize hok
    simp only [List.forall_mem_map]
    exact hacc.prepares debug hpart (hacc.callsFirst_pick hasc)

variable [BEq State]

/-- **Every verdict is justified**, under every schedule. -/
theorem Prepares.justifies {α : Type} {Lin : α → Prop} {groups : List α}
    {ps : Result (List (List (Entry Input Output)))} (h : Prepares model ps (∀ g ∈ groups, Lin g))
    (hlaw : model.Lawful) {timeout : Option ℕ} {c : Check State Input Output} {r : CheckResult}
    (hreach : (checker debug srt model).Reachable (.begin timeout ps) c)
    (hr : (checker debug srt model).result c = some r) : Justifies Lin groups c r := by
  obtain ⟨partitions, rfl, hsearch, hP⟩ := h
  obtain ⟨V, hverdict⟩ := exists_verdicts_iff debug hlaw hsearch
  have hall : (∀ g ∈ partitions, V.verdict g = true) ↔ ∀ g ∈ groups, Lin g :=
    (forall₂_congr hverdict).trans hP
  have hanswered := V.answered_of_reachable hreach hr
  refine ⟨fun hok => hall.1 (hanswered.ok hok), fun hill => ?_, hanswered.illegal,
    hanswered.unknown⟩
  obtain ⟨N, hsound⟩ := V.sound_of_reachable hreach
  obtain ⟨g, hg, hfalse⟩ := hsound.definitive (hanswered.illegal.1 hill)
  by_contra hnone
  have htrue := hall.2 (fun x hx => by_contra fun hx' => hnone ⟨x, hx, hx'⟩) g hg
  rw [hfalse] at htrue
  cases htrue

/-- **Verdict safety.** Whatever the schedule, with or without a timer, a
verdict is justified; and without a timer every schedule ends, with `Ok`
if every group is linearizable and with `Illegal` if not. -/
theorem verdict_safe (debug : Bool) (srt : UnstableSort (List (Entry Input Output)))
    (model : Model State Input Output) (hlaw : model.Lawful) :
    (∀ (history : List (Operation Input Output)) (timeout : Option ℕ),
      (∀ op ∈ history, op.call ≤ op.returnTime) → history.length ≤ 2 ^ 31 - 1 →
      (∀ parts, model.partition history = some parts →
        parts.flatten.Perm (List.range history.length) ∧ parts.length ≤ 2 ^ 32) →
      (∀ c r, (checker debug srt model).Reachable (checkOperations debug model history timeout) c →
        (checker debug srt model).result c = some r →
        Justifies (HistoryLinearizable model) (operationGroups model history) c r) ∧
      Decides (checker debug srt model) (checkOperations debug model history none)
        (∀ g ∈ operationGroups model history, HistoryLinearizable model g)) ∧
    (∀ (events : List (Event Input Output)) (timeout : Option ℕ),
      assertWellFormedEvents true events = .ok () → events.length ≤ 2 * (2 ^ 31 - 1) →
      (∀ parts, model.partitionEvents events = some parts →
        assertPartitionEventsPaired true parts events = .ok () ∧ Ascending parts) →
      (∀ c r, (checker debug srt model).Reachable (checkEvents debug model events timeout) c →
        (checker debug srt model).result c = some r →
        Justifies (EventsLinearizable model) (eventGroups model events) c r) ∧
      Decides (checker debug srt model) (checkEvents debug model events none)
        (∀ g ∈ eventGroups model events, EventsLinearizable model g)) := by
  refine ⟨fun history timeout hwf hsize hparts => ?_,
    fun events timeout hgate hsize hparts => ?_⟩
  · have hprep : Prepares model (operationPartitions debug model history)
        (∀ g ∈ operationGroups model history, HistoryLinearizable model g) :=
      prepares_operationGroups debug hparts hwf (by omega)
    exact ⟨fun c r hreach hr => hprep.justifies hlaw hreach hr, hprep.decides hlaw⟩
  · have hprep : Prepares model (eventPartitions debug model events)
        (∀ g ∈ eventGroups model events, EventsLinearizable model g) :=
      prepares_eventGroups debug hparts hgate (by rw [NONE]; omega)
    exact ⟨fun c r hreach hr => hprep.justifies hlaw hreach hr, hprep.decides hlaw⟩

/-- The timer fires before the first group's search has made a single
pass. -/
def firingFirst : List Choice :=
  .main :: List.replicate 2 .timer ++ .expire :: List.replicate 5 .timer ++
    List.replicate 8 .main

/-- Two keys, each a group: the operations on the clock, and the events
without it. -/
theorem verdict_safe_firingFirst :
    (∃ c, (checker true (.insertion _) (KvEventPartitionModel List.reverse)).result c =
        some .unknown ∧
      Justifies (HistoryLinearizable (KvEventPartitionModel List.reverse))
        (operationGroups (KvEventPartitionModel List.reverse) twoKeys) c .unknown) ∧
    Decides (checker true (.insertion _) (KvEventPartitionModel List.reverse))
      (checkEvents true (KvEventPartitionModel List.reverse) twoKeysEvents none)
      (∀ g ∈ eventGroups (KvEventPartitionModel List.reverse) twoKeysEvents,
        EventsLinearizable (KvEventPartitionModel List.reverse) g) := by
  have h := verdict_safe true (.insertion _) (KvEventPartitionModel List.reverse)
    (Model.lawful_of_lawfulBEq _)
  have hrun : (((checker true (.insertion _) (KvEventPartitionModel List.reverse)).runs
      (fun _ _ => true) firingFirst
      (checkOperations true (KvEventPartitionModel List.reverse) twoKeys (some 0))).bind
      (checker true (.insertion _) (KvEventPartitionModel List.reverse)).result) =
        some .unknown := by
    decide +kernel
  obtain ⟨c, hc, hr⟩ := Option.bind_eq_some_iff.1 hrun
  refine ⟨⟨c, hr, (h.1 twoKeys (some 0) (by decide) (by decide) fun _ => twoKeys_partition).1 c _
    (.of_runs (fun _ _ _ => trivial) hc) hr⟩, ?_⟩
  exact (h.2 twoKeysEvents none (by decide) (by decide) fun _ => twoKeysEvents_partition).2

end Porcupine
