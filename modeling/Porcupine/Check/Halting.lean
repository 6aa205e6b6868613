import Porcupine.Check.GroupOrder
import Porcupine.Check.Operations
/-!
# Accepted input neither panics nor runs on

Every entry list that the builders make of accepted input is paired, so
its search returns (`checkSingle_terminates`), whatever the model and its
`==` are. A check of partitions whose searches return is sound wherever it
stands, and nowhere has it panicked (`no_panic`): a panic of any of its
threads would show. Only the group that a search is on has to fit the node
references, not the whole history.
-/

namespace Porcupine

open Transition

variable {State Input Output : Type} {debug : Bool} {model : Model State Input Output}
variable {srt : UnstableSort (List (Entry Input Output))}

/-! ## Groups that fit -/

/-- What the model's partition returns is accepted by the gate, and no
group has more entries than node references count. -/
structure OperationsFit (model : Model State Input Output)
    (history : List (Operation Input Output)) : Prop where
  whole : model.partition history = none → 2 * history.length < 2 ^ 32 - 1
  groups : ∀ parts, model.partition history = some parts →
    assertPartitionCoversOps true parts history.length = .ok () ∧
      ∀ g ∈ parts, 2 * g.length < 2 ^ 32 - 1

/-- The same of events. -/
structure EventsFit (model : Model State Input Output) (events : List (Event Input Output)) :
    Prop where
  whole : model.partitionEvents events = none → events.length < 2 ^ 32 - 1
  groups : ∀ parts, model.partitionEvents events = some parts →
    assertPartitionEventsPaired true parts events = .ok () ∧ ∀ g ∈ parts, g.length < 2 ^ 32 - 1

theorem length_pick_le_length {α : Type} (history : List α) (g : List ℕ) :
    (pick history g).length ≤ g.length :=
  List.length_filterMap_le _ _

/-- The searches of operations that fit return. -/
theorem OperationsFit.halts {history : List (Operation Input Output)}
    (h : OperationsFit model history) (hwf : ∀ op ∈ history, op.WellFormed) (debug : Bool) :
    Halts (operationPartitions debug model history) := by
  cases hpart : model.partition history with
  | none =>
    have hsize := h.whole hpart
    exact (prepares_operations debug hpart hwf (by omega)).halts
  | some parts =>
    obtain ⟨hgate, hsize⟩ := h.groups parts hpart
    obtain ⟨hcov, hcount⟩ := assertPartitionCoversOps_iff.1 hgate
    refine ⟨_, operationPartitions_eq debug hpart hcov hcount hwf, fun entries hmem => ?_⟩
    obtain ⟨g, hg, rfl⟩ := List.mem_map.1 hmem
    have hpair : Paired (makeEntries (pick history g)) (pick history g).length :=
      makeEntries_arranged.paired
    have hle := length_pick_le_length history g
    have hlt := hsize g hg
    refine ⟨_, hpair, ?_⟩
    rw [hpair.length_eq, NONE]
    omega

/-- The searches of events that fit return. -/
theorem EventsFit.halts {events : List (Event Input Output)} (h : EventsFit model events)
    (hgate : assertWellFormedEvents true events = .ok ()) (debug : Bool) :
    Halts (eventPartitions debug model events) := by
  obtain ⟨hp, hfirst⟩ := assertWellFormedEvents_iff.1 hgate
  cases hpart : model.partitionEvents events with
  | none => exact (prepares_events debug hpart hp hfirst (h.whole hpart)).halts
  | some parts =>
    obtain ⟨hparts, hsize⟩ := h.groups parts hpart
    obtain ⟨hcov, hcount⟩ := (assertPartitionEventsPaired_iff hp hfirst).1 hparts
    obtain ⟨conv, hconv, hent⟩ := eventPartitions_eq debug hpart hp hfirst hcov hcount
    refine ⟨_, hconv, fun entries hmem => ?_⟩
    obtain ⟨g, hg, rfl⟩ := List.mem_map.1 hmem
    refine ⟨_, (hcov.paired g hg).paired (hent g hg), ?_⟩
    rw [← (hent g hg).length_eq]
    exact (length_pick_le_length events g).trans_lt (hsize g hg)

variable [BEq State]

/-! ## Termination -/

/-- **`check_single` terminates**, for every model and every `==`, on what
`make_entries` makes of any operations and on what the converters make of
well-formed events and of the groups of an accepted partition. -/
theorem checkSingle_terminates (debug : Bool) (model : Model State Input Output) :
    (∀ history : List (Operation Input Output), (makeEntries history).length < 2 ^ 32 - 1 →
      ∃ b, ChecksTo debug model (makeEntries history) b) ∧
    ∀ events : List (Event Input Output), assertWellFormedEvents true events = .ok () →
      (∃ entries, convertEntries (renumber events) = .ok entries ∧
        (entries.length < 2 ^ 32 - 1 → ∃ b, ChecksTo debug model entries b)) ∧
      ∀ parts, assertPartitionEventsPaired true parts events = .ok () → ∀ g ∈ parts,
        ∃ entries, convertEntriesFromIndices events g = .ok entries ∧
          (entries.length < 2 ^ 32 - 1 → ∃ b, ChecksTo debug model entries b) := by
  refine ⟨fun history hsize => ?_, fun events hgate => ?_⟩
  · have hpair : Paired (makeEntries history) history.length := makeEntries_arranged.paired
    exact hpair.checksTo hsize debug model
  · obtain ⟨hp, hfirst⟩ := assertWellFormedEvents_iff.1 hgate
    refine ⟨?_, fun parts hparts g hg => ?_⟩
    · obtain ⟨entries, hconv, -, hpair⟩ := hp.convert
      exact ⟨entries, hconv, fun hsize => hpair.checksTo hsize debug model⟩
    · obtain ⟨hcov, -⟩ := (assertPartitionEventsPaired_iff hp hfirst).1 hparts
      obtain ⟨entries, hconv, -, hpair⟩ := (hcov.paired g hg).convert
      refine ⟨entries, ?_, fun hsize => hpair.checksTo hsize debug model⟩
      rw [convertEntriesFromIndices_eq (lt_of_covers hcov.covers g hg), hconv]

/-- An operation that returns before it is called, and an `==` that never
holds. -/
theorem checkSingle_terminates_neverEqual :
    ∃ b, @ChecksTo ℤ RegisterInput ℤ ⟨fun _ _ => false⟩ true RegisterModel
      (makeEntries [⟨0, ⟨true, 1⟩, 5, 0, 2⟩, ⟨1, ⟨false, 0⟩, 0, 1, 3⟩]) b :=
  (@checkSingle_terminates ℤ RegisterInput ℤ ⟨fun _ _ => false⟩ true RegisterModel).1
    [⟨0, ⟨true, 1⟩, 5, 0, 2⟩, ⟨1, ⟨false, 0⟩, 0, 1, 3⟩] (by decide)

/-! ## Panics -/

/-- **A check whose searches return never panics.** -/
theorem Halts.not_panicked {ps : Result (List (List (Entry Input Output)))} (h : Halts ps)
    {timeout : Option ℕ} {c : Check State Input Output}
    (hreach : (checker debug srt model).Reachable (.begin timeout ps) c) (p : Panic) :
    c.main ≠ .panicked p := by
  obtain ⟨partitions, rfl, hpair⟩ := h
  obtain ⟨V⟩ := exists_verdicts_of_paired debug model hpair
  obtain ⟨N, hsound⟩ := V.sound_of_reachable hreach
  intro he
  have hmain := hsound.main
  rw [he] at hmain
  exact hmain

/-- **Accepted input never panics**, in any build, under any schedule, with
or without a timeout. -/
theorem no_panic (debug : Bool) (srt : UnstableSort (List (Entry Input Output)))
    (model : Model State Input Output) (timeout : Option ℕ) :
    (∀ history : List (Operation Input Output), (∀ op ∈ history, op.call ≤ op.returnTime) →
      OperationsFit model history → ∀ c p,
        (checker debug srt model).Reachable (checkOperations debug model history timeout) c →
        c.main ≠ .panicked p) ∧
    ∀ events : List (Event Input Output), assertWellFormedEvents true events = .ok () →
      EventsFit model events → ∀ c p,
        (checker debug srt model).Reachable (checkEvents debug model events timeout) c →
        c.main ≠ .panicked p :=
  ⟨fun _ hwf hfit _ p hreach => (hfit.halts hwf debug).not_panicked hreach p,
    fun _ hgate hfit _ p hreach => (hfit.halts hgate debug).not_panicked hreach p⟩

/-- The register, an empty group among the groups of two operations. -/
def emptyGroup : Model ℤ RegisterInput ℤ :=
  { RegisterModel with partition := fun _ => some [[1], [], [0]] }

/-- Six steps into the groups, and events listed from the last to the
first. -/
theorem no_panic_overlapping :
    (∃ c, (checker true (.insertion _) emptyGroup).runs (fun _ _ => true) (.replicate 6 .main)
        (checkOperations true emptyGroup overlapping none) = some c ∧
      c.main ≠ .panicked .unwrapNone) ∧
    ∃ c, (checker true (.insertion _) (RegisterModel.partitionedInto [[3, 2, 1, 0]])).runs
        (fun _ _ => true) (.replicate 3 .main) (checkEvents true
          (RegisterModel.partitionedInto [[3, 2, 1, 0]]) readAndWriteEvents none) = some c ∧
      c.main ≠ .panicked .matchIsNone := by
  have hops : ((checker true (.insertion _) emptyGroup).runs (fun _ _ => true) (.replicate 6 .main)
      (checkOperations true emptyGroup overlapping none)).isSome = true := by decide
  have hevents : ((checker true (.insertion _) (RegisterModel.partitionedInto [[3, 2, 1, 0]])).runs
      (fun _ _ => true) (.replicate 3 .main) (checkEvents true
        (RegisterModel.partitionedInto [[3, 2, 1, 0]]) readAndWriteEvents none)).isSome = true := by
    decide
  obtain ⟨c, hc⟩ := Option.isSome_iff_exists.1 hops
  obtain ⟨c', hc'⟩ := Option.isSome_iff_exists.1 hevents
  refine ⟨⟨c, hc, ?_⟩, c', hc', ?_⟩
  · exact (no_panic true (.insertion _) emptyGroup none).1 overlapping (by decide)
      ⟨fun h => (by cases h), fun parts h => by cases h; decide⟩ c _ (.of_runs (fun _ _ _ => trivial) hc)
  · exact (no_panic true (.insertion _) _ none).2 readAndWriteEvents (by decide)
      ⟨fun h => (by cases h), fun parts h => by cases h; decide⟩ c' _ (.of_runs (fun _ _ _ => trivial) hc')

end Porcupine
