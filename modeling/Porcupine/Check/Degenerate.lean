import Porcupine.Model.Fixtures
import Porcupine.Model.PowerSet
import Porcupine.Parallel.Morphism
import Porcupine.Spec.Events
/-!
# Specifications that do not branch

Two models one of which is the other under a map of states explain the
same histories. The power-set model of a specification with one successor
at most is the specification under such a map, each state in a list of its
own, and `==` tells two such lists apart exactly as it does the states. So
checking it is, step for step, checking the specification
(`branching_agrees`).
-/

namespace Porcupine

open Linearization Transition

variable {State State' Input Output : Type} {model : Model State Input Output}
variable {model' : Model State' Input Output} {f : State → State'}

/-! ## A map of states explains nothing new -/

/-- What one linearizes the other does, of operations -/
theorem Morphism.historyLinearizable_iff (h : Morphism model model' f)
    {history : List (Operation Input Output)} :
    HistoryLinearizable model' history ↔ HistoryLinearizable model history := by
  refine exists_congr fun order => and_congr_right fun _ => and_congr_right fun _ => ?_
  have himage : run (fun s (op : Operation Input Output) => model'.apply s op.io) (f model.init)
      order = (run (fun s op => model.apply s op.io) model.init order).map f :=
    run_image fun s op => h.step s op.input op.output
  rw [h.init, Accepts, himage, Option.isSome_map, Accepts]

/-- and of events. -/
theorem Morphism.eventsLinearizable_iff (h : Morphism model model' f)
    {events : List (Event Input Output)} :
    EventsLinearizable model' events ↔ EventsLinearizable model events :=
  exists_congr fun _ => and_congr_right fun _ => h.historyLinearizable_iff

/-! ## Checks that run alike -/

/-- What a check has come to: a verdict, or a panic. -/
def Check.outcome (c : Check State Input Output) : Option (Result CheckResult) :=
  match c.main with
  | .returned r => some (.ok r)
  | .panicked p => some (.error p)
  | _ => none

theorem Check.outcome_map (c : Check State Input Output) : (c.map f).outcome = c.outcome := by
  obtain ⟨flags, cancelled, lock, timer, main, clock⟩ := c
  cases main <;> rfl

/-- **Two checks run alike.** A schedule can be followed in one exactly when
it can in the other and leads both to the same outcome, and what every
schedule returns in one it returns in the other. -/
structure RunAlike [BEq State] [BEq State'] (debug : Bool)
    (srt : UnstableSort (List (Entry Input Output))) (model : Model State Input Output)
    (model' : Model State' Input Output) (c : Check State Input Output)
    (c' : Check State' Input Output) : Prop where
  runs : ∀ choices,
    ((checker debug srt model').runs (fun _ _ => true) choices c').map Check.outcome =
      ((checker debug srt model).runs (fun _ _ => true) choices c).map Check.outcome
  returns : ∀ r, (checker debug srt model').Returns r c' ↔ (checker debug srt model).Returns r c

section Embedding

variable [BEq State] [BEq State']

/-- A check and its image run alike. -/
theorem Embedding.runAlike (h : Embedding model model' f) (debug : Bool)
    (srt : UnstableSort (List (Entry Input Output))) (c : Check State Input Output) :
    RunAlike debug srt model model' c (c.map f) where
  runs choices := by
    rw [(h.checker_maps debug srt).runs_eq, Option.map_map]
    exact congrFun (congrArg Option.map (funext Check.outcome_map)) _
  returns _ := (h.checker_maps debug srt).returns_iff

/-- **Both entry points run alike** on any input: what is checked is read
off the partition alone. -/
theorem Embedding.entryPoints (h : Embedding model model' f) (debug : Bool)
    (srt : UnstableSort (List (Entry Input Output))) (timeout : Option ℕ) :
    (∀ history, RunAlike debug srt model model' (checkOperations debug model history timeout)
      (checkOperations debug model' history timeout)) ∧
    ∀ events, RunAlike debug srt model model' (checkEvents debug model events timeout)
      (checkEvents debug model' events timeout) := by
  have hbegin : ∀ ps : Result (List (List (Entry Input Output))),
      Check.begin timeout ps = (Check.begin timeout ps).map f := by
    intro ps
    cases ps <;> rfl
  refine ⟨fun history => ?_, fun events => ?_⟩
  · have hps : operationPartitions debug model' history = operationPartitions debug model history := by
      rw [operationPartitions, operationPartitions, h.partition]
    rw [checkOperations, checkOperations, hps]
    exact hbegin _ ▸ h.runAlike debug srt _
  · have hps : eventPartitions debug model' events = eventPartitions debug model events := by
      rw [eventPartitions, eventPartitions, h.partitionEvents]
    rw [checkEvents, checkEvents, hps]
    exact hbegin _ ▸ h.runAlike debug srt _

end Embedding

/-! ## Specifications that do not branch -/

/-- A model as a nondeterministic specification, with one successor or
none. -/
def Model.branching (model : Model State Input Output) :
    NondeterministicModel State Input Output where
  init := [model.init]
  step state input output := (model.step state input output).toList
  partition := model.partition
  partitionEvents := model.partitionEvents

/-- The register of the tests that has been wrapped so. -/
def DeterministicNdRegister : NondeterministicModel ℤ RegisterInput ℤ where
  init := [0]
  step state input output :=
    if input.isWrite then [input.value] else if output = state then [state] else []

theorem branching_registerModel : RegisterModel.branching = DeterministicNdRegister := by
  have hstep : RegisterModel.branching.step = DeterministicNdRegister.step := by
    funext state input output
    simp only [Model.branching, RegisterModel, DeterministicNdRegister]
    split_ifs <;> rfl
  exact congrArg (fun step => { DeterministicNdRegister with step }) hstep

/-- Its power-states are states in lists of their own. -/
theorem branching_embedding [BEq State] (model : Model State Input Output) :
    Embedding model (PowerSetModel model.branching) fun s => [s] where
  init := rfl
  step s input output := by
    simp only [PowerSetModel, Model.branching, List.flatMap_cons, List.flatMap_nil, List.append_nil]
    cases model.step s input output with
    | none => rfl
    | some t => rfl
  partition := rfl
  partitionEvents := rfl
  beq s t := Bool.and_true (s == t)

/-- **Checking a specification that does not branch is checking the
specification**, step for step: for any operations, events and index lists,
with or without a timeout, and whatever `==` does. -/
theorem branching_agrees [BEq State] (debug : Bool)
    (srt : UnstableSort (List (Entry Input Output))) (model : Model State Input Output)
    (timeout : Option ℕ) :
    (∀ history, RunAlike debug srt model (PowerSetModel model.branching)
      (checkOperations debug model history timeout)
      (checkOperations debug (PowerSetModel model.branching) history timeout)) ∧
    ∀ events, RunAlike debug srt model (PowerSetModel model.branching)
      (checkEvents debug model events timeout)
      (checkEvents debug (PowerSetModel model.branching) events timeout) :=
  (branching_embedding model).entryPoints debug srt timeout

/-- The register of the tests among them. -/
theorem deterministicNdRegister_agrees (debug : Bool)
    (srt : UnstableSort (List (Entry RegisterInput ℤ))) (timeout : Option ℕ) :
    (∀ history, RunAlike debug srt RegisterModel (PowerSetModel DeterministicNdRegister)
      (checkOperations debug RegisterModel history timeout)
      (checkOperations debug (PowerSetModel DeterministicNdRegister) history timeout)) ∧
    ∀ events, RunAlike debug srt RegisterModel (PowerSetModel DeterministicNdRegister)
      (checkEvents debug RegisterModel events timeout)
      (checkEvents debug (PowerSetModel DeterministicNdRegister) events timeout) := by
  rw [← branching_registerModel]
  exact (branching_embedding RegisterModel).entryPoints debug srt timeout

end Porcupine
