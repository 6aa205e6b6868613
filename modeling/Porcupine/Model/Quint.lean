import Porcupine.Common.Machine
import Porcupine.Model.Types
import Mathlib.Data.Finset.Card
import Mathlib.Data.Finset.Union
/-!
# The design in Quint

The two modules under `src/tla`, which came before the code: a depth-first
search for a linearization of a register history, and a power set of
register states. Each is a machine of its own here, with the actions of the
module as its steps and its safety invariant as a predicate on its states.
The modules are about one fixed history and five values; neither is fixed
here. Quint's integers are integers, its sets finite sets.
-/

namespace Porcupine.Quint

open Transition

/-! ## `Porcupine.qnt` -/

/-- An operation in the history. -/
structure Op where
  id : ℤ
  callTs : ℤ
  retTs : ℤ
  input : ℤ
  output : ℤ
  isWrite : Bool
  deriving DecidableEq, Inhabited

/-- An entry of the stack: the operation, and the register before it. -/
structure Frame where
  opId : ℤ
  preReg : ℤ
  deriving DecidableEq

/-- The state variables. The last frame is the top of the stack. -/
structure State where
  linearized : Finset ℤ
  reg : ℤ
  result : CheckResult
  stack : List Frame
  deriving DecidableEq

/-- Register initial value. -/
def INIT_VAL : ℤ := 0

/-- All timestamps are valid. -/
def histWellFormed (hist : List Op) : Prop :=
  ∀ op ∈ hist, 0 ≤ op.callTs ∧ op.callTs ≤ op.retTs

/-- No operation that is not linearized yet is called strictly before. -/
def isMinimal (op : Op) (hist : List Op) (lin : Finset ℤ) : Prop :=
  ∀ other ∈ hist, other.id ∈ lin ∨ other.id = op.id ∨ op.callTs ≤ other.callTs

instance (hist : List Op) : Decidable (histWellFormed hist) :=
  inferInstanceAs (Decidable (∀ op ∈ hist, 0 ≤ op.callTs ∧ op.callTs ≤ op.retTs))

instance (op : Op) (hist : List Op) (lin : Finset ℤ) : Decidable (isMinimal op hist lin) :=
  inferInstanceAs (Decidable (∀ other ∈ hist, other.id ∈ lin ∨ other.id = op.id ∨
    op.callTs ≤ other.callTs))

/-- Whether the register accepts an operation, and what it holds after. -/
structure Outcome where
  ok : Bool
  next : ℤ
  deriving DecidableEq

def registerStep (state : ℤ) (op : Op) : Outcome :=
  if op.isWrite then ⟨true, op.input⟩ else ⟨op.output == state, state⟩

/-- All operations eligible to be linearized next. -/
def frontier (hist : List Op) (lin : Finset ℤ) : List Op :=
  hist.filter fun op => op.id ∉ lin ∧ isMinimal op hist lin

def init : State := ⟨∅, INIT_VAL, .unknown, []⟩

/-- Linearize a minimal operation if the register accepts it; stutter if
not. -/
def tryLinearize (HISTORY : List Op) (s : State) (op : Op) : State :=
  let step := registerStep s.reg op
  if step.ok then
    { linearized := insert op.id s.linearized
      reg := step.next
      result := if s.linearized.card + 1 = HISTORY.length then .ok else s.result
      stack := s.stack ++ [⟨op.id, s.reg⟩] }
  else s

/-- Undo the most recent choice. -/
def backtrack (s : State) : State :=
  match s.stack.getLast? with
  | none => s
  | some top =>
    { linearized := s.linearized.erase top.opId
      reg := top.preReg
      result := if s.stack.length = 1 then .illegal else s.result
      stack := s.stack.dropLast }

/-- **The search**: a choice is an index of the frontier. -/
def search (HISTORY : List Op) : Machine State ℕ CheckResult where
  step i s :=
    if s.result ≠ .unknown then some s
    else
      let candidates := frontier HISTORY s.linearized
      if candidates.length > 0 then candidates[i]?.map (tryLinearize HISTORY s)
      else if s.stack.length > 0 then some (backtrack s)
      else some { s with result := .illegal }
  result s := if s.result = .unknown then none else some s.result

/-- Look up an operation by its id; the last one found counts. -/
def opById (HISTORY : List Op) (id : ℤ) : Op :=
  HISTORY.foldl (fun found op => if op.id = id then op else found) (HISTORY.headD default)

/-- Every operation of the frontier is minimal. -/
def minimalCallFrontier (HISTORY : List Op) (s : State) : Prop :=
  ∀ op ∈ frontier HISTORY s.linearized, isMinimal op HISTORY s.linearized

/-- No two frames share an operation. -/
def cacheSound (s : State) : Prop :=
  ∀ i j (hi : i < s.stack.length) (hj : j < s.stack.length), i ≠ j →
    s.stack[i].opId ≠ s.stack[j].opId

/-- `Ok` only when all operations are linearized, and `Illegal` only when
none remains to try. -/
def resultConsistent (HISTORY : List Op) (s : State) : Prop :=
  (s.result = .ok → s.linearized.card = HISTORY.length) ∧
    (s.result = .illegal → (frontier HISTORY s.linearized).length = 0)

/-- One frame of the replay of the stack. -/
def replay (HISTORY : List Op) (acc : Outcome) (frame : Frame) : Outcome :=
  if !acc.ok then acc else registerStep acc.next (opById HISTORY frame.opId)

/-- With `Ok`, the stack is a sequential execution the register accepts. -/
def pCompositionality (HISTORY : List Op) (s : State) : Prop :=
  s.result ≠ .ok ∨ (s.stack.foldl (replay HISTORY) ⟨true, INIT_VAL⟩).ok = true

/-- The result is one of the three. -/
def parallelKillFlagInvariant (s : State) : Prop :=
  s.result = .unknown ∨ s.result = .ok ∨ s.result = .illegal

/-- **The safety invariant** that the module asks to be checked. -/
structure SafetyInvariant (HISTORY : List Op) (s : State) : Prop where
  histWellFormedInv : histWellFormed HISTORY
  minimalCallFrontier : minimalCallFrontier HISTORY s
  cacheSound : cacheSound s
  resultConsistent : resultConsistent HISTORY s
  pCompositionality : pCompositionality HISTORY s
  parallelKillFlagInvariant : parallelKillFlagInvariant s

/-! ## `NondeterministicModel.qnt` -/

namespace Nd

/-- `op = 1` writes `value`; any other `op` reads. -/
structure Input where
  op : ℤ
  value : ℤ

/-- The valid successors: a write may be lost. -/
def ndStep (state : ℤ) (input : Input) (output : ℤ) : Finset ℤ :=
  if input.op = 1 then {input.value, state} else if output = state then {state} else ∅

/-- All successors of all states. -/
def powerSetStep (powerState : Finset ℤ) (input : Input) (output : ℤ) : Finset ℤ :=
  powerState.biUnion fun s => ndStep s input output

structure State where
  powerState : Finset ℤ
  accepted : Bool

def init : State := ⟨{INIT_VAL}, true⟩

/-- What `step` chooses from. -/
inductive Action
  | applyWrite (v : ℤ)
  | applyRead (o : ℤ)

def Action.apply (s : State) : Action → State
  | .applyWrite v =>
    let next := powerSetStep s.powerState ⟨1, v⟩ (-1)
    ⟨next, next.card > 0⟩
  | .applyRead o =>
    let next := powerSetStep s.powerState ⟨0, 0⟩ o
    ⟨next, next.card > 0⟩

/-- An empty power-state is rejected, and an accepted one is not empty. -/
structure SafetyInvariant (s : State) : Prop where
  emptyRejected : s.powerState.card = 0 → s.accepted = false
  acceptedNonempty : s.accepted = true → s.powerState.card > 0

end Nd

end Porcupine.Quint
