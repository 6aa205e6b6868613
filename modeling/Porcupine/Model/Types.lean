import Mathlib.Algebra.GroupWithZero.Nat
/-!
# Histories and sequential specifications

`src/types.rs` and the `Model` trait of `src/model.rs`. Timestamps,
positions and ids are unsigned 64-bit integers that the code only
compares; they are natural numbers here. `State` carries the `PartialEq`
of the source as a `BEq` instance about which nothing is assumed.

The code can panic. A function that indexes, unwraps or asserts returns
`Result`, and `Panic` says which of these went wrong and on what.
-/

namespace Porcupine

/-- The outcome of a linearizability check. -/
inductive CheckResult
  /-- The history is linearizable. -/
  | ok
  /-- The history is not linearizable. -/
  | illegal
  /-- The check timed out before a definitive answer was reached. -/
  | unknown
  deriving DecidableEq, Repr

/-- A completed concurrent operation with call/return timestamps. -/
structure Operation (Input Output : Type) where
  clientId : ℕ
  input : Input
  call : ℕ
  output : Output
  returnTime : ℕ
  deriving DecidableEq, Repr

/-- Whether an event is a call or a return. -/
inductive EventKind
  | call
  | ret
  deriving DecidableEq, Repr

/-- A single call or return event in a history. -/
structure Event (Input Output : Type) where
  clientId : ℕ
  kind : EventKind
  /-- For a call event: the input value. For a return event: `none`. -/
  input : Option Input
  /-- For a return event: the output value. For a call event: `none`. -/
  output : Option Output
  /-- Links a call event to its matching return event. -/
  id : ℕ
  deriving DecidableEq, Repr

/-- The ways the code panics, with what its message interpolates. -/
inductive Panic
  /-- A slice index past the end. -/
  | indexOutOfBounds (index length : ℕ)
  /-- `unwrap` on `None`. -/
  | unwrapNone
  /-- "match_idx must point to a Return node". -/
  | matchNotReturn
  /-- "Call event must have input". -/
  | callMustHaveInput
  /-- "Return event must have output". -/
  | returnMustHaveOutput
  /-- `debug_assert_ne!(match_raw, NodeRef::NONE)`. -/
  | matchIsNone
  /-- INV-HIST-01: op has call > return_time. -/
  | callAfterReturn (clientId call returnTime : ℕ)
  /-- INV-HIST-01: Call event has input=None. -/
  | callWithoutInput (id position : ℕ)
  /-- INV-HIST-01: id appears as Call more than once. -/
  | callRepeated (id : ℕ)
  /-- INV-HIST-01: Return event has output=None. -/
  | returnWithoutOutput (id position : ℕ)
  /-- INV-HIST-01: id appears as Return more than once. -/
  | returnRepeated (id : ℕ)
  /-- INV-HIST-01: Call event has no matching Return. -/
  | callUnmatched (id position : ℕ)
  /-- INV-HIST-01: Call event must precede its Return. -/
  | callNotBeforeReturn (id callPosition returnPosition : ℕ)
  /-- INV-HIST-01: Return event has no matching Call. -/
  | returnUnmatched (id position : ℕ)
  /-- "partition count fits in u32". -/
  | partitionCount
  /-- INV-LIN-03: partition index is out of bounds. -/
  | partitionOutOfBounds (index length : ℕ)
  /-- INV-LIN-03: index appears in more than one partition. -/
  | partitionOverlap (index : ℕ)
  /-- INV-LIN-03: partitions cover `count` entries but history has `length`,
  so `missing` are missing. -/
  | partitionMissing (count length missing : ℕ)
  /-- "INV-LIN-03: covers guarantees Some". -/
  | partitionCoversSome
  /-- INV-LIN-03: call/return pairs must not be split across partitions. -/
  | pairSplit (id callPartition returnPartition : ℕ)
  deriving DecidableEq, Repr

/-- What a function that may panic returns. -/
abbrev Result := Except Panic

@[simp] theorem Result.ok_bind {α β : Type} (a : α) (f : α → Result β) :
    ((Except.ok a : Result α) >>= f) = f a := rfl

@[simp] theorem Result.error_bind {α β : Type} (p : Panic) (f : α → Result β) :
    ((Except.error p : Result α) >>= f) = Except.error p := rfl

@[simp] theorem Result.pure_eq {α : Type} (a : α) : (pure a : Result α) = Except.ok a := rfl

/-- A computation that completes completed its first part. -/
theorem Result.bind_eq_ok {α β : Type} {x : Result α} {f : α → Result β} {b : β} :
    (x >>= f) = .ok b ↔ ∃ a, x = .ok a ∧ f a = .ok b := by
  cases x with
  | error p => simp
  | ok a => simp

/-- One that panics panicked in its first part or in what follows. -/
theorem Result.bind_eq_error {α β : Type} {x : Result α} {f : α → Result β} {p : Panic} :
    (x >>= f) = .error p ↔ x = .error p ∨ ∃ a, x = .ok a ∧ f a = .error p := by
  cases x with
  | error q => simp
  | ok a => simp

theorem Result.toOption_eq_some {α : Type} {x : Result α} {a : α} :
    x.toOption = some a ↔ x = .ok a := by
  cases x with
  | error p => exact ⟨fun h => (by cases h), fun h => (by cases h)⟩
  | ok b => rw [Except.toOption, Option.some.injEq, Except.ok.injEq]

/-- `v[i]`. -/
def readAt {α : Type} (v : List α) (i : ℕ) : Result α :=
  match v[i]? with
  | some a => .ok a
  | none => .error (.indexOutOfBounds i v.length)

/-- `v[i] = a`. -/
def writeAt {α : Type} (v : List α) (i : ℕ) (a : α) : Result (List α) :=
  if i < v.length then .ok (v.set i a) else .error (.indexOutOfBounds i v.length)

/-- `debug_assert!(condition, ..)`, which is compiled only into debug
builds. -/
def debugAssert (debug : Bool) (condition : Bool) (panic : Panic) : Result Unit :=
  if debug && !condition then .error panic else .ok ()

@[simp] theorem readAt_eq_ok {α : Type} {v : List α} {i : ℕ} {a : α} :
    readAt v i = .ok a ↔ v[i]? = some a := by
  unfold readAt
  cases v[i]? with
  | none => simp
  | some b => simp

theorem readAt_eq_error {α : Type} {v : List α} {i : ℕ} {p : Panic} :
    readAt v i = .error p ↔ v.length ≤ i ∧ p = .indexOutOfBounds i v.length := by
  unfold readAt
  cases h : v[i]? with
  | none =>
    simp only [Except.error.injEq]
    exact ⟨fun he => ⟨List.getElem?_eq_none_iff.1 h, he.symm⟩, fun he => he.2.symm⟩
  | some b =>
    refine ⟨fun he => (by cases he), fun he => ?_⟩
    have hlt := (List.getElem?_eq_some_iff.1 h).1
    omega

theorem writeAt_of_lt {α : Type} {v : List α} {i : ℕ} (h : i < v.length) (a : α) :
    writeAt v i a = .ok (v.set i a) := if_pos h

@[simp] theorem debugAssert_true (debug : Bool) (panic : Panic) :
    debugAssert debug true panic = .ok () := by
  simp [debugAssert]

theorem debugAssert_of {debug condition : Bool} {panic : Panic} (h : condition = true) :
    debugAssert debug condition panic = .ok () := by
  simp [debugAssert, h]

/-- A sequential specification that a concurrent history is checked
against. -/
structure Model (State Input Output : Type) where
  /-- The initial state of the model. -/
  init : State
  /-- Attempts to apply an input and its output to a state. -/
  step : State → Input → Output → Option State
  /-- Optionally partition a history into independent sub-histories. -/
  partition : List (Operation Input Output) → Option (List (List ℕ)) := fun _ => none
  /-- Optionally partition an event-based history into independent
  sub-histories. -/
  partitionEvents : List (Event Input Output) → Option (List (List ℕ)) := fun _ => none

end Porcupine
