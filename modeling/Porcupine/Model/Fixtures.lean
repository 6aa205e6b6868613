import Porcupine.Spec.History
import Porcupine.Model.PowerSet
import Mathlib.Data.Fintype.Pi
/-!
# Specifications to check against

The registers and the key-value stores of `src/tests/common/mod.rs`, with
the integers they store unbounded, since they are only stored and
compared. Where the code walks a hash map the order is a parameter.
-/

namespace Porcupine

open Linearization

/-- Equality that is genuine tells interchangeable states apart from no
others. -/
theorem Model.lawful_of_lawfulBEq {State Input Output : Type} [BEq State] [LawfulBEq State]
    (model : Model State Input Output) : model.Lawful := by
  intro s t h
  rw [eq_of_beq h]
  exact Interchangeable.refl t

structure RegisterInput where
  isWrite : Bool
  value : ℤ
  deriving DecidableEq, Repr

/-- A single integer cell. -/
def RegisterModel : Model ℤ RegisterInput ℤ where
  init := 0
  step state input output :=
    if input.isWrite then some input.value
    else if output = state then some state else none

structure KvInput where
  key : Fin 256
  isWrite : Bool
  value : ℤ
  deriving DecidableEq, Repr

/-- `by_key.entry(key).or_default().push(i)`. -/
def pushIndex {κ : Type} [DecidableEq κ] (key : κ) (i : ℕ) : List (κ × List ℕ) → List (κ × List ℕ)
  | [] => [(key, [i])]
  | (k, indices) :: rest =>
    if k = key then (k, indices ++ [i]) :: rest else (k, indices) :: pushIndex key i rest

/-- The indices of each key of a list, those without a key left out. -/
def indicesByKey {κ α : Type} [DecidableEq κ] (keyOf : α → Option κ) (history : List α) :
    List (κ × List ℕ) :=
  history.zipIdx.foldl (fun byKey (a, i) =>
    match keyOf a with
    | some key => pushIndex key i byKey
    | none => byKey) []

/-- A key-value store, partitioned by key. A key that is absent reads as
zero. The groups come in the order in which `visit` walks the map. -/
def KvModel (visit : List (Fin 256 × List ℕ) → List (Fin 256 × List ℕ)) :
    Model (Fin 256 → Option ℤ) KvInput ℤ where
  init := fun _ => none
  step state input output :=
    if input.isWrite then some (Function.update state input.key (some input.value))
    else if output = (state input.key).getD 0 then some state else none
  partition history :=
    some ((visit (indicesByKey (fun op => some op.input.key) history)).map Prod.snd)

/-- The key of an id, which its call carries. -/
def keyById (history : List (Event KvInput ℤ)) (id : ℕ) : Option (Fin 256) :=
  (history.filterMap fun ev =>
    if ev.id = id ∧ ev.kind = .call then ev.input.map KvInput.key else none).getLast?

/-- The key-value store, with event histories partitioned by key too. -/
def KvEventPartitionModel (visit : List (Fin 256 × List ℕ) → List (Fin 256 × List ℕ)) :
    Model (Fin 256 → Option ℤ) KvInput ℤ :=
  { KvModel visit with
    partitionEvents := fun history =>
      some ((visit (indicesByKey (fun ev => keyById history ev.id) history)).map Prod.snd) }

inductive LossyInput
  | write (value : ℤ)
  | read
  deriving DecidableEq, Repr

/-- A register that may lose a write. -/
def LossyNdRegister : NondeterministicModel ℤ LossyInput (Option ℤ) where
  init := [0]
  step state input output :=
    match input, output with
    | .write v, none => if v = state then [state] else [v, state]
    | .read, some o => if o = state then [state] else []
    | _, _ => []

end Porcupine
