import Porcupine.Model.Types
import Porcupine.Common.Linearization
/-!
# What a check decides

The purpose of the checker, in its own terms: an operation history is
linearizable when its operations are, one operation preceding another
when it returns strictly before the other is called. The checker compares
model states with the model's own equality, so what it decides depends on
that equality telling apart only what the model itself tells apart
(`Model.Lawful`).
-/

namespace Porcupine

open Linearization

variable {State Input Output : Type}

/-- The model as an object that consumes pairs of an input and its
output. -/
def Model.apply (model : Model State Input Output) (s : State) (io : Input × Output) :
    Option State :=
  model.step s io.1 io.2

/-- **`==` relates only states from which the same sequences are
accepted.** -/
def Model.Lawful [BEq State] (model : Model State Input Output) : Prop :=
  ∀ s t : State, (s == t) = true → Interchangeable model.apply s t

namespace Operation

/-- What the model sees of an operation. -/
def io (op : Operation Input Output) : Input × Output := (op.input, op.output)

/-- Real-time precedence: strictly, the one returns before the other is
called. -/
def Before (a b : Operation Input Output) : Prop := a.returnTime < b.call

/-- It does not return before it is called. -/
def WellFormed (op : Operation Input Output) : Prop := op.call ≤ op.returnTime

instance (a b : Operation Input Output) : Decidable (a.Before b) :=
  inferInstanceAs (Decidable (_ < _))

instance (op : Operation Input Output) : Decidable op.WellFormed :=
  inferInstanceAs (Decidable (_ ≤ _))

end Operation

/-- **The operations have a linearization from the model's initial
state.** -/
def HistoryLinearizable (model : Model State Input Output)
    (history : List (Operation Input Output)) : Prop :=
  Linearizable Operation.Before (fun s op => model.apply s op.io) model.init history

/-- **Only the order of the times matters.** -/
theorem historyLinearizable_map {model : Model State Input Output}
    (f : Operation Input Output → Operation Input Output) {history : List (Operation Input Output)}
    (hio : ∀ op ∈ history, (f op).io = op.io)
    (hbefore : ∀ a ∈ history, ∀ b ∈ history, (f a).Before (f b) ↔ a.Before b) :
    HistoryLinearizable model (history.map f) ↔ HistoryLinearizable model history := by
  have hstep : ∀ s, ∀ op ∈ history, model.apply s (f op).io = model.apply s op.io :=
    fun s op hop => by rw [hio op hop]
  unfold HistoryLinearizable
  rw [linearizable_map, ← linearizable_congr_step _ hstep]
  exact (linearizable_congr _ hbefore).symm

end Porcupine
