import Porcupine.Check.Decides
import Porcupine.Model.Fixtures
/-!
# `check_operations` decides linearizability

For every lawful model that does not partition, and every history no
longer than node references can count.
-/

namespace Porcupine

variable {State Input Output : Type} [BEq State]

/-- **`check_operations` returns `Ok` exactly on the linearizable
histories, and `Illegal` on all others**, in every build and under every
schedule. -/
theorem checkOperations_iff (debug : Bool) (srt : UnstableSort (List (Entry Input Output)))
    (model : Model State Input Output) (hpart : ∀ history, model.partition history = none)
    (hlaw : model.Lawful) (history : List (Operation Input Output))
    (hwf : ∀ op ∈ history, op.call ≤ op.returnTime) (hsize : history.length ≤ 2 ^ 31 - 1) :
    ((checker debug srt model).Returns .ok (checkOperations debug model history none) ↔
      HistoryLinearizable model history) ∧
    ((checker debug srt model).Returns .illegal (checkOperations debug model history none) ↔
      ¬ HistoryLinearizable model history) := by
  have h : Decides (checker debug srt model) (checkOperations debug model history none)
      (HistoryLinearizable model history) :=
    (prepares_operations debug (hpart history) hwf (by omega)).decides hlaw
  exact ⟨h.ok_iff, h.illegal_iff⟩

/-- A read that overlaps the write whose value it returns, although it is
called first. -/
def overlapping : List (Operation RegisterInput ℤ) :=
  [⟨0, ⟨false, 0⟩, 0, 7, 5⟩, ⟨1, ⟨true, 7⟩, 2, 0, 5⟩]

theorem checkOperations_overlapping :
    (checker true (.insertion _) RegisterModel).Returns .ok
      (checkOperations true RegisterModel overlapping none) :=
  (checkOperations_iff true (.insertion _) RegisterModel (fun _ => rfl)
    RegisterModel.lawful_of_lawfulBEq overlapping (by decide) (by decide)).1.2
    ⟨overlapping.reverse, List.reverse_perm _, by simp [Linearization.Respects, overlapping,
      Operation.Before], rfl⟩

end Porcupine
