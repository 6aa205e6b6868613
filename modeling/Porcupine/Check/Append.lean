import Porcupine.Check.Locality
import Porcupine.Check.Operations
import Mathlib.Data.List.Permutation
/-!
# Appending later operations preserves `Illegal`

A linearization of a history cut at a time at which nothing is under way
is a linearization of what came before the cut. With a partition the two
histories are cut into groups each on its own, and a group of the shorter
is, as a collection, what came before the cut of the group of the longer
that has its key (`GroupsByKey.pick_perm`).
-/

namespace Porcupine

open Linearization

variable {State Input Output : Type} {model : Model State Input Output}
variable {h t history : List (Operation Input Output)}

/-- **What comes before a cut is linearizable** when the whole is. -/
theorem HistoryLinearizable.of_append (hlin : HistoryLinearizable model (h ++ t))
    (hsep : ∀ a ∈ h, ∀ b ∈ t, a.Before b) : HistoryLinearizable model h :=
  Linearizable.of_append hlin hsep

/-- **A group of the longer history is cut where the history is.** -/
theorem GroupsByKey.linearizable_of_append {κ : Type} {key : Input → κ} {parts parts' : List (List ℕ)}
    (hk : GroupsByKey (fun op : Operation Input Output => key op.input) h parts)
    (hk' : GroupsByKey (fun op : Operation Input Output => key op.input) (h ++ t) parts')
    (hsep : ∀ a ∈ h, ∀ b ∈ t, a.Before b)
    (hlin : ∀ g ∈ parts', HistoryLinearizable model (pick (h ++ t) g)) :
    ∀ g ∈ parts, HistoryLinearizable model (pick h g) := by
  classical
  intro g hg
  cases hpick : pick h g with
  | nil => exact linearizable_nil
  | cons a l =>
    have ha : a ∈ pick h g := hpick ▸ List.mem_cons_self
    have hmem : a ∈ h ++ t := by
      obtain ⟨i, -, hi⟩ := mem_pick.1 ha
      exact List.mem_append_left _ (List.mem_of_getElem? hi)
    obtain ⟨l', hl', ha'⟩ := List.mem_flatten.1 ((pick_covers hk'.covers).mem_iff.2 hmem)
    obtain ⟨g', hg', rfl⟩ := List.mem_map.1 hl'
    rw [← hpick]
    refine (linearizable_perm (hk.pick_perm hg ha)).2 (HistoryLinearizable.of_append
      (t := t.filter fun b => key b.input = key a.input) ?_ fun x hx y hy =>
        hsep x (List.mem_of_mem_filter hx) y (List.mem_of_mem_filter hy))
    rw [← List.filter_append]
    exact (linearizable_perm (hk'.pick_perm hg' ha')).1 (hlin g' hg')

/-- **The model does not partition operations, or groups them by a function
of the input**, into no more groups than the gate counts. -/
def Model.GroupsByInput (model : Model State Input Output) : Prop :=
  (∀ history, model.partition history = none) ∨
    ∃ (κ : Type) (key : Input → κ), ∀ history, history.length ≤ 2 ^ 31 - 1 →
      ∃ parts, model.partition history = some parts ∧ parts.length ≤ 2 ^ 32 ∧
        GroupsByKey (fun op : Operation Input Output => key op.input) history parts

variable [BEq State]

/-- **Appending later operations preserves `Illegal`.** -/
theorem append_preserves_illegal (debug : Bool) (srt : UnstableSort (List (Entry Input Output)))
    (model : Model State Input Output) (hlaw : model.Lawful) (hpart : model.GroupsByInput)
    (h t : List (Operation Input Output)) (hwf : ∀ op ∈ h, op.call ≤ op.returnTime)
    (hwf' : ∀ op ∈ t, op.call ≤ op.returnTime) (hsize : (h ++ t).length ≤ 2 ^ 31 - 1)
    (hsep : ∀ a ∈ h, ∀ b ∈ t, a.returnTime < b.call)
    (hill : (checker debug srt model).Returns .illegal (checkOperations debug model h none)) :
    (checker debug srt model).Returns .illegal (checkOperations debug model (h ++ t) none) := by
  have hle : h.length ≤ (h ++ t).length := by
    rw [List.length_append]
    exact Nat.le_add_right _ _
  have hwf'' : ∀ op ∈ h ++ t, op.WellFormed := List.forall_mem_append.2 ⟨hwf, hwf'⟩
  -- without groups the histories are cut as they stand, with groups each group is
  rcases hpart with hnone | ⟨κ, key, hgroups⟩
  · have hdec : Decides (checker debug srt model) (checkOperations debug model h none)
        (HistoryLinearizable model h) :=
      (prepares_operations debug (hnone h) hwf (by omega)).decides hlaw
    have hdec' : Decides (checker debug srt model) (checkOperations debug model (h ++ t) none)
        (HistoryLinearizable model (h ++ t)) :=
      (prepares_operations debug (hnone _) hwf'' (by omega)).decides hlaw
    exact hdec'.illegal_iff.2 (mt (·.of_append hsep) (hdec.illegal_iff.1 hill))
  · obtain ⟨parts, hparts, hcount, hk⟩ := hgroups h (by omega)
    obtain ⟨parts', hparts', hcount', hk'⟩ := hgroups (h ++ t) hsize
    have hdec : Decides (checker debug srt model) (checkOperations debug model h none)
        (∀ g ∈ parts, HistoryLinearizable model (pick h g)) :=
      (prepares_operations_partition debug hparts hk.covers hcount hwf (by omega)).decides hlaw
    have hdec' : Decides (checker debug srt model) (checkOperations debug model (h ++ t) none)
        (∀ g ∈ parts', HistoryLinearizable model (pick (h ++ t) g)) :=
      (prepares_operations_partition debug hparts' hk'.covers hcount' hwf'' (by omega)).decides hlaw
    exact hdec'.illegal_iff.2
      (mt (hk.linearizable_of_append hk' hsep) (hdec.illegal_iff.1 hill))

/-- The key-value store groups by key, in whatever order its map is
walked. -/
theorem kv_groupsByInput {visit : List (Fin 256 × List ℕ) → List (Fin 256 × List ℕ)}
    (hvisit : ∀ l, (visit l).Perm l) : (KvModel visit).GroupsByInput := by
  refine Or.inr ⟨Fin 256, KvInput.key, fun history hsize => ⟨_, rfl, ?_⟩⟩
  have hkey : ∀ op ∈ history, some op.input.key = some op.input.key := fun _ _ => rfl
  obtain ⟨hgroups, -, hcount⟩ := exists_parts hvisit hkey
  exact ⟨by omega, hgroups⟩

/-- Two writes of `twoKeys` and the read of the first, of a value that is
not there. -/
def earlyRead : List (Operation KvInput ℤ) :=
  (twoKeys.take 3).map fun op => { op with output := op.output + 2 }

/-- All of `twoKeys` afterwards, with values that make up for it. -/
def lateWrites : List (Operation KvInput ℤ) :=
  twoKeys.map fun op => { op with
    input := { op.input with value := op.input.value + 2 }
    call := op.call + 7, output := op.output + 2, returnTime := op.returnTime + 7 }

theorem append_preserves_illegal_earlyRead :
    (checker true (.insertion _) (KvModel List.reverse)).Returns .illegal
      (checkOperations true (KvModel List.reverse) (earlyRead ++ lateWrites) none) := by
  have hparts : (KvModel List.reverse).partition earlyRead = some [[1], [0, 2]] := by decide
  have hill : (checker true (.insertion _) (KvModel List.reverse)).Returns .illegal
      (checkOperations true (KvModel List.reverse) earlyRead none) := by
    refine ((prepares_operations_partition true hparts (by decide) (by decide) (by decide)
      (by decide)).decides (Model.lawful_of_lawfulBEq _)).illegal fun hall => ?_
    obtain ⟨order, hperm, -, hacc⟩ := hall [0, 2] (by decide)
    -- in neither order is the value there
    have hnone : ∀ order ∈ (pick earlyRead [0, 2]).permutations',
        run (fun s (op : Operation KvInput ℤ) => (KvModel List.reverse).apply s op.io)
          (KvModel List.reverse).init order = none := by decide
    rw [Accepts, hnone order (List.mem_permutations'.2 hperm)] at hacc
    cases hacc
  exact append_preserves_illegal true (.insertion _) (KvModel List.reverse)
    (Model.lawful_of_lawfulBEq _) (kv_groupsByInput List.reverse_perm) earlyRead lateWrites
    (by decide) (by decide) (by decide) (by decide) hill

end Porcupine
