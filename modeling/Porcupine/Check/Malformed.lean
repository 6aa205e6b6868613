import Porcupine.Check.Halting
/-!
# Operations that return before they are called

A release build runs no gate, so a history may hold an operation whose
return comes before its own call. The search never passes a return that is
still in its list, and such a return leaves the list only together with
the call behind it. So the group of the operation fails, whatever the model
and its `==` are, and the check is `Illegal` (`checkOperations_malformed`).
-/

namespace Porcupine

open Transition

variable {State Input Output : Type} {debug : Bool} {model : Model State Input Output}
variable {history : List (Operation Input Output)} {parts : List (List ℕ)}

/-! ## What a release build hands to a check -/

/-- **Groups a release build can search**: they cover the history, and none
has more entries than node references count. -/
structure OperationsCover (model : Model State Input Output)
    (history : List (Operation Input Output)) : Prop where
  whole : model.partition history = none → 2 * history.length < 2 ^ 32 - 1
  groups : ∀ parts, model.partition history = some parts →
    parts.flatten.Perm (List.range history.length) ∧ ∀ g ∈ parts, 2 * g.length < 2 ^ 32 - 1

/-- What is checked are histories that the whole one is made of, each short
enough. -/
theorem OperationsCover.groups_of (h : OperationsCover model history) :
    ∃ groups : List (List (Operation Input Output)),
      operationPartitions false model history = .ok (groups.map makeEntries) ∧
      groups.flatten.Perm history ∧ ∀ ops ∈ groups, 2 * ops.length < 2 ^ 32 - 1 := by
  cases hpart : model.partition history with
  | none =>
    refine ⟨[history], operationPartitions_whole hpart (assertWellFormed_release history), by simp,
      fun ops hops => ?_⟩
    rw [List.mem_singleton.1 hops]
    exact h.whole hpart
  | some parts =>
    obtain ⟨hcov, hsize⟩ := h.groups parts hpart
    refine ⟨parts.map (pick history), ?_, pick_covers hcov, fun ops hops => ?_⟩
    · -- a release build does not count the groups either
      rw [operationPartitions_eq_of_gate hpart hcov (assertWellFormed_release history) rfl,
        List.map_map]
      rfl
    · obtain ⟨g, hg, rfl⟩ := List.mem_map.1 hops
      have hle := length_pick_le_length history g
      have hlt := hsize g hg
      omega

theorem makeEntries_length_lt {ops : List (Operation Input Output)}
    (hsize : 2 * ops.length < 2 ^ 32 - 1) : (makeEntries ops).length < NONE := by
  rw [makeEntries_arranged.paired.length_eq, NONE]
  exact hsize

/-! ## What the search makes of them -/

section Search

variable [BEq State] {srt : UnstableSort (List (Entry Input Output))}
variable {partitions : List (List (Entry Input Output))} {g : List (Entry Input Output)} {n : ℕ}

/-- **Entries that list a return before its own call** are never passed. -/
theorem Verdicts.verdict_eq_false (V : Verdicts debug model partitions) (hg : g ∈ partitions)
    (hpair : Paired g n) (hsize : g.length < NONE) (hnot : ¬ CallFirst g n) :
    V.verdict g = false := by
  cases hv : V.verdict g with
  | false => rfl
  | true =>
    have hto := (V.checks g hg).checksTo
    rw [hv] at hto
    exact absurd (hpair.callFirst_of_checksTo hsize hto) hnot

/-- **A malformed operation is never linearized**: without a timeout a
release build finds the history illegal, and panics nowhere, whatever the
model and its `==` are. -/
theorem checkOperations_malformed (srt : UnstableSort (List (Entry Input Output)))
    (model : Model State Input Output) (history : List (Operation Input Output))
    (hbad : ∃ op ∈ history, op.returnTime < op.call) (hcov : OperationsCover model history) :
    (checker false srt model).Returns .illegal (checkOperations false model history none) ∧
    ∀ c p, (checker false srt model).Reachable (checkOperations false model history none) c →
      c.main ≠ .panicked p := by
  obtain ⟨groups, hgroups, hperm, hsize⟩ := hcov.groups_of
  have hpair : ∀ entries ∈ groups.map makeEntries,
      ∃ n, Paired entries n ∧ entries.length < NONE := by
    intro entries hmem
    obtain ⟨ops, hops, rfl⟩ := List.mem_map.1 hmem
    exact ⟨ops.length, makeEntries_arranged.paired, makeEntries_length_lt (hsize ops hops)⟩
  refine ⟨?_, fun c p hreach => Halts.not_panicked ⟨_, hgroups, hpair⟩ hreach p⟩
  obtain ⟨V⟩ := exists_verdicts_of_paired false model hpair
  -- the group of the malformed operation
  obtain ⟨op, hop, hlt⟩ := hbad
  obtain ⟨ops, hops, hop⟩ := List.mem_flatten.1 (hperm.mem_iff.2 hop)
  have hnot : ¬ CallFirst (makeEntries ops) ops.length := by
    rw [makeEntries_arranged.represents.callFirst_iff]
    intro hwf
    exact Nat.not_le_of_lt hlt (hwf op hop)
  have hmem : makeEntries ops ∈ groups.map makeEntries := List.mem_map_of_mem hops
  have hlen : (makeEntries ops).length < NONE := makeEntries_length_lt (hsize ops hops)
  have hfalse : V.verdict (makeEntries ops) = false :=
    V.verdict_eq_false hmem makeEntries_arranged.paired hlen hnot
  have hanswer : V.answer = .illegal := Verdicts.answer_eq_illegal.2 ⟨_, hmem, hfalse⟩
  rw [checkOperations, hgroups, ← hanswer]
  exact V.returns srt

/-- A read that returns before it is called, in a group of its own. -/
theorem checkOperations_malformed_earlyReturn :
    (checker false (.insertion _) emptyGroup).Returns .illegal
      (checkOperations false emptyGroup [⟨0, ⟨true, 7⟩, 0, 0, 3⟩, ⟨1, ⟨false, 0⟩, 9, 0, 4⟩] none) :=
  (checkOperations_malformed (.insertion _) emptyGroup
    [⟨0, ⟨true, 7⟩, 0, 0, 3⟩, ⟨1, ⟨false, 0⟩, 9, 0, 4⟩] ⟨⟨1, ⟨false, 0⟩, 9, 0, 4⟩, by decide⟩
    ⟨fun h => (by cases h), fun parts h => by cases h; decide⟩).1

end Search

end Porcupine
