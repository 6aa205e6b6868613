import Porcupine.Check.PowerSet
/-!
# The hashed adapter refines the plain one

The two deduplications differ in what they look a state up in, a hash set
or the states kept so far, and these hold the same states at every point
of the loop (`deduplicateHashedInto_eq`). So for a lawful `==` and hash the
two adapters are one model (`hashedPowerSetModel_eq`), down to the order of
the states in a power-state.
-/

namespace Porcupine

open Linearization Transition

variable {State Input Output : Type} [BEq State]

/-- **The checks cannot be told apart**: they come to the same states, and
return the same verdicts. -/
def SameCheck (debug : Bool) (srt : UnstableSort (List (Entry Input Output)))
    (model model' : Model State Input Output) (c c' : Check State Input Output) : Prop :=
  (∀ r, (checker debug srt model).Returns r c ↔ (checker debug srt model').Returns r c') ∧
    ∀ d, (checker debug srt model).Reachable c d ↔ (checker debug srt model').Reachable c' d

variable [Hashable State] [EquivBEq State] [LawfulHashable State]

omit [Hashable State] [LawfulHashable State] in
/-- Equal states are contained alike. -/
theorem contains_congr {out : List State} {s t : State} (h : (s == t) = true) :
    out.contains s = out.contains t := by
  simp only [List.contains_eq_any_beq, BEq.congr_left h]

/-- **The hash set holds what has been kept**, so both loops keep the same
states. -/
theorem deduplicateHashedInto_eq {seen : Std.HashSet State} {out states : List State}
    (h : ∀ s, seen.contains s = out.contains s) :
    deduplicateHashedInto seen out states = deduplicateInto out states := by
  induction states generalizing seen out with
  | nil => rfl
  | cons t states ih =>
    simp only [deduplicateHashedInto, deduplicateInto, Std.HashSet.containsThenInsert_fst,
      Std.HashSet.containsThenInsert_snd, h t]
    cases ht : out.contains t with
    | true =>
      simp only [Bool.not_true, Bool.false_eq_true, if_false, if_true]
      refine ih fun s => ?_
      rw [Std.HashSet.contains_insert, h s]
      cases hst : t == s with
      | true => rw [← contains_congr hst, ht, Bool.or_self]
      | false => rw [Bool.false_or]
    | false =>
      simp only [Bool.not_false, Bool.false_eq_true, if_false, if_true]
      refine ih fun s => ?_
      rw [Std.HashSet.contains_insert, h s, List.contains_append, List.contains_cons,
        List.contains_nil, Bool.or_false, Bool.or_comm, BEq.comm]

/-- **The deduplications agree**, on order as well as on contents. -/
theorem deduplicateHashed_eq (states : List State) :
    deduplicateHashed states = deduplicate states :=
  deduplicateHashedInto_eq fun s => by simp

/-- **The adapters are one model.** -/
theorem hashedPowerSetModel_eq (m : NondeterministicModel State Input Output) :
    HashedPowerSetModel m = PowerSetModel m := by
  simp only [HashedPowerSetModel, PowerSetModel, deduplicateHashed_eq]

/-- **The hashed adapter refines the plain one.** On every sequence the two
yield the same vector or both reject it, and so on every prefix of one; and
with either adapter every check is the same. -/
theorem hashedPowerSetModel_refines (m : NondeterministicModel State Input Output) :
    (∀ ios : List (Input × Output),
      run (HashedPowerSetModel m).apply (HashedPowerSetModel m).init ios =
        run (PowerSetModel m).apply (PowerSetModel m).init ios) ∧
    (∀ debug srt history timeout, SameCheck debug srt (HashedPowerSetModel m) (PowerSetModel m)
      (checkOperations debug (HashedPowerSetModel m) history timeout)
      (checkOperations debug (PowerSetModel m) history timeout)) ∧
    ∀ debug srt events timeout, SameCheck debug srt (HashedPowerSetModel m) (PowerSetModel m)
      (checkEvents debug (HashedPowerSetModel m) events timeout)
      (checkEvents debug (PowerSetModel m) events timeout) := by
  rw [hashedPowerSetModel_eq]
  exact ⟨fun _ => rfl, fun _ _ _ _ => ⟨fun _ => Iff.rfl, fun _ => Iff.rfl⟩,
    fun _ _ _ _ => ⟨fun _ => Iff.rfl, fun _ => Iff.rfl⟩⟩

/-- The lossy register after a write. -/
theorem hashedPowerSetModel_refines_lossy :
    run (HashedPowerSetModel LossyNdRegister).apply (HashedPowerSetModel LossyNdRegister).init
      [(.write 1, none), (.write 0, none)] = some [0, 1] := by
  rw [(hashedPowerSetModel_refines LossyNdRegister).1]
  decide

end Porcupine
