import Porcupine.Check.Operations
import Porcupine.Common.Branching
import Porcupine.Model.PowerSet
/-!
# The power-set reduction

A nondeterministic specification is checked through its power-set model.
Where `==` is genuine equality the power set loses no state and keeps none
that cannot be reached, so the check decides whether some linearization is
a branch of the specification.
-/

namespace Porcupine

open Linearization

variable {State Input Output : Type}

/-- **Some ordering of the operations is a branch of the specification**
from one of its initial states. -/
def NondeterministicModel.HistoryLinearizable (m : NondeterministicModel State Input Output)
    (history : List (Operation Input Output)) : Prop :=
  ∃ order : List (Operation Input Output), order.Perm history ∧
    Respects Operation.Before order ∧
    ∃ s ∈ m.init, ∃ t, Path (fun s op => m.step s op.input op.output) s order t

variable [BEq State] [LawfulBEq State] {m : NondeterministicModel State Input Output}

theorem mem_deduplicateInto {s : State} {out states : List State} :
    s ∈ deduplicateInto out states ↔ s ∈ out ∨ s ∈ states := by
  induction states generalizing out with
  | nil => simp [deduplicateInto]
  | cons t states ih =>
    rw [deduplicateInto, ih, List.mem_cons]
    split
    · next hmem =>
      have ht : t ∈ out := List.contains_iff_mem.1 hmem
      constructor
      · exact Or.imp_right Or.inr
      · rintro (hs | rfl | hs)
        · exact Or.inl hs
        · exact Or.inl ht
        · exact Or.inr hs
    · rw [List.mem_append, List.mem_singleton, or_assoc]

/-- **Removing duplicates removes no state**, -/
theorem mem_deduplicate {s : State} {states : List State} :
    s ∈ deduplicate states ↔ s ∈ states := by
  simp [deduplicate, mem_deduplicateInto]

/-- **and leaves none twice.** -/
theorem nodup_deduplicateInto {out states : List State} (h : out.Nodup) :
    (deduplicateInto out states).Nodup := by
  induction states generalizing out with
  | nil => exact h
  | cons t states ih =>
    rw [deduplicateInto]
    split
    · exact ih h
    · next hmem =>
      have ht : t ∉ out := fun ht => hmem (List.contains_iff_mem.2 ht)
      refine ih (List.nodup_append.2 ⟨h, List.nodup_singleton t, fun s hs u hu he => ht ?_⟩)
      rwa [← List.mem_singleton.1 hu, ← he]

theorem nodup_deduplicate (states : List State) : (deduplicate states).Nodup :=
  nodup_deduplicateInto List.nodup_nil

omit [LawfulBEq State] in
/-- A step of the power-set model is to the deduplicated successors, of
which there are some. -/
theorem powerSetModel_apply {states states' : List State} {io : Input × Output} :
    (PowerSetModel m).apply states io = some states' ↔
      deduplicate (states.flatMap fun s => m.step s io.1 io.2) = states' ∧ states' ≠ [] := by
  simp only [Model.apply, PowerSetModel]
  split
  · next hempty =>
    rw [List.isEmpty_iff] at hempty
    refine iff_of_false (by simp) ?_
    rintro ⟨rfl, hne⟩
    exact hne hempty
  · next hne =>
    rw [Option.some.injEq]
    refine ⟨?_, And.left⟩
    rintro rfl
    exact ⟨rfl, mt List.isEmpty_iff.2 hne⟩

/-- The power-set model steps collections of states. -/
theorem powerSetModel_subsetStep (m : NondeterministicModel State Input Output) :
    SubsetStep (fun s (io : Input × Output) => m.step s io.1 io.2) (PowerSetModel m).apply := by
  have hsucc : ∀ (states : List State) (io : Input × Output) (t : State),
      t ∈ deduplicate (states.flatMap fun s => m.step s io.1 io.2) ↔
        ∃ s ∈ states, t ∈ m.step s io.1 io.2 := by
    intro states io t
    rw [mem_deduplicate, List.mem_flatMap]
  refine ⟨fun states io states' hs => ?_, fun states io => ?_⟩
  · rw [← (powerSetModel_apply.1 hs).1]
    exact hsucc states io
  · simp only [powerSetModel_apply]
    constructor
    · rintro ⟨states', rfl, hne⟩
      obtain ⟨t, ht⟩ := List.exists_mem_of_ne_nil _ hne
      obtain ⟨s, hs, hst⟩ := (hsucc states io t).1 ht
      exact ⟨s, hs, t, hst⟩
    · rintro ⟨s, hs, t, ht⟩
      exact ⟨_, rfl, List.ne_nil_of_mem ((hsucc states io t).2 ⟨s, hs, ht⟩)⟩

/-- The power-set model accepts the branches of the specification. -/
theorem historyLinearizable_powerSetModel {history : List (Operation Input Output)}
    (hne : history ≠ [] ∨ m.init ≠ []) :
    Porcupine.HistoryLinearizable (PowerSetModel m) history ↔ m.HistoryLinearizable history := by
  refine exists_congr fun order => and_congr_right fun hperm => and_congr_right fun _ => ?_
  have hne' : deduplicate m.init ≠ [] ∨ order ≠ [] := by
    rcases hne with hne | hne
    · exact Or.inr fun h => hne (List.nil_perm.1 (h ▸ hperm))
    · obtain ⟨s, hs⟩ := List.exists_mem_of_ne_nil _ hne
      exact Or.inl (List.ne_nil_of_mem (mem_deduplicate.2 hs))
  refine (((powerSetModel_subsetStep m).comap Operation.io).accepts_iff hne').trans ?_
  simp only [mem_deduplicate]
  rfl

/-- **The power-set reduction**: checking the power-set model decides
whether some linearization is a branch of the specification. -/
theorem powerSetModel_iff (debug : Bool) (srt : UnstableSort (List (Entry Input Output)))
    (m : NondeterministicModel State Input Output) (hpart : ∀ history, m.partition history = none)
    (history : List (Operation Input Output)) (hwf : ∀ op ∈ history, op.call ≤ op.returnTime)
    (hsize : history.length ≤ 2 ^ 31 - 1) (hne : history ≠ [] ∨ m.init ≠ []) :
    (checker debug srt (PowerSetModel m)).Returns .ok
        (checkOperations debug (PowerSetModel m) history none) ↔
      m.HistoryLinearizable history := by
  have hpart' : (PowerSetModel m).partition history = none := hpart history
  have h : Decides (checker debug srt (PowerSetModel m))
      (checkOperations debug (PowerSetModel m) history none)
      (Porcupine.HistoryLinearizable (PowerSetModel m) history) :=
    (prepares_operations debug hpart' hwf (by omega)).decides (Model.lawful_of_lawfulBEq _)
  exact h.ok_iff.trans (historyLinearizable_powerSetModel hne)

/-- Two writes, the second of them lost. -/
def lostWrite : List (Operation LossyInput (Option ℤ)) :=
  [⟨0, .write 1, 0, none, 1⟩, ⟨1, .write 2, 2, none, 3⟩, ⟨2, .read, 4, some 1, 5⟩]

theorem powerSetModel_lostWrite :
    (checker true (.insertion _) (PowerSetModel LossyNdRegister)).Returns .ok
      (checkOperations true (PowerSetModel LossyNdRegister) lostWrite none) := by
  refine (powerSetModel_iff true (.insertion _) LossyNdRegister (fun _ => rfl) lostWrite
    (by decide) (by decide) (Or.inl (by decide))).2 ⟨lostWrite, .refl _, ?_, 0, by decide, 1, ?_⟩
  · simp [Respects, lostWrite, Operation.Before]
  · exact .cons (t := 1) (by decide) (.cons (t := 1) (by decide) (.cons (t := 1) (by decide)
      (.nil 1)))

/-! ## The power-state -/

/-- **The concrete state can be reached** from an initial one by consuming
the whole sequence. -/
def NondeterministicModel.Reaches (m : NondeterministicModel State Input Output)
    (ios : List (Input × Output)) (t : State) : Prop :=
  ∃ s ∈ m.init, Path (fun s (io : Input × Output) => m.step s io.1 io.2) s ios t

/-- **The power-state is exactly the set of reachable states.** After a
sequence that is not empty there is a power-state when a state can be
reached; it lists the states that can be, each once; and when none can be
the sequence is rejected. -/
theorem powerState_exact (m : NondeterministicModel State Input Output)
    (ios : List (Input × Output)) (hne : ios ≠ []) :
    ((∃ v, run (PowerSetModel m).apply (PowerSetModel m).init ios = some v) ↔
      ∃ t, m.Reaches ios t) ∧
    (∀ v, run (PowerSetModel m).apply (PowerSetModel m).init ios = some v →
      v.Nodup ∧ ∀ t, t ∈ v ↔ m.Reaches ios t) ∧
    ((¬ ∃ t, m.Reaches ios t) →
      run (PowerSetModel m).apply (PowerSetModel m).init ios = none) := by
  have hsub := powerSetModel_subsetStep m
  have hinit : ∀ t, (∃ s ∈ (PowerSetModel m).init,
      Path (fun s (io : Input × Output) => m.step s io.1 io.2) s ios t) ↔ m.Reaches ios t := fun t =>
    exists_congr fun s => and_congr_left fun _ => mem_deduplicate
  have hsome : (∃ v, run (PowerSetModel m).apply (PowerSetModel m).init ios = some v) ↔
      ∃ t, m.Reaches ios t := by
    rw [← Option.isSome_iff_exists]
    refine (hsub.accepts_iff (Or.inr hne)).trans ?_
    simp only [← hinit]
    exact ⟨fun ⟨s, hs, t, hpath⟩ => ⟨t, s, hs, hpath⟩, fun ⟨t, s, hs, hpath⟩ => ⟨s, hs, t, hpath⟩⟩
  refine ⟨hsome, fun v hv => ⟨?_, fun t => (hsub.mem_run hv).trans (hinit t)⟩, fun hnone => ?_⟩
  · refine run_invariant (I := List.Nodup) (nodup_deduplicate m.init) (fun states io states' hs => ?_)
      hv
    rw [← (powerSetModel_apply.1 hs).1]
    exact nodup_deduplicate _
  · rw [← Option.not_isSome_iff_eq_none, Option.isSome_iff_exists]
    exact mt hsome.1 hnone

/-- A write that may be lost, and a write of the value there is. -/
theorem powerState_exact_lossy : ([0, 1] : List ℤ).Nodup ∧
    LossyNdRegister.Reaches [(.write 1, none), (.write 0, none)] 1 ∧
    ¬ LossyNdRegister.Reaches [(.write 1, none), (.write 0, none)] 2 := by
  have hrun : run (PowerSetModel LossyNdRegister).apply (PowerSetModel LossyNdRegister).init
      [(.write 1, none), (.write 0, none)] = some [0, 1] := by decide
  obtain ⟨hnodup, hmem⟩ := (powerState_exact LossyNdRegister _ (by decide)).2.1 _ hrun
  exact ⟨hnodup, (hmem 1).1 (by decide), fun h => absurd ((hmem 2).2 h) (by decide)⟩

end Porcupine
