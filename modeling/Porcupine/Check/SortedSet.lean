import Porcupine.Check.Agreement
import Porcupine.Check.Degenerate
import Porcupine.Check.Operations
import Porcupine.Model.GoCompat
import Mathlib.Data.Finset.Sort
import Mathlib.Order.ConditionallyCompleteLattice.Finset
import Mathlib.Data.Int.ConditionallyCompleteOrder
/-!
# Sets as sorted vectors

The set model ported from Go keeps a sorted vector without duplicates. It
is the model of a finite set under another name for its states
(`setModel_morphism`), so every state it reaches is the sorted vector of a
set, and checking against it decides whether a history is that of a set
(`setModel_decides`).
-/

namespace Porcupine

namespace GoCompat

open Linearization

/-- **A set that grows.** A read that is known lists its members, each
once. -/
def SetSpec : Model (Finset ℤ) SetInput SetOutput where
  init := ∅
  step state input output :=
    match input.op with
    | .add => some (insert input.value state)
    | .read =>
      if output.unknown = true ∨ output.values.Nodup ∧ output.values.toFinset = state then
        some state
      else none

section Sorted

variable {a : ℤ} {l : List ℤ}

theorem pairwise_destutter' (h : (a :: l).Pairwise (· ≤ ·)) :
    (l.destutter' (· ≠ ·) a).Pairwise (· < ·) ∧
      ∀ x, x ∈ l.destutter' (· ≠ ·) a ↔ x = a ∨ x ∈ l := by
  induction l generalizing a with
  | nil => simp
  | cons b l ih =>
    obtain ⟨hle, hl⟩ := List.pairwise_cons.1 h
    obtain ⟨hle', -⟩ := List.pairwise_cons.1 hl
    obtain ⟨hsorted, hmem⟩ := ih hl
    by_cases hab : a = b
    · subst hab
      rw [List.destutter'_cons_neg _ (by simp)]
      exact ⟨hsorted, fun x => by rw [hmem, List.mem_cons, or_self_left]⟩
    · rw [List.destutter'_cons_pos _ hab]
      have hlt : a < b := lt_of_le_of_ne (hle b List.mem_cons_self) hab
      refine ⟨List.pairwise_cons.2 ⟨fun x hx => ?_, hsorted⟩, fun x => ?_⟩
      · rcases (hmem x).1 hx with rfl | hx
        · exact hlt
        · exact hlt.trans_le (hle' x hx)
      · rw [List.mem_cons, hmem, List.mem_cons]

/-- Without its repetitions a sorted vector is strictly sorted, and has the
elements it had. -/
theorem pairwise_destutter (h : l.Pairwise (· ≤ ·)) :
    (l.destutter (· ≠ ·)).Pairwise (· < ·) ∧ ∀ x, x ∈ l.destutter (· ≠ ·) ↔ x ∈ l := by
  cases l with
  | nil => simp
  | cons a l =>
    obtain ⟨hsorted, hmem⟩ := pairwise_destutter' h
    exact ⟨hsorted, fun x => (hmem x).trans List.mem_cons.symm⟩

/-- Duplicates of a sorted vector are next to each other. -/
theorem any_windows_iff (h : l.Pairwise (· ≤ ·)) :
    ((l.zip l.tail).any fun w => w.1 == w.2) = true ↔ ¬ l.Nodup := by
  induction l with
  | nil => simp
  | cons a l ih =>
    obtain ⟨hle, hl⟩ := List.pairwise_cons.1 h
    cases l with
    | nil => simp
    | cons b l =>
      obtain ⟨hle', -⟩ := List.pairwise_cons.1 hl
      have hmem : a ∈ b :: l ↔ a = b := by
        refine ⟨fun hmem => ?_, fun he => he ▸ List.mem_cons_self⟩
        rcases List.mem_cons.1 hmem with he | hmem
        · exact he
        · exact le_antisymm (hle b List.mem_cons_self) (hle' a hmem)
      have hrest := ih hl
      rw [List.tail_cons] at hrest
      rw [List.tail_cons, List.zip_cons_cons, List.any_cons, Bool.or_eq_true, beq_iff_eq, hrest,
        List.nodup_cons (a := a), hmem, not_and_or, not_not]

theorem pairwise_mergeSort (l : List ℤ) : l.mergeSort.Pairwise (· ≤ ·) :=
  List.pairwise_mergeSort' (· ≤ ·) l

/-- A strictly sorted vector is its elements. -/
theorem eq_sort_iff {s : Finset ℤ} (h : l.Pairwise (· < ·)) : l = s.sort ↔ ∀ x, x ∈ l ↔ x ∈ s := by
  constructor
  · rintro rfl x
    exact Finset.mem_sort _
  · intro hmem
    refine h.eq_of_mem_iff s.sortedLT_sort.pairwise fun x => ?_
    rw [hmem, Finset.mem_sort]

end Sorted

/-- **The vector is the set**, whatever the operations. -/
theorem setModel_morphism : Morphism SetSpec SetModel fun s => s.sort where
  init := (Finset.sort_empty _).symm
  partition := rfl
  partitionEvents := rfl
  step s input output := by
    obtain ⟨op, value⟩ := input
    cases op with
    | add =>
      refine congrArg some ?_
      obtain ⟨hsorted, hmem⟩ := pairwise_destutter (pairwise_mergeSort (s.sort ++ [value]))
      rw [eq_sort_iff hsorted]
      intro x
      rw [hmem, List.mem_mergeSort, List.mem_append, List.mem_singleton, Finset.mem_sort,
        Finset.mem_insert, or_comm]
    | read =>
      obtain ⟨values, unknown⟩ := output
      cases unknown with
      | true => simp [SetModel, SetSpec]
      | false =>
        have hsorted := pairwise_mergeSort values
        have hnd : values.mergeSort.Nodup ↔ values.Nodup := (List.mergeSort_perm _ _).nodup_iff
        by_cases hdup : values.Nodup
        · have hany : ((values.mergeSort.zip values.mergeSort.tail).any fun w => w.1 == w.2) =
              false := by
            rw [← Bool.not_eq_true, any_windows_iff hsorted, not_not, hnd]
            exact hdup
          have hlt : values.mergeSort.Pairwise (· < ·) :=
            (hsorted.and (hnd.2 hdup)).imp fun hxy => lt_of_le_of_ne hxy.1 hxy.2
          have heq : values.mergeSort = s.sort ↔ values.toFinset = s := by
            rw [eq_sort_iff hlt, Finset.ext_iff]
            simp only [List.mem_mergeSort, List.mem_toFinset]
          simp [SetModel, SetSpec, hany, heq, hdup]
        · have hany : ((values.mergeSort.zip values.mergeSort.tail).any fun w => w.1 == w.2) =
              true := by
            rw [any_windows_iff hsorted, hnd]
            exact hdup
          simp [SetModel, SetSpec, hany, hdup]

/-- So a vector that is reached is the sorted vector of the set that is
reached. -/
theorem eq_sort_of_run {ios : List (SetInput × SetOutput)} {s : List ℤ}
    (h : run SetModel.apply SetModel.init ios = some s) :
    ∃ t : Finset ℤ, run SetSpec.apply SetSpec.init ios = some t ∧ s = t.sort := by
  have hstep : ∀ t (io : SetInput × SetOutput), SetModel.apply t.sort io =
      (SetSpec.apply t io).map fun t => t.sort := fun t io => setModel_morphism.step t io.1 io.2
  have himage : run SetModel.apply SetSpec.init.sort ios =
      (run SetSpec.apply SetSpec.init ios).map fun t => t.sort := run_image hstep
  rw [setModel_morphism.init, himage, Option.map_eq_some_iff] at h
  obtain ⟨t, ht, rfl⟩ := h
  exact ⟨t, ht, rfl⟩

/-- It has the members added. -/
theorem setModel_step_add (t : Finset ℤ) (value : ℤ) (output : SetOutput) :
    SetModel.step t.sort ⟨.add, value⟩ output = some (insert value t).sort :=
  setModel_morphism.step t ⟨.add, value⟩ output

/-- A read that is known is accepted when it lists the members. -/
theorem setModel_step_read (t : Finset ℤ) (value : ℤ) (values : List ℤ) :
    SetModel.step t.sort ⟨.read, value⟩ ⟨values, false⟩ = some t.sort ↔
      values.Nodup ∧ values.toFinset = t := by
  rw [setModel_morphism.step]
  simp [SetSpec]

/-- **A check against the sorted vector decides whether the history is a
set's.** Every state that operations lead to is strictly sorted, an
addition inserts its value, and a known read is accepted exactly when it
lists the members, each once. -/
theorem setModel_decides (debug : Bool) (srt : UnstableSort (List (Entry SetInput SetOutput))) :
    (∀ (ios : List (SetInput × SetOutput)) (s : List ℤ),
      run SetModel.apply SetModel.init ios = some s →
      s.Pairwise (· < ·) ∧ run SetSpec.apply SetSpec.init ios = some s.toFinset ∧
      (∀ value output, ∃ t, SetModel.step s ⟨.add, value⟩ output = some t ∧
        ∀ x, x ∈ t ↔ x = value ∨ x ∈ s) ∧
      ∀ value values, SetModel.step s ⟨.read, value⟩ ⟨values, false⟩ = some s ↔
        values.Nodup ∧ ∀ x, x ∈ values ↔ x ∈ s) ∧
    (∀ history : List (Operation SetInput SetOutput), (∀ op ∈ history, op.call ≤ op.returnTime) →
      history.length ≤ 2 ^ 31 - 1 →
      Decides (checker debug srt SetModel) (checkOperations debug SetModel history none)
        (HistoryLinearizable SetSpec history)) ∧
    ∀ events : List (Event SetInput SetOutput), assertWellFormedEvents true events = .ok () →
      events.length ≤ 2 * (2 ^ 31 - 1) →
      Decides (checker debug srt SetModel) (checkEvents debug SetModel events none)
        (EventsLinearizable SetSpec events) := by
  have hlaw : SetModel.Lawful := Model.lawful_of_lawfulBEq _
  refine ⟨fun ios s hrun => ?_, fun history hwf hsize => ?_, fun events hgate hsize => ?_⟩
  · obtain ⟨t, ht, rfl⟩ := eq_sort_of_run hrun
    refine ⟨t.sortedLT_sort.pairwise, by rwa [Finset.sort_toFinset], fun value output => ?_,
      fun value values => ?_⟩
    · refine ⟨_, setModel_step_add t value output, fun x => ?_⟩
      rw [Finset.mem_sort, Finset.mem_sort, Finset.mem_insert]
    · rw [setModel_step_read, Finset.ext_iff]
      simp only [List.mem_toFinset, Finset.mem_sort]
  · have hdec : Decides (checker debug srt SetModel) (checkOperations debug SetModel history none)
        (HistoryLinearizable SetModel history) :=
      (prepares_operations debug rfl hwf (by omega)).decides hlaw
    exact hdec.congr setModel_morphism.historyLinearizable_iff
  · obtain ⟨hp, hfirst⟩ := assertWellFormedEvents_iff.1 hgate
    have hdec : Decides (checker debug srt SetModel) (checkEvents debug SetModel events none)
        (EventsLinearizable SetModel events) :=
      (prepares_events debug rfl hp hfirst (by rw [NONE]; omega)).decides hlaw
    exact hdec.congr setModel_morphism.eventsLinearizable_iff

/-- Two additions, and reads that list them out of order. -/
def unorderedReads : List (Operation SetInput SetOutput) :=
  [⟨0, ⟨.add, 100⟩, 0, ⟨[], false⟩, 10⟩, ⟨1, ⟨.add, 7⟩, 5, ⟨[], false⟩, 15⟩,
    ⟨2, ⟨.read, 0⟩, 20, ⟨[100, 7], false⟩, 30⟩]

/-- An addition while a read lists nothing, as events. -/
def earlyReadEvents : List (Event SetInput SetOutput) :=
  [⟨0, .call, some ⟨.add, 100⟩, none, 0⟩, ⟨1, .call, some ⟨.read, 0⟩, none, 1⟩,
    ⟨1, .ret, none, some ⟨[], false⟩, 1⟩, ⟨0, .ret, none, some ⟨[], false⟩, 0⟩]

theorem setModel_decides_unordered :
    ([7, 100] : List ℤ).Pairwise (· < ·) ∧
      (checker true (.insertion _) SetModel).Returns .ok
        (checkOperations true SetModel unorderedReads none) ∧
      Decides (checker true (.insertion _) SetModel) (checkEvents true SetModel earlyReadEvents none)
        (EventsLinearizable SetSpec earlyReadEvents) := by
  obtain ⟨hreached, hops, hevents⟩ := setModel_decides true (.insertion _)
  have hrun : run SetModel.apply SetModel.init (unorderedReads.map Operation.io) =
      some [7, 100] := by
    simp [run, SetModel, Model.apply, Operation.io, unorderedReads, List.mergeSort]
  refine ⟨(hreached _ _ hrun).1,
    (hops unorderedReads (by decide) (by decide)).ok ⟨unorderedReads, .refl _, ?_, ?_⟩,
    hevents earlyReadEvents (by decide) (by decide)⟩
  · unfold Respects
    decide
  · unfold Accepts
    decide

end GoCompat

end Porcupine
