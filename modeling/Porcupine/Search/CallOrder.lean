import Porcupine.Entries.Builders
/-!
# Orders of a history, and the order of its calls

The entries of a history list its calls by time, and those made at one
time as the history lists them: the sort is stable (`callPos_lt_iff`). An
order of the history that is legal, in terms of its operations, is one of
its entries (`Represents.legal_iff`).
-/

namespace Porcupine

open Linearization

variable {State Input Output : Type} {model : Model State Input Output}
variable {history : List (Operation Input Output)} {entries : List (Entry Input Output)}
variable {order : List ℕ} {x y : Operation Input Output} {i j n : ℕ}

/-- The one is called first: earlier, or at one time and listed earlier. -/
def CalledBefore (history : List (Operation Input Output)) (i j : ℕ) : Prop :=
  ∃ x y, history[i]? = some x ∧ history[j]? = some y ∧ (x.call < y.call ∨ x.call = y.call ∧ i < j)

/-- **A legal order of the history**, by position: every operation once,
none before one that returns before it is called, and the model takes them
all. -/
structure Legal (model : Model State Input Output) (history : List (Operation Input Output))
    (order : List ℕ) : Prop where
  perm : order.Perm (List.range history.length)
  respects : Respects Operation.Before (pick history order)
  accepts : Accepts (fun s op => model.apply s op.io) model.init (pick history order)

/-- What positions pick out of a history, in terms of the history. -/
theorem pick_map_val (order : List (Fin history.length)) :
    pick history (order.map Fin.val) = order.map history.get := by
  rw [pick, List.filterMap_map, ← List.filterMap_eq_map]
  refine List.filterMap_congr fun i _ => ?_
  simp

/-- **A legal order of the history is one of its entries.** -/
theorem Represents.legal_iff (h : Represents entries history) :
    Legal model history order ↔ order.Perm (List.range history.length) ∧
      Respects (Precedes entries) order ∧ Accepts (applyOp model entries) model.init order := by
  have key : order.Perm (List.range history.length) →
      (Respects Operation.Before (pick history order) ↔ Respects (Precedes entries) order) ∧
      (Accepts (fun s op => model.apply s op.io) model.init (pick history order) ↔
        Accepts (applyOp model entries) model.init order) := by
    intro hperm
    have hlt : ∀ i ∈ order, i < history.length := fun i hi => List.mem_range.1 (hperm.mem_iff.1 hi)
    lift order to List (Fin history.length) using hlt
    have hget : ∀ i : Fin history.length, history[i.1]? = some (history.get i) := fun i => by simp
    have hstep : (fun s (i : Fin history.length) => model.apply s (history.get i).io) =
        fun s (i : Fin history.length) => applyOp model entries s i := by
      funext s i
      rw [applyOp, h.opOf i _ (hget i)]
      rfl
    rw [pick_map_val, Respects, Respects, List.pairwise_map, List.pairwise_map, Accepts, Accepts,
      run_map, run_map, hstep]
    refine ⟨List.Pairwise.iff fun i j => not_congr ?_, Iff.rfl⟩
    exact (h.precedes j i _ _ (hget j) (hget i)).symm
  constructor
  · rintro ⟨hperm, hresp, hacc⟩
    exact ⟨hperm, (key hperm).1.1 hresp, (key hperm).2.1 hacc⟩
  · rintro ⟨hperm, hresp, hacc⟩
    exact ⟨hperm, (key hperm).1.2 hresp, (key hperm).2.2 hacc⟩

/-- There is one exactly when the history is linearizable. -/
theorem historyLinearizable_iff_legal :
    HistoryLinearizable model history ↔ ∃ order, Legal model history order := by
  have hrep : Represents (makeEntries history) history := makeEntries_arranged.represents
  rw [← hrep.linearizable_iff, EntriesLinearizable, hrep.paired.half_length]
  exact exists_congr fun order => hrep.legal_iff.symm

/-! ## The order of the calls -/

/-- Entries are in the order of their positions. -/
theorem Paired.pairwise_posOf (h : Paired entries n) : entries.Pairwise fun a b =>
    posOf entries a.id a.value.isCall < posOf entries b.id b.value.isCall := by
  rw [List.pairwise_iff_getElem]
  intro p q hp hq hlt
  rw [(h.posOf_tag (List.getElem?_eq_getElem hp)).1, (h.posOf_tag (List.getElem?_eq_getElem hq)).1]
  exact hlt

/-- The calls of two operations are flattened in slice order. -/
theorem calls_sublist_flattened (hi : history[i]? = some x) (hj : history[j]? = some y)
    (hij : i < j) : [(⟨i, x.call, .call x.input⟩ : Entry Input Output),
      ⟨j, y.call, .call y.input⟩].Sublist (flattened history) := by
  obtain ⟨hilt, rfl⟩ := List.getElem?_eq_some_iff.1 hi
  obtain ⟨hjlt, rfl⟩ := List.getElem?_eq_some_iff.1 hj
  rw [← List.length_zipIdx (i := 0)] at hilt hjlt
  have hpair : ([⟨i, hilt⟩, ⟨j, hjlt⟩] : List (Fin history.zipIdx.length)).Pairwise (· < ·) :=
    List.pairwise_pair.2 hij
  have hsub := (List.map_getElem_sublist hpair).flatMap fun p => entriesOf p.2 p.1
  refine List.Sublist.trans ?_ hsub
  simp [entriesOf]

/-- **The entries list the calls in the order in which they are made.** -/
theorem callPos_lt_iff (hi : history[i]? = some x) (hj : history[j]? = some y) :
    callPos (makeEntries history) i < callPos (makeEntries history) j ↔
      x.call < y.call ∨ x.call = y.call ∧ i < j := by
  have harr : Arranged (makeEntries history) history := makeEntries_arranged
  -- one way, for the two of them in either order
  have key : ∀ {i j : ℕ} {x y : Operation Input Output}, history[i]? = some x →
      history[j]? = some y → (x.call < y.call ∨ x.call = y.call ∧ i < j) →
      callPos (makeEntries history) i < callPos (makeEntries history) j := by
    intro i j x y hi hj hlt
    rcases hlt with hlt | ⟨heq, hij⟩
    · have hp := harr.call_entry hi
      have hq := harr.call_entry hj
      obtain ⟨hplt, hpe⟩ := List.getElem?_eq_some_iff.1 hp
      obtain ⟨hqlt, hqe⟩ := List.getElem?_eq_some_iff.1 hq
      rcases Nat.lt_trichotomy (callPos (makeEntries history) i) (callPos (makeEntries history) j)
        with h | h | h
      · exact h
      · rw [h, hq, Option.some.injEq, Entry.mk.injEq] at hp
        omega
      · have htime := List.pairwise_iff_getElem.1 harr.sorted_time _ _ hqlt hplt h
        rw [hpe, hqe] at htime
        exact absurd htime (Nat.not_le.2 hlt)
    · have hsorted : Entry.NotAfter (⟨i, x.call, .call x.input⟩ : Entry Input Output)
          ⟨j, y.call, .call y.input⟩ := Entry.cmp_ne_gt.2 (Or.inr ⟨heq, Or.inl rfl⟩)
      have hsub := List.pair_sublist_insertionSort hsorted (calls_sublist_flattened hi hj hij)
      exact harr.paired.pairwise_posOf.forall_sublist hsub
  refine ⟨fun hlt => ?_, key hi hj⟩
  by_contra hnot
  have hne : i ≠ j := by
    rintro rfl
    exact Nat.lt_irrefl _ hlt
  exact Nat.lt_asymm hlt (key hj hi (by omega))

theorem calledBefore_iff (hi : i < history.length) (hj : j < history.length) :
    CalledBefore history i j ↔
      callPos (makeEntries history) i < callPos (makeEntries history) j := by
  have hx := List.getElem?_eq_getElem hi
  have hy := List.getElem?_eq_getElem hj
  rw [callPos_lt_iff hx hy]
  constructor
  · rintro ⟨x, y, hx', hy', hlt⟩
    cases hx.symm.trans hx'
    cases hy.symm.trans hy'
    exact hlt
  · exact fun hlt => ⟨_, _, hx, hy, hlt⟩

/-- An order of the history in which calls are made is one of its
entries. -/
theorem pairwise_calledBefore_iff (hperm : order.Perm (List.range history.length)) :
    order.Pairwise (CalledBefore history) ↔ order.Pairwise fun i j =>
      callPos (makeEntries history) i < callPos (makeEntries history) j := by
  have hlt : ∀ i ∈ order, i < history.length := fun i hi => List.mem_range.1 (hperm.mem_iff.1 hi)
  exact List.Pairwise.iff_of_mem fun hi hj => calledBefore_iff (hlt _ hi) (hlt _ hj)

end Porcupine
