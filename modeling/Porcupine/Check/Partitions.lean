import Porcupine.Check.Decides
/-!
# Index lists in history order

An index list that lists its events in history order picks out a history
of its own: its calls still come first, and its operations are operations
of the whole history under other times, with the same precedence. So the
operations of a partitioned history are those of its groups
(`OperationsOf.flatten`), and whether a group is linearizable does not
depend on whose times are used (`eventsLinearizable_pick_iff`).
-/

namespace Porcupine

open Linearization

section Pick

variable {α : Type} {history : List α} {g g' : List ℕ} {parts : List (List ℕ)} {k : ℕ} {x : α}

theorem pick_flatten : pick history parts.flatten = (parts.map (pick history)).flatten :=
  List.filterMap_flatten

/-- **What a covering picks is the history**, in some order. -/
theorem pick_covers (hcov : parts.flatten.Perm (List.range history.length)) :
    (parts.map (pick history)).flatten.Perm history := by
  have hperm := hcov.filterMap fun i => history[i]?
  rwa [← pick, pick_flatten, ← pick, pick_range] at hperm

theorem getElem?_pick (h : ∀ i ∈ g, i < history.length) :
    (pick history g)[k]? = g[k]?.bind fun i => history[i]? := by
  induction g generalizing k with
  | nil => rfl
  | cons i g ih =>
    obtain ⟨x, hi⟩ : ∃ x, history[i]? = some x :=
      ⟨_, List.getElem?_eq_getElem (h i (by simp))⟩
    rw [pick, List.filterMap_cons_some hi]
    cases k with
    | zero => simp [hi]
    | succ k => simpa [pick] using ih fun j hj => h j (List.mem_cons_of_mem _ hj)

/-- What is picked stands in the history where the list says. -/
theorem getElem?_getD_of_pick (h : ∀ i ∈ g, i < history.length) (hk : (pick history g)[k]? = some x) :
    k < g.length ∧ history[g.getD k 0]? = some x := by
  rw [getElem?_pick h] at hk
  obtain ⟨i, hi, hx⟩ := Option.bind_eq_some_iff.1 hk
  refine ⟨(List.getElem?_eq_some_iff.1 hi).1, ?_⟩
  rwa [List.getD_eq_getElem?_getD, hi]

end Pick

/-- Every index list is in history order. -/
def Ascending (parts : List (List ℕ)) : Prop := ∀ g ∈ parts, g.Pairwise (· < ·)

/-- A list in history order keeps the order. -/
theorem getD_lt_getD_iff {g : List ℕ} (hg : g.Pairwise (· < ·)) {i j : ℕ} (hi : i < g.length)
    (hj : j < g.length) : g.getD i 0 < g.getD j 0 ↔ i < j := by
  have hmono : ∀ {i j : ℕ}, j < g.length → i < j → g.getD i 0 < g.getD j 0 := by
    intro i j hj hij
    have hlt : g[i] < g[j] := List.pairwise_iff_getElem.1 hg _ _ _ _ hij
    simpa [List.getD_eq_getElem?_getD, hj, hij.trans hj] using hlt
  refine ⟨fun hlt => ?_, hmono hj⟩
  rcases Nat.lt_trichotomy i j with hij | rfl | hij
  · exact hij
  · omega
  · have := hmono hi hij
    omega

variable {State Input Output : Type} {model : Model State Input Output}
variable {events : List (Event Input Output)} {ops : List (Operation Input Output)}
variable {parts : List (List ℕ)} {g : List ℕ} {id : ℕ} {op : Operation Input Output}

/-- **Calls still come first** among the events picked in history order. -/
theorem CallsFirst.pick (h : CallsFirst events) (hlt : ∀ i ∈ g, i < events.length)
    (hg : g.Pairwise (· < ·)) : CallsFirst (pick events g) := by
  intro id c r evc evr hc hr htc htr
  obtain ⟨hcg, hc'⟩ := getElem?_getD_of_pick hlt hc
  obtain ⟨hrg, hr'⟩ := getElem?_getD_of_pick hlt hr
  exact (getD_lt_getD_iff hg hcg hrg).1 (h id _ _ evc evr hc' hr' htc htr)

theorem Accepted.callsFirst_pick (h : Accepted events parts) (hasc : Ascending parts) :
    ∀ g ∈ parts, CallsFirst (pick events g) := fun g hg =>
  h.callsFirst.pick (lt_of_covers h.partition.covers g hg) (hasc g hg)

/-! ## The operations of a group -/

/-- An operation whose times are positions among what `g` picks, with its
times in the history. -/
def Operation.relocate (g : List ℕ) (op : Operation Input Output) : Operation Input Output :=
  { op with call := g.getD op.call 0, returnTime := g.getD op.returnTime 0 }

theorem OperationOf.relocate (hlt : ∀ i ∈ g, i < events.length)
    (h : OperationOf (pick events g) id op) : OperationOf events id (op.relocate g) := by
  obtain ⟨⟨evc, hc, hc'⟩, evr, hr, hr'⟩ := h
  exact ⟨⟨evc, (getElem?_getD_of_pick hlt hc).2, hc'⟩, evr, (getElem?_getD_of_pick hlt hr).2, hr'⟩

/-- Operations of a group precede one another as their relocations do. -/
theorem OperationsOf.relocate_before (hlt : ∀ i ∈ g, i < events.length) (hg : g.Pairwise (· < ·))
    (h : OperationsOf (pick events g) ops) {a b : Operation Input Output} (ha : a ∈ ops)
    (hb : b ∈ ops) : (a.relocate g).Before (b.relocate g) ↔ a.Before b := by
  obtain ⟨-, -, evr, hr, -⟩ := h.exists_id ha
  obtain ⟨-, ⟨evc, hc, -⟩, -⟩ := h.exists_id hb
  exact getD_lt_getD_iff hg (getElem?_getD_of_pick hlt hr).1 (getElem?_getD_of_pick hlt hc).1

/-- **A group is linearizable under its own times when it is under those
of the history.** -/
theorem eventsLinearizable_pick_iff (hcov : EventPartition parts events) (hg : g ∈ parts)
    (hasc : g.Pairwise (· < ·)) (h : OperationsOf (pick events g) ops) :
    EventsLinearizable model (pick events g) ↔
      HistoryLinearizable model (ops.map (Operation.relocate g)) := by
  rw [h.linearizable_iff (hcov.paired g hg).nodup_kind]
  refine (historyLinearizable_map (Operation.relocate g) (fun _ _ => rfl) fun a ha b hb => ?_).symm
  exact h.relocate_before (lt_of_covers hcov.covers g hg) hasc ha hb

/-- **The operations of a partitioned history are those of its groups.** -/
theorem OperationsOf.flatten (hp : PairedEvents events) (hcov : EventPartition parts events)
    {opsOf : List ℕ → List (Operation Input Output)}
    (h : ∀ g ∈ parts, OperationsOf (pick events g) (opsOf g)) :
    OperationsOf events (parts.map fun g => (opsOf g).map (Operation.relocate g)).flatten := by
  have hids : ∀ g, ∃ ids : List ℕ, g ∈ parts → ids.Nodup ∧
      (∀ id, id ∈ ids ↔ ∃ ev ∈ pick events g, ev.id = id) ∧
      List.Forall₂ (OperationOf (pick events g)) ids (opsOf g) := by
    intro g
    by_cases hg : g ∈ parts
    · obtain ⟨ids, hids⟩ := h g hg
      exact ⟨ids, fun _ => hids⟩
    · exact ⟨[], fun hg' => absurd hg' hg⟩
  choose idsOf hids using hids
  -- the ids of the history are those of its groups, one group after another
  have hnd : parts.flatten.Nodup := hcov.covers.nodup_iff.2 List.nodup_range
  refine ⟨(parts.map idsOf).flatten, List.nodup_flatten.2 ⟨?_, ?_⟩, fun id => ?_, ?_⟩
  · intro ids hmem
    obtain ⟨g, hg, rfl⟩ := List.mem_map.1 hmem
    exact (hids g hg).1
  · -- an id of two groups has its one call in both
    refine List.pairwise_map.2 ((List.nodup_flatten.1 hnd).2.imp_of_mem fun {g g'} hg hg' hdisj => ?_)
    intro id hid hid'
    have hcall : ∀ {g : List ℕ}, g ∈ parts → id ∈ idsOf g → ∃ i ∈ g, ∃ ev : Event Input Output,
        events[i]? = some ev ∧ ev.tag = (id, true) := by
      intro g hg hid
      obtain ⟨ev, hev, rfl⟩ := ((hids g hg).2.1 id).1 hid
      obtain ⟨ev', hev', ht⟩ := (hcov.paired g hg).exists_tag hev true
      obtain ⟨i, hi, hev''⟩ := mem_pick.1 hev'
      exact ⟨i, hi, ev', hev'', ht⟩
    obtain ⟨i, hi, ev, hev, ht⟩ := hcall hg hid
    obtain ⟨i', hi', ev', hev', ht'⟩ := hcall hg' hid'
    exact hdisj hi (getElem?_inj_tag hp.nodup hev hev' (ht.trans ht'.symm) ▸ hi')
  · have hmem : (∃ ev ∈ events, ev.id = id) ↔
        ∃ ev ∈ (parts.map (pick events)).flatten, ev.id = id :=
      exists_congr fun ev => and_congr_left fun _ => (pick_covers hcov.covers).mem_iff.symm
    rw [hmem]
    constructor
    · intro hid
      obtain ⟨ids, hmem, hid⟩ := List.mem_flatten.1 hid
      obtain ⟨g, hg, rfl⟩ := List.mem_map.1 hmem
      obtain ⟨ev, hev, he⟩ := ((hids g hg).2.1 id).1 hid
      exact ⟨ev, List.mem_flatten.2 ⟨_, List.mem_map_of_mem hg, hev⟩, he⟩
    · rintro ⟨ev, hev, he⟩
      obtain ⟨l, hmem, hev⟩ := List.mem_flatten.1 hev
      obtain ⟨g, hg, rfl⟩ := List.mem_map.1 hmem
      exact List.mem_flatten.2 ⟨_, List.mem_map_of_mem hg, ((hids g hg).2.1 id).2 ⟨ev, hev, he⟩⟩
  · refine List.rel_flatten ?_
    rw [List.forall₂_map_left_iff, List.forall₂_map_right_iff, List.forall₂_same]
    intro g hg
    rw [List.forall₂_map_right_iff]
    exact (hids g hg).2.2.imp fun id op h => h.relocate (lt_of_covers hcov.covers g hg)

end Porcupine
