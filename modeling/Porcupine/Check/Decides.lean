import Porcupine.Entries.Pairing
import Porcupine.Parallel.Verdict
/-!
# What an unbounded check decides

A check decides a property when every schedule of it ends, with `Ok` where
the property holds and with `Illegal` where it does not. Under a lawful
`==` a check without a timeout decides whether all its partitions are
linearizable (`decides_partitions`), and so each entry point decides
linearizability: `check_operations` of the history or of what each index
list picks out of it, `check_events` likewise.
-/

namespace Porcupine

open Transition

variable {State Input Output : Type}

/-- **Every schedule ends**, with `Ok` if the property holds and with
`Illegal` if not. -/
structure Decides {σ ι : Type} (M : Machine σ ι CheckResult) (s : σ) (P : Prop) : Prop where
  ok : P → M.Returns .ok s
  illegal : ¬ P → M.Returns .illegal s

namespace Decides

variable {σ ι : Type} {M : Machine σ ι CheckResult} {s t : σ} {P Q : Prop}

theorem ok_iff (h : Decides M s P) : M.Returns .ok s ↔ P := by
  refine ⟨fun hok => ?_, h.ok⟩
  by_contra hP
  cases hok.unique (h.illegal hP)

theorem illegal_iff (h : Decides M s P) : M.Returns .illegal s ↔ ¬ P :=
  ⟨fun hill hP => (by cases hill.unique (h.ok hP)), h.illegal⟩

theorem congr (h : Decides M s P) (hPQ : P ↔ Q) : Decides M s Q :=
  ⟨fun hQ => h.ok (hPQ.2 hQ), fun hQ => h.illegal fun hP => hQ (hPQ.1 hP)⟩

/-- Checks that decide one property agree. -/
theorem agree {τ κ : Type} {M' : Machine τ κ CheckResult} {t : τ} (h : Decides M s P)
    (h' : Decides M' t P) : ∃ r, M.Returns r s ∧ M'.Returns r t := by
  by_cases hP : P
  · exact ⟨.ok, h.ok hP, h'.ok hP⟩
  · exact ⟨.illegal, h.illegal hP, h'.illegal hP⟩

/-- Checks that agree decide one property. -/
theorem iff_of_returns {τ κ : Type} {M' : Machine τ κ CheckResult} {t : τ} {r : CheckResult}
    (h : Decides M s P) (h' : Decides M' t Q) (hr : M.Returns r s) (hr' : M'.Returns r t) :
    P ↔ Q := by
  by_cases hP : P
  · obtain rfl := hr.unique (h.ok hP)
    exact iff_of_true hP (h'.ok_iff.1 hr')
  · obtain rfl := hr.unique (h.illegal hP)
    exact iff_of_false hP (h'.illegal_iff.1 hr')

end Decides

variable {debug : Bool} {model : Model State Input Output}
variable {srt : UnstableSort (List (Entry Input Output))}

/-- Entries that the search decides: every operation called before it
returns, and node references that do not wrap. -/
def Searchable (g : List (Entry Input Output)) : Prop :=
  ∃ n, Paired g n ∧ CallFirst g n ∧ g.length < NONE

/-- **What the entry points hand to a check**: partitions that are
searchable, and all linearizable when `P` holds. -/
def Prepares (model : Model State Input Output) (ps : Result (List (List (Entry Input Output))))
    (P : Prop) : Prop :=
  ∃ partitions, ps = .ok partitions ∧ (∀ g ∈ partitions, Searchable g) ∧
    ((∀ g ∈ partitions, EntriesLinearizable model g) ↔ P)

/-- Partitions whose searches return, one way or the other. -/
def Halts (ps : Result (List (List (Entry Input Output)))) : Prop :=
  ∃ partitions, ps = .ok partitions ∧ ∀ g ∈ partitions, ∃ n, Paired g n ∧ g.length < NONE

theorem Prepares.halts {ps : Result (List (List (Entry Input Output)))} {P : Prop}
    (h : Prepares model ps P) : Halts ps := by
  obtain ⟨partitions, hps, hsearch, -⟩ := h
  refine ⟨partitions, hps, fun g hg => ?_⟩
  obtain ⟨n, hpair, -, hsize⟩ := hsearch g hg
  exact ⟨n, hpair, hsize⟩

section Checks

variable [BEq State]

theorem exists_verdicts_of_paired (debug : Bool) (model : Model State Input Output)
    {partitions : List (List (Entry Input Output))}
    (h : ∀ g ∈ partitions, ∃ n, Paired g n ∧ g.length < NONE) :
    Nonempty (Verdicts debug model partitions) :=
  exists_verdicts fun g hg => by
    obtain ⟨n, hpair, hsize⟩ := h g hg
    exact hpair.checksTo hsize debug model

/-- **The searches of searchable partitions say which are
linearizable.** -/
theorem exists_verdicts_iff (debug : Bool) {partitions : List (List (Entry Input Output))}
    (hlaw : model.Lawful) (h : ∀ g ∈ partitions, Searchable g) :
    ∃ V : Verdicts debug model partitions,
      ∀ g ∈ partitions, V.verdict g = true ↔ EntriesLinearizable model g := by
  obtain ⟨V⟩ := exists_verdicts_of_paired debug model fun g hg => by
    obtain ⟨n, hpair, -, hsize⟩ := h g hg
    exact ⟨n, hpair, hsize⟩
  refine ⟨V, fun g hg => ?_⟩
  obtain ⟨n, hpair, hfirst, hsize⟩ := h g hg
  exact hpair.checksTo_iff hsize hfirst hlaw (V.checks g hg).checksTo

/-- **A check decides whether all its partitions are linearizable.** -/
theorem Prepares.decides {ps : Result (List (List (Entry Input Output)))} {P : Prop}
    (h : Prepares model ps P) (hlaw : model.Lawful) :
    Decides (checker debug srt model) (.begin none ps) P := by
  obtain ⟨partitions, rfl, hsearch, hP⟩ := h
  obtain ⟨V, hverdict⟩ := exists_verdicts_iff debug hlaw hsearch
  have hall : (∀ g ∈ partitions, V.verdict g = true) ↔ P := (forall₂_congr hverdict).trans hP
  refine ⟨fun h => ?_, fun h => ?_⟩
  · rw [← Verdicts.answer_eq_ok.2 (hall.2 h)]
    exact V.returns srt
  · have hill : V.answer = .illegal := by
      rw [Verdicts.answer_eq_illegal]
      by_contra hnone
      refine h (hall.1 fun g hg => ?_)
      by_contra hv
      exact hnone ⟨g, hg, Bool.not_eq_true _ ▸ hv⟩
    rw [← hill]
    exact V.returns srt

end Checks

/-! ## Operations -/

section Operations

variable {history : List (Operation Input Output)} {parts : List (List ℕ)}

theorem makeEntries_searchable (hwf : ∀ op ∈ history, op.WellFormed)
    (hsize : history.length < 2 ^ 31) : Searchable (makeEntries history) := by
  have hrep : Represents (makeEntries history) history := makeEntries_arranged.represents
  refine ⟨_, hrep.paired, hrep.callFirst hwf, ?_⟩
  rw [hrep.paired.length_eq, NONE]
  omega

/-- The entries of a history that the gate lets through. -/
theorem operationPartitions_whole (hpart : model.partition history = none)
    (hgate : assertWellFormed debug history = .ok ()) :
    operationPartitions debug model history = .ok [makeEntries history] := by
  simp only [operationPartitions, hgate, hpart, Result.ok_bind, Result.pure_eq]

/-- **`check_operations` without a partition** checks the history. -/
theorem prepares_operations (debug : Bool) (hpart : model.partition history = none)
    (hwf : ∀ op ∈ history, op.WellFormed) (hsize : history.length < 2 ^ 31) :
    Prepares model (operationPartitions debug model history)
      (HistoryLinearizable model history) := by
  refine ⟨[makeEntries history], operationPartitions_whole hpart (assertWellFormed_ok hwf debug),
    fun g hg => ?_, ?_⟩
  · rw [List.mem_singleton.1 hg]
    exact makeEntries_searchable hwf hsize
  · simp [makeEntries_arranged.represents.linearizable_iff]

/-- The indices a covering lists are in bounds. -/
theorem lt_of_covers {parts : List (List ℕ)} {n : ℕ} (hcov : parts.flatten.Perm (List.range n)) :
    ∀ g ∈ parts, ∀ i ∈ g, i < n := fun _ hg _ hi =>
  List.mem_range.1 (hcov.mem_iff.1 (List.mem_flatten_of_mem hg hi))

/-- What a covering picks is no longer than the history. -/
theorem length_pick_le {α : Type} {history : List α}
    (hcov : parts.flatten.Perm (List.range history.length)) :
    ∀ g ∈ parts, (pick history g).length ≤ history.length := by
  intro g hg
  have hnd : parts.flatten.Nodup := hcov.nodup_iff.2 List.nodup_range
  have hg' : g.Nodup := (List.nodup_flatten.1 hnd).1 g hg
  have hsub : g ⊆ List.range history.length := fun i hi =>
    List.mem_range.2 (lt_of_covers hcov g hg i hi)
  have hlen := (hg'.subperm hsub).length_le
  rw [List.length_range] at hlen
  exact (List.length_filterMap_le _ _).trans hlen

/-- The entries that index lists the gate lets through are flattened to. -/
theorem operationPartitions_eq_of_gate (hpart : model.partition history = some parts)
    (hcov : parts.flatten.Perm (List.range history.length))
    (hgate : assertWellFormed debug history = .ok ())
    (hparts : assertPartitionCoversOps debug parts history.length = .ok ()) :
    operationPartitions debug model history =
      .ok (parts.map fun g => makeEntries (pick history g)) := by
  simp only [operationPartitions, hgate, hpart, hparts, Result.ok_bind]
  exact Loop.mapM_ok fun g hg => makeEntriesFromIndices_eq (lt_of_covers hcov g hg)

theorem operationPartitions_eq (debug : Bool) (hpart : model.partition history = some parts)
    (hcov : parts.flatten.Perm (List.range history.length)) (hcount : parts.length ≤ 2 ^ 32)
    (hwf : ∀ op ∈ history, op.WellFormed) : operationPartitions debug model history =
      .ok (parts.map fun g => makeEntries (pick history g)) :=
  operationPartitions_eq_of_gate hpart hcov (assertWellFormed_ok hwf debug)
    (assertPartitionCoversOps_ok hcov hcount debug)

/-- **With a partition** it checks what the index lists pick, in whatever
order they list it. -/
theorem prepares_operations_partition (debug : Bool) (hpart : model.partition history = some parts)
    (hcov : parts.flatten.Perm (List.range history.length)) (hcount : parts.length ≤ 2 ^ 32)
    (hwf : ∀ op ∈ history, op.WellFormed) (hsize : history.length < 2 ^ 31) :
    Prepares model (operationPartitions debug model history)
      (∀ g ∈ parts, HistoryLinearizable model (pick history g)) := by
  refine ⟨_, operationPartitions_eq debug hpart hcov hcount hwf, fun entries hmem => ?_, ?_⟩
  · obtain ⟨g, hg, rfl⟩ := List.mem_map.1 hmem
    refine makeEntries_searchable (fun op hop => ?_) ((length_pick_le hcov g hg).trans_lt hsize)
    obtain ⟨i, -, hi⟩ := mem_pick.1 hop
    exact hwf op (List.mem_of_getElem? hi)
  · rw [List.forall_mem_map]
    exact forall₂_congr fun g _ => makeEntries_arranged.represents.linearizable_iff

end Operations

/-! ## Events -/

section Events

variable {events : List (Event Input Output)} {parts : List (List ℕ)}
variable {entries : List (Entry Input Output)}

/-- The entries of events are linearizable when the events are. -/
theorem PairedEvents.linearizable_iff (h : PairedEvents events)
    (hent : List.Forall₂ (IsEntryOf events) events entries) :
    EntriesLinearizable model entries ↔ EventsLinearizable model events := by
  rw [(h.paired hent).represents.linearizable_iff,
    (h.operationsOf hent).linearizable_iff h.nodup_kind]

/-- **`check_events` without a partition** checks the history. -/
theorem prepares_events (debug : Bool) (hpart : model.partitionEvents events = none)
    (hp : PairedEvents events) (hfirst : CallsFirst events) (hsize : events.length < NONE) :
    Prepares model (eventPartitions debug model events) (EventsLinearizable model events) := by
  obtain ⟨entries, hconv, hent, -⟩ := hp.convert
  refine ⟨[entries], ?_, fun g hg => ?_, ?_⟩
  · simp only [eventPartitions, assertWellFormedEvents_ok hp hfirst, hpart, hconv, Result.ok_bind,
      Result.pure_eq]
  · rw [List.mem_singleton.1 hg]
    exact ⟨_, hp.paired hent, hp.callFirst hent hfirst, hent.length_eq ▸ hsize⟩
  · simp [hp.linearizable_iff hent]

/-- The entries that the index lists are converted to. -/
theorem eventPartitions_eq (debug : Bool) (hpart : model.partitionEvents events = some parts)
    (hp : PairedEvents events) (hfirst : CallsFirst events) (hcov : EventPartition parts events)
    (hcount : parts.length ≤ 2 ^ 32) :
    ∃ conv : List ℕ → List (Entry Input Output),
      eventPartitions debug model events = .ok (parts.map conv) ∧
      ∀ g ∈ parts, List.Forall₂ (IsEntryOf (pick events g)) (pick events g) (conv g) := by
  have hconv : ∀ g, ∃ entries, g ∈ parts → convertEntries (renumber (pick events g)) = .ok entries ∧
      List.Forall₂ (IsEntryOf (pick events g)) (pick events g) entries := by
    intro g
    by_cases hg : g ∈ parts
    · obtain ⟨entries, hok, hent, -⟩ := (hcov.paired g hg).convert
      exact ⟨entries, fun _ => ⟨hok, hent⟩⟩
    · exact ⟨[], fun hg' => absurd hg' hg⟩
  choose conv hconv using hconv
  refine ⟨conv, ?_, fun g hg => (hconv g hg).2⟩
  simp only [eventPartitions, assertWellFormedEvents_ok hp hfirst, hpart,
    assertPartitionEventsPaired_ok hp hfirst hcov hcount, Result.ok_bind]
  refine Loop.mapM_ok fun g hg => ?_
  rw [convertEntriesFromIndices_eq (lt_of_covers hcov.covers g hg), (hconv g hg).1]

/-- **Events and a partition of them that pass the gate**, with node
references that do not wrap. -/
structure Accepted (events : List (Event Input Output)) (parts : List (List ℕ)) : Prop where
  paired : PairedEvents events
  callsFirst : CallsFirst events
  partition : EventPartition parts events
  count : parts.length ≤ 2 ^ 32
  size : events.length < NONE

theorem accepted_of_gate (hgate : assertWellFormedEvents true events = .ok ())
    (hsize : events.length < NONE) (hparts : assertPartitionEventsPaired true parts events = .ok ()) :
    Accepted events parts := by
  obtain ⟨hp, hfirst⟩ := assertWellFormedEvents_iff.1 hgate
  obtain ⟨hcov, hcount⟩ := (assertPartitionEventsPaired_iff hp hfirst).1 hparts
  exact ⟨hp, hfirst, hcov, hcount, hsize⟩

namespace Accepted

theorem convert (h : Accepted events parts) (debug : Bool)
    (hpart : model.partitionEvents events = some parts) :
    ∃ conv : List ℕ → List (Entry Input Output),
      eventPartitions debug model events = .ok (parts.map conv) ∧
      ∀ g ∈ parts, List.Forall₂ (IsEntryOf (pick events g)) (pick events g) (conv g) :=
  eventPartitions_eq debug hpart h.paired h.callsFirst h.partition h.count

theorem length_lt (h : Accepted events parts) {g : List ℕ} (hg : g ∈ parts)
    (hent : List.Forall₂ (IsEntryOf (pick events g)) (pick events g) entries) :
    entries.length < NONE := by
  rw [← hent.length_eq]
  exact (length_pick_le h.partition.covers g hg).trans_lt h.size

/-- Whatever the order they list it in, the searches return. -/
theorem halts (h : Accepted events parts) (debug : Bool)
    (hpart : model.partitionEvents events = some parts) :
    Halts (eventPartitions debug model events) := by
  obtain ⟨conv, hparts, hconv⟩ := h.convert debug hpart
  refine ⟨parts.map conv, hparts, fun entries hmem => ?_⟩
  obtain ⟨g, hg, rfl⟩ := List.mem_map.1 hmem
  exact ⟨_, (h.partition.paired g hg).paired (hconv g hg), h.length_lt hg (hconv g hg)⟩

/-- **With a partition** `check_events` checks what the index lists pick,
provided each lists its calls before their returns. -/
theorem prepares (h : Accepted events parts) (debug : Bool)
    (hpart : model.partitionEvents events = some parts)
    (hgroups : ∀ g ∈ parts, CallsFirst (pick events g)) :
    Prepares model (eventPartitions debug model events)
      (∀ g ∈ parts, EventsLinearizable model (pick events g)) := by
  obtain ⟨conv, hparts, hconv⟩ := h.convert debug hpart
  refine ⟨parts.map conv, hparts, fun entries hmem => ?_, ?_⟩
  · obtain ⟨g, hg, rfl⟩ := List.mem_map.1 hmem
    have hgroup := h.partition.paired g hg
    exact ⟨_, hgroup.paired (hconv g hg), hgroup.callFirst (hconv g hg) (hgroups g hg),
      h.length_lt hg (hconv g hg)⟩
  · rw [List.forall_mem_map]
    exact forall₂_congr fun g hg => (h.partition.paired g hg).linearizable_iff (hconv g hg)

end Accepted

end Events

end Porcupine
