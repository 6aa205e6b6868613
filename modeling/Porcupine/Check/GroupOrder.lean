import Porcupine.Check.Precedence
/-!
# The order in which a partition lists its groups

`check_operations` sorts each group by time, so the order in which a
partition lists it does not matter. `check_events` takes the position in
the list for the time. The gate reads the lists as sets, so they may be in
any order; two partitions with the same groups get the same verdict if
they keep the precedence of the operations (`KeepsPrecedence`), and when
operations can be told apart, only then.
-/

namespace Porcupine

open Transition

variable {State Input Output : Type} {debug : Bool} {model : Model State Input Output}
variable {srt : UnstableSort (List (Entry Input Output))}
variable {events : List (Event Input Output)} {P Q : List (List ℕ)} {g g' : List ℕ}

/-- Every index list lists the calls of its events before their returns. -/
def ListsCallsFirst (events : List (Event Input Output)) (P : List (List ℕ)) : Prop :=
  ∀ g ∈ P, CallsFirst (pick events g)

section Verdict

variable [BEq State]

/-- The verdicts of the groups, and the one they call for. -/
theorem Accepted.exists_verdicts (h : Accepted events P) (debug : Bool)
    (srt : UnstableSort (List (Entry Input Output)))
    (hpart : model.partitionEvents events = some P) :
    ∃ (conv : List ℕ → List (Entry Input Output)) (V : Verdicts debug model (P.map conv)),
      (∀ g ∈ P, List.Forall₂ (IsEntryOf (pick events g)) (pick events g) (conv g)) ∧
      (∀ g ∈ P, ChecksTo debug model (conv g) (V.verdict (conv g))) ∧
      (checker debug srt model).Returns V.answer (checkEvents debug model events none) := by
  obtain ⟨conv, hparts, hconv⟩ := h.convert debug hpart
  obtain ⟨partitions, hparts', hpaired⟩ := h.halts debug hpart
  obtain rfl : P.map conv = partitions := Except.ok.inj (hparts.symm.trans hparts')
  obtain ⟨V⟩ := exists_verdicts_of_paired debug model hpaired
  refine ⟨conv, V, hconv, fun g hg => (V.checks _ (List.mem_map_of_mem hg)).checksTo, ?_⟩
  rw [checkEvents, hparts]
  exact V.returns srt

/-- **A return listed before its call is `Illegal`**, whatever the model and
its `==`. -/
theorem Accepted.returns_illegal (h : Accepted events P) (debug : Bool)
    (srt : UnstableSort (List (Entry Input Output)))
    (hpart : model.partitionEvents events = some P) (hlist : ¬ ListsCallsFirst events P) :
    (checker debug srt model).Returns .illegal (checkEvents debug model events none) := by
  obtain ⟨conv, V, hconv, hchecks, hret⟩ := h.exists_verdicts debug srt hpart
  have hill : V.answer = .illegal := by
    rw [Verdicts.answer_eq_illegal]
    by_contra hnone
    refine hlist fun g hg => ?_
    have htrue : V.verdict (conv g) = true := by
      by_contra hv
      exact hnone ⟨conv g, List.mem_map_of_mem hg, Bool.not_eq_true _ ▸ hv⟩
    have hgroup := h.partition.paired g hg
    refine hgroup.callsFirst_of_callFirst (hconv g hg) ?_
    exact (hgroup.paired (hconv g hg)).callFirst_of_checksTo (h.length_lt hg (hconv g hg))
      (htrue ▸ hchecks g hg)
  exact hill ▸ hret

/-- **With any partition the gate accepts** `check_events` decides whether
every index list lists its calls first and picks a linearizable history. -/
theorem Accepted.decides (h : Accepted events P) (debug : Bool)
    (srt : UnstableSort (List (Entry Input Output)))
    (hpart : model.partitionEvents events = some P) (hlaw : model.Lawful) :
    Decides (checker debug srt model) (checkEvents debug model events none)
      (ListsCallsFirst events P ∧ ∀ g ∈ P, EventsLinearizable model (pick events g)) := by
  by_cases hlist : ListsCallsFirst events P
  · exact ((h.prepares debug hpart hlist).decides hlaw).congr
      ⟨fun hlin => ⟨hlist, hlin⟩, fun hlin => hlin.2⟩
  · exact ⟨fun hlin => absurd hlin.1 hlist, fun _ => h.returns_illegal debug srt hpart hlist⟩

end Verdict

/-! ## Two partitions with the same groups -/

/-- **The same groups**, listed in any order, and their indices too. -/
def SameGroups (P Q : List (List ℕ)) : Prop := ∃ P', P.Perm P' ∧ List.Forall₂ List.Perm P' Q

/-- The groups of one and of the other that list the same indices order
their events of one kind and of another alike. -/
def SameOrders (events : List (Event Input Output)) (kind kind' : EventKind) (P Q : List (List ℕ)) :
    Prop :=
  ∀ g ∈ P, ∀ g' ∈ Q, g.Perm g' → SameOrder events kind kind' g g'

instance (kind kind' : EventKind) : Decidable (SameOrders events kind kind' P Q) :=
  inferInstanceAs (Decidable (∀ g ∈ P, ∀ g' ∈ Q, g.Perm g' → SameOrder events kind kind' g g'))

/-- **The index lists keep the precedence of the operations**: both list
every call before its return or neither does, and if they do, they list the
returns and the calls of each group in the same order. -/
def KeepsPrecedence (events : List (Event Input Output)) (P Q : List (List ℕ)) : Prop :=
  (ListsCallsFirst events P ↔ ListsCallsFirst events Q) ∧
    (ListsCallsFirst events P → SameOrders events .ret .call P Q)

/-- The model, with these index lists for a partition of events. -/
def Model.partitionedInto (model : Model State Input Output) (parts : List (List ℕ)) :
    Model State Input Output :=
  { model with partitionEvents := fun _ => some parts }

theorem Model.partitionEvents_partitionedInto (model : Model State Input Output)
    (parts : List (List ℕ)) (events : List (Event Input Output)) :
    (model.partitionedInto parts).partitionEvents events = some parts := rfl

/-- `check_events` returns the same verdict with the one partition as with
the other. -/
def SameResult [BEq State] (debug : Bool) (srt : UnstableSort (List (Entry Input Output)))
    (model : Model State Input Output) (events : List (Event Input Output)) (P Q : List (List ℕ)) :
    Prop :=
  ∃ r, (checker debug srt (model.partitionedInto P)).Returns r
      (checkEvents debug (model.partitionedInto P) events none) ∧
    (checker debug srt (model.partitionedInto Q)).Returns r
      (checkEvents debug (model.partitionedInto Q) events none)

namespace SameGroups

theorem symm (h : SameGroups P Q) : SameGroups Q P := by
  obtain ⟨P', hperm, hall⟩ := h
  obtain ⟨Q', hall', hperm'⟩ := List.perm_comp_forall₂ hperm hall
  exact ⟨Q', hperm'.symm, hall'.flip.imp fun _ _ => .symm⟩

theorem exists_perm (h : SameGroups P Q) (hg : g ∈ P) : ∃ g' ∈ Q, g.Perm g' := by
  obtain ⟨P', hperm, hall⟩ := h
  obtain ⟨i, hi, rfl⟩ := List.getElem_of_mem (hperm.mem_iff.1 hg)
  have hi' : i < Q.length := hall.length_eq ▸ hi
  exact ⟨Q[i], List.getElem_mem hi', hall.get hi hi'⟩

/-- What matching groups agree on holds of all of the one or of all of the
other. -/
theorem forall_iff (h : SameGroups P Q) {p q : List ℕ → Prop}
    (hpq : ∀ g ∈ P, ∀ g' ∈ Q, g.Perm g' → (p g ↔ q g')) : (∀ g ∈ P, p g) ↔ ∀ g ∈ Q, q g := by
  constructor
  · intro hall g' hg'
    obtain ⟨g, hg, hperm⟩ := h.symm.exists_perm hg'
    exact (hpq g hg g' hg' hperm.symm).1 (hall g hg)
  · intro hall g hg
    obtain ⟨g', hg', hperm⟩ := h.exists_perm hg
    exact (hpq g hg g' hg' hperm).2 (hall g' hg')

end SameGroups

theorem Accepted.relisted (h : Accepted events P) (hg : g ∈ P) (hperm : g.Perm g') :
    Relisted events g g' where
  perm := hperm
  nodup := (List.nodup_flatten.1 (h.partition.covers.nodup_iff.2 List.nodup_range)).1 g hg
  lt := lt_of_covers h.partition.covers g hg
  paired := h.partition.paired g hg

section SameResult

variable [BEq State] (hP : Accepted events P) (hQ : Accepted events Q) (hsame : SameGroups P Q)
  (hkeep : KeepsPrecedence events P Q)

include hP hQ hsame hkeep

/-- **Keeping the precedence is enough** where `==` is lawful, -/
theorem sameResult_of_lawful (debug : Bool) (srt : UnstableSort (List (Entry Input Output)))
    (hlaw : model.Lawful) : SameResult debug srt model events P Q := by
  have hdecP := hP.decides debug srt (model.partitionEvents_partitionedInto P events) hlaw
  have hdecQ := hQ.decides debug srt (model.partitionEvents_partitionedInto Q events) hlaw
  refine (hdecP.congr ?_).agree hdecQ
  rw [← hkeep.1]
  refine and_congr_right fun hlist => hsame.forall_iff fun g hg g' hg' hperm => ?_
  exact (hP.relisted hg hperm).eventsLinearizable_iff (hkeep.2 hlist g hg g' hg' hperm)

/-- and with the order of the calls kept as well, whatever `==` is. -/
theorem sameResult_of_sameOrders (debug : Bool) (srt : UnstableSort (List (Entry Input Output)))
    (hcalls : SameOrders events .call .call P Q) : SameResult debug srt model events P Q := by
  by_cases hlist : ListsCallsFirst events P
  · obtain ⟨conv, V, hconv, hchecks, hret⟩ :=
      hP.exists_verdicts debug srt (model.partitionEvents_partitionedInto P events)
    obtain ⟨conv', V', hconv', hchecks', hret'⟩ :=
      hQ.exists_verdicts debug srt (model.partitionEvents_partitionedInto Q events)
    have hall : (∀ e ∈ P.map conv, V.verdict e = true) ↔ ∀ e ∈ Q.map conv', V'.verdict e = true := by
      rw [List.forall_mem_map, List.forall_mem_map]
      refine hsame.forall_iff fun g hg g' hg' hperm => ?_
      have hinit : (model.partitionedInto Q).init = (model.partitionedInto P).init := rfl
      have hstep : (model.partitionedInto Q).step = (model.partitionedInto P).step := rfl
      have heq := (hP.relisted hg hperm).checksTo_eq (hlist g hg) (hkeep.1.1 hlist g' hg')
        (hkeep.2 hlist g hg g' hg' hperm) (hcalls g hg g' hg' hperm) (hconv g hg) (hconv' g' hg')
        (hP.length_lt hg (hconv g hg)) hinit hstep (hchecks g hg) (hchecks' g' hg')
      rw [heq]
    exact ⟨V.answer, hret, Verdicts.answer_eq_answer hall ▸ hret'⟩
  · have hlist' : ¬ ListsCallsFirst events Q := fun h => hlist (hkeep.1.2 h)
    exact ⟨.illegal, hP.returns_illegal debug srt rfl hlist, hQ.returns_illegal debug srt rfl hlist'⟩

end SameResult

/-- **Where operations can be told apart, nothing less will do.** -/
theorem keepsPrecedence_of_sameResult (hP : Accepted events P) (hQ : Accepted events Q)
    (hdist : Distinguishable events)
    (hall : ∀ (State : Type) [BEq State] (model : Model State Input Output), model.Lawful →
      SameResult debug srt model events P Q) : KeepsPrecedence events P Q := by
  -- what the one partition decides the other decides, for every model
  have hiff : ∀ {State : Type} [BEq State] [LawfulBEq State] (model : Model State Input Output),
      (ListsCallsFirst events P ∧ ∀ g ∈ P, EventsLinearizable model (pick events g)) ↔
        ListsCallsFirst events Q ∧ ∀ g ∈ Q, EventsLinearizable model (pick events g) := by
    intro State _ _ model
    have hlaw := model.lawful_of_lawfulBEq
    have hdecP := hP.decides debug srt (model.partitionEvents_partitionedInto P events) hlaw
    have hdecQ := hQ.decides debug srt (model.partitionEvents_partitionedInto Q events) hlaw
    obtain ⟨r, hr, hr'⟩ := hall State model hlaw
    exact hdecP.iff_of_returns hdecQ hr hr'
  have hlists : ListsCallsFirst events P ↔ ListsCallsFirst events Q := by
    have hacc := hiff (Model.accepting Input Output)
    rwa [and_iff_left_of_imp fun hl g hg =>
        eventsLinearizable_accepting (hP.partition.paired g hg) (hl g hg),
      and_iff_left_of_imp fun hl g hg =>
        eventsLinearizable_accepting (hQ.partition.paired g hg) (hl g hg)] at hacc
  refine ⟨hlists, fun hlist g hg g' hg' hperm r hr c hc ⟨evr, hevr, hkr⟩ ⟨evc, hevc, hkc⟩ => ?_⟩
  have hlist' := hlists.1 hlist
  have hr' := hperm.mem_iff.1 hr
  have hc' := hperm.mem_iff.1 hc
  by_cases hid : evr.id = evc.id
  · exact iff_of_false (hP.not_idxOf_lt hlist hg hr hc hevr hevc hkr hkc hid)
      (hQ.not_idxOf_lt hlist' hg' hr' hc' hevr hevc hkr hkc hid)
  · obtain ⟨entries, -, hent, -⟩ := hP.paired.convert
    have hops := hP.paired.operationsOf hent
    obtain ⟨a, -, ha⟩ := hops.exists_mem ⟨evr, List.mem_of_getElem? hevr, rfl⟩
    obtain ⟨b, -, hb⟩ := hops.exists_mem ⟨evc, List.mem_of_getElem? hevc, rfl⟩
    have hrefuse := hiff (Model.refusing a.io b.io)
    rw [and_iff_right hlist, and_iff_right hlist',
      hP.forall_refusing_iff hlist hdist hg hr hc hevr hevc hkr hkc hid ha hb,
      hQ.forall_refusing_iff hlist' hdist hg' hr' hc' hevr hevc hkr hkc hid ha hb] at hrefuse
    exact not_iff_not.1 hrefuse

/-- **`check_events` returns the same verdict with two partitions into the
same groups if they keep the precedence of the operations**, and `==` is
lawful or they keep the order of the calls. For operations that can be told
apart it does so for every lawful model only then. -/
theorem checkEvents_groupOrder (debug : Bool) (srt : UnstableSort (List (Entry Input Output)))
    (events : List (Event Input Output)) (P Q : List (List ℕ))
    (hgate : assertWellFormedEvents true events = .ok ())
    (hsize : events.length ≤ 2 * (2 ^ 31 - 1))
    (hP : assertPartitionEventsPaired true P events = .ok ())
    (hQ : assertPartitionEventsPaired true Q events = .ok ()) (hsame : SameGroups P Q) :
    (KeepsPrecedence events P Q →
      ∀ (State : Type) [BEq State] (model : Model State Input Output),
        model.Lawful ∨ SameOrders events .call .call P Q →
        SameResult debug srt model events P Q) ∧
    (Distinguishable events →
      (∀ (State : Type) [BEq State] (model : Model State Input Output), model.Lawful →
        SameResult debug srt model events P Q) → KeepsPrecedence events P Q) := by
  have hlt : events.length < NONE := by
    rw [NONE]
    omega
  have haccP := accepted_of_gate hgate hlt hP
  have haccQ := accepted_of_gate hgate hlt hQ
  refine ⟨fun hkeep State _ model hmodel => ?_,
    fun hdist hall => keepsPrecedence_of_sameResult haccP haccQ hdist hall⟩
  rcases hmodel with hlaw | hcalls
  · exact sameResult_of_lawful haccP haccQ hsame hkeep debug srt hlaw
  · exact sameResult_of_sameOrders haccP haccQ hsame hkeep debug srt hcalls

theorem checkEvents_groupOrder_readAndWrite :
    SameResult true (.insertion _) RegisterModel readAndWriteEvents [[0, 1, 2, 3]] [[1, 0, 3, 2]] ∧
    KeepsPrecedence readAndWriteEvents [[0, 1, 2, 3]] [[1, 0, 3, 2]] := by
  have h := checkEvents_groupOrder true (.insertion _) readAndWriteEvents [[0, 1, 2, 3]]
    [[1, 0, 3, 2]] (by decide) (by decide) (by decide) (by decide)
    ⟨_, .refl _, .cons (by decide) .nil⟩
  have hlist : ListsCallsFirst readAndWriteEvents [[0, 1, 2, 3]] := fun g hg => by
    rw [List.mem_singleton.1 hg]
    exact (assertWellFormedEvents_iff.1 (by decide)).2
  have hlist' : ListsCallsFirst readAndWriteEvents [[1, 0, 3, 2]] := fun g hg => by
    rw [List.mem_singleton.1 hg]
    exact (assertWellFormedEvents_iff.1 (by decide)).2
  have hkeep : KeepsPrecedence readAndWriteEvents [[0, 1, 2, 3]] [[1, 0, 3, 2]] :=
    ⟨iff_of_true hlist hlist', fun _ => by decide⟩
  exact ⟨h.1 hkeep ℤ RegisterModel (.inl RegisterModel.lawful_of_lawfulBEq),
    h.2 (distinguishable_of_inputs (by decide)) fun State _ model hlaw =>
      h.1 hkeep State model (.inl hlaw)⟩

/-- A write, and then a read of what it wrote. -/
def writeThenReadEvents : List (Event RegisterInput ℤ) :=
  [⟨0, .call, some ⟨true, 7⟩, none, 0⟩, ⟨0, .ret, none, some 0, 0⟩,
    ⟨0, .call, some ⟨false, 0⟩, none, 1⟩, ⟨0, .ret, none, some 7, 1⟩]

/-- **The order of the indices decides.** The gate accepts both lists of the
one group; the history is linearizable as the first lists it, and not as
the second does. -/
theorem checkEvents_groupOrder_writeThenRead :
    assertWellFormedEvents true writeThenReadEvents = .ok () ∧
    assertPartitionEventsPaired true [[0, 1, 2, 3]] writeThenReadEvents = .ok () ∧
    assertPartitionEventsPaired true [[2, 3, 0, 1]] writeThenReadEvents = .ok () ∧
    SameGroups [[0, 1, 2, 3]] [[2, 3, 0, 1]] ∧ RegisterModel.Lawful ∧
    ¬ SameResult true (.insertion _) RegisterModel writeThenReadEvents [[0, 1, 2, 3]]
      [[2, 3, 0, 1]] := by
  refine ⟨by decide, by decide, by decide, ⟨_, .refl _, .cons (by decide) .nil⟩,
    RegisterModel.lawful_of_lawfulBEq, ?_⟩
  rintro ⟨r, hret, hret'⟩
  have hok : .ok = r := hret.eq_of_runs (.replicate 7 .main) (by decide)
  have hill : .illegal = r := hret'.eq_of_runs (.replicate 8 .main) (by decide)
  cases hok.trans hill.symm

end Porcupine
