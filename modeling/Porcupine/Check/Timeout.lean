import Porcupine.Check.Schedules
import Porcupine.Parallel.Deadline
/-!
# A timeout that does not expire

A check that cancels its timer before the duration has elapsed returns what
it would without one, unless the timer's wait returned for no reason before
that: the timer does not ask why it was woken, and takes it for the
deadline.
-/

namespace Porcupine

open Transition

variable {State Input Output : Type} [BEq State] {debug : Bool} {model : Model State Input Output}

/-- **A check in time returns one verdict**, the one it returns without a
timer. -/
theorem Halts.inTime {ps : Result (List (List (Entry Input Output)))} (h : Halts ps) (debug : Bool)
    (srt : UnstableSort (List (Entry Input Output))) (model : Model State Input Output) (d : ℕ) :
    ∃ r₀, (checker debug srt model).Returns r₀ (.begin none ps) ∧
      ∀ c r, (checker debug srt model).Reach
        (fun c choice => c.InTime d ∧ (choice = .spurious → c.cancelled = true))
        (.begin (some d) ps) c → (checker debug srt model).result c = some r → r = r₀ := by
  obtain ⟨partitions, rfl, hpaired⟩ := h
  obtain ⟨V⟩ := exists_verdicts_of_paired debug model hpaired
  exact ⟨V.answer, V.returns srt, fun c r hreach hr => V.eq_answer_of_inTime hreach hr⟩

/-- **A timeout that does not expire has no influence**, in every run in
which the timer's wait never returns for no reason before the cancel flag
is set. -/
theorem timeout_without_influence (debug : Bool) (srt : UnstableSort (List (Entry Input Output)))
    (model : Model State Input Output) (d : ℕ) :
    (∀ history : List (Operation Input Output), (∀ op ∈ history, op.call ≤ op.returnTime) →
      history.length ≤ 2 ^ 31 - 1 →
      (∀ parts, model.partition history = some parts →
        parts.flatten.Perm (List.range history.length) ∧ parts.length ≤ 2 ^ 32) →
      ∃ r₀, (checker debug srt model).Returns r₀ (checkOperations debug model history none) ∧
        ∀ c r, (checker debug srt model).Reach
          (fun c choice => c.InTime d ∧ (choice = .spurious → c.cancelled = true))
          (checkOperations debug model history (some d)) c →
        (checker debug srt model).result c = some r → r = r₀) ∧
    ∀ events : List (Event Input Output), assertWellFormedEvents true events = .ok () →
      events.length ≤ 2 * (2 ^ 31 - 1) →
      (∀ parts, model.partitionEvents events = some parts →
        assertPartitionEventsPaired true parts events = .ok ()) →
      ∃ r₀, (checker debug srt model).Returns r₀ (checkEvents debug model events none) ∧
        ∀ c r, (checker debug srt model).Reach
          (fun c choice => c.InTime d ∧ (choice = .spurious → c.cancelled = true))
          (checkEvents debug model events (some d)) c →
        (checker debug srt model).result c = some r → r = r₀ := by
  refine ⟨fun history hwf hsize hparts => ?_, fun events hgate hsize hparts => ?_⟩
  · have hprep : Prepares model (operationPartitions debug model history)
        (∀ g ∈ operationGroups model history, HistoryLinearizable model g) :=
      prepares_operationGroups debug hparts hwf (by omega)
    exact hprep.halts.inTime debug srt model d
  · have hlt : events.length < NONE := by
      rw [NONE]
      omega
    have hhalts : Halts (eventPartitions debug model events) := by
      cases hpart : model.partitionEvents events with
      | none =>
        obtain ⟨hp, hfirst⟩ := assertWellFormedEvents_iff.1 hgate
        exact (prepares_events debug hpart hp hfirst hlt).halts
      | some parts => exact (accepted_of_gate hgate hlt (hparts parts hpart)).halts debug hpart
    exact hhalts.inTime debug srt model d

/-- The timer waits, and the check runs to its end, one group after the
other. -/
def uninterrupted : List Choice := .main :: .timer :: .timer :: List.replicate 15 .main

theorem timeout_without_influence_twoKeys :
    (∃ r₀, (checker true (.insertion _) (KvEventPartitionModel List.reverse)).Returns r₀
        (checkOperations true (KvEventPartitionModel List.reverse) twoKeys none) ∧ .ok = r₀) ∧
    ∃ r₀, (checker true (.insertion _) (KvEventPartitionModel List.reverse)).Returns r₀
        (checkEvents true (KvEventPartitionModel List.reverse) twoKeysEvents none) ∧ .ok = r₀ := by
  -- no time passes, and the wait does not return
  have hP : ∀ (c : Check (Fin 256 → Option ℤ) KvInput ℤ) (choice : Choice),
      (decide (c.clock < 5) && decide (choice ≠ .spurious)) = true →
      c.InTime 5 ∧ (choice = .spurious → c.cancelled = true) := by
    intro c choice hp
    obtain ⟨hclock, hne⟩ := Bool.and_eq_true_iff.1 hp
    exact ⟨Or.inr (Or.inl (of_decide_eq_true hclock)), fun he => absurd he (of_decide_eq_true hne)⟩
  have hops : ((checker true (.insertion _) (KvEventPartitionModel List.reverse)).runs
      (fun c choice => decide (c.clock < 5) && decide (choice ≠ .spurious)) uninterrupted
      (checkOperations true (KvEventPartitionModel List.reverse) twoKeys (some 5))).bind
      (checker true (.insertion _) (KvEventPartitionModel List.reverse)).result = some .ok := by
    decide +kernel
  have hevents : ((checker true (.insertion _) (KvEventPartitionModel List.reverse)).runs
      (fun c choice => decide (c.clock < 5) && decide (choice ≠ .spurious)) uninterrupted
      (checkEvents true (KvEventPartitionModel List.reverse) twoKeysEvents (some 5))).bind
      (checker true (.insertion _) (KvEventPartitionModel List.reverse)).result = some .ok := by
    decide +kernel
  obtain ⟨c, hc, hr⟩ := Option.bind_eq_some_iff.1 hops
  obtain ⟨c', hc', hr'⟩ := Option.bind_eq_some_iff.1 hevents
  have h := timeout_without_influence true (.insertion _) (KvEventPartitionModel List.reverse) 5
  obtain ⟨r₀, hret, hall⟩ := h.1 twoKeys (by decide) (by decide) fun _ => twoKeys_partition
  obtain ⟨r₁, hret', hall'⟩ := h.2 twoKeysEvents (by decide) (by decide) fun _ hparts =>
    (twoKeysEvents_partition hparts).1
  exact ⟨⟨r₀, hret, hall c _ (.of_runs hP hc) hr⟩, r₁, hret', hall' c' _ (.of_runs hP hc') hr'⟩

/-- The timer's wait returns for no reason before the search has made a
single pass. -/
def wokenForNoReason : List Choice :=
  .main :: .timer :: .timer :: .spurious :: List.replicate 5 .timer ++ List.replicate 10 .main

/-- **A wake-up for no reason is taken for the deadline**: no time has
passed, and the check of a linearizable history returns `Unknown`. -/
theorem timeout_influences_overlapping :
    (∃ c, (checker true (.insertion _) RegisterModel).Reach (fun c _ => c.InTime 5)
        (checkOperations true RegisterModel overlapping (some 5)) c ∧
      (checker true (.insertion _) RegisterModel).result c = some .unknown) ∧
    (checker true (.insertion _) RegisterModel).Returns .ok
      (checkOperations true RegisterModel overlapping none) := by
  have hrun : ((checker true (.insertion _) RegisterModel).runs (fun c _ => decide (c.clock < 5))
      wokenForNoReason (checkOperations true RegisterModel overlapping (some 5))).bind
      (checker true (.insertion _) RegisterModel).result = some .unknown := by decide
  obtain ⟨c, hc, hr⟩ := Option.bind_eq_some_iff.1 hrun
  refine ⟨⟨c, .of_runs (fun _ _ hp => Or.inr (Or.inl (of_decide_eq_true hp))) hc, hr⟩, ?_⟩
  refine ((prepares_operations true rfl (by decide) (by decide)).decides
    RegisterModel.lawful_of_lawfulBEq).ok ⟨overlapping.reverse, List.reverse_perm _, ?_, rfl⟩
  simp [Linearization.Respects, overlapping, Operation.Before]

end Porcupine
