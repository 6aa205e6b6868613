import Porcupine.Parallel.Safety
/-!
# The verdict of a check

Without a timeout every schedule ends, with the verdict that the
partitions' searches call for (`Verdicts.returns`). A run in which the
timer has not fired can only end with that verdict too
(`Verdicts.Answered.eq_answer`).
-/

namespace Porcupine

open Transition

variable {State Input Output : Type} [BEq State] {debug : Bool} {model : Model State Input Output}
variable {partitions : List (List (Entry Input Output))}
variable {srt : UnstableSort (List (Entry Input Output))} {c c' : Check State Input Output}
variable {r : CheckResult} {flags : Flags} {N : ℕ}

namespace Verdicts

/-- **The verdict the partitions call for.** -/
def answer (V : Verdicts debug model partitions) : CheckResult :=
  if partitions.all V.verdict then .ok else .illegal

variable {V : Verdicts debug model partitions}

theorem answer_eq_ok : V.answer = .ok ↔ ∀ g ∈ partitions, V.verdict g = true := by
  simp [answer, List.all_eq_true]

theorem answer_eq_illegal : V.answer = .illegal ↔ ∃ g ∈ partitions, V.verdict g = false := by
  simp [answer, List.all_eq_true]

/-- Partitions that are all linearizable together call for one verdict. -/
theorem answer_eq_answer {model' : Model State Input Output}
    {partitions' : List (List (Entry Input Output))} {V' : Verdicts debug model' partitions'}
    (h : (∀ g ∈ partitions, V.verdict g = true) ↔ ∀ g ∈ partitions', V'.verdict g = true) :
    V'.answer = V.answer := by
  simp only [answer, List.all_eq_true, h]

/-- **A verdict returned before the timer fires is the one called for.** -/
theorem Answered.eq_answer (h : V.Answered flags r) (hto : flags.timedOut = false)
    (hdef : flags.definitiveIllegal = true → ∃ g ∈ partitions, V.verdict g = false) :
    r = V.answer := by
  cases r with
  | ok => exact (answer_eq_ok.2 (h.ok rfl)).symm
  | illegal => exact (answer_eq_illegal.2 (hdef (h.illegal.1 rfl))).symm
  | unknown =>
    have := h.unknown rfl
    rw [hto] at this
    cases this

end Verdicts

/-! ## Without a timeout -/

/-- A check that has no timer and gets none. -/
structure Untimed (c : Check State Input Output) : Prop where
  timer : c.timer = none
  timedOut : c.flags.timedOut = false
  timeout : ∀ t ps, c.main = .start t ps → t = none
  stage : c.stage ∈ [Stage.starting, .checking, .answering, .returned, .dead]

omit [BEq State] in
theorem Untimed.begin (ps : Result (List (List (Entry Input Output)))) :
    Untimed (Check.begin none ps : Check State Input Output) := by
  cases ps with
  | ok ps =>
    exact ⟨rfl, rfl, fun t ps h => (by cases h; rfl),
      by simp [Check.stage, Check.begin, Main.stage]⟩
  | error p =>
    exact ⟨rfl, rfl, fun t ps h => (by cases h), by simp [Check.stage, Check.begin, Main.stage]⟩

omit [BEq State] in
theorem Untimed.moves (h : Untimed c) (hm : Moves c c') : Untimed c' := by
  have hstage := h.stage
  -- a move that leaves the timer and the flags to a later stage
  have quiet : ∀ s, c'.stage = s → s ∈ [Stage.checking, .answering, .returned, .dead] →
      c'.timer = none → c'.flags.timedOut = false → Untimed c' := by
    intro s hs hmem ht hto
    refine ⟨ht, hto, fun t ps he => ?_, ?_⟩
    · rw [← hs, Check.stage_of_start he] at hmem
      simp at hmem
    · rw [hs]
      exact List.mem_cons_of_mem _ hmem
  cases hm with
  | spawn hc hc' hs =>
    have ht : c'.timer = none := by
      rw [hc', h.timeout _ _ hc]
      rfl
    have hto : c'.flags.timedOut = false := by
      rw [hc']
      exact h.timedOut
    rcases hs with hs | hs <;> exact quiet _ hs (by simp) ht hto
  | work hc hc' hto hs =>
    have ht : c'.timer = none := by
      rw [hc']
      exact h.timer
    have hto' := hto.trans h.timedOut
    rcases hs with hs | hs | ⟨-, hsome⟩ | ⟨hs, -⟩
    · exact quiet _ hs (by simp) ht hto'
    · exact quiet _ hs (by simp) ht hto'
    · rw [h.timer] at hsome
      cases hsome
    · exact quiet _ hs (by simp) ht hto'
  | answer hc hc' hs =>
    have ht : c'.timer = none := by
      rw [hc']
      exact h.timer
    have hto : c'.flags.timedOut = false := by
      rw [hc']
      exact h.timedOut
    rcases hs with hs | hs <;> exact quiet _ hs (by simp) ht hto
  | lock hc _ _ _ => simp [hc] at hstage
  | set hc _ _ => simp [hc] at hstage
  | unlock hc _ _ => simp [hc] at hstage
  | notify hc _ _ => simp [hc] at hstage

/-- Where there is no timer, only the checker's threads step. -/
theorem Untimed.step {choice : Choice} (h : Untimed c)
    (hs : (checker debug srt model).step choice c = some c') :
    (c.stepMain debug srt model = some c' ∨ (∃ i, c.stepWorker debug model i = some c') ∨
      ∃ i, c.stepSkip i = some c') ∧ Untimed c' := by
  cases choice with
  | main => exact ⟨Or.inl hs, h.moves (Check.stepMain_moves hs)⟩
  | worker i => exact ⟨Or.inr (Or.inl ⟨i, hs⟩), h.moves (Check.stepWorker_moves hs)⟩
  | skip i => exact ⟨Or.inr (Or.inr ⟨i, hs⟩), h.moves (Check.stepSkip_moves hs)⟩
  | timer => simp [checker, Check.stepTimer, h.timer] at hs
  | expire => simp [checker, Check.stepExpire, h.timer] at hs
  | spurious => simp [checker, Check.stepSpurious, h.timer] at hs
  | tick => simp [checker, Check.stepTick, h.timer] at hs

/-- **A check without a timer is never stuck** before it has returned. -/
theorem Untimed.progress (h : Untimed c) (hdead : ∀ p, c.main ≠ .panicked p)
    (hr : (checker debug srt model).result c = none) :
    ∃ choice c', (checker debug srt model).step choice c = some c' := by
  obtain ⟨flags, cancelled, lock, timer, main, clock⟩ := c
  have hstage := h.stage
  cases main with
  | start timeout ps => exact ⟨.main, _, rfl⟩
  | inline task rest =>
    refine ⟨.main, ?_⟩
    simp only [checker, Check.stepMain]
    cases task.step debug model flags with
    | ok x => exact ⟨_, rfl⟩
    | error p => exact ⟨_, rfl⟩
  | rayon tasks =>
    by_cases hfin : tasks.all Task.isFinished = true
    · exact ⟨.main, _, by simp only [checker, Check.stepMain, hfin, if_true]; rfl⟩
    · -- while `any` waits there is a closure that can step
      obtain ⟨task, hmem, hnf⟩ : ∃ task ∈ tasks, ¬ task.isFinished = true := by
        simpa [List.all_eq_true] using hfin
      obtain ⟨i, hi⟩ := List.getElem?_of_mem hmem
      refine ⟨.worker i, ?_⟩
      simp only [checker, Check.stepWorker, hi]
      cases task with
      | finished o => exact absurd rfl hnf
      | _ =>
        simp only
        split
        · exact ⟨_, rfl⟩
        · exact ⟨_, rfl⟩
  | joined ok => exact ⟨.main, _, rfl⟩
  -- there is nothing to cancel
  | cancelLock ok => simp [Check.stage, Main.stage] at hstage
  | cancelSet ok => simp [Check.stage, Main.stage] at hstage
  | cancelUnlock ok => simp [Check.stage, Main.stage] at hstage
  | cancelNotify ok => simp [Check.stage, Main.stage] at hstage
  | reading ok =>
    refine ⟨.main, ?_⟩
    simp only [checker, Check.stepMain]
    split
    · exact ⟨_, rfl⟩
    · exact ⟨_, rfl⟩
  | readTimedOut ok => exact ⟨.main, _, rfl⟩
  | returned r => cases hr
  | panicked p => exact absurd rfl (hdead p)

namespace Verdicts

variable {V : Verdicts debug model partitions}

/-- **Without a timeout every schedule ends, with the verdict that the
partitions call for.** -/
theorem returns (V : Verdicts debug model partitions)
    (srt : UnstableSort (List (Entry Input Output))) :
    (checker debug srt model).Returns V.answer (.begin none (.ok partitions)) := by
  refine Machine.returns_of_bound (I := fun N c => V.Sound N c ∧ Untimed c) ?_ _ _
    ⟨V.sound_begin none, Untimed.begin _⟩
  rintro N c ⟨hsound, huntimed⟩
  cases hr : (checker debug srt model).result c with
  | some r =>
    refine Or.inl ?_
    obtain ⟨flags, cancelled, lock, timer, main, clock⟩ := c
    cases main <;> cases hr
    have hanswered : V.Answered flags r := hsound.main
    rw [hanswered.eq_answer huntimed.timedOut hsound.definitive]
  | none =>
    have hdead : ∀ p, c.main ≠ .panicked p := fun p he => by
      have hmain := hsound.main
      rw [he] at hmain
      exact hmain
    refine Or.inr ⟨rfl, huntimed.progress hdead hr, fun choice c' hs => ?_⟩
    obtain ⟨hstep, huntimed'⟩ := huntimed.step hs
    rcases hstep with hs | ⟨i, hs⟩ | ⟨i, hs⟩
    · obtain ⟨n, hn, h'⟩ := hsound.main_step hs
      exact ⟨n, hn, h', huntimed'⟩
    · obtain ⟨n, hn, h'⟩ := hsound.worker_step hs
      exact ⟨n, hn, h', huntimed'⟩
    · obtain ⟨n, hn, h'⟩ := hsound.skip_step hs
      exact ⟨n, hn, h', huntimed'⟩

end Verdicts

end Porcupine
