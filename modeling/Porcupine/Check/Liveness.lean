import Porcupine.Check.Halting
import Porcupine.Parallel.Progress
import Porcupine.Parallel.Verdict
import Mathlib.Data.Nat.Pairing
/-!
# A check with a timeout ends too

With a timer the schedules are no longer finite: time may pass for ever.
But no schedule has more than a bounded number of other steps, and until
the check has returned one of its threads can step, so a schedule that
offers every thread a step again and again comes to a result
(`fair_schedules_return`), the one without a timer or `Unknown`. If time
passes as well, its timer thread exits, whether or not a notification has
found it (`fair_schedules_end_timer`).
-/

namespace Porcupine

open Transition

variable {State Input Output : Type} {c c' : Check State Input Output}

/-- A step that a thread of the check takes by itself. -/
def Choice.isThread : Choice → Bool
  | .main | .worker _ | .timer => true
  | _ => false

/-- A step of a thread, the passing of time and what it brings about. -/
def Choice.isThreadOrTime : Choice → Bool
  | .main | .worker _ | .timer | .expire | .tick => true
  | _ => false

/-- The timer thread has exited, or was never spawned. -/
def Check.TimerGone (c : Check State Input Output) : Prop :=
  ∀ t, c.timer = some t → t = .exited

section Steps

variable [BEq State] {debug : Bool} {model : Model State Input Output}
variable {srt : UnstableSort (List (Entry Input Output))}
variable {partitions : List (List (Entry Input Output))} {V : Verdicts debug model partitions}
variable {n : ℕ} {choice : Choice}

/-- **The passing of time disables no thread.** -/
theorem enabled_tick (hthread : choice.isThread = true)
    (hs : ((checker debug srt model).step choice c).isSome = true) :
    ((checker debug srt model).step choice { c with clock := c.clock + 1 }).isSome = true := by
  obtain ⟨flags, cancelled, lock, timer, main, clock⟩ := c
  cases choice with
  | main =>
    cases main with
    | inline task rest =>
      simp only [checker, Check.stepMain]
      split <;> rfl
    | rayon tasks =>
      simp only [checker, Check.stepMain] at hs ⊢
      split at hs
      · next hfin =>
        rw [if_pos hfin]
        rfl
      · cases hs
    | cancelLock ok =>
      simp only [checker, Check.stepMain] at hs ⊢
      split at hs
      · next hfree =>
        rw [if_pos hfree]
        rfl
      · cases hs
    | reading ok =>
      simp only [checker, Check.stepMain]
      split <;> rfl
    | _ => exact hs
  | worker i =>
    cases main with
    | rayon tasks =>
      simp only [checker, Check.stepWorker] at hs ⊢
      split at hs
      · cases hs
      · cases hs
      · split <;> rfl
    | _ => exact hs
  | timer =>
    cases timer with
    | none => exact hs
    | some t =>
      cases t with
      | started d =>
        simp only [checker, Check.stepTimer] at hs ⊢
        split at hs
        · next hfree =>
          rw [if_pos hfree]
          rfl
        · cases hs
      | woken =>
        simp only [checker, Check.stepTimer] at hs ⊢
        split at hs
        · next hfree =>
          rw [if_pos hfree]
          rfl
        · cases hs
      | _ => exact hs
  | _ => cases hthread

/-- A check that has not returned has a thread that can step. -/
theorem Advancing.exists_thread (h : Advancing V n c)
    (hr : (checker debug srt model).result c = none) :
    ∃ choice : Choice, choice.isThread = true ∧
      ((checker debug srt model).step choice c).isSome = true := by
  obtain ⟨N, -, hmutex, -⟩ := id h
  rcases hmutex.progress h.not_panicked hr with ⟨c', hs⟩ | ⟨i, c', hs⟩ | ⟨c', hs⟩
  · exact ⟨.main, rfl, Option.isSome_iff_exists.2 ⟨c', hs⟩⟩
  · exact ⟨.worker i, rfl, Option.isSome_iff_exists.2 ⟨c', hs⟩⟩
  · exact ⟨.timer, rfl, Option.isSome_iff_exists.2 ⟨c', hs⟩⟩

/-- A step of a thread is none of time. -/
theorem Choice.ne_tick_of_isThread (h : choice.isThread = true) : choice ≠ .tick := by
  rintro rfl
  cases h

/-- **A step other than the passing of time**, as the rules for fair
schedules want it. -/
theorem Advancing.lower (h : Advancing V n c) (hne : choice ≠ .tick)
    (hs : (checker debug srt model).step choice c = some c') : ∃ m < n, Advancing V m c' := by
  have hstep := h.step hs
  rwa [if_pos hne] at hstep

/-- **Every schedule that is fair to the threads returns.** -/
theorem Advancing.returns (h : Advancing V n c) {sched : ℕ → Choice}
    (hfair : Machine.Fair (fun choice => choice.isThread = true) sched) :
    ∃ k r, (checker debug srt model).result ((checker debug srt model).trace sched c k) = some r := by
  have hreach := Machine.reaches_of_helpful (M := checker debug srt model) (Advancing V)
    (fun choice => choice.isThread = true)
    (fun c choice => choice.isThread = true ∧
      ((checker debug srt model).step choice c).isSome = true)
    (fun c => (checker debug srt model).result c ≠ none) ?_ ?_ ?_ hfair h
  · obtain ⟨k, hk⟩ := hreach
    exact ⟨k, Option.ne_none_iff_exists'.1 hk⟩
  · rintro n c choice h ⟨hthread, hsome⟩
    obtain ⟨c', hs⟩ := Option.isSome_iff_exists.1 hsome
    exact ⟨c', hs, h.lower (Choice.ne_tick_of_isThread hthread) hs⟩
  · intro n c choice c' h hs
    by_cases hne : choice = .tick
    · subst hne
      obtain ⟨-, rfl⟩ := Check.stepTick_eq_some.1 hs
      exact Or.inr ⟨h.step hs, fun d hd => ⟨hd.1, enabled_tick hd.1 hd.2⟩⟩
    · exact Or.inl (h.lower hne hs)
  · intro n c h hnot
    exact (h.exists_thread (not_not.1 hnot)).imp fun choice hc => ⟨hc.1, hc⟩

omit [BEq State] in
/-- Outside the mutex the timer thread is held up by nobody else: it has
exited, or waits, or can step. -/
theorem Check.Mutex.timer_cases (h : c.Mutex) (hfree : c.stage.holdsLock = false) {t : Timer}
    (ht : c.timer = some t) :
    t = .exited ∨ (∃ deadline, t = .waiting deadline) ∨ c.stepTimer.isSome = true := by
  have step : ∀ {c' : Check State Input Output}, c.stepTimer = some c' →
      t = .exited ∨ (∃ deadline, t = .waiting deadline) ∨ c.stepTimer.isSome = true :=
    fun hs => Or.inr (Or.inr (Option.isSome_iff_exists.2 ⟨_, hs⟩))
  -- the mutex it is about to take is free
  have unlocked : t.holdsLock = false → c.lock = none := by
    intro hout
    cases hl : c.lock with
    | none => rfl
    | some owner =>
      cases owner with
      | checker =>
        rw [h.checker.1 hl] at hfree
        cases hfree
      | timer =>
        obtain ⟨u, hu, hholds⟩ := h.timer.1 hl
        rw [ht] at hu
        cases hu
        rw [hout] at hholds
        cases hholds
  cases t with
  | started d =>
    have hs : c.stepTimer = some { c with lock := some .timer, timer := some (.locked d) } := by
      simp [Check.stepTimer, ht, unlocked rfl]
    exact step hs
  | woken =>
    have hs : c.stepTimer = some { c with lock := some .timer, timer := some .checking } := by
      simp [Check.stepTimer, ht, unlocked rfl]
    exact step hs
  | waiting deadline => exact Or.inr (Or.inl ⟨deadline, rfl⟩)
  | exited => exact Or.inl rfl
  | _ =>
    obtain ⟨c', hs⟩ := Check.Mutex.timer_steps ht rfl
    exact step hs

/-- **What brings the end of the check and of its timer thread nearer**: a
step of a thread, the end of a wait that is due, and the passing of time
in one that is not. -/
inductive Helps (debug : Bool) (srt : UnstableSort (List (Entry Input Output)))
    (model : Model State Input Output) (c : Check State Input Output) : Choice → Prop
  /-- A thread steps. -/
  | thread {choice : Choice} : choice.isThread = true →
      ((checker debug srt model).step choice c).isSome = true → Helps debug srt model c choice
  /-- The wait is due. -/
  | expire {deadline : ℕ} : c.timer = some (.waiting deadline) → deadline ≤ c.clock →
      Helps debug srt model c .expire
  /-- The wait is not due yet. -/
  | tick {deadline : ℕ} : c.timer = some (.waiting deadline) → c.clock < deadline →
      Helps debug srt model c .tick

/-- Time that passes in a wait that is not due brings its end nearer. -/
theorem Advancing.lower_tick (h : Advancing V n c) {deadline : ℕ}
    (ht : c.timer = some (.waiting deadline)) (hlt : c.clock < deadline) :
    ∃ m < n, Advancing V m { c with clock := c.clock + 1 } := by
  obtain ⟨N, hsound, hmutex, hN⟩ := h
  have hlow := timerLeft_tick_lt hmutex ht hlt
  have hsome : c.timer.isSome = true := by rw [ht]; rfl
  exact ⟨_, by omega, N, hsound.of_timer _ _ hsome (.refl _) hsound.justified rfl hsound.killing _
    rfl rfl rfl, ⟨hmutex.unstarted, hmutex.checker, hmutex.timer⟩, le_rfl⟩

/-- Whatever helps can be done, and does. -/
theorem Advancing.helps (h : Advancing V n c) (hc : Helps debug srt model c choice) :
    ∃ c', (checker debug srt model).step choice c = some c' ∧ ∃ m < n, Advancing V m c' := by
  cases hc with
  | thread hthread hsome =>
    obtain ⟨c', hs⟩ := Option.isSome_iff_exists.1 hsome
    exact ⟨c', hs, h.lower (Choice.ne_tick_of_isThread hthread) hs⟩
  | expire ht hle =>
    have hs : (checker debug srt model).step .expire c = some { c with timer := some .woken } :=
      Check.stepExpire_eq_some.2 ⟨_, ht, hle, rfl⟩
    exact ⟨_, hs, h.lower (by decide : Choice.expire ≠ .tick) hs⟩
  | tick ht hlt =>
    have hs : (checker debug srt model).step .tick c = some { c with clock := c.clock + 1 } :=
      Check.stepTick_eq_some.2 ⟨by rw [ht]; rfl, rfl⟩
    exact ⟨_, hs, h.lower_tick ht hlt⟩

/-- **What helps goes on helping** until something has. -/
theorem Advancing.helps_stay (h : Advancing V n c)
    (hs : (checker debug srt model).step choice c = some c') :
    (∃ m < n, Advancing V m c') ∨
      Advancing V n c' ∧ ∀ d, Helps debug srt model c d → Helps debug srt model c' d := by
  by_cases hne : choice = .tick
  · subst hne
    obtain ⟨-, rfl⟩ := Check.stepTick_eq_some.1 hs
    by_cases hwait : ∃ deadline, c.timer = some (.waiting deadline) ∧ c.clock < deadline
    · obtain ⟨deadline, ht, hlt⟩ := hwait
      exact Or.inl (h.lower_tick ht hlt)
    · refine Or.inr ⟨h.step hs, fun d hd => ?_⟩
      cases hd with
      | thread hthread hsome => exact .thread hthread (enabled_tick hthread hsome)
      | expire ht hle => exact .expire ht (Nat.le_succ_of_le hle)
      | tick ht hlt => exact absurd ⟨_, ht, hlt⟩ hwait
  · exact Or.inl (h.lower hne hs)

/-- While the check has not returned or its timer thread is there, something
helps. -/
theorem Advancing.exists_helps (h : Advancing V n c)
    (hnot : ¬ ((checker debug srt model).result c ≠ none ∧ c.TimerGone)) :
    ∃ choice : Choice, choice.isThreadOrTime = true ∧ Helps debug srt model c choice := by
  cases hr : (checker debug srt model).result c with
  | none =>
    obtain ⟨choice, hthread, hsome⟩ := h.exists_thread hr
    refine ⟨choice, ?_, .thread hthread hsome⟩
    cases choice <;> first | rfl | cases hthread
  | some r =>
    have hgone : ¬ c.TimerGone := fun hgone => hnot ⟨by rw [hr]; nofun, hgone⟩
    obtain ⟨t, ht, hne⟩ : ∃ t, c.timer = some t ∧ t ≠ .exited := by
      simpa [Check.TimerGone] using hgone
    have hstage : c.stage.holdsLock = false := by
      simp only [checker, Check.result] at hr
      split at hr
      · next hmain => rw [Check.stage, hmain]; rfl
      · cases hr
    obtain ⟨N, -, hmutex, -⟩ := h
    rcases hmutex.timer_cases hstage ht with rfl | ⟨deadline, rfl⟩ | hsome
    · exact absurd rfl hne
    · by_cases hdue : deadline ≤ c.clock
      · exact ⟨.expire, rfl, .expire ht hdue⟩
      · exact ⟨.tick, rfl, .tick ht (Nat.lt_of_not_le hdue)⟩
    · exact ⟨.timer, rfl, .thread rfl hsome⟩

/-- **Every schedule that is fair to the threads and to time ends the timer
thread**, too. -/
theorem Advancing.ends_timer (h : Advancing V n c) {sched : ℕ → Choice}
    (hfair : Machine.Fair (fun choice => choice.isThreadOrTime = true) sched) :
    ∃ k, (checker debug srt model).result ((checker debug srt model).trace sched c k) ≠ none ∧
      ((checker debug srt model).trace sched c k).TimerGone :=
  Machine.reaches_of_helpful (Advancing V) (fun choice => choice.isThreadOrTime = true)
    (Helps debug srt model)
    (fun c => (checker debug srt model).result c ≠ none ∧ c.TimerGone)
    (fun _ _ _ h hc => h.helps hc) (fun _ _ _ _ h hs => h.helps_stay hs)
    (fun _ _ h hnot => h.exists_helps hnot) hfair h

/-- What any schedule returns is the verdict of the partitions, or
`Unknown`. -/
theorem Verdicts.Answered.eq_or_unknown {flags : Flags} {r : CheckResult} (h : V.Answered flags r)
    (hdef : flags.definitiveIllegal = true → ∃ g ∈ partitions, V.verdict g = false) :
    r = V.answer ∨ r = .unknown := by
  cases r with
  | ok => exact Or.inl (Verdicts.answer_eq_ok.2 (h.ok rfl)).symm
  | illegal => exact Or.inl (Verdicts.answer_eq_illegal.2 (hdef (h.illegal.1 rfl))).symm
  | unknown => exact Or.inr rfl

end Steps

/-! ## Checks with a timeout -/

section Timed

variable [BEq State]

/-- **How a check with a timeout ends**: `r₀` is what it returns without
one. -/
structure EndsWell (debug : Bool) (srt : UnstableSort (List (Entry Input Output)))
    (model : Model State Input Output) (timeout : Option ℕ)
    (ps : Result (List (List (Entry Input Output)))) (N : ℕ) (r₀ : CheckResult) : Prop where
  untimed : (checker debug srt model).Returns r₀ (.begin none ps)
  /-- No run has more than `N` steps besides the passing of time. -/
  bounded : ∀ cs c,
    (checker debug srt model).runs (fun _ _ => true) cs (.begin timeout ps) = some c →
    cs.countP (fun choice => decide (choice ≠ .tick)) ≤ N
  /-- Every schedule that is fair to the threads returns. -/
  returns : ∀ sched, Machine.Fair (fun choice : Choice => choice.isThread = true) sched →
    ∃ k r, (checker debug srt model).result
      ((checker debug srt model).trace sched (.begin timeout ps) k) = some r
  /-- And nothing else is ever returned. -/
  agrees : ∀ c r, (checker debug srt model).Reachable (.begin timeout ps) c →
    (checker debug srt model).result c = some r → r = r₀ ∨ r = .unknown

/-- **Searches that return end well**, with a timeout too. -/
theorem Halts.endsWell {ps : Result (List (List (Entry Input Output)))} (h : Halts ps)
    (debug : Bool) (srt : UnstableSort (List (Entry Input Output)))
    (model : Model State Input Output) (timeout : Option ℕ) :
    ∃ N r₀, EndsWell debug srt model timeout ps N r₀ := by
  obtain ⟨partitions, rfl, hpair⟩ := h
  obtain ⟨V⟩ := exists_verdicts_of_paired debug model hpair
  refine ⟨V.total partitions + 9 + (timeout.map (· + 9)).getD 0, V.answer, V.returns srt,
    fun cs c hrun => ?_, fun sched hfair => (advancing_begin V timeout).returns hfair,
    fun c r hreach hr => ?_⟩
  · refine Machine.countP_le_of_runs (I := Advancing V) (fun n c choice c' h hs => ?_)
      (advancing_begin V timeout) hrun
    simpa only [decide_eq_true_eq] using h.step hs
  · obtain ⟨N, hsound⟩ := V.sound_of_reachable hreach
    exact (V.answered_of_reachable hreach hr).eq_or_unknown hsound.definitive

/-- **A check of accepted input ends under every fair schedule**, with or
without a timeout, whatever the model and its `==`: the steps besides the
passing of time are bounded, a schedule that offers the threads their steps
again and again returns, and all that is ever returned is the verdict
without a timeout, or `Unknown`. -/
theorem fair_schedules_return (debug : Bool) (srt : UnstableSort (List (Entry Input Output)))
    (model : Model State Input Output) (timeout : Option ℕ) :
    (∀ history : List (Operation Input Output), (∀ op ∈ history, op.call ≤ op.returnTime) →
      OperationsFit model history →
      ∃ N r₀, EndsWell debug srt model timeout (operationPartitions debug model history) N r₀) ∧
    ∀ events : List (Event Input Output), assertWellFormedEvents true events = .ok () →
      EventsFit model events →
      ∃ N r₀, EndsWell debug srt model timeout (eventPartitions debug model events) N r₀ :=
  ⟨fun _ hwf hfit => (hfit.halts hwf debug).endsWell debug srt model timeout,
    fun _ hgate hfit => (hfit.halts hgate debug).endsWell debug srt model timeout⟩

/-- Two overlapping operations, as a history and as events. -/
theorem fair_schedules_return_overlapping :
    (∃ N r₀, EndsWell true (.insertion _) RegisterModel (some 5)
      (operationPartitions true RegisterModel overlapping) N r₀) ∧
    ∃ N r₀, EndsWell true (.insertion _) RegisterModel (some 5)
      (eventPartitions true RegisterModel readAndWriteEvents) N r₀ := by
  have h := fair_schedules_return true (.insertion _) RegisterModel (some 5)
  exact ⟨h.1 overlapping (by decide) ⟨fun _ => by decide, nofun⟩,
    h.2 readAndWriteEvents (by decide) ⟨fun _ => by decide, nofun⟩⟩

/-- **No timer thread outlives its check for ever**: a schedule that is fair
to the threads and to time comes to a moment at which the check has
returned and its timer thread has exited, even one that no notification
has found waiting. -/
theorem fair_schedules_end_timer (debug : Bool) (srt : UnstableSort (List (Entry Input Output)))
    (model : Model State Input Output) (timeout : Option ℕ) (sched : ℕ → Choice)
    (hfair : Machine.Fair (fun choice : Choice => choice.isThreadOrTime = true) sched) :
    (∀ history : List (Operation Input Output), (∀ op ∈ history, op.call ≤ op.returnTime) →
      OperationsFit model history →
      ∃ c k, (checker debug srt model).trace sched
          (checkOperations debug model history timeout) k = c ∧
        (checker debug srt model).result c ≠ none ∧ c.TimerGone) ∧
    ∀ events : List (Event Input Output), assertWellFormedEvents true events = .ok () →
      EventsFit model events →
      ∃ c k, (checker debug srt model).trace sched (checkEvents debug model events timeout) k = c ∧
        (checker debug srt model).result c ≠ none ∧ c.TimerGone := by
  have ends : ∀ ps : Result (List (List (Entry Input Output))), Halts ps →
      ∃ c k, (checker debug srt model).trace sched (.begin timeout ps) k = c ∧
        (checker debug srt model).result c ≠ none ∧ c.TimerGone := by
    rintro ps ⟨partitions, rfl, hpair⟩
    obtain ⟨V⟩ := exists_verdicts_of_paired debug model hpair
    obtain ⟨k, hend⟩ := (advancing_begin V timeout).ends_timer hfair
    exact ⟨_, k, rfl, hend⟩
  exact ⟨fun _ hwf hfit => ends _ (hfit.halts hwf debug),
    fun _ hgate hfit => ends _ (hfit.halts hgate debug)⟩

end Timed

/-- A fair schedule: every choice but two, each again and again. -/
def inTurns (k : ℕ) : Choice :=
  match k.unpair.1 with
  | 0 => .main
  | 1 => .timer
  | 2 => .expire
  | 3 => .tick
  | i + 4 => .worker i

theorem inTurns_fair : Machine.Fair (fun choice : Choice => choice.isThreadOrTime = true) inTurns := by
  intro choice hc k
  obtain ⟨i, hi⟩ : ∃ i, ∀ k, inTurns (Nat.pair i k) = choice := by
    cases choice with
    | main => exact ⟨0, fun k => by rw [inTurns, Nat.unpair_pair]⟩
    | timer => exact ⟨1, fun k => by rw [inTurns, Nat.unpair_pair]⟩
    | expire => exact ⟨2, fun k => by rw [inTurns, Nat.unpair_pair]⟩
    | tick => exact ⟨3, fun k => by rw [inTurns, Nat.unpair_pair]⟩
    | worker i => exact ⟨i + 4, fun k => by rw [inTurns, Nat.unpair_pair]⟩
    | _ => cases hc
  exact ⟨Nat.pair i k, Nat.right_le_pair i k, hi k⟩

/-- The same operations and events, all in turns. -/
theorem fair_schedules_end_timer_overlapping :
    (∃ c k, (checker true (.insertion _) RegisterModel).trace inTurns
        (checkOperations true RegisterModel overlapping (some 5)) k = c ∧
      (checker true (.insertion _) RegisterModel).result c ≠ none ∧ c.TimerGone) ∧
    ∃ c k, (checker true (.insertion _) RegisterModel).trace inTurns
        (checkEvents true RegisterModel readAndWriteEvents (some 5)) k = c ∧
      (checker true (.insertion _) RegisterModel).result c ≠ none ∧ c.TimerGone := by
  have h := fair_schedules_end_timer true (.insertion _) RegisterModel (some 5) inTurns inTurns_fair
  exact ⟨h.1 overlapping (by decide) ⟨fun _ => by decide, nofun⟩,
    h.2 readAndWriteEvents (by decide) ⟨fun _ => by decide, nofun⟩⟩

end Porcupine
