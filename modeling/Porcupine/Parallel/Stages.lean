import Porcupine.Model.Checker
/-!
# What the threads of a check share with its timer

Of the checker's thread the timer sees only the stage it is at. `Moves`
says, stage by stage, what a step of the checker or of a closure does to
the timer, the cancel flag and the mutex, and `TimerMoves` what a step of
the timer thread does; whatever concerns the timer is read off these,
without looking into the search again.
-/

namespace Porcupine

variable {State Input Output : Type}

/-- Where the checker's thread is, as far as the timer is concerned. -/
inductive Stage
  /-- The timer is not spawned. -/
  | starting
  /-- In `check_parallel`. -/
  | checking
  /-- In `cancel`, up to the lock of the mutex. -/
  | locking
  /-- Holds the mutex, up to the cancel flag. -/
  | setting
  /-- Holds the mutex, the cancel flag set. -/
  | unlocking
  /-- About to notify. -/
  | notifying
  /-- `cancel` has returned, or there is nothing to cancel. -/
  | answering
  | returned
  | dead
  deriving DecidableEq, Repr

namespace Stage

/-- The checker holds the mutex. -/
def holdsLock : Stage → Bool
  | .setting | .unlocking => true
  | _ => false

/-- The cancel flag has been set, if there is one. -/
def flagSet : Stage → Bool
  | .unlocking | .notifying | .answering | .returned => true
  | _ => false

/-- `cancel` has returned, if there was anything to cancel. -/
def cancelReturned : Stage → Bool
  | .answering | .returned => true
  | _ => false

end Stage

/-- The stage of the checker's thread. -/
def Main.stage : Main State Input Output → Stage
  | .start _ _ => .starting
  | .inline _ _ => .checking
  | .rayon _ => .checking
  | .joined _ => .checking
  | .cancelLock _ => .locking
  | .cancelSet _ => .setting
  | .cancelUnlock _ => .unlocking
  | .cancelNotify _ => .notifying
  | .reading _ => .answering
  | .readTimedOut _ => .answering
  | .returned _ => .returned
  | .panicked _ => .dead

/-- The stage of a check. -/
def Check.stage (c : Check State Input Output) : Stage := c.main.stage

theorem Check.stage_of_start {c : Check State Input Output} {timeout : Option ℕ}
    {ps : List (List (Entry Input Output))} (h : c.main = .start timeout ps) :
    c.stage = .starting := by
  rw [Check.stage, h]
  rfl

@[simp] theorem Check.isSome_notify (timer : Option Timer) :
    (Check.notify timer).isSome = timer.isSome := by
  unfold Check.notify
  split <;> rfl

/-- **A notification ends a wait** and is forgotten otherwise. -/
theorem Check.notify_eq_some {timer : Option Timer} {t : Timer}
    (h : Check.notify timer = some t) :
    (∃ deadline, timer = some (.waiting deadline)) ∧ t = .woken ∨
      timer = some t ∧ ∀ deadline, t ≠ .waiting deadline := by
  unfold Check.notify at h
  split at h
  · next deadline =>
    cases h
    exact .inl ⟨⟨deadline, rfl⟩, rfl⟩
  · next hno => exact .inr ⟨h, fun deadline he => hno deadline (by rw [h, he])⟩

/-- **What a step of the checker's threads does**, as the timer sees it. -/
inductive Moves (c c' : Check State Input Output) : Prop
  /-- The timer is spawned, if there is a timeout. -/
  | spawn {timeout : Option ℕ} {ps : List (List (Entry Input Output))} :
      c.main = .start timeout ps → c' = { c with timer := timeout.map .started, main := c'.main } →
      c'.stage = .checking ∨ c'.stage = .dead → Moves c c'
  /-- A partition is checked, or the answer of all is in. -/
  | work : c.stage = .checking → c' = { c with flags := c'.flags, main := c'.main } →
      c'.flags.timedOut = c.flags.timedOut →
      c'.stage = .checking ∨ c'.stage = .dead ∨ c'.stage = .locking ∧ c.timer.isSome = true ∨
        c'.stage = .answering ∧ c.timer = none → Moves c c'
  /-- The mutex is taken. -/
  | lock : c.stage = .locking → c.lock = none →
      c' = { c with lock := some .checker, main := c'.main } → c'.stage = .setting → Moves c c'
  /-- The cancel flag is set. -/
  | set : c.stage = .setting → c' = { c with cancelled := true, main := c'.main } →
      c'.stage = .unlocking → Moves c c'
  /-- The mutex is released. -/
  | unlock : c.stage = .unlocking → c' = { c with lock := none, main := c'.main } →
      c'.stage = .notifying → Moves c c'
  /-- The timer is notified. -/
  | notify : c.stage = .notifying → c' = { c with timer := Check.notify c.timer, main := c'.main } →
      c'.stage = .answering → Moves c c'
  /-- The result is read off the flags. -/
  | answer : c.stage = .answering → c' = { c with main := c'.main } →
      c'.stage = .answering ∨ c'.stage = .returned → Moves c c'

variable [BEq State] {debug : Bool} {model : Model State Input Output}
variable {srt : UnstableSort (List (Entry Input Output))} {c c' : Check State Input Output}
variable {flags flags' : Flags} {task task' : Task State Input Output}

/-- Only the timer raises its flag. -/
theorem Task.step_timedOut (h : task.step debug model flags = .ok (task', flags')) :
    flags'.timedOut = flags.timedOut := by
  cases task with
  | queued entries =>
    simp only [Task.step] at h
    split at h
    · cases h; rfl
    · obtain ⟨x, -, hx⟩ := Result.bind_eq_ok.1 h
      cases hx; rfl
  | searching s =>
    simp only [Task.step] at h
    split at h
    · cases h; rfl
    · obtain ⟨x, -, hx⟩ := Result.bind_eq_ok.1 h
      cases hx; rfl
  | exhausted => cases h; rfl
  | marking => cases h; rfl
  | raising => cases h; rfl
  | finished o => cases h; rfl

omit [BEq State] in
theorem Main.stage_ofTask (task : Task State Input Output)
    (rest : List (List (Entry Input Output))) : (Main.ofTask task rest).stage = .checking := by
  rcases task with _ | _ | _ | _ | _ | (_ | _ | _ | _) <;> cases rest <;> rfl

omit [BEq State] in
/-- `check_parallel` does not cancel the timer. -/
theorem checkParallel_stage {ps : List (List (Entry Input Output))} {main : Main State Input Output}
    (h : checkParallel srt model ps = .ok main) : main.stage = .checking := by
  match ps with
  | [] => cases h; rfl
  | [p] =>
    obtain ⟨task, -, ht⟩ := Result.bind_eq_ok.1 h
    cases ht
    exact Main.stage_ofTask _ _
  | p :: q :: rest =>
    simp only [checkParallel] at h
    split at h
    · split at h <;> cases h <;> rfl
    · cases h; rfl

/-- **A step of the checker's own thread.** -/
theorem Check.stepMain_moves (hs : c.stepMain debug srt model = some c') : Moves c c' := by
  obtain ⟨flags, cancelled, lock, timer, main, clock⟩ := c
  cases main with
  | start timeout ps =>
    simp only [stepMain, Option.some.injEq] at hs
    subst hs
    cases hp : checkParallel srt model ps with
    | ok main => exact .spawn rfl rfl (Or.inl (checkParallel_stage hp))
    | error p => exact .spawn rfl rfl (Or.inr rfl)
  | inline task rest =>
    simp only [stepMain] at hs
    split at hs
    · next task' flags' hok =>
      cases hs
      exact .work rfl rfl (Task.step_timedOut hok) (Or.inl (Main.stage_ofTask _ _))
    · cases hs
      exact .work rfl rfl rfl (Or.inr (Or.inl rfl))
  | rayon tasks =>
    simp only [stepMain] at hs
    split at hs
    · cases hs
      exact .work rfl rfl rfl (Or.inl rfl)
    · cases hs
  | joined ok =>
    cases hs
    cases timer with
    | none => exact .work rfl rfl rfl (Or.inr (Or.inr (Or.inr ⟨rfl, rfl⟩)))
    | some t => exact .work rfl rfl rfl (Or.inr (Or.inr (Or.inl ⟨rfl, rfl⟩)))
  | cancelLock ok =>
    simp only [stepMain] at hs
    split at hs
    · next hl =>
      cases hs
      exact .lock rfl (Option.isNone_iff_eq_none.1 hl) rfl rfl
    · cases hs
  | cancelSet ok =>
    cases hs
    exact .set rfl rfl rfl
  | cancelUnlock ok =>
    cases hs
    exact .unlock rfl rfl rfl
  | cancelNotify ok =>
    cases hs
    exact .notify rfl rfl rfl
  | reading ok =>
    simp only [stepMain] at hs
    split at hs
    · cases hs
      exact .answer rfl rfl (Or.inr rfl)
    · cases hs
      exact .answer rfl rfl (Or.inl rfl)
  | readTimedOut ok =>
    cases hs
    exact .answer rfl rfl (Or.inr rfl)
  | returned r => cases hs
  | panicked p => cases hs

/-- A closure moves its own task, or panics. -/
theorem Check.of_stepWorker {i : ℕ} (hs : c.stepWorker debug model i = some c') :
    ∃ tasks task, c.main = .rayon tasks ∧ tasks[i]? = some task ∧ task.isFinished = false ∧
      ((∃ task' flags', task.step debug model c.flags = .ok (task', flags') ∧
        c' = { c with flags := flags', main := .rayon (tasks.set i task') }) ∨
      ∃ p, task.step debug model c.flags = .error p ∧ c' = { c with main := .panicked p }) := by
  unfold stepWorker at hs
  cases hmain : c.main with
  | rayon tasks =>
    simp only [hmain] at hs
    split at hs
    · cases hs
    · cases hs
    · next task hunfinished hi =>
      have hnf : task.isFinished = false := by
        cases task with
        | finished o => exact absurd rfl (hunfinished o)
        | _ => rfl
      refine ⟨tasks, task, rfl, hi, hnf, ?_⟩
      split at hs
      · next task' flags' hok => exact .inl ⟨task', flags', hok, (Option.some.inj hs).symm⟩
      · next p hp => exact .inr ⟨p, hp, (Option.some.inj hs).symm⟩
  | _ =>
    rw [hmain] at hs
    cases hs

omit [BEq State] in
/-- A closure not yet run is skipped, once another has returned true. -/
theorem Check.of_stepSkip {i : ℕ} (hs : c.stepSkip i = some c') :
    ∃ tasks entries, c.main = .rayon tasks ∧ tasks[i]? = some (.queued entries) ∧
      tasks.any Task.foundIllegal = true ∧
      c' = { c with main := .rayon (tasks.set i (.finished .skipped)) } := by
  unfold stepSkip at hs
  cases hmain : c.main with
  | rayon tasks =>
    simp only [hmain] at hs
    split at hs
    · next entries hi =>
      split at hs
      · next hany => exact ⟨tasks, entries, rfl, hi, hany, (Option.some.inj hs).symm⟩
      · cases hs
    · cases hs
  | _ =>
    rw [hmain] at hs
    cases hs

/-- Closures run while the checker waits for them. -/
theorem Check.stage_of_stepWorker {i : ℕ} (hs : c.stepWorker debug model i = some c') :
    c.stage = .checking := by
  obtain ⟨tasks, -, hmain, -⟩ := of_stepWorker hs
  rw [stage, hmain]
  rfl

omit [BEq State] in
theorem Check.stage_of_stepSkip {i : ℕ} (hs : c.stepSkip i = some c') : c.stage = .checking := by
  obtain ⟨tasks, -, hmain, -⟩ := of_stepSkip hs
  rw [stage, hmain]
  rfl

/-- **A step of a closure.** -/
theorem Check.stepWorker_moves {i : ℕ} (hs : c.stepWorker debug model i = some c') : Moves c c' := by
  have hstage := stage_of_stepWorker hs
  obtain ⟨tasks, task, -, -, -, ⟨task', flags', hok, rfl⟩ | ⟨p, -, rfl⟩⟩ := of_stepWorker hs
  · exact .work hstage rfl (Task.step_timedOut hok) (Or.inl rfl)
  · exact .work hstage rfl rfl (Or.inr (Or.inl rfl))

omit [BEq State] in
/-- **A closure is skipped.** -/
theorem Check.stepSkip_moves {i : ℕ} (hs : c.stepSkip i = some c') : Moves c c' := by
  have hstage := stage_of_stepSkip hs
  obtain ⟨tasks, entries, -, -, -, rfl⟩ := of_stepSkip hs
  exact .work hstage rfl rfl (Or.inl rfl)

/-! ## The timer moves -/

omit [BEq State] in
/-- **What a step of the timer thread does.** -/
inductive TimerMoves (c c' : Check State Input Output) : Prop
  /-- The mutex is taken, before the wait. -/
  | lock {d : ℕ} : c.timer = some (.started d) → c.lock = none →
      c' = { c with lock := some .timer, timer := some (.locked d) } → TimerMoves c c'
  /-- The wait is entered. -/
  | wait {d : ℕ} : c.timer = some (.locked d) →
      c' = { c with lock := none, timer := some (.waiting (c.clock + d)) } → TimerMoves c c'
  /-- The mutex is taken again, after the wait. -/
  | relock : c.timer = some .woken → c.lock = none →
      c' = { c with lock := some .timer, timer := some .checking } → TimerMoves c c'
  /-- The cancel flag is read. -/
  | check : c.timer = some .checking →
      c' = { c with timer := some (if c.cancelled then .releasing else .storing) } → TimerMoves c c'
  /-- `timed_out` is stored. -/
  | store : c.timer = some .storing →
      c' = { c with flags := { c.flags with timedOut := true }, timer := some .killing } →
      TimerMoves c c'
  /-- `kill` is stored. -/
  | kill : c.timer = some .killing →
      c' = { c with flags := { c.flags with kill := true }, timer := some .releasing } →
      TimerMoves c c'
  /-- The mutex is released. -/
  | release : c.timer = some .releasing → c' = { c with lock := none, timer := some .exited } →
      TimerMoves c c'

omit [BEq State] in
theorem Check.stepTimer_moves (hs : c.stepTimer = some c') : TimerMoves c c' := by
  obtain ⟨flags, cancelled, lock, timer, main, clock⟩ := c
  cases timer with
  | none => cases hs
  | some t =>
    cases t with
    | started d =>
      simp only [stepTimer] at hs
      split at hs
      · next hl =>
        cases hs
        exact .lock rfl (Option.isNone_iff_eq_none.1 hl) rfl
      · cases hs
    | locked d =>
      cases hs
      exact .wait rfl rfl
    | waiting deadline => cases hs
    | woken =>
      simp only [stepTimer] at hs
      split at hs
      · next hl =>
        cases hs
        exact .relock rfl (Option.isNone_iff_eq_none.1 hl) rfl
      · cases hs
    | checking =>
      cases hs
      exact .check rfl rfl
    | storing =>
      cases hs
      exact .store rfl rfl
    | killing =>
      cases hs
      exact .kill rfl rfl
    | releasing =>
      cases hs
      exact .release rfl rfl
    | exited => cases hs

omit [BEq State] in
/-- **The wait ends** when its duration has elapsed. -/
theorem Check.stepExpire_eq_some : c.stepExpire = some c' ↔
    ∃ deadline, c.timer = some (.waiting deadline) ∧ deadline ≤ c.clock ∧
      { c with timer := some .woken } = c' := by
  unfold stepExpire
  split
  · next deadline ht => simp [ht]
  · next hno =>
    refine iff_of_false nofun ?_
    rintro ⟨deadline, ht, -⟩
    exact hno deadline ht

omit [BEq State] in
/-- **The wait ends** for no reason. -/
theorem Check.stepSpurious_eq_some : c.stepSpurious = some c' ↔
    (∃ deadline, c.timer = some (.waiting deadline)) ∧ { c with timer := some .woken } = c' := by
  unfold stepSpurious
  split
  · next deadline ht => simp [ht]
  · next hno =>
    refine iff_of_false nofun ?_
    rintro ⟨⟨deadline, ht⟩, -⟩
    exact hno deadline ht

omit [BEq State] in
theorem Check.stepTick_eq_some : c.stepTick = some c' ↔
    c.timer.isSome = true ∧ { c with clock := c.clock + 1 } = c' := by
  unfold stepTick
  split
  · next ht => simp [ht]
  · next ht => simp [ht]

end Porcupine
