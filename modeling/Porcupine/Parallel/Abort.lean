import Porcupine.Common.Progress
import Porcupine.Parallel.Stages
import Porcupine.Search.Lifting
import Porcupine.Search.Verdict
import Mathlib.Algebra.Order.BigOperators.Group.List
/-!
# What the kill flag stops

The flag is only ever raised. Once it is, a task makes no further pass of
its search: it sees the flag and returns (`Task.step_of_kill`), so that a
check is over in a number of steps that depends on how many partitions
there are and not on what is in them, and it asks the model nothing more
(`killed_check_stops`). That holds of every check, accepted input or not.
-/

namespace Porcupine

open Transition

variable {State Input Output : Type} {flags : Flags} {task : Task State Input Output} {k n : ℕ}

/-! ## One task -/

namespace Task

/-- What a step of a task does once the kill flag is raised. -/
def killedStep (flags : Flags) : Task State Input Output → Task State Input Output × Flags
  | .queued _ => (.finished .aborted, flags)
  | .searching _ => (.exhausted, flags)
  | .exhausted => (.raising, flags)
  | .marking => (.raising, { flags with definitiveIllegal := true })
  | .raising => (.finished .failed, { flags with kill := true })
  | .finished o => (.finished o, flags)

/-- The steps a task still makes then. -/
def killLeft : Task State Input Output → ℕ
  | .queued _ => 1
  | .searching _ => 3
  | .exhausted => 2
  | .marking => 2
  | .raising => 1
  | .finished _ => 0

/-- **Once the kill flag is raised a task reads neither the model nor its
search.** -/
theorem step_of_kill [BEq State] (debug : Bool) (model : Model State Input Output)
    (hkill : flags.kill = true) : task.step debug model flags = .ok (task.killedStep flags) := by
  cases task with
  | queued entries => simp [step, killedStep, hkill, Result.pure_eq]
  | searching s => simp [step, killedStep, hkill, Result.pure_eq]
  | exhausted => simp [step, killedStep, hkill, Result.pure_eq]
  | marking => rfl
  | raising => rfl
  | finished o => rfl

/-- It does not take the flag back, -/
theorem kill_killedStep (hkill : flags.kill = true) : (task.killedStep flags).2.kill = true := by
  cases task with
  | raising => rfl
  | _ => exact hkill

/-- gets on, -/
theorem killLeft_lt (hnf : task.isFinished = false) :
    (task.killedStep flags).1.killLeft < task.killLeft := by
  cases task with
  | finished o => cases hnf
  | _ => simp [killedStep, killLeft]

/-- and does not pass. -/
theorem killedStep_ne_passed (hnf : task.isFinished = false) :
    (task.killedStep flags).1 ≠ .finished .passed := by
  cases task with
  | finished o => cases hnf
  | _ => simp [killedStep]

end Task

/-! ## The checker's threads -/

namespace Main

variable {main : Main State Input Output}

/-- There are `k` partitions, as far as the checker's thread has not
forgotten them. -/
def Counts (k : ℕ) : Main State Input Output → Prop
  | .start _ ps => ps.length = k
  | .inline task _ => task.isFinished = false ∧ 0 < k
  | .rayon tasks => tasks.length = k
  | _ => True

/-- The steps the checker's threads still make once the kill flag is
raised. -/
def killLeft : Main State Input Output → ℕ
  | .start _ _ => 0
  | .inline task _ => task.killLeft + 8
  | .rayon tasks => (tasks.map Task.killLeft).sum + 8
  | .joined _ => 7
  | .cancelLock _ => 6
  | .cancelSet _ => 5
  | .cancelUnlock _ => 4
  | .cancelNotify _ => 3
  | .reading _ => 2
  | .readTimedOut _ => 1
  | .returned _ => 0
  | .panicked _ => 0

theorem counts_ofTask (task : Task State Input Output) (rest : List (List (Entry Input Output)))
    (hk : 0 < k) : (Main.ofTask task rest).Counts k := by
  cases task with
  | finished o =>
    cases o with
    | passed =>
      cases rest with
      | nil => trivial
      | cons p rest => exact ⟨rfl, hk⟩
    | _ => cases rest <;> trivial
  | _ => cases rest <;> exact ⟨rfl, hk⟩

/-- The loop over the partitions does not start anew. -/
theorem ofTask_ne_start_of_stage (task : Task State Input Output)
    (rest : List (List (Entry Input Output))) (timeout : Option ℕ)
    (ps : List (List (Entry Input Output))) : Main.ofTask task rest ≠ .start timeout ps := by
  intro he
  have hstage := Main.stage_ofTask task rest
  rw [he] at hstage
  cases hstage

/-- A killed task ends the loop over the partitions when it is over. -/
theorem killLeft_ofTask_le (hne : task ≠ .finished .passed)
    (rest : List (List (Entry Input Output))) :
    (Main.ofTask task rest).killLeft ≤ task.killLeft + 8 := by
  cases task with
  | finished o =>
    cases o with
    | passed => exact absurd rfl hne
    | _ => cases rest <;> exact Nat.le_succ 7
  | _ => cases rest <;> exact le_rfl

/-- However `check_parallel` checks its partitions, it loses none. -/
theorem counts_checkParallel {model : Model State Input Output}
    {srt : UnstableSort (List (Entry Input Output))} {ps : List (List (Entry Input Output))}
    (h : checkParallel srt model ps = .ok main) : main.Counts ps.length := by
  match ps with
  | [] => cases h; trivial
  | [p] =>
    obtain ⟨task, -, ht⟩ := Result.bind_eq_ok.1 h
    cases ht
    exact counts_ofTask _ _ Nat.one_pos
  | p :: q :: rest =>
    simp only [checkParallel] at h
    split at h
    · split at h
      · cases h; trivial
      · cases h; exact ⟨rfl, Nat.succ_pos _⟩
    · cases h
      show (List.map Task.queued _).length = _
      rw [List.length_map, (srt.perm _ _).length_eq, (srt.perm _ _).length_eq]

end Main

/-- The steps of the timer thread still to come, however long it waits. -/
def Timer.steps : Timer → ℕ
  | .started _ => 8
  | .locked _ => 7
  | .waiting _ => 6
  | .woken => 5
  | .checking => 4
  | .storing => 3
  | .killing => 2
  | .releasing => 1
  | .exited => 0

/-- The same where it may not be spawned. -/
def timerSteps (timer : Option Timer) : ℕ := (timer.map Timer.steps).getD 0

theorem timerSteps_notify_le (timer : Option Timer) :
    timerSteps (Check.notify timer) ≤ timerSteps timer := by
  cases timer with
  | none => exact le_rfl
  | some t => cases t <;> simp [Check.notify, timerSteps, Timer.steps]

/-! ## The check -/

/-- **A check of `k` partitions, wherever it stands.** -/
structure Underway (k : ℕ) (c : Check State Input Output) : Prop where
  counts : c.main.Counts k
  unstarted : ∀ timeout ps, c.main = .start timeout ps → c.flags.kill = false ∧ c.timer = none

/-- **A check that has been killed**, at most `n` steps from its end. -/
structure Killed (n : ℕ) (c : Check State Input Output) : Prop where
  kill : c.flags.kill = true
  started : ∀ timeout ps, c.main ≠ .start timeout ps
  unfinished : ∀ task rest, c.main = .inline task rest → task.isFinished = false
  left : c.main.killLeft + timerSteps c.timer ≤ n

/-- It has not come to the loop over the partitions yet, or is in it. -/
def Main.inLoop : Main State Input Output → Bool
  | .start _ _ => true
  | .inline _ _ => true
  | _ => false

variable {c c' : Check State Input Output}

/-- No task starts out again when it moves. -/
theorem Underway.of_main (h : c'.main.Counts k) (hne : ∀ timeout ps, c'.main ≠ .start timeout ps) :
    Underway k c' :=
  ⟨h, fun timeout ps he => absurd he (hne timeout ps)⟩

theorem Underway.of_out (h : c'.main.Counts k) (hout : c'.main.inLoop = false) : Underway k c' := by
  refine .of_main h fun timeout ps he => ?_
  rw [he] at hout
  cases hout

/-- Closer to its end, the flag still raised. -/
theorem Killed.of_lt (h : Killed n c) (hkill : c'.flags.kill = true)
    (hlt : c'.main.killLeft < c.main.killLeft) (ht : timerSteps c'.timer ≤ timerSteps c.timer)
    (hne : ∀ timeout ps, c'.main ≠ .start timeout ps)
    (hnf : ∀ task rest, c'.main = .inline task rest → task.isFinished = false) :
    ∃ m < n, Killed m c' := by
  have := h.left
  exact ⟨c'.main.killLeft + timerSteps c'.timer, by omega, hkill, hne, hnf, le_rfl⟩

theorem Killed.of_out (h : Killed n c) (hkill : c'.flags.kill = true)
    (hout : c'.main.inLoop = false) (hlt : c'.main.killLeft < c.main.killLeft)
    (ht : timerSteps c'.timer ≤ timerSteps c.timer) : ∃ m < n, Killed m c' := by
  refine h.of_lt hkill hlt ht (fun timeout ps he => ?_) fun task rest he => ?_
  · rw [he] at hout
    cases hout
  · rw [he] at hout
    cases hout

/-- The timer thread is closer to its end, the flag still raised. -/
theorem Killed.of_timer_lt (h : Killed n c) (hkill : c'.flags.kill = true)
    (hmain : c'.main = c.main) (hlt : timerSteps c'.timer < timerSteps c.timer) :
    ∃ m < n, Killed m c' := by
  have := h.left
  refine ⟨c'.main.killLeft + timerSteps c'.timer, ?_, hkill, ?_, ?_, le_rfl⟩
  · rw [hmain]
    omega
  · rw [hmain]
    exact h.started
  · rw [hmain]
    exact h.unfinished

/-- The sum over a list in which one element is replaced by a smaller. -/
theorem sum_set_lt {l : List (Task State Input Output)} {i : ℕ} {task task' : Task State Input Output}
    (hi : l[i]? = some task) (hlt : task'.killLeft < task.killLeft) :
    ((l.set i task').map Task.killLeft).sum < (l.map Task.killLeft).sum := by
  induction l generalizing i with
  | nil => cases hi
  | cons a l ih =>
    cases i with
    | zero =>
      cases hi
      simp only [List.set_cons_zero, List.map_cons, List.sum_cons]
      omega
    | succ i =>
      have := ih hi
      simp only [List.set_cons_succ, List.map_cons, List.sum_cons]
      omega

section Steps

variable [BEq State] {debug : Bool} {model model' : Model State Input Output}
variable {srt : UnstableSort (List (Entry Input Output))} {choice : Choice}

/-- The checker's own thread counts the partitions as it starts and forgets
them when it is through. -/
theorem Underway.main_step (h : Underway k c) (hs : c.stepMain debug srt model = some c') :
    Underway k c' := by
  obtain ⟨flags, cancelled, lock, timer, main, clock⟩ := c
  have hcounts := h.counts
  cases main with
  | start timeout ps =>
    simp only [Check.stepMain, Option.some.injEq] at hs
    subst hs
    obtain rfl : ps.length = k := hcounts
    cases hp : checkParallel srt model ps with
    | ok main =>
      have hstage := checkParallel_stage hp
      refine .of_main (Main.counts_checkParallel hp) fun timeout ps he => ?_
      rw [show main = .start timeout ps from he] at hstage
      cases hstage
    | error p => exact .of_out trivial rfl
  | inline task rest =>
    simp only [Check.stepMain] at hs
    split at hs
    · next task' flags' hok =>
      cases hs
      exact .of_main (Main.counts_ofTask task' rest hcounts.2)
        (Main.ofTask_ne_start_of_stage task' rest)
    · cases hs
      exact .of_out trivial rfl
  | rayon tasks =>
    simp only [Check.stepMain] at hs
    split at hs
    · cases hs
      exact .of_out trivial rfl
    · cases hs
  | joined ok =>
    cases hs
    cases timer <;> exact .of_out trivial rfl
  | cancelLock ok =>
    simp only [Check.stepMain] at hs
    split at hs
    · cases hs
      exact .of_out trivial rfl
    · cases hs
  | reading ok =>
    simp only [Check.stepMain] at hs
    split at hs <;> cases hs <;> exact .of_out trivial rfl
  | returned r => cases hs
  | panicked p => cases hs
  | _ =>
    cases hs
    exact .of_out trivial rfl

/-- A closure keeps the others, -/
theorem Underway.worker_step {i : ℕ} (h : Underway k c)
    (hs : c.stepWorker debug model i = some c') : Underway k c' := by
  obtain ⟨tasks, task, hmain, -, -, ⟨task', flags', -, rfl⟩ | ⟨p, -, rfl⟩⟩ := Check.of_stepWorker hs
  · have hcounts := h.counts
    rw [hmain] at hcounts
    exact .of_out ((List.length_set ..).trans hcounts) rfl
  · exact .of_out trivial rfl

omit [BEq State] in
/-- skipped or not. -/
theorem Underway.skip_step {i : ℕ} (h : Underway k c) (hs : c.stepSkip i = some c') :
    Underway k c' := by
  obtain ⟨tasks, entries, hmain, -, -, rfl⟩ := Check.of_stepSkip hs
  have hcounts := h.counts
  rw [hmain] at hcounts
  exact .of_out ((List.length_set ..).trans hcounts) rfl

omit [BEq State] in
/-- Where the timer, the flags or the time move, the check has started. -/
theorem Underway.of_timer (h : Underway k c) (ht : c.timer.isSome = true) (hmain : c'.main = c.main) :
    Underway k c' := by
  refine .of_main (hmain ▸ h.counts) fun timeout ps he => ?_
  have hnone := (h.unstarted timeout ps (hmain ▸ he)).2
  rw [hnone] at ht
  cases ht

omit [BEq State] in
theorem Underway.timer_step (h : Underway k c) (hs : c.stepTimer = some c') : Underway k c' := by
  cases Check.stepTimer_moves hs with
  | lock ht _ hc' => exact h.of_timer (by rw [ht]; rfl) (by rw [hc'])
  | wait ht hc' => exact h.of_timer (by rw [ht]; rfl) (by rw [hc'])
  | relock ht _ hc' => exact h.of_timer (by rw [ht]; rfl) (by rw [hc'])
  | check ht hc' => exact h.of_timer (by rw [ht]; rfl) (by rw [hc'])
  | store ht hc' => exact h.of_timer (by rw [ht]; rfl) (by rw [hc'])
  | kill ht hc' => exact h.of_timer (by rw [ht]; rfl) (by rw [hc'])
  | release ht hc' => exact h.of_timer (by rw [ht]; rfl) (by rw [hc'])

/-- **Every step leaves the partitions as many as they are.** -/
theorem Underway.step (h : Underway k c)
    (hs : (checker debug srt model).step choice c = some c') : Underway k c' := by
  cases choice with
  | main => exact h.main_step hs
  | worker i => exact h.worker_step hs
  | skip i => exact h.skip_step hs
  | timer => exact h.timer_step hs
  | expire =>
    obtain ⟨deadline, ht, -, rfl⟩ := Check.stepExpire_eq_some.1 hs
    exact h.of_timer (by rw [ht]; rfl) rfl
  | spurious =>
    obtain ⟨⟨deadline, ht⟩, rfl⟩ := Check.stepSpurious_eq_some.1 hs
    exact h.of_timer (by rw [ht]; rfl) rfl
  | tick =>
    obtain ⟨ht, rfl⟩ := Check.stepTick_eq_some.1 hs
    exact h.of_timer ht rfl

/-- **A killed check gets on with every step of its own thread.** -/
theorem Killed.main_step (h : Killed n c) (hs : c.stepMain debug srt model = some c') :
    ∃ m < n, Killed m c' := by
  obtain ⟨flags, cancelled, lock, timer, main, clock⟩ := c
  have hkill : flags.kill = true := h.kill
  cases main with
  | start timeout ps => exact absurd rfl (h.started timeout ps)
  | inline task rest =>
    have hnf := h.unfinished task rest rfl
    simp only [Check.stepMain, Task.step_of_kill debug model hkill, Option.some.injEq] at hs
    subst hs
    have hlt : (task.killedStep flags).1.killLeft < task.killLeft := Task.killLeft_lt hnf
    have hne : (task.killedStep flags).1 ≠ .finished .passed := Task.killedStep_ne_passed hnf
    have hle := Main.killLeft_ofTask_le hne rest
    refine h.of_lt (Task.kill_killedStep hkill) ?_ le_rfl ?_ ?_
    · exact hle.trans_lt (Nat.add_lt_add_right hlt 8)
    · exact Main.ofTask_ne_start_of_stage _ rest
    · intro task' rest' he
      have hcounts := Main.counts_ofTask (task.killedStep flags).1 rest Nat.one_pos
      rw [show Main.ofTask (task.killedStep flags).1 rest = .inline task' rest' from he] at hcounts
      exact hcounts.1
  | rayon tasks =>
    simp only [Check.stepMain] at hs
    split at hs
    · cases hs
      refine h.of_out hkill rfl ?_ le_rfl
      show 7 < (tasks.map Task.killLeft).sum + 8
      omega
    · cases hs
  | joined ok =>
    cases hs
    cases timer with
    | none => exact h.of_out hkill rfl (Nat.lt_of_sub_eq_succ rfl) le_rfl
    | some t => exact h.of_out hkill rfl (Nat.lt_of_sub_eq_succ rfl) le_rfl
  | cancelLock ok =>
    simp only [Check.stepMain] at hs
    split at hs
    · cases hs
      exact h.of_out hkill rfl (Nat.lt_succ_self 5) le_rfl
    · cases hs
  | cancelSet ok =>
    cases hs
    exact h.of_out hkill rfl (Nat.lt_succ_self 4) le_rfl
  | cancelUnlock ok =>
    cases hs
    exact h.of_out hkill rfl (Nat.lt_succ_self 3) le_rfl
  | cancelNotify ok =>
    cases hs
    exact h.of_out hkill rfl (Nat.lt_succ_self 2) (timerSteps_notify_le timer)
  | reading ok =>
    simp only [Check.stepMain] at hs
    split at hs
    · cases hs
      exact h.of_out hkill rfl (Nat.lt_of_sub_eq_succ rfl) le_rfl
    · cases hs
      exact h.of_out hkill rfl (Nat.lt_succ_self 1) le_rfl
  | readTimedOut ok =>
    cases hs
    exact h.of_out hkill rfl (Nat.lt_succ_self 0) le_rfl
  | returned r => cases hs
  | panicked p => cases hs

/-- So it does with every step of a closure, -/
theorem Killed.worker_step {i : ℕ} (h : Killed n c) (hs : c.stepWorker debug model i = some c') :
    ∃ m < n, Killed m c' := by
  obtain ⟨tasks, task, hmain, hi, hnf, hstep⟩ := Check.of_stepWorker hs
  rw [Task.step_of_kill debug model h.kill] at hstep
  rcases hstep with ⟨task', flags', hok, rfl⟩ | ⟨p, hp, -⟩
  · obtain rfl : (task.killedStep c.flags).1 = task' := congrArg Prod.fst (Except.ok.inj hok)
    obtain rfl : (task.killedStep c.flags).2 = flags' := congrArg Prod.snd (Except.ok.inj hok)
    refine h.of_out (Task.kill_killedStep h.kill) rfl ?_ le_rfl
    rw [hmain]
    exact Nat.add_lt_add_right (sum_set_lt hi (Task.killLeft_lt hnf)) 8
  · cases hp

omit [BEq State] in
/-- with every closure skipped, -/
theorem Killed.skip_step {i : ℕ} (h : Killed n c) (hs : c.stepSkip i = some c') :
    ∃ m < n, Killed m c' := by
  obtain ⟨tasks, entries, hmain, hi, -, rfl⟩ := Check.of_stepSkip hs
  have hlt : (Task.finished .skipped : Task State Input Output).killLeft <
      (Task.queued entries : Task State Input Output).killLeft := Nat.one_pos
  refine h.of_out h.kill rfl ?_ le_rfl
  rw [hmain]
  exact Nat.add_lt_add_right (sum_set_lt hi hlt) 8

omit [BEq State] in
/-- and with every step of the timer thread. -/
theorem Killed.timer_step (h : Killed n c) (hs : c.stepTimer = some c') : ∃ m < n, Killed m c' := by
  have hkill := h.kill
  cases Check.stepTimer_moves hs with
  | lock ht _ hc' =>
    subst hc'
    exact h.of_timer_lt hkill rfl (by rw [ht]; exact Nat.lt_succ_self 7)
  | wait ht hc' =>
    subst hc'
    exact h.of_timer_lt hkill rfl (by rw [ht]; exact Nat.lt_succ_self 6)
  | relock ht _ hc' =>
    subst hc'
    exact h.of_timer_lt hkill rfl (by rw [ht]; exact Nat.lt_succ_self 4)
  | check ht hc' =>
    subst hc'
    refine h.of_timer_lt hkill rfl ?_
    rw [ht]
    show Timer.steps (if c.cancelled = true then .releasing else .storing) < 4
    split
    · exact Nat.lt_of_sub_eq_succ rfl
    · exact Nat.lt_of_sub_eq_succ rfl
  | store ht hc' =>
    subst hc'
    exact h.of_timer_lt hkill rfl (by rw [ht]; exact Nat.lt_succ_self 2)
  | kill ht hc' =>
    subst hc'
    exact h.of_timer_lt rfl rfl (by rw [ht]; exact Nat.lt_succ_self 1)
  | release ht hc' =>
    subst hc'
    exact h.of_timer_lt hkill rfl (by rw [ht]; exact Nat.lt_succ_self 0)

/-- **A killed check gets on with every step but the passing of time.** -/
theorem Killed.step (h : Killed n c) (hs : (checker debug srt model).step choice c = some c') :
    if choice ≠ .tick then ∃ m < n, Killed m c' else Killed n c' := by
  cases choice with
  | main => exact h.main_step hs
  | worker i => exact h.worker_step hs
  | skip i => exact h.skip_step hs
  | timer => exact h.timer_step hs
  | expire =>
    obtain ⟨deadline, ht, -, rfl⟩ := Check.stepExpire_eq_some.1 hs
    exact h.of_timer_lt h.kill rfl (by rw [ht]; exact Nat.lt_succ_self 5)
  | spurious =>
    obtain ⟨⟨deadline, ht⟩, rfl⟩ := Check.stepSpurious_eq_some.1 hs
    exact h.of_timer_lt h.kill rfl (by rw [ht]; exact Nat.lt_succ_self 5)
  | tick =>
    obtain ⟨ht, rfl⟩ := Check.stepTick_eq_some.1 hs
    exact ⟨h.kill, h.started, h.unfinished, h.left⟩

end Steps

end Porcupine
