import Porcupine.Common.Progress
import Porcupine.Parallel.Cancellation
import Porcupine.Parallel.Safety
/-!
# No thread of a check waits for ever

The cancel mutex is held by whoever is inside it and by no one else
(`Check.Mutex`), and whoever is inside it can always go on. So a check
that has not returned has a thread that can step (`Check.Mutex.progress`),
and so does a timer thread that has not exited, unless it waits for time
to pass. Every step but the passing of time brings the end of the check,
or of its timer thread, nearer (`Advancing.step`).
-/

namespace Porcupine

open Transition

variable {State Input Output : Type} {c c' : Check State Input Output}

/-! ## The mutex -/

/-- **The mutex is held by whoever is inside it**, and by no one else. -/
structure Check.Mutex (c : Check State Input Output) : Prop where
  unstarted : c.stage = .starting → c.timer = none
  checker : c.lock = some .checker ↔ c.stage.holdsLock = true
  timer : c.lock = some .timer ↔ ∃ t, c.timer = some t ∧ t.holdsLock = true

namespace Check.Mutex

theorem begin (timeout : Option ℕ) (ps : Result (List (List (Entry Input Output)))) :
    (Check.begin timeout ps : Check State Input Output).Mutex := by
  cases ps with
  | ok ps => exact ⟨fun _ => rfl, ⟨nofun, nofun⟩, ⟨nofun, fun ⟨_, ht, _⟩ => by cases ht⟩⟩
  | error p => exact ⟨nofun, ⟨nofun, nofun⟩, ⟨nofun, fun ⟨_, ht, _⟩ => by cases ht⟩⟩

/-- There is no timer thread before the check starts. -/
theorem stage_ne_starting (h : c.Mutex) {t : Timer} (ht : c.timer = some t) :
    c.stage ≠ .starting := by
  intro hs
  have hnone := h.unstarted hs
  rw [ht] at hnone
  cases hnone

/-- A later stage that holds the mutex as the one before did, the mutex left
alone and the timer thread too, as far as the mutex is concerned. -/
theorem later (h : c.Mutex) {s : Stage} (hs : c'.stage = s) (hne : s ≠ .starting)
    (hholds : s.holdsLock = c.stage.holdsLock) (hl : c'.lock = c.lock)
    (ht : (∃ t, c'.timer = some t ∧ t.holdsLock = true) ↔
      ∃ t, c.timer = some t ∧ t.holdsLock = true) : c'.Mutex := by
  refine ⟨fun he => absurd (hs.symm.trans he) hne, ?_, ?_⟩
  · rw [hl, hs, hholds]
    exact h.checker
  · rw [hl, ht]
    exact h.timer

/-- A notification changes nothing about the mutex: a timer thread that
waits does not hold it. -/
theorem notify_holdsLock (timer : Option Timer) :
    (∃ t, Check.notify timer = some t ∧ t.holdsLock = true) ↔
      ∃ t, timer = some t ∧ t.holdsLock = true := by
  cases timer with
  | none => exact Iff.rfl
  | some t =>
    cases t with
    | waiting deadline =>
      refine iff_of_false ?_ ?_
      · rintro ⟨t, ht, hholds⟩
        cases ht
        cases hholds
      · rintro ⟨t, ht, hholds⟩
        cases ht
        cases hholds
    | _ => exact Iff.rfl

/-- A mutex that the checker holds is not the timer's. -/
theorem timer_of_checker (h : c.Mutex) (hholds : c.stage.holdsLock = true) :
    ¬ ∃ t, c.timer = some t ∧ t.holdsLock = true := by
  intro ht
  have hl := h.checker.2 hholds
  rw [h.timer.2 ht] at hl
  cases hl

/-- **The checker's threads leave the mutex in order.** -/
theorem moves (h : c.Mutex) (hm : Moves c c') : c'.Mutex := by
  cases hm with
  | @spawn timeout ps hc hc' hs =>
    have hstage : c.stage = .starting := Check.stage_of_start hc
    have hnone : ¬ ∃ t, c.timer = some t ∧ t.holdsLock = true := by
      rw [h.unstarted hstage]
      rintro ⟨t, ht, -⟩
      cases ht
    have hnone' : ¬ ∃ t, c'.timer = some t ∧ t.holdsLock = true := by
      rw [hc']
      rintro ⟨t, ht, hholds⟩
      obtain ⟨d, -, rfl⟩ := Option.map_eq_some_iff.1 ht
      cases hholds
    have hl : c'.lock = c.lock := by rw [hc']
    rcases hs with hs | hs <;>
      exact h.later hs nofun (congrArg Stage.holdsLock hstage).symm hl (iff_of_false hnone' hnone)
  | work hc hc' _ hs =>
    have hl : c'.lock = c.lock := by rw [hc']
    have ht : c'.timer = c.timer := by rw [hc']
    rcases hs with hs | hs | ⟨hs, -⟩ | ⟨hs, -⟩ <;>
      exact h.later hs nofun (congrArg Stage.holdsLock hc).symm hl (by rw [ht])
  | lock hc hfree hc' hs =>
    have hl : c'.lock = some .checker := by rw [hc']
    have hnone : ¬ ∃ t, c.timer = some t ∧ t.holdsLock = true := by
      intro ht
      have hheld := h.timer.2 ht
      rw [hfree] at hheld
      cases hheld
    refine ⟨fun he => ?_, ?_, ?_⟩
    · rw [hs] at he
      cases he
    · rw [hl, hs]
      exact iff_of_true rfl rfl
    · rw [hl]
      refine iff_of_false nofun ?_
      rw [hc']
      exact hnone
  | set hc hc' hs =>
    exact h.later hs nofun (congrArg Stage.holdsLock hc).symm (by rw [hc']) (by rw [hc'])
  | unlock hc hc' hs =>
    have hl : c'.lock = none := by rw [hc']
    have hnone := h.timer_of_checker (by rw [hc]; rfl)
    refine ⟨fun he => ?_, ?_, ?_⟩
    · rw [hs] at he
      cases he
    · rw [hl, hs]
      exact iff_of_false nofun nofun
    · rw [hl]
      refine iff_of_false nofun ?_
      rw [hc']
      exact hnone
  | notify hc hc' hs =>
    have ht : c'.timer = Check.notify c.timer := by rw [hc']
    exact h.later hs nofun (congrArg Stage.holdsLock hc).symm (by rw [hc']) (by rw [ht, notify_holdsLock])
  | answer hc hc' hs =>
    rcases hs with hs | hs <;>
      exact h.later hs nofun (congrArg Stage.holdsLock hc).symm (by rw [hc']) (by rw [hc'])

/-- The timer thread moves on, with the mutex left alone. -/
theorem of_timer (h : c.Mutex) {t t' : Timer} (ht : c.timer = some t) (flags : Flags)
    (hholds : t'.holdsLock = t.holdsLock) : { c with flags, timer := some t' }.Mutex := by
  refine ⟨fun hs => absurd hs (h.stage_ne_starting ht), h.checker, h.timer.trans ?_⟩
  rw [ht]
  constructor
  · rintro ⟨u, hu, hholds'⟩
    cases hu
    exact ⟨t', rfl, hholds.trans hholds'⟩
  · rintro ⟨u, hu, hholds'⟩
    cases hu
    exact ⟨t, rfl, hholds ▸ hholds'⟩

/-- The timer thread takes the mutex. -/
theorem timer_locks (h : c.Mutex) {t t' : Timer} (ht : c.timer = some t) (hfree : c.lock = none)
    (hholds : t'.holdsLock = true) :
    { c with lock := some .timer, timer := some t' }.Mutex := by
  refine ⟨fun hs => absurd hs (h.stage_ne_starting ht), iff_of_false nofun fun hc => ?_,
    iff_of_true rfl ⟨t', rfl, hholds⟩⟩
  have hheld := h.checker.2 hc
  rw [hfree] at hheld
  cases hheld

/-- The timer thread releases the mutex. -/
theorem timer_unlocks (h : c.Mutex) {t t' : Timer} (ht : c.timer = some t)
    (hheld : t.holdsLock = true) (hholds : t'.holdsLock = false) :
    { c with lock := none, timer := some t' }.Mutex := by
  have hlock : c.lock = some .timer := h.timer.2 ⟨t, ht, hheld⟩
  refine ⟨fun hs => absurd hs (h.stage_ne_starting ht), iff_of_false nofun fun hc => ?_,
    iff_of_false nofun ?_⟩
  · have hlock' := h.checker.2 hc
    rw [hlock] at hlock'
    cases hlock'
  · rintro ⟨u, hu, hholds'⟩
    cases hu
    rw [hholds] at hholds'
    cases hholds'

/-- **The timer thread leaves the mutex in order.** -/
theorem timerMoves (h : c.Mutex) (hm : TimerMoves c c') : c'.Mutex := by
  cases hm with
  | lock ht hfree hc' => exact hc' ▸ h.timer_locks ht hfree rfl
  | wait ht hc' => exact hc' ▸ h.timer_unlocks ht rfl rfl
  | relock ht hfree hc' => exact hc' ▸ h.timer_locks ht hfree rfl
  | check ht hc' =>
    rw [hc']
    exact h.of_timer ht c.flags (by cases c.cancelled <;> rfl)
  | store ht hc' => exact hc' ▸ h.of_timer ht { c.flags with timedOut := true } rfl
  | kill ht hc' => exact hc' ▸ h.of_timer ht { c.flags with kill := true } rfl
  | release ht hc' => exact hc' ▸ h.timer_unlocks ht rfl rfl

variable [BEq State] {debug : Bool} {model : Model State Input Output}
variable {srt : UnstableSort (List (Entry Input Output))}

/-- **Every step leaves the mutex in order.** -/
theorem step (h : c.Mutex) {choice : Choice}
    (hs : (Porcupine.checker debug srt model).step choice c = some c') : c'.Mutex := by
  cases choice with
  | main => exact h.moves (Check.stepMain_moves hs)
  | worker i => exact h.moves (Check.stepWorker_moves hs)
  | skip i => exact h.moves (Check.stepSkip_moves hs)
  | timer => exact h.timerMoves (Check.stepTimer_moves hs)
  | expire =>
    obtain ⟨deadline, ht, -, rfl⟩ := Check.stepExpire_eq_some.1 hs
    exact h.of_timer ht c.flags rfl
  | spurious =>
    obtain ⟨⟨deadline, ht⟩, rfl⟩ := Check.stepSpurious_eq_some.1 hs
    exact h.of_timer ht c.flags rfl
  | tick =>
    obtain ⟨-, rfl⟩ := Check.stepTick_eq_some.1 hs
    exact ⟨h.unstarted, h.checker, h.timer⟩

/-! ## Who can step -/

omit [BEq State] in
/-- A timer thread that is inside the mutex can go on, -/
theorem timer_steps {t : Timer} (ht : c.timer = some t) (hholds : t.holdsLock = true) :
    ∃ c', c.stepTimer = some c' := by
  unfold Check.stepTimer
  rw [ht]
  cases t with
  | locked d => exact ⟨_, rfl⟩
  | checking => exact ⟨_, rfl⟩
  | storing => exact ⟨_, rfl⟩
  | killing => exact ⟨_, rfl⟩
  | releasing => exact ⟨_, rfl⟩
  | _ => cases hholds

/-- **A check that has not returned has a thread that can step**, without
time passing. -/
theorem progress (h : c.Mutex) (hdead : ∀ p, c.main ≠ .panicked p)
    (hr : (Porcupine.checker debug srt model).result c = none) :
    (∃ c', c.stepMain debug srt model = some c') ∨
      (∃ i c', c.stepWorker debug model i = some c') ∨ ∃ c', c.stepTimer = some c' := by
  cases hmain : c.main with
  | start timeout ps => exact Or.inl ⟨_, by rw [Check.stepMain, hmain]⟩
  | inline task rest =>
    refine Or.inl ?_
    simp only [Check.stepMain, hmain]
    cases task.step debug model c.flags with
    | ok x => exact ⟨_, rfl⟩
    | error p => exact ⟨_, rfl⟩
  | rayon tasks =>
    by_cases hfin : tasks.all Task.isFinished = true
    · exact Or.inl ⟨_, by simp only [Check.stepMain, hmain, hfin, if_true]; rfl⟩
    · -- while `any` waits there is a closure that can step
      obtain ⟨task, hmem, hnf⟩ : ∃ task ∈ tasks, ¬ task.isFinished = true := by
        simpa [List.all_eq_true] using hfin
      obtain ⟨i, hi⟩ := List.getElem?_of_mem hmem
      refine Or.inr (Or.inl ⟨i, ?_⟩)
      simp only [Check.stepWorker, hmain, hi]
      cases task with
      | finished o => exact absurd rfl hnf
      | _ =>
        simp only
        split
        · exact ⟨_, rfl⟩
        · exact ⟨_, rfl⟩
  | joined ok => exact Or.inl ⟨_, by rw [Check.stepMain, hmain]⟩
  | cancelLock ok =>
    cases hl : c.lock with
    | none => exact Or.inl ⟨_, by simp only [Check.stepMain, hmain, hl]; rfl⟩
    | some owner =>
      cases owner with
      | checker =>
        -- the checker is outside the mutex
        have hstage := h.checker.1 hl
        simp [Check.stage, hmain, Main.stage, Stage.holdsLock] at hstage
      | timer =>
        obtain ⟨t, ht, hholds⟩ := h.timer.1 hl
        exact Or.inr (Or.inr (timer_steps ht hholds))
  | cancelSet ok => exact Or.inl ⟨_, by rw [Check.stepMain, hmain]⟩
  | cancelUnlock ok => exact Or.inl ⟨_, by rw [Check.stepMain, hmain]⟩
  | cancelNotify ok => exact Or.inl ⟨_, by rw [Check.stepMain, hmain]⟩
  | reading ok =>
    refine Or.inl ?_
    simp only [Check.stepMain, hmain]
    split
    · exact ⟨_, rfl⟩
    · exact ⟨_, rfl⟩
  | readTimedOut ok => exact Or.inl ⟨_, by rw [Check.stepMain, hmain]⟩
  | returned r => simp [Porcupine.checker, Check.result, hmain] at hr
  | panicked p => exact absurd hmain (hdead p)

end Check.Mutex

/-! ## How far the end is -/

/-- The steps of the timer thread still to come, and the time it waits
for. -/
def Timer.left (clock : ℕ) : Timer → ℕ
  | .started d => d + 8
  | .locked d => d + 7
  | .waiting deadline => deadline - clock + 6
  | .woken => 5
  | .checking => 4
  | .storing => 3
  | .killing => 2
  | .releasing => 1
  | .exited => 0

/-- The same of a check, which may be about to spawn it. -/
def Check.timerLeft (c : Check State Input Output) : ℕ :=
  match c.main with
  | .start timeout _ => (timeout.map (· + 9)).getD 0
  | _ => (c.timer.map (Timer.left c.clock)).getD 0

theorem Check.timerLeft_eq (h : c.stage ≠ .starting) :
    c.timerLeft = (c.timer.map (Timer.left c.clock)).getD 0 := by
  unfold Check.timerLeft
  cases hmain : c.main with
  | start timeout ps => exact absurd (Check.stage_of_start hmain) h
  | _ => rfl

/-- A notification does not keep the timer thread longer. -/
theorem left_notify_le (timer : Option Timer) (clock : ℕ) :
    ((Check.notify timer).map (Timer.left clock)).getD 0 ≤
      (timer.map (Timer.left clock)).getD 0 := by
  cases timer with
  | none => exact le_rfl
  | some t =>
    cases t with
    | waiting deadline =>
      show 5 ≤ deadline - clock + 6
      omega
    | _ => exact le_rfl

/-- **The checker's threads do not keep the timer thread longer.** -/
theorem timerLeft_le_of_moves (hm : Moves c c') : c'.timerLeft ≤ c.timerLeft := by
  have later : c.stage ≠ .starting → c'.stage ≠ .starting → c'.clock = c.clock →
      (c'.timer = c.timer ∨ c'.timer = Check.notify c.timer) → c'.timerLeft ≤ c.timerLeft := by
    intro hs hs' hclock ht
    rw [Check.timerLeft_eq hs, Check.timerLeft_eq hs', hclock]
    rcases ht with ht | ht
    · rw [ht]
    · rw [ht]
      exact left_notify_le _ _
  cases hm with
  | @spawn timeout ps hc hc' hs =>
    have hne : c'.stage ≠ .starting := by rcases hs with hs | hs <;> rw [hs] <;> nofun
    rw [Check.timerLeft_eq hne, Check.timerLeft, hc, hc']
    cases timeout with
    | none => exact le_rfl
    | some d => exact Nat.le_succ (d + 8)
  | work hc hc' _ hs =>
    refine later (by rw [hc]; nofun) ?_ (by rw [hc']) (Or.inl (by rw [hc']))
    rcases hs with hs | hs | ⟨hs, -⟩ | ⟨hs, -⟩ <;> rw [hs] <;> nofun
  | lock hc _ hc' hs =>
    exact later (by rw [hc]; nofun) (by rw [hs]; nofun) (by rw [hc']) (Or.inl (by rw [hc']))
  | set hc hc' hs =>
    exact later (by rw [hc]; nofun) (by rw [hs]; nofun) (by rw [hc']) (Or.inl (by rw [hc']))
  | unlock hc hc' hs =>
    exact later (by rw [hc]; nofun) (by rw [hs]; nofun) (by rw [hc']) (Or.inl (by rw [hc']))
  | notify hc hc' hs =>
    exact later (by rw [hc]; nofun) (by rw [hs]; nofun) (by rw [hc']) (Or.inr (by rw [hc']))
  | answer hc hc' hs =>
    refine later (by rw [hc]; nofun) ?_ (by rw [hc']) (Or.inl (by rw [hc']))
    rcases hs with hs | hs <;> rw [hs] <;> nofun

/-- A timer thread that gets on has less left. -/
theorem timerLeft_lt (h : c.Mutex) {t t' : Timer} (ht : c.timer = some t) (flags : Flags)
    (lock : Option Owner) (clock : ℕ) (hlt : t'.left clock < t.left c.clock) :
    Check.timerLeft { c with flags, lock, timer := some t', clock } < c.timerLeft := by
  have hne := h.stage_ne_starting ht
  have hnew : Check.timerLeft { c with flags, lock, timer := some t', clock } = t'.left clock :=
    Check.timerLeft_eq hne
  rw [hnew, Check.timerLeft_eq hne, ht]
  exact hlt

/-- **Every step of the timer thread brings its end nearer.** -/
theorem timerLeft_lt_of_timerMoves (h : c.Mutex) (hm : TimerMoves c c') :
    c'.timerLeft < c.timerLeft := by
  cases hm with
  | @lock d ht _ hc' => exact hc' ▸ timerLeft_lt h ht c.flags _ c.clock (Nat.lt_succ_self (d + 7))
  | @wait d ht hc' =>
    refine hc' ▸ timerLeft_lt h ht c.flags _ c.clock ?_
    show c.clock + d - c.clock + 6 < d + 7
    omega
  | relock ht _ hc' => exact hc' ▸ timerLeft_lt h ht c.flags _ c.clock (Nat.lt_succ_self 4)
  | check ht hc' =>
    refine hc' ▸ timerLeft_lt h ht c.flags c.lock c.clock ?_
    show Timer.left c.clock (if c.cancelled = true then .releasing else .storing) < 4
    split
    · exact Nat.lt_of_sub_eq_succ rfl
    · exact Nat.lt_of_sub_eq_succ rfl
  | store ht hc' => exact hc' ▸ timerLeft_lt h ht _ c.lock c.clock (Nat.lt_succ_self 2)
  | kill ht hc' => exact hc' ▸ timerLeft_lt h ht _ c.lock c.clock (Nat.lt_succ_self 1)
  | release ht hc' => exact hc' ▸ timerLeft_lt h ht c.flags _ c.clock (Nat.lt_succ_self 0)

/-- The wait ends. -/
theorem timerLeft_woken_lt (h : c.Mutex) {deadline : ℕ} (ht : c.timer = some (.waiting deadline)) :
    Check.timerLeft { c with timer := some .woken } < c.timerLeft := by
  refine timerLeft_lt h ht c.flags c.lock c.clock ?_
  show 5 < deadline - c.clock + 6
  omega

/-- Time that passes keeps no one longer, -/
theorem timerLeft_tick_le (h : c.Mutex) (ht : c.timer.isSome = true) :
    Check.timerLeft { c with clock := c.clock + 1 } ≤ c.timerLeft := by
  obtain ⟨t, ht⟩ := Option.isSome_iff_exists.1 ht
  have hne := h.stage_ne_starting ht
  have hnew : Check.timerLeft { c with clock := c.clock + 1 } =
      (c.timer.map (Timer.left (c.clock + 1))).getD 0 := Check.timerLeft_eq hne
  rw [hnew, Check.timerLeft_eq hne, ht]
  cases t with
  | waiting deadline =>
    show deadline - (c.clock + 1) + 6 ≤ deadline - c.clock + 6
    omega
  | _ => exact le_rfl

/-- and brings the end of a wait nearer. -/
theorem timerLeft_tick_lt (h : c.Mutex) {deadline : ℕ} (ht : c.timer = some (.waiting deadline))
    (hlt : c.clock < deadline) :
    Check.timerLeft { c with clock := c.clock + 1 } < c.timerLeft := by
  have hlow : (Timer.waiting deadline).left (c.clock + 1) < (Timer.waiting deadline).left c.clock := by
    show deadline - (c.clock + 1) + 6 < deadline - c.clock + 6
    omega
  have hsame : ({ c with timer := some (.waiting deadline), clock := c.clock + 1 } :
      Check State Input Output) = { c with clock := c.clock + 1 } := by rw [← ht]
  exact hsame ▸ timerLeft_lt h ht c.flags c.lock (c.clock + 1) hlow

/-! ## Every step counts -/

section Advancing

variable [BEq State] {debug : Bool} {model : Model State Input Output}
variable {srt : UnstableSort (List (Entry Input Output))}
variable {partitions : List (List (Entry Input Output))} {n : ℕ}

/-- **A check at most `n` steps from its end**, its timer thread's end
included. -/
def Advancing (V : Verdicts debug model partitions) (n : ℕ) (c : Check State Input Output) : Prop :=
  ∃ N, V.Sound N c ∧ c.Mutex ∧ N + c.timerLeft ≤ n

variable {V : Verdicts debug model partitions}

/-- The bound of a check about to start. -/
theorem advancing_begin (V : Verdicts debug model partitions) (timeout : Option ℕ) :
    Advancing V (V.total partitions + 9 + (timeout.map (· + 9)).getD 0)
      (.begin timeout (.ok partitions)) :=
  ⟨_, V.sound_begin timeout, .begin timeout _, le_rfl⟩

theorem Advancing.not_panicked (h : Advancing V n c) (p : Panic) : c.main ≠ .panicked p := by
  obtain ⟨N, hsound, -⟩ := h
  intro he
  have hmain := hsound.main
  rw [he] at hmain
  exact hmain

/-- **Every step but the passing of time brings the end nearer.** -/
theorem Advancing.step (h : Advancing V n c) {choice : Choice}
    (hs : (checker debug srt model).step choice c = some c') :
    if choice ≠ .tick then ∃ m < n, Advancing V m c' else Advancing V n c' := by
  obtain ⟨N, hsound, hmutex, hN⟩ := h
  have hmutex' := hmutex.step hs
  cases choice with
  | main =>
    obtain ⟨m, hm, hsound'⟩ := hsound.main_step hs
    have := timerLeft_le_of_moves (Check.stepMain_moves hs)
    exact ⟨m + c'.timerLeft, by omega, m, hsound', hmutex', le_rfl⟩
  | worker i =>
    obtain ⟨m, hm, hsound'⟩ := hsound.worker_step hs
    have := timerLeft_le_of_moves (Check.stepWorker_moves hs)
    exact ⟨m + c'.timerLeft, by omega, m, hsound', hmutex', le_rfl⟩
  | skip i =>
    obtain ⟨m, hm, hsound'⟩ := hsound.skip_step hs
    have := timerLeft_le_of_moves (Check.stepSkip_moves hs)
    exact ⟨m + c'.timerLeft, by omega, m, hsound', hmutex', le_rfl⟩
  | timer =>
    have := timerLeft_lt_of_timerMoves hmutex (Check.stepTimer_moves hs)
    exact ⟨N + c'.timerLeft, by omega, N, hsound.timer_step hs, hmutex', le_rfl⟩
  | expire =>
    obtain ⟨deadline, ht, -, rfl⟩ := Check.stepExpire_eq_some.1 hs
    have := timerLeft_woken_lt hmutex ht
    have hsound' : V.Sound N { c with timer := some .woken } :=
      hsound.of_quiet_timer (by rw [ht]; rfl) nofun rfl rfl
    exact ⟨_, by omega, N, hsound', hmutex', le_rfl⟩
  | spurious =>
    obtain ⟨⟨deadline, ht⟩, rfl⟩ := Check.stepSpurious_eq_some.1 hs
    have := timerLeft_woken_lt hmutex ht
    have hsound' : V.Sound N { c with timer := some .woken } :=
      hsound.of_quiet_timer (by rw [ht]; rfl) nofun rfl rfl
    exact ⟨_, by omega, N, hsound', hmutex', le_rfl⟩
  | tick =>
    obtain ⟨ht, rfl⟩ := Check.stepTick_eq_some.1 hs
    have := timerLeft_tick_le hmutex ht
    exact ⟨N, hsound.of_timer _ _ ht (.refl _) hsound.justified rfl hsound.killing _ rfl rfl rfl,
      hmutex', by omega⟩

end Advancing

end Porcupine
