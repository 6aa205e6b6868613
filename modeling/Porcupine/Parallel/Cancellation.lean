import Porcupine.Parallel.Stages
/-!
# Who wakes the timer

`notify_one` is forgotten where nobody waits, and the timer does not look
at the cancel flag before it waits. So a timer thread that starts late
sleeps its full duration after the check has returned. One that has
entered its wait by the time the check notifies never does: it is awake
from then on and can run to its exit (`Check.Orderly.exits`).
-/

namespace Porcupine

open Transition

variable {State Input Output : Type}

namespace Timer

/-- The timer thread holds the mutex. -/
def holdsLock : Timer → Bool
  | .locked _ | .checking | .storing | .killing | .releasing => true
  | _ => false

/-- It has entered its wait. -/
def hasWaited : Timer → Bool
  | .started _ | .locked _ => false
  | _ => true

/-- Its wait is over. -/
def isAwake : Timer → Bool
  | .started _ | .locked _ | .waiting _ => false
  | _ => true

end Timer

/-- **The timer thread waits** although the cancel flag is set and the
notification has been issued. -/
def Check.isLeaked (c : Check State Input Output) : Bool :=
  match c.timer with
  | some (.waiting _) => c.cancelled && c.stage.cancelReturned
  | _ => false

/-- **A notification finds the timer thread in its wait**, or past it. -/
def Check.notifiesWaiter (c : Check State Input Output) (choice : Choice) : Bool :=
  if choice = .main ∧ c.stage = .notifying then c.timer.all Timer.hasWaited else true

/-- What is known of the mutex and the timer thread. -/
structure Check.Orderly (c : Check State Input Output) : Prop where
  unstarted : c.stage = .starting → c.timer = none
  checker : c.lock = some .checker → c.stage.holdsLock = true
  timer : c.lock = some .timer → ∃ t, c.timer = some t ∧ t.holdsLock = true
  awake : c.stage.cancelReturned = true → ∀ t, c.timer = some t → t.isAwake = true

variable {c c' : Check State Input Output}

namespace Check.Orderly

theorem begin (timeout : Option ℕ) (ps : Result (List (List (Entry Input Output)))) :
    (Check.begin timeout ps : Check State Input Output).Orderly := by
  cases ps with
  | ok ps => exact ⟨fun _ => rfl, nofun, nofun, nofun⟩
  | error p => exact ⟨nofun, nofun, nofun, nofun⟩

/-- A timer thread whose wait is over is not in it. -/
theorem not_leaked (h : c.Orderly) : c.isLeaked = false := by
  unfold Check.isLeaked
  split
  · next deadline ht =>
    cases hret : c.stage.cancelReturned with
    | false => exact Bool.and_false _
    | true => exact absurd (h.awake hret _ ht) Bool.false_ne_true
  · rfl

/-- A later stage, with a timer thread in order. -/
theorem later {s : Stage} (hs : c'.stage = s) (hne : s ≠ .starting)
    (hchecker : c'.lock = some .checker → s.holdsLock = true)
    (htimer : c'.lock = some .timer → ∃ t, c'.timer = some t ∧ t.holdsLock = true)
    (hawake : s.cancelReturned = true → ∀ t, c'.timer = some t → t.isAwake = true) :
    c'.Orderly :=
  ⟨fun he => absurd (hs.symm.trans he) hne, fun he => hs ▸ hchecker he, htimer,
    fun he => hawake (hs ▸ he)⟩

/-- A later stage, the mutex left alone by a checker that does not hold it,
and the timer left alone. -/
theorem undisturbed (h : c.Orderly) {s : Stage} (hs : c'.stage = s) (hne : s ≠ .starting)
    (hfree : c.stage.holdsLock = false) (hl : c'.lock = c.lock) (ht : c'.timer = c.timer)
    (hawake : s.cancelReturned = true → ∀ t, c.timer = some t → t.isAwake = true) :
    c'.Orderly := by
  refine later hs hne (fun he => ?_) (fun he => ?_) fun hret t he => hawake hret t (ht ▸ he)
  · rw [h.checker (hl ▸ he)] at hfree
    cases hfree
  · rw [ht]
    exact h.timer (hl ▸ he)

/-- Where neither side is known to hold the mutex, it is free. -/
theorem lock_eq_none (h : c.Orderly) (hfree : c.stage.holdsLock = false)
    (htimer : ∀ t, c.timer = some t → t.holdsLock = false) : c.lock = none := by
  cases hlock : c.lock with
  | none => rfl
  | some owner =>
    cases owner with
    | checker =>
      rw [h.checker hlock] at hfree
      cases hfree
    | timer =>
      obtain ⟨t, ht, hholds⟩ := h.timer hlock
      rw [htimer t ht] at hholds
      cases hholds

/-- A later stage, still in `cancel` or before it, with the mutex free. -/
theorem later_of_free {s : Stage} (hs : c'.stage = s) (hne : s ≠ .starting)
    (hl : c'.lock = none) (hret : s.cancelReturned = false) : c'.Orderly := by
  refine later hs hne (fun he => ?_) (fun he => ?_) fun he => ?_
  · rw [hl] at he
    cases he
  · rw [hl] at he
    cases he
  · rw [hret] at he
    cases he

/-- **The checker's threads keep order**, if their notification finds the
timer thread in its wait. -/
theorem moves (h : c.Orderly) (hm : Moves c c')
    (hnotify : c.stage = .notifying → c.timer.all Timer.hasWaited = true) : c'.Orderly := by
  cases hm with
  | spawn hc hc' hs =>
    have hstage : c.stage = .starting := Check.stage_of_start hc
    have hl : c.lock = none := by
      refine h.lock_eq_none (by rw [hstage]; rfl) fun t ht => ?_
      rw [h.unstarted hstage] at ht
      cases ht
    have hl' : c'.lock = none := by
      rw [hc']
      exact hl
    rcases hs with hs | hs <;> exact later_of_free hs nofun hl' rfl
  | work hc hc' _ hs =>
    have hfree : c.stage.holdsLock = false := by
      rw [hc]
      rfl
    have hl : c'.lock = c.lock := by rw [hc']
    have ht : c'.timer = c.timer := by rw [hc']
    rcases hs with hs | hs | ⟨hs, -⟩ | ⟨hs, hnone⟩
    · exact h.undisturbed hs nofun hfree hl ht nofun
    · exact h.undisturbed hs nofun hfree hl ht nofun
    · exact h.undisturbed hs nofun hfree hl ht nofun
    · refine h.undisturbed hs nofun hfree hl ht fun _ t he => ?_
      -- without a timer there is no timer thread to speak of
      rw [hnone] at he
      cases he
  | lock _ _ hc' hs =>
    have hl : c'.lock = some .checker := by rw [hc']
    refine later hs nofun (fun _ => rfl) (fun he => ?_) nofun
    rw [hl] at he
    cases he
  | set _ hc' hs =>
    have hl : c'.lock = c.lock := by rw [hc']
    have ht : c'.timer = c.timer := by rw [hc']
    exact later hs nofun (fun _ => rfl) (fun he => ht ▸ h.timer (hl ▸ he)) nofun
  | unlock _ hc' hs =>
    have hl : c'.lock = none := by rw [hc']
    exact later_of_free hs nofun hl rfl
  | notify hc hc' hs =>
    have hl : c'.lock = c.lock := by rw [hc']
    have ht : c'.timer = Check.notify c.timer := by rw [hc']
    refine later hs nofun (fun he => ?_) (fun he => ?_) fun _ t he => ?_
    · have hholds := h.checker (hl ▸ he)
      rw [hc] at hholds
      cases hholds
    · -- a timer thread that holds the mutex does not wait
      obtain ⟨t, htimer, hholds⟩ := h.timer (hl ▸ he)
      refine ⟨t, ?_, hholds⟩
      rw [ht, htimer]
      cases t <;> first | rfl | cases hholds
    · rcases Check.notify_eq_some (ht ▸ he) with ⟨-, rfl⟩ | ⟨hsame, hnot⟩
      · rfl
      · -- it has entered its wait and is not in it
        have hwaited := hnotify hc
        rw [hsame] at hwaited
        cases t with
        | waiting deadline => exact absurd rfl (hnot deadline)
        | _ => exact hwaited
  | answer hc hc' hs =>
    have hfree : c.stage.holdsLock = false := by
      rw [hc]
      rfl
    have hawake : ∀ t, c.timer = some t → t.isAwake = true := h.awake (by rw [hc]; rfl)
    rcases hs with hs | hs <;>
      exact h.undisturbed hs nofun hfree (by rw [hc']) (by rw [hc']) fun _ => hawake

/-- A step of the timer thread that takes or leaves the mutex as it
should. -/
theorem of_timer (h : c.Orderly) {t t' : Timer} (ht : c.timer = some t) (flags : Flags)
    (lock : Option Owner) (hchecker : lock = some .checker → c.lock = some .checker)
    (hholds : lock = some .timer → t'.holdsLock = true)
    (hawake : t.isAwake = true → t'.isAwake = true) :
    { c with flags, lock, timer := some t' }.Orderly := by
  refine ⟨fun hs => ?_, fun he => h.checker (hchecker he), fun he => ⟨t', rfl, hholds he⟩,
    fun hs u hu => ?_⟩
  · rw [h.unstarted hs] at ht
    cases ht
  · cases hu
    exact hawake (h.awake hs t ht)

/-- **So does the timer thread.** -/
theorem timerMoves (h : c.Orderly) (hm : TimerMoves c c') : c'.Orderly := by
  cases hm with
  | lock ht _ hc' =>
    rw [hc']
    exact h.of_timer ht c.flags (some .timer) nofun (fun _ => rfl) nofun
  | wait ht hc' =>
    rw [hc']
    exact h.of_timer ht c.flags none nofun nofun nofun
  | relock ht _ hc' =>
    rw [hc']
    exact h.of_timer ht c.flags (some .timer) nofun (fun _ => rfl) fun _ => rfl
  | check ht hc' =>
    rw [hc']
    -- whichever way the flag reads, the mutex is still held and the wait is over
    refine h.of_timer ht c.flags c.lock id (fun _ => ?_) fun _ => ?_
    · cases c.cancelled <;> rfl
    · cases c.cancelled <;> rfl
  | store ht hc' =>
    rw [hc']
    exact h.of_timer ht { c.flags with timedOut := true } c.lock id (fun _ => rfl) fun _ => rfl
  | kill ht hc' =>
    rw [hc']
    exact h.of_timer ht { c.flags with kill := true } c.lock id (fun _ => rfl) fun _ => rfl
  | release ht hc' =>
    rw [hc']
    exact h.of_timer ht c.flags none nofun nofun fun _ => rfl

/-- The wait returns. -/
theorem woken (h : c.Orderly) {deadline : ℕ} (ht : c.timer = some (.waiting deadline)) :
    { c with timer := some .woken }.Orderly := by
  refine h.of_timer ht c.flags c.lock id (fun he => ?_) fun _ => rfl
  obtain ⟨t, ht', hholds⟩ := h.timer he
  rw [ht] at ht'
  cases ht'
  cases hholds

theorem tick (h : c.Orderly) : { c with clock := c.clock + 1 }.Orderly :=
  ⟨h.unstarted, h.checker, h.timer, h.awake⟩

variable [BEq State] {debug : Bool} {model : Model State Input Output}
variable {srt : UnstableSort (List (Entry Input Output))}

/-- **A check stays orderly** as long as its notifications find a
waiter. -/
theorem step (h : c.Orderly) {choice : Choice} (hnotify : c.notifiesWaiter choice = true)
    (hs : (Porcupine.checker debug srt model).step choice c = some c') : c'.Orderly := by
  cases choice with
  | main =>
    refine h.moves (Check.stepMain_moves hs) fun hstage => ?_
    rwa [Check.notifiesWaiter, if_pos ⟨rfl, hstage⟩] at hnotify
  | worker i =>
    have hstage : c.stage = .checking := Check.stage_of_stepWorker hs
    exact h.moves (Check.stepWorker_moves hs) fun he => by rw [hstage] at he; cases he
  | skip i =>
    have hstage : c.stage = .checking := Check.stage_of_stepSkip hs
    exact h.moves (Check.stepSkip_moves hs) fun he => by rw [hstage] at he; cases he
  | timer => exact h.timerMoves (Check.stepTimer_moves hs)
  | expire =>
    obtain ⟨deadline, ht, -, rfl⟩ := Check.stepExpire_eq_some.1 hs
    exact h.woken ht
  | spurious =>
    obtain ⟨⟨deadline, ht⟩, rfl⟩ := Check.stepSpurious_eq_some.1 hs
    exact h.woken ht
  | tick =>
    obtain ⟨-, rfl⟩ := Check.stepTick_eq_some.1 hs
    exact h.tick

/-! ## The way out -/

/-- **The timer thread can exit** by its own steps. -/
def Exits (debug : Bool) (srt : UnstableSort (List (Entry Input Output)))
    (model : Model State Input Output) (c : Check State Input Output) : Prop :=
  ∃ c', (Porcupine.checker debug srt model).Reach (fun _ choice => choice = .timer) c c' ∧
    c'.timer = some .exited

theorem Exits.of_step (hs : c.stepTimer = some c') (h : Exits debug srt model c') :
    Exits debug srt model c := by
  obtain ⟨c'', hreach, hexit⟩ := h
  have hfirst : (Porcupine.checker debug srt model).Reach (fun _ choice => choice = .timer) c c' :=
    .single (c := Choice.timer) rfl hs
  exact ⟨c'', hfirst.trans hreach, hexit⟩

theorem exits_releasing (ht : c.timer = some .releasing) : Exits debug srt model c :=
  .of_step (by rw [Check.stepTimer, ht]) ⟨_, .refl, rfl⟩

theorem exits_killing (ht : c.timer = some .killing) : Exits debug srt model c :=
  .of_step (by rw [Check.stepTimer, ht]) (exits_releasing rfl)

theorem exits_storing (ht : c.timer = some .storing) : Exits debug srt model c :=
  .of_step (by rw [Check.stepTimer, ht]) (exits_killing rfl)

theorem exits_checking (ht : c.timer = some .checking) : Exits debug srt model c := by
  refine .of_step (by rw [Check.stepTimer, ht]) ?_
  cases c.cancelled with
  | false => exact exits_storing rfl
  | true => exact exits_releasing rfl

omit [BEq State] in
/-- The mutex is free for a timer thread that is to take it again. -/
theorem lock_free (h : c.Orderly) (hret : c.stage.cancelReturned = true)
    (ht : c.timer = some .woken) : c.lock = none := by
  refine h.lock_eq_none ?_ fun t ht' => ?_
  · revert hret
    cases c.stage <;> simp [Stage.holdsLock, Stage.cancelReturned]
  · rw [ht] at ht'
    cases ht'
    rfl

/-- **Once the check has notified, its timer thread can exit**, whether or
not the duration elapses. -/
theorem exits (h : c.Orderly) (hret : c.stage.cancelReturned = true) {t : Timer}
    (ht : c.timer = some t) : Exits debug srt model c := by
  have hawake := h.awake hret t ht
  cases t with
  | started d => cases hawake
  | locked d => cases hawake
  | waiting deadline => cases hawake
  | woken =>
    have hs : c.stepTimer = some { c with lock := some .timer, timer := some .checking } := by
      simp [Check.stepTimer, ht, h.lock_free hret ht]
    exact .of_step hs (exits_checking rfl)
  | checking => exact exits_checking ht
  | storing => exact exits_storing ht
  | killing => exact exits_killing ht
  | releasing => exact exits_releasing ht
  | exited => exact ⟨c, .refl, ht⟩

end Check.Orderly

end Porcupine
