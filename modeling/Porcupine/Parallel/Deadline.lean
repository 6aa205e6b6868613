import Porcupine.Parallel.Verdict
/-!
# A timer that is cancelled in time

The timer decides whether it fired from the cancel flag alone, after a
single wait, so every way the wait can end has to be accounted for. As
long as it ends by being notified, by its deadline, or for no reason once
the flag is set, a check that cancels before the deadline is never
disturbed: `Quiet` says what the timer can be doing then.
-/

namespace Porcupine

open Transition

variable {State Input Output : Type}

/-- **The duration has not elapsed**, since the check was called or at least
since its timer began to wait, or it no longer matters: `cancel` has
returned. -/
def Check.InTime (d : ℕ) (c : Check State Input Output) : Prop :=
  c.stage.cancelReturned = true ∨ c.clock < d ∨
    ∀ deadline, c.timer = some (.waiting deadline) → c.clock < deadline

/-- What a timer of duration `d` can be doing in a check that has come this
far in time. -/
def Timer.Quiet (d : ℕ) (cancelled : Bool) : Timer → Prop
  | .started d' => d' = d
  | .locked d' => d' = d
  | .waiting deadline => cancelled = true ∨ d ≤ deadline
  | .woken => cancelled = true
  | .checking => cancelled = true
  | .storing => False
  | .killing => False
  | .releasing => True
  | .exited => True

theorem Timer.Quiet.mono {d : ℕ} {b b' : Bool} {t : Timer} (h : t.Quiet d b)
    (hb : b = true → b' = true) : t.Quiet d b' := by
  cases t with
  | started d' => exact h
  | locked d' => exact h
  | waiting deadline => exact h.imp_left hb
  | woken => exact hb h
  | checking => exact hb h
  | storing => exact h
  | killing => exact h
  | releasing => exact h
  | exited => exact h

/-- A check that its timer has not disturbed. -/
structure Check.Quiet (d : ℕ) (c : Check State Input Output) : Prop where
  timedOut : c.flags.timedOut = false
  timer : ∀ t, c.timer = some t → t.Quiet d c.cancelled
  cancelled : c.stage.flagSet = true → c.timer.isSome = true → c.cancelled = true
  timeout : ∀ timeout ps, c.main = .start timeout ps → timeout = some d

variable {d : ℕ} {c c' : Check State Input Output}

namespace Check.Quiet

theorem begin (ps : Result (List (List (Entry Input Output)))) :
    (Check.begin (some d) ps : Check State Input Output).Quiet d := by
  cases ps with
  | ok ps => exact ⟨rfl, nofun, nofun, fun _ _ h => by cases h; rfl⟩
  | error p => exact ⟨rfl, nofun, nofun, nofun⟩

/-- A later stage, with a timer that is still quiet. -/
theorem later (h : c.Quiet d) {s : Stage} (hs : c'.stage = s) (hne : s ≠ .starting)
    (hto : c'.flags.timedOut = c.flags.timedOut)
    (ht : ∀ t, c'.timer = some t → t.Quiet d c'.cancelled)
    (hset : s.flagSet = true → c'.timer.isSome = true → c'.cancelled = true) : c'.Quiet d := by
  refine ⟨hto.trans h.timedOut, ht, fun hf => hset (hs ▸ hf), fun timeout ps he => ?_⟩
  exact absurd (hs.symm.trans (Check.stage_of_start he)) hne

/-- A later stage, the timer and its flags left alone. -/
theorem undisturbed (h : c.Quiet d) {s : Stage} (hs : c'.stage = s) (hne : s ≠ .starting)
    (hto : c'.flags.timedOut = c.flags.timedOut) (ht : c'.timer = c.timer)
    (hcan : c'.cancelled = c.cancelled)
    (hset : s.flagSet = true → c.timer.isSome = true → c.cancelled = true) : c'.Quiet d := by
  refine h.later hs hne hto (fun t he => ?_) fun hf hsome => ?_
  · rw [hcan]
    exact h.timer t (ht ▸ he)
  · rw [hcan]
    exact hset hf (ht ▸ hsome)

/-- **The checker's threads do not disturb themselves.** -/
theorem moves (h : c.Quiet d) (hm : Moves c c') : c'.Quiet d := by
  cases hm with
  | spawn hc hc' hs =>
    have ht : c'.timer = some (.started d) := by
      rw [hc', h.timeout _ _ hc]
      rfl
    have hto : c'.flags.timedOut = c.flags.timedOut := by rw [hc']
    have hquiet : ∀ t, c'.timer = some t → t.Quiet d c'.cancelled := fun t he => by
      rw [ht] at he
      cases he
      rfl
    rcases hs with hs | hs <;> exact h.later hs nofun hto hquiet nofun
  | work hc hc' hto hs =>
    have ht : c'.timer = c.timer := by rw [hc']
    have hcan : c'.cancelled = c.cancelled := by rw [hc']
    rcases hs with hs | hs | ⟨hs, -⟩ | ⟨hs, hnone⟩
    · exact h.undisturbed hs nofun hto ht hcan nofun
    · exact h.undisturbed hs nofun hto ht hcan nofun
    · exact h.undisturbed hs nofun hto ht hcan nofun
    · refine h.undisturbed hs nofun hto ht hcan fun _ hsome => ?_
      -- without a timer there was nothing to cancel
      rw [hnone] at hsome
      cases hsome
  | lock hc _ hc' hs => exact h.undisturbed hs nofun (by rw [hc']) (by rw [hc']) (by rw [hc']) nofun
  | set hc hc' hs =>
    have ht : c'.timer = c.timer := by rw [hc']
    have hcan : c'.cancelled = true := by rw [hc']
    refine h.later hs nofun (by rw [hc']) (fun t he => ?_) fun _ _ => hcan
    exact (h.timer t (ht ▸ he)).mono fun _ => hcan
  | unlock hc hc' hs =>
    refine h.undisturbed hs nofun (by rw [hc']) (by rw [hc']) (by rw [hc']) fun _ hsome => ?_
    exact h.cancelled (by rw [hc]; rfl) hsome
  | notify hc hc' hs =>
    have ht : c'.timer = Check.notify c.timer := by rw [hc']
    have hcan : c'.cancelled = c.cancelled := by rw [hc']
    have hset : c.timer.isSome = true → c.cancelled = true := h.cancelled (by rw [hc]; rfl)
    refine h.later hs nofun (by rw [hc']) (fun t he => ?_) fun _ hsome => ?_
    · rw [hcan]
      -- the notification may only wake a timer whose check is cancelled
      rcases Check.notify_eq_some (ht ▸ he) with ⟨⟨deadline, hwait⟩, rfl⟩ | ⟨hsame, -⟩
      · exact hset (by rw [hwait]; rfl)
      · exact h.timer t hsame
    · rw [ht, Check.isSome_notify] at hsome
      exact hcan.trans (hset hsome)
  | answer hc hc' hs =>
    have hset : c.timer.isSome = true → c.cancelled = true := h.cancelled (by rw [hc]; rfl)
    rcases hs with hs | hs <;>
      exact h.undisturbed hs nofun (by rw [hc']) (by rw [hc']) (by rw [hc']) fun _ => hset

/-- A step of the timer that leaves the flags, to something quiet. -/
theorem of_timer (h : c.Quiet d) (t' : Timer) {t : Timer} (ht : c.timer = some t)
    (ht' : t'.Quiet d c.cancelled) (lock : Option Owner) :
    { c with timer := some t', lock }.Quiet d :=
  ⟨h.timedOut, fun u hu => (by cases hu; exact ht'),
    fun hs _ => h.cancelled hs (by rw [ht]; rfl), h.timeout⟩

/-- **Nor does the timer disturb them.** -/
theorem timerMoves (h : c.Quiet d) (hm : TimerMoves c c') : c'.Quiet d := by
  cases hm with
  | @lock d' ht _ hc' =>
    have hd : d' = d := h.timer _ ht
    rw [hc']
    exact h.of_timer (.locked d') ht hd _
  | @wait d' ht hc' =>
    have hd : d' = d := h.timer _ ht
    rw [hc']
    exact h.of_timer (.waiting (c.clock + d')) ht (Or.inr (by omega)) _
  | relock ht _ hc' =>
    have hset : c.cancelled = true := h.timer _ ht
    rw [hc']
    exact h.of_timer .checking ht hset _
  | check ht hc' =>
    have hset : c.cancelled = true := h.timer _ ht
    rw [hc', hset, if_pos rfl]
    exact hset ▸ h.of_timer .releasing ht trivial c.lock
  | store ht _ => exact (h.timer _ ht).elim
  | kill ht _ => exact (h.timer _ ht).elim
  | release ht hc' =>
    rw [hc']
    exact h.of_timer .exited ht trivial _

/-- The wait ends: in time, only once the check is cancelled. -/
theorem woken (h : c.Quiet d) {deadline : ℕ} (ht : c.timer = some (.waiting deadline))
    (hset : c.cancelled = true) : { c with timer := some .woken }.Quiet d :=
  h.of_timer .woken ht hset c.lock

/-- A wait that ends in time does so because the check is cancelled. -/
theorem cancelled_of_inTime (h : c.Quiet d) (hin : c.InTime d) {deadline : ℕ}
    (ht : c.timer = some (.waiting deadline)) (hle : deadline ≤ c.clock) : c.cancelled = true := by
  rcases h.timer _ ht with hset | hlate
  · exact hset
  · rcases hin with hret | hlt | hlt
    · refine h.cancelled ?_ (by rw [ht]; rfl)
      revert hret
      cases c.stage <;> simp [Stage.cancelReturned, Stage.flagSet]
    · omega
    · exact absurd (hlt _ ht) (Nat.not_lt.2 hle)

variable [BEq State] {debug : Bool} {model : Model State Input Output}
variable {srt : UnstableSort (List (Entry Input Output))}

/-- **A check stays undisturbed** as long as it is in time and its timer is
not woken for no reason before the cancel flag is set. -/
theorem step (h : c.Quiet d) {choice : Choice} (hin : c.InTime d)
    (hspurious : choice = .spurious → c.cancelled = true)
    (hs : (checker debug srt model).step choice c = some c') : c'.Quiet d := by
  cases choice with
  | main => exact h.moves (Check.stepMain_moves hs)
  | worker i => exact h.moves (Check.stepWorker_moves hs)
  | skip i => exact h.moves (Check.stepSkip_moves hs)
  | timer => exact h.timerMoves (Check.stepTimer_moves hs)
  | expire =>
    obtain ⟨deadline, ht, hle, rfl⟩ := Check.stepExpire_eq_some.1 hs
    exact h.woken ht (h.cancelled_of_inTime hin ht hle)
  | spurious =>
    obtain ⟨⟨deadline, ht⟩, rfl⟩ := Check.stepSpurious_eq_some.1 hs
    exact h.woken ht (hspurious rfl)
  | tick =>
    obtain ⟨-, rfl⟩ := Check.stepTick_eq_some.1 hs
    exact ⟨h.timedOut, h.timer, h.cancelled, h.timeout⟩

end Check.Quiet

/-- **Cancelled in time, a check returns what it would without a timer**,
provided that its timer is not woken for no reason before the cancel flag
is set. -/
theorem Verdicts.eq_answer_of_inTime [BEq State] {debug : Bool} {model : Model State Input Output}
    {srt : UnstableSort (List (Entry Input Output))}
    {partitions : List (List (Entry Input Output))} (V : Verdicts debug model partitions)
    {r : CheckResult}
    (h : (checker debug srt model).Reach
      (fun c choice => c.InTime d ∧ (choice = .spurious → c.cancelled = true))
      (.begin (some d) (.ok partitions)) c)
    (hr : (checker debug srt model).result c = some r) : r = V.answer := by
  have hquiet : c.Quiet d :=
    h.invariant (.begin _) fun _ _ _ hq hP hs => hq.step hP.1 hP.2 hs
  obtain ⟨N, hsound⟩ := V.sound_of_reachable h
  exact (V.answered_of_reachable h hr).eq_answer hquiet.timedOut hsound.definitive

end Porcupine
