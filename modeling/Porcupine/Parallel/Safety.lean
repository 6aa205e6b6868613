import Porcupine.Parallel.Invariant
import Porcupine.Parallel.Stages
/-!
# Every step keeps what a check knows

Every step of the checker's threads keeps `Verdicts.At` and lowers its
bound, and every step of the timer keeps it (`Verdicts.Sound.step`). So a
returned verdict is about the partitions, whatever the schedule was
(`answered_of_reachable`).
-/

namespace Porcupine

variable {State Input Output : Type} [BEq State] {debug : Bool} {model : Model State Input Output}
variable {partitions : List (List (Entry Input Output))}
variable {flags flags' : Flags} {n N : ℕ} {ok : Bool} {r : CheckResult}

namespace Verdicts

variable {V : Verdicts debug model partitions}
variable {srt : UnstableSort (List (Entry Input Output))} {c c' : Check State Input Output}

namespace Sound

/-- A state whose flags and main are known, the timer being where it was. -/
theorem of_main {flags' : Flags} (h : V.Sound N c) (main : Main State Input Output)
    (hmain : V.At flags' n main) (hj : flags'.Justified)
    (hdef : flags'.definitiveIllegal = true → ∃ g ∈ partitions, V.verdict g = false)
    (hto : flags'.timedOut = c.flags.timedOut) (hstart : ∀ t ps, main ≠ .start t ps) :
    V.Sound n { c with flags := flags', main } :=
  ⟨hmain, hj, hdef, fun hk => hto.trans (h.killing hk), fun t ps he => absurd he (hstart t ps)⟩

/-- The checker's thread has moved without touching the flags. -/
theorem of_goto (h : V.Sound N c) (main : Main State Input Output)
    (hmain : V.At c.flags n main) (hstart : ∀ t ps, main ≠ .start t ps) (c' : Check State Input Output)
    (hflags : c'.flags = c.flags) (hm : c'.main = main)
    (htimer : c'.timer = some .killing → c.timer = some .killing) : V.Sound n c' := by
  refine ⟨?_, ?_, ?_, fun hk => ?_, fun t ps he => absurd (hm.symm.trans he) (hstart t ps)⟩
  · rw [hflags, hm]
    exact hmain
  · rw [hflags]
    exact h.justified
  · rw [hflags]
    exact h.definitive
  · rw [hflags]
    exact h.killing (htimer hk)

theorem notify_killing {timer : Option Timer} (h : Check.notify timer = some .killing) :
    timer = some .killing := by
  rcases Check.notify_eq_some h with ⟨-, he⟩ | ⟨hsame, -⟩
  · cases he
  · exact hsame

/-- A task that has moved leaves a definitive answer about some partition. -/
theorem definitive_of_flagStep {g : List (Entry Input Output)} {task' : Task State Input Output}
    (h : V.Sound N c) (hg : g ∈ partitions) (hflags : V.FlagStep g c.flags flags' task')
    (hdef : flags'.definitiveIllegal = true) : ∃ g ∈ partitions, V.verdict g = false := by
  rcases hflags.definitive hdef with hd | ⟨hv, -⟩
  · exact h.definitive hd
  · exact ⟨g, hg, hv⟩

/-- **The timer is spawned and `check_parallel` entered.** -/
theorem start_step {timeout : Option ℕ} {ps : List (List (Entry Input Output))}
    (h : V.Sound N c) (hmain : c.main = .start timeout ps)
    (hs : c.stepMain debug srt model = some c') : ∃ n < N, V.Sound n c' := by
  have hat := h.main
  rw [hmain] at hat
  obtain ⟨rfl, hflags, hN⟩ := hat
  obtain ⟨main, hok, hmain', hstart⟩ := checkParallel_ok V srt
  simp only [Check.stepMain, hmain, Check.goto, hok, Option.some.injEq] at hs
  subst hs
  refine ⟨V.total ps + 8, by omega, hflags ▸ hmain', h.justified, h.definitive, fun hk => ?_,
    fun t ps he => absurd he (hstart t ps)⟩
  cases timeout <;> cases hk

/-- **The loop over the partitions**: the task of one has moved. -/
theorem inline_step {task : Task State Input Output} {rest : List (List (Entry Input Output))}
    (h : V.Sound N c) (hmain : c.main = .inline task rest)
    (hs : c.stepMain debug srt model = some c') : ∃ n < N, V.Sound n c' := by
  have hat := h.main
  rw [hmain] at hat
  obtain ⟨pre, g, n, hperm, hpre, hst, hnf, hacc, hN⟩ := hat
  have hg : g ∈ partitions := hperm.mem_iff.1 (by simp)
  obtain ⟨task', flags', hok, ⟨m, hm, hst'⟩, hflags, hkeep⟩ := hst.step hg h.justified hnf
  simp only [Check.stepMain, hmain, hok, Option.some.injEq] at hs
  subst hs
  refine ⟨m + V.total rest + 8, by omega, h.of_main _ ?_ hflags.justified
    (h.definitive_of_flagStep hg hflags) hflags.timedOut (ofTask_ne_start task' rest)⟩
  refine at_ofTask pre hperm hpre hst' (fun hdef => ?_) (Task.step_ne_skipped hnf hok) le_rfl
  rcases hflags.definitive hdef with hd | ⟨-, ha⟩
  · exact hkeep (hacc hd)
  · exact ha

/-- **A step of the checker's own thread.** -/
theorem main_step (h : V.Sound N c) (hs : c.stepMain debug srt model = some c') :
    ∃ n < N, V.Sound n c' := by
  obtain ⟨flags, cancelled, lock, timer, main, clock⟩ := c
  have hat := h.main
  cases main with
  | start timeout ps => exact h.start_step rfl hs
  | inline task rest => exact h.inline_step rfl hs
  | rayon tasks =>
    obtain ⟨gs, M, hperm, hall, hacc, hskip, hN⟩ := hat
    simp only [Check.stepMain] at hs
    split at hs
    · next hfin =>
      cases hs
      exact ⟨7, by omega, h.of_goto (.joined _)
        ⟨joined_of_rayon hperm hall hacc hskip hfin, le_rfl⟩ (by simp) _ rfl rfl id⟩
    · cases hs
  | joined ok =>
    obtain ⟨hj, hN⟩ := hat
    simp only [Check.stepMain, Option.some.injEq] at hs
    subst hs
    by_cases ht : timer.isSome = true
    · exact ⟨6, by omega, h.of_goto (.cancelLock ok) ⟨hj, le_rfl⟩ (by simp) _ rfl
        (if_pos ht) id⟩
    · exact ⟨2, by omega, h.of_goto (.reading ok) ⟨hj, le_rfl⟩ (by simp) _ rfl (if_neg ht) id⟩
  | cancelLock ok =>
    obtain ⟨hj, hN⟩ := hat
    simp only [Check.stepMain] at hs
    split at hs
    · cases hs
      exact ⟨5, by omega, h.of_goto (.cancelSet ok) ⟨hj, le_rfl⟩ (by simp) _ rfl rfl id⟩
    · cases hs
  | cancelSet ok =>
    obtain ⟨hj, hN⟩ := hat
    cases hs
    exact ⟨4, by omega, h.of_goto (.cancelUnlock ok) ⟨hj, le_rfl⟩ (by simp) _ rfl rfl id⟩
  | cancelUnlock ok =>
    obtain ⟨hj, hN⟩ := hat
    cases hs
    exact ⟨3, by omega, h.of_goto (.cancelNotify ok) ⟨hj, le_rfl⟩ (by simp) _ rfl rfl id⟩
  | cancelNotify ok =>
    obtain ⟨hj, hN⟩ := hat
    cases hs
    exact ⟨2, by omega, h.of_goto (.reading ok) ⟨hj, le_rfl⟩ (by simp) _ rfl rfl notify_killing⟩
  | reading ok =>
    obtain ⟨hj, hN⟩ := hat
    simp only [Check.stepMain] at hs
    split at hs
    · next hcond =>
      cases hs
      obtain ⟨-, hdef⟩ := Bool.and_eq_true_iff.1 hcond
      exact ⟨0, by omega, h.of_goto (.returned .illegal)
        ⟨by simp, ⟨fun _ => hdef, fun _ => rfl⟩, by simp⟩ (by simp) _ rfl rfl id⟩
    · next hcond =>
      cases hs
      exact ⟨1, by omega, h.of_goto (.readTimedOut ok)
        ⟨hj, hj.not_definitive hcond, le_rfl⟩ (by simp) _ rfl rfl id⟩
  | readTimedOut ok =>
    obtain ⟨hj, hdef, hN⟩ := hat
    simp only [Check.stepMain, Option.some.injEq] at hs
    subst hs
    exact ⟨0, by omega, h.of_goto (.returned _) (hj.answered hdef) (by simp) _ rfl rfl id⟩
  | returned r => cases hs
  | panicked p => cases hs

/-- What another task's step leaves in the list. -/
theorem mem_set_of_ne {α : Type} {l : List α} {i : ℕ} {a x y : α} (hx : x ∈ l)
    (hi : l[i]? = some y) (hne : x ≠ y) : x ∈ l.set i a := by
  obtain ⟨j, hj⟩ := List.getElem?_of_mem hx
  have hji : i ≠ j := by
    rintro rfl
    exact hne (Option.some.inj (hj.symm.trans hi))
  exact List.mem_of_getElem? ((List.getElem?_set_ne hji).trans hj)

theorem mem_set_self {α : Type} {l : List α} {i : ℕ} {a y : α} (hi : l[i]? = some y) :
    a ∈ l.set i a :=
  List.mem_of_getElem? (List.getElem?_set_self (List.getElem?_eq_some_iff.1 hi).1)

/-- **A step of a closure.** -/
theorem worker_step {i : ℕ} (h : V.Sound N c) (hs : c.stepWorker debug model i = some c') :
    ∃ n < N, V.Sound n c' := by
  obtain ⟨tasks, task, hmain, hi, hnf, hstep⟩ := Check.of_stepWorker hs
  have hat := h.main
  rw [hmain] at hat
  obtain ⟨gs, M, hperm, hall, hacc, hskip, hN⟩ := hat
  obtain ⟨g, hg, n, hst, hset⟩ := hall.set hi
  have hg' : g ∈ partitions := hperm.mem_iff.1 hg
  obtain ⟨task', flags', hok, ⟨m, hm, hst'⟩, hflags, hkeep⟩ := hst.step hg' h.justified hnf
  have hc' : c' = { c with flags := flags', main := .rayon (tasks.set i task') } := by
    obtain ⟨task₁, flags₁, hok₁, rfl⟩ | ⟨p, herr, -⟩ := hstep
    · cases hok₁.symm.trans hok
      rfl
    · cases herr.symm.trans hok
  subst hc'
  -- the others stand under the flags this one has raised
  obtain ⟨M', hM', hall'⟩ := hset flags' task' m hm hflags.le hst'
  refine ⟨M' + 8, by omega, h.of_main (.rayon (tasks.set i task'))
    ⟨gs, M', hperm, hall', fun hdef => ?_, fun hmem => ?_, le_rfl⟩ hflags.justified
    (h.definitive_of_flagStep hg' hflags) hflags.timedOut (by simp)⟩
  · rcases hflags.definitive hdef with hd | ⟨-, ha⟩
    · obtain ⟨t, ht, hta⟩ := hacc hd
      by_cases he : t = task
      · exact ⟨task', mem_set_self hi, hkeep (he ▸ hta)⟩
      · exact ⟨t, mem_set_of_ne ht hi he, hta⟩
    · exact ⟨task', mem_set_self hi, ha⟩
  · have hold : .finished .skipped ∈ tasks :=
      (List.mem_or_eq_of_mem_set hmem).resolve_right (Task.step_ne_skipped hnf hok).symm
    refine mem_set_of_ne (hskip hold) hi fun he => ?_
    rw [← he] at hnf
    cases hnf

/-- **A closure is skipped.** -/
theorem skip_step {i : ℕ} (h : V.Sound N c) (hs : c.stepSkip i = some c') :
    ∃ n < N, V.Sound n c' := by
  obtain ⟨tasks, entries, hmain, hi, hany, rfl⟩ := Check.of_stepSkip hs
  have hat := h.main
  rw [hmain] at hat
  obtain ⟨gs, M, hperm, hall, hacc, hskip, hN⟩ := hat
  obtain ⟨g, hg, n, hst, hset⟩ := hall.set hi
  obtain ⟨-, hn⟩ := hst
  obtain ⟨M', hM', hall'⟩ := hset c.flags (.finished .skipped) 0 (by omega) (.refl _) trivial
  obtain ⟨t, ht, htf⟩ := List.any_eq_true.1 hany
  -- the closure that made `any` give up stays where it is
  have hfailed : .finished .failed ∈ tasks := foundIllegal_iff.1 htf ▸ ht
  refine ⟨M' + 8, by omega, h.of_main (.rayon _) ⟨gs, M', hperm, hall', fun hdef => ?_,
    fun _ => mem_set_of_ne hfailed hi (by simp), le_rfl⟩ h.justified h.definitive rfl (by simp)⟩
  obtain ⟨t, ht, hta⟩ := hacc hdef
  refine ⟨t, mem_set_of_ne ht hi ?_, hta⟩
  rintro rfl
  cases hta

/-- Where there is a timer the check has started. -/
theorem started (h : V.Sound N c) (ht : c.timer.isSome = true) :
    ∀ timeout ps, c.main ≠ .start timeout ps := by
  intro timeout ps he
  rw [h.unstarted timeout ps he] at ht
  cases ht

/-- The timer, or time, has moved: the flags it has raised are its own. -/
theorem of_timer (h : V.Sound N c) (flags' : Flags) (timer : Option Timer)
    (ht : c.timer.isSome = true) (hle : c.flags.Le flags') (hj : flags'.Justified)
    (hdef : flags'.definitiveIllegal = c.flags.definitiveIllegal)
    (hk : timer = some .killing → flags'.timedOut = true) (c' : Check State Input Output)
    (hflags : c'.flags = flags') (htimer : c'.timer = timer) (hmain : c'.main = c.main) :
    V.Sound N c' := by
  refine ⟨?_, ?_, ?_, fun he => ?_, fun t ps he => absurd (hmain.symm.trans he) (h.started ht t ps)⟩
  · rw [hflags, hmain]
    exact h.main.mono hle hdef (h.started ht)
  · rw [hflags]
    exact hj
  · rw [hflags, hdef]
    exact h.definitive
  · rw [hflags]
    exact hk (htimer.symm.trans he)

/-- The timer, or time, has moved without raising a flag. -/
theorem of_quiet_timer (h : V.Sound N c) (ht : c.timer.isSome = true)
    (hk : c'.timer ≠ some .killing) (hflags : c'.flags = c.flags) (hmain : c'.main = c.main) :
    V.Sound N c' :=
  h.of_timer _ _ ht (.refl _) h.justified rfl (fun he => absurd he hk) c' hflags rfl hmain

/-- **A step of the timer thread.** -/
theorem timer_step (h : V.Sound N c) (hs : c.stepTimer = some c') : V.Sound N c' := by
  cases Check.stepTimer_moves hs with
  | lock ht _ hc' =>
    subst hc'
    exact h.of_quiet_timer (by rw [ht]; rfl) nofun rfl rfl
  | wait ht hc' =>
    subst hc'
    exact h.of_quiet_timer (by rw [ht]; rfl) nofun rfl rfl
  | relock ht _ hc' =>
    subst hc'
    exact h.of_quiet_timer (by rw [ht]; rfl) nofun rfl rfl
  | check ht hc' =>
    subst hc'
    refine h.of_quiet_timer (by rw [ht]; rfl) (fun he => ?_) rfl rfl
    cases hcan : c.cancelled <;> simp [hcan] at he
  | store ht hc' =>
    subst hc'
    exact h.of_timer { c.flags with timedOut := true } (some .killing) (by rw [ht]; rfl)
      ⟨id, fun _ => rfl, id⟩ (fun _ => Or.inr rfl) rfl (fun _ => rfl) _ rfl rfl rfl
  | kill ht hc' =>
    subst hc'
    -- the timer kills only after it has raised its own flag
    exact h.of_timer { c.flags with kill := true } (some .releasing) (by rw [ht]; rfl)
      ⟨fun _ => rfl, id, id⟩ (fun _ => Or.inr (h.killing ht)) rfl nofun _ rfl rfl rfl
  | release ht hc' =>
    subst hc'
    exact h.of_quiet_timer (by rw [ht]; rfl) nofun rfl rfl

/-- **Every step of a check keeps what is known of it.** -/
theorem step {choice : Choice} (h : V.Sound N c)
    (hs : (checker debug srt model).step choice c = some c') : ∃ n ≤ N, V.Sound n c' := by
  cases choice with
  | main =>
    obtain ⟨n, hn, h'⟩ := h.main_step hs
    exact ⟨n, hn.le, h'⟩
  | worker i =>
    obtain ⟨n, hn, h'⟩ := h.worker_step hs
    exact ⟨n, hn.le, h'⟩
  | skip i =>
    obtain ⟨n, hn, h'⟩ := h.skip_step hs
    exact ⟨n, hn.le, h'⟩
  | timer => exact ⟨N, le_rfl, h.timer_step hs⟩
  | expire =>
    obtain ⟨deadline, ht, -, rfl⟩ := Check.stepExpire_eq_some.1 hs
    exact ⟨N, le_rfl, h.of_quiet_timer (by rw [ht]; rfl) nofun rfl rfl⟩
  | spurious =>
    obtain ⟨⟨deadline, ht⟩, rfl⟩ := Check.stepSpurious_eq_some.1 hs
    exact ⟨N, le_rfl, h.of_quiet_timer (by rw [ht]; rfl) nofun rfl rfl⟩
  | tick =>
    obtain ⟨ht, rfl⟩ := Check.stepTick_eq_some.1 hs
    exact ⟨N, le_rfl, h.of_timer _ _ ht (.refl _) h.justified rfl h.killing _ rfl rfl rfl⟩

end Sound

/-- A check about to start. -/
theorem sound_begin (V : Verdicts debug model partitions) (timeout : Option ℕ) :
    V.Sound (V.total partitions + 9) (.begin timeout (.ok partitions)) :=
  ⟨⟨rfl, rfl, le_rfl⟩, nofun, nofun, nofun, fun _ _ _ => rfl⟩

/-- **What is known of every state a check comes to.** -/
theorem sound_of_reachable (V : Verdicts debug model partitions)
    {P : Check State Input Output → Choice → Prop} {timeout : Option ℕ}
    (h : (checker debug srt model).Reach P (.begin timeout (.ok partitions)) c) :
    ∃ N, V.Sound N c :=
  h.invariant (I := fun c => ∃ N, V.Sound N c) ⟨_, V.sound_begin timeout⟩
    fun _ _ _ ⟨_, hN⟩ _ hs =>
      let ⟨n, _, h'⟩ := hN.step hs
      ⟨n, h'⟩

/-- **What every returned verdict says**, under every schedule. -/
theorem answered_of_reachable (V : Verdicts debug model partitions)
    {P : Check State Input Output → Choice → Prop} {timeout : Option ℕ}
    (h : (checker debug srt model).Reach P (.begin timeout (.ok partitions)) c)
    (hr : (checker debug srt model).result c = some r) : V.Answered c.flags r := by
  obtain ⟨N, hN⟩ := V.sound_of_reachable h
  have hmain := hN.main
  simp only [checker, Check.result] at hr
  split at hr
  · next he =>
    cases hr
    rw [he] at hmain
    exact hmain
  · cases hr

end Verdicts

end Porcupine
