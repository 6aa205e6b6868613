import Porcupine.Parallel.Tasks
/-!
# What a check knows wherever it stands

`Verdicts.At` says, for every place the checker's thread can be at, what
the flags and the partitions' verdicts have to do with each other there,
under a bound on the steps of the checker still to come. It holds where
`check_parallel` is entered (`checkParallel_ok`), a raised flag of the
timer changes nothing of it (`At.mono`), and what `check_parallel` and
`to_check_result` return follows from it (`joined_of_rayon`,
`Joined.answered`).
-/

namespace Porcupine

variable {State Input Output : Type} [BEq State] {debug : Bool} {model : Model State Input Output}
variable {partitions : List (List (Entry Input Output))}
variable {flags flags' : Flags} {n N : ℕ} {ok : Bool} {r : CheckResult}

namespace Verdicts

variable (V : Verdicts debug model partitions)

/-! ## The invariant -/

/-- What is known when `check_parallel` has returned `ok`. -/
structure Joined (flags : Flags) (ok : Bool) : Prop where
  passed : ok = true → flags.definitiveIllegal = false ∧
    ((∀ g ∈ partitions, V.verdict g = true) ∨ flags.timedOut = true)
  failed : ok = false → flags.Settled

/-- **What a returned verdict says.** -/
structure Answered (flags : Flags) (r : CheckResult) : Prop where
  ok : r = .ok → ∀ g ∈ partitions, V.verdict g = true
  illegal : r = .illegal ↔ flags.definitiveIllegal = true
  unknown : r = .unknown → flags.timedOut = true

/-- The steps of partitions that have not been started. -/
def total (gs : List (List (Entry Input Output))) : ℕ := (gs.map fun g => V.passes g + 5).sum

/-- Each task stands on its partition, with at most `N` steps to come
altogether. -/
def StandAll (flags : Flags) : ℕ → List (List (Entry Input Output)) →
    List (Task State Input Output) → Prop
  | _, [], [] => True
  | N, g :: gs, task :: tasks => ∃ n m, n + m ≤ N ∧ V.Stands flags g n task ∧
      StandAll flags m gs tasks
  | _, _, _ => False

/-- **What is known where the checker's thread stands**, with at most `N`
steps to come. -/
def At (flags : Flags) : ℕ → Main State Input Output → Prop
  | N, .start _ ps => ps = partitions ∧ flags = {} ∧ V.total ps + 9 ≤ N
  | N, .inline task rest => ∃ pre g n, (pre ++ g :: rest).Perm partitions ∧
      (∀ x ∈ pre, V.verdict x = true) ∧ V.Stands flags g n task ∧ task.isFinished = false ∧
      (flags.definitiveIllegal = true → task.isAccused = true) ∧ n + V.total rest + 8 ≤ N
  | N, .rayon tasks => ∃ gs M, gs.Perm partitions ∧ V.StandAll flags M gs tasks ∧
      (flags.definitiveIllegal = true → ∃ task ∈ tasks, task.isAccused = true) ∧
      (.finished .skipped ∈ tasks → .finished .failed ∈ tasks) ∧ M + 8 ≤ N
  | N, .joined ok => V.Joined flags ok ∧ 7 ≤ N
  | N, .cancelLock ok => V.Joined flags ok ∧ 6 ≤ N
  | N, .cancelSet ok => V.Joined flags ok ∧ 5 ≤ N
  | N, .cancelUnlock ok => V.Joined flags ok ∧ 4 ≤ N
  | N, .cancelNotify ok => V.Joined flags ok ∧ 3 ≤ N
  | N, .reading ok => V.Joined flags ok ∧ 2 ≤ N
  | N, .readTimedOut ok => V.Joined flags ok ∧ flags.definitiveIllegal = false ∧ 1 ≤ N
  | _, .returned r => V.Answered flags r
  | _, .panicked _ => False

/-- **What is known of a check.** -/
structure Sound (N : ℕ) (c : Check State Input Output) : Prop where
  main : V.At c.flags N c.main
  justified : c.flags.Justified
  definitive : c.flags.definitiveIllegal = true → ∃ g ∈ partitions, V.verdict g = false
  killing : c.timer = some .killing → c.flags.timedOut = true
  unstarted : ∀ timeout ps, c.main = .start timeout ps → c.timer = none

variable {V}

/-! ## Lists of tasks -/

theorem StandAll.mono {gs : List (List (Entry Input Output))} {tasks : List (Task State Input Output)}
    (h : V.StandAll flags N gs tasks) (hle : flags.Le flags') : V.StandAll flags' N gs tasks := by
  induction gs generalizing N tasks with
  | nil =>
    cases tasks with
    | nil => trivial
    | cons task tasks => exact h
  | cons g gs ih =>
    cases tasks with
    | nil => exact h
    | cons task tasks =>
      obtain ⟨n, m, hN, hst, hrest⟩ := h
      exact ⟨n, m, hN, hst.mono hle, ih hrest⟩

/-- Every task stands on some partition. -/
theorem StandAll.stands_of_mem {gs : List (List (Entry Input Output))}
    {tasks : List (Task State Input Output)} {task : Task State Input Output}
    (h : V.StandAll flags N gs tasks) (hmem : task ∈ tasks) :
    ∃ g ∈ gs, ∃ n, V.Stands flags g n task := by
  induction gs generalizing N tasks with
  | nil =>
    cases tasks with
    | nil => cases hmem
    | cons task tasks => exact h.elim
  | cons g gs ih =>
    cases tasks with
    | nil => cases hmem
    | cons task' tasks =>
      obtain ⟨n, m, -, hst, hrest⟩ := h
      rcases List.mem_cons.1 hmem with rfl | hmem
      · exact ⟨g, by simp, n, hst⟩
      · obtain ⟨g', hg', hst'⟩ := ih hrest hmem
        exact ⟨g', List.mem_cons_of_mem _ hg', hst'⟩

/-- Every partition has its task. -/
theorem StandAll.exists_task {gs : List (List (Entry Input Output))}
    {tasks : List (Task State Input Output)} {g : List (Entry Input Output)}
    (h : V.StandAll flags N gs tasks) (hg : g ∈ gs) :
    ∃ task ∈ tasks, ∃ n, V.Stands flags g n task := by
  induction gs generalizing N tasks with
  | nil => cases hg
  | cons g' gs ih =>
    cases tasks with
    | nil => exact h.elim
    | cons task tasks =>
      obtain ⟨n, m, -, hst, hrest⟩ := h
      rcases List.mem_cons.1 hg with rfl | hg
      · exact ⟨task, by simp, n, hst⟩
      · obtain ⟨task', hmem, hst'⟩ := ih hrest hg
        exact ⟨task', List.mem_cons_of_mem _ hmem, hst'⟩

/-- **One task moves**, and the others stay where they are. -/
theorem StandAll.set {gs : List (List (Entry Input Output))}
    {tasks : List (Task State Input Output)} {task : Task State Input Output} {i : ℕ}
    (h : V.StandAll flags N gs tasks) (hi : tasks[i]? = some task) :
    ∃ g ∈ gs, ∃ n, V.Stands flags g n task ∧ ∀ (flags' : Flags) (task' : Task State Input Output)
      (m : ℕ), m < n → flags.Le flags' → V.Stands flags' g m task' →
        ∃ M < N, V.StandAll flags' M gs (tasks.set i task') := by
  induction gs generalizing N tasks i with
  | nil =>
    cases tasks with
    | nil => cases hi
    | cons task tasks => exact h.elim
  | cons g gs ih =>
    cases tasks with
    | nil => exact h.elim
    | cons task₀ tasks =>
      obtain ⟨n, m, hN, hst, hrest⟩ := h
      cases i with
      | zero =>
        cases hi
        refine ⟨g, by simp, n, hst, fun flags' task' k hk hle hst' => ?_⟩
        exact ⟨k + m, by omega, k, m, le_rfl, hst', hrest.mono hle⟩
      | succ i =>
        obtain ⟨g', hg', n', hst', hset⟩ := ih hrest hi
        refine ⟨g', List.mem_cons_of_mem _ hg', n', hst', fun flags' task' k hk hle hst'' => ?_⟩
        obtain ⟨M, hM, hall⟩ := hset flags' task' k hk hle hst''
        exact ⟨n + M, by omega, n, M, le_rfl, hst.mono hle, hall⟩

/-- Tasks not started stand. -/
theorem standAll_queued (gs : List (List (Entry Input Output))) :
    V.StandAll flags (V.total gs) gs (gs.map .queued) := by
  induction gs with
  | nil => trivial
  | cons g gs ih =>
    refine ⟨V.passes g + 5, V.total gs, ?_, ⟨rfl, le_rfl⟩, ih⟩
    simp [total]

theorem total_perm {gs gs' : List (List (Entry Input Output))} (h : gs.Perm gs') :
    V.total gs = V.total gs' := (h.map _).sum_eq

/-! ## The flags move -/

theorem Joined.mono (h : V.Joined flags ok) (hle : flags.Le flags')
    (hdef : flags'.definitiveIllegal = flags.definitiveIllegal) : V.Joined flags' ok :=
  ⟨fun hok => ⟨hdef.trans (h.passed hok).1, (h.passed hok).2.imp_right hle.timedOut⟩,
    fun hok => (h.failed hok).mono hle⟩

/-- **The timer's flags change nothing of what is known.** -/
theorem At.mono {main : Main State Input Output} (h : V.At flags N main) (hle : flags.Le flags')
    (hdef : flags'.definitiveIllegal = flags.definitiveIllegal)
    (hstart : ∀ t ps, main ≠ .start t ps) : V.At flags' N main := by
  cases main with
  | start t ps => exact absurd rfl (hstart t ps)
  | inline task rest =>
    obtain ⟨pre, g, n, hperm, hpre, hst, hnf, hacc, hN⟩ := h
    exact ⟨pre, g, n, hperm, hpre, hst.mono hle, hnf, hdef ▸ hacc, hN⟩
  | rayon tasks =>
    obtain ⟨gs, M, hperm, hall, hacc, hskip, hN⟩ := h
    exact ⟨gs, M, hperm, hall.mono hle, hdef ▸ hacc, hskip, hN⟩
  | joined ok => exact ⟨Joined.mono h.1 hle hdef, h.2⟩
  | cancelLock ok => exact ⟨Joined.mono h.1 hle hdef, h.2⟩
  | cancelSet ok => exact ⟨Joined.mono h.1 hle hdef, h.2⟩
  | cancelUnlock ok => exact ⟨Joined.mono h.1 hle hdef, h.2⟩
  | cancelNotify ok => exact ⟨Joined.mono h.1 hle hdef, h.2⟩
  | reading ok => exact ⟨Joined.mono h.1 hle hdef, h.2⟩
  | readTimedOut ok => exact ⟨Joined.mono h.1 hle hdef, hdef.trans h.2.1, h.2.2⟩
  | returned r =>
    exact ⟨Answered.ok h, by rw [Answered.illegal h, hdef], fun hr => hle.timedOut (Answered.unknown h hr)⟩
  | panicked p => exact h

/-! ## In `check_parallel` -/

/-- The loop over the partitions, where the task of one has moved. -/
theorem at_ofTask (pre : List (List (Entry Input Output)))
    {rest : List (List (Entry Input Output))} {g : List (Entry Input Output)}
    {task : Task State Input Output} (hperm : (pre ++ g :: rest).Perm partitions)
    (hpre : ∀ x ∈ pre, V.verdict x = true) (hst : V.Stands flags g n task)
    (hacc : flags.definitiveIllegal = true → task.isAccused = true)
    (hskip : task ≠ .finished .skipped) (hN : n + V.total rest + 8 ≤ N) :
    V.At flags N (.ofTask task rest) := by
  have hinline : task.isFinished = false → V.At flags N (.inline task rest) := fun hnf =>
    ⟨pre, g, n, hperm, hpre, hst, hnf, hacc, hN⟩
  cases task with
  | queued entries => exact hinline rfl
  | searching s => exact hinline rfl
  | exhausted => exact hinline rfl
  | marking => exact hinline rfl
  | raising => exact hinline rfl
  | finished o =>
    cases o with
    | passed =>
      -- its task passed and accuses no one, so the answer stays open
      have hdef : ¬ flags.definitiveIllegal = true := fun hdef =>
        absurd (hacc hdef) (by simp [Task.isAccused])
      have hpre' : ∀ x ∈ pre ++ [g], V.verdict x = true := by
        intro x hx
        rcases List.mem_append.1 hx with hx | hx
        · exact hpre x hx
        · exact List.mem_singleton.1 hx ▸ hst
      cases rest with
      | nil =>
        refine ⟨⟨fun _ => ⟨Bool.not_eq_true _ ▸ hdef, Or.inl fun x hx => ?_⟩,
          fun h => (by cases h)⟩, by omega⟩
        exact hpre' x (hperm.mem_iff.2 hx)
      | cons q rest =>
        refine ⟨pre ++ [g], q, V.passes q + 5, by simpa using hperm, hpre', ⟨rfl, le_rfl⟩, rfl,
          fun h => absurd h hdef, ?_⟩
        simp only [total, List.map_cons, List.sum_cons] at hN ⊢
        omega
    | failed => exact ⟨⟨fun h => (by cases h), fun _ => hst⟩, by omega⟩
    | aborted => exact ⟨⟨fun h => (by cases h), fun _ => hst⟩, by omega⟩
    | skipped => exact absurd rfl hskip

omit [BEq State] in
/-- The loop does not start anew. -/
theorem ofTask_ne_start (task : Task State Input Output) (rest : List (List (Entry Input Output)))
    (timeout : Option ℕ) (ps : List (List (Entry Input Output))) :
    Main.ofTask task rest ≠ .start timeout ps := by
  rcases task with _ | _ | _ | _ | _ | (_ | _ | _ | _) <;> cases rest <;> simp [Main.ofTask]

/-- **`check_parallel` is entered**, whichever way it checks its
partitions. -/
theorem checkParallel_ok (V : Verdicts debug model partitions)
    (srt : UnstableSort (List (Entry Input Output))) :
    ∃ main, checkParallel srt model partitions = .ok main ∧
      V.At {} (V.total partitions + 8) main ∧ ∀ t ps, main ≠ .start t ps := by
  cases partitions with
  | nil => exact ⟨.joined true, rfl, ⟨⟨fun _ => ⟨rfl, Or.inl (by simp)⟩, nofun⟩, by omega⟩, nofun⟩
  | cons p rest =>
    cases rest with
    | nil =>
      obtain ⟨task, hent, hst⟩ := V.enter_ok {} (List.mem_singleton.2 rfl) le_rfl
      refine ⟨.ofTask task [], by simp [checkParallel, hent], ?_, ofTask_ne_start task []⟩
      refine at_ofTask [] (by simp) (by simp) hst nofun (Task.enter_ne_skipped hent) ?_
      simp only [total, List.map_cons, List.map_nil, List.sum_cons, List.sum_nil]
      omega
    | cons q rest =>
      simp only [checkParallel]
      have hperm : (srt.sortByKey List.length (p :: q :: rest)).Perm (p :: q :: rest) :=
        srt.perm _ _
      -- whatever the order in which the sort leaves them
      generalize srt.sortByKey List.length (p :: q :: rest) = ascending at hperm ⊢
      split
      · cases ascending with
        | nil =>
          have := hperm.length_eq
          simp at this
        | cons a ascending =>
          refine ⟨_, rfl, ⟨[], a, V.passes a + 5, hperm, by simp, ⟨rfl, le_rfl⟩, rfl, nofun, ?_⟩,
            nofun⟩
          rw [← total_perm hperm]
          simp only [total, List.map_cons, List.sum_cons]
          omega
      · have hperm' := (srt.perm (fun p => OrderDual.toDual p.length) ascending).trans hperm
        refine ⟨_, rfl, ⟨_, _, hperm', standAll_queued _, nofun, fun h => ?_, ?_⟩, nofun⟩
        · simp at h
        · rw [total_perm hperm']

omit [BEq State] in
/-- A finished accuser has failed. -/
theorem failed_of_accused {task : Task State Input Output} (h : task.isAccused = true)
    (hf : task.isFinished = true) : task = .finished .failed := by
  rcases task with _ | _ | _ | _ | _ | (_ | _ | _ | _) <;> simp_all [Task.isAccused, Task.isFinished]

omit [BEq State] in
theorem foundIllegal_iff {task : Task State Input Output} :
    task.foundIllegal = true ↔ task = .finished .failed := by
  rcases task with _ | _ | _ | _ | _ | (_ | _ | _ | _) <;> simp [Task.foundIllegal]

/-- **What `any` has found** when all its closures have returned. -/
theorem joined_of_rayon {tasks : List (Task State Input Output)}
    {gs : List (List (Entry Input Output))} (hperm : gs.Perm partitions)
    (hall : V.StandAll flags n gs tasks)
    (hacc : flags.definitiveIllegal = true → ∃ task ∈ tasks, task.isAccused = true)
    (hskip : .finished .skipped ∈ tasks → .finished .failed ∈ tasks)
    (hfin : tasks.all Task.isFinished = true) :
    V.Joined flags (!tasks.any Task.foundIllegal) := by
  have hany : tasks.any Task.foundIllegal = true ↔ .finished .failed ∈ tasks := by
    rw [List.any_eq_true]
    constructor
    · rintro ⟨task, hmem, hf⟩
      exact foundIllegal_iff.1 hf ▸ hmem
    · intro hmem
      exact ⟨_, hmem, rfl⟩
  refine ⟨fun hok => ?_, fun hok => ?_⟩
  · have hnone : .finished .failed ∉ tasks := by
      rw [← hany]
      simpa using hok
    have hdef : ¬ flags.definitiveIllegal = true := by
      intro hdef
      obtain ⟨task, hmem, hta⟩ := hacc hdef
      exact hnone (failed_of_accused hta (List.all_eq_true.1 hfin task hmem) ▸ hmem)
    refine ⟨Bool.not_eq_true _ ▸ hdef, ?_⟩
    -- unless the timer has raised its flag, every closure ran and passed
    by_cases hto : flags.timedOut = true
    · exact Or.inr hto
    · refine Or.inl fun g hg => ?_
      obtain ⟨task, hmem, k, hst⟩ := hall.exists_task (hperm.mem_iff.2 hg)
      have hf := List.all_eq_true.1 hfin task hmem
      rcases task with _ | _ | _ | _ | _ | (_ | _ | _ | _)
      case finished.passed => exact hst
      case finished.failed => exact absurd hmem hnone
      case finished.aborted => exact absurd hst (not_or.2 ⟨hdef, hto⟩)
      case finished.skipped => exact absurd (hskip hmem) hnone
      all_goals cases hf
  · have hmem : .finished .failed ∈ tasks := by
      rw [← hany]
      simpa using hok
    obtain ⟨g, -, k, hst⟩ := hall.stands_of_mem hmem
    exact hst

/-! ## In `to_check_result` -/

/-- The answer stands where it is not the definitive one. -/
theorem Joined.not_definitive (h : V.Joined flags ok)
    (hcond : ¬ (!ok && flags.definitiveIllegal) = true) : flags.definitiveIllegal = false := by
  cases ok with
  | true => exact (h.passed rfl).1
  | false => simpa using hcond

/-- **What the flags make of the answer.** -/
theorem Joined.answered (h : V.Joined flags ok) (hdef : flags.definitiveIllegal = false) :
    V.Answered flags (if flags.timedOut then .unknown else if ok then .ok else .illegal) := by
  have hnd : ¬ flags.definitiveIllegal = true := by simpa using hdef
  by_cases hto : flags.timedOut = true
  · rw [if_pos hto]
    exact ⟨nofun, ⟨nofun, fun hd => absurd hd hnd⟩, fun _ => hto⟩
  · rw [if_neg hto]
    cases ok with
    | true =>
      exact ⟨fun _ => (h.passed rfl).2.resolve_right hto, ⟨nofun, fun hd => absurd hd hnd⟩, nofun⟩
    | false =>
      exact ⟨nofun, ⟨fun _ => (h.failed rfl).resolve_right hto, fun _ => rfl⟩, nofun⟩

end Verdicts

end Porcupine
