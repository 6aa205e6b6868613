import Porcupine.Model.Checker
import Porcupine.Search.Verdict
/-!
# One partition of a check

`check_single` returns false both when its search is exhausted and when it
is killed, so what a task's stage says depends on the flags. `Settled`
flags are those that excuse a task that gave up: a definitive answer is
in, or the timer has fired. A task that stands anywhere else is where its
own search put it (`Verdicts.Stands`), and every step keeps that and lowers
the number of steps still to come (`Verdicts.Stands.step`).
-/

namespace Porcupine

variable {State Input Output : Type}

namespace Flags

/-- Something excuses a task that gave up. -/
def Settled (f : Flags) : Prop := f.definitiveIllegal = true ∨ f.timedOut = true

/-- The kill flag was raised for a reason. -/
def Justified (f : Flags) : Prop := f.kill = true → f.Settled

/-- No flag is taken back. -/
structure Le (f f' : Flags) : Prop where
  kill : f.kill = true → f'.kill = true
  timedOut : f.timedOut = true → f'.timedOut = true
  definitiveIllegal : f.definitiveIllegal = true → f'.definitiveIllegal = true

theorem Le.refl (f : Flags) : f.Le f := ⟨id, id, id⟩

theorem Settled.mono {f f' : Flags} (h : f.Settled) (hle : f.Le f') : f'.Settled :=
  h.imp hle.definitiveIllegal hle.timedOut

end Flags

variable [BEq State] {debug : Bool} {model : Model State Input Output}
variable {partitions : List (List (Entry Input Output))} {g : List (Entry Input Output)}
variable {flags flags' : Flags} {task : Task State Input Output} {n m : ℕ}

/-- `check_single` returns `b` within `k` passes of its loop, unless it is
killed. -/
def ChecksWithin (debug : Bool) (model : Model State Input Output)
    (entries : List (Entry Input Output)) (b : Bool) (k : ℕ) : Prop :=
  Search.start model entries = .ok (.inr b) ∨
    ∃ s j, Search.start model entries = .ok (.inl s) ∧ s.Ends debug model b j ∧ j ≤ k

theorem ChecksWithin.checksTo {b : Bool} {k : ℕ} (h : ChecksWithin debug model g b k) :
    ChecksTo debug model g b := by
  rcases h with hs | ⟨s, j, hs, hend, -⟩
  · exact Or.inl hs
  · exact Or.inr ⟨s, j, hs, hend⟩

/-- **What the search of each partition returns**, and in how many
passes. -/
structure Verdicts (debug : Bool) (model : Model State Input Output)
    (partitions : List (List (Entry Input Output))) where
  verdict : List (Entry Input Output) → Bool
  passes : List (Entry Input Output) → ℕ
  checks : ∀ g ∈ partitions, ChecksWithin debug model g (verdict g) (passes g)

/-- Searches that return have verdicts. -/
theorem exists_verdicts (h : ∀ g ∈ partitions, ∃ b, ChecksTo debug model g b) :
    Nonempty (Verdicts debug model partitions) := by
  have hk : ∀ g, ∃ b k, g ∈ partitions → ChecksWithin debug model g b k := by
    intro g
    by_cases hg : g ∈ partitions
    · obtain ⟨b, hs | ⟨s, k, hs, hend⟩⟩ := h g hg
      · exact ⟨b, 0, fun _ => Or.inl hs⟩
      · exact ⟨b, k, fun _ => Or.inr ⟨s, k, hs, hend, le_rfl⟩⟩
    · exact ⟨true, 0, fun hg' => absurd hg' hg⟩
  choose verdict passes hchecks using hk
  exact ⟨⟨verdict, passes, hchecks⟩⟩

/-- It has found its partition not linearizable, and not returned from
saying so. -/
def Task.isAccused : Task State Input Output → Bool
  | .raising => true
  | .finished .failed => true
  | _ => false

omit [BEq State] in
theorem Task.ofPass_ne_skipped (x : Search State Input Output ⊕ Bool) :
    Task.ofPass x ≠ .finished .skipped := by
  rcases x with s | b | b <;> simp [Task.ofPass, Task.returned]

omit [BEq State] in
theorem Task.enter_ne_skipped (hok : Task.enter model g = .ok task) :
    task ≠ .finished .skipped := by
  obtain ⟨x, -, hx⟩ := Result.bind_eq_ok.1 hok
  cases hx
  exact Task.ofPass_ne_skipped x

/-- No task skips itself. -/
theorem Task.step_ne_skipped {task' : Task State Input Output} (hnf : task.isFinished = false)
    (hok : task.step debug model flags = .ok (task', flags')) : task' ≠ .finished .skipped := by
  cases task with
  | queued entries =>
    simp only [Task.step] at hok
    split at hok
    · cases hok
      simp
    · obtain ⟨x, hx, hx'⟩ := Result.bind_eq_ok.1 hok
      cases hx'
      exact Task.enter_ne_skipped hx
  | searching s =>
    simp only [Task.step] at hok
    split at hok
    · cases hok
      simp
    · obtain ⟨x, hx, hx'⟩ := Result.bind_eq_ok.1 hok
      cases hx'
      exact Task.ofPass_ne_skipped x
  | exhausted =>
    simp only [Task.step] at hok
    cases hok
    split <;> simp
  | marking =>
    cases hok
    simp
  | raising =>
    cases hok
    simp
  | finished o => cases hnf

namespace Verdicts

variable (V : Verdicts debug model partitions)

/-- **Where a task can stand** on its partition, with at most `n` steps to
come. -/
def Stands (flags : Flags) (g : List (Entry Input Output)) : ℕ → Task State Input Output → Prop
  | n, .queued entries => entries = g ∧ V.passes g + 5 ≤ n
  | n, .searching s => ∃ k, s.Ends debug model (V.verdict g) k ∧ k + 4 ≤ n
  | n, .exhausted => (V.verdict g = false ∨ flags.kill = true) ∧ 3 ≤ n
  | n, .marking => V.verdict g = false ∧ 2 ≤ n
  | n, .raising => flags.Settled ∧ 1 ≤ n
  | _, .finished .passed => V.verdict g = true
  | _, .finished .failed => flags.Settled
  | _, .finished .aborted => flags.Settled
  | _, .finished .skipped => True

variable {V}

theorem Stands.mono (h : V.Stands flags g n task) (hle : flags.Le flags') :
    V.Stands flags' g n task := by
  cases task with
  | queued entries => exact h
  | searching s => exact h
  | exhausted => exact ⟨h.1.imp_right hle.kill, h.2⟩
  | marking => exact h
  | raising => exact ⟨Flags.Settled.mono h.1 hle, h.2⟩
  | finished o =>
    cases o with
    | passed => exact h
    | failed => exact Flags.Settled.mono h hle
    | aborted => exact Flags.Settled.mono h hle
    | skipped => trivial

/-- `check_single` has returned. -/
theorem stands_returned (hn : 3 ≤ n) : V.Stands flags g n (Task.returned (V.verdict g)) := by
  cases hb : V.verdict g with
  | true => exact hb
  | false => exact ⟨Or.inl hb, hn⟩

/-- Calling `check_single` succeeds. -/
theorem enter_ok (V : Verdicts debug model partitions) (flags : Flags) (hg : g ∈ partitions)
    (hn : V.passes g + 4 ≤ n) :
    ∃ task, Task.enter model g = .ok task ∧ V.Stands flags g n task := by
  rcases V.checks g hg with hs | ⟨s, j, hs, hend, hj⟩
  · exact ⟨_, by rw [Task.enter, hs]; rfl, stands_returned (by omega)⟩
  · exact ⟨.searching s, by rw [Task.enter, hs]; rfl, j, hend, by omega⟩

/-- What a step of a task does to the flags: the kill flag stays
justified, the timer's flag stays as it is, and a definitive answer is
about this partition and has its accuser. -/
structure FlagStep (V : Verdicts debug model partitions) (g : List (Entry Input Output))
    (flags flags' : Flags) (task' : Task State Input Output) : Prop where
  le : flags.Le flags'
  justified : flags'.Justified
  timedOut : flags'.timedOut = flags.timedOut
  definitive : flags'.definitiveIllegal = true → flags.definitiveIllegal = true ∨
    V.verdict g = false ∧ task'.isAccused = true

theorem FlagStep.same (hj : flags.Justified) : V.FlagStep g flags flags task :=
  ⟨.refl _, hj, rfl, Or.inl⟩

/-- **A step of a task**: it completes, the task still stands where its
search put it, fewer steps are to come, and an accuser stays one. -/
theorem Stands.step (h : V.Stands flags g n task) (hg : g ∈ partitions) (hj : flags.Justified)
    (hnf : task.isFinished = false) :
    ∃ task' flags', task.step debug model flags = .ok (task', flags') ∧
      (∃ m < n, V.Stands flags' g m task') ∧ V.FlagStep g flags flags' task' ∧
      (task.isAccused = true → task'.isAccused = true) := by
  cases task with
  | queued entries =>
    obtain ⟨rfl, hn⟩ := h
    by_cases hk : flags.kill = true
    · exact ⟨.finished .aborted, flags, by simp [Task.step, hk], ⟨0, by omega, hj hk⟩,
        .same hj, fun h => absurd h (by simp [Task.isAccused])⟩
    · obtain ⟨task', hent, hst⟩ := V.enter_ok flags (n := n - 1) hg (by omega)
      exact ⟨task', flags, by simp [Task.step, hk, hent], ⟨n - 1, by omega, hst⟩,
        .same hj, fun h => absurd h (by simp [Task.isAccused])⟩
  | searching s =>
    obtain ⟨k, hend, hn⟩ := h
    by_cases hk : flags.kill = true
    · exact ⟨.exhausted, flags, by simp [Task.step, hk],
        ⟨3, by omega, Or.inr hk, le_rfl⟩, .same hj,
        fun h => absurd h (by simp [Task.isAccused])⟩
    · cases hend with
      -- the pass ends the search, or is one of those that remain
      | done hs =>
        exact ⟨_, flags, by simp [Task.step, hk, hs, Task.ofPass],
          ⟨n - 1, by omega, stands_returned (by omega)⟩, .same hj,
          fun h => absurd h (by simp [Task.isAccused])⟩
      | @pass k _ s' hs hend =>
        exact ⟨.searching s', flags, by simp [Task.step, hk, hs, Task.ofPass],
          ⟨n - 1, by omega, k, hend, by omega⟩, .same hj,
          fun h => absurd h (by simp [Task.isAccused])⟩
  | exhausted =>
    obtain ⟨hv, hn⟩ := h
    by_cases hk : flags.kill = true
    · exact ⟨.raising, flags, by simp [Task.step, hk], ⟨1, by omega, hj hk, le_rfl⟩,
        .same hj, fun _ => rfl⟩
    · exact ⟨.marking, flags, by simp [Task.step, hk], ⟨2, by omega, hv.resolve_right hk, le_rfl⟩,
        .same hj, fun h => absurd h (by simp [Task.isAccused])⟩
  | marking =>
    obtain ⟨hv, hn⟩ := h
    refine ⟨.raising, { flags with definitiveIllegal := true }, rfl,
      ⟨1, by omega, Or.inl rfl, le_rfl⟩, ⟨⟨id, id, fun _ => rfl⟩, fun _ => Or.inl rfl, rfl,
        fun _ => Or.inr ⟨hv, rfl⟩⟩, fun _ => rfl⟩
  | raising =>
    obtain ⟨hs, hn⟩ := h
    refine ⟨.finished .failed, { flags with kill := true }, rfl, ⟨0, by omega, hs⟩,
      ⟨⟨fun _ => rfl, id, id⟩, fun _ => hs, rfl, Or.inl⟩, fun _ => rfl⟩
  | finished o => cases hnf

end Verdicts

end Porcupine
