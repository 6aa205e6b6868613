import Mathlib.Data.Nat.Notation
import Mathlib.Tactic.TypeStar
/-!
# Machines, runs and schedules

A machine is a step function that a scheduler drives: a choice either
moves the state on or is not enabled. `Reach` collects the states of the
runs whose steps meet a condition, and is where invariants are read off.
`Returns` is the total-correctness reading of a nondeterministic machine:
whatever the scheduler does, the run ends, and it ends with that result.
-/

namespace Transition

/-- A step function under a scheduler's choices, and what a state has
returned. -/
structure Machine (σ ι ρ : Type*) where
  /-- The state after a choice, where that choice is enabled. -/
  step : ι → σ → Option σ
  /-- What the state has returned, once it has. -/
  result : σ → Option ρ

namespace Machine

variable {σ ι ρ : Type*} {M : Machine σ ι ρ} {P Q : σ → ι → Prop} {s t u : σ} {r r' : ρ}

/-- The states of the runs from `s` every step of which meets `P`, a
condition on the state before the step and on the choice. -/
inductive Reach (M : Machine σ ι ρ) (P : σ → ι → Prop) (s : σ) : σ → Prop
  /-- The run of no steps. -/
  | refl : Reach M P s s
  /-- One more step. -/
  | tail {t u : σ} {c : ι} : Reach M P s t → P t c → M.step c t = some u → Reach M P s u

/-- The states of the runs from `s`, under no condition. -/
abbrev Reachable (M : Machine σ ι ρ) (s t : σ) : Prop := M.Reach (fun _ _ => True) s t

/-- **An invariant of the steps is one of the runs.** -/
theorem Reach.invariant {I : σ → Prop} (h : M.Reach P s t) (hs : I s)
    (hstep : ∀ t c u, I t → P t c → M.step c t = some u → I u) : I t := by
  induction h with
  | refl => exact hs
  | tail _ hP hc ih => exact hstep _ _ _ ih hP hc

/-- Runs compose. -/
theorem Reach.trans (h : M.Reach P s t) (h' : M.Reach P t u) : M.Reach P s u := by
  induction h' with
  | refl => exact h
  | tail _ hP hc ih => exact ih.tail hP hc

/-- The run of one step. -/
theorem Reach.single {c : ι} (hP : P s c) (hc : M.step c s = some t) : M.Reach P s t :=
  Reach.refl.tail hP hc

/-- The state a schedule leads to, if each of its choices is enabled and
passes the test `p`. -/
def runs (M : Machine σ ι ρ) (p : σ → ι → Bool) : List ι → σ → Option σ
  | [], s => some s
  | c :: cs, s => if p s c then (M.step c s).bind (M.runs p cs) else none

/-- A schedule is a run. -/
theorem Reach.of_runs {p : σ → ι → Bool} (hp : ∀ s c, p s c = true → P s c) {cs : List ι}
    (h : M.runs p cs s = some t) : M.Reach P s t := by
  induction cs generalizing s with
  | nil =>
    cases h
    exact .refl
  | cons c cs ih =>
    simp only [runs] at h
    split at h
    · next htest =>
      obtain ⟨u, hu, hrest⟩ := Option.bind_eq_some_iff.1 h
      exact (Reach.single (hp s c htest) hu).trans (ih hrest)
    · cases h

/-- **Every schedule ends, and returns `r`.** A state that has not
returned has an enabled choice, and every enabled choice leads on. -/
inductive Returns (M : Machine σ ι ρ) (r : ρ) : σ → Prop
  /-- The state has returned. -/
  | done {s : σ} : M.result s = some r → Returns M r s
  /-- The state moves, however it is scheduled. -/
  | step {s : σ} : M.result s = none → (∃ c t, M.step c s = some t) →
      (∀ c t, M.step c s = some t → Returns M r t) → Returns M r s

/-- What every schedule returns is one result. -/
theorem Returns.unique (h : M.Returns r s) (h' : M.Returns r' s) : r = r' := by
  induction h with
  | done hr =>
    cases h' with
    | done hr' => exact Option.some.inj (hr.symm.trans hr')
    | step hn _ _ => rw [hr] at hn; cases hn
  | step hn hex _ ih =>
    cases h' with
    | done hr' => rw [hr'] at hn; cases hn
    | step _ _ hall =>
      obtain ⟨c, t, hc⟩ := hex
      exact ih c t hc (hall c t hc)

/-- **One schedule tells what all return.** -/
theorem Returns.eq_of_runs (h : M.Returns r s) (cs : List ι)
    (hruns : (M.runs (fun s _ => (M.result s).isNone) cs s).bind M.result = some r') : r' = r := by
  induction cs generalizing s with
  | nil => exact (Returns.done hruns).unique h
  | cons c cs ih =>
    simp only [runs] at hruns
    split at hruns
    · next hnone =>
      cases h with
      | done hr =>
        rw [hr] at hnone
        cases hnone
      | step _ _ hall =>
        cases hc : M.step c s with
        | none => simp [hc] at hruns
        | some t => exact ih (hall c t hc) (by simpa [hc] using hruns)
    · cases hruns

/-- **The bound rule.** An invariant indexed by a bound on the steps still
to come, which every step lowers and which no state is stuck under, makes
every schedule return. -/
theorem returns_of_bound {I : ℕ → σ → Prop}
    (hI : ∀ n s, I n s → M.result s = some r ∨
      M.result s = none ∧ (∃ c t, M.step c s = some t) ∧
        ∀ c t, M.step c s = some t → ∃ m < n, I m t) :
    ∀ n s, I n s → M.Returns r s := by
  intro n
  induction n using Nat.strongRecOn with
  | ind n ih =>
    intro s hs
    rcases hI n s hs with hr | ⟨hn, hex, hall⟩
    · exact .done hr
    · refine .step hn hex fun c t hc => ?_
      obtain ⟨m, hm, ht⟩ := hall c t hc
      exact ih m hm t ht

/-! ## Maps of machines -/

section Maps

variable {σ' : Type*} {M' : Machine σ' ι ρ} {f : σ → σ'} {t' : σ'}

/-- **A map that carries each step of a machine to the step of another**
under the same choice, and leaves what is returned. -/
structure Maps (M : Machine σ ι ρ) (M' : Machine σ' ι ρ) (f : σ → σ') : Prop where
  step : ∀ c s, M'.step c (f s) = (M.step c s).map f
  result : ∀ s, M'.result (f s) = M.result s

/-- A schedule leads from the image of a state to the image of what it leads
to. -/
theorem Maps.runs_eq (h : M.Maps M' f) (cs : List ι) (s : σ) :
    M'.runs (fun _ _ => true) cs (f s) = (M.runs (fun _ _ => true) cs s).map f := by
  induction cs generalizing s with
  | nil => rfl
  | cons c cs ih =>
    simp only [runs, if_pos, h.step]
    cases M.step c s with
    | none => rfl
    | some t => exact ih t

/-- What the image returns the state does. -/
theorem Maps.returns (h : M.Maps M' f) (hr : M'.Returns r t') (ht : f s = t') : M.Returns r s := by
  induction hr generalizing s with
  | done hdone =>
    subst ht
    exact .done ((h.result s).symm.trans hdone)
  | step hnone hex _ ih =>
    subst ht
    refine .step ((h.result s).symm.trans hnone) ?_ fun c t hc => ?_
    · obtain ⟨c, t, hc⟩ := hex
      obtain ⟨u, hu, -⟩ := Option.map_eq_some_iff.1 ((h.step c s).symm.trans hc)
      exact ⟨c, u, hu⟩
    · exact ih c (f t) (by rw [h.step, hc, Option.map_some]) rfl

/-- **Both return the same.** -/
theorem Maps.returns_iff (h : M.Maps M' f) : M'.Returns r (f s) ↔ M.Returns r s := by
  refine ⟨fun hr => h.returns hr rfl, fun hr => ?_⟩
  induction hr with
  | done hdone => exact .done ((h.result _).trans hdone)
  | @step s hnone hex _ ih =>
    refine .step ((h.result s).trans hnone) ?_ fun c t' hc => ?_
    · obtain ⟨c, t, hc⟩ := hex
      exact ⟨c, f t, by rw [h.step, hc, Option.map_some]⟩
    · obtain ⟨t, ht, rfl⟩ := Option.map_eq_some_iff.1 ((h.step c s).symm.trans hc)
      exact ih c t ht

end Maps

end Machine

end Transition
