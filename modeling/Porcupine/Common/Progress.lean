import Porcupine.Common.Machine
import Mathlib.Data.List.Count
/-!
# Schedules that are fair

A schedule that goes on for ever offers a choice at every moment, and
where the choice is not enabled the state stays as it is. It is fair to
some choices when it offers each of them again and again. A choice is
helpful in a state when it brings the end nearer. Where every state has a
helpful choice, and one that is helpful stays so until some step does
bring the end nearer, every fair schedule comes to the end
(`reaches_of_helpful`).
-/

namespace Transition

namespace Machine

variable {σ ι ρ : Type*} {M : Machine σ ι ρ} {sched : ℕ → ι} {s t : σ} {c : ι} {n : ℕ}

/-- The state at each moment of a schedule. -/
def trace (M : Machine σ ι ρ) (sched : ℕ → ι) (s : σ) : ℕ → σ
  | 0 => s
  | k + 1 => (M.step (sched k) (trace M sched s k)).getD (trace M sched s k)

/-- **Each of the choices is offered again and again.** -/
def Fair (own : ι → Prop) (sched : ℕ → ι) : Prop := ∀ c, own c → ∀ k, ∃ j ≥ k, sched j = c

/-- What comes after a moment is a schedule from the state there. -/
theorem trace_add (M : Machine σ ι ρ) (sched : ℕ → ι) (s : σ) (k j : ℕ) :
    M.trace sched s (k + j) = M.trace (fun i => sched (k + i)) (M.trace sched s k) j := by
  induction j with
  | zero => rfl
  | succ j ih => rw [← Nat.add_assoc, trace, trace, ih]

/-- A fair schedule stays fair. -/
theorem Fair.shift {own : ι → Prop} (h : Fair own sched) (k : ℕ) :
    Fair own fun i => sched (k + i) := by
  intro c hc i
  obtain ⟨j, hj, he⟩ := h c hc (k + i)
  refine ⟨j - k, by omega, ?_⟩
  show sched (k + (j - k)) = c
  rw [Nat.add_sub_cancel' (by omega), he]

/-- **A bound on the steps that bring the end nearer** is one on a whole
run: `busy` tells which choices do. -/
theorem countP_le_of_runs {I : ℕ → σ → Prop} {busy : ι → Bool}
    (hstep : ∀ n s c t, I n s → M.step c s = some t →
      if busy c then ∃ m < n, I m t else I n t) {cs : List ι} (hI : I n s)
    (h : M.runs (fun _ _ => true) cs s = some t) : cs.countP busy ≤ n := by
  induction cs generalizing s n with
  | nil => exact Nat.zero_le _
  | cons c cs ih =>
    simp only [runs, if_true] at h
    obtain ⟨u, hu, hrest⟩ := Option.bind_eq_some_iff.1 h
    have hc := hstep n s c u hI hu
    cases hb : busy c with
    | false =>
      rw [hb, if_neg Bool.false_ne_true] at hc
      rw [List.countP_cons_of_neg (by simp [hb])]
      exact ih hc hrest
    | true =>
      rw [hb, if_pos rfl] at hc
      obtain ⟨m, hm, hu'⟩ := hc
      rw [List.countP_cons_of_pos hb]
      have := ih hu' hrest
      omega

/-- **The helpful-choice rule.** `I` is an invariant indexed by a bound on
how far the end is. A helpful choice lowers it, one that does not lower it
leaves the helpful choices helpful, and while the end is not reached one
of those the schedule is fair to is helpful. -/
theorem reaches_of_helpful (I : ℕ → σ → Prop) (own : ι → Prop) (helpful : σ → ι → Prop)
    (done : σ → Prop)
    (hhelp : ∀ n s c, I n s → helpful s c → ∃ t, M.step c s = some t ∧ ∃ m < n, I m t)
    (hstep : ∀ n s c t, I n s → M.step c s = some t →
      (∃ m < n, I m t) ∨ I n t ∧ ∀ d, helpful s d → helpful t d)
    (hlive : ∀ n s, I n s → ¬ done s → ∃ c, own c ∧ helpful s c)
    (hfair : Fair own sched) (hI : I n s) : ∃ k, done (M.trace sched s k) := by
  induction n using Nat.strongRecOn generalizing s sched with
  | ind n ih =>
    by_cases hdone : done s
    · exact ⟨0, hdone⟩
    · obtain ⟨c, hown, hc⟩ := hlive n s hI hdone
      obtain ⟨j, -, hj⟩ := hfair c hown 0
      -- until the choice is offered, either the bound is lowered or it stays helpful
      have wait : ∀ i, (∃ k ≤ i, ∃ m < n, I m (M.trace sched s k)) ∨
          I n (M.trace sched s i) ∧ helpful (M.trace sched s i) c := by
        intro i
        induction i with
        | zero => exact Or.inr ⟨hI, hc⟩
        | succ i hi =>
          rcases hi with ⟨k, hk, hlow⟩ | ⟨hIi, hci⟩
          · exact Or.inl ⟨k, by omega, hlow⟩
          · cases hs : M.step (sched i) (M.trace sched s i) with
            | none => exact Or.inr (by rw [trace, hs]; exact ⟨hIi, hci⟩)
            | some t =>
              have ht : M.trace sched s (i + 1) = t := by rw [trace, hs]; rfl
              rcases hstep n _ _ t hIi hs with hlow | ⟨hIt, hstay⟩
              · exact Or.inl ⟨i + 1, Nat.le_refl _, by rwa [ht]⟩
              · exact Or.inr (by rw [ht]; exact ⟨hIt, hstay c hci⟩)
      have lowered : ∃ k, ∃ m < n, I m (M.trace sched s k) := by
        rcases wait j with ⟨k, -, hlow⟩ | ⟨hIj, hcj⟩
        · exact ⟨k, hlow⟩
        · obtain ⟨t, hs, hlow⟩ := hhelp n _ c hIj hcj
          refine ⟨j + 1, ?_⟩
          rwa [trace, hj, hs]
      obtain ⟨k, m, hm, hIk⟩ := lowered
      obtain ⟨i, hi⟩ := ih m hm (hfair.shift k) hIk
      exact ⟨k + i, by rwa [trace_add]⟩

end Machine

end Transition
