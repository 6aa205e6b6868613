import Porcupine.Common.Linearization
/-!
# The subset construction

An object may have several successors, or none, for an operation. The
collections of the states it could be in form a deterministic object that
refuses an operation when no state has a successor, and that accepts
exactly the sequences some branch accepts (`SubsetStep.accepts_iff`).
-/

namespace Linearization

variable {α σ : Type*} {step : σ → α → List σ} {power : List σ → α → Option (List σ)}
variable {s t : σ} {states : List σ} {a : α} {as : List α}

/-- **One branch**: each state a successor of the one before. -/
inductive Path (step : σ → α → List σ) : σ → List α → σ → Prop
  | nil (s : σ) : Path step s [] s
  | cons {s t u : σ} {a : α} {as : List α} : t ∈ step s a → Path step t as u →
      Path step s (a :: as) u

theorem path_cons : Path step s (a :: as) t ↔ ∃ u ∈ step s a, Path step u as t := by
  constructor
  · intro h
    cases h with
    | cons hu h => exact ⟨_, hu, h⟩
  · rintro ⟨u, hu, h⟩
    exact .cons hu h

/-- **Steps of collections**: to all the successors, in some order, unless
there are none. -/
structure SubsetStep (step : σ → α → List σ) (power : List σ → α → Option (List σ)) : Prop where
  mem : ∀ states a states', power states a = some states' →
    ∀ t, t ∈ states' ↔ ∃ s ∈ states, t ∈ step s a
  some_iff : ∀ states a, (∃ states', power states a = some states') ↔
    ∃ s ∈ states, ∃ t, t ∈ step s a

/-- Steps under other names. -/
theorem SubsetStep.comap {β : Type*} (h : SubsetStep step power) (f : β → α) :
    SubsetStep (fun s b => step s (f b)) fun states b => power states (f b) :=
  ⟨fun states b => h.mem states (f b), fun states b => h.some_iff states (f b)⟩

/-- **The collection after a sequence is the states its branches end
in.** -/
theorem SubsetStep.mem_run (h : SubsetStep step power) {states' : List σ}
    (hrun : run power states as = some states') :
    t ∈ states' ↔ ∃ s ∈ states, Path step s as t := by
  induction as generalizing states with
  | nil =>
    cases hrun
    constructor
    · exact fun ht => ⟨t, ht, .nil t⟩
    · rintro ⟨s, hs, hpath⟩
      cases hpath
      exact hs
  | cons a as ih =>
    obtain ⟨states₁, hstep, hrest⟩ := Option.bind_eq_some_iff.1 hrun
    simp only [ih hrest, h.mem states a states₁ hstep, path_cons]
    constructor
    · rintro ⟨u, ⟨s, hs, hu⟩, hpath⟩
      exact ⟨s, hs, u, hu, hpath⟩
    · rintro ⟨s, hs, u, hu, hpath⟩
      exact ⟨u, ⟨s, hs, hu⟩, hpath⟩

/-- **The collections accept what some branch accepts.** The empty
sequence has a branch only where there is a state to start in. -/
theorem SubsetStep.accepts_iff (h : SubsetStep step power) (hne : states ≠ [] ∨ as ≠ []) :
    Accepts power states as ↔ ∃ s ∈ states, ∃ t, Path step s as t := by
  induction as generalizing states with
  | nil =>
    obtain ⟨s, hs⟩ := List.exists_mem_of_ne_nil states (hne.resolve_right fun h => h rfl)
    simp only [accepts_nil, true_iff]
    exact ⟨s, hs, s, .nil s⟩
  | cons a as ih =>
    simp only [accepts_cons, path_cons]
    constructor
    · rintro ⟨states', hstep, haccepts⟩
      have hne' : states' ≠ [] := by
        obtain ⟨s, hs, t, ht⟩ := (h.some_iff states a).1 ⟨states', hstep⟩
        exact List.ne_nil_of_mem ((h.mem states a states' hstep t).2 ⟨s, hs, ht⟩)
      obtain ⟨t, ht, u, hpath⟩ := (ih (Or.inl hne')).1 haccepts
      obtain ⟨s, hs, hst⟩ := (h.mem states a states' hstep t).1 ht
      exact ⟨s, hs, u, t, hst, hpath⟩
    · rintro ⟨s, hs, u, t, hst, hpath⟩
      obtain ⟨states', hstep⟩ := (h.some_iff states a).2 ⟨s, hs, t, hst⟩
      have ht : t ∈ states' := (h.mem states a states' hstep t).2 ⟨s, hs, hst⟩
      exact ⟨states', hstep, (ih (Or.inl (List.ne_nil_of_mem ht))).2 ⟨t, ht, u, hpath⟩⟩

end Linearization
