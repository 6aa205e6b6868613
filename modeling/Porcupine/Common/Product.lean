import Porcupine.Common.Branching
import Porcupine.Common.Locality
import Mathlib.Data.Set.Basic
/-!
# Branches of independent components

An object of independent components may have several successors for an
operation. Its branches are then the products of its components' branches
(`Branchwise.exists_path_iff`), and keeping for each component the set of
states it could be in is a deterministic object of independent components
(`productStep`) that accepts what the branches do
(`Branchwise.accepts_product_iff`). So whatever holds of deterministic
objects of independent components holds of branches.
-/

namespace Linearization

variable {α σ κ γ : Type*}

/-- **An object of independent components with branches.** -/
structure Branchwise (step : σ → α → List σ) (key : α → κ) (view : σ → κ → γ)
    (component : γ → α → List γ) : Prop where
  /-- A successor is one for the operation's component. -/
  step_self : ∀ s a t, t ∈ step s a → view t (key a) ∈ component (view s (key a)) a
  /-- And it changes no other. -/
  step_frame : ∀ s a t k, t ∈ step s a → k ≠ key a → view t k = view s k
  /-- Every successor of the component is one of the object's. -/
  exists_step : ∀ s a c, c ∈ component (view s (key a)) a → ∃ t ∈ step s a, view t (key a) = c

section Paths

variable [DecidableEq κ] {step : σ → α → List σ} {key : α → κ} {view : σ → κ → γ}
variable {component : γ → α → List γ} {s t : σ} {as : List α}

theorem Branchwise.path_component (h : Branchwise step key view component)
    (hpath : Path step s as t) (k : κ) :
    Path component (view s k) (as.filter fun a => key a = k) (view t k) := by
  induction hpath with
  | nil s => exact .nil _
  | @cons s u t a as hu _ ih =>
    by_cases hk : key a = k
    · subst hk
      rw [List.filter_cons_of_pos (by simp)]
      exact .cons (h.step_self s a u hu) ih
    · rw [List.filter_cons_of_neg (by simpa using hk), ← h.step_frame s a u k hu (Ne.symm hk)]
      exact ih

/-- **A branch is a branch of every component.** -/
theorem Branchwise.exists_path_iff (h : Branchwise step key view component) :
    (∃ t, Path step s as t) ↔
      ∀ k, ∃ c, Path component (view s k) (as.filter fun a => key a = k) c := by
  constructor
  · rintro ⟨t, hpath⟩ k
    exact ⟨_, h.path_component hpath k⟩
  · intro hall
    induction as generalizing s with
    | nil => exact ⟨s, .nil s⟩
    | cons a as ih =>
      obtain ⟨c, hpath⟩ := hall (key a)
      rw [List.filter_cons_of_pos (by simp), path_cons] at hpath
      obtain ⟨c', hc', hrest⟩ := hpath
      obtain ⟨u, hu, rfl⟩ := h.exists_step s a c' hc'
      obtain ⟨t, ht⟩ := ih (s := u) fun k => by
        by_cases hk : key a = k
        · subst hk
          exact ⟨c, hrest⟩
        · obtain ⟨c, hpath⟩ := hall k
          rw [List.filter_cons_of_neg (by simpa using hk)] at hpath
          rw [h.step_frame s a u k hu (Ne.symm hk)]
          exact ⟨c, hpath⟩
      exact ⟨t, .cons hu ht⟩

end Paths

open Classical in
/-- The states a component could be in after an operation, if there are
any. -/
noncomputable def setStep (component : γ → α → List γ) (cs : Set γ) (a : α) : Option (Set γ) :=
  if ∃ c ∈ cs, ∃ c', c' ∈ component c a then some {c' | ∃ c ∈ cs, c' ∈ component c a} else none

/-- The states that each component could be in. -/
noncomputable def productStep [DecidableEq κ] (key : α → κ) (component : γ → α → List γ)
    (css : κ → Set γ) (a : α) : Option (κ → Set γ) :=
  (setStep component (css (key a)) a).map fun cs => Function.update css (key a) cs

section Product

variable {component : γ → α → List γ} {cs cs' : Set γ} {a : α} {as : List α}

theorem setStep_eq_some : setStep component cs a = some cs' ↔
    (∃ c, c ∈ cs') ∧ cs' = {c' | ∃ c ∈ cs, c' ∈ component c a} := by
  unfold setStep
  split
  · next h =>
    obtain ⟨c, hc, c', hc'⟩ := h
    constructor
    · intro he
      cases he
      exact ⟨⟨c', c, hc, hc'⟩, rfl⟩
    · rintro ⟨-, rfl⟩
      rfl
  · next h =>
    refine iff_of_false nofun ?_
    rintro ⟨⟨c', hc'⟩, rfl⟩
    obtain ⟨c, hc, hmem⟩ := hc'
    exact h ⟨c, hc, c', hmem⟩

/-- Sets of states accept what one of the states has a branch for. -/
theorem accepts_setStep_iff (hne : ∃ c, c ∈ cs) :
    Accepts (setStep component) cs as ↔ ∃ c ∈ cs, ∃ c', Path component c as c' := by
  induction as generalizing cs with
  | nil =>
    obtain ⟨c, hc⟩ := hne
    exact iff_of_true accepts_nil ⟨c, hc, c, .nil c⟩
  | cons a as ih =>
    simp only [accepts_cons, path_cons]
    constructor
    · rintro ⟨cs', hstep, hacc⟩
      obtain ⟨hne', rfl⟩ := setStep_eq_some.1 hstep
      obtain ⟨u, ⟨c, hc, hu⟩, c', hpath⟩ := (ih hne').1 hacc
      exact ⟨c, hc, c', u, hu, hpath⟩
    · rintro ⟨c, hc, c', u, hu, hpath⟩
      have hmem : u ∈ {c' | ∃ c ∈ cs, c' ∈ component c a} := ⟨c, hc, hu⟩
      exact ⟨_, setStep_eq_some.2 ⟨⟨u, hmem⟩, rfl⟩, (ih ⟨u, hmem⟩).2 ⟨u, hmem, c', hpath⟩⟩

variable [DecidableEq κ] {key : α → κ}

/-- **The product is deterministic**, and its components are
independent. -/
theorem productStep_componentwise : Componentwise (productStep key component) key
    (fun css k => css k) (setStep component) where
  step_none css a := Option.map_eq_none_iff
  step_self css a css' h := by
    obtain ⟨cs, hcs, rfl⟩ := Option.map_eq_some_iff.1 h
    rw [hcs, Function.update_self]
  step_frame css a css' k h hk := by
    obtain ⟨cs, -, rfl⟩ := Option.map_eq_some_iff.1 h
    exact Function.update_of_ne hk _ _

/-- **The product accepts what some branch does**, from states of which one
can be put together of any components. -/
theorem Branchwise.accepts_product_iff {step : σ → α → List σ} {view : σ → κ → γ} {init : List σ}
    (h : Branchwise step key view component) (hne : init ≠ [])
    (hmix : ∀ f : κ → σ, (∀ k, f k ∈ init) → ∃ s ∈ init, ∀ k, view s k = view (f k) k) :
    Accepts (productStep key component) (fun k => {c | ∃ s ∈ init, view s k = c}) as ↔
      ∃ s ∈ init, ∃ t, Path step s as t := by
  obtain ⟨s₀, hs₀⟩ := List.exists_mem_of_ne_nil init hne
  have hview : ∀ k, ∃ c, c ∈ {c | ∃ s ∈ init, view s k = c} := fun k => ⟨view s₀ k, s₀, hs₀, rfl⟩
  rw [productStep_componentwise.accepts_iff]
  simp only [accepts_setStep_iff (hview _)]
  constructor
  · intro hall
    choose c hc c' hpath using hall
    choose f hf hfc using hc
    obtain ⟨s, hs, hsf⟩ := hmix f hf
    refine ⟨s, hs, h.exists_path_iff.2 fun k => ⟨c' k, ?_⟩⟩
    rw [hsf, hfc]
    exact hpath k
  · rintro ⟨s, hs, hpath⟩ k
    obtain ⟨c, hc⟩ := h.exists_path_iff.1 hpath k
    exact ⟨view s k, ⟨s, hs, rfl⟩, c, hc⟩

end Product

end Linearization
