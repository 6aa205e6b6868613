import Mathlib.Data.List.Forall2
/-!
# Loops over a list that may fail

A pass over a list whose body may fail completes when its body does at
every element. `mapM_eq_ok_iff` reads a mapping pass element by element,
and the two fold rules carry an invariant of the part already passed:
`foldlM_ok` shows that a pass completes, `foldlM_inv` reads off what a
completed pass established.
-/

namespace Loop

variable {α β ε : Type*} {l : List α}

/-- A mapping pass completes with `r` exactly when the body takes each
element to the one across from it. -/
theorem mapM_eq_ok_iff {f : α → Except ε β} {r : List β} :
    l.mapM f = .ok r ↔ List.Forall₂ (fun a b => f a = .ok b) l r := by
  induction l generalizing r with
  | nil =>
    simp only [List.mapM_nil, List.forall₂_nil_left_iff]
    exact ⟨fun h => (Except.ok.inj h).symm, fun h => congrArg _ h.symm⟩
  | cons a l ih =>
    rw [List.mapM_cons, List.forall₂_cons_left_iff]
    -- the first failure is the whole pass's
    cases hf : f a with
    | error e =>
      constructor
      · intro h; cases h
      · rintro ⟨b, u, hb, -⟩; cases hb
    | ok b =>
      cases hl : l.mapM f with
      | error e =>
        constructor
        · intro h; cases h
        · rintro ⟨b', u, -, hu, -⟩
          rw [← ih, hl] at hu
          cases hu
      | ok bs =>
        have hbs := ih.1 hl
        constructor
        · intro h
          exact ⟨b, bs, rfl, hbs, (Except.ok.inj h).symm⟩
        · rintro ⟨b', u, hb, hu, rfl⟩
          rw [← ih, hl] at hu
          cases hb
          cases hu
          rfl

/-- A body that never fails makes the pass a map. -/
theorem mapM_ok {f : α → Except ε β} {g : α → β} (h : ∀ a ∈ l, f a = .ok (g a)) :
    l.mapM f = .ok (l.map g) := by
  rw [mapM_eq_ok_iff, List.forall₂_map_right_iff, List.forall₂_same]
  exact h

/-- **A folding pass completes** when its body does, under an invariant of
what has been passed. -/
theorem foldlM_ok {f : β → α → Except ε β} {I : List α → β → Prop} {s : β} (hs : I [] s)
    (hstep : ∀ pre a post s, l = pre ++ a :: post → I pre s →
      ∃ s', f s a = .ok s' ∧ I (pre ++ [a]) s') :
    ∃ s', l.foldlM f s = .ok s' ∧ I l s' := by
  have key : ∀ post pre s, l = pre ++ post → I pre s →
      ∃ s', post.foldlM f s = .ok s' ∧ I l s' := by
    intro post
    induction post with
    | nil =>
      intro pre s hl hI
      rw [List.append_nil] at hl
      exact ⟨s, rfl, hl ▸ hI⟩
    | cons a post ih =>
      intro pre s hl hI
      obtain ⟨s', hf, hI'⟩ := hstep pre a post s hl hI
      obtain ⟨t, ht, hIt⟩ := ih (pre ++ [a]) s' (by simp [hl]) hI'
      refine ⟨t, ?_, hIt⟩
      rw [List.foldlM_cons, hf]
      exact ht
  exact key l [] s rfl hs

/-- **What a completed folding pass established.** -/
theorem foldlM_inv {f : β → α → Except ε β} {I : List α → β → Prop} {s t : β} (hs : I [] s)
    (hstep : ∀ pre a post s s', l = pre ++ a :: post → I pre s → f s a = .ok s' →
      I (pre ++ [a]) s')
    (ht : l.foldlM f s = .ok t) : I l t := by
  have key : ∀ post pre s, l = pre ++ post → I pre s → post.foldlM f s = .ok t → I l t := by
    intro post
    induction post with
    | nil =>
      intro pre s hl hI h
      rw [List.append_nil] at hl
      cases h
      exact hl ▸ hI
    | cons a post ih =>
      intro pre s hl hI h
      rw [List.foldlM_cons] at h
      cases hf : f s a with
      | error e => rw [hf] at h; cases h
      | ok s' =>
        rw [hf] at h
        exact ih (pre ++ [a]) s' (by simp [hl]) (hstep pre a post s s' hl hI hf) h
  exact key l [] s rfl hs ht

/-- A checking pass completes exactly when every check does. -/
theorem forM_eq_ok_iff {f : α → Except ε Unit} :
    l.forM f = .ok () ↔ ∀ a ∈ l, f a = .ok () := by
  induction l with
  | nil => exact ⟨fun _ => by simp, fun _ => rfl⟩
  | cons a l ih =>
    rw [List.forM_eq_forM, List.forM_cons, List.forall_mem_cons, ← ih]
    cases hf : f a with
    | error e =>
      constructor
      · intro h; cases h
      · rintro ⟨h, -⟩; cases h
    | ok u =>
      cases u
      exact ⟨fun h => ⟨rfl, h⟩, fun h => h.2⟩

end Loop
