import Porcupine.Common.Loop
/-!
# Where a loop fails

A pass over a list whose body fails stops at the first element that the
body fails at, and fails as the body does there. So what a failed pass
reports is the report of one element, and of the elements before it the
pass knows what a completed pass establishes.
-/

namespace Loop

variable {α β ε : Type*} {l : List α} {e : ε}

/-- A computation that completes completed its first part. -/
theorem bind_eq_ok {α β ε : Type} {x : Except ε α} {f : α → Except ε β} {b : β} :
    (x >>= f) = .ok b ↔ ∃ a, x = .ok a ∧ f a = .ok b := by
  cases x with
  | error e => exact ⟨fun h => (by cases h), fun ⟨_, h, _⟩ => (by cases h)⟩
  | ok a => exact ⟨fun h => ⟨a, rfl, h⟩, fun ⟨_, h, hf⟩ => (by cases h; exact hf)⟩

/-- **A folding pass fails where its body does**, in the state that the
elements before have left. -/
theorem foldlM_eq_error_iff {f : β → α → Except ε β} {s : β} :
    l.foldlM f s = .error e ↔ ∃ pre a post t, l = pre ++ a :: post ∧
      pre.foldlM f s = .ok t ∧ f t a = .error e := by
  induction l generalizing s with
  | nil =>
    refine ⟨fun h => (by cases h), ?_⟩
    rintro ⟨pre, a, post, t, hl, -⟩
    exact absurd hl.symm (by simp)
  | cons b l ih =>
    rw [List.foldlM_cons]
    cases hb : f s b with
    | error e' =>
      constructor
      · intro h
        cases h
        exact ⟨[], b, l, s, rfl, rfl, hb⟩
      · rintro ⟨pre, a, post, t, hl, hpre, ha⟩
        cases pre with
        | nil =>
          cases hl
          cases hpre
          exact hb.symm.trans ha
        | cons x pre =>
          -- the pass over what comes before would have failed already
          cases hl
          rw [List.foldlM_cons, hb] at hpre
          cases hpre
    | ok s' =>
      change l.foldlM f s' = .error e ↔ _
      rw [ih]
      constructor
      · rintro ⟨pre, a, post, t, rfl, hpre, ha⟩
        refine ⟨b :: pre, a, post, t, rfl, ?_, ha⟩
        rw [List.foldlM_cons, hb]
        exact hpre
      · rintro ⟨pre, a, post, t, hl, hpre, ha⟩
        cases pre with
        | nil =>
          cases hl
          cases hpre
          cases hb.symm.trans ha
        | cons x pre =>
          cases hl
          rw [List.foldlM_cons, hb] at hpre
          exact ⟨pre, a, post, t, rfl, hpre, ha⟩

/-- A checking pass folds over nothing. -/
theorem forM_eq_foldlM {f : α → Except ε Unit} : l.forM f = l.foldlM (fun _ a => f a) () := by
  induction l with
  | nil => rfl
  | cons a l ih =>
    rw [List.forM_eq_forM, List.forM_cons, List.foldlM_cons]
    change (f a >>= fun _ => l.forM f) = _
    rw [ih]

/-- It fails at the first element its body does not pass. -/
theorem forM_eq_error_iff {f : α → Except ε Unit} :
    l.forM f = .error e ↔ ∃ pre a post, l = pre ++ a :: post ∧
      (∀ x ∈ pre, f x = .ok ()) ∧ f a = .error e := by
  rw [forM_eq_foldlM, foldlM_eq_error_iff]
  refine exists₃_congr fun pre a post => ?_
  rw [← forM_eq_ok_iff, forM_eq_foldlM]
  constructor
  · rintro ⟨_, hl, ht, ha⟩
    exact ⟨hl, ht, ha⟩
  · rintro ⟨hl, ht, ha⟩
    exact ⟨(), hl, ht, ha⟩

/-- So does a mapping pass. -/
theorem exists_of_mapM_eq_error {f : α → Except ε β} (h : l.mapM f = .error e) :
    ∃ pre a post, l = pre ++ a :: post ∧ (∀ x ∈ pre, ∃ b, f x = .ok b) ∧ f a = .error e := by
  induction l with
  | nil => cases h
  | cons b l ih =>
    rw [List.mapM_cons] at h
    cases hb : f b with
    | error e' =>
      rw [hb] at h
      cases h
      exact ⟨[], b, l, rfl, by simp, hb⟩
    | ok c =>
      cases hrest : l.mapM f with
      | error e' =>
        rw [hb, hrest] at h
        cases h
        obtain ⟨pre, a, post, rfl, hpre, ha⟩ := ih hrest
        exact ⟨b :: pre, a, post, rfl, List.forall_mem_cons.2 ⟨⟨c, hb⟩, hpre⟩, ha⟩
      | ok cs =>
        rw [hb, hrest] at h
        cases h

end Loop
