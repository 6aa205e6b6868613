import Porcupine.Common.Linearization
import Mathlib.Data.List.Sublists
/-!
# Operations that never returned

A history may end while operations are under way. Each of them may have
taken effect or not, so what counts is that the others are linearizable
together with some of these (`LinearizableWith`). A checker that wants
every operation to return gets to the same answer by letting them all
return last, if the object takes them in any state
(`linearizable_append_pending_iff`).
-/

namespace Linearization

variable {α σ : Type*} {prec : α → α → Prop} {step : σ → α → Option σ} {s : σ}
variable {completed pending as bs : List α}

/-- **The completed operations are linearizable with those of the pending
ones that took effect**, whichever these are. -/
def LinearizableWith (prec : α → α → Prop) (step : σ → α → Option σ) (s : σ)
    (completed pending : List α) : Prop :=
  ∃ taken : List α, taken.Sublist pending ∧ Linearizable prec step s (completed ++ taken)

/-- What is taken in any state can follow a sequence that is accepted. -/
theorem accepts_append_of_total (h : Accepts step s as)
    (htotal : ∀ s, ∀ b ∈ bs, (step s b).isSome = true) : Accepts step s (as ++ bs) := by
  have hrest : ∀ t, Accepts step t bs := by
    clear h
    induction bs with
    | nil => exact fun t => accepts_nil
    | cons b bs ih =>
      intro t
      obtain ⟨t', ht⟩ := Option.isSome_iff_exists.1 (htotal t b List.mem_cons_self)
      exact accepts_cons.2 ⟨t', ht, ih (fun s x hx => htotal s x (List.mem_cons_of_mem _ hx)) t'⟩
  obtain ⟨t, ht⟩ := Option.isSome_iff_exists.1 h
  rw [Accepts, run_append, ht]
  exact hrest t

/-- More operations that precede nothing and are taken in any state are
linearized by placing them last. -/
theorem Linearizable.append_of_total (h : Linearizable prec step s as)
    (hlast : ∀ b ∈ bs, ∀ a ∈ as ++ bs, ¬ prec b a)
    (htotal : ∀ s, ∀ b ∈ bs, (step s b).isSome = true) : Linearizable prec step s (as ++ bs) := by
  obtain ⟨order, hperm, hr, hacc⟩ := h
  refine ⟨order ++ bs, hperm.append_right bs, ?_, accepts_append_of_total hacc htotal⟩
  refine List.pairwise_append.2 ⟨hr, ?_, fun a ha b hb => ?_⟩
  · refine List.pairwise_of_forall_mem_list fun a ha b hb => ?_
    exact hlast b hb a (List.mem_append_right _ ha)
  · exact hlast b hb a (List.mem_append_left _ (hperm.mem_iff.1 ha))

/-- **Letting every pending operation return last decides whether some of
them make the history linearizable.** -/
theorem linearizable_append_pending_iff
    (hlast : ∀ b ∈ pending, ∀ a ∈ completed ++ pending, ¬ prec b a)
    (htotal : ∀ s, ∀ b ∈ pending, (step s b).isSome = true) :
    Linearizable prec step s (completed ++ pending) ↔
      LinearizableWith prec step s completed pending := by
  constructor
  · intro h
    exact ⟨pending, .refl _, h⟩
  · rintro ⟨taken, hsub, h⟩
    -- those that did not take effect are placed last
    obtain ⟨rest, hperm⟩ := hsub.exists_perm_append
    have hmem : ∀ b ∈ rest, b ∈ pending :=
      fun b hb => hperm.mem_iff.2 (List.mem_append_right _ hb)
    have hall : (completed ++ taken ++ rest).Perm (completed ++ pending) := by
      rw [List.append_assoc]
      exact hperm.symm.append_left completed
    rw [← linearizable_perm hall]
    exact h.append_of_total (fun b hb a ha => hlast b (hmem b hb) a (hall.mem_iff.1 ha))
      fun s b hb => htotal s b (hmem b hb)

end Linearization
