import Mathlib.Algebra.Order.BigOperators.Group.Finset
import Mathlib.Data.Finset.Max
import Mathlib.Data.Finset.Powerset
/-!
# Cuts of operations that take time

Where operations are intervals of time, a set of them is a cut when it
holds everything that is over before one of its operations starts. Take
the first operation a cut leaves out to finish: what finishes before it is
in the cut, what starts after it is not, and only what is going on at that
moment is left to choose (`eq_union_of_mem_cuts`). So there are as many
cuts as moments, and choices at each (`card_cuts_le`): no more than linear
in the operations, where few are going on at a time.
-/

namespace Linearization

variable {α : Type*} [DecidableEq α] {ops A : Finset α} {start finish : α → ℕ} {w : ℕ} {r x : α}

/-- The other operations going on when `r` finishes. -/
def ongoing (ops : Finset α) (start finish : α → ℕ) (r : α) : Finset α :=
  {x ∈ ops | x ≠ r ∧ start x ≤ finish r ∧ finish r ≤ finish x}

/-- **The cuts**: the sets of operations that hold what is over before one
of theirs starts. -/
def cuts (ops : Finset α) (start finish : α → ℕ) : Finset (Finset α) :=
  {A ∈ ops.powerset | ∀ b ∈ A, ∀ a ∈ ops, finish a < start b → a ∈ A}

/-- What may come first of the operations that `A` leaves out: what none of
them precedes. -/
def firsts (ops A : Finset α) (start finish : α → ℕ) : Finset α :=
  {x ∈ ops \ A | ∀ a ∈ ops \ A, ¬ finish a < start x}

theorem mem_ongoing : x ∈ ongoing ops start finish r ↔
    x ∈ ops ∧ x ≠ r ∧ start x ≤ finish r ∧ finish r ≤ finish x :=
  Finset.mem_filter

theorem mem_cuts : A ∈ cuts ops start finish ↔
    A ⊆ ops ∧ ∀ b ∈ A, ∀ a ∈ ops, finish a < start b → a ∈ A := by
  rw [cuts, Finset.mem_filter, Finset.mem_powerset]

theorem mem_firsts : x ∈ firsts ops A start finish ↔
    (x ∈ ops ∧ x ∉ A) ∧ ∀ a ∈ ops \ A, ¬ finish a < start x := by
  rw [firsts, Finset.mem_filter, Finset.mem_sdiff]

theorem empty_mem_cuts : ∅ ∈ cuts ops start finish :=
  mem_cuts.2 ⟨Finset.empty_subset _, nofun⟩

/-- **A cut is a moment and a choice among what is going on then.** -/
theorem eq_union_of_mem_cuts (hA : A ∈ cuts ops start finish) (hr : r ∈ ops \ A)
    (hmin : ∀ x ∈ ops \ A, finish r ≤ finish x) :
    A = {x ∈ ops | finish x < finish r} ∪ (A ∩ ongoing ops start finish r) := by
  obtain ⟨hsub, hdown⟩ := mem_cuts.1 hA
  obtain ⟨hr, hrA⟩ := Finset.mem_sdiff.1 hr
  ext x
  simp only [Finset.mem_union, Finset.mem_filter, Finset.mem_inter, mem_ongoing]
  constructor
  · intro hx
    rcases Nat.lt_or_ge (finish x) (finish r) with hlt | hge
    · exact Or.inl ⟨hsub hx, hlt⟩
    · have hne : x ≠ r := fun he => hrA (he ▸ hx)
      have hstart : start x ≤ finish r := Nat.le_of_not_lt fun hlt => hrA (hdown x hx r hr hlt)
      exact Or.inr ⟨hx, hsub hx, hne, hstart, hge⟩
  · rintro (⟨hx, hlt⟩ | ⟨hx, -⟩)
    · by_contra hxA
      have hge : finish r ≤ finish x := hmin x (Finset.mem_sdiff.2 ⟨hx, hxA⟩)
      omega
    · exact hx

/-- **There are few cuts**: besides the empty one, `2 ^ w` for each
operation at most, where no more than `w` others are going on when it
finishes. -/
theorem card_cuts_le (hw : ∀ r ∈ ops, (ongoing ops start finish r).card ≤ w) :
    ((cuts ops start finish).erase ∅).card ≤ ops.card * 2 ^ w := by
  -- the cuts that leave something out, by the first of it to finish
  let moments : Finset (Finset α) := ops.biUnion fun r =>
    (ongoing ops start finish r).powerset.image fun B => {x ∈ ops | finish x < finish r} ∪ B
  have hmoments : moments.card ≤ ops.card * 2 ^ w := by
    refine Finset.card_biUnion_le_card_mul _ _ _ fun r hr => Finset.card_image_le.trans ?_
    rw [Finset.card_powerset]
    exact Nat.pow_le_pow_right (by omega) (hw r hr)
  have hsub : cuts ops start finish ⊆ insert ops moments := by
    intro A hA
    rcases (ops \ A).eq_empty_or_nonempty with hemp | hne
    · have hge : ops ⊆ A := Finset.sdiff_eq_empty_iff_subset.1 hemp
      exact Finset.mem_insert.2 (Or.inl ((mem_cuts.1 hA).1.antisymm hge))
    · obtain ⟨r, hr, hmin⟩ := Finset.exists_min_image _ finish hne
      refine Finset.mem_insert.2 (Or.inr (Finset.mem_biUnion.2 ⟨r, (Finset.mem_sdiff.1 hr).1, ?_⟩))
      exact Finset.mem_image.2 ⟨A ∩ ongoing ops start finish r,
        Finset.mem_powerset.2 Finset.inter_subset_right, (eq_union_of_mem_cuts hA hr hmin).symm⟩
  have hcard := (Finset.card_le_card hsub).trans (Finset.card_insert_le _ _)
  rw [Finset.card_erase_of_mem empty_mem_cuts]
  omega

/-- **Few operations may come first**: the first to finish of those left,
and what is going on then. -/
theorem card_firsts_le (hw : ∀ r ∈ ops, (ongoing ops start finish r).card ≤ w) :
    (firsts ops A start finish).card ≤ w + 1 := by
  rcases (ops \ A).eq_empty_or_nonempty with hemp | hne
  · simp [firsts, hemp]
  · obtain ⟨r, hr, hmin⟩ := Finset.exists_min_image _ finish hne
    have hsub : firsts ops A start finish ⊆ insert r (ongoing ops start finish r) := by
      intro x hx
      obtain ⟨hx, hfree⟩ := mem_firsts.1 hx
      by_cases heq : x = r
      · exact Finset.mem_insert.2 (Or.inl heq)
      · exact Finset.mem_insert.2 (Or.inr (mem_ongoing.2 ⟨hx.1, heq, Nat.le_of_not_lt (hfree r hr),
          hmin x (Finset.mem_sdiff.2 hx)⟩))
    have hr' : r ∈ ops := (Finset.mem_sdiff.1 hr).1
    have hcard := (Finset.card_le_card hsub).trans (Finset.card_insert_le _ _)
    have := hw r hr'
    omega

end Linearization
