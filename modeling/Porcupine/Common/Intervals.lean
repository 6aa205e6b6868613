import Porcupine.Common.Linearization
import Mathlib.Data.List.Sort
/-!
# Operations that take time

Where operations are intervals of time, one preceding another when it is
over before the other starts, the order of a point of each is a
linearization order (`exists_respects_of_points`). So there is one that
places an operation after any other it does not precede, and an object
that refuses the one until it has seen the other tells whether it does
(`linearizable_refuseUntil_iff`).
-/

namespace Linearization

variable {α σ : Type*} {prec : α → α → Prop} {ops : List α} {a b : α}

/-- **The order of a point of each operation** respects a precedence that
the points follow. -/
theorem exists_respects_of_points (point : α → ℕ)
    (hpoint : ∀ a ∈ ops, ∀ b ∈ ops, prec a b → point a < point b) :
    ∃ order : List α, order.Perm ops ∧ Respects prec order ∧
      order.Pairwise fun a b => point a ≤ point b := by
  have hperm := List.perm_insertionSort (fun a b => point a ≤ point b) ops
  have hsorted : (ops.insertionSort fun a b => point a ≤ point b).Pairwise fun a b =>
      point a ≤ point b := by
    have : Std.Total fun a b : α => point a ≤ point b := ⟨fun a b => Nat.le_total _ _⟩
    have : IsTrans α fun a b => point a ≤ point b := ⟨fun a b c => Nat.le_trans⟩
    exact List.pairwise_insertionSort _ ops
  refine ⟨_, hperm, hsorted.imp_of_mem fun {x y} hx hy hle hprec => ?_, hsorted⟩
  exact Nat.not_lt.2 hle (hpoint y (hperm.mem_iff.1 hy) x (hperm.mem_iff.1 hx) hprec)

/-- Intervals have a linearization when the object refuses none of their
orderings. -/
theorem linearizable_of_accepts {step : σ → α → Option σ} {s : σ} {start finish : α → ℕ}
    (hwf : ∀ x ∈ ops, start x ≤ finish x) (hacc : ∀ order : List α, order.Perm ops →
      Accepts step s order) : Linearizable (fun x y => finish x < start y) step s ops := by
  obtain ⟨order, hp, hr, -⟩ := exists_respects_of_points start
    fun x hx y _ hlt => (hwf x hx).trans_lt hlt
  exact ⟨order, hp, hr, hacc order hp⟩

/-! ## Telling precedences apart -/

variable [DecidableEq α]

/-- An object that refuses `a` until it has seen `b`. -/
def refuseUntil (a b : α) (seen : Bool) (x : α) : Option Bool :=
  if x = b then some true
  else if x = a ∧ seen = false then none
  else some seen

theorem accepts_refuseUntil_true : Accepts (refuseUntil a b) true ops := by
  induction ops with
  | nil => exact accepts_nil
  | cons x l ih => exact accepts_cons.2 ⟨true, by simp [refuseUntil], ih⟩

/-- It accepts what does not have `a` before `b`, -/
theorem accepts_refuseUntil (hmem : a ∈ ops → b ∈ ops)
    (hafter : ops.Pairwise fun x y => ¬ (x = a ∧ y = b)) :
    Accepts (refuseUntil a b) false ops := by
  induction ops with
  | nil => exact accepts_nil
  | cons x l ih =>
    obtain ⟨hx, hl⟩ := List.pairwise_cons.1 hafter
    by_cases hb : x = b
    · exact accepts_cons.2 ⟨true, by simp [refuseUntil, hb], accepts_refuseUntil_true⟩
    · have ha : x ≠ a := by
        rintro rfl
        rcases List.mem_cons.1 (hmem List.mem_cons_self) with he | he
        · exact hb he.symm
        · exact hx b he ⟨rfl, rfl⟩
      refine accepts_cons.2 ⟨false, by simp [refuseUntil, hb, ha], ih (fun hmem' => ?_) hl⟩
      exact (List.mem_cons.1 (hmem (List.mem_cons_of_mem _ hmem'))).resolve_left (Ne.symm hb)

/-- what does not have `a` at all, -/
theorem accepts_refuseUntil_of_notMem (ha : a ∉ ops) : Accepts (refuseUntil a b) false ops := by
  refine accepts_refuseUntil (fun h => absurd h ha) ?_
  refine List.pairwise_of_forall_mem_list fun x hx y _ hxy => ?_
  exact ha (hxy.1 ▸ hx)

/-- and refuses what has `b` after an `a` that precedes it. -/
theorem not_accepts_refuseUntil (ha : a ∈ ops) (hb : b ∈ ops) (hne : a ≠ b)
    (hr : Respects prec ops) (hprec : prec a b) : ¬ Accepts (refuseUntil a b) false ops := by
  induction ops with
  | nil => cases ha
  | cons x l ih =>
    obtain ⟨hx, hl⟩ := List.pairwise_cons.1 hr
    intro hacc
    obtain ⟨s, hs, hacc'⟩ := accepts_cons.1 hacc
    have hxb : x ≠ b := by
      rintro rfl
      exact hx a ((List.mem_cons.1 ha).resolve_left hne) hprec
    by_cases hxa : x = a
    · subst hxa
      simp [refuseUntil, hne] at hs
    · have hs' : s = false := by simpa [refuseUntil, hxb, hxa] using hs.symm
      subst hs'
      exact ih ((List.mem_cons.1 ha).resolve_left (Ne.symm hxa))
        ((List.mem_cons.1 hb).resolve_left (Ne.symm hxb)) hl hacc'

/-- **It tells whether `a` precedes `b`.** -/
theorem linearizable_refuseUntil_iff (start finish : α → ℕ)
    (hwf : ∀ x ∈ ops, start x ≤ finish x) (ha : a ∈ ops) (hb : b ∈ ops) (hne : a ≠ b) :
    Linearizable (fun x y => finish x < start y) (refuseUntil a b) false ops ↔
      ¬ finish a < start b := by
  constructor
  · rintro ⟨order, hp, hr, hacc⟩ hlt
    exact not_accepts_refuseUntil (hp.mem_iff.2 ha) (hp.mem_iff.2 hb) hne hr hlt hacc
  · intro hnot
    -- `a` as late as it can be, the others as early
    let point := fun x => if x = a then 2 * finish x + 1 else 2 * start x
    have hpoint : ∀ x ∈ ops, ∀ y ∈ ops, finish x < start y → point x < point y := by
      intro x hx y hy hlt
      have hx' := hwf x hx
      have hy' := hwf y hy
      simp only [point]
      split <;> split <;> omega
    obtain ⟨order, hp, hr, hsorted⟩ := exists_respects_of_points point hpoint
    refine ⟨order, hp, hr, accepts_refuseUntil (fun _ => hp.mem_iff.2 hb) (hsorted.imp ?_)⟩
    rintro x y hle ⟨rfl, rfl⟩
    simp only [point, if_neg (Ne.symm hne), if_true] at hle
    omega

end Linearization
