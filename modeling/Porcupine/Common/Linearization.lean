import Mathlib.Data.List.Perm.Basic
/-!
# Orderings of operations that a sequential object accepts

An object consumes operations one at a time and may refuse. Operations
come with a precedence, and a list of them is linearizable from a state
when some ordering of it, each operation once, never places an operation
before one that precedes it and is accepted throughout.

Everything here is about arbitrary operations and precedences: what the
head of an ordering must be (`linearizable_iff_head`), that relabelling
changes nothing (`linearizable_map`), and that less precedence admits
more (`Linearizable.mono`).
-/

namespace Linearization

variable {α β σ : Type*}

/-- The state after a sequence of operations, unless one is refused. -/
def run (step : σ → α → Option σ) : σ → List α → Option σ
  | s, [] => some s
  | s, a :: as => (step s a).bind fun s' => run step s' as

/-- The whole sequence is accepted. -/
def Accepts (step : σ → α → Option σ) (s : σ) (as : List α) : Prop :=
  (run step s as).isSome

/-- No operation is placed before one that precedes it. -/
def Respects (prec : α → α → Prop) (as : List α) : Prop :=
  as.Pairwise fun a b => ¬ prec b a

/-- **Some ordering of the operations respects the precedence and is
accepted.** -/
def Linearizable (prec : α → α → Prop) (step : σ → α → Option σ) (s : σ) (ops : List α) : Prop :=
  ∃ order : List α, order.Perm ops ∧ Respects prec order ∧ Accepts step s order

/-- Two states no sequence of operations tells apart. -/
def Interchangeable (step : σ → α → Option σ) (s t : σ) : Prop :=
  ∀ as, Accepts step s as ↔ Accepts step t as

section Run

variable {step : σ → α → Option σ} {s t : σ} {a : α} {as : List α}

@[simp] theorem run_nil : run step s [] = some s := rfl

@[simp] theorem run_cons : run step s (a :: as) = (step s a).bind fun s' => run step s' as := rfl

/-- Sequences run one after the other. -/
theorem run_append {bs : List α} :
    run step s (as ++ bs) = (run step s as).bind fun t => run step t bs := by
  induction as generalizing s with
  | nil => rfl
  | cons a as ih => simp only [List.cons_append, run_cons, Option.bind_assoc, ih]

/-- What every step establishes holds after a sequence, if it held
before. -/
theorem run_invariant {I : σ → Prop} (hs : I s) (hstep : ∀ s a t, step s a = some t → I t)
    (hrun : run step s as = some t) : I t := by
  induction as generalizing s with
  | nil =>
    cases hrun
    exact hs
  | cons a as ih =>
    obtain ⟨u, hu, hrest⟩ := Option.bind_eq_some_iff.1 hrun
    exact ih (hstep s a u hu) hrest

theorem run_map {step : σ → β → Option σ} (f : α → β) :
    run step s (as.map f) = run (fun s a => step s (f a)) s as := by
  induction as generalizing s with
  | nil => rfl
  | cons a as ih => simp [ih]

/-- **An object under another name for its states** runs as before. -/
theorem run_image {τ : Type*} {step' : τ → α → Option τ} {f : σ → τ}
    (hstep : ∀ s a, step' (f s) a = (step s a).map f) : run step' (f s) as = (run step s as).map f := by
  induction as generalizing s with
  | nil => rfl
  | cons a as ih =>
    rw [run_cons, run_cons, hstep]
    cases step s a with
    | none => rfl
    | some t => exact ih

@[simp] theorem accepts_nil : Accepts step s [] := rfl

theorem accepts_cons : Accepts step s (a :: as) ↔ ∃ s', step s a = some s' ∧ Accepts step s' as := by
  cases h : step s a with
  | none => simp [Accepts, h]
  | some s' => simp [Accepts, h]

namespace Interchangeable

theorem refl (s : σ) : Interchangeable step s s := fun _ => Iff.rfl

theorem symm (h : Interchangeable step s t) : Interchangeable step t s := fun as => (h as).symm

/-- **Interchangeable states step together**, to interchangeable
states. -/
theorem step_eq_some (h : Interchangeable step s t) {s' : σ} (hs : step s a = some s') :
    ∃ t', step t a = some t' ∧ Interchangeable step s' t' := by
  obtain ⟨t', ht, -⟩ := accepts_cons.1 ((h [a]).1 (accepts_cons.2 ⟨s', hs, accepts_nil⟩))
  refine ⟨t', ht, fun as => ?_⟩
  have hcons := h (a :: as)
  simpa only [accepts_cons, hs, ht, Option.some.injEq, exists_eq_left'] using hcons

end Interchangeable

end Run

section Orderings

variable {prec prec' : α → α → Prop} {step step' : σ → α → Option σ} {s t : σ}
variable {a : α} {ops ops' : List α}

/-- Linearizability reads the operations as a collection. -/
theorem linearizable_perm (h : ops.Perm ops') :
    Linearizable prec step s ops ↔ Linearizable prec step s ops' :=
  ⟨fun ⟨order, hp, hr, ha⟩ => ⟨order, hp.trans h, hr, ha⟩,
    fun ⟨order, hp, hr, ha⟩ => ⟨order, hp.trans h.symm, hr, ha⟩⟩

/-- **Less precedence admits more orderings.** -/
theorem Linearizable.mono (h : Linearizable prec step s ops)
    (hprec : ∀ a ∈ ops, ∀ b ∈ ops, prec' a b → prec a b) : Linearizable prec' step s ops := by
  obtain ⟨order, hp, hr, ha⟩ := h
  refine ⟨order, hp, ?_, ha⟩
  exact hr.imp_of_mem fun {x y} hx hy hxy hyx =>
    hxy (hprec y (hp.mem_iff.1 hy) x (hp.mem_iff.1 hx) hyx)

/-- Precedences that agree on the operations admit the same orderings. -/
theorem linearizable_congr (prec' : α → α → Prop)
    (hprec : ∀ a ∈ ops, ∀ b ∈ ops, prec' a b ↔ prec a b) :
    Linearizable prec step s ops ↔ Linearizable prec' step s ops :=
  ⟨fun h => h.mono fun a ha b hb => (hprec a ha b hb).1,
    fun h => h.mono fun a ha b hb => (hprec a ha b hb).2⟩

/-- Objects that treat the operations alike accept the same orderings. -/
theorem linearizable_congr_step (step' : σ → α → Option σ)
    (hstep : ∀ s, ∀ a ∈ ops, step' s a = step s a) :
    Linearizable prec step s ops ↔ Linearizable prec step' s ops := by
  have key : ∀ as : List α, (∀ a ∈ as, a ∈ ops) → ∀ s, run step' s as = run step s as := by
    intro as
    induction as with
    | nil => intro _ s; rfl
    | cons a as ih =>
      intro hmem s
      have ih' := ih fun b hb => hmem b (List.mem_cons_of_mem _ hb)
      simp only [run_cons, hstep s a (hmem a (by simp)), ih']
  refine exists_congr fun order => and_congr_right fun hp => and_congr_right fun _ => ?_
  unfold Accepts
  rw [key order (fun a ha => hp.mem_iff.1 ha) s]

/-- **Relabelling the operations changes nothing**: an ordering of the
relabelled operations is a relabelled ordering. -/
theorem linearizable_map (prec : β → β → Prop) (step : σ → β → Option σ) (f : α → β) :
    Linearizable prec step s (ops.map f) ↔
      Linearizable (fun a b => prec (f a) (f b)) (fun s a => step s (f a)) s ops := by
  constructor
  · rintro ⟨order, hp, hr, ha⟩
    have hcomp : Relation.Comp (fun x y => x = List.map f y) List.Perm order ops := by
      rw [List.eq_map_comp_perm]
      exact hp
    obtain ⟨order', rfl, hp'⟩ := hcomp
    exact ⟨order', hp', List.pairwise_map.1 hr, by rwa [Accepts, run_map] at ha⟩
  · rintro ⟨order, hp, hr, ha⟩
    exact ⟨order.map f, hp.map f, List.pairwise_map.2 hr, by rwa [Accepts, run_map]⟩

@[simp] theorem linearizable_nil : Linearizable prec step s [] :=
  ⟨[], .refl _, .nil, accepts_nil⟩

/-- **What an ordering starts with**: an operation that none of the others
precedes and that is accepted, the others being linearizable from where it
leads. -/
theorem linearizable_iff_head :
    Linearizable prec step s ops ↔ ops = [] ∨ ∃ a rest, ops.Perm (a :: rest) ∧
      (∀ b ∈ rest, ¬ prec b a) ∧ ∃ s', step s a = some s' ∧ Linearizable prec step s' rest := by
  constructor
  · rintro ⟨order, hp, hr, ha⟩
    cases order with
    | nil => exact Or.inl hp.nil_eq.symm
    | cons a rest =>
      obtain ⟨hmin, hr'⟩ := List.pairwise_cons.1 hr
      obtain ⟨s', hs, ha'⟩ := accepts_cons.1 ha
      exact Or.inr ⟨a, rest, hp.symm, hmin, s', hs, rest, .refl _, hr', ha'⟩
  · rintro (rfl | ⟨a, rest, hp, hmin, s', hs, order, hp', hr, ha⟩)
    · exact linearizable_nil
    · refine ⟨a :: order, (hp'.cons a).trans hp.symm, ?_, accepts_cons.2 ⟨s', hs, ha⟩⟩
      exact List.pairwise_cons.2 ⟨fun b hb => hmin b (hp'.mem_iff.1 hb), hr⟩

/-- **A linearization is cut where everything before precedes everything
after**: what comes first has one of its own. -/
theorem Linearizable.of_append {as bs : List α} (h : Linearizable prec step s (as ++ bs))
    (hsep : ∀ a ∈ as, ∀ b ∈ bs, prec a b) : Linearizable prec step s as := by
  -- on how many of the first are left, taking the head of the ordering off
  generalize hk : as.length = k
  induction k generalizing s as with
  | zero =>
    rw [List.length_eq_zero_iff.1 hk]
    exact linearizable_nil
  | succ k ih =>
    obtain ⟨x, hx⟩ : ∃ x, x ∈ as := List.exists_mem_of_length_pos (by omega)
    rcases linearizable_iff_head.1 h with hnil | ⟨a, rest, hperm, hmin, s', hs, hrest⟩
    · rw [(List.append_eq_nil_iff.1 hnil).1] at hx
      cases hx
    · have ha : a ∈ as := by
        rcases List.mem_append.1 (hperm.mem_iff.2 List.mem_cons_self) with ha | ha
        · exact ha
        · rcases List.mem_cons.1 (hperm.mem_iff.1 (List.mem_append_left _ hx)) with rfl | hx'
          · exact hx
          · exact absurd (hsep x hx a ha) (hmin x hx')
      obtain ⟨pre, post, rfl⟩ := List.append_of_mem ha
      have hrest' : rest.Perm ((pre ++ post) ++ bs) := by
        refine (hperm.symm.trans ?_).cons_inv
        rw [List.append_assoc, List.append_assoc]
        exact List.perm_middle
      have hlen : (pre ++ post).length = k := by
        simp only [List.length_append, List.length_cons] at hk ⊢
        omega
      have hlin : Linearizable prec step s' (pre ++ post) :=
        ih ((linearizable_perm hrest').1 hrest) (fun y hy =>
          hsep y (List.perm_middle.mem_iff.2 (List.mem_cons_of_mem a hy))) hlen
      refine linearizable_iff_head.2 (Or.inr ⟨a, pre ++ post, List.perm_middle, ?_, s', hs, hlin⟩)
      intro b hb
      exact hmin b (hrest'.mem_iff.2 (List.mem_append_left _ hb))

end Orderings

end Linearization
