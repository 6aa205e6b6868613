import Porcupine.Common.Linearization
import Mathlib.Data.List.Sort
import Mathlib.Order.BoundedOrder.Basic
import Mathlib.Order.Lattice
/-!
# Locality: linearizations of independent components merge

An object is made of components, each operation belongs to one, and the
object accepts an operation by looking at that component and changes no
other. Operations are intervals of a linear order, and one precedes
another when it ends before the other starts. Then operations on disjoint
sets of components are linearizable together exactly when they are
linearizable apart (`linearizable_append_iff`).

The merge gives each operation of an ordering a *point*: the latest start
among the operations up to it. Points grow along the ordering, and an
operation's point lies inside its interval because nothing before it in
the ordering starts after it ends. Sorting both orderings by their points
therefore keeps each of them and respects precedence across them.
-/

namespace Linearization

variable {α σ κ γ τ : Type*}

/-- **An object of independent components.** `view` reads a component off
the state, and `component` is what an operation does to its own. -/
structure Componentwise (step : σ → α → Option σ) (key : α → κ) (view : σ → κ → γ)
    (component : γ → α → Option γ) : Prop where
  /-- An operation is refused exactly when its component refuses it. -/
  step_none : ∀ s a, step s a = none ↔ component (view s (key a)) a = none
  /-- An accepted operation changes its component as the component does. -/
  step_self : ∀ s a s', step s a = some s' → component (view s (key a)) a = some (view s' (key a))
  /-- And it changes no other. -/
  step_frame : ∀ s a s' k, step s a = some s' → k ≠ key a → view s' k = view s k

section Components

variable [DecidableEq κ] {step : σ → α → Option σ} {key : α → κ} {view : σ → κ → γ}
variable {component : γ → α → Option γ} {s : σ} {ops : List α}

/-- **The object accepts a sequence exactly when every component accepts
its own part of it.** -/
theorem Componentwise.accepts_iff (hc : Componentwise step key view component) (as : List α) :
    ∀ s, Accepts step s as ↔
      ∀ k, Accepts component (view s k) (as.filter fun a => key a = k) := by
  induction as with
  | nil => simp
  | cons a as ih =>
    intro s
    rw [accepts_cons]
    cases hs : step s a with
    | none =>
      have hn := (hc.step_none s a).1 hs
      simp only [reduceCtorEq, false_and, exists_false, false_iff, not_forall]
      refine ⟨key a, ?_⟩
      simp [accepts_cons, hn]
    | some s' =>
      simp only [Option.some.injEq, exists_eq_left', ih s']
      refine forall_congr' fun k => ?_
      by_cases hk : key a = k
      · subst hk
        simp [accepts_cons, hc.step_self s a s' hs]
      · rw [hc.step_frame s a s' k hs (Ne.symm hk)]
        simp [hk]

/-- What belongs to one component is accepted when the component accepts
it. -/
theorem Componentwise.accepts_iff_component (hc : Componentwise step key view component)
    {as : List α} {k : κ} (hk : ∀ a ∈ as, key a = k) :
    Accepts step s as ↔ Accepts component (view s k) as := by
  rw [hc.accepts_iff]
  constructor
  · intro h
    have hself : (as.filter fun a => key a = k) = as :=
      List.filter_eq_self.2 fun a ha => decide_eq_true (hk a ha)
    exact hself ▸ h k
  · intro h k'
    by_cases hkk : k' = k
    · subst hkk
      rwa [List.filter_eq_self.2 fun a ha => decide_eq_true (hk a ha)]
    · rw [List.filter_eq_nil_iff.2 fun a ha => ?_]
      · exact accepts_nil
      · rw [hk a ha]
        simpa using Ne.symm hkk

end Components

section Points

variable [LinearOrder τ]

/-- Each operation of an ordering with its point, the latest start so
far. -/
def points (start : α → τ) (m : τ) : List α → List (τ × α)
  | [] => []
  | a :: as => (max m (start a), a) :: points start (max m (start a)) as

variable {start finish : α → τ} {m : τ} {as : List α}

@[simp] theorem points_map_snd : (points start m as).map Prod.snd = as := by
  induction as generalizing m with
  | nil => rfl
  | cons a as ih => simp [points, ih]

/-- Every point is at least the latest start before the ordering, and at
least its operation's start. -/
theorem le_of_mem_points {x : τ × α} (h : x ∈ points start m as) : m ≤ x.1 ∧ start x.2 ≤ x.1 := by
  induction as generalizing m with
  | nil => simp [points] at h
  | cons a as ih =>
    rcases List.mem_cons.1 h with rfl | h
    · exact ⟨le_max_left _ _, le_max_right _ _⟩
    · exact ⟨(le_max_left _ _).trans (ih h).1, (ih h).2⟩

/-- Points grow along the ordering. -/
theorem points_pairwise : (points start m as).Pairwise fun x y => x.1 ≤ y.1 := by
  induction as generalizing m with
  | nil => exact .nil
  | cons a as ih => exact List.pairwise_cons.2 ⟨fun y hy => (le_of_mem_points hy).1, ih⟩

/-- **A point lies inside its operation's interval** when the ordering
respects precedence. -/
theorem mem_points_le_finish (hle : ∀ a ∈ as, start a ≤ finish a)
    (hr : Respects (fun a b => finish a < start b) as) (hm : ∀ a ∈ as, m ≤ finish a)
    {x : τ × α} (h : x ∈ points start m as) : x.1 ≤ finish x.2 := by
  induction as generalizing m with
  | nil => simp [points] at h
  | cons a as ih =>
    obtain ⟨hmin, hr'⟩ := List.pairwise_cons.1 hr
    rcases List.mem_cons.1 h with rfl | h
    · exact max_le (hm a (by simp)) (hle a (by simp))
    · refine ih (fun b hb => hle b (List.mem_cons_of_mem _ hb)) hr' (fun b hb => ?_) h
      exact max_le (hm b (List.mem_cons_of_mem _ hb)) (not_lt.1 (hmin b hb))

end Points

section Merge

variable [LinearOrder τ] [OrderBot τ] {start finish : α → τ}

/-- Two orderings, merged by their points. -/
def mergePoints (start : α → τ) (as bs : List α) : List (τ × α) :=
  (points start ⊥ as ++ points start ⊥ bs).insertionSort fun x y => x.1 ≤ y.1

variable {as bs : List α}

theorem mergePoints_perm : (mergePoints start as bs).Perm (points start ⊥ as ++ points start ⊥ bs) :=
  List.perm_insertionSort _ _

/-- The merge is an ordering of all the operations. -/
theorem mergePoints_map_perm : ((mergePoints start as bs).map Prod.snd).Perm (as ++ bs) := by
  have h : (mergePoints start as bs).Perm (points start ⊥ as ++ points start ⊥ bs) :=
    mergePoints_perm
  simpa only [List.map_append, points_map_snd] using h.map Prod.snd

/-- The merge keeps both orderings. -/
theorem sublist_mergePoints :
    as.Sublist ((mergePoints start as bs).map Prod.snd) ∧
      bs.Sublist ((mergePoints start as bs).map Prod.snd) := by
  constructor
  · have h : (points start ⊥ as).Sublist (mergePoints start as bs) :=
      List.sublist_insertionSort points_pairwise (List.sublist_append_left _ _)
    simpa only [points_map_snd] using h.map Prod.snd
  · have h : (points start ⊥ bs).Sublist (mergePoints start as bs) :=
      List.sublist_insertionSort points_pairwise (List.sublist_append_right _ _)
    simpa only [points_map_snd] using h.map Prod.snd

/-- **The merge respects precedence across the two orderings**: an
operation that ends before another starts has the smaller point. -/
theorem mergePoints_respects (hle : ∀ a ∈ as ++ bs, start a ≤ finish a)
    (ha : Respects (fun a b => finish a < start b) as)
    (hb : Respects (fun a b => finish a < start b) bs) :
    Respects (fun a b => finish a < start b) ((mergePoints start as bs).map Prod.snd) := by
  have hpoint : ∀ x ∈ mergePoints start as bs, start x.2 ≤ x.1 ∧ x.1 ≤ finish x.2 := by
    intro x hx
    rcases List.mem_append.1 (mergePoints_perm.mem_iff.1 hx) with hx | hx
    · exact ⟨(le_of_mem_points hx).2, mem_points_le_finish
        (fun a h => hle a (List.mem_append_left _ h)) ha (fun _ _ => bot_le) hx⟩
    · exact ⟨(le_of_mem_points hx).2, mem_points_le_finish
        (fun b h => hle b (List.mem_append_right _ h)) hb (fun _ _ => bot_le) hx⟩
  have hsorted : (mergePoints start as bs).Pairwise fun x y => x.1 ≤ y.1 :=
    have : Std.Total fun x y : τ × α => x.1 ≤ y.1 := ⟨fun x y => le_total x.1 y.1⟩
    have : IsTrans (τ × α) fun x y => x.1 ≤ y.1 := ⟨fun _ _ _ => le_trans⟩
    List.pairwise_insertionSort _ _
  refine List.pairwise_map.2 (hsorted.imp_of_mem fun {x y} hx hy hxy hlt => ?_)
  exact absurd ((hpoint x hx).1.trans (hxy.trans (hpoint y hy).2)) (not_le.2 hlt)

end Merge

section Locality

variable [DecidableEq κ] [LinearOrder τ] [OrderBot τ] {start finish : α → τ}
variable {step : σ → α → Option σ} {key : α → κ} {view : σ → κ → γ}
variable {component : γ → α → Option γ} {s : σ} {ops ops' : List α}

/-- Two parts with no common component: what one filters out by a
component of the other is nothing. -/
theorem filter_key_eq_nil (hdisj : ∀ a ∈ ops, ∀ b ∈ ops', key a ≠ key b) {a : α} (ha : a ∈ ops) :
    ops'.filter (fun b => key b = key a) = [] := by
  rw [List.filter_eq_nil_iff]
  intro b hb
  simpa using (hdisj a ha b hb).symm

/-- A sublist of an ordering that accounts for all of a component is that
component's part of the ordering. -/
theorem filter_eq_of_sublist {p : α → Bool} {as order : List α} (hs : as.Sublist order)
    (hp : (order.filter p).Perm (as.filter p)) : order.filter p = as.filter p :=
  ((hs.filter p).eq_of_length hp.length_eq.symm).symm

/-- What is accepted is accepted without the operations of the other
components. -/
theorem Componentwise.accepts_filter (hc : Componentwise step key view component)
    (h : Accepts step s ops) (keys : List κ) :
    Accepts step s (ops.filter fun a => key a ∈ keys) := by
  rw [hc.accepts_iff]
  intro k
  rw [List.filter_filter]
  by_cases hk : k ∈ keys
  · have he : (ops.filter fun a => decide (key a = k) && decide (key a ∈ keys)) =
        ops.filter fun a => key a = k := by
      refine List.filter_congr fun a _ => ?_
      by_cases h : key a = k
      · subst h; simp [hk]
      · simp [h]
    rw [he]
    exact (hc.accepts_iff ops s).1 h k
  · have he : (ops.filter fun a => decide (key a = k) && decide (key a ∈ keys)) = [] := by
      rw [List.filter_eq_nil_iff]
      intro a _
      by_cases h : key a = k
      · subst h; simp [hk]
      · simp [h]
    rw [he]
    exact accepts_nil

/-- **A part with components of its own** is linearizable when the whole
is: filter an ordering of the whole by the part's components. -/
theorem Componentwise.linearizable_left (hc : Componentwise step key view component)
    {prec : α → α → Prop} (h : Linearizable prec step s (ops ++ ops'))
    (hdisj : ∀ a ∈ ops, ∀ b ∈ ops', key a ≠ key b) : Linearizable prec step s ops := by
  obtain ⟨order, hp, hr, ha⟩ := h
  have hops : ops.filter (fun a => key a ∈ ops.map key) = ops :=
    List.filter_eq_self.2 fun a h => by simpa using ⟨a, h, rfl⟩
  have hops' : ops'.filter (fun a => key a ∈ ops.map key) = [] := by
    rw [List.filter_eq_nil_iff]
    intro b hb hmem
    simp only [List.mem_map, decide_eq_true_eq] at hmem
    obtain ⟨a, hax, hab⟩ := hmem
    exact hdisj a hax b hb hab
  refine ⟨order.filter fun a => key a ∈ ops.map key, ?_, hr.filter _, hc.accepts_filter ha _⟩
  have h := hp.filter fun a => key a ∈ ops.map key
  rwa [List.filter_append, hops, hops', List.append_nil] at h

/-- **Two parts with components of their own merge** into an ordering that
is accepted, wherever the points put their operations. -/
theorem Componentwise.accepts_mergePoints (hc : Componentwise step key view component)
    {as bs : List α} (hdisj : ∀ a ∈ as, ∀ b ∈ bs, key a ≠ key b) (ha : Accepts step s as)
    (hb : Accepts step s bs) : Accepts step s ((mergePoints start as bs).map Prod.snd) := by
  have hperm : ((mergePoints start as bs).map Prod.snd).Perm (as ++ bs) := mergePoints_map_perm
  rw [hc.accepts_iff]
  intro k
  have hfilter := hperm.filter fun a => key a = k
  rw [List.filter_append] at hfilter
  by_cases hk : ∃ a ∈ as, key a = k
  · obtain ⟨a, hax, rfl⟩ := hk
    rw [filter_key_eq_nil hdisj hax, List.append_nil] at hfilter
    rw [filter_eq_of_sublist sublist_mergePoints.1 hfilter]
    exact (hc.accepts_iff as s).1 ha (key a)
  · have has : as.filter (fun a => key a = k) = [] := by
      rw [List.filter_eq_nil_iff]
      intro a ha
      simpa using fun h => hk ⟨a, ha, h⟩
    rw [has, List.nil_append] at hfilter
    rw [filter_eq_of_sublist sublist_mergePoints.2 hfilter]
    exact (hc.accepts_iff bs s).1 hb k

/-- **Locality, for two parts.** Operations on disjoint sets of components
are linearizable together exactly when each part is. -/
theorem linearizable_append_iff (hc : Componentwise step key view component)
    (hle : ∀ a ∈ ops ++ ops', start a ≤ finish a)
    (hdisj : ∀ a ∈ ops, ∀ b ∈ ops', key a ≠ key b) :
    Linearizable (fun a b => finish a < start b) step s (ops ++ ops') ↔
      Linearizable (fun a b => finish a < start b) step s ops ∧
        Linearizable (fun a b => finish a < start b) step s ops' := by
  constructor
  · intro h
    exact ⟨hc.linearizable_left h hdisj,
      hc.linearizable_left ((linearizable_perm List.perm_append_comm).1 h)
        fun a ha b hb he => hdisj b hb a ha he.symm⟩
  · rintro ⟨⟨as, hpa, hra, haa⟩, ⟨bs, hpb, hrb, hab⟩⟩
    have hmem : ∀ a ∈ as ++ bs, a ∈ ops ++ ops' := fun a h => (hpa.append hpb).mem_iff.1 h
    have hdisj' : ∀ a ∈ as, ∀ b ∈ bs, key a ≠ key b := fun a ha b hb =>
      hdisj a (hpa.mem_iff.1 ha) b (hpb.mem_iff.1 hb)
    exact ⟨(mergePoints start as bs).map Prod.snd, mergePoints_map_perm.trans (hpa.append hpb),
      mergePoints_respects (fun a h => hle a (hmem a h)) hra hrb,
      hc.accepts_mergePoints hdisj' haa hab⟩

/-- **Locality.** Groups of operations no two of which share a component
are linearizable together exactly when each group is. -/
theorem linearizable_flatten_iff (hc : Componentwise step key view component)
    {groups : List (List α)} (hle : ∀ g ∈ groups, ∀ a ∈ g, start a ≤ finish a)
    (hdisj : groups.Pairwise fun g g' => ∀ a ∈ g, ∀ b ∈ g', key a ≠ key b) :
    Linearizable (fun a b => finish a < start b) step s groups.flatten ↔
      ∀ g ∈ groups, Linearizable (fun a b => finish a < start b) step s g := by
  induction groups with
  | nil => simp
  | cons g groups ih =>
    obtain ⟨hg, hrest⟩ := List.pairwise_cons.1 hdisj
    rw [List.flatten_cons, linearizable_append_iff hc, List.forall_mem_cons,
      ih (fun g' h => hle g' (List.mem_cons_of_mem _ h)) hrest]
    · intro a ha
      rcases List.mem_append.1 ha with ha | ha
      · exact hle g (by simp) a ha
      · obtain ⟨g', hg', ha'⟩ := List.mem_flatten.1 ha
        exact hle g' (List.mem_cons_of_mem _ hg') a ha'
    · intro a ha b hb
      obtain ⟨g', hg', hb'⟩ := List.mem_flatten.1 hb
      exact hg g' hg' a ha b hb'

end Locality

end Linearization
