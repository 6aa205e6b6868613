import Porcupine.Common.Backtrack
import Porcupine.Entries.Frontier
import Porcupine.Spec.History
/-!
# The graph the search walks

A node is a prefix: the operations linearized so far, the latest first,
and the state they lead to. Its candidates are the frontier of what is
left, and a memo entry answers for a prefix of the same operations whose
state is `==` to its own. A goal can be reached from a prefix exactly when
what it leaves has a linearization from its state (`solvable_iff`).
-/

namespace Porcupine

open Linearization Backtrack

variable {State Input Output : Type}

/-- The operations linearized so far, and the state they lead to. -/
structure Prefix (State : Type) where
  ops : List ℕ
  state : State

/-- The operations of the list that a prefix leaves. -/
def remaining (n : ℕ) (ids : List ℕ) : List ℕ := (List.range n).filter (· ∉ ids)

/-- **The search as a graph.** -/
def searchProblem [BEq State] (model : Model State Input Output)
    (entries : List (Entry Input Output)) : Problem (Prefix State) ℕ where
  expand q id := (applyOp model entries q.state id).map fun s => ⟨id :: q.ops, s⟩
  candidates q := frontier entries (live entries q.ops)
  goal q := live entries q.ops = []
  rank q := entries.length / 2 - (remaining (entries.length / 2) q.ops).length
  same m q := (∀ i, i ∈ m.ops ↔ i ∈ q.ops) ∧ (m.state == q.state) = true

theorem mem_remaining {n id : ℕ} {ids : List ℕ} : id ∈ remaining n ids ↔ id < n ∧ id ∉ ids := by
  simp [remaining]

theorem remaining_nil {n : ℕ} : remaining n [] = List.range n := by
  simp [remaining]

theorem length_remaining_le (n : ℕ) (ids : List ℕ) : (remaining n ids).length ≤ n := by
  have h := List.length_filter_le (fun i => decide (i ∉ ids)) (List.range n)
  rwa [List.length_range] at h

theorem remaining_congr {n : ℕ} {ids ids' : List ℕ} (h : ∀ i, i ∈ ids ↔ i ∈ ids') :
    remaining n ids = remaining n ids' := by
  simp only [remaining, h]

/-- Linearizing one more operation takes it out of what is left. -/
theorem remaining_perm {n id : ℕ} {ids : List ℕ} (hid : id < n) (hmem : id ∉ ids) :
    (remaining n ids).Perm (id :: remaining n (id :: ids)) := by
  have hnd : (remaining n ids).Nodup := List.nodup_range.filter _
  have hnd' : (id :: remaining n (id :: ids)).Nodup :=
    List.nodup_cons.2 ⟨by simp [mem_remaining], List.nodup_range.filter _⟩
  refine (List.perm_ext_iff_of_nodup hnd hnd').2 fun i => ?_
  simp only [List.mem_cons, mem_remaining, not_or]
  by_cases hi : i = id
  · subst hi
    simp [hid, hmem]
  · simp [hi]

variable {model : Model State Input Output} {entries : List (Entry Input Output)}
variable {n id : ℕ} {q q' : Prefix State}

/-- Interchangeable states stay so on the operations of a list. -/
theorem interchangeable_applyOp {s t : State} (h : Interchangeable model.apply s t) :
    Interchangeable (applyOp model entries) s t := by
  have key : ∀ (ids : List ℕ) (s t : State), Interchangeable model.apply s t →
      Accepts (applyOp model entries) s ids → Accepts (applyOp model entries) t ids := by
    intro ids
    induction ids with
    | nil => intros; exact accepts_nil
    | cons id ids ih =>
      intro s t h hacc
      obtain ⟨s', hs, hacc'⟩ := accepts_cons.1 hacc
      obtain ⟨io, hio, hs'⟩ := Option.bind_eq_some_iff.1 hs
      obtain ⟨t', ht, hst⟩ := h.step_eq_some (a := io) hs'
      exact accepts_cons.2 ⟨t', Option.bind_eq_some_iff.2 ⟨io, hio, ht⟩, ih _ _ hst hacc'⟩
  exact fun ids => ⟨key ids s t h, key ids t s h.symm⟩

/-- The search is over the whole list. -/
theorem Paired.entriesLinearizable_iff (hpair : Paired entries n) :
    EntriesLinearizable model entries ↔
      Linearizable (Precedes entries) (applyOp model entries) model.init (remaining n []) := by
  rw [remaining_nil, EntriesLinearizable, hpair.half_length]

variable [BEq State]

theorem expand_eq_some : (searchProblem model entries).expand q id = some q' ↔
    ∃ s, applyOp model entries q.state id = some s ∧ q' = ⟨id :: q.ops, s⟩ := by
  refine Option.map_eq_some_iff.trans (exists_congr fun s => and_congr_right fun _ => ?_)
  exact eq_comm

/-! ## Rank and size -/

namespace Paired

theorem ranked (h : Paired entries n) : (searchProblem model entries).Ranked where
  expand q id q' hc he := by
    obtain ⟨hid, hmem, -⟩ := h.mem_frontier.1 hc
    obtain ⟨s, -, rfl⟩ := expand_eq_some.1 he
    have hlen := (remaining_perm hid hmem).length_eq
    have hle := length_remaining_le n q.ops
    rw [List.length_cons] at hlen
    simp only [searchProblem, h.half_length]
    omega
  same m q hs := by
    simp only [searchProblem]
    rw [remaining_congr hs.1]

end Paired

/-- The search is no wider and no deeper than the list is long. -/
theorem searchProblem_bounded :
    (searchProblem model entries).Bounded entries.length entries.length where
  width q := by
    have h := (List.takeWhile_sublist (isCallAt entries) (l := live entries q.ops)).length_le
    have hlive := List.length_filter_le (fun p => decide (idAt entries p ∉ q.ops))
      (List.range entries.length)
    rw [List.length_range] at hlive
    simp only [searchProblem, frontier, List.length_map]
    exact h.trans hlive
  depth q id q' _ _ := (Nat.sub_le _ _).trans (Nat.div_le_self _ _)

/-! ## Goals and linearizations -/

/-- **A memo entry has the goals of what it answers for**, where `==` is
lawful. -/
theorem solvable_of_same (hlaw : model.Lawful) (hsame : (searchProblem model entries).same q q')
    (hsol : (searchProblem model entries).Solvable q') :
    (searchProblem model entries).Solvable q := by
  -- the states met on the way are interchangeable, not `==`
  have key : ∀ q', (searchProblem model entries).Solvable q' → ∀ q : Prefix State,
      (∀ i, i ∈ q.ops ↔ i ∈ q'.ops) →
      Interchangeable (applyOp model entries) q.state q'.state →
      (searchProblem model entries).Solvable q := by
    intro q' hsol
    induction hsol with
    | @goal q' hg =>
      intro q hops _
      refine .goal ?_
      change live entries q.ops = []
      rw [live_congr hops]
      exact hg
    | @step q' q'' id hc he _ ih =>
      intro q hops hint
      obtain ⟨s, hs, rfl⟩ := expand_eq_some.1 he
      obtain ⟨t, ht, hst⟩ := hint.symm.step_eq_some hs
      refine .step (c := id) ?_ (expand_eq_some.2 ⟨t, ht, rfl⟩) (ih ⟨id :: q.ops, t⟩ ?_ hst.symm)
      · change id ∈ frontier entries (live entries q.ops)
        rw [live_congr hops]
        exact hc
      · intro i
        simp [hops i]
  exact key q' hsol q hsame.1 (interchangeable_applyOp (hlaw _ _ hsame.2))

/-- A goal that can be reached is a linearization of what is left. -/
theorem Paired.linearizable_of_solvable (h : Paired entries n)
    (hsol : (searchProblem model entries).Solvable q) :
    Linearizable (Precedes entries) (applyOp model entries) q.state (remaining n q.ops) := by
  induction hsol with
  | @goal q hg =>
    have hnil : remaining n q.ops = [] := by
      rw [List.eq_nil_iff_forall_not_mem]
      intro i hi
      obtain ⟨hlt, hmem⟩ := mem_remaining.1 hi
      exact hmem (h.live_eq_nil_iff.1 hg i hlt)
    rw [hnil]
    exact linearizable_nil
  | @step q q' id hc he _ ih =>
    obtain ⟨hid, hmem, hmin⟩ := h.mem_frontier.1 hc
    obtain ⟨s, hs, rfl⟩ := expand_eq_some.1 he
    refine linearizable_iff_head.2 (Or.inr ⟨id, _, remaining_perm hid hmem, fun i hi => ?_, s, hs, ih⟩)
    obtain ⟨hlt, hnot⟩ := mem_remaining.1 hi
    exact hmin i hlt fun hin => hnot (List.mem_cons_of_mem _ hin)

/-- **Every linearization of what is left is a way to a goal**: stopping
the walk at the first return passes over no operation that may come
next. -/
theorem Paired.solvable_of_linearizable (h : Paired entries n) (hfirst : CallFirst entries n)
    (hlin : Linearizable (Precedes entries) (applyOp model entries) q.state (remaining n q.ops)) :
    (searchProblem model entries).Solvable q := by
  -- on how many operations are left
  generalize hk : (remaining n q.ops).length = k
  induction k generalizing q with
  | zero =>
    refine .goal (h.live_eq_nil_iff.2 fun i hi => ?_)
    by_contra hmem
    have hin : i ∈ remaining n q.ops := mem_remaining.2 ⟨hi, hmem⟩
    rw [List.length_eq_zero_iff.1 hk] at hin
    cases hin
  | succ k ih =>
    rcases linearizable_iff_head.1 hlin with hnil | ⟨id, rest, hperm, hmin, s, hs, hrest⟩
    · rw [hnil] at hk
      cases hk
    · obtain ⟨hid, hmem⟩ := mem_remaining.1 (hperm.mem_iff.2 List.mem_cons_self)
      have hrest' : rest.Perm (remaining n (id :: q.ops)) :=
        (hperm.symm.trans (remaining_perm hid hmem)).cons_inv
      have hcand : id ∈ frontier entries (live entries q.ops) := by
        refine h.mem_frontier.2 ⟨hid, hmem, fun i hi hi' => ?_⟩
        by_cases heq : i = id
        · subst heq
          exact fun hprec => absurd (hfirst i hi) (Nat.lt_asymm hprec)
        · refine hmin i (hrest'.mem_iff.2 (mem_remaining.2 ⟨hi, ?_⟩))
          simp [heq, hi']
      refine .step hcand (expand_eq_some.2 ⟨s, hs, rfl⟩) (ih ?_ ?_)
      · exact (linearizable_perm hrest').1 hrest
      · have hlen := (remaining_perm hid hmem).length_eq
        rw [hk, List.length_cons] at hlen
        exact (Nat.succ.inj hlen).symm

/-- **What the search looks for is a linearization of what is left.** -/
theorem Paired.solvable_iff (h : Paired entries n) (hfirst : CallFirst entries n) :
    (searchProblem model entries).Solvable q ↔
      Linearizable (Precedes entries) (applyOp model entries) q.state (remaining n q.ops) :=
  ⟨h.linearizable_of_solvable, h.solvable_of_linearizable hfirst⟩

/-- **There is no way to a goal past an operation that returns before it is
called**: it is never a candidate. -/
theorem Paired.callFirst_of_solvable (h : Paired entries n)
    (hsol : (searchProblem model entries).Solvable q) :
    ∀ id < n, id ∉ q.ops → callPos entries id < retPos entries id := by
  induction hsol with
  | goal hg => exact fun id hid hmem => absurd (h.live_eq_nil_iff.1 hg id hid) hmem
  | @step q q' c hc he _ ih =>
    obtain ⟨hlt, hmem, hmin⟩ := h.mem_frontier.1 hc
    obtain ⟨s, -, rfl⟩ := expand_eq_some.1 he
    intro id hid hnot
    by_cases heq : id = c
    · subst heq
      have hle : callPos entries id ≤ retPos entries id := Nat.le_of_not_lt (hmin id hid hnot)
      have hne : callPos entries id ≠ retPos entries id := fun he => by
        cases (h.posOf_inj hid hid he).2
      exact lt_of_le_of_ne hle hne
    · exact ih id hid (by simp [heq, hnot])

end Porcupine
