import Porcupine.Common.Ways
import Porcupine.Search.CallOrder
import Porcupine.Search.Order
import Porcupine.Search.Stack
/-!
# Which linearization the loop finds, and how fast it can

A way to a goal of the search is a legal order of the operations
(`Paired.path_of_order`, `Paired.order_of_path`), and the candidates are
listed in the order of their calls. So where the loop returns true its
stack is the first legal order there is, operations compared by when they
are called, and the cache has no part in which (`checkSingle_first`). It
needs a pass for each operation at least, and no more exactly when the
operations can be linearized in the order of their calls
(`checkSingle_passes`).
-/

namespace Porcupine

open Linearization Backtrack Transition

variable {State Input Output : Type} [BEq State] {model : Model State Input Output}
variable {history : List (Operation Input Output)} {entries : List (Entry Input Output)}
variable {n id k : ℕ} {order ids pre rest cs : List ℕ} {q m : Prefix State} {debug : Bool}
variable {s : Search State Input Output} {cfg : Config (Prefix State) ℕ}

/-! ## Ways and orders -/

/-- **An order of what a prefix leaves is a way to a goal.** -/
theorem Paired.path_of_order (h : Paired entries n) (hfirst : CallFirst entries n)
    (hperm : (pre ++ rest).Perm (List.range n)) (hops : q.ops = pre.reverse)
    (hresp : Respects (Precedes entries) rest)
    (hacc : Accepts (applyOp model entries) q.state rest) :
    ∃ m, (searchProblem model entries).Path q rest m ∧ (searchProblem model entries).goal m := by
  have hmem : ∀ i < n, i ∉ q.ops → i ∈ rest := by
    intro i hi hnot
    have hin : i ∈ pre ++ rest := hperm.mem_iff.2 (List.mem_range.2 hi)
    rw [hops, List.mem_reverse] at hnot
    exact (List.mem_append.1 hin).resolve_left hnot
  induction rest generalizing pre q with
  | nil =>
    refine ⟨q, .nil, h.live_eq_nil_iff.2 fun i hi => ?_⟩
    by_contra hnot
    exact absurd (hmem i hi hnot) List.not_mem_nil
  | cons id rest ih =>
    obtain ⟨s, hs, hacc⟩ := accepts_cons.1 hacc
    obtain ⟨hhead, hresp⟩ := List.pairwise_cons.1 hresp
    have hid : id < n := List.mem_range.1 (hperm.mem_iff.1 (by simp))
    have hnew : id ∉ q.ops := by
      rw [hops, List.mem_reverse]
      intro hin
      exact List.disjoint_of_nodup_append (hperm.nodup_iff.2 List.nodup_range) hin List.mem_cons_self
    have hcand : id ∈ frontier entries (live entries q.ops) := by
      refine h.mem_frontier.2 ⟨hid, hnew, fun y hy hynot => ?_⟩
      rcases List.mem_cons.1 (hmem y hy hynot) with rfl | hin
      · exact Nat.lt_asymm (hfirst y hy)
      · exact hhead y hin
    have hperm' : (pre ++ [id] ++ rest).Perm (List.range n) := by
      rwa [List.append_assoc, List.singleton_append]
    obtain ⟨m, hpath, hgoal⟩ := ih (q := ⟨id :: q.ops, s⟩) hperm'
      (by rw [hops, List.reverse_append]; rfl) hresp hacc fun i hi hnot => by
        rw [List.mem_cons, not_or] at hnot
        exact (List.mem_cons.1 (hmem i hi hnot.2)).resolve_left hnot.1
    exact ⟨m, .cons hcand (expand_eq_some.2 ⟨s, hs, rfl⟩) hpath, hgoal⟩

/-- **A way to a goal is an order of what the prefix leaves.** -/
theorem Paired.order_of_path (h : Paired entries n)
    (hpath : (searchProblem model entries).Path q cs m)
    (hm : (searchProblem model entries).goal m) :
    cs.Perm (remaining n q.ops) ∧ Respects (Precedes entries) cs ∧
      Accepts (applyOp model entries) q.state cs := by
  induction hpath with
  | @nil q =>
    have hnil : remaining n q.ops = [] := by
      rw [List.eq_nil_iff_forall_not_mem]
      intro i hi
      obtain ⟨hlt, hmem⟩ := mem_remaining.1 hi
      exact hmem (h.live_eq_nil_iff.1 hm i hlt)
    exact ⟨hnil ▸ .nil, .nil, accepts_nil⟩
  | @cons q q' m id cs hc he _ ih =>
    obtain ⟨hid, hmem, hmin⟩ := h.mem_frontier.1 hc
    obtain ⟨s, hs, rfl⟩ := expand_eq_some.1 he
    obtain ⟨hperm, hresp, hacc⟩ := ih hm
    refine ⟨(hperm.cons id).trans (remaining_perm hid hmem).symm,
      List.pairwise_cons.2 ⟨fun i hi => ?_, hresp⟩, accepts_cons.2 ⟨s, hs, hacc⟩⟩
    obtain ⟨hlt, hnot⟩ := mem_remaining.1 (hperm.mem_iff.1 hi)
    exact hmin i hlt fun hin => hnot (List.mem_cons_of_mem _ hin)

/-- The prefix at the end of a way, by the operations on it. -/
theorem ops_of_path (h : (searchProblem model entries).Path q cs m) :
    m.ops = cs.reverse ++ q.ops := by
  induction h with
  | nil => rfl
  | cons _ he _ ih =>
    obtain ⟨s, -, rfl⟩ := expand_eq_some.1 he
    rw [ih, List.reverse_cons, List.append_assoc]
    rfl

/-- What the loop lists first at a node is the operation left that is
called first. -/
theorem Paired.frontier_head (h : Paired entries n) (hfirst : CallFirst entries n) :
    (∃ rest, frontier entries (live entries ids) = id :: rest) ↔
      id < n ∧ id ∉ ids ∧ ∀ i < n, i ∉ ids → i ≠ id → callPos entries id < callPos entries i := by
  have hsorted := h.frontier_sorted ids
  constructor
  · rintro ⟨rest, heq⟩
    have hmem : id ∈ frontier entries (live entries ids) := heq ▸ List.mem_cons_self
    obtain ⟨hid, hnot, hmin⟩ := h.mem_frontier.1 hmem
    refine ⟨hid, hnot, fun i hi hi' hne => ?_⟩
    by_cases hin : i ∈ frontier entries (live entries ids)
    · rw [heq] at hin hsorted
      exact (List.pairwise_cons.1 hsorted).1 i ((List.mem_cons.1 hin).resolve_left hne)
    · -- something left returns before it is called
      rw [h.mem_frontier] at hin
      simp only [not_and, not_forall, not_not] at hin
      obtain ⟨y, hy, hy', hprec⟩ := hin hi hi'
      have hle : callPos entries id ≤ retPos entries y := Nat.le_of_not_lt (hmin y hy hy')
      exact hle.trans_lt hprec
  · rintro ⟨hid, hnot, hleast⟩
    have hmem : id ∈ frontier entries (live entries ids) := by
      refine h.mem_frontier.2 ⟨hid, hnot, fun y hy hy' hprec => ?_⟩
      by_cases heq : y = id
      · subst heq
        exact Nat.lt_asymm (hfirst y hy) hprec
      · exact Nat.lt_asymm (hleast y hy hy' heq) ((hfirst y hy).trans hprec)
    cases hlist : frontier entries (live entries ids) with
    | nil =>
      rw [hlist] at hmem
      cases hmem
    | cons c rest =>
      obtain ⟨hc, hc', -⟩ := h.mem_frontier.1 (hlist ▸ List.mem_cons_self)
      rw [hlist] at hmem hsorted
      rcases List.mem_cons.1 hmem with rfl | hin
      · exact ⟨rest, rfl⟩
      · have hlt := (List.pairwise_cons.1 hsorted).1 id hin
        have hne : c ≠ id := fun he => Nat.lt_irrefl _ (he ▸ hlt)
        exact absurd hlt (Nat.lt_asymm (hleast c hc hc' hne))

/-- **The way that takes what is listed first everywhere** is the order of
the calls. -/
theorem Paired.straight_iff (h : Paired entries n) (hfirst : CallFirst entries n)
    (hpath : (searchProblem model entries).Path q cs m)
    (hm : (searchProblem model entries).goal m) :
    (searchProblem model entries).Straight q cs m ↔
      cs.Pairwise fun i j => callPos entries i < callPos entries j := by
  induction hpath with
  | nil => exact iff_of_true .nil .nil
  | @cons q q' m id cs hc he hpath ih =>
    have hperm := (h.order_of_path (.cons hc he hpath) hm).1
    obtain ⟨hid, hnot, -⟩ := h.mem_frontier.1 hc
    have hnodup : (id :: cs).Nodup := hperm.nodup_iff.2 (List.nodup_range.filter _)
    rw [List.pairwise_cons, ← ih hm]
    have hhead : (∀ i ∈ cs, callPos entries id < callPos entries i) ↔
        ∃ rest, frontier entries (live entries q.ops) = id :: rest := by
      rw [h.frontier_head hfirst]
      constructor
      · intro hleast
        refine ⟨hid, hnot, fun i hi hi' hne => hleast i ?_⟩
        exact (List.mem_cons.1 (hperm.mem_iff.2 (mem_remaining.2 ⟨hi, hi'⟩))).resolve_left hne
      · rintro ⟨-, -, hleast⟩ i hi
        obtain ⟨hlt, hmem⟩ := mem_remaining.1 (hperm.mem_iff.1 (List.mem_cons_of_mem _ hi))
        refine hleast i hlt hmem ?_
        rintro rfl
        exact (List.nodup_cons.1 hnodup).1 hi
    rw [hhead]
    constructor
    · rintro (_ | ⟨hcand, he', hstraight⟩)
      cases he.symm.trans he'
      exact ⟨⟨_, hcand⟩, hstraight⟩
    · rintro ⟨⟨rest, hcand⟩, hstraight⟩
      exact .cons hcand he hstraight

/-- The candidates are listed in the order of their calls. -/
theorem frontier_calledBefore (history : List (Operation Input Output)) (ids : List ℕ) :
    (frontier (makeEntries history) (live (makeEntries history) ids)).Pairwise
      (CalledBefore history) := by
  have hpair : Paired (makeEntries history) history.length := makeEntries_arranged.paired
  refine (hpair.frontier_sorted ids).imp_of_mem fun hi hj => ?_
  exact (calledBefore_iff (hpair.mem_frontier.1 hi).1 (hpair.mem_frontier.1 hj).1).2

/-- At a goal there are none. -/
theorem candidates_of_goal (h : (searchProblem model entries).goal q) :
    (searchProblem model entries).candidates q = [] := by
  have hlive : live entries q.ops = [] := h
  show frontier entries (live entries q.ops) = []
  rw [hlive]
  rfl

/-- Every candidate is one rank down, and the goals are where no operation
is left. -/
theorem Paired.level (h : Paired entries n) : (searchProblem model entries).Level n where
  expand q id q' hc he := by
    obtain ⟨hid, hmem, -⟩ := h.mem_frontier.1 hc
    obtain ⟨s, -, rfl⟩ := expand_eq_some.1 he
    have hlen := (remaining_perm hid hmem).length_eq
    have hle := length_remaining_le n q.ops
    rw [List.length_cons] at hlen
    simp only [searchProblem, h.half_length]
    omega
  same := h.ranked.same
  goal q hg := by
    have hnil := (h.order_of_path .nil hg).1.length_eq
    rw [List.length_nil] at hnil
    simp only [searchProblem, h.half_length]
    omega

/-! ## The loop -/

/-- **The loop returns true where the search comes to a goal**, after as
many passes. -/
theorem Sim.ends_true_iff (h : Sim entries n debug s cfg) (hpair : Paired entries n)
    (hsize : entries.length < NONE) :
    s.Ends debug model true k ↔ (searchProblem model entries).Succeeds k cfg := by
  induction k generalizing s cfg with
  | zero =>
    constructor
    · rintro ⟨hs⟩
      rcases h.step model hpair hsize with ⟨t, _, ht, -⟩ | ⟨-, hgoal⟩ | ⟨ht, -⟩
      · cases hs.symm.trans ht
      · exact .goal hgoal
      · cases hs.symm.trans ht
    · rintro ⟨hgoal⟩
      rcases h.step model hpair hsize with ⟨_, _, -, hstep, -⟩ | ⟨hs, -⟩ | ⟨-, -, -, hnot⟩
      · exact absurd hstep (h.not_step_of_goal hgoal)
      · exact .done hs
      · exact absurd hgoal hnot
  | succ k ih =>
    constructor
    · rintro (_ | ⟨hs, hend⟩)
      obtain ⟨cfg', hstep, h'⟩ := h.pass hpair hsize hs
      exact .step hstep ((ih h').1 hend)
    · rintro (_ | ⟨hstep, hsucc⟩)
      rcases h.step model hpair hsize with
        ⟨t, cfg', ht, hstep', h'⟩ | ⟨-, hgoal⟩ | ⟨-, hrest, hstack, -⟩
      · obtain rfl := hstep.unique hstep'
        exact .pass ht ((ih h').2 hsucc)
      · exact absurd hstep (h.not_step_of_goal hgoal)
      · exact absurd hstep (Problem.not_step_of_nil hrest hstack)

/-- Where a pass returns true, the search is at a goal. -/
theorem Sim.goal_of_true (h : Sim entries n debug s cfg) (hpair : Paired entries n)
    (hsize : entries.length < NONE) (hend : s.step debug model = .ok (.inr true)) :
    (searchProblem model entries).goal cfg.node := by
  cases (h.ends_true_iff hpair hsize).1 (.done hend) with
  | goal hgoal => exact hgoal

/-- **The stack at the end is the first order there is**, where `==` is
lawful, in any order in which the loop lists its candidates. -/
theorem Paired.stack_first {r : ℕ → ℕ → Prop} (h : Paired entries n) (hsize : entries.length < NONE)
    (hr : ∀ ids, (frontier entries (live entries ids)).Pairwise r) (hlaw : model.Lawful)
    {s₀ : Search State Input Output} (hstart : Search.start model entries = .ok (.inl s₀))
    (hreach : (checkSingle debug model).Reachable s₀ s)
    (hend : s.step debug model = .ok (.inr true))
    (hpath : (searchProblem model entries).Path ⟨[], model.init⟩ order m)
    (hm : (searchProblem model entries).goal m) :
    opsOf entries s.calls = order ∨ List.Lex r (opsOf entries s.calls) order := by
  let P := searchProblem model entries
  let root : Prefix State := ⟨[], model.init⟩
  obtain ⟨cfg, hsim, hspine, -, hord⟩ := (h.sim_start hsize hstart).invariant h hsize
    (I := fun cfg => P.OnSpine root cfg ∧ P.Explored cfg ∧ P.InOrder root cfg)
    ⟨Problem.onSpine_start _ _, Problem.explored_start _ _, Problem.inOrder_start _ _⟩
    (fun cfg cfg' ⟨hspine, hexp, hord⟩ hstep => ⟨hspine.step hstep,
      explored_step h hlaw hexp hspine hstep,
      hord.step h.ranked (fun _ _ hsame hsol => solvable_of_same hlaw hsame hsol) hexp hspine hstep⟩)
    hreach
  have hgoal : P.goal cfg.node := hsim.goal_of_true h hsize hend
  obtain ⟨cs, hleft⟩ := hord.above
  have hops : opsOf entries s.calls = cs := by
    rw [opsOf, ← hsim.ops_eq h hspine, ops_of_path hleft.path, List.append_nil, List.reverse_reverse]
  rw [hops]
  exact hleft.lex (fun q => hr q.ops) (fun _ => candidates_of_goal) hgoal hpath hm

/-- **The first linearization.** Where the loop returns true, its stack is
a legal order of the history, and the first in the lexicographic order of
the calls: any other legal order parts from it with an operation that is
called later. What the cache holds makes no difference. -/
theorem checkSingle_first (debug : Bool) (model : Model State Input Output) (hlaw : model.Lawful)
    (history : List (Operation Input Output)) (hsize : 2 * history.length < 2 ^ 32 - 1)
    (s₀ s : Search State Input Output)
    (hstart : Search.start model (makeEntries history) = .ok (.inl s₀))
    (hreach : (checkSingle debug model).Reachable s₀ s)
    (hend : s.step debug model = .ok (.inr true)) :
    Legal model history (opsOf (makeEntries history) s.calls) ∧
    ∀ order, Legal model history order → opsOf (makeEntries history) s.calls = order ∨
      List.Lex (CalledBefore history) (opsOf (makeEntries history) s.calls) order := by
  have hrep : Represents (makeEntries history) history := makeEntries_arranged.represents
  have hpair := hrep.paired
  have hsize' : (makeEntries history).length < NONE := hpair.length_eq ▸ hsize
  obtain ⟨-, -, -, -, -, -, -, hlegal⟩ :=
    search_of_stack debug model _ _ hpair hsize' s₀ s hstart hreach
  refine ⟨hrep.legal_iff.2 (hlegal hend), fun order horder => ?_⟩
  -- no operation returns before it is called, or the loop would return false
  have hfirst : CallFirst (makeEntries history) history.length := by
    obtain ⟨cfg, hsim, hspine, -⟩ := sim_of_reachable hpair hsize' hstart hreach
    have hsol := hspine.spine.solvable (.goal (hsim.goal_of_true hpair hsize' hend))
    exact fun id hid => hpair.callFirst_of_solvable hsol id hid (by simp)
  obtain ⟨hperm, hresp, hacc⟩ := hrep.legal_iff.1 horder
  have hperm' : ([] ++ order).Perm (List.range history.length) := hperm
  obtain ⟨m, hpath, hgoal⟩ := hpair.path_of_order (q := ⟨[], model.init⟩) hfirst hperm' rfl hresp hacc
  exact hpair.stack_first hsize' (frontier_calledBefore history) hlaw hstart hreach hend hpath hgoal

/-- A write, and two reads of its value: the first is called before it. -/
def readsAroundWrite : List (Operation RegisterInput ℤ) :=
  [⟨0, ⟨false, 0⟩, 0, 7, 5⟩, ⟨1, ⟨true, 7⟩, 2, 0, 5⟩, ⟨2, ⟨false, 0⟩, 3, 7, 6⟩]

/-- The loop refuses that read until it has taken the write, and takes it
next. -/
theorem checkSingle_first_readsAroundWrite : ∃ s₀ s : Search ℤ RegisterInput ℤ,
    Search.start RegisterModel (makeEntries readsAroundWrite) = .ok (.inl s₀) ∧
    (checkSingle true RegisterModel).Reachable s₀ s ∧ s.step true RegisterModel = .ok (.inr true) ∧
    opsOf (makeEntries readsAroundWrite) s.calls = [1, 0, 2] ∧
    ∀ order, Legal RegisterModel readsAroundWrite order → [1, 0, 2] = order ∨
      List.Lex (CalledBefore readsAroundWrite) [1, 0, 2] order := by
  have hrun : ((Search.start RegisterModel (makeEntries readsAroundWrite)).toOption.bind
      Sum.getLeft?).any (fun s₀ => ((checkSingle true RegisterModel).runs (fun _ _ => true)
        (.replicate 4 ()) s₀).any fun s =>
          decide ((checkSingle true RegisterModel).result s = some true) &&
            decide (opsOf (makeEntries readsAroundWrite) s.calls = [1, 0, 2])) = true := by
    decide +kernel
  obtain ⟨s₀, hstart, hrun⟩ := (Option.any_eq_true _ _).1 hrun
  obtain ⟨s, hs, hrun⟩ := (Option.any_eq_true _ _).1 hrun
  obtain ⟨hend, hops⟩ := Bool.and_eq_true_iff.1 hrun
  replace hstart := start_eq_some.1 hstart
  replace hend := checkSingle_result.1 (of_decide_eq_true hend)
  replace hops := of_decide_eq_true hops
  have hreach : (checkSingle true RegisterModel).Reachable s₀ s := .of_runs (fun _ _ _ => trivial) hs
  have hfirst := (checkSingle_first true RegisterModel RegisterModel.lawful_of_lawfulBEq
    readsAroundWrite (by decide) s₀ s hstart hreach hend).2
  rw [hops] at hfirst
  exact ⟨s₀, s, hstart, hreach, hend, hops, hfirst⟩

/-- **The fewest passes.** The loop returns true after a pass for each
operation at the earliest, and after no more than that exactly when the
operations are a legal order as they are called. -/
theorem checkSingle_passes (debug : Bool) (model : Model State Input Output)
    (history : List (Operation Input Output)) (hsize : 2 * history.length < 2 ^ 32 - 1)
    (hwf : ∀ op ∈ history, op.call ≤ op.returnTime) (s₀ : Search State Input Output)
    (hstart : Search.start model (makeEntries history) = .ok (.inl s₀)) :
    (∀ k, s₀.Ends debug model true k → history.length ≤ k) ∧
    (s₀.Ends debug model true history.length ↔
      ∃ order, Legal model history order ∧ order.Pairwise (CalledBefore history)) := by
  have hrep : Represents (makeEntries history) history := makeEntries_arranged.represents
  have hpair := hrep.paired
  have hfirst := hrep.callFirst hwf
  have hsize' : (makeEntries history).length < NONE := hpair.length_eq ▸ hsize
  let P := searchProblem model (makeEntries history)
  let root : Prefix State := ⟨[], model.init⟩
  have hsim : Sim (makeEntries history) history.length debug s₀ (P.start root) :=
    hpair.sim_start hsize' hstart
  have hspine : P.OnSpine root (P.start root) := Problem.onSpine_start _ _
  have hlevel : P.Level history.length := hpair.level
  have hrank : P.rank (P.start root).node = 0 := by
    simp [P, root, Problem.start, searchProblem, remaining_nil]
  refine ⟨fun k hend => ?_, fun hend => ?_, ?_⟩
  · have hle : history.length ≤ P.rank (P.start root).node + k :=
      ((hsim.ends_true_iff hpair hsize').1 hend).depth_le hlevel hspine
    omega
  · have hsucc := (hsim.ends_true_iff hpair hsize').1 hend
    have hdepth : history.length = P.rank (P.start root).node + history.length := by omega
    obtain ⟨order, m, hstraight, hgoal⟩ := hsucc.straight hlevel hspine hdepth rfl
    obtain ⟨hperm, hlegal⟩ := hpair.order_of_path hstraight.path hgoal
    have hperm' : order.Perm (List.range history.length) := remaining_nil ▸ hperm
    refine ⟨order, hrep.legal_iff.2 ⟨hperm', hlegal⟩, (pairwise_calledBefore_iff hperm').2 ?_⟩
    exact (hpair.straight_iff hfirst hstraight.path hgoal).1 hstraight
  · rintro ⟨order, horder, hcalls⟩
    obtain ⟨hperm, hresp, hacc⟩ := hrep.legal_iff.1 horder
    have hperm' : ([] ++ order).Perm (List.range history.length) := hperm
    obtain ⟨m, hpath, hgoal⟩ := hpair.path_of_order (q := root) hfirst hperm' rfl hresp hacc
    have hpos := (pairwise_calledBefore_iff hperm).1 hcalls
    have hstraight := (hpair.straight_iff hfirst hpath hgoal).2 hpos
    have hsucc : P.Succeeds order.length (P.start root) := hstraight.succeeds hlevel hgoal (by simp)
    rw [hperm.length_eq, List.length_range] at hsucc
    exact (hsim.ends_true_iff hpair hsize').2 hsucc

/-- Without the first read a pass for each operation is enough. -/
theorem checkSingle_passes_readAfterWrite : ∃ s,
    Search.start RegisterModel (makeEntries readsAroundWrite.tail) = .ok (.inl s) ∧
    s.Ends true RegisterModel true 2 := by
  have hpair : Paired (makeEntries readsAroundWrite.tail) 2 := makeEntries_arranged.paired
  obtain ⟨s, hs, -⟩ := hpair.start_ok (by decide) (by decide) true RegisterModel
  have hlegal : Legal RegisterModel readsAroundWrite.tail [0, 1] :=
    ⟨by decide, by unfold Respects; decide, rfl⟩
  have hcalls : [0, 1].Pairwise (CalledBefore readsAroundWrite.tail) :=
    List.pairwise_pair.2 ⟨_, _, rfl, rfl, Or.inl (by decide)⟩
  exact ⟨s, hs, (checkSingle_passes true RegisterModel readsAroundWrite.tail (by decide) (by decide) s
    hs).2.2 ⟨[0, 1], hlegal, hcalls⟩⟩

end Porcupine
