import Mathlib.Algebra.BigOperators.Group.List.Basic
import Mathlib.Algebra.GroupWithZero.Nat
import Mathlib.Algebra.Order.Group.Nat
/-!
# Backtracking search with a memo

A search walks a graph of nodes depth first. At a node it tries the
node's candidates in order; a candidate may be refused, may lead to a
node that the memo answers for, or is descended into, and the node it
leads to enters the memo on the way down, before its subtree is known.
When the candidates of a node run out the search goes back to where it
came from; when they run out at the root it has failed.

The configuration is the explicit stack such a search keeps. `Explored`
is what it knows at every step: each candidate that is not waiting is
either on the way down or a dead end, and each memo entry is a node of
the current path or a dead end. A memo hit is therefore never on a node
still being explored, since those have smaller rank (`Explored.prune`).
Termination does not rest on the memo: `Step.weight_lt` is a measure that
every step lowers, hit or no hit.
-/

namespace Backtrack

/-- A graph to search, and when a memo entry answers for a node. -/
structure Problem (N C : Type*) where
  /-- Where a candidate leads, unless it is refused. -/
  expand : N → C → Option N
  /-- What is tried at a node, in order. -/
  candidates : N → List C
  /-- What is searched for. -/
  goal : N → Prop
  /-- How far down a node is. -/
  rank : N → ℕ
  /-- The first node, in the memo, answers for the second. -/
  same : N → N → Prop

/-- A node on the way down, with the candidates still waiting there. -/
structure Frame (N C : Type*) where
  /-- The node. -/
  node : N
  /-- The candidates not tried yet. -/
  rest : List C

/-- A search in progress. -/
structure Config (N C : Type*) where
  /-- The node being explored. -/
  node : N
  /-- Its candidates not tried yet. -/
  rest : List C
  /-- The nodes above it, the nearest first. -/
  stack : List (Frame N C)
  /-- Every node descended into so far. -/
  memo : List N

variable {N C : Type*} {P : Problem N C} {root n n' m : N} {c : C} {cfg cfg' : Config N C}

namespace Problem

/-- The search at its root. -/
def start (P : Problem N C) (root : N) : Config N C := ⟨root, P.candidates root, [], []⟩

/-- A goal can be reached from the node by candidates. -/
inductive Solvable (P : Problem N C) : N → Prop
  /-- The node is a goal. -/
  | goal {n : N} : P.goal n → Solvable P n
  /-- A candidate leads to a node from which one can be reached. -/
  | step {n n' : N} {c : C} : c ∈ P.candidates n → P.expand n c = some n' → Solvable P n' →
      Solvable P n

/-- **One step of the search.** -/
inductive Step (P : Problem N C) : Config N C → Config N C → Prop
  /-- The candidate is refused. -/
  | reject {n : N} {c : C} {rest : List C} {stack : List (Frame N C)} {memo : List N} :
      P.expand n c = none → Step P ⟨n, c :: rest, stack, memo⟩ ⟨n, rest, stack, memo⟩
  /-- The memo answers for the node the candidate leads to. -/
  | prune {n n' m : N} {c : C} {rest : List C} {stack : List (Frame N C)} {memo : List N} :
      P.expand n c = some n' → m ∈ memo → P.same m n' →
      Step P ⟨n, c :: rest, stack, memo⟩ ⟨n, rest, stack, memo⟩
  /-- The memo does not: the search goes down, and remembers where. -/
  | descend {n n' : N} {c : C} {rest : List C} {stack : List (Frame N C)} {memo : List N} :
      P.expand n c = some n' → (∀ m ∈ memo, ¬ P.same m n') →
      Step P ⟨n, c :: rest, stack, memo⟩ ⟨n', P.candidates n', ⟨n, rest⟩ :: stack, n' :: memo⟩
  /-- Nothing is left to try: the search goes back up. -/
  | backtrack {n : N} {f : Frame N C} {stack : List (Frame N C)} {memo : List N} :
      ¬ P.goal n → Step P ⟨n, [], f :: stack, memo⟩ ⟨f.node, f.rest, stack, memo⟩

/-- **A search takes one course.** -/
theorem Step.unique {cfg'' : Config N C} (h : P.Step cfg cfg') (h' : P.Step cfg cfg'') :
    cfg' = cfg'' := by
  cases h with
  | reject he =>
    cases h' with
    | reject => rfl
    | prune he' => cases he.symm.trans he'
    | descend he' => cases he.symm.trans he'
  | prune he hm hs =>
    cases h' with
    | reject he' => cases he.symm.trans he'
    | prune => rfl
    | descend he' hnew =>
      cases he.symm.trans he'
      exact absurd hs (hnew _ hm)
  | descend he hnew =>
    cases h' with
    | reject he' => cases he.symm.trans he'
    | prune he' hm hs =>
      cases he.symm.trans he'
      exact absurd hs (hnew _ hm)
    | descend he' =>
      cases he.symm.trans he'
      rfl
  | backtrack =>
    cases h' with
    | backtrack => rfl

/-- A search that has failed takes none. -/
theorem not_step_of_nil (hrest : cfg.rest = []) (hstack : cfg.stack = []) : ¬ P.Step cfg cfg' := by
  intro h
  cases h with
  | backtrack => cases hstack
  | _ => cases hrest

/-- The memo only grows. -/
theorem Step.memo_subset (h : P.Step cfg cfg') : ∀ m ∈ cfg.memo, m ∈ cfg'.memo := by
  cases h with
  | reject => exact fun m hm => hm
  | prune => exact fun m hm => hm
  | descend => exact fun m hm => List.mem_cons_of_mem _ hm
  | backtrack => exact fun m hm => hm

/-- **A step that makes the stack grow goes down**, to a node that no memo
node answers for and all of whose candidates wait. -/
theorem Step.descends (h : P.Step cfg cfg') (hlen : cfg.stack.length < cfg'.stack.length) :
    cfg'.memo = cfg'.node :: cfg.memo ∧ (∀ m ∈ cfg.memo, ¬ P.same m cfg'.node) ∧
      cfg'.rest = P.candidates cfg'.node := by
  cases h with
  | descend _ hnew => exact ⟨rfl, hnew, rfl⟩
  | backtrack =>
    simp only [List.length_cons] at hlen
    omega
  | _ => exact absurd hlen (Nat.lt_irrefl _)

/-- **A step that makes the stack shrink goes back up**, from a node with
nothing left to try. -/
theorem Step.returns (h : P.Step cfg cfg') (hlen : cfg'.stack.length < cfg.stack.length) :
    cfg.rest = [] ∧ cfg.stack.length = cfg'.stack.length + 1 := by
  cases h with
  | descend =>
    simp only [List.length_cons] at hlen
    omega
  | backtrack => exact ⟨rfl, rfl⟩
  | _ => exact absurd hlen (Nat.lt_irrefl _)

/-! ## The path from the root -/

/-- The stack is a path from the root: each node was reached from the one
above by a candidate, and what waits at a node are candidates of it. -/
def Spine (P : Problem N C) (root : N) : N → List (Frame N C) → Prop
  | n, [] => n = root
  | n, f :: stack => (∃ c ∈ P.candidates f.node, P.expand f.node c = some n) ∧
      (∀ c ∈ f.rest, c ∈ P.candidates f.node) ∧ Spine P root f.node stack

/-- A configuration the search can be in. -/
structure OnSpine (P : Problem N C) (root : N) (cfg : Config N C) : Prop where
  spine : P.Spine root cfg.node cfg.stack
  rest : ∀ c ∈ cfg.rest, c ∈ P.candidates cfg.node

theorem onSpine_start (P : Problem N C) (root : N) : P.OnSpine root (P.start root) :=
  ⟨rfl, fun _ hc => hc⟩

/-- **The path is kept**, whatever the memo answers. -/
theorem OnSpine.step (h : P.OnSpine root cfg) (hs : P.Step cfg cfg') : P.OnSpine root cfg' := by
  obtain ⟨hspine, hrest⟩ := h
  cases hs with
  | reject _ => exact ⟨hspine, fun d hd => hrest d (List.mem_cons_of_mem _ hd)⟩
  | prune _ _ _ => exact ⟨hspine, fun d hd => hrest d (List.mem_cons_of_mem _ hd)⟩
  | descend he _ =>
    exact ⟨⟨⟨_, hrest _ (by simp), he⟩, fun d hd => hrest d (List.mem_cons_of_mem _ hd), hspine⟩,
      fun d hd => hd⟩
  | backtrack _ => exact ⟨hspine.2.2, hspine.2.1⟩

/-- What can be reached from a node of the path can be reached from the
root. -/
theorem Spine.solvable {stack : List (Frame N C)} (h : P.Spine root n stack)
    (hn : P.Solvable n) : P.Solvable root := by
  induction stack generalizing n with
  | nil => exact h ▸ hn
  | cons f stack ih =>
    obtain ⟨⟨c, hc, he⟩, -, hrest⟩ := h
    exact ih hrest (.step hc he hn)

/-- Ranks grow along candidates, and a memo entry has the rank of what it
answers for. -/
structure Ranked (P : Problem N C) : Prop where
  expand : ∀ n c n', c ∈ P.candidates n → P.expand n c = some n' → P.rank n < P.rank n'
  same : ∀ m n, P.same m n → P.rank m = P.rank n

/-- Every node above has smaller rank. -/
theorem Spine.rank_lt (hP : P.Ranked) {stack : List (Frame N C)} (h : P.Spine root n stack) :
    ∀ f ∈ stack, P.rank f.node < P.rank n := by
  induction stack generalizing n with
  | nil => simp
  | cons f stack ih =>
    obtain ⟨⟨c, hc, he⟩, -, hrest⟩ := h
    have hlt := hP.expand _ c n hc he
    intro g hg
    rcases List.mem_cons.1 hg with rfl | hg
    · exact hlt
    · exact (ih hrest g hg).trans hlt

/-! ## What the search knows -/

/-- A candidate that leads to no goal. -/
def DeadEnd (P : Problem N C) (n : N) (c : C) : Prop :=
  ∀ n', P.expand n c = some n' → ¬ P.Solvable n'

/-- At every node above, a candidate that is not waiting either led down
the current path or is a dead end. -/
def Tried (P : Problem N C) : N → List (Frame N C) → Prop
  | _, [] => True
  | n, f :: stack => (∀ c ∈ P.candidates f.node, c ∈ f.rest ∨
      ∀ n', P.expand f.node c = some n' → n' = n ∨ ¬ P.Solvable n') ∧ Tried P f.node stack

/-- **What the search knows at every step.** -/
structure Explored (P : Problem N C) (cfg : Config N C) : Prop where
  /-- At the current node, what is not waiting is a dead end. -/
  current : ∀ c ∈ P.candidates cfg.node, c ∈ cfg.rest ∨ P.DeadEnd cfg.node c
  /-- Above it, what is not waiting led down the path or is a dead end. -/
  above : P.Tried cfg.node cfg.stack
  /-- A memo entry is a node of the path or reaches no goal. -/
  memo : ∀ m ∈ cfg.memo, m = cfg.node ∨ (∃ f ∈ cfg.stack, f.node = m) ∨ ¬ P.Solvable m

theorem explored_start (P : Problem N C) (root : N) : P.Explored (P.start root) :=
  ⟨fun _ hc => Or.inl hc, trivial, by simp [start]⟩

/-- A node whose candidates have all been tried, and that is no goal,
reaches none. -/
theorem Explored.not_solvable (h : P.Explored cfg) (hr : cfg.rest = []) (hg : ¬ P.goal cfg.node) :
    ¬ P.Solvable cfg.node := by
  intro hs
  cases hs with
  | goal hgoal => exact hg hgoal
  | step hc he hn =>
    rcases h.current _ hc with hmem | hdead
    · rw [hr] at hmem
      cases hmem
    · exact hdead _ he hn

/-- **A memo hit is never on a node being explored**, and so the node it
answers for reaches no goal. -/
theorem Explored.prune (hP : P.Ranked) (hsame : ∀ m n, P.same m n → P.Solvable n → P.Solvable m)
    (h : P.Explored cfg) (hspine : P.OnSpine root cfg) (hc : c ∈ P.candidates cfg.node)
    (he : P.expand cfg.node c = some n') (hm : m ∈ cfg.memo) (hmn : P.same m n') :
    ¬ P.Solvable n' := by
  intro hsol
  have hlt := hP.expand _ c n' hc he
  have hrank := hP.same m n' hmn
  rcases h.memo m hm with rfl | ⟨f, hf, rfl⟩ | hdead
  · omega
  · have := hspine.spine.rank_lt hP f hf
    omega
  · exact hdead (hsame m n' hmn hsol)

/-- **What the search knows is kept by every step.** -/
theorem Explored.step (hP : P.Ranked) (hsame : ∀ m n, P.same m n → P.Solvable n → P.Solvable m)
    (h : P.Explored cfg) (hspine : P.OnSpine root cfg) (hs : P.Step cfg cfg') :
    P.Explored cfg' := by
  -- a candidate found to be a dead end leaves the waiting ones
  have drop : ∀ {n : N} {c : C} {rest : List C} {stack : List (Frame N C)} {memo : List N},
      P.Explored ⟨n, c :: rest, stack, memo⟩ → P.DeadEnd n c → P.Explored ⟨n, rest, stack, memo⟩ := by
    intro n c rest stack memo h hdead
    refine ⟨fun d hd => ?_, h.above, h.memo⟩
    rcases h.current d hd with hmem | hd'
    · rcases List.mem_cons.1 hmem with rfl | hmem
      · exact Or.inr hdead
      · exact Or.inl hmem
    · exact Or.inr hd'
  cases hs with
  | reject he => exact drop h fun n' hn' => by rw [he] at hn'; cases hn'
  | prune he hm hmn =>
    refine drop h fun n'' hn'' => ?_
    rw [he] at hn''
    cases hn''
    exact h.prune hP hsame hspine (hspine.rest _ (by simp)) he hm hmn
  | descend he _ =>
    refine ⟨fun d hd => Or.inl hd, ⟨fun d hd => ?_, h.above⟩, fun m hm => ?_⟩
    · rcases h.current d hd with hmem | hdead
      · rcases List.mem_cons.1 hmem with rfl | hmem
        · exact Or.inr fun n'' hn'' => Or.inl (Option.some.inj (hn''.symm.trans he))
        · exact Or.inl hmem
      · exact Or.inr fun n'' hn'' => Or.inr (hdead n'' hn'')
    · rcases List.mem_cons.1 hm with rfl | hm
      · exact Or.inl rfl
      · rcases h.memo m hm with rfl | ⟨f, hf, hfm⟩ | hdead
        · exact Or.inr (Or.inl ⟨_, List.mem_cons_self, rfl⟩)
        · exact Or.inr (Or.inl ⟨f, List.mem_cons_of_mem _ hf, hfm⟩)
        · exact Or.inr (Or.inr hdead)
  | backtrack hg =>
    have hdead := h.not_solvable rfl hg
    refine ⟨fun d hd => ?_, h.above.2, fun m hm => ?_⟩
    · rcases h.above.1 d hd with hmem | hd'
      · exact Or.inl hmem
      · refine Or.inr fun n'' hn'' hsol => ?_
        rcases hd' n'' hn'' with rfl | hns
        · exact hdead hsol
        · exact hns hsol
    · rcases h.memo m hm with rfl | ⟨g, hg', hgm⟩ | hns
      · exact Or.inr (Or.inr hdead)
      · rcases List.mem_cons.1 hg' with rfl | hg'
        · exact Or.inl hgm.symm
        · exact Or.inr (Or.inl ⟨g, hg', hgm⟩)
      · exact Or.inr (Or.inr hns)

/-- **Failure at the root is final**: no goal can be reached. -/
theorem Explored.not_solvable_root (h : P.Explored cfg) (hspine : P.OnSpine root cfg)
    (hr : cfg.rest = []) (hst : cfg.stack = []) (hg : ¬ P.goal cfg.node) : ¬ P.Solvable root := by
  have hroot := hspine.spine
  rw [hst] at hroot
  exact hroot ▸ h.not_solvable hr hg

/-! ## The measure -/

/-- What trying one candidate may cost, with `k` ranks still below and at
most `b` candidates a node. -/
def cost (b : ℕ) : ℕ → ℕ
  | 0 => 1
  | k + 1 => b * cost b k + 2

theorem cost_pos (b k : ℕ) : 0 < cost b k := by
  cases k with
  | zero => exact Nat.one_pos
  | succ k => exact Nat.succ_pos _

theorem cost_le_succ (b k : ℕ) (hb : 0 < b) : cost b k ≤ cost b (k + 1) := by
  have h : cost b k ≤ b * cost b k := Nat.le_mul_of_pos_left _ hb
  rw [cost]
  omega

theorem cost_mono {b : ℕ} (hb : 0 < b) {k l : ℕ} (h : k ≤ l) : cost b k ≤ cost b l := by
  induction h with
  | refl => exact le_rfl
  | step _ ih => exact ih.trans (cost_le_succ b _ hb)

/-- What the waiting candidates of a node may still cost. -/
def waiting (P : Problem N C) (b d : ℕ) (n : N) (rest : List C) : ℕ :=
  rest.length * cost b (d - P.rank n) + 1

/-- **The measure**: what is waiting, at every node of the path. -/
def weight (P : Problem N C) (b d : ℕ) (cfg : Config N C) : ℕ :=
  P.waiting b d cfg.node cfg.rest + (cfg.stack.map fun f => P.waiting b d f.node f.rest).sum

/-- No node has more than `b` candidates and no candidate leads below rank
`d`. -/
structure Bounded (P : Problem N C) (b d : ℕ) : Prop where
  width : ∀ n, (P.candidates n).length ≤ b
  depth : ∀ n c n', c ∈ P.candidates n → P.expand n c = some n' → P.rank n' ≤ d

/-- Descending costs less than the candidate it uses up. -/
theorem waiting_lt (hP : P.Ranked) {b d : ℕ} (hb : P.Bounded b d) (hc : c ∈ P.candidates n)
    (he : P.expand n c = some n') : P.waiting b d n' (P.candidates n') < cost b (d - P.rank n) := by
  have hlt := hP.expand n c n' hc he
  have hd := hb.depth n c n' hc he
  have hpos : 0 < b := (List.length_pos_of_mem hc).trans_le (hb.width n)
  have hmul : (P.candidates n').length * cost b (d - P.rank n') ≤ b * cost b (d - P.rank n') :=
    Nat.mul_le_mul_right _ (hb.width n')
  have hmono : cost b (d - P.rank n' + 1) ≤ cost b (d - P.rank n) := cost_mono hpos (by omega)
  have hsucc : cost b (d - P.rank n' + 1) = b * cost b (d - P.rank n') + 2 := rfl
  unfold waiting
  omega

/-- **Every step lowers the measure**, whatever the memo answers. -/
theorem Step.weight_lt (hP : P.Ranked) {b d : ℕ} (hb : P.Bounded b d)
    (hspine : P.OnSpine root cfg) (hs : P.Step cfg cfg') : P.weight b d cfg' < P.weight b d cfg := by
  have skip : ∀ (n : N) (c : C) (rest : List C),
      P.waiting b d n (c :: rest) = P.waiting b d n rest + cost b (d - P.rank n) := by
    intro n c rest
    simp only [waiting, List.length_cons, Nat.succ_mul]
    omega
  cases hs with
  | @reject n c rest stack memo _ =>
    have hpos := cost_pos b (d - P.rank n)
    have hskip := skip n c rest
    simp only [weight]
    omega
  | @prune n n' m c rest stack memo _ _ _ =>
    have hpos := cost_pos b (d - P.rank n)
    have hskip := skip n c rest
    simp only [weight]
    omega
  | @descend n n' c rest stack memo he _ =>
    have hlt : P.waiting b d n' (P.candidates n') < cost b (d - P.rank n) :=
      waiting_lt hP hb (hspine.rest c List.mem_cons_self) he
    have hskip := skip n c rest
    simp only [weight, List.map_cons, List.sum_cons]
    omega
  | @backtrack n f stack memo _ =>
    have hone : P.waiting b d n [] = 1 := by simp [waiting]
    simp only [weight, List.map_cons, List.sum_cons]
    omega

end Problem

end Backtrack
