import Porcupine.Common.Backtrack
import Mathlib.Data.List.Lex
/-!
# The way a search takes

Many ways may lead from the root to a goal, and a search ends on one of
them. Which one does not depend on the memo: whatever came before the
candidate taken at a node of the path was a dead end, so the search ends
on the first way in the order of the candidates (`Leftmost.lex`). Where
candidates lead down one rank at a time a goal takes no fewer steps than
it is deep (`Succeeds.depth_le`), and just as many exactly along the way
that takes the first candidate at every node (`Succeeds.straight`,
`Straight.succeeds`).
-/

namespace Backtrack

namespace Problem

variable {N C : Type*} {P : Problem N C} {root n n' m : N} {c : C} {cs ds : List C}
variable {cfg cfg' : Config N C} {stack : List (Frame N C)} {d k : ℕ}

/-- A way from a node to a node, by the candidates taken. -/
inductive Path (P : Problem N C) : N → List C → N → Prop
  | nil {n : N} : Path P n [] n
  | cons {n n' m : N} {c : C} {cs : List C} : c ∈ P.candidates n → P.expand n c = some n' →
      Path P n' cs m → Path P n (c :: cs) m

theorem Path.solvable (h : P.Path n cs m) (hm : P.goal m) : P.Solvable n := by
  induction h with
  | nil => exact .goal hm
  | cons hc he _ ih => exact .step hc he (ih hm)

theorem Path.snoc (h : P.Path n cs m) (hc : c ∈ P.candidates m) (he : P.expand m c = some n') :
    P.Path n (cs ++ [c]) n' := by
  induction h with
  | nil => exact .cons hc he .nil
  | cons hc' he' _ ih => exact .cons hc' he' (ih hc he)

/-! ## The first way -/

/-- **The path of a search**, by the candidates taken from the root: those
listed before them are dead ends. -/
inductive Leftmost (P : Problem N C) (root : N) : N → List (Frame N C) → List C → Prop
  | nil : Leftmost P root root [] []
  | cons {n n' : N} {c : C} {pre rest : List C} {stack : List (Frame N C)} {cs : List C} :
      Leftmost P root n stack cs → P.candidates n = pre ++ c :: rest →
      (∀ d ∈ pre, P.DeadEnd n d) → P.expand n c = some n' →
      Leftmost P root n' (⟨n, rest⟩ :: stack) (cs ++ [c])

theorem Leftmost.path (h : P.Leftmost root n stack cs) : P.Path root cs n := by
  induction h with
  | nil => exact .nil
  | cons _ hcand _ he ih => exact ih.snoc (hcand ▸ List.mem_append_right _ List.mem_cons_self) he

/-- **A search in order**: neither on its path nor at the node it is at has
it passed over anything but dead ends. -/
structure InOrder (P : Problem N C) (root : N) (cfg : Config N C) : Prop where
  above : ∃ cs, P.Leftmost root cfg.node cfg.stack cs
  here : ∃ pre, P.candidates cfg.node = pre ++ cfg.rest ∧ ∀ d ∈ pre, P.DeadEnd cfg.node d

theorem inOrder_start (P : Problem N C) (root : N) : P.InOrder root (P.start root) :=
  ⟨⟨[], .nil⟩, ⟨[], rfl, nofun⟩⟩

/-- **Every step keeps the order**: what it passes over is refused, or is
answered for by the memo, or has been explored. -/
theorem InOrder.step (hP : P.Ranked) (hsame : ∀ m n, P.same m n → P.Solvable n → P.Solvable m)
    (h : P.InOrder root cfg) (hexp : P.Explored cfg) (hspine : P.OnSpine root cfg)
    (hs : P.Step cfg cfg') : P.InOrder root cfg' := by
  -- one more candidate is passed over
  have pass : ∀ {n : N} {c : C} {pre rest : List C}, P.candidates n = pre ++ c :: rest →
      (∀ d ∈ pre, P.DeadEnd n d) → P.DeadEnd n c →
      ∃ pre, P.candidates n = pre ++ rest ∧ ∀ d ∈ pre, P.DeadEnd n d := by
    intro n c pre rest hcand hpre hc
    refine ⟨pre ++ [c], by rw [hcand, List.append_assoc, List.singleton_append], fun d hd => ?_⟩
    rcases List.mem_append.1 hd with hd | hd
    · exact hpre d hd
    · exact List.mem_singleton.1 hd ▸ hc
  obtain ⟨⟨cs, habove⟩, pre, hcand, hpre⟩ := h
  cases hs with
  | reject he =>
    refine ⟨⟨cs, habove⟩, pass hcand hpre fun n' hn' => ?_⟩
    cases hn'.symm.trans he
  | prune he hm hmn =>
    refine ⟨⟨cs, habove⟩, pass hcand hpre fun n'' hn'' => ?_⟩
    cases hn''.symm.trans he
    exact hexp.prune hP hsame hspine (hspine.rest _ List.mem_cons_self) he hm hmn
  | descend he _ => exact ⟨⟨_, habove.cons hcand hpre he⟩, [], rfl, nofun⟩
  | backtrack hg =>
    have hdead := hexp.not_solvable rfl hg
    cases habove with
    | cons habove hcand' hpre' he =>
      refine ⟨⟨_, habove⟩, pass hcand' hpre' fun n' hn' => ?_⟩
      cases hn'.symm.trans he
      exact hdead

/-- Another way either leaves the path to the right, or follows it to its
end. -/
theorem Leftmost.diverges {r : C → C → Prop} (hr : ∀ n, (P.candidates n).Pairwise r)
    (hgoal : ∀ n, P.goal n → P.candidates n = []) (h : P.Leftmost root n stack cs)
    (hds : P.Path root ds m) (hm : P.goal m) :
    (∀ es, List.Lex r (cs ++ es) ds) ∨ ∃ es, ds = cs ++ es ∧ P.Path n es m := by
  induction h with
  | nil => exact Or.inr ⟨ds, rfl, hds⟩
  | @cons n n' c pre rest stack cs _ hcand hpre he ih =>
    rcases ih with hlex | ⟨es, rfl, hes⟩
    · refine Or.inl fun es => ?_
      rw [List.append_assoc]
      exact hlex _
    · cases hes with
      | nil =>
        rw [hgoal _ hm] at hcand
        exact absurd hcand.symm (by simp)
      | @cons _ n'' _ d es hd he' hes =>
        -- the way takes a candidate that is no dead end
        rw [hcand] at hd
        rcases List.mem_append.1 hd with hd | hd
        · exact absurd (hes.solvable hm) (hpre d hd _ he')
        · rcases List.mem_cons.1 hd with rfl | hd
          · cases he.symm.trans he'
            exact Or.inr ⟨es, by simp, hes⟩
          · have hcd : r c d := (List.pairwise_cons.1 (List.pairwise_append.1 (hcand ▸ hr n)).2.1).1 d hd
            refine Or.inl fun es' => ?_
            rw [List.append_assoc]
            exact (List.Lex.rel hcd).append_left r cs

/-- **The way to the goal is the first**, in the lexicographic order of the
candidates. -/
theorem Leftmost.lex {r : C → C → Prop} (hr : ∀ n, (P.candidates n).Pairwise r)
    (hgoal : ∀ n, P.goal n → P.candidates n = []) (h : P.Leftmost root n stack cs)
    (hn : P.goal n) (hds : P.Path root ds m) (hm : P.goal m) : cs = ds ∨ List.Lex r cs ds := by
  rcases h.diverges hr hgoal hds hm with hlex | ⟨es, rfl, hes⟩
  · refine Or.inr ?_
    have h := hlex []
    rwa [List.append_nil] at h
  · cases hes with
    | nil => exact Or.inl (List.append_nil cs).symm
    | cons hd _ _ =>
      rw [hgoal _ hn] at hd
      cases hd

/-! ## The shortest search -/

/-- The search comes to a goal after `k` steps. -/
inductive Succeeds (P : Problem N C) : ℕ → Config N C → Prop
  | goal {cfg : Config N C} : P.goal cfg.node → Succeeds P 0 cfg
  | step {k : ℕ} {cfg cfg' : Config N C} : P.Step cfg cfg' → Succeeds P k cfg' →
      Succeeds P (k + 1) cfg

/-- A way that takes the first candidate at every node. -/
inductive Straight (P : Problem N C) : N → List C → N → Prop
  | nil {n : N} : Straight P n [] n
  | cons {n n' m : N} {c : C} {cs rest : List C} : P.candidates n = c :: rest →
      P.expand n c = some n' → Straight P n' cs m → Straight P n (c :: cs) m

theorem Straight.path (h : P.Straight n cs m) : P.Path n cs m := by
  induction h with
  | nil => exact .nil
  | cons hcand he _ ih => exact .cons (hcand ▸ List.mem_cons_self) he ih

/-- Candidates lead down one rank, and the goals are at rank `d`. -/
structure Level (P : Problem N C) (d : ℕ) : Prop where
  expand : ∀ n c n', c ∈ P.candidates n → P.expand n c = some n' → P.rank n' = P.rank n + 1
  same : ∀ m n, P.same m n → P.rank m = P.rank n
  goal : ∀ n, P.goal n → P.rank n = d

/-- A step goes down one rank at most. -/
theorem Level.rank_le (hP : P.Level d) (hspine : P.OnSpine root cfg) (hs : P.Step cfg cfg') :
    P.rank cfg'.node ≤ P.rank cfg.node + 1 := by
  cases hs with
  | reject => exact Nat.le_succ _
  | prune => exact Nat.le_succ _
  | descend he => exact (hP.expand _ _ _ (hspine.rest _ List.mem_cons_self) he).le
  | @backtrack n f =>
    obtain ⟨⟨c, hc, he⟩, -, -⟩ := hspine.spine
    have hrank : P.rank n = P.rank f.node + 1 := hP.expand _ _ _ hc he
    dsimp only
    omega

/-- **A goal takes no fewer steps than it is deep.** -/
theorem Succeeds.depth_le (h : P.Succeeds k cfg) (hP : P.Level d) (hspine : P.OnSpine root cfg) :
    d ≤ P.rank cfg.node + k := by
  induction h with
  | goal hg => exact (hP.goal _ hg).ge
  | step hs _ ih =>
    have hle := hP.rank_le hspine hs
    have := ih (hspine.step hs)
    omega

/-- **If it takes no more, every step goes down**, to the first candidate
waiting. -/
theorem Succeeds.straight (h : P.Succeeds k cfg) (hP : P.Level d) (hspine : P.OnSpine root cfg)
    (hd : d = P.rank cfg.node + k) (hrest : cfg.rest = P.candidates cfg.node) :
    ∃ cs m, P.Straight cfg.node cs m ∧ P.goal m := by
  induction h with
  | goal hg => exact ⟨[], _, .nil, hg⟩
  | @step k cfg cfg' hs h ih =>
    have hle := h.depth_le hP (hspine.step hs)
    cases hs with
    | reject =>
      dsimp only at hd hle
      omega
    | prune =>
      dsimp only at hd hle
      omega
    | @descend n n' c rest _ _ he hnew =>
      have hrank : P.rank n' = P.rank n + 1 := hP.expand n c n' (hspine.rest c List.mem_cons_self) he
      have hd' : d = P.rank n' + k := by
        dsimp only at hd
        omega
      obtain ⟨cs, m, hcs, hm⟩ := ih (hspine.step (.descend he hnew)) hd' rfl
      exact ⟨c :: cs, m, .cons hrest.symm he hcs, hm⟩
    | @backtrack n f =>
      obtain ⟨⟨c, hc, he⟩, -, -⟩ := hspine.spine
      have hrank : P.rank n = P.rank f.node + 1 := hP.expand _ _ _ hc he
      dsimp only at hd hle
      omega

/-- **A way that takes first candidates is followed without a stop**: the
memo holds nothing as deep as where it leads. -/
theorem Straight.succeeds (h : P.Straight n cs m) (hP : P.Level d) (hm : P.goal m)
    {memo : List N} (hmemo : ∀ x ∈ memo, P.rank x ≤ P.rank n) :
    P.Succeeds cs.length ⟨n, P.candidates n, stack, memo⟩ := by
  induction h generalizing stack memo with
  | nil => exact .goal hm
  | @cons n n' m c cs rest hcand he _ ih =>
    have hrank := hP.expand _ _ _ (hcand ▸ List.mem_cons_self) he
    have hmiss : ∀ x ∈ memo, ¬ P.same x n' := by
      intro x hx hsame
      have hx' := hmemo x hx
      have hxn := hP.same x n' hsame
      omega
    rw [hcand]
    refine .step (.descend he hmiss) (ih hm fun x hx => ?_)
    rcases List.mem_cons.1 hx with rfl | hx
    · exact le_rfl
    · exact (hmemo x hx).trans (by omega)

end Problem

end Backtrack
