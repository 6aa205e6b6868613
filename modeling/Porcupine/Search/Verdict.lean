import Porcupine.Search.Simulation
/-!
# What the search returns

Every loop ends after finitely many passes, for any model and any `==`
(`Sim.ends`): the measure of the backtracking search bounds them. If it
ends with true there is a linearization; if `==` is lawful and it ends
with false there is none (`Paired.checksTo_iff`).
-/

namespace Porcupine

open Transition Backtrack Linearization

variable {State Input Output : Type} [BEq State]

/-- The loop returns `b`, after `k` more passes. -/
inductive Search.Ends (debug : Bool) (model : Model State Input Output) (b : Bool) :
    ℕ → Search State Input Output → Prop
  /-- This pass returns. -/
  | done {s : Search State Input Output} : s.step debug model = .ok (.inr b) → Ends debug model b 0 s
  /-- This pass does not. -/
  | pass {k : ℕ} {s s' : Search State Input Output} : s.step debug model = .ok (.inl s') →
      Ends debug model b k s' → Ends debug model b (k + 1) s

/-- **`check_single` returns `b`**, unless it is killed. -/
def ChecksTo (debug : Bool) (model : Model State Input Output)
    (entries : List (Entry Input Output)) (b : Bool) : Prop :=
  Search.start model entries = .ok (.inr b) ∨
    ∃ s k, Search.start model entries = .ok (.inl s) ∧ s.Ends debug model b k

variable {debug : Bool} {model model' : Model State Input Output}
variable {entries entries' : List (Entry Input Output)} {n n' k k' : ℕ} {b b' : Bool}
variable {s s' t : Search State Input Output} {cfg cfg' : Config (Prefix State) ℕ}
variable {root : Prefix State}

/-- **Every loop ends**, by the measure of the search it walks. -/
theorem Sim.ends (h : Sim entries n debug s cfg) (hpair : Paired entries n)
    (hsize : entries.length < NONE) (hspine : (searchProblem model entries).OnSpine root cfg) :
    ∃ b k, s.Ends debug model b k := by
  generalize hw : (searchProblem model entries).weight entries.length entries.length cfg = w
  induction w using Nat.strongRecOn generalizing s cfg with
  | ind w ih =>
    rcases h.step model hpair hsize with ⟨s', cfg', hs, hstep, h'⟩ | ⟨hs, -⟩ | ⟨hs, -⟩
    · have hlt := hstep.weight_lt hpair.ranked searchProblem_bounded hspine
      obtain ⟨b, k, hend⟩ := ih _ (hw ▸ hlt) h' (hspine.step hstep) rfl
      exact ⟨b, k + 1, .pass hs hend⟩
    · exact ⟨true, 0, .done hs⟩
    · exact ⟨false, 0, .done hs⟩

/-- A loop about to end is at a goal or has failed; any other goes on with
the search. -/
theorem Sim.ends_cases (h : Sim entries n debug s cfg) (hpair : Paired entries n)
    (hsize : entries.length < NONE) (hend : s.Ends debug model b k) :
    (b = true ∧ (searchProblem model entries).goal cfg.node) ∨
    (b = false ∧ cfg.rest = [] ∧ cfg.stack = [] ∧ ¬ (searchProblem model entries).goal cfg.node) ∨
    ∃ j < k, ∃ s' cfg', (searchProblem model entries).Step cfg cfg' ∧
      Sim entries n debug s' cfg' ∧ s'.Ends debug model b j := by
  rcases h.step model hpair hsize with
    ⟨s', cfg', hs, hstep, h'⟩ | ⟨hs, hgoal⟩ | ⟨hs, hrest, hstack, hgoal⟩
  · cases hend with
    | done hs' => rw [hs] at hs'; cases hs'
    | pass hs' hend =>
      rw [hs] at hs'
      cases hs'
      exact Or.inr (Or.inr ⟨_, Nat.lt_succ_self _, s', cfg', hstep, h', hend⟩)
  · cases hend with
    | done hs' => rw [hs] at hs'; cases hs'; exact Or.inl ⟨rfl, hgoal⟩
    | pass hs' _ => rw [hs] at hs'; cases hs'
  · cases hend with
    | done hs' => rw [hs] at hs'; cases hs'; exact Or.inr (Or.inl ⟨rfl, hrest, hstack, hgoal⟩)
    | pass hs' _ => rw [hs] at hs'; cases hs'

/-- A loop that ends with true has reached a goal. -/
theorem Sim.solvable (h : Sim entries n debug s cfg) (hpair : Paired entries n)
    (hsize : entries.length < NONE) (hspine : (searchProblem model entries).OnSpine root cfg)
    (hend : s.Ends debug model true k) : (searchProblem model entries).Solvable root := by
  induction k using Nat.strongRecOn generalizing s cfg with
  | ind k ih =>
    rcases h.ends_cases hpair hsize hend with
      ⟨-, hgoal⟩ | ⟨hb, -⟩ | ⟨j, hj, s', cfg', hstep, h', hend'⟩
    · exact hspine.spine.solvable (.goal hgoal)
    · cases hb
    · exact ih j hj h' (hspine.step hstep) hend'

/-- What the search knows is kept, where `==` is lawful. -/
theorem explored_step (hpair : Paired entries n) (hlaw : model.Lawful)
    {cfg' : Config (Prefix State) ℕ} (hexp : (searchProblem model entries).Explored cfg)
    (hspine : (searchProblem model entries).OnSpine root cfg)
    (hstep : (searchProblem model entries).Step cfg cfg') :
    (searchProblem model entries).Explored cfg' :=
  hexp.step hpair.ranked (fun _ _ hsame hsol => solvable_of_same hlaw hsame hsol) hspine hstep

/-- **A loop that ends with false has exhausted the search**, where `==` is
lawful. -/
theorem Sim.not_solvable (h : Sim entries n debug s cfg) (hpair : Paired entries n)
    (hsize : entries.length < NONE) (hspine : (searchProblem model entries).OnSpine root cfg)
    (hlaw : model.Lawful) (hexp : (searchProblem model entries).Explored cfg)
    (hend : s.Ends debug model false k) : ¬ (searchProblem model entries).Solvable root := by
  induction k using Nat.strongRecOn generalizing s cfg with
  | ind k ih =>
    rcases h.ends_cases hpair hsize hend with
      ⟨hb, -⟩ | ⟨-, hrest, hstack, hgoal⟩ | ⟨j, hj, s', cfg', hstep, h', hend'⟩
    · cases hb
    · exact hexp.not_solvable_root hspine hrest hstack hgoal
    · exact ih j hj h' (hspine.step hstep) (explored_step hpair hlaw hexp hspine hstep) hend'

/-- At a goal there is nothing to try, and the search makes no step. -/
theorem Sim.not_step_of_goal (h : Sim entries n debug s cfg)
    (hgoal : (searchProblem model entries).goal cfg.node) :
    ¬ (searchProblem model entries).Step cfg cfg' := by
  obtain ⟨post, hwalk, -, hrest⟩ := h.cursor
  obtain ⟨pre, hlive, -⟩ := hwalk.split
  have hnil : live entries cfg.node.ops = [] := hgoal
  obtain ⟨-, rfl⟩ := List.append_eq_nil_iff.1 (hlive.symm.trans hnil)
  have hrest' : cfg.rest = [] := hrest
  intro hstep
  cases hstep with
  | backtrack hnot => exact hnot hgoal
  | _ => cases hrest'

/-- **Loops that walk one graph end alike.** -/
theorem Sim.ends_unique (h : Sim entries n debug s cfg) (h' : Sim entries' n' debug s' cfg)
    (hpair : Paired entries n) (hpair' : Paired entries' n') (hsize : entries.length < NONE)
    (hsize' : entries'.length < NONE)
    (hgraph : searchProblem model' entries' = searchProblem model entries)
    (hend : s.Ends debug model b k) (hend' : s'.Ends debug model' b' k') : b = b' := by
  induction k using Nat.strongRecOn generalizing s s' cfg k' with
  | ind k ih =>
    have hcases' := h'.ends_cases hpair' hsize' hend'
    rw [hgraph] at hcases'
    rcases h.ends_cases hpair hsize hend with
      ⟨rfl, hgoal⟩ | ⟨rfl, hrest, hstack, hgoal⟩ | ⟨j, hj, t, cfg₁, hstep, h₁, hend₁⟩
    · rcases hcases' with ⟨rfl, -⟩ | ⟨-, -, -, hgoal'⟩ | ⟨_, _, _, _, hstep', -⟩
      · rfl
      · exact absurd hgoal hgoal'
      · exact absurd hstep' (h.not_step_of_goal hgoal)
    · rcases hcases' with ⟨-, hgoal'⟩ | ⟨rfl, -⟩ | ⟨_, _, _, _, hstep', -⟩
      · exact absurd hgoal' hgoal
      · rfl
      · exact absurd hstep' (Problem.not_step_of_nil hrest hstack)
    · rcases hcases' with ⟨-, hgoal'⟩ | ⟨-, hrest, hstack, -⟩ | ⟨_, _, t', cfg₂, hstep', h₂, hend₂⟩
      · exact absurd hstep (h.not_step_of_goal hgoal')
      · exact absurd hstep (Problem.not_step_of_nil hrest hstack)
      · obtain rfl := hstep.unique hstep'
        exact ih j hj h₁ h₂ hend₁ hend₂

/-! ## Runs of the loop -/

/-- A step of the loop as a machine is a pass that goes on. -/
theorem checkSingle_step {u : Unit} :
    (checkSingle debug model).step u s = some t ↔ s.step debug model = .ok (.inl t) := by
  simp only [checkSingle]
  split
  · next s' hs => rw [hs, Option.some.injEq, Except.ok.injEq, Sum.inl.injEq]
  · next hno => exact iff_of_false nofun (hno t)

/-- The loop returns where a pass does. -/
theorem checkSingle_result {b : Bool} :
    (checkSingle debug model).result s = some b ↔ s.step debug model = .ok (.inr b) := by
  simp only [checkSingle]
  split
  · next b' hs => rw [hs, Option.some.injEq, Except.ok.injEq, Sum.inr.injEq]
  · next hno => exact iff_of_false (by simp) (hno b)

omit [BEq State] in
/-- What starts the loop, where there is one. -/
theorem start_eq_some : ((Search.start model entries).toOption.bind Sum.getLeft?) = some s ↔
    Search.start model entries = .ok (.inl s) := by
  rw [Option.bind_eq_some_iff]
  constructor
  · rintro ⟨x, hx, hs⟩
    rw [Result.toOption_eq_some.1 hx, Sum.getLeft?_eq_some_iff.1 hs]
  · intro h
    exact ⟨.inl s, Result.toOption_eq_some.2 h, rfl⟩

/-- A pass that goes on is a step of the search. -/
theorem Sim.pass (h : Sim entries n debug s cfg) (hpair : Paired entries n)
    (hsize : entries.length < NONE) (hs : s.step debug model = .ok (.inl s')) :
    ∃ cfg', (searchProblem model entries).Step cfg cfg' ∧ Sim entries n debug s' cfg' := by
  rcases h.step model hpair hsize with ⟨t, cfg', ht, hstep, h'⟩ | ⟨ht, -⟩ | ⟨ht, -⟩
  · cases hs.symm.trans ht
    exact ⟨cfg', hstep, h'⟩
  · cases hs.symm.trans ht
  · cases hs.symm.trans ht

/-- **An invariant of the search is one of the loop.** -/
theorem Sim.invariant {I : Config (Prefix State) ℕ → Prop} (h : Sim entries n debug s cfg)
    (hpair : Paired entries n) (hsize : entries.length < NONE) (hI : I cfg)
    (hstep : ∀ cfg cfg', I cfg → (searchProblem model entries).Step cfg cfg' → I cfg')
    (hreach : (checkSingle debug model).Reachable s t) :
    ∃ cfg', Sim entries n debug t cfg' ∧ I cfg' := by
  refine hreach.invariant (I := fun t => ∃ cfg', Sim entries n debug t cfg' ∧ I cfg')
    ⟨cfg, h, hI⟩ ?_
  rintro t _ u ⟨cfg', h', hI'⟩ - hu
  obtain ⟨cfg'', hcfg, h''⟩ := h'.pass hpair hsize (checkSingle_step.1 hu)
  exact ⟨cfg'', h'', hstep _ _ hI' hcfg⟩

/-- What is known of every state the loop comes to. -/
theorem Sim.reachable (h : Sim entries n debug s cfg) (hpair : Paired entries n)
    (hsize : entries.length < NONE) (hspine : (searchProblem model entries).OnSpine root cfg)
    (hlaw : model.Lawful) (hexp : (searchProblem model entries).Explored cfg)
    (hreach : (checkSingle debug model).Reachable s t) :
    ∃ cfg', Sim entries n debug t cfg' ∧ (searchProblem model entries).OnSpine root cfg' ∧
      (searchProblem model entries).Explored cfg' :=
  h.invariant hpair hsize ⟨hspine, hexp⟩ (fun _ _ ⟨hspine, hexp⟩ hstep =>
    ⟨hspine.step hstep, explored_step hpair hlaw hexp hspine hstep⟩) hreach

/-! ## The verdict -/

namespace Paired

/-- **`check_single` returns**, for any model and any `==`. -/
theorem checksTo (hpair : Paired entries n) (hsize : entries.length < NONE) (debug : Bool)
    (model : Model State Input Output) : ∃ b, ChecksTo debug model entries b := by
  by_cases hne : entries = []
  · exact ⟨true, Or.inl (by simp [Search.start, hne])⟩
  · obtain ⟨s, hs, hsim⟩ := hpair.start_ok hsize hne debug model
    obtain ⟨b, k, hend⟩ := hsim.ends hpair hsize (Problem.onSpine_start _ _)
    exact ⟨b, Or.inr ⟨s, k, hs, hend⟩⟩

/-- **What `check_single` returns is what its loop ends with**, if it has
any entries to walk. -/
theorem ends_of_checksTo (hpair : Paired entries n) (hsize : entries.length < NONE)
    (h : ChecksTo debug model entries b) : (entries = [] ∧ b = true) ∨ (entries ≠ [] ∧ ∃ s k,
      Sim entries n debug s ((searchProblem model entries).start ⟨[], model.init⟩) ∧
      s.Ends debug model b k) := by
  by_cases hne : entries = []
  · refine Or.inl ⟨hne, ?_⟩
    rcases h with hstart | ⟨s, k, hstart, -⟩
    · simpa [Search.start, hne] using hstart
    · simp [Search.start, hne] at hstart
  · obtain ⟨s, hs, hsim⟩ := hpair.start_ok hsize hne debug model
    rcases h with hstart | ⟨s', k, hstart, hend⟩
    · cases hs.symm.trans hstart
    · cases hs.symm.trans hstart
      exact Or.inr ⟨hne, s, k, hsim, hend⟩

/-- What it returns true on has a way to a goal, whatever `==` is. -/
theorem solvable_of_checksTo (hpair : Paired entries n) (hsize : entries.length < NONE)
    (h : ChecksTo debug model entries true) :
    (searchProblem model entries).Solvable ⟨[], model.init⟩ := by
  rcases hpair.ends_of_checksTo hsize h with ⟨hnil, -⟩ | ⟨-, s, k, hsim, hend⟩
  · refine .goal ?_
    simp [searchProblem, live, hnil]
  · exact hsim.solvable hpair hsize (Problem.onSpine_start _ _) hend

/-- **What it returns true on is linearizable**, -/
theorem linearizable_of_checksTo (hpair : Paired entries n) (hsize : entries.length < NONE)
    (h : ChecksTo debug model entries true) : EntriesLinearizable model entries :=
  hpair.entriesLinearizable_iff.2
    (hpair.linearizable_of_solvable (hpair.solvable_of_checksTo hsize h))

/-- and its calls come first. -/
theorem callFirst_of_checksTo (hpair : Paired entries n) (hsize : entries.length < NONE)
    (h : ChecksTo debug model entries true) : CallFirst entries n := fun id hid =>
  hpair.callFirst_of_solvable (hpair.solvable_of_checksTo hsize h) id hid (by simp)

/-- What it returns false on is not linearizable, where `==` is lawful. -/
theorem not_linearizable_of_checksTo (hpair : Paired entries n) (hsize : entries.length < NONE)
    (hfirst : CallFirst entries n) (hlaw : model.Lawful) (h : ChecksTo debug model entries false) :
    ¬ EntriesLinearizable model entries := by
  rw [hpair.entriesLinearizable_iff]
  rcases hpair.ends_of_checksTo hsize h with ⟨-, hb⟩ | ⟨-, s, k, hsim, hend⟩
  · cases hb
  · intro hlin
    exact hsim.not_solvable hpair hsize (Problem.onSpine_start _ _) hlaw
      (Problem.explored_start _ _) hend
      (hpair.solvable_of_linearizable (q := ⟨[], model.init⟩) hfirst hlin)

/-- **Entries with one graph get one verdict**, for any model and any
`==`. -/
theorem checksTo_unique (hpair : Paired entries n) (hpair' : Paired entries' n')
    (hsize : entries.length < NONE) (hsize' : entries'.length < NONE)
    (hinit : model'.init = model.init)
    (hgraph : searchProblem model' entries' = searchProblem model entries)
    (h : ChecksTo debug model entries b) (h' : ChecksTo debug model' entries' b') : b = b' := by
  have hnil : entries' = [] ↔ entries = [] := by
    have hgoal := congrArg (fun P => P.goal ⟨[], model.init⟩) hgraph
    simpa [searchProblem, live_nil] using hgoal
  rcases hpair.ends_of_checksTo hsize h with ⟨hemp, rfl⟩ | ⟨hne, s, k, hsim, hend⟩
  · rcases hpair'.ends_of_checksTo hsize' h' with ⟨-, rfl⟩ | ⟨hne, -⟩
    · rfl
    · exact absurd (hnil.2 hemp) hne
  · rcases hpair'.ends_of_checksTo hsize' h' with ⟨hemp, -⟩ | ⟨-, s', k', hsim', hend'⟩
    · exact absurd (hnil.1 hemp) hne
    · rw [hgraph, hinit] at hsim'
      exact hsim.ends_unique hsim' hpair hpair' hsize hsize' hgraph hend hend'

/-- **`check_single` decides whether its entries are linearizable.** -/
theorem checksTo_iff (hpair : Paired entries n) (hsize : entries.length < NONE)
    (hfirst : CallFirst entries n) (hlaw : model.Lawful) (h : ChecksTo debug model entries b) :
    b = true ↔ EntriesLinearizable model entries := by
  cases b with
  | true => exact ⟨fun _ => hpair.linearizable_of_checksTo hsize h, fun _ => rfl⟩
  | false =>
    refine ⟨fun he => absurd he Bool.false_ne_true, fun hlin => ?_⟩
    exact absurd hlin (hpair.not_linearizable_of_checksTo hsize hfirst hlaw h)

end Paired

end Porcupine
