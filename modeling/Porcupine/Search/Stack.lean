import Porcupine.Search.Lifting
import Porcupine.Search.Once
/-!
# The backtrack stack determines the search

The frames of `calls` are an ordering of the operations linearized so far
(`Frames`), each with the state before it, and every frame was pushed in
the arena that its unlift gives back. So the arena, the bitset and the
state at a pass can be computed from the stack (`search_of_stack`): a pop
restores what the matching push found, and where the loop returns true its
stack is a linearization.
-/

namespace Porcupine

open Linearization Backtrack Transition

variable {State Input Output : Type}

/-- The operations of the stack in the order in which they were
linearized. -/
def opsOf (entries : List (Entry Input Output)) (calls : List (CallFrame State)) : List ℕ :=
  (stackOps entries calls).reverse

/-- **The frames of the stack**, the latest first: each operation was one
that no operation left precedes, and the model took it from the state
saved to the state after it. -/
inductive Frames (model : Model State Input Output) (entries : List (Entry Input Output)) (n : ℕ) :
    List (CallFrame State) → State → Prop
  /-- No frame. -/
  | nil : Frames model entries n [] model.init
  /-- One frame more. -/
  | cons {calls : List (CallFrame State)} {σ τ : State} {id : ℕ} :
      Frames model entries n calls σ → id < n → id ∉ stackOps entries calls →
      (∀ y < n, y ∉ stackOps entries calls → ¬ Precedes entries y id) →
      applyOp model entries σ id = some τ →
      Frames model entries n (⟨callPos entries id + 1, σ⟩ :: calls) τ

variable {model : Model State Input Output} {entries : List (Entry Input Output)}
variable {a a₀ : NodeArena Input Output} {n id : ℕ} {debug : Bool} {q root : Prefix State}
variable {calls below above : List (CallFrame State)} {stack : List (Frame (Prefix State) ℕ)}
variable {s₀ s s' t u : Search State Input Output} {σ : State} {cfg : Config (Prefix State) ℕ}
variable {frame : CallFrame State}

theorem stackOps_push (hpair : Paired entries n) (hid : id < n) (σ : State) :
    stackOps entries (⟨callPos entries id + 1, σ⟩ :: calls) = id :: stackOps entries calls := by
  rw [stackOps, List.map_cons, Nat.add_sub_cancel, hpair.idAt_posOf hid]
  rfl

theorem opsOf_push (hpair : Paired entries n) (hid : id < n) (σ : State) :
    opsOf entries (⟨callPos entries id + 1, σ⟩ :: calls) = opsOf entries calls ++ [id] := by
  rw [opsOf, stackOps_push hpair hid, List.reverse_cons]
  rfl

theorem mem_opsOf : id ∈ opsOf entries calls ↔ id ∈ stackOps entries calls := List.mem_reverse

/-! ## What the frames say -/

namespace Frames

theorem lt (h : Frames model entries n calls σ) (hpair : Paired entries n) :
    ∀ id ∈ stackOps entries calls, id < n := by
  induction h with
  | nil => nofun
  | cons _ hid _ _ _ ih =>
    rw [stackOps_push hpair hid]
    exact List.forall_mem_cons.2 ⟨hid, ih⟩

theorem nodup (h : Frames model entries n calls σ) (hpair : Paired entries n) :
    (stackOps entries calls).Nodup := by
  induction h with
  | nil => exact List.nodup_nil
  | cons _ hid hmem _ _ ih =>
    rw [stackOps_push hpair hid]
    exact List.nodup_cons.2 ⟨hmem, ih⟩

/-- **The model takes the operations of the stack**, and ends in the
current state. -/
theorem run (h : Frames model entries n calls σ) (hpair : Paired entries n) :
    run (applyOp model entries) model.init (opsOf entries calls) = some σ := by
  induction h with
  | nil => rfl
  | cons _ hid _ _ happly ih =>
    rw [opsOf_push hpair hid, run_append, ih]
    simp only [Option.bind_some, run_cons, happly, run_nil]

/-- What is below a frame is a stack too, whose state the frame saves; no
operation left there precedes the frame's. -/
theorem of_append (h : Frames model entries n calls σ) (hpair : Paired entries n)
    (hcalls : calls = above ++ frame :: below) : Frames model entries n below frame.state ∧
      ∀ y < n, y ∉ opsOf entries below → ¬ Precedes entries y (idAt entries (frame.nodeRef - 1)) := by
  induction h generalizing above with
  | nil => cases above <;> cases hcalls
  | cons h hid _ hmin _ ih =>
    cases above with
    | nil =>
      cases hcalls
      refine ⟨h, fun y hy hmem => ?_⟩
      rw [Nat.add_sub_cancel, hpair.idAt_posOf hid]
      exact hmin y hy (mt mem_opsOf.2 hmem)
    | cons f above => exact ih (List.cons.inj hcalls).2

/-- No operation left precedes one of the stack. -/
theorem not_precedes (h : Frames model entries n calls σ) (hpair : Paired entries n) (hid : id < n)
    (hmem : id ∉ stackOps entries calls) :
    ∀ i ∈ stackOps entries calls, ¬ Precedes entries id i := by
  induction h with
  | nil => nofun
  | cons _ hid' _ hmin _ ih =>
    rw [stackOps_push hpair hid', List.mem_cons, not_or] at hmem
    rw [stackOps_push hpair hid']
    exact List.forall_mem_cons.2 ⟨hmin id hid hmem.2, ih hmem.2⟩

/-- **The order of the stack respects precedence.** -/
theorem respects (h : Frames model entries n calls σ) (hpair : Paired entries n) :
    Respects (Precedes entries) (opsOf entries calls) := by
  induction h with
  | nil => exact .nil
  | cons h hid hmem _ _ ih =>
    rw [opsOf_push hpair hid, Respects, List.pairwise_append]
    refine ⟨ih, List.pairwise_singleton _ _, fun i hi j hj => ?_⟩
    rw [List.mem_singleton.1 hj]
    exact h.not_precedes hpair hid hmem i (mem_opsOf.1 hi)

end Frames

/-- **The frames of a stack that unwinds to the first prefix.** -/
theorem Unwinds.frames [BEq State] (h : Unwinds entries n debug a q calls stack)
    (hpair : Paired entries n) (hspine : (searchProblem model entries).Spine ⟨[], model.init⟩ q stack) :
    Frames model entries n calls q.state := by
  induction h with
  | nil =>
    cases hspine
    exact .nil
  | @cons a a' q q' id _ _ _ _ hops hid hmem _ _ _ _ hunw ih =>
    -- the frame's operation was a candidate of the prefix below
    obtain ⟨⟨c, hc, he⟩, -, hrest⟩ := hspine
    obtain ⟨τ, happly, rfl⟩ := expand_eq_some.1 he
    obtain ⟨rfl, -⟩ := List.cons.inj hops
    have hq' : q'.ops = stackOps entries _ := hunw.ops_eq hpair hrest rfl
    rw [hq'] at hmem
    refine .cons (ih hrest) hid hmem (fun y hy hy' => ?_) happly
    exact (hpair.mem_frontier.1 hc).2.2 y hy (hq' ▸ hy')

/-! ## The arena -/

variable [BEq State]

theorem Sim.ops_eq (h : Sim entries n debug s cfg) (hpair : Paired entries n)
    (hspine : (searchProblem model entries).OnSpine ⟨[], model.init⟩ cfg) :
    cfg.node.ops = stackOps entries s.calls := h.calls.ops_eq hpair hspine.spine rfl

theorem Sim.frames (h : Sim entries n debug s cfg) (hpair : Paired entries n)
    (hspine : (searchProblem model entries).OnSpine ⟨[], model.init⟩ cfg) :
    Frames model entries n s.calls s.state := by
  rw [h.state]
  exact h.calls.frames hpair hspine.spine

/-- **A pass keeps the lifts in force those of the stack.** -/
theorem Stacked.pass (h : Stacked entries n debug a₀ (stackOps entries s.calls) s.arena)
    (hsim : Sim entries n debug s cfg) (hpair : Paired entries n) (hsize : entries.length < NONE)
    (hspine : (searchProblem model entries).OnSpine ⟨[], model.init⟩ cfg)
    (hs : s.step debug model = .ok (.inl s')) :
    Stacked entries n debug a₀ (stackOps entries s'.calls) s'.arena := by
  cases Search.pass_of_step hs with
  | skip => exact h
  | push hcur hcall _ _ hlift =>
    cases hrest : cfg.rest with
    | nil => cases hcall.symm.trans (hsim.stepCall_nil hpair hsize hrest)
    | cons id rest =>
      obtain ⟨hid, hmem, hcur', -⟩ := hsim.stepCall_cons hpair hsize hrest
      cases hcur.symm.trans hcur'
      have hops := hsim.ops_eq hpair hspine
      obtain ⟨a', hlift', hst, -⟩ := h.lift (hops ▸ hsim.threaded) hpair hsize hid (hops ▸ hmem)
      cases hlift.symm.trans hlift'
      rw [stackOps_push hpair hid]
      exact hst
  | pop _ hcalls _ _ hunlift =>
    have hframes := hsim.frames hpair hspine
    rw [hcalls] at h hframes
    cases hframes with
    | cons _ hid _ _ _ =>
      rw [stackOps_push hpair hid] at h
      cases h with
      | cons h _ _ _ _ hunlift' =>
        cases hunlift.symm.trans hunlift'
        exact h

/-- What is known of every pass. -/
theorem sim_of_reachable (hpair : Paired entries n) (hsize : entries.length < NONE)
    (hstart : Search.start model entries = .ok (.inl s₀))
    (hreach : (checkSingle debug model).Reachable s₀ s) :
    ∃ cfg, Sim entries n debug s cfg ∧
      (searchProblem model entries).OnSpine ⟨[], model.init⟩ cfg ∧
      Stacked entries n debug s₀.arena (stackOps entries s.calls) s.arena := by
  have hsim : Sim entries n debug s₀ _ := hpair.sim_start hsize hstart
  -- the lifts in force are those of the stack, at every pass
  refine hreach.invariant (I := fun s => ∃ cfg, Sim entries n debug s cfg ∧
    (searchProblem model entries).OnSpine ⟨[], model.init⟩ cfg ∧
    Stacked entries n debug s₀.arena (stackOps entries s.calls) s.arena) ?_ ?_
  · have hspine := Problem.onSpine_start (searchProblem model entries) ⟨[], model.init⟩
    refine ⟨_, hsim, hspine, ?_⟩
    rw [← hsim.ops_eq hpair hspine]
    exact .nil
  · rintro s _ s' ⟨cfg, hsim, hspine, hst⟩ - hs
    have hpass := checkSingle_step.1 hs
    obtain ⟨cfg', hstep, hsim'⟩ := hsim.pass hpair hsize hpass
    exact ⟨cfg', hsim', hspine.step hstep, hst.pass hsim hpair hsize hspine hpass⟩

omit [BEq State] in
/-- The arena is the first one with the operations of the stack lifted, in
the order in which they were. -/
theorem Stacked.foldlM (h : Stacked entries n debug a₀ (stackOps entries calls) a)
    (hpair : Paired entries n) (hframes : Frames model entries n calls σ) :
    calls.reverse.foldlM (fun a frame => a.lift debug frame.nodeRef) a₀ = .ok a := by
  induction hframes generalizing a with
  | nil =>
    cases h
    rfl
  | cons _ hid _ _ _ ih =>
    rw [stackOps_push hpair hid] at h
    cases h with
    | cons h _ _ _ hlift _ =>
      rw [List.reverse_cons, List.foldlM_append, ih h, Result.ok_bind, List.foldlM_cons, hlift]
      rfl

/-- **What the stack says of a pass**: the frames lead to the state, and
the bitset and the arena are those of their operations. -/
structure OnStack (debug : Bool) (model : Model State Input Output)
    (entries : List (Entry Input Output)) (n : ℕ) (s₀ s : Search State Input Output) : Prop where
  frames : Frames model entries n s.calls s.state
  bits : s.linearized.Holds n (stackOps entries s.calls)
  lifted : s.calls.reverse.foldlM (fun a frame => a.lift debug frame.nodeRef) s₀.arena =
    .ok s.arena

/-- It says so of every pass, -/
theorem onStack_of_reachable (hpair : Paired entries n) (hsize : entries.length < NONE)
    (hstart : Search.start model entries = .ok (.inl s₀))
    (hreach : (checkSingle debug model).Reachable s₀ s) : OnStack debug model entries n s₀ s := by
  obtain ⟨cfg, hsim, hspine, hst⟩ := sim_of_reachable hpair hsize hstart hreach
  have hframes := hsim.frames hpair hspine
  exact ⟨hframes, hsim.ops_eq hpair hspine ▸ hsim.bits, hst.foldlM hpair hframes⟩

/-- It holds every operation where the loop returns true, -/
theorem mem_stackOps_of_true (hpair : Paired entries n) (hsize : entries.length < NONE)
    (hstart : Search.start model entries = .ok (.inl s₀))
    (hreach : (checkSingle debug model).Reachable s₀ s)
    (hend : s.step debug model = .ok (.inr true)) (hid : id < n) :
    id ∈ stackOps entries s.calls := by
  obtain ⟨cfg, hsim, hspine, -⟩ := sim_of_reachable hpair hsize hstart hreach
  rw [← hsim.ops_eq hpair hspine]
  rcases hsim.step model hpair hsize with ⟨t, _, ht, -⟩ | ⟨-, hgoal⟩ | ⟨ht, -⟩
  · cases hend.symm.trans ht
  · exact hpair.live_eq_nil_iff.1 hgoal id hid
  · cases hend.symm.trans ht

omit [BEq State] in
/-- **and leaves nothing open**: the stack fixes the configuration. -/
theorem OnStack.unique (h : OnStack debug model entries n s₀ s)
    (h' : OnStack debug model entries n s₀ t) (hpair : Paired entries n)
    (hcalls : t.calls.map CallFrame.nodeRef = s.calls.map CallFrame.nodeRef) :
    t.arena = s.arena ∧ t.linearized = s.linearized ∧ t.state = s.state := by
  have hops : stackOps entries t.calls = stackOps entries s.calls := by
    have hmap := congrArg (List.map fun r => idAt entries (r - 1)) hcalls
    rwa [List.map_map, List.map_map] at hmap
  have hlift : ∀ calls : List (CallFrame State),
      calls.reverse.foldlM (fun a frame => a.lift debug frame.nodeRef) s₀.arena =
        (calls.map CallFrame.nodeRef).reverse.foldlM (NodeArena.lift · debug ·) s₀.arena := by
    intro calls
    rw [← List.map_reverse, List.foldlM_map]
  refine ⟨?_, h'.bits.ext h.bits fun i => by rw [hops], ?_⟩
  · refine Except.ok.inj (h'.lifted.symm.trans (Eq.trans ?_ h.lifted))
    rw [hlift, hlift, hcalls]
  · have hrun := h'.frames.run hpair
    rw [opsOf, hops, ← opsOf, h.frames.run hpair] at hrun
    exact (Option.some.inj hrun).symm

/-! ## Pops -/

/-- A pass from above a stack leaves that stack where it is. -/
theorem Search.calls_of_step (hs : s.step debug model = .ok (.inl s')) (hne : above ≠ [])
    (hcalls : s.calls = above ++ calls) : ∃ above, s'.calls = above ++ calls := by
  cases pass_of_step hs with
  | skip => exact ⟨above, hcalls⟩
  | push => exact ⟨_ :: above, by rw [hcalls, List.cons_append]⟩
  | pop _ hcalls' =>
    cases above with
    | nil => exact absurd rfl hne
    | cons f above =>
      rw [hcalls] at hcalls'
      exact ⟨above, (List.cons.inj hcalls').2.symm⟩

/-- **A pop leaves the stack that the matching push found.** -/
theorem Search.calls_of_return (hpush : t.Lifts debug model u)
    (hreach : (checkSingle debug model).Reach (fun v _ => t.calls.length < v.calls.length) u s)
    (hlen : s.calls.length = t.calls.length) : s.calls = t.calls := by
  -- whatever happens above it, the stack of the push stays below
  have hinv : ∃ above, s.calls = above ++ t.calls := by
    refine hreach.invariant (I := fun v => ∃ above, v.calls = above ++ t.calls) ?_ ?_
    · obtain ⟨hs, hgrow⟩ := hpush
      cases pass_of_step hs with
      | skip => exact ⟨[], rfl⟩
      | push => exact ⟨[_], rfl⟩
      | pop _ hcalls =>
        simp only [hcalls, List.length_cons] at hgrow
        omega
    · rintro v _ w ⟨above, hv⟩ hlt hw
      refine calls_of_step (checkSingle_step.1 hw) ?_ hv
      rintro rfl
      rw [hv] at hlt
      exact absurd hlt (Nat.lt_irrefl _)
  obtain ⟨above, habove⟩ := hinv
  rw [habove, List.length_append] at hlen
  obtain rfl : above = [] := List.length_eq_zero_iff.1 (by omega)
  exact habove

/-! ## The configuration -/

/-- **The search configuration is a function of the backtrack stack.** The
operations of the frames are distinct, the model takes them through the
states saved to the current one, the bitset holds them and the arena is
the first one with them lifted, and each was one that no operation left
preceded. So two passes with one stack have one configuration, what comes
back from above a push is what the push found, and where the loop returns
true the stack is a linearization. -/
theorem search_of_stack (debug : Bool) (model : Model State Input Output)
    (entries : List (Entry Input Output)) (n : ℕ) (hpair : Paired entries n)
    (hsize : entries.length < 2 ^ 32 - 1) (s₀ s : Search State Input Output)
    (hstart : Search.start model entries = .ok (.inl s₀))
    (hreach : (checkSingle debug model).Reachable s₀ s) :
    (opsOf entries s.calls).Nodup ∧
    run (applyOp model entries) model.init (opsOf entries s.calls) = some s.state ∧
    (∀ i, s.linearized.has i = decide (i ∈ opsOf entries s.calls)) ∧
    s.calls.reverse.foldlM (fun a frame => a.lift debug frame.nodeRef) s₀.arena = .ok s.arena ∧
    (∀ above frame below, s.calls = above ++ frame :: below →
      run (applyOp model entries) model.init (opsOf entries below) = some frame.state ∧
      ∀ y < n, y ∉ opsOf entries below →
        ¬ Precedes entries y (idAt entries (frame.nodeRef - 1))) ∧
    (∀ t, (checkSingle debug model).Reachable s₀ t →
      t.calls.map CallFrame.nodeRef = s.calls.map CallFrame.nodeRef →
      t.arena = s.arena ∧ t.linearized = s.linearized ∧ t.state = s.state) ∧
    (∀ t u, (checkSingle debug model).Reachable s₀ t → t.Lifts debug model u →
      (checkSingle debug model).Reach (fun v _ => t.calls.length < v.calls.length) u s →
      s.calls.length = t.calls.length →
      s.calls = t.calls ∧ s.arena = t.arena ∧ s.linearized = t.linearized ∧ s.state = t.state) ∧
    (s.step debug model = .ok (.inr true) →
      (opsOf entries s.calls).Perm (List.range n) ∧
      Respects (Precedes entries) (opsOf entries s.calls) ∧
      Accepts (applyOp model entries) model.init (opsOf entries s.calls)) := by
  have h : OnStack debug model entries n s₀ s := onStack_of_reachable hpair hsize hstart hreach
  have hrun := h.frames.run hpair
  have hnodup : (opsOf entries s.calls).Nodup := List.nodup_reverse.2 (h.frames.nodup hpair)
  refine ⟨hnodup, hrun, fun i => ?_, h.lifted, fun above frame below hcalls => ?_,
    fun t ht hcalls => h.unique (onStack_of_reachable hpair hsize hstart ht) hpair hcalls,
    fun t u ht hpush hback hlen => ?_, fun hend => ?_⟩
  · rw [h.bits.has, decide_eq_decide, mem_opsOf]
  · obtain ⟨hbelow, hmin⟩ := h.frames.of_append hpair hcalls
    exact ⟨hbelow.run hpair, hmin⟩
  · have hcalls := Search.calls_of_return hpush hback hlen
    have ht' : OnStack debug model entries n s₀ t := onStack_of_reachable hpair hsize hstart ht
    exact ⟨hcalls, ht'.unique h hpair (congrArg _ hcalls)⟩
  · refine ⟨(List.perm_ext_iff_of_nodup hnodup List.nodup_range).2 fun i => ?_,
      h.frames.respects hpair, Option.isSome_of_eq_some hrun⟩
    rw [mem_opsOf, List.mem_range]
    exact ⟨h.frames.lt hpair i, mem_stackOps_of_true hpair hsize hstart hreach hend⟩

/-- Six passes into the search of the two writes. -/
theorem search_of_stack_sameWrites : ∃ s, sameWritesSearch = some s ∧
    run (applyOp RegisterModel (makeEntries sameWrites)) 0
      (opsOf (makeEntries sameWrites) s.calls) = some s.state ∧
    ∀ i, s.linearized.has i = decide (i ∈ opsOf (makeEntries sameWrites) s.calls) := by
  obtain ⟨s, hs⟩ := Option.isSome_iff_exists.1 (by decide +kernel : sameWritesSearch.isSome = true)
  obtain ⟨s₀, hstart, hreach⟩ := sameWritesSearch_reachable hs
  obtain ⟨-, hrun, hhas, -⟩ := search_of_stack true RegisterModel (makeEntries sameWrites) 3
    makeEntries_arranged.paired (by decide) s₀ s hstart hreach
  exact ⟨s, hs, hrun, hhas⟩

end Porcupine
