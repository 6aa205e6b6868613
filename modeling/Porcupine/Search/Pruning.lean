import Porcupine.Entries.Operations
import Porcupine.Model.Fixtures
import Porcupine.Search.Passes
import Porcupine.Search.Verdict
/-!
# The cache prunes dead ends only

A cache entry is pushed when the search goes down, long before its subtree
is known to hold no solution. At every pass of the loop it is nevertheless
either a prefix of the backtrack stack or closed for good, and a probe
hits only on entries of the second kind.
-/

namespace Porcupine

open Linearization Backtrack

variable {State Input Output : Type}

/-- **What the loop is about to probe the cache for**: the operation whose
call it is at, the key, and the successor state, provided the model accepts
the operation. -/
def Search.probe (model : Model State Input Output) (s : Search State Input Output) :
    Result (Option (ℕ × BitVec 64 × State)) :=
  match s.cursor with
  | none => return none
  | some idx => do
    match ← s.arena.matchOf idx with
    | none => return none
    | some retRef =>
      let node ← readAt s.arena.nodes idx
      let ret ← readAt s.arena.nodes retRef
      let (input, output) ← callAndReturn node ret
      match model.step s.state input output with
      | none => return none
      | some nextState => return some (node.id, ← s.linearized.hashWithBit node.id, nextState)

/-- The operations of a backtrack stack, the latest first. -/
def stackOps (entries : List (Entry Input Output)) (calls : List (CallFrame State)) : List ℕ :=
  calls.map fun frame => idAt entries (frame.nodeRef - 1)

/-- **The prefixes of a backtrack stack**, the longest first, each with the
state it leads to. -/
def stackPrefixes (entries : List (Entry Input Output)) : State → List (CallFrame State) →
    List (Prefix State)
  | s, [] => [⟨[], s⟩]
  | s, frame :: calls =>
    ⟨stackOps entries (frame :: calls), s⟩ :: stackPrefixes entries frame.state calls

variable {model : Model State Input Output} {entries : List (Entry Input Output)}
variable {a : NodeArena Input Output} {n id op : ℕ} {debug : Bool} {q root : Prefix State}
variable {calls : List (CallFrame State)} {stack : List (Frame (Prefix State) ℕ)}

theorem mem_stackPrefixes_self (s : State) (calls : List (CallFrame State)) :
    ⟨stackOps entries calls, s⟩ ∈ stackPrefixes entries s calls := by
  cases calls with
  | nil => exact List.mem_cons_self
  | cons frame calls => exact List.mem_cons_self

variable [BEq State] {s : Search State Input Output} {cfg : Config (Prefix State) ℕ}
variable {key : BitVec 64} {t : State}

/-- The frames of the stack are the operations of the prefix. -/
theorem Unwinds.ops_eq (h : Unwinds entries n debug a q calls stack) (hpair : Paired entries n)
    (hspine : (searchProblem model entries).Spine root q stack) (hroot : root.ops = []) :
    q.ops = stackOps entries calls := by
  induction h with
  | nil => exact (congrArg Prefix.ops hspine).trans hroot
  | cons hops hid _ _ _ _ _ _ ih =>
    rw [hops, ih hspine.2.2, stackOps, stackOps, List.map_cons, Nat.add_sub_cancel,
      hpair.idAt_posOf hid true]

/-- The node being explored is the whole stack. -/
theorem Unwinds.mem_stackPrefixes (h : Unwinds entries n debug a q calls stack)
    (hpair : Paired entries n) (hspine : (searchProblem model entries).Spine root q stack)
    (hroot : root.ops = []) : q ∈ stackPrefixes entries q.state calls := by
  have hmem : ⟨stackOps entries calls, q.state⟩ ∈ stackPrefixes entries q.state calls :=
    mem_stackPrefixes_self q.state calls
  rwa [← h.ops_eq hpair hspine hroot] at hmem

/-- **The nodes above it are the shorter prefixes of the stack.** -/
theorem Unwinds.frame_mem_stackPrefixes (h : Unwinds entries n debug a q calls stack)
    (hpair : Paired entries n) (hspine : (searchProblem model entries).Spine root q stack)
    (hroot : root.ops = []) : ∀ f ∈ stack, f.node ∈ stackPrefixes entries q.state calls := by
  induction h with
  | nil => nofun
  | cons hops hid _ _ _ _ _ hunw ih =>
    intro f hf
    rcases List.mem_cons.1 hf with rfl | hf
    · exact List.mem_cons_of_mem _ (hunw.mem_stackPrefixes hpair hspine.2.2 hroot)
    · exact List.mem_cons_of_mem _ (ih hspine.2.2 f hf)

/-- **A cache entry is a prefix of the stack, or closed for good.** -/
theorem Sim.cached (h : Sim entries n debug s cfg) (hpair : Paired entries n)
    (hfirst : CallFirst entries n) (hspine : (searchProblem model entries).OnSpine root cfg)
    (hroot : root.ops = []) (hexp : (searchProblem model entries).Explored cfg)
    {e : CacheEntry State} (he : e ∈ s.cache key) :
    (∃ q ∈ stackPrefixes entries s.state s.calls,
      (∀ i, e.linearized.has i = decide (i ∈ q.ops)) ∧ e.state = q.state) ∨
    ¬ Linearizable (Precedes entries) (applyOp model entries) e.state
      ((List.range n).filter fun i => !e.linearized.has i) := by
  obtain ⟨m, hm, hholds, hstate⟩ := h.cache key e he
  rcases hexp.memo m hm with hnode | hframe | hdead
  · refine Or.inl ⟨m, ?_, hholds.has, hstate⟩
    rw [hnode, h.state]
    exact h.calls.mem_stackPrefixes hpair hspine.spine hroot
  · obtain ⟨f, hf, rfl⟩ := hframe
    refine Or.inl ⟨f.node, ?_, hholds.has, hstate⟩
    rw [h.state]
    exact h.calls.frame_mem_stackPrefixes hpair hspine.spine hroot f hf
  · refine Or.inr ?_
    rw [hpair.solvable_iff hfirst, ← hstate] at hdead
    have hleft : (List.range n).filter (fun i => !e.linearized.has i) = remaining n m.ops := by
      simp [remaining, hholds.has]
    rwa [hleft]

omit [BEq State] in
/-- A probe is for what the pass's call of `model.step` leads to. -/
theorem Search.stepCall_of_probe (hprobe : s.probe model = .ok (some (op, key, t))) :
    ∃ input output, s.stepCall = .ok (some (op, input, output)) ∧
      model.step s.state input output = some t := by
  unfold probe at hprobe
  cases hcur : s.cursor with
  | none =>
    rw [hcur] at hprobe
    cases hprobe
  | some idx =>
    -- the probe reads what the call of `model.step` reads, and then the cache
    simp only [hcur] at hprobe
    obtain ⟨m, hm, hprobe⟩ := Result.bind_eq_ok.1 hprobe
    cases m with
    | none => cases hprobe
    | some retRef =>
      obtain ⟨node, hnode, hprobe⟩ := Result.bind_eq_ok.1 hprobe
      obtain ⟨ret, hret, hprobe⟩ := Result.bind_eq_ok.1 hprobe
      obtain ⟨⟨input, output⟩, hio, hprobe⟩ := Result.bind_eq_ok.1 hprobe
      simp only at hprobe
      split at hprobe
      · cases hprobe
      · next t' hstep =>
        obtain ⟨key', -, hkey⟩ := Result.bind_eq_ok.1 hprobe
        cases hkey
        refine ⟨input, output, ?_, hstep⟩
        simp only [stepCall, hcur, hm, hnode, hret, hio, Result.ok_bind, Result.pure_eq]

omit [BEq State] in
/-- A probe is of a candidate of the current node. -/
theorem Sim.probe_eq (h : Sim entries n debug s cfg) (hpair : Paired entries n)
    (hsize : entries.length < NONE) (hprobe : s.probe model = .ok (some (op, key, t))) :
    op < n ∧ op ∈ cfg.rest ∧ applyOp model entries cfg.node.state op = some t := by
  obtain ⟨input, output, hcall, hstep⟩ := Search.stepCall_of_probe hprobe
  cases hrest : cfg.rest with
  | nil => cases hcall.symm.trans (h.stepCall_nil hpair hsize hrest)
  | cons id rest =>
    obtain ⟨hid, -, -, input', output', hop, hcall'⟩ := h.stepCall_cons hpair hsize hrest
    cases hcall.symm.trans hcall'
    refine ⟨hid, List.mem_cons_self, ?_⟩
    rw [applyOp, hop, ← h.state]
    exact hstep

/-- **A probe that hits prunes no solution.** -/
theorem Sim.hit (h : Sim entries n debug s cfg) (hpair : Paired entries n)
    (hfirst : CallFirst entries n) (hsize : entries.length < NONE)
    (hspine : (searchProblem model entries).OnSpine root cfg) (hlaw : model.Lawful)
    (hexp : (searchProblem model entries).Explored cfg) (hprobe : s.probe model = .ok (some (op, key, t)))
    (hhit : cacheContainsWithBit s.cache key s.linearized op t = true) :
    ¬ Linearizable (Precedes entries) (applyOp model entries) t
      ((List.range n).filter fun i => !s.linearized.has i && i ≠ op) := by
  obtain ⟨hid, hrest, happly⟩ := h.probe_eq hpair hsize hprobe
  obtain ⟨m, hm, hsame⟩ := h.probe model hid hhit
  have hdead : ¬ (searchProblem model entries).Solvable ⟨op :: cfg.node.ops, t⟩ :=
    hexp.prune hpair.ranked (fun _ _ hsame hsol => solvable_of_same hlaw hsame hsol) hspine
      (hspine.rest op hrest) (expand_eq_some.2 ⟨t, happly, rfl⟩) hm hsame
  rw [hpair.solvable_iff hfirst] at hdead
  have hleft : (List.range n).filter (fun i => !s.linearized.has i && i ≠ op) =
      remaining n (op :: cfg.node.ops) := by
    refine List.filter_congr fun i _ => ?_
    simp [h.bits.has, Bool.and_comm]
  rwa [hleft]

/-- **Cache pruning never discards a solution.** At every pass of the loop
a cache entry is a prefix of the stack or has no accepted completion, and
where a probe hits there is no way on from the successor it was for. -/
theorem cache_prunes_dead_ends (debug : Bool) (model : Model State Input Output)
    (hlaw : model.Lawful) (entries : List (Entry Input Output)) (n : ℕ) (hpair : Paired entries n)
    (hfirst : CallFirst entries n) (hsize : entries.length < 2 ^ 32 - 1)
    (s₀ s : Search State Input Output) (hstart : Search.start model entries = .ok (.inl s₀))
    (hreach : (checkSingle debug model).Reachable s₀ s) :
    (∀ op key t, s.probe model = .ok (some (op, key, t)) →
      cacheContainsWithBit s.cache key s.linearized op t = true →
      ¬ Linearizable (Precedes entries) (applyOp model entries) t
        ((List.range n).filter fun i => !s.linearized.has i && i ≠ op)) ∧
    ∀ key, ∀ e ∈ s.cache key,
      (∃ q ∈ stackPrefixes entries s.state s.calls,
        (∀ i, e.linearized.has i = decide (i ∈ q.ops)) ∧ e.state = q.state) ∨
      ¬ Linearizable (Precedes entries) (applyOp model entries) e.state
        ((List.range n).filter fun i => !e.linearized.has i) := by
  have hsim₀ : Sim entries n debug s₀ _ := hpair.sim_start hsize hstart
  obtain ⟨cfg, hsim, hspine, hexp⟩ := hsim₀.reachable hpair hsize (Problem.onSpine_start _ _) hlaw
    (Problem.explored_start _ _) hreach
  exact ⟨fun op key t hprobe hhit => hsim.hit hpair hfirst hsize hspine hlaw hexp hprobe hhit,
    fun key e he => hsim.cached hpair hfirst hspine rfl hexp he⟩

/-- Two writes of one value at once, and a read of another. -/
def sameWrites : List (Operation RegisterInput ℤ) :=
  [⟨0, ⟨true, 1⟩, 0, 0, 1⟩, ⟨1, ⟨true, 1⟩, 0, 0, 1⟩, ⟨2, ⟨false, 0⟩, 2, 5, 3⟩]

/-- The search of these after six passes, the second write taken first. -/
def sameWritesSearch : Option (Search ℤ RegisterInput ℤ) :=
  match Search.start RegisterModel (makeEntries sameWrites) with
  | .ok (.inl s) => (checkSingle true RegisterModel).runs (fun _ _ => true) (.replicate 6 ()) s
  | _ => none

theorem sameWritesSearch_reachable {s : Search ℤ RegisterInput ℤ} (hs : sameWritesSearch = some s) :
    ∃ s₀, Search.start RegisterModel (makeEntries sameWrites) = .ok (.inl s₀) ∧
      (checkSingle true RegisterModel).Reachable s₀ s := by
  unfold sameWritesSearch at hs
  split at hs
  · next s₀ hstart => exact ⟨s₀, hstart, .of_runs (fun _ _ _ => trivial) hs⟩
  · cases hs

/-- It probes for the first write, and hits. -/
theorem cache_prunes_sameWrites : ∃ s, sameWritesSearch = some s ∧
    s.probe RegisterModel = .ok (some (0, 3, 1)) ∧
    cacheContainsWithBit s.cache 3 s.linearized 0 1 = true ∧
    ¬ Linearizable (Precedes (makeEntries sameWrites))
      (applyOp RegisterModel (makeEntries sameWrites)) 1
      ((List.range 3).filter fun i => !s.linearized.has i && i ≠ 0) := by
  have hhits : (sameWritesSearch.bind fun s => (s.probe RegisterModel).toOption.map fun p =>
      (p, cacheContainsWithBit s.cache 3 s.linearized 0 1)) = some (some (0, 3, 1), true) := by
    decide +kernel
  obtain ⟨s, hs, hmap⟩ := Option.bind_eq_some_iff.1 hhits
  obtain ⟨p, hp, hpair⟩ := Option.map_eq_some_iff.1 hmap
  obtain ⟨rfl, hhit⟩ := Prod.mk.inj hpair
  have hprobe : s.probe RegisterModel = .ok (some (0, 3, 1)) := Result.toOption_eq_some.1 hp
  obtain ⟨s₀, hstart, hreach⟩ := sameWritesSearch_reachable hs
  have hrep : Represents (makeEntries sameWrites) sameWrites := makeEntries_arranged.represents
  exact ⟨s, hs, hprobe, hhit, (cache_prunes_dead_ends true RegisterModel
    RegisterModel.lawful_of_lawfulBEq _ 3 hrep.paired (hrep.callFirst (by decide)) (by decide) s₀ s
    hstart hreach).1 0 3 1 hprobe hhit⟩

end Porcupine
