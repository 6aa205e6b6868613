import Porcupine.Common.Visits
import Porcupine.Search.Order
import Porcupine.Search.Pruning
import Porcupine.Search.Stack
/-!
# The frontier is exact

The loop never computes which operations may come next: it calls
`model.step` on what the cursor comes to, descends, and resumes after the
node it has relinked. A visit of a node (`Search.Visit`) collects these
calls. All of them are from the node's state and on candidates, each pass
goes on as the model replies to its call and reads nothing else of the
model, and a visit that ends has made the call of every candidate once
(`frontier_exact`).
-/

namespace Porcupine

open Linearization Backtrack Transition

variable {State Input Output : Type} [BEq State]

/-- **A visit of a search node**, from the locals with which the loop comes
to it, with the calls of `model.step` made at the node so far, each with
the state it is made from. -/
inductive Search.Visit (debug : Bool) (model : Model State Input Output)
    (s₀ : Search State Input Output) :
    List (State × ℕ × Input × Output) → Search State Input Output → Prop
  /-- The loop has come to the node. -/
  | enter : Visit debug model s₀ [] s₀
  /-- A pass at the node. -/
  | call {log : List (State × ℕ × Input × Output)} {s s' : Search State Input Output}
      {call : ℕ × Input × Output} : Visit debug model s₀ log s →
      s.calls.length = s₀.calls.length → s.stepCall = .ok (some call) →
      s.step debug model = .ok (.inl s') → Visit debug model s₀ (log ++ [(s.state, call)]) s'
  /-- A pass further down. -/
  | deeper {log : List (State × ℕ × Input × Output)} {s s' : Search State Input Output} :
      Visit debug model s₀ log s → s₀.calls.length < s.calls.length →
      s.step debug model = .ok (.inl s') → Visit debug model s₀ log s'

/-- The loop comes to a node: it starts, or it has lifted an operation. -/
def Search.Enters (debug : Bool) (model : Model State Input Output)
    (entries : List (Entry Input Output)) (s : Search State Input Output) : Prop :=
  Search.start model entries = .ok (.inl s) ∨
    ∃ s₀ t, Search.start model entries = .ok (.inl s₀) ∧
      (checkSingle debug model).Reachable s₀ t ∧ t.Lifts debug model s

/-- The loop leaves the node it came to with `s₀`: it pops the node's
frame, or returns false. -/
def Search.Leaves (debug : Bool) (model : Model State Input Output)
    (s₀ s : Search State Input Output) : Prop :=
  (∃ s', s.step debug model = .ok (.inl s') ∧ s'.calls.length < s₀.calls.length) ∨
    s.step debug model = .ok (.inr false)

variable {debug : Bool} {model : Model State Input Output} {entries : List (Entry Input Output)}
variable {n : ℕ} {s s₀ s' : Search State Input Output} {cfg cfg₀ : Config (Prefix State) ℕ}
variable {log : List (State × ℕ × Input × Output)}

/-- **Every pass is in a visit of each node on the stack**, the node it is
at included. -/
theorem exists_visit (hstart : Search.start model entries = .ok (.inl s₀))
    (hreach : (checkSingle debug model).Reachable s₀ s) : ∀ k ≤ s.calls.length,
      ∃ (t : Search State Input Output) (log : _), t.Enters debug model entries ∧
        t.Visit debug model log s ∧ t.calls.length = k := by
  have hzero : s₀.calls = [] := by
    unfold Search.start at hstart
    split at hstart
    · cases hstart
    · obtain ⟨arena, -, hstart⟩ := Result.bind_eq_ok.1 hstart
      obtain ⟨cursor, -, hstart⟩ := Result.bind_eq_ok.1 hstart
      cases hstart
      rfl
  induction hreach with
  | refl =>
    intro k hk
    rw [hzero, List.length_nil, Nat.le_zero] at hk
    exact ⟨s₀, [], Or.inl hstart, .enter, by rw [hk, hzero, List.length_nil]⟩
  | @tail s s' _ hreach _ hs ih =>
    intro k hk
    have hstep := checkSingle_step.1 hs
    -- at the node or above it the visits go on; a push starts one more
    have go : ∀ call, s.stepCall = .ok (some call) → k ≤ s.calls.length →
        ∃ (t : Search State Input Output) (log : _), t.Enters debug model entries ∧
          t.Visit debug model log s' ∧ t.calls.length = k := by
      intro call hcall hle
      obtain ⟨t, log, henter, hvisit, hlen⟩ := ih k hle
      rcases Nat.lt_or_eq_of_le hle with hlt | heq
      · exact ⟨t, log, henter, hvisit.deeper (by omega) hstep, hlen⟩
      · exact ⟨t, _, henter, hvisit.call (by omega) hcall hstep, hlen⟩
    cases Search.pass_of_step hstep with
    | skip hcall => exact go _ hcall hk
    | push _ hcall _ _ _ =>
      rw [List.length_cons] at hk
      rcases Nat.lt_or_eq_of_le hk with hlt | heq
      · exact go _ hcall (by omega)
      · exact ⟨_, [], Or.inr ⟨s₀, s, hstart, hreach, hstep, rfl⟩, .enter, heq.symm⟩
    | pop _ hcalls _ _ _ =>
      have hlt : k < s.calls.length := by
        rw [hcalls, List.length_cons]
        exact Nat.lt_succ_of_le hk
      obtain ⟨t, log, henter, hvisit, hlen⟩ := ih k hlt.le
      exact ⟨t, log, henter, hvisit.deeper (by omega) hstep, hlen⟩

/-- **A visit of the loop is a visit of the search**, and what it calls
`model.step` with is the state of the node and what the entries say. -/
theorem Search.Visit.sim (h : s₀.Visit debug model log s) (hsim : Sim entries n debug s₀ cfg₀)
    (hpair : Paired entries n) (hsize : entries.length < NONE) :
    ∃ cfg, Sim entries n debug s cfg ∧
      (searchProblem model entries).Visit cfg₀ (log.map fun call => call.2.1) cfg ∧
      ∀ call ∈ log, call.1 = s₀.state ∧ opOf entries call.2.1 = some call.2.2 := by
  induction h with
  | enter => exact ⟨cfg₀, hsim, .enter, nofun⟩
  | @call log s s' call _ hlen hcall hs ih =>
    obtain ⟨cfg, hsim', hvisit, hlog⟩ := ih
    have hlen' : cfg.stack.length = cfg₀.stack.length := by
      rw [← hsim'.calls.length_eq, ← hsim.calls.length_eq, hlen]
    cases hrest : cfg.rest with
    | nil => cases hcall.symm.trans (hsim'.stepCall_nil hpair hsize hrest)
    | cons id rest =>
      obtain ⟨-, -, -, input, output, hop, hcall'⟩ := hsim'.stepCall_cons hpair hsize hrest
      cases hcall.symm.trans hcall'
      obtain ⟨cfg', hstep, hsim''⟩ := hsim'.pass hpair hsize hs
      -- back at the depth of the node, the search is at the node
      have hstate : s.state = s₀.state := by
        rw [hsim'.state, hsim.state, (hvisit.at_node hlen').1]
      refine ⟨cfg', hsim'', ?_, fun call hmem => ?_⟩
      · rw [List.map_append]
        exact hvisit.attempt hlen' hrest hstep
      · rcases List.mem_append.1 hmem with hmem | hmem
        · exact hlog call hmem
        · rw [List.mem_singleton.1 hmem]
          exact ⟨hstate, hop⟩
  | deeper _ hlen hs ih =>
    obtain ⟨cfg, hsim', hvisit, hlog⟩ := ih
    obtain ⟨cfg', hstep, hsim''⟩ := hsim'.pass hpair hsize hs
    refine ⟨cfg', hsim'', hvisit.deeper ?_ hstep, hlog⟩
    rwa [← hsim'.calls.length_eq, ← hsim.calls.length_eq]

/-- Where the loop comes to a node, all its candidates wait. -/
theorem Search.Enters.sim (h : s.Enters debug model entries) (hpair : Paired entries n)
    (hsize : entries.length < NONE) : ∃ cfg, Sim entries n debug s cfg ∧
      cfg.rest = (searchProblem model entries).candidates cfg.node := by
  rcases h with hstart | ⟨s₀, t, hstart, hreach, hlift⟩
  · exact ⟨_, hpair.sim_start hsize hstart, rfl⟩
  · obtain ⟨cfg, hsim, -⟩ := sim_of_reachable hpair hsize hstart hreach
    obtain ⟨cfg', hsim', -, -, hrest⟩ := hsim.lifts hpair hsize hlift
    exact ⟨cfg', hsim', hrest⟩

/-- **A visit that ends has tried every candidate**, once and in order. -/
theorem Search.Visit.complete (h : s₀.Visit debug model log s)
    (henter : s₀.Enters debug model entries) (hleave : s₀.Leaves debug model s)
    (hpair : Paired entries n) (hsize : entries.length < NONE) :
    ∃ cfg₀, Sim entries n debug s₀ cfg₀ ∧
      log.map (fun call => call.2.1) = (searchProblem model entries).candidates cfg₀.node ∧
      ∀ call ∈ log, call.1 = s₀.state ∧ opOf entries call.2.1 = some call.2.2 := by
  obtain ⟨cfg₀, hsim, hrest₀⟩ := henter.sim hpair hsize
  obtain ⟨cfg, hsim', hvisit, hlog⟩ := h.sim hsim hpair hsize
  refine ⟨cfg₀, hsim, ?_, hlog⟩
  rw [← hrest₀]
  -- by a pop of the node's frame, or from the root
  rcases hleave with ⟨s', hs, hlen⟩ | hfalse
  · obtain ⟨cfg', hstep, hsim''⟩ := hsim'.pass hpair hsize hs
    refine hvisit.complete_of_step hstep ?_
    rwa [← hsim''.calls.length_eq, ← hsim.calls.length_eq]
  · rcases hsim'.step model hpair hsize with ⟨t, _, ht, -⟩ | ⟨ht, -⟩ | ⟨-, hrest, hstack, -⟩
    · cases hfalse.symm.trans ht
    · cases hfalse.symm.trans ht
    · refine hvisit.complete ?_ hrest
      rw [hstack]
      exact Nat.zero_le _

/-- No operation of the history outside the set returns before the
operation is called. -/
def MayComeNext (history : List (Operation Input Output)) (linearized : Bitset) (id : ℕ)
    (x : Operation Input Output) : Prop :=
  linearized.has id = false ∧ ∀ j y, history[j]? = some y → linearized.has j = false →
    ¬ y.returnTime < x.call

omit [BEq State] in
/-- **The candidates at a node**, in terms of the history. -/
theorem Sim.mem_candidates {history : List (Operation Input Output)}
    (h : Sim entries n debug s cfg) (hrep : Represents entries history) {id : ℕ}
    {x : Operation Input Output} (hx : history[id]? = some x) :
    id ∈ frontier entries (live entries cfg.node.ops) ↔ MayComeNext history s.linearized id x := by
  have hid : id < history.length := (List.getElem?_eq_some_iff.1 hx).1
  simp only [hrep.paired.mem_frontier, MayComeNext, h.bits.has, decide_eq_false_iff_not, hid,
    true_and]
  refine and_congr_right fun _ => ⟨fun hmin j y hy hj => ?_, fun hmin j hj hmem => ?_⟩
  · have hprec := hmin j (List.getElem?_eq_some_iff.1 hy).1 hj
    rwa [hrep.precedes j id y x hy hx] at hprec
  · have hy : history[j]? = some history[j] := List.getElem?_eq_getElem hj
    rw [hrep.precedes j id _ x hy hx]
    exact hmin j _ hy hmem

/-- **The candidate frontier is exact.** The loop calls `model.step` only
on operations that may come next. Every pass is in a visit of the node it
is at, and a visit that ends has called `model.step` on every operation
that may come next there, from the state of the node, once. The calls
collected are those the passes make: a pass with a call goes on as the
model replies to it, whichever model is asked, and no pass depends on the
model elsewhere. -/
theorem frontier_exact (debug : Bool) (model : Model State Input Output)
    (history : List (Operation Input Output)) (hsize : history.length ≤ 2 ^ 31 - 1) :
    (∀ s₀ s id input output, Search.start model (makeEntries history) = .ok (.inl s₀) →
      (checkSingle debug model).Reachable s₀ s → s.stepCall = .ok (some (id, input, output)) →
      ∃ x, history[id]? = some x ∧ x.io = (input, output) ∧
        MayComeNext history s.linearized id x) ∧
    (∀ s₀ s, Search.start model (makeEntries history) = .ok (.inl s₀) →
      (checkSingle debug model).Reachable s₀ s → ∃ (t : Search State Input Output) (log : _),
        t.Enters debug model (makeEntries history) ∧ t.Visit debug model log s ∧
        t.calls.length = s.calls.length) ∧
    (∀ (s₀ s : Search State Input Output) (log : List (State × ℕ × Input × Output)),
      s₀.Enters debug model (makeEntries history) → s₀.Visit debug model log s →
      s₀.Leaves debug model s →
      (log.map fun call => call.2.1).Nodup ∧ (∀ call ∈ log, call.1 = s₀.state) ∧
      ∀ id x, history[id]? = some x →
        ((s₀.state, id, x.io) ∈ log ↔ MayComeNext history s₀.linearized id x)) ∧
    (∀ (s₀ s : Search State Input Output) (log : List (State × ℕ × Input × Output)) id input output,
      s₀.Enters debug model (makeEntries history) → s₀.Visit debug model log s →
      s.stepCall = .ok (some (id, input, output)) → ∀ model' : Model State Input Output, ∃ s',
        s.step debug model' = .ok (.inl s') ∧
        s.OnReply debug id (model'.step s.state input output) s') ∧
    ∀ (s : Search State Input Output) (model' : Model State Input Output),
      (∀ id input output, s.stepCall = .ok (some (id, input, output)) →
        model'.step s.state input output = model.step s.state input output) →
      s.step debug model' = s.step debug model := by
  have hrep : Represents (makeEntries history) history := makeEntries_arranged.represents
  have hlt : (makeEntries history).length < NONE := by
    rw [hrep.paired.length_eq, NONE]
    omega
  refine ⟨fun s₀ s id input output hstart hreach hcall => ?_,
    fun s₀ s hstart hreach => exists_visit hstart hreach _ le_rfl,
    fun s₀ s log henter hvisit hleave => ?_,
    fun s₀ s log id input output henter hvisit hcall model' => ?_,
    fun s model' hagree => Search.step_congr hagree⟩
  · obtain ⟨cfg, hsim, hspine, -⟩ := sim_of_reachable hrep.paired hlt hstart hreach
    cases hrest : cfg.rest with
    | nil => cases hcall.symm.trans (hsim.stepCall_nil hrep.paired hlt hrest)
    | cons c rest =>
      obtain ⟨hid, -, -, input', output', hop, hcall'⟩ := hsim.stepCall_cons hrep.paired hlt hrest
      cases hcall.symm.trans hcall'
      have hx : history[id]? = some history[id] := List.getElem?_eq_getElem hid
      refine ⟨history[id], hx, ?_, (hsim.mem_candidates hrep hx).1 ?_⟩
      · exact Option.some.inj ((hrep.opOf id _ hx).symm.trans hop)
      · exact hspine.rest id (hrest ▸ List.mem_cons_self)
  · obtain ⟨cfg₀, hsim, hlog, hcalls⟩ := hvisit.complete henter hleave hrep.paired hlt
    refine ⟨?_, fun call hmem => (hcalls call hmem).1, fun id x hx => ?_⟩
    · rw [hlog]
      exact (hrep.paired.frontier_sorted cfg₀.node.ops).imp fun hlt he => by
        rw [he] at hlt
        exact Nat.lt_irrefl _ hlt
    · rw [← hsim.mem_candidates hrep hx]
      -- the log names the candidates, each with what the entries say of it
      have hlog' : log.map (fun call => call.2.1) =
          frontier (makeEntries history) (live (makeEntries history) cfg₀.node.ops) := hlog
      rw [← hlog', List.mem_map]
      constructor
      · intro hmem
        exact ⟨_, hmem, rfl⟩
      · rintro ⟨call, hmem, rfl⟩
        obtain ⟨hstate, hop⟩ := hcalls call hmem
        obtain ⟨state, id, io⟩ := call
        obtain rfl : state = s₀.state := hstate
        have hio : io = x.io := Option.some.inj (hop.symm.trans (hrep.opOf id x hx))
        exact hio ▸ hmem
  · obtain ⟨cfg₀, hsim₀, -⟩ := henter.sim hrep.paired hlt
    obtain ⟨cfg, hsim, -⟩ := hvisit.sim hsim₀ hrep.paired hlt
    exact hsim.onReply hrep.paired hlt hcall model'

/-- A visit of a node with `depth` frames below it, followed for a number
of passes. -/
def Search.follow (debug : Bool) (model : Model State Input Output) (depth : ℕ) :
    ℕ → Search State Input Output →
      Option (List (State × ℕ × Input × Output) × Search State Input Output)
  | 0, s => some ([], s)
  | passes + 1, s =>
    match s.step debug model with
    | .ok (.inl s') =>
      if depth < s.calls.length then follow debug model depth passes s'
      else if s.calls.length = depth then
        match s.stepCall with
        | .ok (some call) =>
          (follow debug model depth passes s').map fun r => ((s.state, call) :: r.1, r.2)
        | _ => none
      else none
    | _ => none

theorem Search.Visit.of_follow {k : ℕ} {log' : List (State × ℕ × Input × Output)}
    (h : s₀.Visit debug model log s)
    (hf : Search.follow debug model s₀.calls.length k s = some (log', s')) :
    s₀.Visit debug model (log ++ log') s' := by
  induction k generalizing s log log' with
  | zero =>
    cases hf
    rwa [List.append_nil]
  | succ k ih =>
    unfold Search.follow at hf
    split at hf
    · next t hs =>
      split_ifs at hf with hdeep hat
      · exact ih (h.deeper hdeep hs) hf
      · -- a pass at the node, which is logged
        split at hf
        · next call hcall =>
          obtain ⟨⟨log'', t'⟩, hrest, heq⟩ := Option.map_eq_some_iff.1 hf
          cases heq
          have hvisit := ih (h.call hat hcall hs) hrest
          rwa [List.append_assoc, List.singleton_append] at hvisit
        · cases hf
    · cases hf

/-- The search of two overlapping writes of one value and a read of
another: from the start for eight passes, and from the first lift for
three. -/
theorem sameWrites_visits : ∃ root child s t : Search ℤ RegisterInput ℤ,
    Search.start RegisterModel (makeEntries sameWrites) = .ok (.inl root) ∧
    root.Lifts true RegisterModel child ∧
    root.Visit true RegisterModel
      [(root.state, 0, ⟨true, 1⟩, 0), (root.state, 1, ⟨true, 1⟩, 0)] s ∧
    root.Leaves true RegisterModel s ∧
    child.Visit true RegisterModel [(child.state, 1, ⟨true, 1⟩, 0)] t ∧
    child.Leaves true RegisterModel t ∧
    child.stepCall = .ok (some (1, ⟨true, 1⟩, 0)) := by
  have hrun : ((Search.start RegisterModel (makeEntries sameWrites)).toOption.bind
      Sum.getLeft?).any (fun root => ((checkSingle true RegisterModel).step () root).any fun child =>
        decide (root.calls.length = 0 ∧ child.calls.length = 1 ∧
          child.stepCall = .ok (some (1, ⟨true, 1⟩, 0))) &&
        (Search.follow true RegisterModel 0 8 root).any (fun r =>
          decide (r.1 = [(root.state, 0, ⟨true, 1⟩, 0), (root.state, 1, ⟨true, 1⟩, 0)] ∧
            (checkSingle true RegisterModel).result r.2 = some false)) &&
        (Search.follow true RegisterModel 1 3 child).any fun r =>
          ((checkSingle true RegisterModel).step () r.2).any fun t =>
            decide (r.1 = [(child.state, 1, ⟨true, 1⟩, 0)] ∧ t.calls.length < 1)) = true := by
    decide +kernel
  obtain ⟨root, hstart, hrun⟩ := (Option.any_eq_true _ _).1 hrun
  obtain ⟨child, hchild, hrun⟩ := (Option.any_eq_true _ _).1 hrun
  obtain ⟨hrun, hdown⟩ := Bool.and_eq_true_iff.1 hrun
  obtain ⟨hlocals, hroot⟩ := Bool.and_eq_true_iff.1 hrun
  obtain ⟨hzero, hone, hcall⟩ := of_decide_eq_true hlocals
  obtain ⟨⟨log, s⟩, hs, hroot⟩ := (Option.any_eq_true _ _).1 hroot
  obtain ⟨rfl, hend⟩ := of_decide_eq_true hroot
  obtain ⟨⟨log, t⟩, ht, hdown⟩ := (Option.any_eq_true _ _).1 hdown
  obtain ⟨t', ht', hpop⟩ := (Option.any_eq_true _ _).1 hdown
  obtain ⟨rfl, hlt⟩ := of_decide_eq_true hpop
  refine ⟨root, child, s, t, start_eq_some.1 hstart, ⟨checkSingle_step.1 hchild, by omega⟩, ?_,
    Or.inr (checkSingle_result.1 hend), ?_, Or.inl ⟨t', checkSingle_step.1 ht', by omega⟩, hcall⟩
  · exact Search.Visit.enter.of_follow (by rwa [hzero])
  · exact Search.Visit.enter.of_follow (by rwa [hone])

/-- Both writes are tried at the root, and the second again after the
first. The read has to wait. -/
theorem frontier_exact_sameWrites : ∃ root child s t : Search ℤ RegisterInput ℤ,
    (root.Enters true RegisterModel (makeEntries sameWrites) ∧
      root.Visit true RegisterModel
        [(root.state, 0, ⟨true, 1⟩, 0), (root.state, 1, ⟨true, 1⟩, 0)] s ∧
      root.Leaves true RegisterModel s) ∧
    (child.Enters true RegisterModel (makeEntries sameWrites) ∧
      child.Visit true RegisterModel [(child.state, 1, ⟨true, 1⟩, 0)] t ∧
      child.Leaves true RegisterModel t) ∧
    MayComeNext sameWrites root.linearized 1 ⟨1, ⟨true, 1⟩, 0, 0, 1⟩ ∧
    ¬ MayComeNext sameWrites root.linearized 2 ⟨2, ⟨false, 0⟩, 2, 5, 3⟩ ∧
    MayComeNext sameWrites child.linearized 1 ⟨1, ⟨true, 1⟩, 0, 0, 1⟩ ∧
    ¬ MayComeNext sameWrites child.linearized 0 ⟨0, ⟨true, 1⟩, 0, 0, 1⟩ ∧
    ∃ s', child.step true RegisterModel = .ok (.inl s') ∧ child.OnReply true 1 (some 1) s' := by
  obtain ⟨root, child, s, t, hstart, hlift, hroot, hrootEnd, hchild, hchildEnd, hcall⟩ :=
    sameWrites_visits
  have henter : root.Enters true RegisterModel (makeEntries sameWrites) := Or.inl hstart
  have hdown : child.Enters true RegisterModel (makeEntries sameWrites) :=
    Or.inr ⟨root, root, hstart, .refl, hlift⟩
  obtain ⟨-, -, hexact, hreply, -⟩ := frontier_exact true RegisterModel sameWrites (by decide)
  obtain ⟨-, -, hmemRoot⟩ := hexact root s _ henter hroot hrootEnd
  obtain ⟨-, -, hmemChild⟩ := hexact child t _ hdown hchild hchildEnd
  obtain ⟨s', hs', hgoes⟩ := hreply child child [] 1 ⟨true, 1⟩ 0 hdown .enter hcall RegisterModel
  refine ⟨root, child, s, t, ⟨henter, hroot, hrootEnd⟩, ⟨hdown, hchild, hchildEnd⟩,
    (hmemRoot 1 _ rfl).1 (by simp [Operation.io]), fun h => ?_,
    (hmemChild 1 _ rfl).1 (by simp [Operation.io]), fun h => ?_, s', hs', hgoes⟩
  · have hmem := (hmemRoot 2 _ rfl).2 h
    simp at hmem
  · have hmem := (hmemChild 0 _ rfl).2 h
    simp at hmem

end Porcupine
