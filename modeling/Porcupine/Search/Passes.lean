import Porcupine.Search.Simulation
/-!
# What one pass of the loop does

A pass reads the model at one operation only, the one whose call the
cursor stands at (`Search.stepCall`, `Search.step_congr`), and that is the
first candidate still waiting at the node (`Sim.stepCall_cons`). It goes
on as the reply says (`Search.OnReply`, `Search.onReply_of_step`). A pass
that goes on moves the cursor past the candidate, pushes it or pops the
latest frame (`Search.pass_of_step`).
-/

namespace Porcupine

open Backtrack

variable {State Input Output : Type}

/-- **The call of `model.step` that a pass makes**, if it makes one: the
operation, and the input and output it passes. -/
def Search.stepCall (s : Search State Input Output) : Result (Option (ℕ × Input × Output)) :=
  match s.cursor with
  | none => return none
  | some idx => do
    match ← s.arena.matchOf idx with
    | none => return none
    | some retRef =>
      let node ← readAt s.arena.nodes idx
      let ret ← readAt s.arena.nodes retRef
      let (input, output) ← callAndReturn node ret
      return some (node.id, input, output)

/-- The cursor is at the call node of the operation. -/
theorem Search.stepCall_eq_some {s : Search State Input Output} {id : ℕ} {input : Input}
    {output : Output} (h : s.stepCall = .ok (some (id, input, output))) :
    ∃ idx retRef node ret, s.cursor = some idx ∧ s.arena.matchOf idx = .ok (some retRef) ∧
      readAt s.arena.nodes idx = .ok node ∧ readAt s.arena.nodes retRef = .ok ret ∧
      callAndReturn node ret = .ok (input, output) ∧ node.id = id := by
  unfold stepCall at h
  cases hcur : s.cursor with
  | none =>
    rw [hcur] at h
    cases h
  | some idx =>
    simp only [hcur] at h
    obtain ⟨m, hm, h⟩ := Result.bind_eq_ok.1 h
    cases m with
    | none => cases h
    | some retRef =>
      obtain ⟨node, hnode, h⟩ := Result.bind_eq_ok.1 h
      obtain ⟨ret, hret, h⟩ := Result.bind_eq_ok.1 h
      obtain ⟨io, hio, h⟩ := Result.bind_eq_ok.1 h
      cases h
      exact ⟨idx, retRef, node, ret, rfl, hm, hnode, hret, hio, rfl⟩

variable [BEq State]

/-- **Where a pass goes on the reply of `model.step`** to its call, `id`
being the operation it is at. -/
inductive Search.OnReply (debug : Bool) (s : Search State Input Output) (id : ℕ) :
    Option State → Search State Input Output → Prop
  /-- The model refuses: on to the next node. -/
  | refused {idx : ℕ} {cursor : Option ℕ} : s.cursor = some idx →
      s.arena.nextOf idx = .ok cursor → OnReply debug s id none { s with cursor }
  /-- The cache has the successor already. -/
  | cached {idx : ℕ} {key : BitVec 64} {state : State} {cursor : Option ℕ} :
      s.cursor = some idx → s.linearized.hashWithBit id = .ok key →
      cacheContainsWithBit s.cache key s.linearized id state = true →
      s.arena.nextOf idx = .ok cursor → OnReply debug s id (some state) { s with cursor }
  /-- The operation is linearized, and the search goes down. -/
  | pushed {idx : ℕ} {key : BitVec 64} {state : State} {linearized : Bitset}
      {arena : NodeArena Input Output} {cursor : Option ℕ} :
      s.cursor = some idx → s.linearized.hashWithBit id = .ok key →
      cacheContainsWithBit s.cache key s.linearized id state = false →
      s.linearized.set id = .ok linearized → s.arena.lift debug idx = .ok arena →
      arena.headNext = .ok cursor →
      OnReply debug s id (some state) ⟨arena, linearized, s.cache.push key ⟨linearized, state⟩,
        ⟨idx, s.state⟩ :: s.calls, state, cursor⟩

/-- **A pass that goes on.** -/
inductive Search.Pass (debug : Bool) (model : Model State Input Output)
    (s : Search State Input Output) : Search State Input Output → Prop
  /-- The model refuses the operation, or the cache answers. -/
  | skip {cursor : Option ℕ} {call : ℕ × Input × Output} :
      s.stepCall = .ok (some call) → Pass debug model s { s with cursor }
  /-- The operation is linearized. -/
  | push {idx id : ℕ} {input : Input} {output : Output} {state : State} {linearized : Bitset}
      {arena : NodeArena Input Output} {cache : Cache State} {cursor : Option ℕ} :
      s.cursor = some idx → s.stepCall = .ok (some (id, input, output)) →
      model.step s.state input output = some state → s.linearized.set id = .ok linearized →
      s.arena.lift debug idx = .ok arena →
      Pass debug model s ⟨arena, linearized, cache, ⟨idx, s.state⟩ :: s.calls, state, cursor⟩
  /-- The latest frame is undone. -/
  | pop {frame : CallFrame State} {calls : List (CallFrame State)} {node : Node Input Output}
      {linearized : Bitset} {arena : NodeArena Input Output} {cursor : Option ℕ} :
      s.stepCall = .ok none → s.calls = frame :: calls →
      s.arena.nodes[frame.nodeRef]? = some node → s.linearized.clear node.id = .ok linearized →
      s.arena.unlift debug frame.nodeRef = .ok arena →
      Pass debug model s { s with arena, linearized, calls, cursor, state := frame.state }

variable {debug : Bool} {model model' : Model State Input Output}
variable {s s' : Search State Input Output}

/-- **A pass that makes a call goes on as `model.step` replies.** -/
theorem Search.onReply_of_step {id : ℕ} {input : Input} {output : Output}
    {result : Search State Input Output ⊕ Bool}
    (hcall : s.stepCall = .ok (some (id, input, output)))
    (h : s.step debug model = .ok result) :
    ∃ s', result = .inl s' ∧ s.OnReply debug id (model.step s.state input output) s' := by
  obtain ⟨idx, retRef, node, ret, hcur, hm, hnode, hret, hio, rfl⟩ := stepCall_eq_some hcall
  unfold step at h
  simp only [hcur, hm, Result.ok_bind] at h
  obtain ⟨s', ht, h⟩ := Result.bind_eq_ok.1 h
  cases h
  refine ⟨s', rfl, ?_⟩
  unfold tryCall at ht
  simp only [hnode, hret, hio, Result.ok_bind] at ht
  cases hreply : model.step s.state input output with
  | none =>
    rw [hreply] at ht
    obtain ⟨cursor, hnext, ht⟩ := Result.bind_eq_ok.1 ht
    cases ht
    exact .refused hcur hnext
  | some state =>
    simp only [hreply] at ht
    obtain ⟨key, hkey, ht⟩ := Result.bind_eq_ok.1 ht
    cases hcache : cacheContainsWithBit s.cache key s.linearized node.id state with
    | true =>
      rw [hcache] at ht
      obtain ⟨cursor, hnext, ht⟩ := Result.bind_eq_ok.1 ht
      cases ht
      exact .cached hcur hkey hcache hnext
    | false =>
      rw [hcache] at ht
      obtain ⟨linearized, hlin, ht⟩ := Result.bind_eq_ok.1 ht
      obtain ⟨_, hlin', ht⟩ := Result.bind_eq_ok.1 ht
      -- the entry and the locals hold the same set
      cases hlin.symm.trans hlin'
      obtain ⟨arena, hlift, ht⟩ := Result.bind_eq_ok.1 ht
      obtain ⟨cursor, hhead, ht⟩ := Result.bind_eq_ok.1 ht
      cases ht
      exact .pushed hcur hkey hcache hlin hlift hhead

/-- **A pass that goes on is one of these.** -/
theorem Search.pass_of_step (h : s.step debug model = .ok (.inl s')) : s.Pass debug model s' := by
  have hpass := h
  unfold step at h
  cases hcur : s.cursor with
  | none =>
    rw [hcur] at h
    cases h
  | some idx =>
    simp only [hcur] at h
    obtain ⟨m, hm, h⟩ := Result.bind_eq_ok.1 h
    cases m with
    | none =>
      have hcall : s.stepCall = .ok none := by
        simp only [stepCall, hcur, hm, Result.ok_bind, Result.pure_eq]
      simp only [backtrack] at h
      split at h
      · cases h
      · next frame calls hcalls =>
        obtain ⟨node, hnode, h⟩ := Result.bind_eq_ok.1 h
        obtain ⟨linearized, hlin, h⟩ := Result.bind_eq_ok.1 h
        obtain ⟨arena, harena, h⟩ := Result.bind_eq_ok.1 h
        obtain ⟨cursor, -, h⟩ := Result.bind_eq_ok.1 h
        cases h
        exact .pop hcall hcalls (readAt_eq_ok.1 hnode) hlin harena
    | some retRef =>
      obtain ⟨t, ht, -⟩ := Result.bind_eq_ok.1 h
      obtain ⟨node, hnode, ht⟩ := Result.bind_eq_ok.1 ht
      obtain ⟨ret, hret, ht⟩ := Result.bind_eq_ok.1 ht
      obtain ⟨⟨input, output⟩, hio, -⟩ := Result.bind_eq_ok.1 ht
      have hcall : s.stepCall = .ok (some (node.id, input, output)) := by
        simp only [stepCall, hcur, hm, hnode, hret, hio, Result.ok_bind, Result.pure_eq]
      obtain ⟨_, heq, hreply⟩ := onReply_of_step hcall hpass
      cases heq
      -- the model accepts and the cache misses, and otherwise the cursor moves on
      generalize hr : model.step s.state input output = reply at hreply
      cases hreply with
      | refused => exact .skip hcall
      | cached => exact .skip hcall
      | pushed hcur _ _ hlin hlift _ => exact .push hcur hcall hr hlin hlift

/-- **A pass reads the model at its call of `model.step` only.** -/
theorem Search.step_congr (h : ∀ id input output, s.stepCall = .ok (some (id, input, output)) →
    model'.step s.state input output = model.step s.state input output) :
    s.step debug model' = s.step debug model := by
  unfold step
  cases hcur : s.cursor with
  | none => rfl
  | some idx =>
    simp only [stepCall, hcur] at h
    cases hm : s.arena.matchOf idx with
    | error p => simp only [hm, Result.error_bind]
    | ok m =>
      -- only a call node leads to the model
      cases m with
      | none => simp only [hm, Result.ok_bind]
      | some retRef =>
        simp only [hm, Result.ok_bind] at h ⊢
        unfold tryCall
        cases hnode : readAt s.arena.nodes idx with
        | error p => rfl
        | ok node =>
          cases hret : readAt s.arena.nodes retRef with
          | error p => rfl
          | ok ret =>
            cases hio : callAndReturn node ret with
            | error p => simp only [Result.ok_bind, hio, Result.error_bind]
            | ok io =>
              obtain ⟨input, output⟩ := io
              have hstep : model'.step s.state input output = model.step s.state input output :=
                h node.id input output (by simp only [hnode, hret, hio, Result.ok_bind, Result.pure_eq])
              simp only [Result.ok_bind, hio, hstep]

/-! ## The call is of the first candidate waiting -/

section Simulation

variable {entries : List (Entry Input Output)} {n id : ℕ} {rest : List ℕ}
variable {cfg : Config (Prefix State) ℕ}

/-- **Whichever model a pass asks, it goes on as that model replies.** -/
theorem Sim.onReply (h : Sim entries n debug s cfg) (hpair : Paired entries n)
    (hsize : entries.length < NONE) {input : Input} {output : Output}
    (hcall : s.stepCall = .ok (some (id, input, output))) (model : Model State Input Output) :
    ∃ s', s.step debug model = .ok (.inl s') ∧
      s.OnReply debug id (model.step s.state input output) s' := by
  have hok : ∃ result, s.step debug model = .ok result := by
    rcases h.step model hpair hsize with ⟨_, _, hs, -⟩ | ⟨hs, -⟩ | ⟨hs, -⟩
    · exact ⟨_, hs⟩
    · exact ⟨_, hs⟩
    · exact ⟨_, hs⟩
  obtain ⟨result, hs⟩ := hok
  obtain ⟨s', rfl, hreply⟩ := Search.onReply_of_step hcall hs
  exact ⟨s', hs, hreply⟩

omit [BEq State]

/-- Where no candidate waits, a pass makes no call of `model.step`, -/
theorem Sim.stepCall_nil (h : Sim entries n debug s cfg) (hpair : Paired entries n)
    (hsize : entries.length < NONE) (hrest : cfg.rest = []) : s.stepCall = .ok none := by
  obtain ⟨post, hwalk, hcur, hfr⟩ := h.cursor
  cases post with
  | nil =>
    have hnone : s.cursor = none := hcur
    simp only [Search.stepCall, hnone, Result.pure_eq]
  | cons p post =>
    have hsome : s.cursor = some (p + 1) := hcur
    have hm := h.threaded.built.matchOf hpair hsize (mem_live.1 hwalk.mem).1
    cases hcall : isCallAt entries p with
    | true =>
      rw [hrest, frontier, List.takeWhile_cons_of_pos hcall] at hfr
      cases hfr
    | false =>
      rw [hcall] at hm
      simp only [Search.stepCall, hsome, hm, Result.ok_bind, Result.pure_eq, Bool.false_eq_true,
        if_false]

/-- **and otherwise it makes one, on the first of them.** -/
theorem Sim.stepCall_cons (h : Sim entries n debug s cfg) (hpair : Paired entries n)
    (hsize : entries.length < NONE) (hrest : cfg.rest = id :: rest) :
    id < n ∧ id ∉ cfg.node.ops ∧ s.cursor = some (callPos entries id + 1) ∧
      ∃ input output, opOf entries id = some (input, output) ∧
        s.stepCall = .ok (some (id, input, output)) := by
  obtain ⟨post, hwalk, hcur, hfr⟩ := h.cursor
  rw [hrest] at hfr
  cases post with
  | nil => cases hfr
  | cons p post =>
    have hsome : s.cursor = some (p + 1) := hcur
    cases hcall : isCallAt entries p with
    | false =>
      rw [frontier, List.takeWhile_cons_of_neg (by simp [hcall])] at hfr
      cases hfr
    | true =>
      obtain ⟨id', node, ret, input, output, hid, hmem, hpos, hfr', hm, hnode, hnid, hret, hio, hop⟩ :=
        h.threaded.at_call hpair hsize hwalk hcall
      obtain ⟨rfl, -⟩ := List.cons.inj (hfr.trans hfr')
      refine ⟨hid, hmem, by rw [hsome, hpos], input, output, hop, ?_⟩
      simp only [Search.stepCall, hsome, hm, Result.ok_bind, readAt_eq_ok.2 hnode,
        readAt_eq_ok.2 hret, hio, hnid, Result.pure_eq]

end Simulation

end Porcupine
