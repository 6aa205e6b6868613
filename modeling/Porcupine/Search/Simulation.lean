import Porcupine.Model.Search
import Porcupine.Search.Arena
import Porcupine.Search.Bitset
import Porcupine.Search.Graph
/-!
# The loop walks the graph

`Sim` relates the locals of the loop to a configuration of the search on
`searchProblem`. The arena threads the live list of the current prefix,
the cursor stands at the first entry not walked yet and everything walked
is a call, each frame of the stack unlifts to the arena it was pushed in,
and each cache entry is a memo node. One pass of the loop is one step of
the search, or ends it where the search ends (`Sim.step`); no pass panics.
Nothing here assumes anything of the model or of its `==`.
-/

namespace Porcupine

open Backtrack

variable {State Input Output : Type} {entries : List (Entry Input Output)}
variable {a a' : NodeArena Input Output} {n id p : ℕ} {debug : Bool}
variable {q : Prefix State}

/-- The call node of an operation, the return node it matches, and what
they hold. -/
theorem Built.call_node (h : Built entries a) (hpair : Paired entries n) (hid : id < n) :
    ∃ node ret input output, a.nodes[callPos entries id + 1]? = some node ∧
      node.id = id ∧ node.matchIdx = retPos entries id + 1 ∧
      a.nodes[retPos entries id + 1]? = some ret ∧
      Search.callAndReturn node ret = .ok (input, output) ∧
      opOf entries id = some (input, output) := by
  obtain ⟨t, input, hc⟩ := hpair.call_entry hid
  obtain ⟨t', output, hr⟩ := hpair.ret_entry hid
  obtain ⟨node, hnode, hv, hnid, hm⟩ := h.node _ _ hc
  obtain ⟨ret, hret, hv', -, -⟩ := h.node _ _ hr
  refine ⟨node, ret, input, output, hnode, hnid, hm, hret, ?_, by simp only [opOf, hc, hr]⟩
  simp [Search.callAndReturn, Search.unwrapValue, hv, hv']

/-- `match_idx` tells calls from returns. -/
theorem Built.matchOf (h : Built entries a) (hpair : Paired entries n)
    (hsize : entries.length < NONE) (hp : p < entries.length) :
    a.matchOf (p + 1) = .ok (if isCallAt entries p then
      some (retPos entries (idAt entries p) + 1) else none) := by
  have he := List.getElem?_eq_getElem hp
  obtain ⟨node, hnode, -, -, hm⟩ := h.node p _ he
  obtain ⟨-, hid⟩ := hpair.posOf_tag he
  have hret : retPos entries entries[p].id < entries.length := hpair.posOf_lt hid false
  rw [NodeArena.matchOf, readAt_eq_ok.2 hnode, Result.ok_bind, Result.pure_eq, hm, isCallAt_eq he,
    idAt_eq he, matchAt]
  split
  · rw [NodeArena.ofRaw_of_ne (by omega)]
  · rfl

/-! ## One candidate -/

section Candidate

variable [BEq State] {model : Model State Input Output} {s : Search State Input Output}
variable {t : State} {key : BitVec 64} {retRef : ℕ} {node ret : Node Input Output}
variable {input : Input} {output : Output}

/-- The model refuses the operation. -/
theorem Search.tryCall_refused (hn : s.arena.nodes[p]? = some node)
    (hr : s.arena.nodes[retRef]? = some ret) (hio : callAndReturn node ret = .ok (input, output))
    (hstep : model.step s.state input output = none) :
    s.tryCall debug model p retRef = .ok { s with cursor := s.arena.links.next p } := by
  have hlt := (List.getElem?_eq_some_iff.1 hn).1
  simp only [tryCall, readAt_eq_ok.2 hn, readAt_eq_ok.2 hr, hio, Result.ok_bind, hstep,
    NodeArena.nextOf_eq hlt, Result.pure_eq]

/-- The cache answers. -/
theorem Search.tryCall_cached (hn : s.arena.nodes[p]? = some node)
    (hr : s.arena.nodes[retRef]? = some ret) (hio : callAndReturn node ret = .ok (input, output))
    (hstep : model.step s.state input output = some t)
    (hkey : s.linearized.hashWithBit node.id = .ok key)
    (hcache : cacheContainsWithBit s.cache key s.linearized node.id t = true) :
    s.tryCall debug model p retRef = .ok { s with cursor := s.arena.links.next p } := by
  have hlt := (List.getElem?_eq_some_iff.1 hn).1
  simp only [tryCall, readAt_eq_ok.2 hn, readAt_eq_ok.2 hr, hio, Result.ok_bind, hstep, hkey,
    hcache, NodeArena.nextOf_eq hlt, Result.pure_eq, Bool.not_true, Bool.false_eq_true, if_false]

/-- The operation is linearized. -/
theorem Search.tryCall_linearized {b : Bitset} (hn : s.arena.nodes[p]? = some node)
    (hr : s.arena.nodes[retRef]? = some ret) (hio : callAndReturn node ret = .ok (input, output))
    (hstep : model.step s.state input output = some t)
    (hkey : s.linearized.hashWithBit node.id = .ok key)
    (hcache : cacheContainsWithBit s.cache key s.linearized node.id t = false)
    (hset : s.linearized.set node.id = .ok b) (hlift : s.arena.lift debug p = .ok a)
    (hlen : 0 < a.nodes.length) :
    s.tryCall debug model p retRef = .ok
      { arena := a, linearized := b, cursor := a.links.next 0, state := t
        cache := s.cache.push key ⟨b, t⟩, calls := ⟨p, s.state⟩ :: s.calls } := by
  simp only [tryCall, readAt_eq_ok.2 hn, readAt_eq_ok.2 hr, hio, Result.ok_bind, hstep, hkey,
    hcache, hset, hlift, NodeArena.headNext_eq hlen, Result.pure_eq, Bool.not_false, if_true]

end Candidate

/-! ## The relation -/

/-- Each frame, from the top, undoes the latest operation of the prefix:
its arena threads the prefix below, in which the walk had come to that
operation's call. -/
inductive Unwinds (entries : List (Entry Input Output)) (n : ℕ) (debug : Bool) :
    NodeArena Input Output → Prefix State → List (CallFrame State) →
    List (Frame (Prefix State) ℕ) → Prop
  /-- The first prefix. -/
  | nil {a : NodeArena Input Output} {q : Prefix State} : Unwinds entries n debug a q [] []
  /-- One frame more. -/
  | cons {a a' : NodeArena Input Output} {q q' : Prefix State} {id : ℕ} {pre post : List ℕ}
      {calls : List (CallFrame State)} {stack : List (Frame (Prefix State) ℕ)} :
      q.ops = id :: q'.ops → id < n → id ∉ q'.ops →
      a.unlift debug (callPos entries id + 1) = .ok a' → Threaded entries q'.ops a' →
      live entries q'.ops = pre ++ callPos entries id :: post →
      (∀ p ∈ pre, isCallAt entries p = true) → Unwinds entries n debug a' q' calls stack →
      Unwinds entries n debug a q (⟨callPos entries id + 1, q'.state⟩ :: calls)
        (⟨q', frontier entries post⟩ :: stack)

theorem Unwinds.length_eq {calls : List (CallFrame State)} {stack : List (Frame (Prefix State) ℕ)}
    (h : Unwinds entries n debug a q calls stack) : calls.length = stack.length := by
  induction h with
  | nil => rfl
  | cons _ _ _ _ _ _ _ _ ih => rw [List.length_cons, List.length_cons, ih]

/-- The walk along the live list stands before `post`, having passed calls
only. -/
structure Walked (entries : List (Entry Input Output)) (ids post : List ℕ) : Prop where
  split : ∃ pre, live entries ids = pre ++ post ∧ ∀ p ∈ pre, isCallAt entries p = true

theorem Walked.start {ids : List ℕ} : Walked entries ids (live entries ids) :=
  ⟨[], rfl, by simp⟩

/-- The walk passes one more call. -/
theorem Walked.next {ids post : List ℕ} (h : Walked entries ids (p :: post))
    (hc : isCallAt entries p = true) : Walked entries ids post := by
  obtain ⟨pre, hlive, hpre⟩ := h.split
  refine ⟨pre ++ [p], by simp [hlive], fun x hx => ?_⟩
  rcases List.mem_append.1 hx with hx | hx
  · exact hpre x hx
  · exact List.mem_singleton.1 hx ▸ hc

theorem Walked.mem {ids post : List ℕ} (h : Walked entries ids (p :: post)) :
    p ∈ live entries ids := by
  obtain ⟨pre, hlive, -⟩ := h.split
  simp [hlive]

/-- What the walk comes to after an entry of the live list. -/
theorem Threaded.next (h : Threaded entries q.ops a) {pre post : List ℕ}
    (hlive : live entries q.ops = pre ++ p :: post) :
    a.links.next (p + 1) = post.head?.map (· + 1) := by
  have hchain := h.chain
  rw [hlive, List.map_append, List.map_cons] at hchain
  rw [hchain.append.next_eq, List.head?_map]

/-- **The walk is at a call**: it is the call of an operation still to be
linearized, the first candidate left, and the arena holds what the loop
reads there. -/
theorem Threaded.at_call (h : Threaded entries q.ops a) (hpair : Paired entries n)
    (hsize : entries.length < NONE) {post : List ℕ} (hwalk : Walked entries q.ops (p :: post))
    (hcall : isCallAt entries p = true) :
    ∃ id node ret input output, id < n ∧ id ∉ q.ops ∧ callPos entries id = p ∧
      frontier entries (p :: post) = id :: frontier entries post ∧
      a.matchOf (p + 1) = .ok (some (retPos entries id + 1)) ∧
      a.nodes[p + 1]? = some node ∧ node.id = id ∧
      a.nodes[retPos entries id + 1]? = some ret ∧
      Search.callAndReturn node ret = .ok (input, output) ∧
      opOf entries id = some (input, output) := by
  obtain ⟨hlt, hmem⟩ := mem_live.1 hwalk.mem
  obtain ⟨hpos, hid⟩ := hpair.posOf_idAt hlt
  rw [hcall] at hpos
  replace hpos : callPos entries (idAt entries p) = p := hpos
  have hm := h.built.matchOf hpair hsize hlt
  rw [if_pos hcall] at hm
  obtain ⟨node, ret, input, output, hnode, hnid, -, hret, hio, hop⟩ := h.built.call_node hpair hid
  rw [hpos] at hnode
  refine ⟨_, node, ret, input, output, hid, hmem, hpos, ?_, hm, hnode, hnid, hret, hio, hop⟩
  rw [frontier, List.takeWhile_cons_of_pos hcall, List.map_cons]
  rfl

/-- **The locals of the loop are a configuration of the search.** -/
structure Sim (entries : List (Entry Input Output)) (n : ℕ) (debug : Bool)
    (s : Search State Input Output) (cfg : Config (Prefix State) ℕ) : Prop where
  threaded : Threaded entries cfg.node.ops s.arena
  bits : s.linearized.Holds n cfg.node.ops
  state : s.state = cfg.node.state
  cursor : ∃ post, Walked entries cfg.node.ops post ∧ s.cursor = post.head?.map (· + 1) ∧
    cfg.rest = frontier entries post
  calls : Unwinds entries n debug s.arena cfg.node s.calls cfg.stack
  /-- A cache entry is a memo node. -/
  cache : ∀ key, ∀ e ∈ s.cache key, ∃ m ∈ cfg.memo, e.linearized.Holds n m.ops ∧
    e.state = m.state
  /-- A memo node is found in the cache, under its key. -/
  memo : ∀ m ∈ cfg.memo, ∃ e ∈ s.cache e.linearized.key, e.linearized.Holds n m.ops ∧
    e.state = m.state

section Step

variable [BEq State] {model : Model State Input Output} {s : Search State Input Output}
variable {cfg : Config (Prefix State) ℕ}

/-- A probe that hits found a memo node that answers, -/
theorem Sim.probe (h : Sim entries n debug s cfg) (model : Model State Input Output)
    {key : BitVec 64} {t : State} (hid : id < n)
    (hit : cacheContainsWithBit s.cache key s.linearized id t = true) :
    ∃ m ∈ cfg.memo, (searchProblem model entries).same m ⟨id :: cfg.node.ops, t⟩ := by
  obtain ⟨e, he, hprobe⟩ := List.any_eq_true.1 hit
  obtain ⟨hbits, heq⟩ := Bool.and_eq_true_iff.1 hprobe
  obtain ⟨m, hm, hholds, hstate⟩ := h.cache key e he
  exact ⟨m, hm, (h.bits.eqWithBit hholds hid).1 hbits, hstate ▸ heq⟩

/-- and one that misses found all there is: no memo node answers. -/
theorem Sim.probe_miss (h : Sim entries n debug s cfg) (model : Model State Input Output)
    {key : BitVec 64} {t : State} (hid : id < n) (hmem : id ∉ cfg.node.ops)
    (hkey : s.linearized.hashWithBit id = .ok key)
    (hmiss : cacheContainsWithBit s.cache key s.linearized id t = false) :
    ∀ m ∈ cfg.memo, ¬ (searchProblem model entries).same m ⟨id :: cfg.node.ops, t⟩ := by
  intro m hm hsame
  obtain ⟨e, he, hholds, hstate⟩ := h.memo m hm
  obtain ⟨c, -, hcids, hhash⟩ := h.bits.hashWithBit hid hmem
  obtain rfl : key = c.key := Except.ok.inj (hkey.symm.trans hhash)
  have hbits : s.linearized.eqWithBit id e.linearized = true :=
    (h.bits.eqWithBit hholds hid).2 hsame.1
  have hhit : cacheContainsWithBit s.cache c.key s.linearized id t = true := by
    refine List.any_eq_true.2 ⟨e, ?_, Bool.and_eq_true_iff.2 ⟨hbits, hstate ▸ hsame.2⟩⟩
    rwa [hcids.ext hholds hsame.1]
  rw [hhit] at hmiss
  cases hmiss

omit [BEq State] in
/-- What is pushed is a memo node, as the entries before it are, -/
theorem Sim.cache_push (h : Sim entries n debug s cfg) {b : Bitset} {q : Prefix State}
    (hbits : b.Holds n q.ops) (key : BitVec 64) :
    ∀ e ∈ s.cache.push b.key ⟨b, q.state⟩ key, ∃ m ∈ q :: cfg.memo,
      e.linearized.Holds n m.ops ∧ e.state = m.state := by
  intro e he
  have hold : e ∈ s.cache key → ∃ m ∈ q :: cfg.memo, e.linearized.Holds n m.ops ∧
      e.state = m.state := by
    intro he
    obtain ⟨m, hm, hholds⟩ := h.cache key e he
    exact ⟨m, List.mem_cons_of_mem _ hm, hholds⟩
  simp only [Cache.push, Function.update_apply] at he
  split at he
  · next hkey =>
    rcases List.mem_append.1 he with he | he
    · exact hold (hkey ▸ he)
    · cases List.mem_singleton.1 he
      exact ⟨q, List.mem_cons_self, hbits, rfl⟩
  · exact hold he

omit [BEq State] in
/-- and is found, as the memo nodes before it are. -/
theorem Sim.memo_push (h : Sim entries n debug s cfg) {b : Bitset} {q : Prefix State}
    (hbits : b.Holds n q.ops) :
    ∀ m ∈ q :: cfg.memo, ∃ e ∈ s.cache.push b.key ⟨b, q.state⟩ e.linearized.key,
      e.linearized.Holds n m.ops ∧ e.state = m.state := by
  intro m hm
  simp only [Cache.push, Function.update_apply]
  rcases List.mem_cons.1 hm with rfl | hm
  · exact ⟨⟨b, m.state⟩, by simp, hbits, rfl⟩
  · obtain ⟨e, he, hholds⟩ := h.memo m hm
    refine ⟨e, ?_, hholds⟩
    split
    · next hkey => exact List.mem_append_left _ (hkey ▸ he)
    · exact he

omit [BEq State] in
/-- **The search goes down** to where the operation is linearized. -/
theorem Sim.descend (h : Sim entries n debug s cfg) {b : Bitset} {t : State} {post : List ℕ}
    (hid : id < n) (hmem : id ∉ cfg.node.ops)
    (hwalk : Walked entries cfg.node.ops (callPos entries id :: post))
    (hbits : b.Holds n (id :: cfg.node.ops)) (hthread : Threaded entries (id :: cfg.node.ops) a')
    (hunlift : a'.unlift debug (callPos entries id + 1) = .ok s.arena) :
    Sim entries n debug
      { arena := a', linearized := b, cursor := a'.links.next 0, state := t
        cache := s.cache.push b.key ⟨b, t⟩
        calls := ⟨callPos entries id + 1, s.state⟩ :: s.calls }
      ⟨⟨id :: cfg.node.ops, t⟩, frontier entries (live entries (id :: cfg.node.ops)),
        ⟨cfg.node, frontier entries post⟩ :: cfg.stack,
        ⟨id :: cfg.node.ops, t⟩ :: cfg.memo⟩ where
  threaded := hthread
  bits := hbits
  state := rfl
  cursor := ⟨_, .start, by rw [hthread.chain.next_eq, List.head?_map], rfl⟩
  calls := by
    obtain ⟨pre, hlive, hpre⟩ := hwalk.split
    rw [h.state]
    exact .cons rfl hid hmem hunlift h.threaded hlive hpre h.calls
  cache := h.cache_push (q := ⟨id :: cfg.node.ops, t⟩) hbits
  memo := h.memo_push (q := ⟨id :: cfg.node.ops, t⟩) hbits

/-- **The walk is at a call**: the search tries a candidate. -/
theorem Sim.step_call (h : Sim entries n debug s cfg) (hpair : Paired entries n)
    (hsize : entries.length < NONE) {post : List ℕ}
    (hwalk : Walked entries cfg.node.ops (p :: post)) (hcur : s.cursor = some (p + 1))
    (hrest : cfg.rest = frontier entries (p :: post)) (hcall : isCallAt entries p = true) :
    ∃ s' cfg', s.step debug model = .ok (.inl s') ∧ (searchProblem model entries).Step cfg cfg' ∧
      Sim entries n debug s' cfg' := by
  obtain ⟨id, node, ret, input, output, hid, hmem, rfl, hfr, hm, hnode, hnid, hret, hio, hop⟩ :=
    h.threaded.at_call hpair hsize hwalk hcall
  rw [hfr] at hrest
  obtain ⟨pre, hlive, hpre⟩ := hwalk.split
  have hloop : s.step debug model =
      (s.tryCall debug model (callPos entries id + 1) (retPos entries id + 1)).map .inl := by
    simp only [Search.step, hcur, hm, Result.ok_bind]
    cases s.tryCall debug model (callPos entries id + 1) (retPos entries id + 1) <;> rfl
  obtain ⟨qn, rest, stack, memo⟩ := cfg
  subst hrest
  -- what a candidate that leads nowhere leaves behind
  have skip : Sim entries n debug { s with cursor := s.arena.links.next (callPos entries id + 1) }
      ⟨qn, frontier entries post, stack, memo⟩ :=
    ⟨h.threaded, h.bits, h.state, ⟨post, hwalk.next hcall, h.threaded.next hlive, rfl⟩, h.calls,
      h.cache, h.memo⟩
  have happly : applyOp model entries qn.state id = model.step s.state input output := by
    rw [applyOp, hop, h.state]
    rfl
  cases hstep : model.step s.state input output with
  | none =>
    refine ⟨_, _, ?_, .reject (c := id) ?_, skip⟩
    · rw [hloop, Search.tryCall_refused hnode hret hio hstep]
      rfl
    · rw [← Option.not_isSome_iff_eq_none]
      intro hsome
      obtain ⟨q', hq'⟩ := Option.isSome_iff_exists.1 hsome
      obtain ⟨t, ht, -⟩ := expand_eq_some.1 hq'
      rw [happly, hstep] at ht
      cases ht
  | some t =>
    have hexp : (searchProblem model entries).expand qn id = some ⟨id :: qn.ops, t⟩ :=
      expand_eq_some.2 ⟨t, happly.trans hstep, rfl⟩
    obtain ⟨b, hb, hbits, hkey⟩ := h.bits.hashWithBit hid hmem
    rw [← hnid] at hb hkey
    cases hhit : cacheContainsWithBit s.cache b.key s.linearized node.id t with
    | true =>
      obtain ⟨m, hmm, hsame⟩ := h.probe model hid (hnid ▸ hhit)
      refine ⟨_, _, ?_, .prune hexp hmm hsame, skip⟩
      rw [hloop, Search.tryCall_cached hnode hret hio hstep hkey hhit]
      rfl
    | false =>
      -- neither refused nor known: the operation is linearized
      obtain ⟨a', hlift, hthread, hunlift⟩ := h.threaded.lift hpair hsize hid hmem debug
      have hlen : 0 < a'.nodes.length := by
        rw [hthread.built.length]
        omega
      have hnew := h.probe_miss model hid hmem (hnid ▸ hkey) (hnid ▸ hhit)
      refine ⟨_, _, ?_, .descend hexp hnew, h.descend hid hmem hwalk hbits hthread hunlift⟩
      rw [hloop, Search.tryCall_linearized hnode hret hio hstep hkey hhit hb hlift hlen]
      rfl

/-- **The walk is at a return**: the search goes back up, or has failed. -/
theorem Sim.step_ret (h : Sim entries n debug s cfg) (hpair : Paired entries n)
    (hsize : entries.length < NONE) {post : List ℕ}
    (hwalk : Walked entries cfg.node.ops (p :: post)) (hcur : s.cursor = some (p + 1))
    (hrest : cfg.rest = frontier entries (p :: post)) (hcall : isCallAt entries p = false) :
    (∃ s' cfg', s.step debug model = .ok (.inl s') ∧ (searchProblem model entries).Step cfg cfg' ∧
      Sim entries n debug s' cfg') ∨
    (s.step debug model = .ok (.inr false) ∧ cfg.rest = [] ∧ cfg.stack = [] ∧
      ¬ (searchProblem model entries).goal cfg.node) := by
  have hm := h.threaded.built.matchOf hpair hsize (mem_live.1 hwalk.mem).1
  rw [if_neg (by simp [hcall])] at hm
  have hloop : s.step debug model = s.backtrack debug := by
    simp only [Search.step, hcur, hm, Result.ok_bind]
  have hgoal : ¬ (searchProblem model entries).goal cfg.node := by
    intro hnil
    have hmem := hwalk.mem
    rw [show live entries cfg.node.ops = [] from hnil] at hmem
    cases hmem
  have hrest' : cfg.rest = [] := by
    rw [hrest, frontier, List.takeWhile_cons_of_neg (by simp [hcall]), List.map_nil]
  obtain ⟨arena, linearized, cache, calls, state, cursor⟩ := s
  obtain ⟨qn, rest, stack, memo⟩ := cfg
  obtain ⟨hthr, hbits, hstate, hcursor, hcalls, hcache, hmemo⟩ := h
  simp only at hrest' hcalls hbits hthr
  subst hrest'
  -- the frame gives back the arena in which the walk had come to its call
  cases hcalls with
  | nil => exact Or.inr ⟨hloop, rfl, rfl, hgoal⟩
  | @cons _ a' _ q' id pre post' calls stack hops hid hmem hunlift hthread hlive hpre hunw =>
    obtain ⟨node, ret, input, output, hnode, hnid, -, -, -, -⟩ :=
      hthr.built.call_node hpair hid
    rw [hops] at hbits
    obtain ⟨b, hb, hbits'⟩ := hbits.clear hid hmem
    have hlt : callPos entries id + 1 < a'.nodes.length := by
      have hc : callPos entries id < entries.length := hpair.posOf_lt hid true
      rw [hthread.built.length]
      omega
    refine Or.inl ⟨⟨a', b, cache, calls, q'.state, a'.links.next (callPos entries id + 1)⟩,
      ⟨q', frontier entries post', stack, memo⟩, ?_, .backtrack hgoal, ?_⟩
    · rw [hloop]
      simp only [Search.backtrack, readAt_eq_ok.2 hnode, hnid, hb, hunlift,
        NodeArena.nextOf_eq hlt, Result.ok_bind, Result.pure_eq]
    · have hwalk' : Walked entries q'.ops (callPos entries id :: post') := ⟨pre, hlive, hpre⟩
      exact ⟨hthread, hbits', rfl, ⟨post', hwalk'.next (hpair.isCallAt_posOf hid true),
        hthread.next hlive, rfl⟩, hunw, hcache, hmemo⟩

/-- **One pass of the loop is one step of the search**, or ends it: with
true at a goal, with false where the search has failed. -/
theorem Sim.step (h : Sim entries n debug s cfg) (model : Model State Input Output)
    (hpair : Paired entries n) (hsize : entries.length < NONE) :
    (∃ s' cfg', s.step debug model = .ok (.inl s') ∧ (searchProblem model entries).Step cfg cfg' ∧
      Sim entries n debug s' cfg') ∨
    (s.step debug model = .ok (.inr true) ∧ (searchProblem model entries).goal cfg.node) ∨
    (s.step debug model = .ok (.inr false) ∧ cfg.rest = [] ∧ cfg.stack = [] ∧
      ¬ (searchProblem model entries).goal cfg.node) := by
  obtain ⟨post, hwalk, hcur, hrest⟩ := h.cursor
  cases post with
  | nil =>
    obtain ⟨pre, hlive, hpre⟩ := hwalk.split
    rw [List.append_nil] at hlive
    refine Or.inr (Or.inl ⟨?_, hpair.live_eq_nil_of_calls fun p hp => hpre p (hlive ▸ hp)⟩)
    have hnone : s.cursor = none := hcur
    simp only [Search.step, hnone, Result.pure_eq]
  | cons p post =>
    cases hcall : isCallAt entries p with
    | true => exact Or.inl (h.step_call hpair hsize hwalk hcur hrest hcall)
    | false =>
      rcases h.step_ret hpair hsize hwalk hcur hrest hcall with hgo | hend
      · exact Or.inl hgo
      · exact Or.inr (Or.inr hend)

/-- **The loop starts where the search does.** -/
theorem Paired.start_ok (hpair : Paired entries n) (hsize : entries.length < NONE)
    (hne : entries ≠ []) (debug : Bool) (model : Model State Input Output) :
    ∃ s, Search.start model entries = .ok (.inl s) ∧
      Sim entries n debug s ((searchProblem model entries).start ⟨[], model.init⟩) := by
  obtain ⟨a, ha, hthread⟩ := hpair.fromEntries_ok hsize
  have hlen : 0 < a.nodes.length := by
    rw [hthread.built.length]
    omega
  refine ⟨⟨a, .new (entries.length / 2), fun _ => [], [], model.init, a.links.next 0⟩, ?_, ?_⟩
  · have hempty : entries.isEmpty = false := by
      cases entries with
      | nil => exact absurd rfl hne
      | cons e es => rfl
    simp only [Search.start, hempty, Bool.false_eq_true, if_false, ha, NodeArena.headNext_eq hlen,
      Result.ok_bind, Result.pure_eq]
  · refine ⟨hthread, ?_, rfl, ⟨_, .start, ?_, rfl⟩, .nil, nofun, nofun⟩
    · rw [hpair.half_length]
      exact .new
    · change a.links.next 0 = _
      rw [hthread.chain.next_eq, List.head?_map]
      rfl

/-- The same of a loop that has started. -/
theorem Paired.sim_start (hpair : Paired entries n) (hsize : entries.length < NONE)
    (hstart : Search.start model entries = .ok (.inl s)) :
    Sim entries n debug s ((searchProblem model entries).start ⟨[], model.init⟩) := by
  have hne : entries ≠ [] := by
    rintro rfl
    cases hstart
  obtain ⟨s', hs', hsim⟩ := hpair.start_ok hsize hne debug model
  cases hstart.symm.trans hs'
  exact hsim

end Step

end Porcupine
