import Porcupine.Entries.Operations
import Porcupine.Model.Fixtures
import Porcupine.Search.Simulation
/-!
# Lifting and unlifting in stack order

A removed node keeps its links, and `unlift` trusts them. As long as the
latest lift is the first to be undone they are right: every arena that
lifts and unlifts lead to was built from the entries by the lifts that are
still in force, one on top of the other (`Stacked`), so its list is the
entries of the other operations (`liftings_exact`), and with no lift in
force it is the arena that was built.
-/

namespace Porcupine

variable {Input Output : Type}

namespace NodeArena

/-- Following `next` from a node passes these nodes, and then ends. -/
inductive Walk (a : NodeArena Input Output) : ℕ → List ℕ → Prop
  /-- The list ends. -/
  | done {r : ℕ} : a.nextOf r = .ok none → Walk a r []
  /-- One node more. -/
  | next {r s : ℕ} {refs : List ℕ} : a.nextOf r = .ok (some s) → Walk a s refs →
      Walk a r (s :: refs)

/-- Whether the node is a call. -/
def isCall (a : NodeArena Input Output) (r : ℕ) : Bool :=
  a.nodes[r]?.any fun node => node.value.any EntryValue.isCall

/-- **The arenas that lifts and unlifts lead to**, with the calls that are
still lifted, the latest first: a lift is of a call that is in the list,
and an unlift undoes the latest lift. -/
inductive Lifting (debug : Bool) (a₀ : NodeArena Input Output) :
    List ℕ → NodeArena Input Output → Prop
  /-- The arena as it was built. -/
  | start : Lifting debug a₀ [] a₀
  /-- A call in the list is lifted. -/
  | lift {lifted refs : List ℕ} {a a' : NodeArena Input Output} {r : ℕ} :
      Lifting debug a₀ lifted a → a.Walk 0 refs → r ∈ refs → a.isCall r = true →
      a.lift debug r = .ok a' → Lifting debug a₀ (r :: lifted) a'
  /-- The latest lift is undone. -/
  | unlift {lifted : List ℕ} {a a' : NodeArena Input Output} {r : ℕ} :
      Lifting debug a₀ (r :: lifted) a → a.unlift debug r = .ok a' → Lifting debug a₀ lifted a'

variable {a : NodeArena Input Output} {r : ℕ} {refs refs' : List ℕ}

/-- The list is one list. -/
theorem Walk.unique (h : a.Walk r refs) (h' : a.Walk r refs') : refs = refs' := by
  induction h generalizing refs' with
  | done hnone =>
    cases h' with
    | done => rfl
    | next hsome => cases hnone.symm.trans hsome
  | next hsome _ ih =>
    cases h' with
    | done hnone => cases hnone.symm.trans hsome
    | next hsome' hrest =>
      cases hsome.symm.trans hsome'
      rw [ih hrest]

/-- A chain of the links inside the arena is walked. -/
theorem walk_of_chain (h : a.links.Chain r refs) (hlt : ∀ s ∈ r :: refs, s < a.nodes.length) :
    a.Walk r refs := by
  induction refs generalizing r with
  | nil => exact .done ((nextOf_eq (hlt r (by simp))).trans (congrArg Except.ok h))
  | cons s refs ih =>
    obtain ⟨hnext, -, hrest⟩ := h
    refine .next ((nextOf_eq (hlt r (by simp))).trans (congrArg Except.ok hnext)) ?_
    exact ih hrest fun t ht => hlt t (List.mem_cons_of_mem _ ht)

/-- Each node of a chain points back to the one before it. -/
theorem isChain_of_chain (h : a.links.Chain r refs) :
    (r :: refs).IsChain fun s t => a.links.next s = some t ∧ a.links.prev t = s := by
  induction refs generalizing r with
  | nil => exact .singleton r
  | cons s refs ih =>
    obtain ⟨hnext, hprev, hrest⟩ := h
    exact .cons_cons ⟨hnext, hprev⟩ (ih hrest)

end NodeArena

/-- The operations whose calls are these nodes. -/
def opsAt (entries : List (Entry Input Output)) (refs : List ℕ) : List ℕ :=
  refs.map fun r => idAt entries (r - 1)

variable {entries : List (Entry Input Output)} {a a' a₀ : NodeArena Input Output}
variable {n r : ℕ} {ids refs lifted : List ℕ} {debug : Bool}

/-! ## One lift on top of the other -/

/-- **The lifts in force**, the latest first: each was of an operation in
the list, and its unlift gives back the arena it was made in. -/
inductive Stacked (entries : List (Entry Input Output)) (n : ℕ) (debug : Bool)
    (a₀ : NodeArena Input Output) : List ℕ → NodeArena Input Output → Prop
  /-- No lift. -/
  | nil : Stacked entries n debug a₀ [] a₀
  /-- One lift more. -/
  | cons {ids : List ℕ} {id : ℕ} {a a' : NodeArena Input Output} :
      Stacked entries n debug a₀ ids a → Threaded entries ids a → id < n → id ∉ ids →
      a.lift debug (callPos entries id + 1) = .ok a' →
      a'.unlift debug (callPos entries id + 1) = .ok a → Stacked entries n debug a₀ (id :: ids) a'

/-- An operation in the list is lifted. -/
theorem Stacked.lift (h : Stacked entries n debug a₀ ids a) (hthread : Threaded entries ids a)
    (hpair : Paired entries n) (hsize : entries.length < NONE) {id : ℕ} (hid : id < n)
    (hmem : id ∉ ids) : ∃ a', a.lift debug (callPos entries id + 1) = .ok a' ∧
      Stacked entries n debug a₀ (id :: ids) a' ∧ Threaded entries (id :: ids) a' := by
  obtain ⟨a', hlift, hthread', hunlift⟩ := hthread.lift hpair hsize hid hmem debug
  exact ⟨a', hlift, .cons h hthread hid hmem hlift hunlift, hthread'⟩

/-! ## The list of an arena -/

/-- **The list off the sentinel is the entries of the operations that are
not lifted**, in order, with each node's neighbours and each call's return
as they should be. -/
structure ExactList (entries : List (Entry Input Output)) (lifted : List ℕ)
    (a : NodeArena Input Output) (refs : List ℕ) : Prop where
  walk : a.Walk 0 refs
  entries : List.Forall₂ (fun r e => ∃ node, a.nodes[r]? = some node ∧
    node.value = some e.value ∧ node.id = e.id) refs
    (entries.filter fun e => e.id ∉ opsAt entries lifted)
  inverse : (0 :: refs).IsChain fun r s => a.links.next r = some s ∧ a.links.prev s = r
  matchOf : ∀ r ∈ refs, ∀ node, a.nodes[r]? = some node → node.value.any EntryValue.isCall = true →
    ∃ m ∈ refs, ∃ ret, a.matchOf r = .ok (some m) ∧ a.nodes[m]? = some ret ∧
      ret.id = node.id ∧ ret.value.any EntryValue.isReturn = true

/-- The entries left are those at the live positions. -/
theorem filter_eq_pick : (entries.filter fun e => e.id ∉ ids) = pick entries (live entries ids) := by
  have hall : pick entries (List.range entries.length) = entries := pick_range
  conv_lhs => rw [← hall]
  rw [pick, pick, live, List.filter_filterMap, List.filterMap_filter]
  refine List.filterMap_congr fun p _ => ?_
  cases he : entries[p]? with
  | none => simp
  | some e => simp [Option.filter, idAt_eq he]

theorem opsAt_map (hpair : Paired entries n) (hids : ∀ id ∈ ids, id < n) :
    opsAt entries (ids.map fun id => callPos entries id + 1) = ids := by
  rw [opsAt, List.map_map]
  refine (List.map_congr_left fun i hi => ?_).trans (List.map_id ids)
  exact hpair.idAt_posOf (hids i hi) true

theorem Stacked.lt (h : Stacked entries n debug a₀ ids a) : ∀ id ∈ ids, id < n := by
  induction h with
  | nil => nofun
  | cons _ _ hid _ _ _ ih => exact List.forall_mem_cons.2 ⟨hid, ih⟩

/-- The list of an arena that threads the live list. -/
theorem Threaded.walk (h : Threaded entries ids a) :
    a.Walk 0 ((live entries ids).map (· + 1)) :=
  NodeArena.walk_of_chain h.chain (h.built.lt_length fun _ hp => (mem_live.1 hp).1)

/-- A call node in the list is the call of an operation that is. -/
theorem Threaded.call_of_mem (h : Threaded entries ids a) (hpair : Paired entries n)
    (hr : r ∈ (live entries ids).map (· + 1)) (hcall : a.isCall r = true) :
    ∃ id < n, id ∉ ids ∧ r = callPos entries id + 1 := by
  obtain ⟨p, hp, rfl⟩ := List.mem_map.1 hr
  obtain ⟨hlt, hmem⟩ := mem_live.1 hp
  obtain ⟨node, hnode, hv, -⟩ := h.built.node p _ (List.getElem?_eq_getElem hlt)
  have hc : isCallAt entries p = true := by
    simpa [NodeArena.isCall, hnode, hv, isCallAt_eq (List.getElem?_eq_getElem hlt)] using hcall
  obtain ⟨hpos, hid⟩ := hpair.posOf_idAt hlt
  rw [hc] at hpos
  exact ⟨_, hid, hmem, congrArg (· + 1) hpos.symm⟩

/-- The call of an operation that is not lifted is a call node in the
list. -/
theorem Threaded.mem_of_call (h : Threaded entries ids a) (hpair : Paired entries n) {id : ℕ}
    (hid : id < n) (hmem : id ∉ ids) : callPos entries id + 1 ∈ (live entries ids).map (· + 1) ∧
      a.isCall (callPos entries id + 1) = true := by
  obtain ⟨t, input, hcall⟩ := hpair.call_entry hid
  obtain ⟨node, hnode, hv, -⟩ := h.built.node _ _ hcall
  refine ⟨List.mem_map_of_mem (hpair.posOf_mem_live hid hmem true), ?_⟩
  rw [NodeArena.isCall, hnode, Option.any_some, hv]
  rfl

/-- **The list of an arena is exact.** -/
theorem Threaded.exactList (h : Threaded entries ids a) (hpair : Paired entries n)
    (hsize : entries.length < NONE) (hops : opsAt entries lifted = ids) :
    ExactList entries lifted a ((live entries ids).map (· + 1)) := by
  refine ⟨h.walk, ?_, NodeArena.isChain_of_chain h.chain, fun r hr node hnode hcall => ?_⟩
  · rw [hops, filter_eq_pick, List.forall₂_map_left_iff]
    refine (pick_forall₂ fun p hp => (mem_live.1 hp).1).imp fun p e he => ?_
    obtain ⟨node, hnode, hv, hid, -⟩ := h.built.node p e he
    exact ⟨node, hnode, hv, hid⟩
  · obtain ⟨id, hid, hmem, rfl⟩ := h.call_of_mem hpair hr (by simpa [NodeArena.isCall, hnode])
    have hm := h.built.matchOf hpair hsize (hpair.posOf_lt hid true)
    rw [hpair.isCallAt_posOf hid, if_pos rfl, hpair.idAt_posOf hid] at hm
    obtain ⟨t, output, hret⟩ := hpair.ret_entry hid
    obtain ⟨ret, hret', hv, hrid, -⟩ := h.built.node _ _ hret
    obtain ⟨call, -, -, -, hcall', hcid, -⟩ := h.built.call_node hpair hid
    cases hnode.symm.trans hcall'
    refine ⟨retPos entries id + 1, List.mem_map_of_mem (hpair.posOf_mem_live hid hmem false), ret,
      hm, hret', hrid.trans hcid.symm, ?_⟩
    rw [hv]
    rfl

/-! ## Every sequence of lifts and unlifts -/

/-- **Lifts and unlifts in stack order stay stacked.** -/
theorem NodeArena.Lifting.stacked (h : a₀.Lifting debug lifted a) (hpair : Paired entries n)
    (hsize : entries.length < NONE) (hthread : Threaded entries [] a₀) :
    ∃ ids, lifted = ids.map (fun id => callPos entries id + 1) ∧ Threaded entries ids a ∧
      Stacked entries n debug a₀ ids a := by
  induction h with
  | start => exact ⟨[], rfl, hthread, .nil⟩
  | lift _ hwalk hr hcall hlift ih =>
    obtain ⟨ids, rfl, hthr, hst⟩ := ih
    obtain ⟨id, hid, hmem, rfl⟩ := hthr.call_of_mem hpair (hwalk.unique hthr.walk ▸ hr) hcall
    obtain ⟨a', hlift', hst', hthr'⟩ := hst.lift hthr hpair hsize hid hmem
    cases hlift.symm.trans hlift'
    exact ⟨id :: ids, rfl, hthr', hst'⟩
  | unlift _ hunlift ih =>
    obtain ⟨ids, hmap, -, hst⟩ := ih
    cases hst with
    | nil => cases hmap
    | cons hst hthr _ _ _ hunlift' =>
      obtain ⟨rfl, rfl⟩ := List.cons.inj hmap
      cases hunlift.symm.trans hunlift'
      exact ⟨_, rfl, hthr, hst⟩

/-- **Lifts and unlifts in stack order keep the list exact**, never panic,
and restore the arena when all are undone. -/
theorem liftings_exact (debug : Bool) (entries : List (Entry Input Output)) (n : ℕ)
    (hpair : Paired entries n) (hsize : entries.length < 2 ^ 32 - 1)
    (a₀ a : NodeArena Input Output) (hbuild : NodeArena.fromEntries entries = .ok a₀)
    (lifted : List ℕ) (h : a₀.Lifting debug lifted a) :
    (∃ refs, ExactList entries lifted a refs ∧
      ∀ r ∈ refs, a.isCall r = true → ∃ a', a.lift debug r = .ok a') ∧
    (∀ r rest, lifted = r :: rest → ∃ a', a.unlift debug r = .ok a') ∧
    (lifted = [] → a = a₀) := by
  obtain ⟨b, hb, hthread⟩ := hpair.fromEntries_ok hsize
  cases hbuild.symm.trans hb
  obtain ⟨ids, rfl, hthr, hst⟩ := h.stacked hpair hsize hthread
  refine ⟨⟨_, hthr.exactList hpair hsize (opsAt_map hpair hst.lt), fun r hr hcall => ?_⟩,
    fun r rest he => ?_, fun he => ?_⟩
  · obtain ⟨id, hid, hmem, rfl⟩ := hthr.call_of_mem hpair hr hcall
    obtain ⟨a', hlift, -⟩ := hst.lift hthr hpair hsize hid hmem
    exact ⟨a', hlift⟩
  · cases hst with
    | nil => cases he
    | cons _ _ _ _ _ hunlift =>
      obtain ⟨rfl, -⟩ := List.cons.inj he
      exact ⟨_, hunlift⟩
  · cases hst with
    | nil => rfl
    | cons => cases he

/-- Three operations, the first around the second. -/
def threeOps : List (Operation RegisterInput ℤ) :=
  [⟨0, ⟨true, 1⟩, 0, 0, 30⟩, ⟨0, ⟨true, 2⟩, 5, 0, 20⟩, ⟨1, ⟨false, 0⟩, 25, 0, 35⟩]

/-- The first two are lifted, one inside the other. -/
theorem liftings_exact_threeOps : ∃ a₀ a, NodeArena.fromEntries (makeEntries threeOps) = .ok a₀ ∧
    a₀.Lifting true [2, 1] a ∧ (∃ refs, ExactList (makeEntries threeOps) [2, 1] a refs) ∧
    ∃ a', a.unlift true 2 = .ok a' := by
  have hpair : Paired (makeEntries threeOps) 3 := makeEntries_arranged.paired
  have hsize : (makeEntries threeOps).length < NONE := by decide
  obtain ⟨a₀, hbuild, h₀⟩ := hpair.fromEntries_ok hsize
  obtain ⟨a₁, hlift₁, hst₁, h₁⟩ := (Stacked.nil : Stacked _ 3 true a₀ [] a₀).lift h₀ hpair hsize
    (by decide : 0 < 3) (by decide)
  obtain ⟨a₂, hlift₂, -, -⟩ := hst₁.lift h₁ hpair hsize (by decide : 1 < 3) (by decide)
  obtain ⟨hmem₁, hcall₁⟩ := h₀.mem_of_call hpair (by decide : 0 < 3) (by decide)
  obtain ⟨hmem₂, hcall₂⟩ := h₁.mem_of_call hpair (by decide : 1 < 3) (by decide)
  have h : a₀.Lifting true [2, 1] a₂ :=
    .lift (.lift .start h₀.walk hmem₁ hcall₁ hlift₁) h₁.walk hmem₂ hcall₂ hlift₂
  obtain ⟨⟨refs, hexact, -⟩, hunlift, -⟩ := liftings_exact true _ 3 hpair hsize a₀ a₂ hbuild _ h
  exact ⟨a₀, a₂, hbuild, h, ⟨refs, hexact⟩, hunlift 2 [1] rfl⟩

end Porcupine
