import Porcupine.Model.Arena
import Porcupine.Common.Links
import Porcupine.Common.Loop
import Porcupine.Entries.Frontier
/-!
# The arena is the live list

Of an arena, `static` is what no operation changes and `links` what they
do change. `unlink` and `relink` are those of `Links`, wherever the links
they follow stay inside the arena. An arena is `Threaded` when it was
built from the entries and its list, off the sentinel, is the live list.
Lifting an operation takes it out of the live list, and unlifting it right
away gives the same arena back (`Threaded.lift`).
-/

namespace Porcupine

variable {Input Output : Type}

namespace NodeArena

variable {a a' : NodeArena Input Output} {r i : ℕ}

theorem ofRaw_of_ne {r : ℕ} (h : r ≠ NONE) : ofRaw r = some r := if_neg h

theorem ofRaw_inj {r s : ℕ} (h : ofRaw r = ofRaw s) : r = s := by
  unfold ofRaw at h
  split at h <;> split at h <;> simp_all

/-- What no operation changes. -/
def static (a : NodeArena Input Output) : List (Option (EntryValue Input Output) × ℕ × ℕ) :=
  a.nodes.map fun node => (node.value, node.id, node.matchIdx)

/-- The links of the nodes. -/
def links (a : NodeArena Input Output) : Links ℕ where
  prev i := (a.nodes[i]?.map Node.prev).getD 0
  next i := a.nodes[i]?.bind fun node => ofRaw node.next

theorem length_eq_of_static (h : a'.static = a.static) : a'.nodes.length = a.nodes.length := by
  simpa [static] using congrArg List.length h

theorem links_prev {node : Node Input Output} (h : a.nodes[i]? = some node) :
    a.links.prev i = node.prev := by
  simp [links, h]

theorem links_next {node : Node Input Output} (h : a.nodes[i]? = some node) :
    a.links.next i = ofRaw node.next := by
  simp [links, h]

/-- The two parts are the whole arena. -/
theorem ext_links (hs : a'.static = a.static) (hl : a'.links = a.links) : a' = a := by
  have hlen := length_eq_of_static hs
  obtain ⟨nodes⟩ := a
  obtain ⟨nodes'⟩ := a'
  congr 1
  refine List.ext_getElem hlen fun i h' h => ?_
  have hstatic : (nodes'[i].value, nodes'[i].id, nodes'[i].matchIdx) =
      (nodes[i].value, nodes[i].id, nodes[i].matchIdx) := by
    have := congrArg (fun l => l[i]?) hs
    simpa [static, h, h'] using this
  have hp : nodes'[i].prev = nodes[i].prev := by
    have := congrFun (congrArg Links.prev hl) i
    simpa [links, h, h'] using this
  have hn : nodes'[i].next = nodes[i].next := by
    have := congrFun (congrArg Links.next hl) i
    exact ofRaw_inj (by simpa [links, h, h'] using this)
  cases hnode : nodes[i]
  cases hnode' : nodes'[i]
  simp_all

theorem headNext_eq (h : 0 < a.nodes.length) : a.headNext = .ok (a.links.next 0) := by
  simp [headNext, readAt, links, List.getElem?_eq_getElem h]

theorem nextOf_eq (h : r < a.nodes.length) : a.nextOf r = .ok (a.links.next r) := by
  simp [nextOf, readAt, links, List.getElem?_eq_getElem h]

theorem setNext_spec (h : i < a.nodes.length) (next : ℕ) :
    ∃ a', a.setNext i next = .ok a' ∧ a'.static = a.static ∧
      a'.links = ⟨a.links.prev, Function.update a.links.next i (ofRaw next)⟩ := by
  refine ⟨⟨a.nodes.set i { a.nodes[i] with next }⟩, ?_, ?_, ?_⟩
  · simp [setNext, readAt, List.getElem?_eq_getElem h]
  · refine List.ext_getElem? fun j => ?_
    by_cases hj : j = i
    · subst hj
      simp [static, h]
    · simp [static, List.getElem?_set_ne (Ne.symm hj)]
  · refine Links.ext' (funext fun j => ?_) (funext fun j => ?_)
    · by_cases hj : j = i
      · subst hj
        simp [links, h]
      · simp [links, List.getElem?_set_ne (Ne.symm hj)]
    · by_cases hj : j = i
      · subst hj
        simp [links, h]
      · simp [links, List.getElem?_set_ne (Ne.symm hj), Function.update_of_ne hj]

theorem setPrev_spec (h : i < a.nodes.length) (prev : ℕ) :
    ∃ a', a.setPrev i prev = .ok a' ∧ a'.static = a.static ∧
      a'.links = ⟨Function.update a.links.prev i prev, a.links.next⟩ := by
  refine ⟨⟨a.nodes.set i { a.nodes[i] with prev }⟩, ?_, ?_, ?_⟩
  · simp [setPrev, readAt, List.getElem?_eq_getElem h]
  · refine List.ext_getElem? fun j => ?_
    by_cases hj : j = i
    · subst hj
      simp [static, h]
    · simp [static, List.getElem?_set_ne (Ne.symm hj)]
  · refine Links.ext' (funext fun j => ?_) (funext fun j => ?_)
    · by_cases hj : j = i
      · subst hj
        simp [links, h]
      · simp [links, List.getElem?_set_ne (Ne.symm hj), Function.update_of_ne hj]
    · by_cases hj : j = i
      · subst hj
        simp [links, h]
      · simp [links, List.getElem?_set_ne (Ne.symm hj)]

/-- The node and the neighbours its links name are inside the arena. -/
structure Inside (a : NodeArena Input Output) (r : ℕ) : Prop where
  self : r < a.nodes.length
  prev : a.links.prev r < a.nodes.length
  next : ∀ y, a.links.next r = some y → y < a.nodes.length

/-- **`unlink` takes the node out of the links.** -/
theorem unlink_spec (h : a.Inside r) :
    ∃ a', a.unlink r = .ok a' ∧ a'.static = a.static ∧ a'.links = a.links.unlink r := by
  obtain ⟨node, hr⟩ : ∃ node, a.nodes[r]? = some node := ⟨_, List.getElem?_eq_getElem h.self⟩
  have hp := links_prev hr
  have hn := links_next hr
  obtain ⟨b, hb, hbs, hbl⟩ := setNext_spec (hp ▸ h.prev) node.next
  by_cases hnone : node.next = NONE
  · refine ⟨b, ?_, hbs, ?_⟩
    · rw [unlink, readAt_eq_ok.2 hr, Result.ok_bind, hb, Result.ok_bind, if_neg (not_not.2 hnone)]
      rfl
    · have hn' : a.links.next r = none := by rw [hn, hnone]; rfl
      rw [hbl, ← hp, ← hn]
      simp only [Links.unlink, hn']
  · have hsome : a.links.next r = some node.next := hn.trans (ofRaw_of_ne hnone)
    have hlt : node.next < b.nodes.length := by
      rw [length_eq_of_static hbs]
      exact h.next _ hsome
    obtain ⟨c, hc, hcs, hcl⟩ := setPrev_spec hlt node.prev
    refine ⟨c, ?_, hcs.trans hbs, ?_⟩
    · rw [unlink, readAt_eq_ok.2 hr, Result.ok_bind, hb, Result.ok_bind, if_pos hnone, hc]
    · rw [hcl, hbl, ← hn]
      simp only [Links.unlink, hsome, hp]

/-- **`relink` puts it back.** -/
theorem relink_spec (h : a.Inside r) (hne : r ≠ NONE) :
    ∃ a', a.relink r = .ok a' ∧ a'.static = a.static ∧ a'.links = a.links.relink r := by
  obtain ⟨node, hr⟩ : ∃ node, a.nodes[r]? = some node := ⟨_, List.getElem?_eq_getElem h.self⟩
  have hp := links_prev hr
  have hn := links_next hr
  obtain ⟨b, hb, hbs, hbl⟩ := setNext_spec (hp ▸ h.prev) r
  rw [ofRaw_of_ne hne] at hbl
  by_cases hnone : node.next = NONE
  · refine ⟨b, ?_, hbs, ?_⟩
    · rw [relink, readAt_eq_ok.2 hr, Result.ok_bind, hb, Result.ok_bind, if_neg (not_not.2 hnone)]
      rfl
    · have hn' : a.links.next r = none := by rw [hn, hnone]; rfl
      rw [hbl, ← hp]
      simp only [Links.relink, hn']
  · have hsome : a.links.next r = some node.next := hn.trans (ofRaw_of_ne hnone)
    have hlt : node.next < b.nodes.length := by
      rw [length_eq_of_static hbs]
      exact h.next _ hsome
    obtain ⟨c, hc, hcs, hcl⟩ := setPrev_spec hlt r
    refine ⟨c, ?_, hcs.trans hbs, ?_⟩
    · rw [relink, readAt_eq_ok.2 hr, Result.ok_bind, hb, Result.ok_bind, if_pos hnone, hc]
    · rw [hcl, hbl, ← hp]
      simp only [Links.relink, hsome]

/-- A seated node is inside after it is taken out, if it was before. -/
theorem Inside.unlink (h : a.Inside r) (hs : a.links.Seated r) (hst : a'.static = a.static)
    (hl : a'.links = a.links.unlink r) : a'.Inside r := by
  have hlen := length_eq_of_static hst
  obtain ⟨hp, hn⟩ := Links.unlink_self hs
  refine ⟨hlen ▸ h.self, ?_, fun y hy => ?_⟩
  · rw [hl, hp, hlen]
    exact h.prev
  · rw [hl, hn] at hy
    exact hlen ▸ h.next y hy

/-- **Relinking right after unlinking gives the arena back.** -/
theorem relink_unlink (h : a.Inside r) (hne : r ≠ NONE) (hs : a.links.Seated r)
    (hst : a'.static = a.static) (hl : a'.links = a.links.unlink r) : a'.relink r = .ok a := by
  obtain ⟨b, hb, hbs, hbl⟩ := relink_spec (h.unlink hs hst hl) hne
  rw [hb, ext_links (hbs.trans hst)]
  rw [hbl, hl, Links.relink_unlink hs]

end NodeArena

/-! ## Arenas built from entries -/

variable {entries : List (Entry Input Output)} {a a' : NodeArena Input Output} {n id p : ℕ}
variable {ids : List ℕ}

/-- The match of an entry: the return of its operation, for a call. -/
def matchAt (entries : List (Entry Input Output)) (e : Entry Input Output) : ℕ :=
  if e.value.isCall then retPos entries e.id + 1 else NONE

/-- What the arena is, apart from its links. -/
structure Built (entries : List (Entry Input Output)) (a : NodeArena Input Output) : Prop where
  length : a.nodes.length = entries.length + 1
  node : ∀ p e, entries[p]? = some e → ∃ node, a.nodes[p + 1]? = some node ∧
    node.value = some e.value ∧ node.id = e.id ∧ node.matchIdx = matchAt entries e

theorem Built.congr (h : Built entries a) (hs : a'.static = a.static) : Built entries a' := by
  refine ⟨(NodeArena.length_eq_of_static hs).trans h.length, fun p e he => ?_⟩
  obtain ⟨node, hn, hv, hid, hm⟩ := h.node p e he
  have hstatic : a'.static[p + 1]? = some (node.value, node.id, node.matchIdx) := by
    rw [hs]
    simp [NodeArena.static, hn]
  obtain ⟨node', hn', heq⟩ : ∃ node', a'.nodes[p + 1]? = some node' ∧
      (node'.value, node'.id, node'.matchIdx) = (node.value, node.id, node.matchIdx) := by
    simpa [NodeArena.static] using hstatic
  obtain ⟨hv', hid', hm'⟩ : node'.value = node.value ∧ node'.id = node.id ∧
      node'.matchIdx = node.matchIdx := by simpa using heq
  exact ⟨node', hn', hv'.trans hv, hid'.trans hid, hm'.trans hm⟩

/-- **The list off the sentinel is the live list.** -/
structure Threaded (entries : List (Entry Input Output)) (ids : List ℕ)
    (a : NodeArena Input Output) : Prop where
  built : Built entries a
  chain : a.links.Chain 0 ((live entries ids).map (· + 1))

theorem nodup_live_refs : (0 :: (live entries ids).map (· + 1)).Nodup := by
  refine List.nodup_cons.2 ⟨by simp, live_nodup.map fun p q hpq => ?_⟩
  exact Nat.succ.inj hpq

/-- The references of positions are nodes of the arena. -/
theorem Built.lt_length (h : Built entries a) {ps : List ℕ} (hps : ∀ p ∈ ps, p < entries.length) :
    ∀ r ∈ 0 :: ps.map (· + 1), r < a.nodes.length := by
  intro r hr
  rw [h.length]
  rcases List.mem_cons.1 hr with rfl | hr
  · exact Nat.succ_pos _
  · obtain ⟨p, hp, rfl⟩ := List.mem_map.1 hr
    exact Nat.succ_lt_succ (hps p hp)

/-- What a chain of nodes passes is inside the arena. -/
theorem NodeArena.inside_of_chain {refs : List ℕ} {r : ℕ} (hchain : a.links.Chain 0 refs)
    (hlt : ∀ r ∈ 0 :: refs, r < a.nodes.length) (hr : r ∈ refs) : a.Inside r := by
  obtain ⟨hprev, hnext⟩ := hchain.neighbours hr
  exact ⟨hlt r (List.mem_cons_of_mem _ hr), hlt _ hprev,
    fun y hy => hlt y (List.mem_cons_of_mem _ (hnext y hy))⟩

/-- The node of a live position is inside the arena. -/
theorem Threaded.inside (h : Threaded entries ids a) (hp : p ∈ live entries ids) :
    a.Inside (p + 1) :=
  NodeArena.inside_of_chain h.chain (h.built.lt_length fun _ hp => (mem_live.1 hp).1)
    (List.mem_map_of_mem hp)

/-- **Lifting an operation takes it out of the live list, and unlifting it
right away gives the arena back.** -/
theorem Threaded.lift (h : Threaded entries ids a) (hpair : Paired entries n)
    (hsize : entries.length < NONE) (hid : id < n) (hmem : id ∉ ids) (debug : Bool) :
    ∃ a', a.lift debug (callPos entries id + 1) = .ok a' ∧ Threaded entries (id :: ids) a' ∧
      a'.unlift debug (callPos entries id + 1) = .ok a := by
  obtain ⟨t, input, hentry⟩ := hpair.call_entry hid
  obtain ⟨node, hnode, -, -, hmatch⟩ := h.built.node _ _ hentry
  have hret : retPos entries id < entries.length := hpair.posOf_lt hid false
  have hcall : callPos entries id < entries.length := hpair.posOf_lt hid true
  replace hmatch : node.matchIdx = retPos entries id + 1 := hmatch
  have hcall' : callPos entries id + 1 ≠ NONE := by omega
  have hret' : retPos entries id + 1 ≠ NONE := by omega
  have hassert : debugAssert debug (node.matchIdx ≠ NONE) .matchIsNone = .ok () :=
    debugAssert_of (by rw [hmatch]; exact decide_eq_true hret')
  -- the call is taken out
  have hlive := hpair.posOf_mem_live hid hmem true
  have hin := h.inside hlive
  obtain ⟨hseat, hchain⟩ := h.chain.unlink_erase nodup_live_refs (List.mem_map_of_mem hlive)
  obtain ⟨b, hb, hbs, hbl⟩ := NodeArena.unlink_spec hin
  -- then its return
  have hne : retPos entries id ≠ callPos entries id := fun he => by
    cases (hpair.posOf_inj hid hid he).2
  have hinj : Function.Injective fun q : ℕ => q + 1 := fun p q hpq => Nat.succ.inj hpq
  rw [← List.map_erase hinj, ← hbl] at hchain
  have hlive' : retPos entries id ∈ (live entries ids).erase (callPos entries id) :=
    (List.mem_erase_of_ne hne).2 (hpair.posOf_mem_live hid hmem false)
  have hnd' : (0 :: ((live entries ids).erase (callPos entries id)).map (· + 1)).Nodup :=
    nodup_live_refs.sublist ((List.erase_sublist.map _).cons_cons 0)
  obtain ⟨hseat', hchain'⟩ := hchain.unlink_erase hnd' (List.mem_map_of_mem hlive')
  have hin' : b.Inside (retPos entries id + 1) :=
    NodeArena.inside_of_chain hchain ((h.built.congr hbs).lt_length fun _ hp =>
      (mem_live.1 (List.mem_of_mem_erase hp)).1) (List.mem_map_of_mem hlive')
  obtain ⟨c, hc, hcs, hcl⟩ := NodeArena.unlink_spec hin'
  rw [← List.map_erase hinj, ← hpair.live_cons hid, ← hcl] at hchain'
  have hnode' : ∃ node', c.nodes[callPos entries id + 1]? = some node' ∧
      node'.matchIdx = retPos entries id + 1 := by
    obtain ⟨node', hn', -, -, hm'⟩ := (h.built.congr (hcs.trans hbs)).node _ _ hentry
    exact ⟨node', hn', hm'⟩
  obtain ⟨node', hn', hm'⟩ := hnode'
  refine ⟨c, ?_, ⟨h.built.congr (hcs.trans hbs), hchain'⟩, ?_⟩
  · rw [NodeArena.lift, readAt_eq_ok.2 hnode, Result.ok_bind, hassert, Result.ok_bind, hb,
      Result.ok_bind, hmatch, hc]
  · rw [NodeArena.unlift, readAt_eq_ok.2 hn', Result.ok_bind, hm', ← hmatch, hassert,
      Result.ok_bind, hmatch, NodeArena.relink_unlink hin' hret' hseat' hcs hcl,
      Result.ok_bind, NodeArena.relink_unlink hin hcall' hseat hbs hbl]

/-! ## Building the arena -/

section Build

/-- A node as `fromEntries` leaves it, before it is linked. -/
def matched (entries : List (Entry Input Output)) (e : Entry Input Output) : Node Input Output :=
  ⟨some e.value, e.id, matchAt entries e, 0, NONE⟩

theorem asU32_of_le (h : p ≤ NONE) : asU32 p = p := by
  unfold NONE at h
  exact Nat.mod_eq_of_lt (by omega)

/-- The first loop records where every return is. -/
theorem Paired.recordReturn_ok (h : Paired entries n) (hsize : entries.length < NONE) :
    ∃ returnIdx, entries.zipIdx.foldlM NodeArena.recordReturn
        (List.replicate (entries.length / 2) NONE) = .ok returnIdx ∧
      ∀ id < n, returnIdx[id]? = some (retPos entries id + 1) := by
  have hloop := Loop.foldlM_ok (l := entries.zipIdx) (f := NodeArena.recordReturn)
    (I := fun pre (v : List ℕ) => v.length = n ∧
      ∀ e i, (e, i) ∈ pre → e.value.isCall = false → v[e.id]? = some (i + 1))
    (s := List.replicate (entries.length / 2) NONE) ⟨by simp [h.half_length], by simp⟩ ?_
  · obtain ⟨v, hv, -, hmem⟩ := hloop
    refine ⟨v, hv, fun id hid => ?_⟩
    obtain ⟨t, output, he⟩ := h.ret_entry hid
    exact hmem _ _ (List.mem_zipIdx_iff_getElem?.2 he) rfl
  · rintro pre ⟨e, i⟩ post v hl ⟨hlen, hmem⟩
    have hzip : (e, i) ∈ entries.zipIdx := by simp [hl]
    have hei := List.mem_zipIdx_iff_getElem?.1 hzip
    have hi := (List.getElem?_eq_some_iff.1 hei).1
    obtain ⟨hpos, hid⟩ := h.posOf_tag hei
    obtain ⟨id, t, value⟩ := e
    cases value with
    | call input =>
      refine ⟨v, rfl, hlen, fun e' i' he' hret => ?_⟩
      rcases List.mem_append.1 he' with he' | he'
      · exact hmem e' i' he' hret
      · cases List.mem_singleton.1 he'
        cases hret
    | ret output =>
      refine ⟨v.set id (i + 1), ?_, by simp [hlen], fun e' i' he' hret => ?_⟩
      · change writeAt v id (asU32 (i + 1)) = _
        rw [writeAt_of_lt (by rw [hlen]; exact hid), asU32_of_le (by simp only at hi; omega)]
      · have hmem' : (e', i') ∈ entries.zipIdx := by
          rw [hl]
          rcases List.mem_append.1 he' with he' | he' <;> simp_all
        obtain ⟨hpos', -⟩ := h.posOf_tag (List.mem_zipIdx_iff_getElem?.1 hmem')
        -- a return is recorded over an earlier one of its id only, and there is none
        by_cases heq : e'.id = id
        · replace hpos' : posOf entries e'.id e'.value.isCall = i' := hpos'
          rw [heq, hret] at hpos'
          have : i' = i := hpos'.symm.trans hpos
          rw [heq, this, List.getElem?_set_self (by rw [hlen]; exact hid)]
        · rw [List.getElem?_set_ne (Ne.symm heq)]
          rcases List.mem_append.1 he' with he' | he'
          · exact hmem e' i' he' hret
          · cases List.mem_singleton.1 he'
            exact absurd rfl heq

/-- The second loop matches every call. -/
theorem Paired.fillMatch_ok (h : Paired entries n) (hsize : entries.length < NONE)
    {returnIdx : List ℕ} (hr : ∀ id < n, returnIdx[id]? = some (retPos entries id + 1)) :
    (entries.map NodeArena.slot).mapM (NodeArena.fillMatch returnIdx) =
      .ok (entries.map (matched entries)) := by
  rw [Loop.mapM_eq_ok_iff, List.forall₂_map_left_iff, List.forall₂_map_right_iff,
    List.forall₂_same]
  intro e he
  obtain ⟨p, hp⟩ := List.getElem?_of_mem he
  have hid := (h.posOf_tag hp).2
  have hlen := h.length_eq
  have hslot : asU32 e.id = e.id := asU32_of_le (by omega)
  have hret : retPos entries e.id < entries.length := h.posOf_lt hid false
  obtain ⟨id, t, value⟩ := e
  simp only at hid hslot hret
  cases value with
  | call input =>
    have hne : retPos entries id + 1 ≠ NONE := by omega
    simp [NodeArena.fillMatch, NodeArena.slot, matched, matchAt, EntryValue.isCall, hslot,
      readAt_eq_ok.2 (hr id hid), hne]
  | ret output =>
    simp [NodeArena.fillMatch, NodeArena.slot, matched, matchAt, EntryValue.isCall, hslot]

/-- The nodes, matched and linked in order. -/
def linkedNodes (entries : List (Entry Input Output)) : List (Node Input Output) :=
  { (NodeArena.sentinel : Node Input Output) with next := if 0 < entries.length then 1 else NONE } ::
    ((entries.map (matched entries)).zipIdx 1).map (NodeArena.linkNode entries.length)

theorem linkedNodes_succ {e : Entry Input Output} (he : entries[p]? = some e) :
    (linkedNodes entries)[p + 1]? =
      some (NodeArena.linkNode entries.length (matched entries e, p + 1)) := by
  simp [linkedNodes, he, Nat.add_comm]

/-- The links run through the nodes in order. -/
theorem linkedNodes_chain (hsize : entries.length < NONE) :
    (NodeArena.mk (linkedNodes entries)).links.Chain 0 (List.range' 1 entries.length) := by
  have hnext : ∀ p < entries.length, (NodeArena.mk (linkedNodes entries)).links.prev (p + 1) = p ∧
      (NodeArena.mk (linkedNodes entries)).links.next (p + 1) =
        if p + 1 < entries.length then some (p + 2) else none := by
    intro p hp
    have hnode := linkedNodes_succ (List.getElem?_eq_getElem hp)
    rw [NodeArena.links_prev (a := ⟨linkedNodes entries⟩) hnode,
      NodeArena.links_next (a := ⟨linkedNodes entries⟩) hnode]
    refine ⟨asU32_of_le (by simp only [Nat.add_sub_cancel]; omega), ?_⟩
    simp only [NodeArena.linkNode, matched]
    split
    · rw [asU32_of_le (by omega), NodeArena.ofRaw_of_ne (by omega)]
    · rfl
  -- the sentinel points to the first node, and the last one nowhere
  refine Links.chain_range' (h := 0) (fun i _ hi => ?_) ?_
  · rw [Nat.zero_add] at hi
    refine ⟨?_, (hnext i hi).1⟩
    cases i with
    | zero =>
      rw [NodeArena.links_next (a := ⟨linkedNodes entries⟩) (List.getElem?_cons_zero)]
      simp [hi, NodeArena.ofRaw, NONE]
    | succ i => rw [(hnext i (by omega)).2, if_pos hi]
  · rw [Nat.zero_add]
    cases hlen : entries.length with
    | zero =>
      rw [NodeArena.links_next (a := ⟨linkedNodes entries⟩) (List.getElem?_cons_zero)]
      simp [hlen, NodeArena.ofRaw]
    | succ i => rw [(hnext i (by omega)).2, if_neg (by omega)]

/-- **The arena is built**, and its list is the whole of the entries. -/
theorem Paired.fromEntries_ok (h : Paired entries n) (hsize : entries.length < NONE) :
    ∃ a, NodeArena.fromEntries entries = .ok a ∧ Threaded entries [] a := by
  obtain ⟨returnIdx, hrec, hr⟩ := h.recordReturn_ok hsize
  have hfill := h.fillMatch_ok hsize hr
  refine ⟨⟨linkedNodes entries⟩, ?_, ⟨?_, fun p e he => ?_⟩, ?_⟩
  · simp only [NodeArena.fromEntries, hrec, hfill, Result.ok_bind, Result.pure_eq, linkedNodes]
  · simp [linkedNodes]
  · exact ⟨_, linkedNodes_succ he, rfl, rfl, rfl⟩
  · have hlive : (live entries []).map (· + 1) = List.range' 1 entries.length := by
      rw [live_nil, List.range'_eq_map_range]
      exact List.map_congr_left fun p _ => Nat.add_comm p 1
    rw [hlive]
    exact linkedNodes_chain hsize

end Build

end Porcupine
