import Porcupine.Check.Partitions
import Porcupine.Entries.Names
import Porcupine.Search.Order
/-!
# A group listed in two orders

The events of a group take their positions in its list for times. Listed
in another order they stand for the same operations at other times, and
whether these are linearizable depends on the order of the returns and the
calls alone (`Relisted.eventsLinearizable_iff`). If the lists agree on the
order of the calls too, the entries have the same names and the search
goes the same way, whatever `==` is (`Relisted.checksTo_eq`).
-/

namespace Porcupine

open Linearization

variable {State Input Output : Type} {model : Model State Input Output}
variable {events : List (Event Input Output)} {g g' : List ℕ} {id : ℕ}

theorem PairedEvents.perm {events' : List (Event Input Output)} (h : PairedEvents events)
    (hperm : events.Perm events') : PairedEvents events' where
  value ev hev := h.value ev (hperm.mem_iff.2 hev)
  nodup := (hperm.map Event.tag).nodup_iff.1 h.nodup
  both t ht b := ((hperm.map Event.tag).mem_iff).1 (h.both t (((hperm.map Event.tag).mem_iff).2 ht) b)

/-- **One group, listed in two orders.** -/
structure Relisted (events : List (Event Input Output)) (g g' : List ℕ) : Prop where
  perm : g.Perm g'
  nodup : g.Nodup
  lt : ∀ i ∈ g, i < events.length
  paired : PairedEvents (pick events g)

/-- The event at the index is of this kind. -/
def HasKind (events : List (Event Input Output)) (kind : EventKind) (i : ℕ) : Prop :=
  ∃ ev, events[i]? = some ev ∧ ev.kind = kind

/-- **The lists order the events of one kind and those of the other
alike.** -/
def SameOrder (events : List (Event Input Output)) (kind kind' : EventKind) (g g' : List ℕ) : Prop :=
  ∀ i ∈ g, ∀ j ∈ g, HasKind events kind i → HasKind events kind' j →
    (g.idxOf i < g.idxOf j ↔ g'.idxOf i < g'.idxOf j)

instance (kind : EventKind) (i : ℕ) : Decidable (HasKind events kind i) :=
  decidable_of_iff (events[i]?.map Event.kind = some kind) Option.map_eq_some_iff

instance (kind kind' : EventKind) : Decidable (SameOrder events kind kind' g g') :=
  inferInstanceAs (Decidable (∀ i ∈ g, ∀ j ∈ g, HasKind events kind i → HasKind events kind' j →
    (g.idxOf i < g.idxOf j ↔ g'.idxOf i < g'.idxOf j)))

theorem getElem?_pick_idxOf {α : Type} {history : List α} (hlt : ∀ i ∈ g, i < history.length)
    {i : ℕ} (hi : i ∈ g) : (pick history g)[g.idxOf i]? = history[i]? := by
  rw [getElem?_pick hlt, List.getElem?_eq_getElem (List.idxOf_lt_length_of_mem hi),
    List.getElem_idxOf, Option.bind_some]

theorem getD_mem {k : ℕ} (hk : k < g.length) : g.getD k 0 ∈ g := by
  rw [List.getD_eq_getElem?_getD, List.getElem?_eq_getElem hk, Option.getD_some]
  exact List.getElem_mem hk

theorem idxOf_getD (hnd : g.Nodup) {k : ℕ} (hk : k < g.length) : g.idxOf (g.getD k 0) = k := by
  rw [List.getD_eq_getElem?_getD, List.getElem?_eq_getElem hk, Option.getD_some]
  exact hnd.idxOf_getElem k hk

/-- The positions that a list gives the times of the history. -/
def Operation.locate (g : List ℕ) (op : Operation Input Output) : Operation Input Output :=
  { op with call := g.idxOf op.call, returnTime := g.idxOf op.returnTime }

namespace Relisted

variable {op a b : Operation Input Output} {ops : List (Operation Input Output)}

theorem symm (h : Relisted events g g') : Relisted events g' g :=
  ⟨h.perm.symm, h.perm.nodup_iff.1 h.nodup, fun i hi => h.lt i (h.perm.mem_iff.2 hi),
    h.paired.perm (h.perm.filterMap fun i => events[i]?)⟩

theorem exists_id_iff (h : Relisted events g g') :
    (∃ ev ∈ pick events g, ev.id = id) ↔ ∃ ev ∈ pick events g', ev.id = id :=
  exists_congr fun _ => and_congr_left fun _ => (h.perm.filterMap fun i => events[i]?).mem_iff

/-! ## Its operations -/

/-- An operation of the group is one of the group as it is listed the
second time, -/
theorem operationOf (h : Relisted events g g') (hop : OperationOf (pick events g) id op) :
    OperationOf (pick events g') id ((op.relocate g).locate g') := by
  have key : ∀ {k : ℕ} {ev : Event Input Output}, (pick events g)[k]? = some ev →
      (pick events g')[g'.idxOf (g.getD k 0)]? = some ev := by
    intro k ev hk
    obtain ⟨hk', hev⟩ := getElem?_getD_of_pick h.lt hk
    rw [getElem?_pick_idxOf h.symm.lt (h.perm.mem_iff.1 (getD_mem hk')), hev]
  obtain ⟨⟨evc, hc, hc'⟩, evr, hr, hr'⟩ := hop
  exact ⟨⟨evc, key hc, hc'⟩, evr, key hr, hr'⟩

theorem operationsOf (h : Relisted events g g') (hops : OperationsOf (pick events g) ops) :
    OperationsOf (pick events g') (ops.map fun op => (op.relocate g).locate g') := by
  obtain ⟨ids, hnd, hids, hall⟩ := hops
  refine ⟨ids, hnd, fun id => (hids id).trans h.exists_id_iff, ?_⟩
  rw [List.forall₂_map_right_iff]
  exact hall.imp fun _ _ hop => h.operationOf hop

/-- and precedes another as before, if the lists order returns and calls
alike. -/
theorem before_iff (h : Relisted events g g') (hprec : SameOrder events .ret .call g g')
    (hops : OperationsOf (pick events g) ops) (ha : a ∈ ops) (hb : b ∈ ops) :
    ((a.relocate g).locate g').Before ((b.relocate g).locate g') ↔ a.Before b := by
  obtain ⟨-, -, evr, hr, hkr, -⟩ := hops.exists_id ha
  obtain ⟨-, ⟨evc, hc, hkc, -⟩, -⟩ := hops.exists_id hb
  obtain ⟨hr', hevr⟩ := getElem?_getD_of_pick h.lt hr
  obtain ⟨hc', hevc⟩ := getElem?_getD_of_pick h.lt hc
  have hiff := hprec _ (getD_mem hr') _ (getD_mem hc') ⟨evr, hevr, hkr⟩ ⟨evc, hevc, hkc⟩
  rw [idxOf_getD h.nodup hr', idxOf_getD h.nodup hc'] at hiff
  exact hiff.symm

/-- **Whether the group is linearizable depends on the order of its returns
and calls alone.** -/
theorem eventsLinearizable_iff (h : Relisted events g g')
    (hprec : SameOrder events .ret .call g g') :
    EventsLinearizable model (pick events g) ↔ EventsLinearizable model (pick events g') := by
  obtain ⟨entries, -, hent, -⟩ := h.paired.convert
  have hops := h.paired.operationsOf hent
  rw [hops.linearizable_iff h.paired.nodup_kind,
    (h.operationsOf hops).linearizable_iff h.symm.paired.nodup_kind]
  exact (historyLinearizable_map (fun op => (op.relocate g).locate g') (fun _ _ => rfl)
    fun a ha b hb => h.before_iff hprec hops ha hb).symm

/-! ## Its entries -/

variable {entries entries' : List (Entry Input Output)} {b : Bool} {i k : ℕ}
variable {ev : Event Input Output}

/-- The call of an id in the group, or its return. -/
theorem exists_index (h : Relisted events g g') (hid : ∃ ev ∈ pick events g, ev.id = id) (b : Bool) :
    ∃ i ∈ g, ∃ ev, events[i]? = some ev ∧ ev.tag = (id, b) := by
  obtain ⟨ev, hev, rfl⟩ := hid
  obtain ⟨ev', hev', ht⟩ := h.paired.exists_tag hev b
  obtain ⟨i, hi, hiev⟩ := mem_pick.1 hev'
  exact ⟨i, hi, ev', hiev, ht⟩

/-- Its entry stands where the list has it, and holds what it holds. -/
theorem posOf_eq (h : Relisted events g g')
    (hent : List.Forall₂ (IsEntryOf (pick events g)) (pick events g) entries) (hi : i ∈ g)
    (hev : events[i]? = some ev) (ht : ev.tag = (id, b)) :
    posOf entries (newId (pick events g) id) b = g.idxOf i ∧
      ∀ e, entries[posOf entries (newId (pick events g) id) b]? = some e →
        eventValue ev = .ok e.value := by
  have hpick := (getElem?_pick_idxOf h.lt hi).trans hev
  have hpos : posOf entries (newId (pick events g) id) b = g.idxOf i := by
    obtain ⟨rfl, rfl⟩ := Prod.mk.inj ht
    exact h.paired.posOf_newId hent hpick
  refine ⟨hpos, fun e he => ?_⟩
  obtain ⟨ev', hev', hv, -⟩ := PairedEvents.event_of_entry hent he
  rw [hpos, hpick] at hev'
  cases hev'
  exact hv

/-- **The names are the same** if the lists order the calls alike. -/
theorem newId_eq (h : Relisted events g g') (hfirst : CallsFirst (pick events g))
    (hfirst' : CallsFirst (pick events g')) (hcalls : SameOrder events .call .call g g')
    (hid : ∃ ev ∈ pick events g, ev.id = id) :
    newId (pick events g) id = newId (pick events g') id := by
  refine newId_eq_of_order (fun id => h.exists_id_iff) (fun id id' hid hid' => ?_) hid
  obtain ⟨c, hc, ev, hev, ht⟩ := h.exists_index hid true
  obtain ⟨c', hc', ev', hev', ht'⟩ := h.exists_index hid' true
  obtain ⟨rfl, hk⟩ := tag_eq_true_iff.1 ht
  obtain ⟨rfl, hk'⟩ := tag_eq_true_iff.1 ht'
  rw [h.paired.newId_lt_iff hfirst ((getElem?_pick_idxOf h.lt hc).trans hev)
      ((getElem?_pick_idxOf h.lt hc').trans hev') ht ht',
    h.symm.paired.newId_lt_iff hfirst'
      ((getElem?_pick_idxOf h.symm.lt (h.perm.mem_iff.1 hc)).trans hev)
      ((getElem?_pick_idxOf h.symm.lt (h.perm.mem_iff.1 hc')).trans hev') ht ht']
  exact hcalls c hc c' hc' ⟨ev, hev, hk⟩ ⟨ev', hev', hk'⟩

/-- Where both entry lists have the call of a name, or its return. -/
theorem located (h : Relisted events g g') (hfirst : CallsFirst (pick events g))
    (hfirst' : CallsFirst (pick events g')) (hcalls : SameOrder events .call .call g g')
    (hent : List.Forall₂ (IsEntryOf (pick events g)) (pick events g) entries)
    (hent' : List.Forall₂ (IsEntryOf (pick events g')) (pick events g') entries')
    (hk : k < idCount (pick events g)) (kind : EventKind) :
    ∃ i ∈ g, ∃ ev, events[i]? = some ev ∧ ev.kind = kind ∧
      (posOf entries k (decide (kind = .call)) = g.idxOf i ∧
        ∀ e, entries[posOf entries k (decide (kind = .call))]? = some e →
          eventValue ev = .ok e.value) ∧
      posOf entries' k (decide (kind = .call)) = g'.idxOf i ∧
        ∀ e, entries'[posOf entries' k (decide (kind = .call))]? = some e →
          eventValue ev = .ok e.value := by
  obtain ⟨ev, hev, rfl⟩ := newId_surj hk
  have hid : ∃ ev' ∈ pick events g, ev'.id = ev.id := ⟨ev, hev, rfl⟩
  obtain ⟨i, hi, ev', hev', ht⟩ := h.exists_index hid (decide (kind = .call))
  have hkind : ev'.kind = kind := by
    cases kind with
    | call => exact (tag_eq_true_iff.1 ht).2
    | ret => exact (tag_eq_false_iff.1 ht).2
  refine ⟨i, hi, ev', hev', hkind, h.posOf_eq hent hi hev' ht, ?_⟩
  rw [h.newId_eq hfirst hfirst' hcalls hid]
  exact h.symm.posOf_eq hent' (h.perm.mem_iff.1 hi) hev' ht

/-- **The group gets one verdict**, for any model and any `==`, if the lists
order its calls alike, and its returns and calls. -/
theorem checksTo_eq [BEq State] {debug : Bool} {model' : Model State Input Output} {r r' : Bool}
    (h : Relisted events g g') (hfirst : CallsFirst (pick events g))
    (hfirst' : CallsFirst (pick events g')) (hprec : SameOrder events .ret .call g g')
    (hcalls : SameOrder events .call .call g g')
    (hent : List.Forall₂ (IsEntryOf (pick events g)) (pick events g) entries)
    (hent' : List.Forall₂ (IsEntryOf (pick events g')) (pick events g') entries')
    (hsize : entries.length < NONE) (hinit : model'.init = model.init)
    (hstep : model'.step = model.step) (hr : ChecksTo debug model entries r)
    (hr' : ChecksTo debug model' entries' r') : r = r' := by
  have hpair := h.paired.paired hent
  have hpair' : Paired entries' (idCount (pick events g)) := by
    have hpair' := h.symm.paired.paired hent'
    have hlen := (h.perm.filterMap fun i => events[i]?).length_eq
    rw [← pick, ← pick, hent.length_eq, hent'.length_eq, hpair.length_eq, hpair'.length_eq] at hlen
    rwa [show idCount (pick events g) = idCount (pick events g') by omega]
  have hloc : ∀ k < idCount (pick events g), ∀ kind, _ := fun k hk kind =>
    h.located hfirst hfirst' hcalls hent hent' hk kind
  refine hpair.checksTo_eq_of_order hpair' hsize hinit hstep (fun k hk => ?_)
    (fun x hx y hy => ?_) (fun x hx y hy => ?_) hr hr'
  · obtain ⟨-, -, evc, -, -, ⟨-, hvc⟩, -, hvc'⟩ := hloc k hk .call
    obtain ⟨-, -, evr, -, -, ⟨-, hvr⟩, -, hvr'⟩ := hloc k hk .ret
    obtain ⟨t, input, hc⟩ := hpair.call_entry hk
    obtain ⟨t', input', hc'⟩ := hpair'.call_entry hk
    obtain ⟨u, output, hret⟩ := hpair.ret_entry hk
    obtain ⟨u', output', hret'⟩ := hpair'.ret_entry hk
    cases (hvc _ hc).symm.trans (hvc' _ hc')
    cases (hvr _ hret).symm.trans (hvr' _ hret')
    simp only [opOf, hc, hret, hc', hret']
  · obtain ⟨i, hi, ev, hev, hk, ⟨hpos, -⟩, hpos', -⟩ := hloc x hx .ret
    obtain ⟨j, hj, ev', hev', hk', ⟨hposj, -⟩, hposj', -⟩ := hloc y hy .call
    have hiff := hprec i hi j hj ⟨ev, hev, hk⟩ ⟨ev', hev', hk'⟩
    rw [← hpos, ← hposj, ← hpos', ← hposj'] at hiff
    exact hiff.symm
  · obtain ⟨i, hi, ev, hev, hk, ⟨hpos, -⟩, hpos', -⟩ := hloc x hx .call
    obtain ⟨j, hj, ev', hev', hk', ⟨hposj, -⟩, hposj', -⟩ := hloc y hy .call
    have hiff := hcalls i hi j hj ⟨ev, hev, hk⟩ ⟨ev', hev', hk'⟩
    rw [← hpos, ← hposj, ← hpos', ← hposj'] at hiff
    exact hiff.symm

end Relisted

end Porcupine
