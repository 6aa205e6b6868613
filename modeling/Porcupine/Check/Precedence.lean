import Porcupine.Check.Agreement
import Porcupine.Check.Relisting
import Porcupine.Common.Intervals
/-!
# Models that tell precedences apart

A check sees the order of its events only through the model. A model that
accepts everything sees no order at all, and one that refuses an operation
until it has seen another sees whether the one precedes the other, as long
as the two differ in their inputs or their outputs from each other and
from the rest (`eventsLinearizable_refusing_iff`).
-/

namespace Porcupine

open Linearization

variable {Input Output : Type} {events : List (Event Input Output)} {P : List (List ℕ)}
variable {g g' : List ℕ}

/-- **Operations of different ids differ**, in their inputs or their
outputs. -/
def Distinguishable (events : List (Event Input Output)) : Prop :=
  ∀ id id' op op', OperationOf events id op → OperationOf events id' op' → op.io = op'.io → id = id'

/-- They do if their inputs differ. -/
theorem distinguishable_of_inputs (h : ∀ ev ∈ events, ∀ ev' ∈ events, ev.kind = .call →
    ev'.kind = .call → ev.input = ev'.input → ev.id = ev'.id) : Distinguishable events := by
  intro id id' op op' hop hop' he
  obtain ⟨ev, hev, hk, rfl, hin⟩ := hop.call
  obtain ⟨ev', hev', hk', rfl, hin'⟩ := hop'.call
  refine h ev (List.mem_of_getElem? hev) ev' (List.mem_of_getElem? hev') hk hk' ?_
  rw [hin, hin']
  exact congrArg some (congrArg Prod.fst he)

theorem Distinguishable.pick (h : Distinguishable events) (hlt : ∀ i ∈ g, i < events.length) :
    Distinguishable (pick events g) := fun id id' op op' hop hop' he =>
  h id id' (op.relocate g) (op'.relocate g) (hop.relocate hlt) (hop'.relocate hlt) he

/-- A model that accepts everything. -/
def Model.accepting (Input Output : Type) : Model Unit Input Output where
  init := ()
  step _ _ _ := some ()

open Classical in
/-- A model that refuses `a` until it has seen `b`. -/
noncomputable def Model.refusing (a b : Input × Output) : Model Bool Input Output where
  init := false
  step seen input output := refuseUntil a b seen (input, output)

/-! ## One history -/

section History

variable (hp : PairedEvents events) (hfirst : CallsFirst events)

include hp hfirst

theorem eventsLinearizable_accepting :
    EventsLinearizable (Model.accepting Input Output) events := by
  obtain ⟨entries, -, hent, -⟩ := hp.convert
  have hops := hp.operationsOf hent
  have hacc : ∀ order : List (Operation Input Output),
      Accepts (fun s op => (Model.accepting Input Output).apply s op.io) () order := by
    intro order
    induction order with
    | nil => exact accepts_nil
    | cons op order ih => exact accepts_cons.2 ⟨(), rfl, ih⟩
  exact ⟨_, hops, linearizable_of_accepts (hops.wellFormed hfirst) fun order _ => hacc order⟩

/-- What has no `a` is not refused. -/
theorem eventsLinearizable_refusing_of_forall_ne {a b : Input × Output}
    (ha : ∀ id op, OperationOf events id op → op.io ≠ a) :
    EventsLinearizable (Model.refusing a b) events := by
  classical
  obtain ⟨entries, -, hent, -⟩ := hp.convert
  have hops := hp.operationsOf hent
  refine ⟨_, hops, linearizable_of_accepts (hops.wellFormed hfirst) fun order hperm => ?_⟩
  have hmem : a ∉ order.map Operation.io := by
    intro hmem
    obtain ⟨op, hop, rfl⟩ := List.mem_map.1 hmem
    obtain ⟨id, hof⟩ := hops.exists_id (hperm.mem_iff.1 hop)
    exact ha id op hof rfl
  have hacc := accepts_refuseUntil_of_notMem (b := b) hmem
  rwa [Accepts, run_map] at hacc

/-- **The model tells whether the one operation precedes the other.** -/
theorem eventsLinearizable_refusing_iff (hdist : Distinguishable events) {ida idb : ℕ}
    {a b : Operation Input Output} (ha : OperationOf events ida a) (hb : OperationOf events idb b)
    (hne : ida ≠ idb) :
    EventsLinearizable (Model.refusing a.io b.io) events ↔ ¬ a.Before b := by
  classical
  obtain ⟨entries, -, hent, -⟩ := hp.convert
  have hops := hp.operationsOf hent
  have hmem : ∀ {id : ℕ} {op : Operation Input Output}, OperationOf events id op →
      op.content ∈ (historyOf entries).map Operation.content := by
    intro id op hof
    obtain ⟨ev, hev, -, hid, -⟩ := hof.call
    obtain ⟨op', hop', hof'⟩ := hops.exists_mem ⟨ev, List.mem_of_getElem? hev, hid⟩
    exact List.mem_map.2 ⟨op', hop', hof'.content_eq hp.nodup_kind hof⟩
  -- an operation is known by what the model sees of it
  have hio : ∀ {id : ℕ} {op : Operation Input Output}, OperationOf events id op →
      ∀ x ∈ (historyOf entries).map Operation.content, x.1 = op.io ↔ x = op.content := by
    intro id op hof x hx
    refine ⟨fun he => ?_, fun he => he ▸ rfl⟩
    obtain ⟨op', hop', rfl⟩ := List.mem_map.1 hx
    obtain ⟨id', hof'⟩ := hops.exists_id hop'
    obtain rfl := hdist id' id op' op hof' hof he
    exact hof'.content_eq hp.nodup_kind hof
  have hstep : ∀ s, ∀ x ∈ (historyOf entries).map Operation.content,
      refuseUntil a.content b.content s x = (Model.refusing a.io b.io).apply s x.1 := by
    intro s x hx
    simp only [Model.refusing, Model.apply, refuseUntil, hio ha x hx, hio hb x hx, Prod.mk.eta]
  rw [hops.linearizable_iff hp.nodup_kind, historyLinearizable_iff_content,
    linearizable_congr_step _ hstep]
  refine linearizable_refuseUntil_iff (fun x => x.2.1) (fun x => x.2.2) ?_
    (hmem ha) (hmem hb) fun he => hne (hdist _ _ a b ha hb (congrArg Prod.fst he))
  rw [List.forall_mem_map]
  exact hops.wellFormed hfirst

end History

/-! ## A partitioned history -/

namespace Accepted

/-- Groups with an index in common are one group. -/
theorem eq_of_mem (h : Accepted events P) (hg : g ∈ P) (hg' : g' ∈ P) {i : ℕ} (hi : i ∈ g)
    (hi' : i ∈ g') : g = g' := by
  by_contra hne
  have : Std.Symm (List.Disjoint (α := ℕ)) := ⟨fun _ _ => List.Disjoint.symm⟩
  have hnd : P.flatten.Nodup := h.partition.covers.nodup_iff.2 List.nodup_range
  exact (List.nodup_flatten.1 hnd).2.forall hg hg' hne hi hi'

/-- The operation of an event, in its group. -/
theorem exists_operationOf (h : Accepted events P) (hg : g ∈ P) {i : ℕ} (hi : i ∈ g)
    {ev : Event Input Output} (hev : events[i]? = some ev) {op : Operation Input Output}
    (hop : OperationOf events ev.id op) :
    ∃ op', OperationOf (pick events g) ev.id op' ∧ op'.io = op.io ∧
      (ev.kind = .call → op'.call = g.idxOf i) ∧ (ev.kind = .ret → op'.returnTime = g.idxOf i) := by
  have hlt := lt_of_covers h.partition.covers g hg
  have hgroup := h.partition.paired g hg
  have hpos : (pick events g)[g.idxOf i]? = some ev := by rw [getElem?_pick_idxOf hlt hi, hev]
  obtain ⟨entries, -, hent, -⟩ := hgroup.convert
  obtain ⟨op', -, hop'⟩ :=
    (hgroup.operationsOf hent).exists_mem ⟨ev, List.mem_of_getElem? hpos, rfl⟩
  refine ⟨op', hop', ?_, fun hk => ?_, fun hk => ?_⟩
  · exact congrArg Prod.fst ((hop'.relocate hlt).content_eq h.paired.nodup_kind hop)
  · obtain ⟨evc, hc, hkc, hidc, -⟩ := hop'.call
    exact getElem?_inj_tag hgroup.nodup hc hpos (by rw [Event.tag, Event.tag, hkc, hidc, hk])
  · obtain ⟨evr, hr, hkr, hidr, -⟩ := hop'.ret
    exact getElem?_inj_tag hgroup.nodup hr hpos (by rw [Event.tag, Event.tag, hkr, hidr, hk])

variable {r c : ℕ} {evr evc : Event Input Output}

/-- **The groups tell whether the list of one has a return before a
call.** -/
theorem forall_refusing_iff (h : Accepted events P) (hlist : ∀ g ∈ P, CallsFirst (pick events g))
    (hdist : Distinguishable events) (hg : g ∈ P) (hr : r ∈ g) (hc : c ∈ g)
    (hevr : events[r]? = some evr) (hevc : events[c]? = some evc) (hkr : evr.kind = .ret)
    (hkc : evc.kind = .call) (hne : evr.id ≠ evc.id) {a b : Operation Input Output}
    (ha : OperationOf events evr.id a) (hb : OperationOf events evc.id b) :
    (∀ g ∈ P, EventsLinearizable (Model.refusing a.io b.io) (pick events g)) ↔
      ¬ g.idxOf r < g.idxOf c := by
  have hlt : ∀ g ∈ P, ∀ i ∈ g, i < events.length := lt_of_covers h.partition.covers
  obtain ⟨a', ha', hioa, -, hreta⟩ := h.exists_operationOf hg hr hevr ha
  obtain ⟨b', hb', hiob, hcallb, -⟩ := h.exists_operationOf hg hc hevc hb
  have hgroup : EventsLinearizable (Model.refusing a.io b.io) (pick events g) ↔
      ¬ g.idxOf r < g.idxOf c := by
    rw [← hioa, ← hiob, eventsLinearizable_refusing_iff (h.partition.paired g hg) (hlist g hg)
      (hdist.pick (hlt g hg)) ha' hb' hne, Operation.Before, hreta hkr, hcallb hkc]
  refine ⟨fun hall => hgroup.1 (hall g hg), fun hnot g' hg' => ?_⟩
  by_cases hgg : g = g'
  · exact hgg ▸ hgroup.2 hnot
  · -- an operation of another group that looks like `a` would be `a`
    refine eventsLinearizable_refusing_of_forall_ne (h.partition.paired g' hg') (hlist g' hg')
      fun id op hop hio => hgg ?_
    obtain rfl := hdist id evr.id _ a (hop.relocate (hlt g' hg')) ha hio
    obtain ⟨ev, hev, hk, hid, -⟩ := hop.ret
    obtain ⟨hlen, hev'⟩ := getElem?_getD_of_pick (hlt g' hg') hev
    have heq : g'.getD op.returnTime 0 = r :=
      getElem?_inj_tag h.paired.nodup hev' hevr (by rw [Event.tag, Event.tag, hk, hid, hkr])
    exact h.eq_of_mem hg hg' hr (heq ▸ getD_mem hlen)

/-- In a list that has its calls first, no return comes before its call. -/
theorem not_idxOf_lt (h : Accepted events P) (hlist : ∀ g ∈ P, CallsFirst (pick events g))
    (hg : g ∈ P) (hr : r ∈ g) (hc : c ∈ g) (hevr : events[r]? = some evr)
    (hevc : events[c]? = some evc) (hkr : evr.kind = .ret) (hkc : evc.kind = .call)
    (hid : evr.id = evc.id) : ¬ g.idxOf r < g.idxOf c := by
  have hlt := lt_of_covers h.partition.covers g hg
  have hfirst := hlist g hg evc.id (g.idxOf c) (g.idxOf r) evc evr
    ((getElem?_pick_idxOf hlt hc).trans hevc) ((getElem?_pick_idxOf hlt hr).trans hevr)
    (tag_eq_true_iff.2 ⟨rfl, hkc⟩) (tag_eq_false_iff.2 ⟨hid, hkr⟩)
  exact hfirst.asymm

end Accepted

end Porcupine
