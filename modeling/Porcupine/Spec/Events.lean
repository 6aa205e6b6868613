import Porcupine.Spec.History
import Mathlib.Data.List.Perm.Basic
/-!
# The operations of an event history

An event history stands for the operations of its ids, whose times are the
positions of the call and the return. It says nothing of the order of the
operations or of their clients, and neither matters
(`historyLinearizable_of_perm`).
-/

namespace Porcupine

open Linearization

variable {State Input Output : Type} {model : Model State Input Output}
variable {events : List (Event Input Output)} {ops ops' : List (Operation Input Output)}

/-- The operation of an id: its input is the call's, its output the
return's, and its times are their positions. -/
structure OperationOf (events : List (Event Input Output)) (id : ℕ) (op : Operation Input Output) :
    Prop where
  call : ∃ ev, events[op.call]? = some ev ∧ ev.kind = .call ∧ ev.id = id ∧ ev.input = some op.input
  ret : ∃ ev, events[op.returnTime]? = some ev ∧ ev.kind = .ret ∧ ev.id = id ∧
    ev.output = some op.output

/-- **The operations are those of the events**: one for each id, in any
order. -/
def OperationsOf (events : List (Event Input Output)) (ops : List (Operation Input Output)) : Prop :=
  ∃ ids : List ℕ, ids.Nodup ∧ (∀ id, id ∈ ids ↔ ∃ ev ∈ events, ev.id = id) ∧
    List.Forall₂ (OperationOf events) ids ops

/-- Each of them is the operation of an id, -/
theorem OperationsOf.exists_id (h : OperationsOf events ops) {op : Operation Input Output}
    (hop : op ∈ ops) : ∃ id, OperationOf events id op := by
  obtain ⟨ids, -, -, hall⟩ := h
  obtain ⟨i, hi, rfl⟩ := List.getElem_of_mem hop
  exact ⟨_, hall.get (hall.length_eq ▸ hi) hi⟩

/-- and each id has its operation among them. -/
theorem OperationsOf.exists_mem (h : OperationsOf events ops) {id : ℕ}
    (hid : ∃ ev ∈ events, ev.id = id) : ∃ op ∈ ops, OperationOf events id op := by
  obtain ⟨ids, -, hids, hall⟩ := h
  obtain ⟨i, hi, rfl⟩ := List.getElem_of_mem ((hids id).2 hid)
  have hi' : i < ops.length := hall.length_eq ▸ hi
  exact ⟨ops[i], List.getElem_mem hi', hall.get hi hi'⟩

/-- The operations of the events have a linearization. -/
def EventsLinearizable (model : Model State Input Output) (events : List (Event Input Output)) :
    Prop :=
  ∃ ops, OperationsOf events ops ∧ HistoryLinearizable model ops

/-- What linearizability reads of an operation: everything but the
client. -/
def Operation.content (op : Operation Input Output) : (Input × Output) × ℕ × ℕ :=
  (op.io, op.call, op.returnTime)

theorem historyLinearizable_iff_content : HistoryLinearizable model ops ↔
    Linearizable (fun a b : (Input × Output) × ℕ × ℕ => a.2.2 < b.2.1)
      (fun s a => model.apply s a.1) model.init (ops.map Operation.content) := by
  rw [linearizable_map]
  rfl

/-- **The order of a history, and its clients, do not matter.** -/
theorem historyLinearizable_of_perm (h : (ops.map Operation.content).Perm
    (ops'.map Operation.content)) :
    HistoryLinearizable model ops ↔ HistoryLinearizable model ops' := by
  rw [historyLinearizable_iff_content, historyLinearizable_iff_content, linearizable_perm h]

/-- The events fix the operation of an id, up to its client. -/
theorem OperationOf.content_eq (hnd : (events.map fun ev => (ev.id, ev.kind)).Nodup) {id : ℕ}
    {op op' : Operation Input Output} (h : OperationOf events id op)
    (h' : OperationOf events id op') : op.content = op'.content := by
  have hpos : ∀ {p q : ℕ} {ev ev' : Event Input Output}, events[p]? = some ev →
      events[q]? = some ev' → (ev.id, ev.kind) = (ev'.id, ev'.kind) → p = q := by
    intro p q ev ev' hp hq he
    have hp' : (events.map fun ev => (ev.id, ev.kind))[p]? = some (ev.id, ev.kind) := by simp [hp]
    have hq' : (events.map fun ev => (ev.id, ev.kind))[q]? = some (ev.id, ev.kind) := by
      simp [hq, he]
    exact (List.getElem?_inj (List.getElem?_eq_some_iff.1 hp').1 hnd).1 (hp'.trans hq'.symm)
  obtain ⟨ev, hc, hk, hid, hin⟩ := h.call
  obtain ⟨ev', hc', hk', hid', hin'⟩ := h'.call
  obtain ⟨er, hr, hkr, hidr, hout⟩ := h.ret
  obtain ⟨er', hr', hkr', hidr', hout'⟩ := h'.ret
  have hcall : op.call = op'.call := hpos hc hc' (by rw [hid, hid', hk, hk'])
  have hret : op.returnTime = op'.returnTime := hpos hr hr' (by rw [hidr, hidr', hkr, hkr'])
  rw [hcall, hc'] at hc
  rw [hret, hr'] at hr
  cases hc
  cases hr
  have hinput : op.input = op'.input := Option.some.inj (hin.symm.trans hin')
  have houtput : op.output = op'.output := Option.some.inj (hout.symm.trans hout')
  rw [Operation.content, Operation.content, Operation.io, Operation.io, hcall, hret, hinput, houtput]

/-- **The events fix their operations**, up to order and clients. -/
theorem OperationsOf.perm (hnd : (events.map fun ev => (ev.id, ev.kind)).Nodup)
    (h : OperationsOf events ops) (h' : OperationsOf events ops') :
    (ops.map Operation.content).Perm (ops'.map Operation.content) := by
  obtain ⟨ids, hids, hmem, hall⟩ := h
  obtain ⟨ids', hids', hmem', hall'⟩ := h'
  have hperm : ids.Perm ids' :=
    (List.perm_ext_iff_of_nodup hids hids').2 fun id => (hmem id).trans (hmem' id).symm
  obtain ⟨ops'', hall'', hperm''⟩ := List.perm_comp_forall₂ hperm hall'
  have heq : ops.map Operation.content = ops''.map Operation.content := by
    clear hmem hmem' hperm hids hperm''
    induction hall generalizing ops'' with
    | nil =>
      cases hall''
      rfl
    | cons hop _ ih =>
      cases hall'' with
      | cons hop'' hrest => rw [List.map_cons, List.map_cons, hop.content_eq hnd hop'', ih _ hrest]
  rw [heq]
  exact hperm''.map _

/-- **Whether events are linearizable can be read off any list of their
operations.** -/
theorem OperationsOf.linearizable_iff (hnd : (events.map fun ev => (ev.id, ev.kind)).Nodup)
    (h : OperationsOf events ops) :
    EventsLinearizable model events ↔ HistoryLinearizable model ops :=
  ⟨fun ⟨_, h', hlin⟩ => (historyLinearizable_of_perm (h'.perm hnd h)).1 hlin,
    fun hlin => ⟨ops, h, hlin⟩⟩

end Porcupine
