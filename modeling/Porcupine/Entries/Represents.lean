import Porcupine.Entries.Paired
import Porcupine.Spec.History
import Mathlib.Data.List.FinRange
/-!
# Entry lists that represent a history

An entry list represents a history when its operations are the history's,
in the history's order, and one precedes another in the list exactly when
it does in real time. Then the entries are linearizable exactly when the
history is (`Represents.linearizable_iff`). Entry lists that differ by the
names of the operations are linearizable together
(`Renamed.linearizable_iff`), and every paired list represents a history,
the one with positions for times (`Paired.represents`).
-/

namespace Porcupine

open Linearization

variable {State Input Output : Type} {model : Model State Input Output}
variable {entries entries' : List (Entry Input Output)} {ops : List (Operation Input Output)}
variable {n id p : ℕ}

/-- **The entries represent the history.** -/
structure Represents (entries : List (Entry Input Output)) (ops : List (Operation Input Output)) :
    Prop where
  paired : Paired entries ops.length
  opOf : ∀ i op, ops[i]? = some op → opOf entries i = some op.io
  precedes : ∀ i j a b, ops[i]? = some a → ops[j]? = some b → (Precedes entries i j ↔ a.Before b)

namespace Represents

/-- **The entries are linearizable exactly when the history is.** -/
theorem linearizable_iff (h : Represents entries ops) :
    EntriesLinearizable model entries ↔ HistoryLinearizable model ops := by
  have hget : ∀ i : Fin ops.length, ops[i.1]? = some (ops.get i) := fun i => by simp
  have hids : List.range (entries.length / 2) = (List.finRange ops.length).map Fin.val := by
    rw [h.paired.half_length, List.map_coe_finRange_eq_range]
  have hops : ops = (List.finRange ops.length).map ops.get := by
    rw [List.map_get_finRange]
  rw [EntriesLinearizable, HistoryLinearizable, hids, linearizable_map]
  conv_rhs => rw [hops, linearizable_map]
  rw [linearizable_congr (fun a b => (ops.get a).Before (ops.get b))
      fun a _ b _ => (h.precedes a b _ _ (hget a) (hget b)).symm,
    linearizable_congr_step (fun s i => model.apply s (ops.get i).io)]
  intro s i _
  simp only [applyOp, h.opOf i _ (hget i), Option.bind_some, Model.apply]

/-- An operation comes before its return exactly when it does not return
before it is called. -/
theorem callPos_lt_retPos_iff (h : Represents entries ops) {op : Operation Input Output}
    (hop : ops[id]? = some op) : callPos entries id < retPos entries id ↔ op.WellFormed := by
  have hid : id < ops.length := (List.getElem?_eq_some_iff.1 hop).1
  have hne : callPos entries id ≠ retPos entries id := fun he => by
    cases (h.paired.posOf_inj hid hid he).2
  have hprec : retPos entries id < callPos entries id ↔ op.returnTime < op.call :=
    h.precedes id id op op hop hop
  rw [Operation.WellFormed]
  omega

/-- Calls come first exactly when no operation returns before it is
called. -/
theorem callFirst_iff (h : Represents entries ops) :
    CallFirst entries ops.length ↔ ∀ op ∈ ops, op.WellFormed := by
  constructor
  · intro hfirst op hop
    obtain ⟨id, hid⟩ := List.getElem?_of_mem hop
    exact (h.callPos_lt_retPos_iff hid).1 (hfirst id (List.getElem?_eq_some_iff.1 hid).1)
  · intro hwf id hid
    exact (h.callPos_lt_retPos_iff (List.getElem?_eq_getElem hid)).2 (hwf _ (List.getElem_mem hid))

theorem callFirst (h : Represents entries ops) (hwf : ∀ op ∈ ops, op.WellFormed) :
    CallFirst entries ops.length :=
  h.callFirst_iff.2 hwf

end Represents

/-! ## Names -/

/-- The same values in the same order, each operation under another name. -/
structure Renamed (entries entries' : List (Entry Input Output)) (name : ℕ → ℕ) : Prop where
  forall₂ : List.Forall₂ (fun e e' => e'.value = e.value ∧ e'.id = name e.id) entries entries'

namespace Renamed

variable {name : ℕ → ℕ}

theorem length_eq (h : Renamed entries entries' name) : entries'.length = entries.length :=
  h.forall₂.length_eq.symm

theorem getElem? (h : Renamed entries entries' name) {e : Entry Input Output}
    (he : entries[p]? = some e) :
    ∃ t, entries'[p]? = some ⟨name e.id, t, e.value⟩ := by
  obtain ⟨hp, rfl⟩ := List.getElem?_eq_some_iff.1 he
  have hp' : p < entries'.length := by
    rw [h.length_eq]
    exact hp
  obtain ⟨hv, hid⟩ := h.forall₂.get hp hp'
  refine ⟨entries'[p].time, ?_⟩
  rw [List.getElem?_eq_getElem hp']
  simp only [List.get_eq_getElem] at hv hid
  rw [← hv, ← hid]

/-- Positions are kept. -/
theorem posOf_eq (h : Renamed entries entries' name) (hp : Paired entries n)
    (hp' : Paired entries' n) (hid : id < n) (b : Bool) :
    posOf entries' (name id) b = posOf entries id b := by
  obtain ⟨e, he, ht⟩ := hp.getElem?_posOf hid b
  obtain ⟨t, he'⟩ := h.getElem? he
  have hpos := (hp'.posOf_tag he').1
  obtain ⟨rfl, rfl⟩ : e.id = id ∧ e.value.isCall = b := Prod.mk.inj ht
  exact hpos

theorem name_lt (h : Renamed entries entries' name) (hp : Paired entries n)
    (hp' : Paired entries' n) (hid : id < n) : name id < n := by
  obtain ⟨e, he, ht⟩ := hp.getElem?_posOf hid true
  obtain ⟨t, he'⟩ := h.getElem? he
  have hlt := (hp'.posOf_tag he').2
  obtain ⟨rfl, -⟩ : e.id = id ∧ e.value.isCall = true := Prod.mk.inj ht
  exact hlt

theorem opOf_eq (h : Renamed entries entries' name) (hp : Paired entries n)
    (hp' : Paired entries' n) (hid : id < n) : opOf entries' (name id) = opOf entries id := by
  obtain ⟨t, input, hc⟩ := hp.call_entry hid
  obtain ⟨t', output, hr⟩ := hp.ret_entry hid
  obtain ⟨u, hc'⟩ := h.getElem? hc
  obtain ⟨u', hr'⟩ := h.getElem? hr
  simp only [opOf, h.posOf_eq hp hp' hid, hc, hr, hc', hr']

/-- **Names do not matter.** -/
theorem linearizable_iff (h : Renamed entries entries' name) (hp : Paired entries n)
    (hp' : Paired entries' n) :
    EntriesLinearizable model entries ↔ EntriesLinearizable model entries' := by
  -- the names are the ids again, in another order
  have hinj : ∀ i ∈ List.range n, ∀ j ∈ List.range n, name i = name j → i = j := by
    intro i hi j hj he
    rw [List.mem_range] at hi hj
    have hpos : posOf entries i true = posOf entries j true := by
      rw [← h.posOf_eq hp hp' hi, ← h.posOf_eq hp hp' hj, he]
    exact (hp.posOf_inj hi hj hpos).1
  have hperm : ((List.range n).map name).Perm (List.range n) := by
    have hnd : ((List.range n).map name).Nodup := List.nodup_range.map_on hinj
    refine (hnd.subperm fun i hi => ?_).perm_of_length_le (by simp)
    obtain ⟨j, hj, rfl⟩ := List.mem_map.1 hi
    exact List.mem_range.2 (h.name_lt hp hp' (List.mem_range.1 hj))
  have hprec : ∀ a ∈ List.range n, ∀ b ∈ List.range n,
      Precedes entries' (name a) (name b) ↔ Precedes entries a b := by
    intro a ha b hb
    rw [precedes_iff, precedes_iff, h.posOf_eq hp hp' (List.mem_range.1 ha),
      h.posOf_eq hp hp' (List.mem_range.1 hb)]
  have hstep : ∀ s, ∀ a ∈ List.range n, applyOp model entries' s (name a) =
      applyOp model entries s a := by
    intro s a ha
    simp only [applyOp, h.opOf_eq hp hp' (List.mem_range.1 ha)]
  rw [EntriesLinearizable, EntriesLinearizable, hp.half_length, hp'.half_length,
    linearizable_congr _ hprec, linearizable_congr_step _ hstep]
  exact (linearizable_map _ _ name).symm.trans (linearizable_perm hperm)

end Renamed

/-! ## Positions as times -/

/-- The operations of the list, with positions for times. -/
def historyOf (entries : List (Entry Input Output)) : List (Operation Input Output) :=
  (List.range (entries.length / 2)).filterMap fun id => (opOf entries id).map fun io =>
    ⟨0, io.1, callPos entries id, io.2, retPos entries id⟩

namespace Paired

theorem historyOf_forall₂ (h : Paired entries n) :
    List.Forall₂ (fun id (op : Operation Input Output) => opOf entries id = some op.io ∧
      op.call = callPos entries id ∧ op.returnTime = retPos entries id)
      (List.range n) (historyOf entries) := by
  rw [historyOf, h.half_length]
  have key : ∀ l : List ℕ, (∀ id ∈ l, id < n) →
      List.Forall₂ (fun id (op : Operation Input Output) => opOf entries id = some op.io ∧
        op.call = callPos entries id ∧ op.returnTime = retPos entries id) l
        (l.filterMap fun id => (opOf entries id).map fun io =>
          ⟨0, io.1, callPos entries id, io.2, retPos entries id⟩) := by
    intro l
    induction l with
    | nil => intro _; exact .nil
    | cons id l ih =>
      intro hl
      obtain ⟨input, output, hop⟩ := h.opOf_eq_some (hl id (by simp))
      rw [List.filterMap_cons_some (b := ⟨0, input, callPos entries id, output, retPos entries id⟩)
        (by rw [hop]; rfl)]
      exact .cons ⟨hop, rfl, rfl⟩ (ih fun i hi => hl i (List.mem_cons_of_mem _ hi))
  exact key _ fun id hid => List.mem_range.1 hid

theorem length_historyOf (h : Paired entries n) : (historyOf entries).length = n := by
  rw [← h.historyOf_forall₂.length_eq, List.length_range]

theorem getElem?_historyOf (h : Paired entries n) {op : Operation Input Output}
    (hop : (historyOf entries)[id]? = some op) :
    id < n ∧ opOf entries id = some op.io ∧ op.call = callPos entries id ∧
      op.returnTime = retPos entries id := by
  obtain ⟨hid, rfl⟩ := List.getElem?_eq_some_iff.1 hop
  have hn : id < n := h.length_historyOf ▸ hid
  have hget := h.historyOf_forall₂.get (i := id) (by simpa using hn) hid
  simpa [hn] using hget

/-- **Every paired list represents its history.** -/
theorem represents (h : Paired entries n) : Represents entries (historyOf entries) where
  paired := by
    rw [h.length_historyOf]
    exact h
  opOf i op hop := (h.getElem?_historyOf hop).2.1
  precedes i j a b ha hb := by
    obtain ⟨-, -, -, hret⟩ := h.getElem?_historyOf ha
    obtain ⟨-, -, hcall, -⟩ := h.getElem?_historyOf hb
    rw [Operation.Before, hret, hcall]
    rfl

end Paired

end Porcupine
