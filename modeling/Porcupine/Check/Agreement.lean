import Porcupine.Check.Decides
import Porcupine.Model.Fixtures
/-!
# The two entry points agree

An event history is checked as the operations of its ids, and a history of
operations may as well be checked as events, under any names and whatever
way its ties are broken. Both pipelines end in an entry list that
represents the operations, so the two searches see other ids and other
orders and decide the same thing.
-/

namespace Porcupine

variable {State Input Output : Type} {events : List (Event Input Output)}
variable {ops : List (Operation Input Output)} {entries : List (Entry Input Output)}
variable {ids : ℕ → ℕ}

/-! ## Events as operations -/

/-- The operations of well-formed events are well formed. -/
theorem OperationsOf.wellFormed (h : OperationsOf events ops) (hfirst : CallsFirst events) :
    ∀ op ∈ ops, op.WellFormed := by
  intro op hop
  obtain ⟨id, hof⟩ := h.exists_id hop
  obtain ⟨evc, hc, hkc, hidc, -⟩ := hof.call
  obtain ⟨evr, hr, hkr, hidr, -⟩ := hof.ret
  exact (hfirst _ _ _ evc evr hc hr (tag_eq_true_iff.2 ⟨hidc, hkc⟩)
    (tag_eq_false_iff.2 ⟨hidr, hkr⟩)).le

/-- There are half as many as there are events. -/
theorem OperationsOf.length_eq (h : OperationsOf events ops) (hp : PairedEvents events) :
    2 * ops.length = events.length := by
  obtain ⟨entries, -, hent, hpaired⟩ := hp.convert
  have hperm := h.perm hp.nodup_kind (hp.operationsOf hent)
  have hlen := hperm.length_eq
  rw [List.length_map, List.length_map, hpaired.length_historyOf] at hlen
  rw [hlen, ← hpaired.length_eq, hent.length_eq]

/-! ## Operations as events -/

/-- **The operations as events**: sorted by time with calls first, ties
broken in any way, under the ids `ids`. -/
def EventsOf (ids : ℕ → ℕ) (ops : List (Operation Input Output))
    (events : List (Event Input Output)) : Prop :=
  ∃ entries, Arranged entries ops ∧
    List.Forall₂ (fun e ev => eventValue ev = .ok e.value ∧ ev.id = ids e.id) entries events

section EventsOf

variable (hent : List.Forall₂ (fun e ev => eventValue ev = .ok e.value ∧ ev.id = ids e.id)
  entries events)

include hent in
theorem tags_of_forall₂ : events.map Event.tag =
    (entries.map Entry.tag).map fun t => (ids t.1, t.2) := by
  have heq : List.Forall₂ (fun e ev => (ids e.tag.1, e.tag.2) = ev.tag) entries events := by
    refine hent.imp fun e ev he => ?_
    rw [Event.tag, he.2, ← isCall_of_eventValue he.1]
    rfl
  rw [← List.forall₂_map_right_iff, ← List.forall₂_map_left_iff, List.forall₂_eq_eq_eq] at heq
  rw [List.map_map]
  exact heq.symm

include hent in
/-- Distinct names keep the events paired. -/
theorem pairedEvents_of_forall₂ (hpaired : Paired entries ops.length)
    (hids : ∀ i < ops.length, ∀ j < ops.length, ids i = ids j → i = j) : PairedEvents events := by
  have htags := tags_of_forall₂ hent
  refine ⟨fun ev hev => ?_, ?_, fun t ht b => ?_⟩
  · obtain ⟨i, hi, rfl⟩ := List.getElem_of_mem hev
    have hi' : i < entries.length := hent.length_eq ▸ hi
    exact ⟨_, (hent.get hi' hi).1⟩
  · rw [htags]
    refine hpaired.nodup.map_on fun t ht t' ht' he => ?_
    obtain ⟨h1, h2⟩ := Prod.mk.inj he
    exact Prod.ext (hids _ ((hpaired.mem_tag t).1 ht) _ ((hpaired.mem_tag t').1 ht') h1) h2
  · rw [htags, List.mem_map] at ht ⊢
    obtain ⟨t, ht, rfl⟩ := ht
    exact ⟨(t.1, b), (hpaired.mem_tag _).2 ((hpaired.mem_tag t).1 ht), rfl⟩

include hent in
/-- Events of entries whose calls come first have their calls first. -/
theorem callsFirst_of_forall₂ (hpaired : Paired entries ops.length)
    (hids : ∀ i < ops.length, ∀ j < ops.length, ids i = ids j → i = j)
    (hfirst : CallFirst entries ops.length) : CallsFirst events := by
  have hentry : ∀ (p id : ℕ) (b : Bool) (ev : Event Input Output), events[p]? = some ev →
      ev.tag = (id, b) → ∃ k < ops.length, ids k = id ∧ posOf entries k b = p := by
    intro p id b ev hev ht
    obtain ⟨hp, rfl⟩ := List.getElem?_eq_some_iff.1 hev
    have hp' : p < entries.length := hent.length_eq ▸ hp
    obtain ⟨hv, hid⟩ := hent.get hp' hp
    obtain ⟨hpos, hlt⟩ := hpaired.posOf_tag (List.getElem?_eq_getElem hp')
    simp only [List.get_eq_getElem] at hv hid
    have hb : entries[p].value.isCall = b :=
      (isCall_of_eventValue hv).trans (congrArg Prod.snd ht)
    exact ⟨entries[p].id, hlt, hid.symm.trans (congrArg Prod.fst ht), hb ▸ hpos⟩
  intro id c r evc evr hc hr htc htr
  obtain ⟨k, hk, hidk, hposk⟩ := hentry c id true evc hc htc
  obtain ⟨j, hj, hidj, hposj⟩ := hentry r id false evr hr htr
  have hkj : j = k := hids j hj k hk (hidj.trans hidk.symm)
  subst hkj
  rw [← hposk, ← hposj]
  exact hfirst j hj

include hent in
/-- Converting them gives the entries back, under other names. -/
theorem renamed_of_forall₂ {entries' : List (Entry Input Output)}
    (hent' : List.Forall₂ (IsEntryOf events) events entries') :
    Renamed entries entries' fun id => newId events (ids id) := by
  refine ⟨List.forall₂_iff_get.2 ⟨hent.length_eq.trans hent'.length_eq, fun i h₁ h₂ => ?_⟩⟩
  have hi : i < events.length := hent.length_eq ▸ h₁
  obtain ⟨hv, hid⟩ := hent.get h₁ hi
  obtain ⟨hv', hid'⟩ := hent'.get hi h₂
  rw [hv] at hv'
  exact ⟨(Except.ok.inj hv').symm, by rw [hid', hid]⟩

end EventsOf

variable [BEq State]

/-- **`check_events` and `check_operations` agree**: on events and on any
list of their operations, and on operations and on any way of turning them
into events. -/
theorem checkEvents_agrees (debug : Bool) (srt : UnstableSort (List (Entry Input Output)))
    (model : Model State Input Output) (hpart : ∀ history, model.partition history = none)
    (hpartEvents : ∀ history, model.partitionEvents history = none) (hlaw : model.Lawful) :
    (∀ (events : List (Event Input Output)) (ops : List (Operation Input Output)),
      assertWellFormedEvents true events = .ok () → events.length ≤ 2 * (2 ^ 31 - 1) →
      OperationsOf events ops →
      ∃ r, (checker debug srt model).Returns r (checkEvents debug model events none) ∧
        (checker debug srt model).Returns r (checkOperations debug model ops none)) ∧
    (∀ (ops : List (Operation Input Output)) (ids : ℕ → ℕ) (events : List (Event Input Output)),
      (∀ op ∈ ops, op.call ≤ op.returnTime) → ops.length ≤ 2 ^ 31 - 1 →
      (∀ i < ops.length, ∀ j < ops.length, ids i = ids j → i = j) → EventsOf ids ops events →
      ∃ r, (checker debug srt model).Returns r (checkEvents debug model events none) ∧
        (checker debug srt model).Returns r (checkOperations debug model ops none)) := by
  refine ⟨fun events ops hgate hsize hops => ?_, fun ops ids events hwf hsize hids hevents => ?_⟩
  · obtain ⟨hp, hfirst⟩ := assertWellFormedEvents_iff.1 hgate
    have hlen := hops.length_eq hp
    have hev : Decides (checker debug srt model) (checkEvents debug model events none)
        (EventsLinearizable model events) :=
      (prepares_events debug (hpartEvents events) hp hfirst (by rw [NONE]; omega)).decides hlaw
    refine (hev.congr (hops.linearizable_iff hp.nodup_kind)).agree ?_
    exact (prepares_operations debug (hpart ops) (hops.wellFormed hfirst) (by omega)).decides hlaw
  · obtain ⟨entries, harr, hent⟩ := hevents
    have hrep := harr.represents
    have hp : PairedEvents events := pairedEvents_of_forall₂ hent hrep.paired hids
    have hfirst : CallsFirst events :=
      callsFirst_of_forall₂ hent hrep.paired hids (hrep.callFirst hwf)
    have hlen := hrep.paired.length_eq
    have hlen' := hent.length_eq
    have hev : Decides (checker debug srt model) (checkEvents debug model events none)
        (EventsLinearizable model events) :=
      (prepares_events debug (hpartEvents events) hp hfirst (by rw [NONE]; omega)).decides hlaw
    refine (hev.congr ?_).agree
      ((prepares_operations debug (hpart ops) hwf (by omega)).decides hlaw)
    -- the converted entries are the arranged ones under other names
    obtain ⟨entries', -, hent', hpaired'⟩ := hp.convert
    have hren := renamed_of_forall₂ hent hent'
    have hcount : idCount events = ops.length := by
      have := hpaired'.length_eq
      have := hren.length_eq
      omega
    rw [← hp.linearizable_iff hent', ← hren.linearizable_iff hrep.paired (hcount ▸ hpaired'),
      hrep.linearizable_iff]

/-- A read that overlaps the write whose value it returns. -/
def readAndWrite : List (Operation RegisterInput ℤ) :=
  [⟨0, ⟨false, 0⟩, 0, 7, 2⟩, ⟨0, ⟨true, 7⟩, 1, 0, 3⟩]

/-- The same history as events. -/
def readAndWriteEvents : List (Event RegisterInput ℤ) :=
  [⟨0, .call, some ⟨false, 0⟩, none, 9⟩, ⟨0, .call, some ⟨true, 7⟩, none, 8⟩,
    ⟨0, .ret, none, some 7, 9⟩, ⟨0, .ret, none, some 0, 8⟩]

theorem checkEvents_agrees_readAndWrite :
    (∃ r, (checker true (.insertion _) RegisterModel).Returns r
        (checkEvents true RegisterModel readAndWriteEvents none) ∧
      (checker true (.insertion _) RegisterModel).Returns r
        (checkOperations true RegisterModel readAndWrite none)) ∧
    ∃ r, (checker true (.insertion _) RegisterModel).Returns r
        (checkEvents true RegisterModel readAndWriteEvents none) ∧
      (checker true (.insertion _) RegisterModel).Returns r
        (checkOperations true RegisterModel readAndWrite none) := by
  have h := checkEvents_agrees true (.insertion _) RegisterModel (fun _ => rfl) (fun _ => rfl)
    RegisterModel.lawful_of_lawfulBEq
  refine ⟨h.1 readAndWriteEvents readAndWrite (by decide) (by decide) ⟨[9, 8], by decide, ?_, ?_⟩,
    h.2 readAndWrite (fun i => 9 - i) readAndWriteEvents (by decide) (by decide) (by decide)
      ⟨makeEntries readAndWrite, makeEntries_arranged, ?_⟩⟩
  · intro id
    simp only [readAndWriteEvents, List.mem_cons, List.not_mem_nil, or_false, exists_eq_or_imp,
      exists_eq_left]
    omega
  · refine .cons ⟨⟨_, rfl, rfl, rfl, rfl⟩, ⟨_, rfl, rfl, rfl, rfl⟩⟩ (.cons ?_ .nil)
    exact ⟨⟨_, rfl, rfl, rfl, rfl⟩, ⟨_, rfl, rfl, rfl, rfl⟩⟩
  · have hmake : makeEntries readAndWrite = [⟨0, 0, .call ⟨false, 0⟩⟩, ⟨1, 1, .call ⟨true, 7⟩⟩,
        ⟨0, 2, .ret 7⟩, ⟨1, 3, .ret 0⟩] := by decide
    rw [hmake]
    exact .cons ⟨rfl, rfl⟩ (.cons ⟨rfl, rfl⟩ (.cons ⟨rfl, rfl⟩ (.cons ⟨rfl, rfl⟩ .nil)))

end Porcupine
