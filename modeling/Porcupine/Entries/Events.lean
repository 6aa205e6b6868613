import Porcupine.Entries.Operations
import Porcupine.Spec.Events
/-!
# The entries of an event history

`renumber` gives each id the number of distinct ids before it, and
`convert_entries` takes the positions as times. On events in which every
id has one call and one return the result is a paired entry list
(`PairedEvents.convert`), whose names are dense whatever the ids were. A
partition is converted as the events it picks, in the order in which it
lists them.
-/

namespace Porcupine

variable {Input Output : Type} {events : List (Event Input Output)}
variable {entries : List (Entry Input Output)} {id k p : ℕ} {ev : Event Input Output}

/-- What tells an event from the others: its id, and whether it is the
call. -/
def Event.tag (ev : Event Input Output) : ℕ × Bool := (ev.id, decide (ev.kind = .call))

/-- **Every id has one call, with its input, and one return, with its
output**, in any order. -/
structure PairedEvents (events : List (Event Input Output)) : Prop where
  value : ∀ ev ∈ events, ∃ v, eventValue ev = .ok v
  nodup : (events.map Event.tag).Nodup
  both : ∀ t ∈ events.map Event.tag, ∀ b, (t.1, b) ∈ events.map Event.tag

/-- Every call comes before the return of its id. -/
def CallsFirst (events : List (Event Input Output)) : Prop :=
  ∀ (id c r : ℕ) (evc evr : Event Input Output), events[c]? = some evc → events[r]? = some evr →
    evc.tag = (id, true) → evr.tag = (id, false) → c < r

/-- An event has a value exactly when the side it needs is there. -/
theorem exists_eventValue_iff : (∃ v, eventValue ev = .ok v) ↔
    (ev.kind = .call → ev.input.isSome = true) ∧ (ev.kind = .ret → ev.output.isSome = true) := by
  unfold eventValue
  cases ev.kind with
  | call => cases ev.input <;> simp
  | ret => cases ev.output <;> simp

theorem isCall_of_eventValue {v : EntryValue Input Output} (h : eventValue ev = .ok v) :
    v.isCall = decide (ev.kind = .call) := by
  unfold eventValue at h
  cases hk : ev.kind with
  | call =>
    cases hi : ev.input with
    | none => simp [hk, hi] at h
    | some input =>
      simp only [hk, hi, Except.ok.injEq] at h
      subst h
      rfl
  | ret =>
    cases ho : ev.output with
    | none => simp [hk, ho] at h
    | some output =>
      simp only [hk, ho, Except.ok.injEq] at h
      subst h
      rfl

/-! ## Renumbering -/

namespace IdMap

variable {m : IdMap}

/-- The new id of an id. -/
def name (m : IdMap) (id : ℕ) : ℕ := (m.map id).getD 0

/-- The ids handed out are the first ones, each once. -/
structure Dense (m : IdMap) : Prop where
  lt : ∀ id k, m.map id = some k → k < m.nextId
  inj : ∀ id id' k, m.map id = some k → m.map id' = some k → id = id'
  surj : ∀ k < m.nextId, ∃ id, m.map id = some k

theorem dense_empty : empty.Dense where
  lt id k h := by cases h
  inj id id' k h := by cases h
  surj k h := absurd h (Nat.not_lt_zero k)

theorem assign_map : (m.assign id).2.map id = some (m.assign id).1 := by
  unfold assign
  cases h : m.map id with
  | none => simp
  | some k => simp [h]

theorem assign_map_of_ne {i : ℕ} (hne : i ≠ id) : (m.assign id).2.map i = m.map i := by
  unfold assign
  cases h : m.map id with
  | none => simp [Function.update_of_ne hne]
  | some k => rfl

/-- An id that has a name keeps it. -/
theorem assign_map_of_some {i : ℕ} (h : m.map i = some k) : (m.assign id).2.map i = some k := by
  by_cases hne : i = id
  · subst hne
    simp only [assign, h]
  · rw [assign_map_of_ne hne, h]

theorem Dense.assign (h : m.Dense) (id : ℕ) : (m.assign id).2.Dense := by
  unfold IdMap.assign
  cases hm : m.map id with
  | some k => exact h
  | none =>
    -- the fresh id gets the next name, which no other has
    refine ⟨fun i k hi => ?_, fun i j k hi hj => ?_, fun k hk => ?_⟩
    · simp only [Function.update_apply] at hi ⊢
      split at hi
      · cases hi
        omega
      · have := h.lt i k hi
        omega
    · simp only [Function.update_apply] at hi hj
      split at hi <;> split at hj
      · simp_all
      · cases hi
        exact absurd (h.lt j _ hj) (Nat.lt_irrefl _)
      · cases hj
        exact absurd (h.lt i _ hi) (Nat.lt_irrefl _)
      · exact h.inj i j k hi hj
    · rcases Nat.lt_succ_iff_lt_or_eq.1 hk with hlt | rfl
      · obtain ⟨i, hi⟩ := h.surj k hlt
        refine ⟨i, ?_⟩
        have hne : i ≠ id := by
          rintro rfl
          rw [hm] at hi
          cases hi
        simp only [Function.update_of_ne hne, hi]
      · exact ⟨id, by simp⟩

/-- The map after the whole loop. -/
def assignAll (m : IdMap) (events : List (Event Input Output)) : IdMap :=
  events.foldl (fun m ev => (m.assign ev.id).2) m

theorem Dense.assignAll (h : m.Dense) (events : List (Event Input Output)) :
    (m.assignAll events).Dense := by
  induction events generalizing m with
  | nil => exact h
  | cons ev events ih => exact ih (h.assign ev.id)

theorem assignAll_map_of_some (h : m.map id = some k) (events : List (Event Input Output)) :
    (m.assignAll events).map id = some k := by
  induction events generalizing m with
  | nil => exact h
  | cons ev events ih => exact ih (assign_map_of_some h)

/-- The ids named by the loop are those that occur. -/
theorem assignAll_isSome : ((m.assignAll events).map id).isSome = true ↔
    (m.map id).isSome = true ∨ ∃ ev ∈ events, ev.id = id := by
  induction events generalizing m with
  | nil => simp [assignAll]
  | cons ev events ih =>
    refine ih.trans ?_
    by_cases hid : id = ev.id
    · subst hid
      simp [assign_map]
    · simp [assign_map_of_ne hid, Ne.symm hid]

/-- The final names are those the loop hands out as it goes. -/
theorem renumberFrom_eq : renumberFrom m events =
    events.map fun ev => { ev with id := (m.assignAll events).name ev.id } := by
  induction events generalizing m with
  | nil => rfl
  | cons ev events ih =>
    rw [renumberFrom, List.map_cons, ih]
    have hname : (m.assignAll (ev :: events)).name ev.id = (m.assign ev.id).1 := by
      have hmap : (m.assignAll (ev :: events)).map ev.id = some (m.assign ev.id).1 :=
        assignAll_map_of_some assign_map events
      rw [name, hmap]
      rfl
    rw [hname]
    rfl

end IdMap

/-- The name `renumber` gives an id. -/
def newId (events : List (Event Input Output)) (id : ℕ) : ℕ := (IdMap.empty.assignAll events).name id

/-- How many names it gives. -/
def idCount (events : List (Event Input Output)) : ℕ := (IdMap.empty.assignAll events).nextId

theorem renumber_eq : renumber events =
    events.map fun ev => { ev with id := newId events ev.id } := IdMap.renumberFrom_eq

theorem newId_map (h : ∃ ev ∈ events, ev.id = id) :
    (IdMap.empty.assignAll events).map id = some (newId events id) := by
  obtain ⟨k, hk⟩ := Option.isSome_iff_exists.1 (IdMap.assignAll_isSome.2 (Or.inr h))
  rw [newId, IdMap.name, hk]
  rfl

theorem newId_lt (h : ∃ ev ∈ events, ev.id = id) : newId events id < idCount events :=
  (IdMap.dense_empty.assignAll events).lt _ _ (newId_map h)

theorem newId_inj {id' : ℕ} (h : ∃ ev ∈ events, ev.id = id) (h' : ∃ ev ∈ events, ev.id = id')
    (he : newId events id = newId events id') : id = id' :=
  (IdMap.dense_empty.assignAll events).inj _ _ _ (newId_map h) (he ▸ newId_map h')

theorem newId_surj (hk : k < idCount events) : ∃ ev ∈ events, newId events ev.id = k := by
  obtain ⟨id, hid⟩ := (IdMap.dense_empty.assignAll events).surj k hk
  have hsome := IdMap.assignAll_isSome.1 (Option.isSome_iff_exists.2 ⟨k, hid⟩)
  rcases hsome with h | ⟨ev, hev, rfl⟩
  · cases h
  · exact ⟨ev, hev, by rw [newId, IdMap.name, hid]; rfl⟩

/-! ## Converting -/

/-- An entry of an event, under the names of `renumber`. -/
def IsEntryOf (events : List (Event Input Output)) (ev : Event Input Output)
    (e : Entry Input Output) : Prop :=
  eventValue ev = .ok e.value ∧ e.id = newId events ev.id

theorem IsEntryOf.tag {e : Entry Input Output} (h : IsEntryOf events ev e) :
    e.tag = (newId events ev.id, ev.tag.2) := by
  rw [Entry.tag, h.2, isCall_of_eventValue h.1]
  rfl

/-- Conversion goes event by event. -/
theorem convertEntries_eq (h : ∀ ev ∈ events, ∃ v, eventValue ev = .ok v) :
    ∃ entries, convertEntries (renumber events) = .ok entries ∧
      List.Forall₂ (IsEntryOf events) events entries := by
  -- for any body that does what the loop's does
  have key : ∀ {f : Event Input Output × ℕ → Result (Entry Input Output)},
      (∀ ev i, f (ev, i) = eventValue ev >>= fun v => .ok ⟨ev.id, i, v⟩) →
      ∀ (l : List (Event Input Output)) (k : ℕ), (∀ ev ∈ l, ∃ v, eventValue ev = .ok v) →
      ∃ entries, ((l.map fun ev => { ev with id := newId events ev.id }).zipIdx k).mapM f =
        .ok entries ∧ List.Forall₂ (IsEntryOf events) l entries := by
    intro f hf l
    induction l with
    | nil => intro k _; exact ⟨[], rfl, .nil⟩
    | cons ev l ih =>
      intro k hl
      obtain ⟨v, hv⟩ := hl ev (by simp)
      obtain ⟨entries, hent, hall⟩ := ih (k + 1) fun e he => hl e (List.mem_cons_of_mem _ he)
      refine ⟨⟨newId events ev.id, k, v⟩ :: entries, ?_, .cons ⟨hv, rfl⟩ hall⟩
      have hv' : eventValue { ev with id := newId events ev.id } = .ok v := hv
      rw [List.map_cons, List.zipIdx_cons, List.mapM_cons, hent, hf, hv']
      rfl
  rw [convertEntries, renumber_eq]
  exact key (fun _ _ => rfl) events 0 h

namespace PairedEvents

theorem exists_tag (h : PairedEvents events) (hev : ev ∈ events) (b : Bool) :
    ∃ ev' ∈ events, ev'.tag = (ev.id, b) := by
  obtain ⟨ev', hev', ht⟩ := List.mem_map.1 (h.both ev.tag (List.mem_map_of_mem hev) b)
  exact ⟨ev', hev', ht⟩

/-- The entries of paired events are paired. -/
theorem paired (h : PairedEvents events) (hent : List.Forall₂ (IsEntryOf events) events entries) :
    Paired entries (idCount events) := by
  have htags : entries.map Entry.tag =
      (events.map Event.tag).map fun t => (newId events t.1, t.2) := by
    rw [List.map_map]
    have heq : List.Forall₂ (fun ev e => (newId events ev.id, ev.tag.2) = e.tag) events entries :=
      hent.imp fun _ _ he => he.tag.symm
    rw [← List.forall₂_map_right_iff, ← List.forall₂_map_left_iff, List.forall₂_eq_eq_eq] at heq
    exact heq.symm
  -- renaming is injective on the ids that occur
  have hocc : ∀ t ∈ events.map Event.tag, ∃ ev ∈ events, ev.id = t.1 := by
    intro t ht
    obtain ⟨ev, hev, rfl⟩ := List.mem_map.1 ht
    exact ⟨ev, hev, rfl⟩
  refine ⟨?_, fun t => ?_⟩
  · rw [htags]
    refine h.nodup.map_on fun t ht t' ht' he => ?_
    obtain ⟨h1, h2⟩ := Prod.mk.inj he
    exact Prod.ext (newId_inj (hocc t ht) (hocc t' ht') h1) h2
  · rw [htags, List.mem_map]
    constructor
    · rintro ⟨t', ht', rfl⟩
      exact newId_lt (hocc t' ht')
    · intro hlt
      obtain ⟨ev, hev, hid⟩ := newId_surj hlt
      obtain ⟨ev', hev', ht'⟩ := h.exists_tag hev t.2
      exact ⟨(ev.id, t.2), ht' ▸ List.mem_map_of_mem hev', Prod.ext hid rfl⟩

/-- **Paired events convert to a paired entry list**, event by event. -/
theorem convert (h : PairedEvents events) :
    ∃ entries, convertEntries (renumber events) = .ok entries ∧
      List.Forall₂ (IsEntryOf events) events entries ∧ Paired entries (idCount events) := by
  obtain ⟨entries, hok, hent⟩ := convertEntries_eq h.value
  exact ⟨entries, hok, hent, h.paired hent⟩

/-- An event's entry is at its position. -/
theorem posOf_newId (h : PairedEvents events)
    (hent : List.Forall₂ (IsEntryOf events) events entries) (hev : events[p]? = some ev) :
    posOf entries (newId events ev.id) ev.tag.2 = p := by
  obtain ⟨hp, rfl⟩ := List.getElem?_eq_some_iff.1 hev
  have hp' : p < entries.length := hent.length_eq ▸ hp
  have hentry := hent.get hp hp'
  have hpos := ((h.paired hent).posOf_tag (List.getElem?_eq_getElem hp')).1
  have htag := IsEntryOf.tag hentry
  simp only [List.get_eq_getElem] at htag
  obtain ⟨hid, hb⟩ := Prod.mk.inj htag
  rwa [hid, hb] at hpos

/-- Calls come first in the entries when they do in the events, -/
theorem callFirst (h : PairedEvents events)
    (hent : List.Forall₂ (IsEntryOf events) events entries) (hfirst : CallsFirst events) :
    CallFirst entries (idCount events) := by
  intro k hk
  obtain ⟨ev, hev, rfl⟩ := newId_surj hk
  obtain ⟨evc, hevc, htc⟩ := h.exists_tag hev true
  obtain ⟨evr, hevr, htr⟩ := h.exists_tag hev false
  obtain ⟨c, hc⟩ := List.getElem?_of_mem hevc
  obtain ⟨r, hr⟩ := List.getElem?_of_mem hevr
  have hidc : evc.id = ev.id := congrArg Prod.fst htc
  have hidr : evr.id = ev.id := congrArg Prod.fst htr
  have hposc := h.posOf_newId hent hc
  have hposr := h.posOf_newId hent hr
  rw [htc, hidc] at hposc
  rw [htr, hidr] at hposr
  rw [callPos, retPos, hposc, hposr]
  exact hfirst _ c r evc evr hc hr htc htr

/-- and only then. -/
theorem callsFirst_of_callFirst (h : PairedEvents events)
    (hent : List.Forall₂ (IsEntryOf events) events entries)
    (hfirst : CallFirst entries (idCount events)) : CallsFirst events := by
  intro id c r evc evr hc hr htc htr
  have hposc := h.posOf_newId hent hc
  have hposr := h.posOf_newId hent hr
  obtain ⟨rfl, hbc⟩ : evc.id = id ∧ evc.tag.2 = true := Prod.mk.inj htc
  obtain ⟨hidr, hbr⟩ : evr.id = evc.id ∧ evr.tag.2 = false := Prod.mk.inj htr
  rw [hbc] at hposc
  rw [hidr, hbr] at hposr
  rw [← hposc, ← hposr]
  exact hfirst _ (newId_lt ⟨evc, List.mem_of_getElem? hc, rfl⟩)

/-- What an event's value says of it. -/
theorem event_of_entry (hent : List.Forall₂ (IsEntryOf events) events entries)
    {e : Entry Input Output} (he : entries[p]? = some e) :
    ∃ ev, events[p]? = some ev ∧ eventValue ev = .ok e.value ∧ e.id = newId events ev.id := by
  obtain ⟨hp, rfl⟩ := List.getElem?_eq_some_iff.1 he
  have hp' : p < events.length := hent.length_eq.symm ▸ hp
  exact ⟨events[p], List.getElem?_eq_getElem hp', hent.get hp' hp⟩

theorem eventValue_call {input : Input} (h : eventValue ev = .ok (.call input)) :
    ev.kind = .call ∧ ev.input = some input := by
  unfold eventValue at h
  split at h <;> split at h <;> simp_all

theorem eventValue_ret {output : Output} (h : eventValue ev = .ok (.ret output)) :
    ev.kind = .ret ∧ ev.output = some output := by
  unfold eventValue at h
  split at h <;> split at h <;> simp_all

/-- **The operation at a new id** is that of the id renumbered to it. -/
theorem operationOf (h : PairedEvents events)
    (hent : List.Forall₂ (IsEntryOf events) events entries) {id k : ℕ}
    {op : Operation Input Output} (hget : (historyOf entries)[k]? = some op)
    (hid : ∃ ev ∈ events, ev.id = id) (hk : newId events id = k) : OperationOf events id op := by
  obtain ⟨hlt, hop, hcall, hret⟩ := (h.paired hent).getElem?_historyOf hget
  obtain ⟨t, input, hc⟩ := (h.paired hent).call_entry hlt
  obtain ⟨t', output, hr⟩ := (h.paired hent).ret_entry hlt
  have hio : op.io = (input, output) := by
    simp only [opOf, hc, hr, Option.some.injEq] at hop
    exact hop.symm
  obtain ⟨evc, hevc, hvc, hidc⟩ := event_of_entry hent hc
  obtain ⟨evr, hevr, hvr, hidr⟩ := event_of_entry hent hr
  obtain ⟨hkc, hin⟩ := eventValue_call hvc
  obtain ⟨hkr, hout⟩ := eventValue_ret hvr
  have hold : ∀ (ev : Event Input Output) (p : ℕ), events[p]? = some ev →
      k = newId events ev.id → ev.id = id := by
    intro ev p hev he
    exact newId_inj ⟨ev, List.mem_of_getElem? hev, rfl⟩ hid (he.symm.trans hk.symm)
  refine ⟨⟨evc, hcall ▸ hevc, hkc, hold _ _ hevc hidc, ?_⟩,
    ⟨evr, hret ▸ hevr, hkr, hold _ _ hevr hidr, ?_⟩⟩
  · rw [hin]
    exact congrArg some (congrArg Prod.fst hio).symm
  · rw [hout]
    exact congrArg some (congrArg Prod.snd hio).symm

/-- **The entries' history is the operations of the events.** -/
theorem operationsOf (h : PairedEvents events)
    (hent : List.Forall₂ (IsEntryOf events) events entries) :
    OperationsOf events (historyOf entries) := by
  have hold : ∀ k, ∃ id, k < idCount events → (∃ ev ∈ events, ev.id = id) ∧ newId events id = k := by
    intro k
    by_cases hk : k < idCount events
    · obtain ⟨ev, hev, he⟩ := newId_surj hk
      exact ⟨ev.id, fun _ => ⟨⟨ev, hev, rfl⟩, he⟩⟩
    · exact ⟨0, fun hk' => absurd hk' hk⟩
  -- the id that each new one stands for
  choose old hold using hold
  refine ⟨(List.range (idCount events)).map old, ?_, fun id => ?_, ?_⟩
  · refine List.nodup_range.map_on fun i hi j hj he => ?_
    rw [← (hold i (List.mem_range.1 hi)).2, ← (hold j (List.mem_range.1 hj)).2, he]
  · rw [List.mem_map]
    constructor
    · rintro ⟨k, hk, rfl⟩
      exact (hold k (List.mem_range.1 hk)).1
    · intro hid
      have hlt := newId_lt hid
      exact ⟨newId events id, List.mem_range.2 hlt,
        newId_inj (hold _ hlt).1 hid (hold _ hlt).2⟩
  · rw [List.forall₂_map_left_iff, List.forall₂_iff_get]
    refine ⟨by simp [(h.paired hent).length_historyOf], fun k hk hk' => ?_⟩
    have hget : (historyOf entries)[k]? = some (historyOf entries)[k] :=
      List.getElem?_eq_getElem hk'
    obtain ⟨hmem, hnew⟩ := hold k (by simpa using hk)
    simp only [List.get_eq_getElem, List.getElem_range]
    exact h.operationOf hent hget hmem hnew

/-- Distinct tags are distinct ids and kinds. -/
theorem nodup_kind (h : PairedEvents events) :
    (events.map fun ev => (ev.id, ev.kind)).Nodup := by
  refine List.Nodup.of_map (fun t : ℕ × EventKind => (t.1, decide (t.2 = .call))) ?_
  rw [List.map_map]
  exact h.nodup

end PairedEvents

/-! ## Partitions -/

/-- **A partition is converted as the events it picks.** -/
theorem convertEntriesFromIndices_eq {history : List (Event Input Output)} {indices : List ℕ}
    (h : ∀ i ∈ indices, i < history.length) :
    convertEntriesFromIndices history indices =
      convertEntries (renumber (pick history indices)) := by
  have key : ∀ {f : Event Input Output × ℕ → Result (Entry Input Output)},
      (∀ ev i, f (ev, i) = eventValue ev >>= fun v => .ok ⟨ev.id, i, v⟩) →
      ∀ (indices : List ℕ) (picked : List (Event Input Output)) (k : ℕ) (m : IdMap),
      List.Forall₂ (fun i x => history[i]? = some x) indices picked →
      convertFromIndices history m (indices.zipIdx k) =
        ((renumberFrom m picked).zipIdx k).mapM f := by
    intro f hf indices picked k m hpick
    induction hpick generalizing k m with
    | nil => rfl
    | @cons i ev _ _ hi _ ih =>
      rw [List.zipIdx_cons, renumberFrom, List.zipIdx_cons, List.mapM_cons, convertFromIndices, hf]
      simp only [readAt_eq_ok.2 hi, Result.ok_bind]
      have hv : eventValue { ev with id := (m.assign ev.id).1 } = eventValue ev := rfl
      rw [ih, hv]
      cases eventValue ev with
      | error p => rfl
      | ok value => rfl
  exact key (fun _ _ => rfl) indices _ 0 .empty (pick_forall₂ h)

end Porcupine
