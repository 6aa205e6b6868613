import Porcupine.Common.Numbering
import Porcupine.Entries.Pairing
/-!
# The names of renumbering

`renumber` numbers ids by first occurrence (`newId_eq_rank`), which is in
the order of their calls where calls come first. A name is how many names
are smaller, so histories that order their ids alike give them the same
names (`newId_eq_of_order`).
-/

namespace Porcupine

open Numbering

variable {Input Output : Type} {events events' : List (Event Input Output)}
variable {id k p : ℕ} {ev ev' : Event Input Output}

/-- **Names follow first occurrences**: those smaller than an id's belong to
the ids that occur before it does. -/
theorem newId_lt_iff_of_split {pre post : List (Event Input Output)}
    (hsplit : events = pre ++ ev :: post) (hnew : ∀ e ∈ pre, e.id ≠ ev.id)
    (hid : ∃ e ∈ events, e.id = id) :
    newId events id < newId events ev.id ↔ ∃ e ∈ pre, e.id = id := by
  subst hsplit
  let m := IdMap.empty.assignAll pre
  have hdense : m.Dense := IdMap.dense_empty.assignAll pre
  have hmap : (IdMap.empty.assignAll (pre ++ ev :: post)) = (m.assign ev.id).2.assignAll post := by
    simp only [IdMap.assignAll, List.foldl_append, List.foldl_cons, m]
  -- `m` names the ids met before `ev`, whose id is the next to be named
  have hnone : m.map ev.id = none := by
    rw [← Option.not_isSome_iff_eq_none, IdMap.assignAll_isSome]
    rintro (h | ⟨e, he, heq⟩)
    · cases h
    · exact hnew e he heq
  have hname : newId (pre ++ ev :: post) ev.id = m.nextId := by
    have hassign : (m.assign ev.id).1 = m.nextId := by rw [IdMap.assign, hnone]
    rw [newId, IdMap.name, hmap, IdMap.assignAll_map_of_some IdMap.assign_map, hassign,
      Option.getD_some]
  have hkeep : ∀ {i k : ℕ}, m.map i = some k → newId (pre ++ ev :: post) i = k := by
    intro i k hi
    rw [newId, IdMap.name, hmap, IdMap.assignAll_map_of_some (IdMap.assign_map_of_some hi),
      Option.getD_some]
  have hocc : ∀ {i k : ℕ}, m.map i = some k → ∃ e ∈ pre, e.id = i := fun {i k} hi =>
    (IdMap.assignAll_isSome.1 (Option.isSome_iff_exists.2 ⟨k, hi⟩)).resolve_left fun h => by cases h
  rw [hname]
  constructor
  · intro hlt
    obtain ⟨i, hi⟩ := hdense.surj _ hlt
    obtain ⟨e, he, rfl⟩ := hocc hi
    have heq : e.id = id := newId_inj ⟨e, List.mem_append_left _ he, rfl⟩ hid (hkeep hi)
    exact ⟨e, he, heq⟩
  · rintro ⟨e, he, rfl⟩
    obtain ⟨k, hk⟩ := Option.isSome_iff_exists.1 (IdMap.assignAll_isSome.2 (Or.inr ⟨e, he, rfl⟩))
    rw [hkeep hk]
    exact hdense.lt _ _ hk

/-- The ids whose names are smaller. -/
def earlierIds (events : List (Event Input Output)) (id : ℕ) : Finset ℕ :=
  (events.map Event.id).toFinset.filter fun i => newId events i < newId events id

theorem mem_earlierIds {i : ℕ} : i ∈ earlierIds events id ↔
    (∃ e ∈ events, e.id = i) ∧ newId events i < newId events id := by
  simp [earlierIds]

/-- A name is how many names are smaller. -/
theorem card_earlierIds (hid : ∃ e ∈ events, e.id = id) :
    (earlierIds events id).card = newId events id := by
  have himage : (earlierIds events id).image (newId events) = Finset.range (newId events id) := by
    ext k
    simp only [Finset.mem_image, mem_earlierIds, Finset.mem_range]
    constructor
    · rintro ⟨i, ⟨-, hlt⟩, rfl⟩
      exact hlt
    · intro hlt
      obtain ⟨e, he, rfl⟩ := newId_surj (hlt.trans (newId_lt hid))
      exact ⟨e.id, ⟨⟨e, he, rfl⟩, hlt⟩, rfl⟩
  have hinj : Set.InjOn (newId events) (earlierIds events id) := fun i hi j hj he =>
    newId_inj (mem_earlierIds.1 hi).1 (mem_earlierIds.1 hj).1 he
  rw [← Finset.card_image_of_injOn hinj, himage, Finset.card_range]

/-- The ids before the first occurrence of an id are those that get smaller
names. -/
theorem earlierIds_eq (hid : id ∈ events.map Event.id) : earlierIds events id =
    ((events.map Event.id).take ((events.map Event.id).idxOf id)).toFinset := by
  have hlt := List.idxOf_lt_length_of_mem hid
  have hfirst := List.getElem_idxOf hlt
  generalize hk : (events.map Event.id).idxOf id = k at hlt hfirst
  rw [List.length_map] at hlt
  rw [List.getElem_map] at hfirst
  have hsplit : events = events.take k ++ events[k] :: events.drop (k + 1) := by
    rw [List.getElem_cons_drop, List.take_append_drop]
  have hpre : ∀ i, (∃ e ∈ events.take k, e.id = i) ↔ i ∈ (events.map Event.id).take k := by
    intro i
    rw [← List.map_take, List.mem_map]
  have hnew : ∀ e ∈ events.take k, e.id ≠ events[k].id := by
    intro e he heq
    have hmem := (hpre id).1 ⟨e, he, heq.trans hfirst⟩
    rw [← hk, mem_take_idxOf hid] at hmem
    exact Nat.lt_irrefl _ hmem
  ext i
  rw [mem_earlierIds, List.mem_toFinset, ← hpre]
  constructor
  · rintro ⟨hi, hlt⟩
    rw [← hfirst] at hlt
    exact (newId_lt_iff_of_split hsplit hnew hi).1 hlt
  · rintro ⟨e, he, rfl⟩
    have hi : ∃ e' ∈ events, e'.id = e.id := ⟨e, List.mem_of_mem_take he, rfl⟩
    refine ⟨hi, ?_⟩
    rw [← hfirst]
    exact (newId_lt_iff_of_split hsplit hnew hi).2 ⟨e, he, rfl⟩

/-- **`renumber` numbers ids by first occurrence.** -/
theorem newId_eq_rank (hid : id ∈ events.map Event.id) :
    newId events id = rank (events.map Event.id) id := by
  rw [← card_earlierIds (List.mem_map.1 hid), earlierIds_eq hid, rank]

/-- Where calls come first, an id occurs first at its call. -/
theorem PairedEvents.idxOf_call (hp : PairedEvents events) (hfirst : CallsFirst events) {c : ℕ}
    (hc : events[c]? = some ev) (ht : ev.tag = (ev.id, true)) :
    (events.map Event.id).idxOf ev.id = c := by
  have hmem : ev.id ∈ events.map Event.id := List.mem_map_of_mem (List.mem_of_getElem? hc)
  have hle : (events.map Event.id).idxOf ev.id < c + 1 := by
    rw [← List.mem_take_iff_idxOf_lt hmem]
    refine List.mem_of_getElem? (i := c) ?_
    rw [List.getElem?_take_of_lt (Nat.lt_succ_self c), List.getElem?_map, hc, Option.map_some]
  have hlt := List.idxOf_lt_length_of_mem hmem
  have hid := List.getElem_idxOf hlt
  generalize (events.map Event.id).idxOf ev.id = p at hle hlt hid
  rw [List.length_map] at hlt
  rw [List.getElem_map] at hid
  have he : events[p]? = some events[p] := List.getElem?_eq_getElem hlt
  cases hb : events[p].tag.2 with
  | true => exact getElem?_inj_tag hp.nodup he hc (ht ▸ Prod.ext hid hb)
  | false =>
    -- a return stands after its call
    have hgt := hfirst ev.id c p ev events[p] hc he ht (Prod.ext hid hb)
    omega

/-- Where calls come first, names follow the order of the calls. -/
theorem PairedEvents.newId_lt_iff (hp : PairedEvents events) (hfirst : CallsFirst events) {c c' : ℕ}
    (hc : events[c]? = some ev) (hc' : events[c']? = some ev') (ht : ev.tag = (ev.id, true))
    (ht' : ev'.tag = (ev'.id, true)) :
    newId events ev.id < newId events ev'.id ↔ c < c' := by
  have hid : ev.id ∈ events.map Event.id := List.mem_map_of_mem (List.mem_of_getElem? hc)
  have hid' : ev'.id ∈ events.map Event.id := List.mem_map_of_mem (List.mem_of_getElem? hc')
  rw [newId_eq_rank hid, newId_eq_rank hid', rank_lt_rank_iff hid hid',
    hp.idxOf_call hfirst hc ht, hp.idxOf_call hfirst hc' ht']

/-- **Histories that order their calls alike get the same names.** -/
theorem newId_eq_of_order (hids : ∀ id, (∃ e ∈ events, e.id = id) ↔ ∃ e ∈ events', e.id = id)
    (hlt : ∀ id id', (∃ e ∈ events, e.id = id) → (∃ e ∈ events, e.id = id') →
      (newId events id < newId events id' ↔ newId events' id < newId events' id'))
    (hid : ∃ e ∈ events, e.id = id) : newId events id = newId events' id := by
  have hsame : earlierIds events id = earlierIds events' id := by
    ext i
    rw [mem_earlierIds, mem_earlierIds, ← hids i]
    exact and_congr_right fun hi => hlt i id hi hid
  rw [← card_earlierIds hid, hsame, card_earlierIds ((hids id).1 hid)]

end Porcupine
