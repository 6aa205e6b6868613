import Porcupine.Entries.Acceptance
import Porcupine.Entries.Names
/-!
# Renumbering is canonical

`renumber` numbers the ids of a slice by first occurrence and touches
nothing else. So what it returns does not depend on what the ids were, only
on which events share one (`renumber_canonical`).
-/

namespace Porcupine

open Numbering

variable {Input Output : Type} {events events' : List (Event Input Output)}

/-- All of an event but its id. -/
def Event.body (ev : Event Input Output) : ℕ × EventKind × Option Input × Option Output :=
  (ev.clientId, ev.kind, ev.input, ev.output)

/-- **An injective renaming takes the ids of the one slice to those of the
other.** -/
def RenamesTo (events events' : List (Event Input Output)) : Prop :=
  ∃ f : ℕ → ℕ, Set.InjOn f {id | id ∈ events.map Event.id} ∧
    events'.map Event.id = (events.map Event.id).map f

theorem map_id_renumber (events : List (Event Input Output)) :
    (renumber events).map Event.id = (events.map Event.id).map (rank (events.map Event.id)) := by
  rw [renumber_eq, List.map_map, List.map_map]
  exact List.map_congr_left fun ev hev => newId_eq_rank (List.mem_map_of_mem hev)

/-- **It keeps everything else.** -/
theorem map_body_renumber (events : List (Event Input Output)) :
    (renumber events).map Event.body = events.map Event.body := by
  rw [renumber_eq, List.map_map]
  rfl

/-- An event is its id and the rest of it. -/
theorem eq_of_map_id_of_map_body (hid : events.map Event.id = events'.map Event.id)
    (hbody : events.map Event.body = events'.map Event.body) : events = events' := by
  have hlen : events.length = events'.length := by simpa using congrArg List.length hid
  refine List.ext_getElem hlen fun i hi hi' => ?_
  have hget : ∀ {α : Type} {f : Event Input Output → α}, events.map f = events'.map f →
      f events[i] = f events'[i] := by
    intro α f h
    have hopt := congrArg (fun l => l[i]?) h
    simpa [hi, hi'] using hopt
  have h1 := hget hid
  have h2 := hget hbody
  generalize events[i] = a at h1 h2
  generalize events'[i] = b at h1 h2
  obtain ⟨client, kind, input, output, id⟩ := a
  obtain ⟨client', kind', input', output', id'⟩ := b
  simp only [Event.body, Prod.mk.injEq] at h1 h2
  obtain ⟨rfl, rfl, rfl, rfl⟩ := h2
  subst h1
  rfl

/-- Slices are renumbered to the same ids exactly when one's ids are the
other's renamed. -/
theorem map_id_renumber_eq_iff :
    (renumber events).map Event.id = (renumber events').map Event.id ↔
      RenamesTo events events' := by
  rw [map_id_renumber, map_id_renumber]
  exact map_rank_eq_iff

theorem renumber_eq_renumber (hbody : events.map Event.body = events'.map Event.body)
    (h : RenamesTo events events') : renumber events = renumber events' := by
  refine eq_of_map_id_of_map_body (map_id_renumber_eq_iff.2 h) ?_
  rw [map_body_renumber, map_body_renumber, hbody]

/-- The ids it gives are the first ones, each to one id. -/
theorem toFinset_renumber (events : List (Event Input Output)) :
    ((renumber events).map Event.id).toFinset =
      Finset.range (events.map Event.id).toFinset.card := by
  rw [map_id_renumber, ← image_rank]
  ext k
  simp only [List.mem_toFinset, List.mem_map, Finset.mem_image]

/-- It gives them in the order of the first occurrences. -/
theorem renumber_id_lt_iff {p q : ℕ} {evp evq np nq : Event Input Output}
    (hp : events[p]? = some evp) (hq : events[q]? = some evq)
    (hp' : (renumber events)[p]? = some np) (hq' : (renumber events)[q]? = some nq) :
    np.id < nq.id ↔ (events.map Event.id).idxOf evp.id < (events.map Event.id).idxOf evq.id := by
  have hnew : ∀ {p : ℕ} {ev n : Event Input Output}, events[p]? = some ev →
      (renumber events)[p]? = some n → n.id = rank (events.map Event.id) ev.id := by
    intro p ev n hev hn
    have hget := congrArg (fun l => l[p]?) (map_id_renumber events)
    simpa [hev, hn] using hget
  rw [hnew hp hp', hnew hq hq']
  exact rank_lt_rank_iff (List.mem_map_of_mem (List.mem_of_getElem? hp))
    (List.mem_map_of_mem (List.mem_of_getElem? hq))

/-- **`renumber` is a canonical form up to renaming of ids.** It keeps the
length, the order and every other field; it gives the ids below the number
of distinct ones, in the order of their first occurrences; slices that
agree but for their ids are renumbered alike exactly when an injective
renaming takes the ids of the one to those of the other; and it is
idempotent. -/
theorem renumber_canonical (events : List (Event Input Output)) :
    (renumber events).length = events.length ∧
    (renumber events).map Event.body = events.map Event.body ∧
    ((renumber events).map Event.id).toFinset =
      Finset.range (events.map Event.id).toFinset.card ∧
    (∀ (p q : ℕ) (evp evq np nq : Event Input Output), events[p]? = some evp →
      events[q]? = some evq → (renumber events)[p]? = some np → (renumber events)[q]? = some nq →
      (np.id < nq.id ↔
        (events.map Event.id).idxOf evp.id < (events.map Event.id).idxOf evq.id)) ∧
    (∀ events' : List (Event Input Output), events.map Event.body = events'.map Event.body →
      ((renumber events).map Event.id = (renumber events').map Event.id ↔
        RenamesTo events events') ∧
      (RenamesTo events events' → renumber events = renumber events')) ∧
    renumber (renumber events) = renumber events := by
  refine ⟨?_, map_body_renumber events, toFinset_renumber events,
    fun p q evp evq np nq hp hq hp' hq' => renumber_id_lt_iff hp hq hp' hq',
    fun events' hbody => ⟨map_id_renumber_eq_iff, renumber_eq_renumber hbody⟩, ?_⟩
  · rw [renumber_eq, List.length_map]
  · refine eq_of_map_id_of_map_body ?_ (map_body_renumber _)
    rw [map_id_renumber, map_id_renumber, map_rank_map_rank]

/-- Other ids for the same events, further apart. -/
theorem renumber_canonical_sparse :
    renumber sparseEvents =
      renumber (sparseEvents.map fun ev => { ev with id := 1000 * ev.id + 7 }) :=
  ((renumber_canonical sparseEvents).2.2.2.2.1
    (sparseEvents.map fun ev => { ev with id := 1000 * ev.id + 7 }) rfl).2
    ⟨fun id => 1000 * id + 7, fun a _ b _ h => by simpa using h, rfl⟩

end Porcupine
