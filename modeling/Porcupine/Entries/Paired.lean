import Porcupine.Model.Entries
import Porcupine.Common.Linearization
import Mathlib.Data.List.Nodup
import Mathlib.Data.Finset.Prod
import Mathlib.Data.Finset.Card
import Mathlib.Data.Fintype.Card
/-!
# Entry lists in which every operation has one call and one return

The search works on such lists, whatever they were built from: `Paired`
says that the ids are dense and that each has exactly one call and one
return, in any order, and `posOf` is where. One operation precedes another
when its return comes before the other's call in the list, and an entry
list is linearizable when its operations are, under that precedence.
-/

namespace Porcupine

open Linearization

variable {State Input Output : Type}

/-- What tells an entry from the others: its id, and whether it is the
call. -/
def Entry.tag (e : Entry Input Output) : ℕ × Bool := (e.id, e.value.isCall)

/-- **Every id below `n` has one call and one return**, and there are no
other entries. -/
structure Paired (entries : List (Entry Input Output)) (n : ℕ) : Prop where
  nodup : (entries.map Entry.tag).Nodup
  mem_tag : ∀ t, t ∈ entries.map Entry.tag ↔ t.1 < n

/-- Where an operation's call, or its return, is. -/
def posOf (entries : List (Entry Input Output)) (id : ℕ) (isCall : Bool) : ℕ :=
  (entries.map Entry.tag).idxOf (id, isCall)

/-- Where an operation's call is. -/
abbrev callPos (entries : List (Entry Input Output)) (id : ℕ) : ℕ := posOf entries id true

/-- Where its return is. -/
abbrev retPos (entries : List (Entry Input Output)) (id : ℕ) : ℕ := posOf entries id false

/-- The operation returns before the other is called. -/
def Precedes (entries : List (Entry Input Output)) (a b : ℕ) : Prop :=
  retPos entries a < callPos entries b

instance (entries : List (Entry Input Output)) (a b : ℕ) : Decidable (Precedes entries a b) :=
  inferInstanceAs (Decidable (_ < _))

theorem precedes_iff {entries : List (Entry Input Output)} {a b : ℕ} :
    Precedes entries a b ↔ posOf entries a false < posOf entries b true := Iff.rfl

/-- Every call comes before its return. -/
def CallFirst (entries : List (Entry Input Output)) (n : ℕ) : Prop :=
  ∀ id < n, callPos entries id < retPos entries id

/-- The input of an operation's call entry and the output of its return
entry. -/
def opOf (entries : List (Entry Input Output)) (id : ℕ) : Option (Input × Output) :=
  match entries[callPos entries id]?, entries[retPos entries id]? with
  | some ⟨_, _, .call input⟩, some ⟨_, _, .ret output⟩ => some (input, output)
  | _, _ => none

/-- The model's step on an operation of the list. -/
def applyOp (model : Model State Input Output) (entries : List (Entry Input Output)) (s : State)
    (id : ℕ) : Option State :=
  (opOf entries id).bind fun io => model.step s io.1 io.2

/-- **The operations of the list have a linearization from the model's
initial state.** -/
def EntriesLinearizable (model : Model State Input Output) (entries : List (Entry Input Output)) :
    Prop :=
  Linearizable (Precedes entries) (applyOp model entries) model.init
    (List.range (entries.length / 2))

variable {entries : List (Entry Input Output)} {n id p : ℕ} {e : Entry Input Output}

namespace Paired

theorem length_eq (h : Paired entries n) : entries.length = 2 * n := by
  have hset : (entries.map Entry.tag).toFinset = Finset.range n ×ˢ (Finset.univ : Finset Bool) := by
    ext t
    simp only [List.mem_toFinset, h.mem_tag t, Finset.mem_product, Finset.mem_range,
      Finset.mem_univ, and_true]
  have hcard := List.toFinset_card_of_nodup h.nodup
  rw [hset, Finset.card_product, Finset.card_range, List.length_map, Finset.card_univ,
    Fintype.card_bool] at hcard
  omega

theorem half_length (h : Paired entries n) : entries.length / 2 = n := by
  rw [h.length_eq]
  omega

/-- The call and the return of an operation are where `posOf` says. -/
theorem getElem?_posOf (h : Paired entries n) (hid : id < n) (b : Bool) :
    ∃ e, entries[posOf entries id b]? = some e ∧ e.tag = (id, b) := by
  have hmem : (id, b) ∈ entries.map Entry.tag := (h.mem_tag _).2 hid
  have hlt : posOf entries id b < (entries.map Entry.tag).length := List.idxOf_lt_length_of_mem hmem
  have hlt' : posOf entries id b < entries.length := by simpa using hlt
  refine ⟨entries[posOf entries id b], List.getElem?_eq_getElem hlt', ?_⟩
  have htag : (entries.map Entry.tag)[posOf entries id b] = (id, b) := List.getElem_idxOf hlt
  simpa using htag

theorem posOf_lt (h : Paired entries n) (hid : id < n) (b : Bool) :
    posOf entries id b < entries.length := by
  obtain ⟨e, he, -⟩ := h.getElem?_posOf hid b
  exact (List.getElem?_eq_some_iff.1 he).1

/-- An entry sits at the position of its tag. -/
theorem posOf_tag (h : Paired entries n) (he : entries[p]? = some e) :
    posOf entries e.id e.value.isCall = p ∧ e.id < n := by
  obtain ⟨hp, rfl⟩ := List.getElem?_eq_some_iff.1 he
  have hp' : p < (entries.map Entry.tag).length := by simpa using hp
  have htag : (entries.map Entry.tag)[p] = entries[p].tag := by simp
  refine ⟨?_, (h.mem_tag entries[p].tag).1 (htag ▸ List.getElem_mem hp')⟩
  have hidx := h.nodup.idxOf_getElem p hp'
  rwa [htag] at hidx

theorem posOf_inj (h : Paired entries n) {id' : ℕ} {b b' : Bool} (hid : id < n) (hid' : id' < n)
    (hp : posOf entries id b = posOf entries id' b') : id = id' ∧ b = b' := by
  obtain ⟨e, he, ht⟩ := h.getElem?_posOf hid b
  obtain ⟨e', he', ht'⟩ := h.getElem?_posOf hid' b'
  rw [hp, he'] at he
  cases he
  rw [ht'] at ht
  cases ht
  exact ⟨rfl, rfl⟩

/-- The call entry of an operation, and its input. -/
theorem call_entry (h : Paired entries n) (hid : id < n) :
    ∃ t input, entries[callPos entries id]? = some ⟨id, t, .call input⟩ := by
  obtain ⟨⟨id', t, v⟩, he, ht⟩ := h.getElem?_posOf hid true
  cases v with
  | call input =>
    cases ht
    exact ⟨t, input, he⟩
  | ret output => cases ht

/-- The return entry of an operation, and its output. -/
theorem ret_entry (h : Paired entries n) (hid : id < n) :
    ∃ t output, entries[retPos entries id]? = some ⟨id, t, .ret output⟩ := by
  obtain ⟨⟨id', t, v⟩, he, ht⟩ := h.getElem?_posOf hid false
  cases v with
  | call input => cases ht
  | ret output =>
    cases ht
    exact ⟨t, output, he⟩

/-- Every operation has an input and an output. -/
theorem opOf_eq_some (h : Paired entries n) (hid : id < n) :
    ∃ input output, opOf entries id = some (input, output) := by
  obtain ⟨t, input, hc⟩ := h.call_entry hid
  obtain ⟨t', output, hr⟩ := h.ret_entry hid
  exact ⟨input, output, by simp only [opOf, hc, hr]⟩

end Paired

end Porcupine
