import Porcupine.Entries.Paired
import Mathlib.Data.List.TakeWhile
/-!
# The live list and its frontier

With some operations taken out, the live list is the positions of the
entries of the others. A walk along it that stops at the first return
passes exactly the calls of the operations that no operation still in the
list precedes (`mem_frontier`), so a search that tries the calls it passes
tries every operation that may come next, and no other.
-/

namespace Porcupine

variable {Input Output : Type} {entries : List (Entry Input Output)} {n id p : ℕ} {ids : List ℕ}

/-- The id of the entry at a position. -/
def idAt (entries : List (Entry Input Output)) (p : ℕ) : ℕ := (entries[p]?.map Entry.id).getD 0

/-- Whether the entry at a position is a call. -/
def isCallAt (entries : List (Entry Input Output)) (p : ℕ) : Bool :=
  entries[p]?.any fun e => e.value.isCall

/-- The positions of the entries left when the operations `ids` are taken
out. -/
def live (entries : List (Entry Input Output)) (ids : List ℕ) : List ℕ :=
  (List.range entries.length).filter fun p => idAt entries p ∉ ids

/-- The operations whose calls a walk along the positions passes before it
meets a return. -/
def frontier (entries : List (Entry Input Output)) (walk : List ℕ) : List ℕ :=
  (walk.takeWhile (isCallAt entries)).map (idAt entries)

theorem idAt_eq {e : Entry Input Output} (he : entries[p]? = some e) : idAt entries p = e.id := by
  simp [idAt, he]

theorem isCallAt_eq {e : Entry Input Output} (he : entries[p]? = some e) :
    isCallAt entries p = e.value.isCall := by
  simp [isCallAt, he]

namespace Paired

theorem idAt_posOf (h : Paired entries n) (hid : id < n) (b : Bool) :
    idAt entries (posOf entries id b) = id := by
  obtain ⟨e, he, ht⟩ := h.getElem?_posOf hid b
  rw [idAt_eq he]
  exact congrArg Prod.fst ht

theorem isCallAt_posOf (h : Paired entries n) (hid : id < n) (b : Bool) :
    isCallAt entries (posOf entries id b) = b := by
  obtain ⟨e, he, ht⟩ := h.getElem?_posOf hid b
  rw [isCallAt_eq he]
  exact congrArg Prod.snd ht

theorem posOf_idAt (h : Paired entries n) (hp : p < entries.length) :
    posOf entries (idAt entries p) (isCallAt entries p) = p ∧ idAt entries p < n := by
  have he : entries[p]? = some entries[p] := List.getElem?_eq_getElem hp
  rw [idAt_eq he, isCallAt_eq he]
  exact h.posOf_tag he

/-- The positions of an operation are its call's and its return's. -/
theorem idAt_eq_iff (h : Paired entries n) (hid : id < n) (hp : p < entries.length) :
    idAt entries p = id ↔ p = callPos entries id ∨ p = retPos entries id := by
  constructor
  · rintro rfl
    obtain ⟨hpos, -⟩ := h.posOf_idAt hp
    cases hb : isCallAt entries p with
    | true => rw [hb] at hpos; exact Or.inl hpos.symm
    | false => rw [hb] at hpos; exact Or.inr hpos.symm
  · rintro (rfl | rfl)
    · exact h.idAt_posOf hid true
    · exact h.idAt_posOf hid false

end Paired

/-! ## The live list -/

theorem mem_live : p ∈ live entries ids ↔ p < entries.length ∧ idAt entries p ∉ ids := by
  simp [live]

theorem live_sorted : (live entries ids).Pairwise (· < ·) :=
  List.pairwise_lt_range.filter _

theorem live_nodup : (live entries ids).Nodup :=
  List.nodup_range.filter _

theorem live_nil : live entries [] = List.range entries.length := by
  simp [live]

/-- The live list reads the operations taken out as a set. -/
theorem live_congr {ids' : List ℕ} (h : ∀ i, i ∈ ids ↔ i ∈ ids') :
    live entries ids = live entries ids' := by
  simp only [live, h]

theorem Paired.posOf_mem_live (h : Paired entries n) (hid : id < n) (hmem : id ∉ ids) (b : Bool) :
    posOf entries id b ∈ live entries ids :=
  mem_live.2 ⟨h.posOf_lt hid b, by rwa [h.idAt_posOf hid b]⟩

/-- **Taking one more operation out removes its call and its return.** -/
theorem Paired.live_cons (h : Paired entries n) (hid : id < n) :
    live entries (id :: ids) =
      ((live entries ids).erase (callPos entries id)).erase (retPos entries id) := by
  rw [(live_nodup.erase _).erase_eq_filter, live_nodup.erase_eq_filter, List.filter_filter, live,
    live, List.filter_filter]
  refine List.filter_congr fun p hp => ?_
  have hiff := h.idAt_eq_iff hid (List.mem_range.1 hp)
  by_cases hc : p = callPos entries id
  · simp [hc, h.idAt_posOf hid]
  · by_cases hr : p = retPos entries id
    · simp [hr, h.idAt_posOf hid]
    · have hne : idAt entries p ≠ id := fun he => (hiff.1 he).elim hc hr
      simp [hc, hr, hne]

/-- Nothing is left exactly when every operation has been taken out. -/
theorem Paired.live_eq_nil_iff (h : Paired entries n) :
    live entries ids = [] ↔ ∀ i < n, i ∈ ids := by
  constructor
  · intro hnil i hi
    by_contra hmem
    have hpos := h.posOf_mem_live hi hmem true
    rw [hnil] at hpos
    cases hpos
  · intro hall
    rw [List.eq_nil_iff_forall_not_mem]
    intro p hp
    obtain ⟨hlt, hmem⟩ := mem_live.1 hp
    exact hmem (hall _ (h.posOf_idAt hlt).2)

/-- A live call's return is live, so a live list of calls only is empty. -/
theorem Paired.live_eq_nil_of_calls (h : Paired entries n)
    (hcalls : ∀ p ∈ live entries ids, isCallAt entries p = true) : live entries ids = [] := by
  rw [List.eq_nil_iff_forall_not_mem]
  intro p hp
  obtain ⟨hlt, hmem⟩ := mem_live.1 hp
  obtain ⟨-, hid⟩ := h.posOf_idAt hlt
  have hret := hcalls _ (h.posOf_mem_live hid hmem false)
  rw [h.isCallAt_posOf hid] at hret
  cases hret

/-! ## The frontier -/

/-- In increasing order, what a walk passes before it stops is what has
only passable positions up to it. -/
theorem mem_takeWhile_iff {f : ℕ → Bool} {l : List ℕ} (hl : l.Pairwise (· < ·)) :
    p ∈ l.takeWhile f ↔ p ∈ l ∧ ∀ q ∈ l, q ≤ p → f q = true := by
  induction l with
  | nil => simp
  | cons a l ih =>
    obtain ⟨ha, hl'⟩ := List.pairwise_cons.1 hl
    cases hf : f a with
    | false =>
      rw [List.takeWhile_cons_of_neg (by simp [hf])]
      simp only [List.not_mem_nil, List.mem_cons, forall_eq_or_imp, hf, Bool.false_eq_true,
        imp_false, false_iff, not_and, not_le]
      rintro (rfl | hp) hle
      · omega
      · have := ha p hp
        omega
    | true =>
      rw [List.takeWhile_cons_of_pos hf]
      simp only [List.mem_cons, forall_eq_or_imp, hf, implies_true, true_and, ih hl']
      constructor
      · rintro (rfl | ⟨hp, hall⟩)
        · exact ⟨Or.inl rfl, fun q hq hle => by have := ha q hq; omega⟩
        · exact ⟨Or.inr hp, hall⟩
      · rintro ⟨rfl | hp, hall⟩
        · exact Or.inl rfl
        · exact Or.inr ⟨hp, hall⟩

/-- **The frontier is exact**: it holds the operations still in the list
that none of those precedes. -/
theorem Paired.mem_frontier (h : Paired entries n) :
    id ∈ frontier entries (live entries ids) ↔
      id < n ∧ id ∉ ids ∧ ∀ i < n, i ∉ ids → ¬ Precedes entries i id := by
  rw [frontier, List.mem_map]
  constructor
  · rintro ⟨p, hp, rfl⟩
    obtain ⟨hlive, hall⟩ := (mem_takeWhile_iff live_sorted).1 hp
    obtain ⟨hlt, hmem⟩ := mem_live.1 hlive
    obtain ⟨hpos, hid⟩ := h.posOf_idAt hlt
    rw [hall p hlive le_rfl] at hpos
    -- a return before the call would have stopped the walk
    refine ⟨hid, hmem, fun i hi hi' hprec => ?_⟩
    have hcall := hall _ (h.posOf_mem_live hi hi' false) (by
      rw [precedes_iff, hpos] at hprec
      exact hprec.le)
    rw [h.isCallAt_posOf hi] at hcall
    cases hcall
  · rintro ⟨hid, hmem, hmin⟩
    refine ⟨callPos entries id, ?_, h.idAt_posOf hid true⟩
    refine (mem_takeWhile_iff live_sorted).2 ⟨h.posOf_mem_live hid hmem true, fun q hq hle => ?_⟩
    obtain ⟨hlt, hq'⟩ := mem_live.1 hq
    obtain ⟨hpos, hidq⟩ := h.posOf_idAt hlt
    -- a return on the way would be of an operation that precedes
    by_contra hcall
    rw [Bool.not_eq_true] at hcall
    rw [hcall] at hpos
    have hne : q ≠ callPos entries id := by
      rintro rfl
      rw [h.isCallAt_posOf hid] at hcall
      cases hcall
    refine hmin _ hidq hq' ?_
    rw [precedes_iff, hpos]
    exact lt_of_le_of_ne hle hne

end Porcupine
