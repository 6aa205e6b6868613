import Mathlib.Data.Finset.Card
import Mathlib.Data.List.Basic
/-!
# Numbering by first occurrence

The number of an element of a list is how many distinct elements the list
has before it. The numbers are the first ones, each the number of one
element, in the order of the first occurrences (`image_rank`,
`rank_lt_rank_iff`). They do not depend on what the elements are, only on
which are equal: two lists are numbered alike exactly when an injective
renaming takes the one to the other (`map_rank_eq_iff`), so a numbered list
numbers to itself (`map_rank_map_rank`).
-/

namespace Numbering

variable {α β : Type*} [DecidableEq α] [DecidableEq β]
variable {l : List α} {l' : List β} {a b : α} {f : α → β}

/-- **The number of `a`**: how many distinct elements stand before the first
`a`. -/
def rank (l : List α) (a : α) : ℕ := (l.take (l.idxOf a)).toFinset.card

theorem mem_take_idxOf (ha : a ∈ l) : a ∈ l.take (l.idxOf b) ↔ l.idxOf a < l.idxOf b :=
  List.mem_take_iff_idxOf_lt ha

/-- Fewer elements stand before the first `a` than in a set that has them and
`a`, which is not among them. -/
theorem rank_lt_card_of {s : Finset α} (ha : a ∈ l) (has : a ∈ s)
    (hsub : ∀ x ∈ l.take (l.idxOf a), x ∈ s) : rank l a < s.card := by
  refine Finset.card_lt_card ((Finset.ssubset_iff_of_subset ?_).2 ⟨a, has, ?_⟩)
  · intro x hx
    exact hsub x (List.mem_toFinset.1 hx)
  · rw [List.mem_toFinset, mem_take_idxOf ha]
    exact Nat.lt_irrefl _

/-- Numbers grow along the first occurrences. -/
theorem rank_lt_rank (ha : a ∈ l) (h : l.idxOf a < l.idxOf b) : rank l a < rank l b := by
  refine rank_lt_card_of ha (List.mem_toFinset.2 ((mem_take_idxOf ha).2 h)) fun x hx => ?_
  have hxl : x ∈ l := List.mem_of_mem_take hx
  exact List.mem_toFinset.2 ((mem_take_idxOf hxl).2 (((mem_take_idxOf hxl).1 hx).trans h))

/-- There are fewer of them than in the whole list. -/
theorem rank_lt_card (ha : a ∈ l) : rank l a < l.toFinset.card :=
  rank_lt_card_of ha (List.mem_toFinset.2 ha) fun _ hx =>
    List.mem_toFinset.2 (List.mem_of_mem_take hx)

/-- **Numbers follow first occurrences.** -/
theorem rank_lt_rank_iff (ha : a ∈ l) (hb : b ∈ l) :
    rank l a < rank l b ↔ l.idxOf a < l.idxOf b := by
  refine ⟨fun h => ?_, rank_lt_rank ha⟩
  rcases Nat.lt_trichotomy (l.idxOf a) (l.idxOf b) with hlt | heq | hgt
  · exact hlt
  · rw [(List.idxOf_inj ha).1 heq] at h
    exact absurd h (Nat.lt_irrefl _)
  · exact absurd h (rank_lt_rank hb hgt).asymm

/-- **No number is given twice.** -/
theorem rank_injOn (l : List α) : Set.InjOn (rank l) {x | x ∈ l} := by
  intro a ha b hb he
  have hab : ¬ l.idxOf a < l.idxOf b := fun h => Nat.ne_of_lt (rank_lt_rank ha h) he
  have hba : ¬ l.idxOf b < l.idxOf a := fun h => Nat.ne_of_lt (rank_lt_rank hb h) he.symm
  exact (List.idxOf_inj ha).1 (by omega)

/-- **The numbers are the first ones**, as many as there are distinct
elements. -/
theorem image_rank (l : List α) : l.toFinset.image (rank l) = Finset.range l.toFinset.card := by
  refine Finset.eq_of_subset_of_card_le ?_ ?_
  · intro k hk
    obtain ⟨a, ha, rfl⟩ := Finset.mem_image.1 hk
    exact Finset.mem_range.2 (rank_lt_card (List.mem_toFinset.1 ha))
  · have hinj : Set.InjOn (rank l) (l.toFinset : Set α) := fun a ha b hb =>
      rank_injOn l (List.mem_toFinset.1 ha) (List.mem_toFinset.1 hb)
    rw [Finset.card_range, Finset.card_image_of_injOn hinj]

/-! ## Renaming -/

/-- A renaming that is injective on the list keeps first occurrences. -/
theorem idxOf_map (hf : Set.InjOn f {x | x ∈ l}) (ha : a ∈ l) :
    (l.map f).idxOf (f a) = l.idxOf a := by
  induction l with
  | nil => cases ha
  | cons b l ih =>
    by_cases hab : b = a
    · subst hab
      rw [List.map_cons, List.idxOf_cons_self, List.idxOf_cons_self]
    · have hne : f b ≠ f a := fun he => hab (hf List.mem_cons_self ha he)
      have hmem : a ∈ l := (List.mem_cons.1 ha).resolve_left (Ne.symm hab)
      have hrest := ih (hf.mono fun x hx => List.mem_cons_of_mem b hx) hmem
      rw [List.map_cons, List.idxOf_cons_ne _ hne, List.idxOf_cons_ne _ hab, hrest]

/-- **It keeps the numbers.** -/
theorem rank_map (hf : Set.InjOn f {x | x ∈ l}) (ha : a ∈ l) :
    rank (l.map f) (f a) = rank l a := by
  have himage : ((l.take (l.idxOf a)).map f).toFinset = (l.take (l.idxOf a)).toFinset.image f := by
    ext y
    simp only [List.mem_toFinset, List.mem_map, Finset.mem_image]
  have hinj : Set.InjOn f ((l.take (l.idxOf a)).toFinset : Set α) := fun x hx y hy =>
    hf (List.mem_of_mem_take (List.mem_toFinset.1 hx))
      (List.mem_of_mem_take (List.mem_toFinset.1 hy))
  rw [rank, idxOf_map hf ha, ← List.map_take, himage, Finset.card_image_of_injOn hinj, rank]

/-- **Lists are numbered alike exactly when one is the other renamed.** -/
theorem map_rank_eq_iff [Nonempty β] : l.map (rank l) = l'.map (rank l') ↔
    ∃ f : α → β, Set.InjOn f {x | x ∈ l} ∧ l' = l.map f := by
  constructor
  · intro h
    have hex : ∀ a ∈ l, ∃ b ∈ {y | y ∈ l'}, rank l' b = rank l a := by
      intro a ha
      have hmem : rank l a ∈ l'.map (rank l') := h ▸ List.mem_map_of_mem ha
      exact List.mem_map.1 hmem
    -- the element of `l'` that has the number
    let f : α → β := fun a => Function.invFunOn (rank l') {y | y ∈ l'} (rank l a)
    have hmem : ∀ a ∈ l, f a ∈ l' := fun a ha => Function.invFunOn_mem (hex a ha)
    have hrank : ∀ a ∈ l, rank l' (f a) = rank l a := fun a ha => Function.invFunOn_eq (hex a ha)
    refine ⟨f, fun a ha b hb he => ?_, ?_⟩
    · exact rank_injOn l ha hb (by rw [← hrank a ha, ← hrank b hb, he])
    · have hlen : l'.length = l.length := by simpa using (congrArg List.length h).symm
      refine List.ext_getElem (by rw [hlen, List.length_map]) fun i hi hi' => ?_
      have hil : i < l.length := hlen ▸ hi
      have hnum : rank l l[i] = rank l' l'[i] := by
        have hget := congrArg (fun l => l[i]?) h
        simpa [hi, hil] using hget
      rw [List.getElem_map]
      refine rank_injOn l' (List.getElem_mem hi) (hmem _ (List.getElem_mem hil)) ?_
      rw [hrank _ (List.getElem_mem hil), hnum]
  · rintro ⟨f, hf, rfl⟩
    rw [List.map_map]
    exact List.map_congr_left fun a ha => (rank_map hf ha).symm

/-- **A numbered list numbers to itself.** -/
theorem map_rank_map_rank (l : List α) :
    (l.map (rank l)).map (rank (l.map (rank l))) = l.map (rank l) :=
  (map_rank_eq_iff.2 ⟨rank l, rank_injOn l, rfl⟩).symm

end Numbering
