import Mathlib.Data.Nat.Notation
import Mathlib.Logic.Function.Basic
import Mathlib.Data.List.Nodup
/-!
# Doubly linked lists whose removals are undone

A removed node keeps its own two links, and putting it back trusts them:
`relink` reads from the node the two neighbours that `unlink` joined.
`Chain` reads a list off the links from a head that is never removed.
Removal takes the node out of the list and touches nothing else of it
(`unlink_chain`), and where the node sat between its two neighbours,
putting it back at once restores every link (`relink_unlink`), so a stack
of removals is undone in reverse order.
-/

/-- The two links of every node. A node at the end has no successor. -/
structure Links (α : Type*) where
  /-- The node before. -/
  prev : α → α
  /-- The node after, if there is one. -/
  next : α → Option α

namespace Links

variable {α : Type*}

@[ext] theorem ext' {l l' : Links α} (hp : l.prev = l'.prev) (hn : l.next = l'.next) : l = l' := by
  cases l; cases l'; simp_all

/-- **The list that hangs off a head**: each node's successor is the next
node of the list, whose predecessor is that node. -/
def Chain (l : Links α) : α → List α → Prop
  | h, [] => l.next h = none
  | h, x :: xs => l.next h = some x ∧ l.prev x = h ∧ Chain l x xs

@[simp] theorem chain_nil {l : Links α} {h : α} : l.Chain h [] ↔ l.next h = none := Iff.rfl

@[simp] theorem chain_cons {l : Links α} {h x : α} {xs : List α} :
    l.Chain h (x :: xs) ↔ l.next h = some x ∧ l.prev x = h ∧ l.Chain x xs := Iff.rfl

/-- The head's successor is the list's first node. -/
theorem Chain.next_eq {l : Links α} {h : α} {xs : List α} (hc : l.Chain h xs) :
    l.next h = xs.head? := by
  cases xs with
  | nil => exact hc
  | cons x xs => exact hc.1

/-- The links past a node of the list are the list past it. -/
theorem Chain.append {l : Links α} {h x : α} {pre post : List α}
    (hc : l.Chain h (pre ++ x :: post)) : l.Chain x post := by
  induction pre generalizing h with
  | nil => exact hc.2.2
  | cons y pre ih => exact ih hc.2.2

/-- A list reads the successors of its head and its nodes and the
predecessors of its nodes, and no other link. -/
theorem Chain.congr {l l' : Links α} {h : α} {xs : List α} (hc : l.Chain h xs)
    (hnext : ∀ x ∈ h :: xs, l'.next x = l.next x) (hprev : ∀ x ∈ xs, l'.prev x = l.prev x) :
    l'.Chain h xs := by
  induction xs generalizing h with
  | nil => rw [chain_nil, hnext h (by simp)]; exact hc
  | cons x xs ih =>
    refine ⟨(hnext h (by simp)).trans hc.1, (hprev x (by simp)).trans hc.2.1, ?_⟩
    exact ih hc.2.2 (fun y hy => hnext y (List.mem_cons_of_mem _ hy))
      (fun y hy => hprev y (List.mem_cons_of_mem _ hy))

/-- A node sits between its two neighbours: both point back at it, and
neither is the node itself. -/
structure Seated (l : Links α) (x : α) : Prop where
  next_prev : l.next (l.prev x) = some x
  prev_ne : l.prev x ≠ x
  prev_next : ∀ y, l.next x = some y → l.prev y = x
  next_ne : l.next x ≠ some x

/-- Every node of a list without repetitions is seated. -/
theorem Chain.seated {l : Links α} {h x : α} {pre post : List α}
    (hc : l.Chain h (pre ++ x :: post)) (hnd : (h :: (pre ++ x :: post)).Nodup) : l.Seated x := by
  induction pre generalizing h with
  | nil =>
    obtain ⟨hh, hp, hrest⟩ := hc
    have hx : l.next x = post.head? := hrest.next_eq
    have hne : h ≠ x := fun e => by simp [e] at hnd
    refine ⟨hp ▸ hh, hp ▸ hne, fun y hy => ?_, fun hy => ?_⟩
    · cases post with
      | nil => rw [hx] at hy; cases hy
      | cons z post =>
        have : z = y := Option.some.inj (hx.symm.trans hy)
        exact this ▸ hrest.2.1
    · have : x ∈ post := List.mem_of_head? (hx.symm.trans hy)
      simp [this] at hnd
  | cons y pre ih => exact ih hc.2.2 (List.nodup_cons.1 hnd).2

/-- The neighbours of a node of the list are in the list, or its head. -/
theorem Chain.neighbours {l : Links α} {h x : α} {xs : List α} (hc : l.Chain h xs) (hx : x ∈ xs) :
    l.prev x ∈ h :: xs ∧ ∀ y, l.next x = some y → y ∈ xs := by
  induction xs generalizing h with
  | nil => cases hx
  | cons z xs ih =>
    obtain ⟨-, hp, hrest⟩ := hc
    rcases List.mem_cons.1 hx with rfl | hx
    · refine ⟨by simp [hp], fun y hy => List.mem_cons_of_mem _ ?_⟩
      exact List.mem_of_head? (hrest.next_eq.symm.trans hy)
    · obtain ⟨hprev, hnext⟩ := ih hrest hx
      exact ⟨List.mem_cons_of_mem _ hprev, fun y hy => List.mem_cons_of_mem _ (hnext y hy)⟩

/-- Consecutive numbers, each linked to the next. -/
theorem chain_range' {l : Links ℕ} {h n : ℕ}
    (hmid : ∀ i, h ≤ i → i < h + n → l.next i = some (i + 1) ∧ l.prev (i + 1) = i)
    (hend : l.next (h + n) = none) : l.Chain h (List.range' (h + 1) n) := by
  induction n generalizing h with
  | zero => exact hend
  | succ n ih =>
    obtain ⟨hn, hp⟩ := hmid h (Nat.le_refl h) (by omega)
    refine ⟨hn, hp, ih (fun i hi hlt => hmid i (by omega) (by omega)) ?_⟩
    rwa [Nat.add_right_comm h 1 n]

variable [DecidableEq α]

/-- Take a node out: its neighbours are joined, its own links stay. -/
def unlink (l : Links α) (x : α) : Links α where
  next := Function.update l.next (l.prev x) (l.next x)
  prev := match l.next x with
    | none => l.prev
    | some y => Function.update l.prev y (l.prev x)

/-- Put a node back between the two neighbours its own links name. -/
def relink (l : Links α) (x : α) : Links α where
  next := Function.update l.next (l.prev x) (some x)
  prev := match l.next x with
    | none => l.prev
    | some y => Function.update l.prev y x

/-- A seated node keeps its own links when it is taken out. -/
theorem unlink_self {l : Links α} {x : α} (hs : l.Seated x) :
    (l.unlink x).prev x = l.prev x ∧ (l.unlink x).next x = l.next x := by
  refine ⟨?_, Function.update_of_ne hs.prev_ne.symm _ _⟩
  cases hn : l.next x with
  | none => simp [unlink, hn]
  | some y =>
    have hy : x ≠ y := fun e => hs.next_ne (e ▸ hn)
    simp only [unlink, hn]
    exact Function.update_of_ne hy _ _

/-- **Putting a node back right after taking it out restores every
link.** -/
theorem relink_unlink {l : Links α} {x : α} (hs : l.Seated x) : (l.unlink x).relink x = l := by
  obtain ⟨hp, hn⟩ := unlink_self hs
  refine ext' ?_ ?_
  · change (match (l.unlink x).next x with
      | none => (l.unlink x).prev
      | some y => Function.update (l.unlink x).prev y x) = l.prev
    rw [hn]
    cases hx : l.next x with
    | none => simp only [unlink, hx]
    | some y =>
      have hself := Function.update_eq_self y l.prev
      rw [hs.prev_next y hx] at hself
      simpa only [unlink, hx, Function.update_idem] using hself
  · have hself := Function.update_eq_self (l.prev x) l.next
    rw [hs.next_prev] at hself
    change Function.update (l.unlink x).next ((l.unlink x).prev x) (some x) = l.next
    rw [hp]
    simpa only [unlink, Function.update_idem] using hself

/-- **Taking a node out of the list leaves the list without it.** -/
theorem unlink_chain {l : Links α} {h x : α} {pre post : List α}
    (hc : l.Chain h (pre ++ x :: post)) (hnd : (h :: (pre ++ x :: post)).Nodup) :
    (l.unlink x).Chain h (pre ++ post) := by
  induction pre generalizing h with
  | nil =>
    obtain ⟨-, hp, hrest⟩ := hc
    cases post with
    | nil =>
      simp only [List.append_nil, chain_nil, unlink, hp, Function.update_self]
      exact hrest
    | cons y post =>
      -- `x` heads the list: its neighbours are `h` and `y`, and the rest stays
      obtain ⟨hy, hyx, hrest⟩ := hrest
      simp only [List.nil_append, List.nodup_cons, List.mem_cons, not_or] at hnd
      obtain ⟨⟨-, hhy, hhpost⟩, ⟨-, -⟩, hypost, -⟩ := hnd
      refine ⟨by simp only [unlink, hp, Function.update_self, hy], ?_, ?_⟩
      · simp only [unlink, hy, hp, Function.update_self]
      · refine hrest.congr (fun z hz => ?_) (fun z hz => ?_)
        · refine Function.update_of_ne ?_ _ _
          rw [hp]
          rintro rfl
          rcases List.mem_cons.1 hz with rfl | hz
          · exact hhy rfl
          · exact hhpost hz
        · simp only [unlink, hy]
          exact Function.update_of_ne (by rintro rfl; exact hypost hz) _ _
  | cons y pre ih =>
    have hseat : l.Seated x := Chain.seated (h := h) (l := l) (x := x) hc hnd
    have hnd' := (List.nodup_cons.1 hnd).2
    have hrest := ih hc.2.2 hnd'
    -- `x` is further on, so the link from `h` is not among those that change
    have hpx : l.prev x ≠ h := by
      intro e
      have hx : l.next h = some x := e ▸ hseat.next_prev
      have : y = x := Option.some.inj (hc.1.symm.trans hx)
      simp [this] at hnd
    refine ⟨(Function.update_of_ne hpx.symm _ _).trans hc.1, ?_, hrest⟩
    cases hn : l.next x with
    | none => simpa only [unlink, hn] using hc.2.1
    | some z =>
      have hz : z ∈ post := List.mem_of_head? (hc.append.next_eq.symm.trans hn)
      have hyz : y ≠ z := by
        rintro rfl
        simp [hz] at hnd'
      simp only [unlink, hn]
      exact (Function.update_of_ne hyz _ _).trans hc.2.1

/-- Removal by value: the node is seated, and the list loses it. -/
theorem Chain.unlink_erase {l : Links α} {h x : α} {xs : List α} (hc : l.Chain h xs)
    (hnd : (h :: xs).Nodup) (hx : x ∈ xs) :
    l.Seated x ∧ (l.unlink x).Chain h (xs.erase x) := by
  obtain ⟨pre, post, rfl⟩ := List.append_of_mem hx
  have hpre : x ∉ pre := by
    have hmid := (List.nodup_middle.1 (List.nodup_cons.1 hnd).2)
    exact fun hmem => (List.nodup_cons.1 hmid).1 (List.mem_append_left _ hmem)
  rw [List.erase_append_right _ hpre, List.erase_cons_head]
  exact ⟨hc.seated hnd, unlink_chain hc hnd⟩

end Links
