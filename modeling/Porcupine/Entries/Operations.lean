import Porcupine.Entries.Represents
/-!
# The entries of an operation history

`make_entries` flattens the operations and sorts by time, calls first at
equal times. Any arrangement of the flattened entries in that order
represents the history (`Arranged.represents`): two operations that touch
at one instant overlap, because the call is placed before the return. A
partition's entries are those of the operations it picks.
-/

namespace Porcupine

variable {Input Output : Type} {entries : List (Entry Input Output)}
variable {ops history : List (Operation Input Output)} {a b e : Entry Input Output} {id : ℕ}

/-! ## The comparison -/

theorem Entry.cmp_ne_gt : a.cmp b ≠ .gt ↔
    a.time < b.time ∨ a.time = b.time ∧ (a.value.isCall = true ∨ b.value.isCall = false) := by
  have hcmp : compare a.time b.time = .lt ∧ a.time < b.time ∨
      compare a.time b.time = .eq ∧ a.time = b.time ∨
      compare a.time b.time = .gt ∧ b.time < a.time := by
    rcases Nat.lt_trichotomy a.time b.time with h | h | h
    · exact Or.inl ⟨Nat.compare_eq_lt.2 h, h⟩
    · exact Or.inr (Or.inl ⟨Nat.compare_eq_eq.2 h, h⟩)
    · exact Or.inr (Or.inr ⟨Nat.compare_eq_gt.2 h, h⟩)
  obtain ⟨ida, ta, va⟩ := a
  obtain ⟨idb, tb, vb⟩ := b
  rcases hcmp with ⟨hc, h⟩ | ⟨hc, h⟩ | ⟨hc, h⟩
  · simp only at hc h
    simp [Entry.cmp, hc, h]
  · simp only at hc h
    cases va <;> cases vb <;> simp [Entry.cmp, h, EntryValue.isCall]
  · simp only at hc h
    have h1 : ¬ ta < tb := by omega
    have h2 : ta ≠ tb := by omega
    simp [Entry.cmp, hc, h1, h2]

/-- The order entries are sorted by. -/
def Entry.NotAfter (a b : Entry Input Output) : Prop := a.cmp b ≠ .gt

instance : DecidableRel (@Entry.NotAfter Input Output) :=
  fun a b => inferInstanceAs (Decidable (a.cmp b ≠ .gt))

instance : Std.Total (@Entry.NotAfter Input Output) where
  total a b := by
    simp only [Entry.NotAfter, Entry.cmp_ne_gt]
    cases a.value.isCall <;> cases b.value.isCall <;> simp <;> omega

instance : IsTrans (Entry Input Output) Entry.NotAfter where
  trans a b c hab hbc := by
    simp only [Entry.NotAfter, Entry.cmp_ne_gt] at *
    rcases hab with hab | ⟨hab, hab'⟩ <;> rcases hbc with hbc | ⟨hbc, hbc'⟩
    · left; omega
    · left; omega
    · left; omega
    · right
      refine ⟨hab.trans hbc, ?_⟩
      rcases hab' with h | h
      · exact Or.inl h
      · rcases hbc' with h' | h'
        · rw [h] at h'
          cases h'
        · exact Or.inr h'

/-! ## Flattening -/

/-- The entries of the operations, in slice order. -/
def flattened (ops : List (Operation Input Output)) : List (Entry Input Output) :=
  ops.zipIdx.flatMap fun (op, id) => entriesOf id op

theorem mem_flattened : e ∈ flattened ops ↔ ∃ op, ops[e.id]? = some op ∧
    (e = ⟨e.id, op.call, .call op.input⟩ ∨ e = ⟨e.id, op.returnTime, .ret op.output⟩) := by
  simp only [flattened, List.mem_flatMap, Prod.exists, List.mem_zipIdx_iff_getElem?, entriesOf,
    List.mem_cons, List.not_mem_nil, or_false]
  constructor
  · rintro ⟨op, i, hop, rfl | rfl⟩
    · exact ⟨op, hop, Or.inl rfl⟩
    · exact ⟨op, hop, Or.inr rfl⟩
  · rintro ⟨op, hop, h⟩
    exact ⟨op, e.id, hop, h⟩

theorem flattened_paired : Paired (flattened ops) ops.length where
  nodup := by
    have htags : (flattened ops).map Entry.tag =
        (List.range ops.length).flatMap fun id => [(id, true), (id, false)] := by
      rw [flattened, List.map_flatMap, List.range_eq_range', ← List.zipIdx_map_snd 0 ops,
        List.flatMap_map]
      rfl
    rw [htags, List.nodup_flatMap]
    refine ⟨fun _ _ => by simp, List.nodup_range.imp fun {i j} hij => ?_⟩
    simp [List.disjoint_left, hij]
  mem_tag t := by
    simp only [List.mem_map]
    constructor
    · rintro ⟨e, he, rfl⟩
      obtain ⟨op, hop, -⟩ := mem_flattened.1 he
      exact (List.getElem?_eq_some_iff.1 hop).1
    · intro ht
      obtain ⟨i, b⟩ := t
      have hop : ops[i]? = some ops[i] := List.getElem?_eq_getElem ht
      cases b with
      | true => exact ⟨⟨i, ops[i].call, .call ops[i].input⟩, mem_flattened.2 ⟨_, hop, Or.inl rfl⟩, rfl⟩
      | false =>
        exact ⟨⟨i, ops[i].returnTime, .ret ops[i].output⟩, mem_flattened.2 ⟨_, hop, Or.inr rfl⟩, rfl⟩

theorem Paired.perm {entries' : List (Entry Input Output)} {n : ℕ} (h : Paired entries n)
    (hp : entries.Perm entries') : Paired entries' n :=
  ⟨(hp.map _).nodup_iff.1 h.nodup, fun t => (hp.map _).mem_iff.symm.trans (h.mem_tag t)⟩

/-! ## Arranging -/

/-- **The flattened entries in order**, ties broken in any way that puts
calls first. -/
structure Arranged (entries : List (Entry Input Output)) (ops : List (Operation Input Output)) :
    Prop where
  perm : entries.Perm (flattened ops)
  sorted : entries.Pairwise Entry.NotAfter

theorem makeEntries_arranged : Arranged (makeEntries ops) ops :=
  ⟨List.perm_insertionSort _ _, List.pairwise_insertionSort Entry.NotAfter _⟩

namespace Arranged

theorem paired (h : Arranged entries ops) : Paired entries ops.length :=
  flattened_paired.perm h.perm.symm

theorem call_entry (h : Arranged entries ops) {op : Operation Input Output}
    (hop : ops[id]? = some op) :
    entries[callPos entries id]? = some ⟨id, op.call, .call op.input⟩ := by
  obtain ⟨t, input, he⟩ := h.paired.call_entry (List.getElem?_eq_some_iff.1 hop).1
  obtain ⟨op', hop', heq⟩ := mem_flattened.1 (h.perm.mem_iff.1 (List.mem_of_getElem? he))
  rw [hop] at hop'
  cases hop'
  rcases heq with heq | heq
  · rw [he, heq]
  · cases heq

theorem ret_entry (h : Arranged entries ops) {op : Operation Input Output}
    (hop : ops[id]? = some op) :
    entries[retPos entries id]? = some ⟨id, op.returnTime, .ret op.output⟩ := by
  obtain ⟨t, output, he⟩ := h.paired.ret_entry (List.getElem?_eq_some_iff.1 hop).1
  obtain ⟨op', hop', heq⟩ := mem_flattened.1 (h.perm.mem_iff.1 (List.mem_of_getElem? he))
  rw [hop] at hop'
  cases hop'
  rcases heq with heq | heq
  · cases heq
  · rw [he, heq]

/-- **Arranged entries represent the history.** -/
theorem represents (h : Arranged entries ops) : Represents entries ops where
  paired := h.paired
  opOf i op hop := by simp only [Porcupine.opOf, h.call_entry hop, h.ret_entry hop]; rfl
  precedes i j a b ha hb := by
    have hret := h.ret_entry ha
    have hcall := h.call_entry hb
    obtain ⟨hi, hret'⟩ := List.getElem?_eq_some_iff.1 hret
    obtain ⟨hj, hcall'⟩ := List.getElem?_eq_some_iff.1 hcall
    have hsorted := List.pairwise_iff_getElem.1 h.sorted
    constructor
    · intro hlt
      have hle := hsorted _ _ hi hj hlt
      rw [hret', hcall', Entry.NotAfter, Entry.cmp_ne_gt] at hle
      simpa [EntryValue.isCall, Operation.Before] using hle
    · intro hlt
      refine lt_of_le_of_ne (Nat.le_of_not_lt fun hgt => ?_) fun he => ?_
      · have hle := hsorted _ _ hj hi hgt
        rw [hret', hcall', Entry.NotAfter, Entry.cmp_ne_gt] at hle
        simp only [Operation.Before] at hlt
        simp only [EntryValue.isCall] at hle
        omega
      · rw [he, hcall] at hret
        simp at hret

end Arranged

/-! ## Partitions -/

/-- What an index list picks out of a history. -/
def pick {α : Type} (history : List α) (indices : List ℕ) : List α :=
  indices.filterMap fun i => history[i]?

theorem pick_forall₂ {α : Type} {history : List α} {indices : List ℕ}
    (h : ∀ i ∈ indices, i < history.length) :
    List.Forall₂ (fun i x => history[i]? = some x) indices (pick history indices) := by
  induction indices with
  | nil => exact .nil
  | cons i indices ih =>
    have hlt : i < history.length := h i (by simp)
    have hi : history[i]? = some history[i] := List.getElem?_eq_getElem hlt
    rw [pick, List.filterMap_cons_some hi]
    exact .cons hi (ih fun j hj => h j (List.mem_cons_of_mem _ hj))

theorem pick_range {α : Type} {history : List α} : pick history (List.range history.length) = history := by
  have hmap : (List.range history.length).map (fun i => history[i]?) = history.map some := by
    refine List.ext_getElem (by simp) fun i h₁ h₂ => ?_
    simp at h₁ ⊢
  have hpick : pick history (List.range history.length) =
      ((List.range history.length).map fun i => history[i]?).filterMap id := by
    rw [List.filterMap_map]
    rfl
  rw [hpick, hmap, List.filterMap_map]
  exact List.filterMap_some

/-- **A partition is checked as the history it picks.** -/
theorem makeEntriesFromIndices_eq {indices : List ℕ} (h : ∀ i ∈ indices, i < history.length) :
    makeEntriesFromIndices history indices = .ok (makeEntries (pick history indices)) := by
  -- for any body and any flattening that do what these do
  have key : ∀ {f : ℕ × ℕ → Result (List (Entry Input Output))}
      {g : Operation Input Output × ℕ → List (Entry Input Output)},
      (∀ i id, f (i, id) = readAt history i >>= fun op => .ok (entriesOf id op)) →
      (∀ op id, g (op, id) = entriesOf id op) →
      ∀ (indices : List ℕ) (picked : List (Operation Input Output)) (k : ℕ),
      List.Forall₂ (fun i x => history[i]? = some x) indices picked →
      (indices.zipIdx k).mapM f = .ok ((picked.zipIdx k).map g) := by
    intro f g hf hg indices picked k hpick
    induction hpick generalizing k with
    | nil => rfl
    | cons hi _ ih =>
      rw [List.zipIdx_cons, List.zipIdx_cons, List.mapM_cons, ih, hf, readAt_eq_ok.2 hi,
        List.map_cons, hg]
      rfl
  rw [makeEntries, List.flatMap_def]
  exact Result.bind_eq_ok.2
    ⟨_, key (fun _ _ => rfl) (fun _ _ => rfl) indices _ 0 (pick_forall₂ h), rfl⟩

end Porcupine
