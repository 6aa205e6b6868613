import Porcupine.Entries.Events
/-!
# What the builders promise

`make_entries` lays out one call and one return for each operation so that
positions say what times do (`makeEntries_realTime`): equal times count as
overlap, whichever operations share them. The two builders that read a
partition off the whole history build what the plain ones build of the part
it selects (`fusedBuilders_eq`).
-/

namespace Porcupine

variable {Input Output : Type} {entries : List (Entry Input Output)}
variable {ops : List (Operation Input Output)} {a b : Entry Input Output}

/-- Entries in order are in the order of their times. -/
theorem Entry.NotAfter.time_le (h : a.NotAfter b) : a.time ≤ b.time := by
  rcases Entry.cmp_ne_gt.1 h with hlt | ⟨heq, -⟩
  · exact hlt.le
  · exact heq.le

namespace Arranged

/-- **In the order of the times.** -/
theorem sorted_time (h : Arranged entries ops) : entries.Pairwise fun a b => a.time ≤ b.time :=
  h.sorted.imp Entry.NotAfter.time_le

end Arranged

/-- **The order of the entries is real-time precedence.** One call entry and
one return entry of each operation, sorted by time, every call before its
own return, and a return before the call of another operation exactly when
it is earlier. -/
theorem makeEntries_realTime (ops : List (Operation Input Output))
    (hwf : ∀ op ∈ ops, op.call ≤ op.returnTime) :
    (makeEntries ops).Perm (flattened ops) ∧
    (makeEntries ops).Pairwise (fun a b => a.time ≤ b.time) ∧
    (∀ (i : ℕ) (op : Operation Input Output), ops[i]? = some op → ∃ c r : ℕ, c < r ∧
      (makeEntries ops)[c]? = some ⟨i, op.call, .call op.input⟩ ∧
      (makeEntries ops)[r]? = some ⟨i, op.returnTime, .ret op.output⟩) ∧
    ∀ (i j : ℕ) (a b : Operation Input Output), ops[i]? = some a → ops[j]? = some b → ∀ r c : ℕ,
      (makeEntries ops)[r]? = some ⟨i, a.returnTime, .ret a.output⟩ →
      (makeEntries ops)[c]? = some ⟨j, b.call, .call b.input⟩ →
      (r < c ↔ a.returnTime < b.call) := by
  have h : Arranged (makeEntries ops) ops := makeEntries_arranged
  refine ⟨h.perm, h.sorted_time, fun i op hop => ?_, fun i j a b ha hb r c hr hc => ?_⟩
  · have hlt : callPos (makeEntries ops) i < retPos (makeEntries ops) i :=
      (h.represents.callPos_lt_retPos_iff hop).2 (hwf op (List.mem_of_getElem? hop))
    exact ⟨_, _, hlt, h.call_entry hop, h.ret_entry hop⟩
  · have hret : retPos (makeEntries ops) i = r := (h.paired.posOf_tag hr).1
    have hcall : callPos (makeEntries ops) j = c := (h.paired.posOf_tag hc).1
    rw [← hret, ← hcall]
    exact h.represents.precedes i j a b ha hb

/-- Operations that begin and end at one instant. -/
def instants : List (Operation ℕ ℕ) := [⟨0, 1, 5, 0, 5⟩, ⟨1, 2, 5, 0, 5⟩, ⟨2, 3, 6, 0, 6⟩]

/-- The first two overlap, and both precede the third. -/
theorem makeEntries_realTime_instants :
    (∀ r c : ℕ, (makeEntries instants)[r]? = some ⟨0, 5, .ret 0⟩ →
      (makeEntries instants)[c]? = some ⟨1, 5, .call 2⟩ → ¬ r < c) ∧
    ∀ r c : ℕ, (makeEntries instants)[r]? = some ⟨0, 5, .ret 0⟩ →
      (makeEntries instants)[c]? = some ⟨2, 6, .call 3⟩ → r < c := by
  have h := (makeEntries_realTime instants (by decide)).2.2.2
  refine ⟨fun r c hr hc hlt => ?_, fun r c hr hc => ?_⟩
  · exact absurd ((h 0 1 _ _ rfl rfl r c hr hc).1 hlt) (by decide)
  · exact (h 0 2 _ _ rfl rfl r c hr hc).2 (by decide)

/-! ## Partitions -/

/-- **The fused builders are the plain ones**, run on what the indices
select, in their order and with their repetitions. -/
theorem fusedBuilders_eq :
    (∀ (history : List (Operation Input Output)) (indices : List ℕ),
      (∀ i ∈ indices, i < history.length) →
      makeEntriesFromIndices history indices = .ok (makeEntries (pick history indices))) ∧
    ∀ (history : List (Event Input Output)) (indices : List ℕ),
      (∀ ev ∈ history, (ev.kind = .call → ev.input.isSome = true) ∧
        (ev.kind = .ret → ev.output.isSome = true)) →
      (∀ i ∈ indices, i < history.length) →
      ∃ entries, convertEntriesFromIndices history indices = .ok entries ∧
        convertEntries (renumber (pick history indices)) = .ok entries := by
  refine ⟨fun history indices hlt => makeEntriesFromIndices_eq hlt,
    fun history indices hvalue hlt => ?_⟩
  have hpicked : ∀ ev ∈ pick history indices, ∃ v, eventValue ev = .ok v := by
    intro ev hev
    obtain ⟨i, -, hi⟩ := List.mem_filterMap.1 hev
    exact exists_eventValue_iff.2 (hvalue ev (List.mem_of_getElem? hi))
  obtain ⟨entries, hok, -⟩ := convertEntries_eq hpicked
  exact ⟨entries, (convertEntriesFromIndices_eq hlt).trans hok, hok⟩

/-- Out of order, and one of them twice. -/
theorem fusedBuilders_eq_repeated :
    makeEntriesFromIndices instants [2, 0, 2] = .ok (makeEntries (pick instants [2, 0, 2])) ∧
    ∃ entries, convertEntriesFromIndices [⟨0, .call, some 1, none, 9⟩, ⟨0, .ret, none, some 0, 9⟩,
        ⟨1, .call, some 2, none, 4⟩] [2, 1, 0, 2] = .ok entries ∧
      convertEntries (renumber (pick [⟨0, .call, some 1, none, 9⟩, ⟨0, .ret, none, some 0, 9⟩,
        ⟨1, .call, some 2, none, 4⟩] [2, 1, 0, 2])) = .ok entries :=
  ⟨fusedBuilders_eq.1 instants [2, 0, 2] (by decide),
    fusedBuilders_eq.2 [⟨0, .call, some 1, none, 9⟩, ⟨0, .ret, none, some 0, 9⟩,
      ⟨1, .call, some 2, none, 4⟩] [2, 1, 0, 2] (by decide) (by decide)⟩

end Porcupine
