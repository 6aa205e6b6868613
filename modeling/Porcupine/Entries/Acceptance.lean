import Porcupine.Entries.Builders
import Porcupine.Entries.Pairing
/-!
# What the debug gate accepts, by positions

The two assertions that `check_events` runs in a debug build, read off the
input itself: where the events of an id stand, and which groups list those
positions. Well-formedness is one call and one return of each id in that
order (`wellFormedEvents_iff`); the partition has to list every position
once and the two positions of an id in one group
(`partitionEventsPaired_iff`).
-/

namespace Porcupine

variable {Input Output : Type} {events : List (Event Input Output)} {parts : List (List ℕ)}
variable {kind : EventKind} {ev : Event Input Output} {id c r p : ℕ}

/-- An event of that kind and that id stands at `p`. -/
def StandsAt (events : List (Event Input Output)) (kind : EventKind) (id p : ℕ) : Prop :=
  ∃ ev, events[p]? = some ev ∧ ev.kind = kind ∧ ev.id = id

/-- **The id has one call, at `c`, and one return, at `r`**, each with its
value, and the call comes first. -/
structure CallThenReturn (events : List (Event Input Output)) (id c r : ℕ) : Prop where
  call : ∀ p, StandsAt events .call id p ↔ p = c
  ret : ∀ p, StandsAt events .ret id p ↔ p = r
  input : ∀ ev, events[c]? = some ev → ev.input.isSome = true
  output : ∀ ev, events[r]? = some ev → ev.output.isSome = true
  lt : c < r

/-- **The call and the return of every id are listed by one group.** -/
def PairsTogether (events : List (Event Input Output)) (parts : List (List ℕ)) : Prop :=
  ∀ id c r, StandsAt events .call id c → StandsAt events .ret id r → ∃ g ∈ parts, c ∈ g ∧ r ∈ g

/-! ## Events -/

theorem standsAt_iff : StandsAt events kind id p ↔
    ∃ ev, events[p]? = some ev ∧ ev.tag = (id, decide (kind = .call)) := by
  refine exists_congr fun ev => and_congr_right fun _ => ?_
  cases kind with
  | call => exact and_comm.trans tag_eq_true_iff.symm
  | ret => exact and_comm.trans tag_eq_false_iff.symm

theorem standsAt_of_getElem? (hp : events[p]? = some ev) : StandsAt events ev.kind ev.id p :=
  ⟨ev, hp, rfl, rfl⟩

namespace PairedEvents

/-- In paired events there is one of each kind, -/
theorem exists_standsAt (h : PairedEvents events) (hev : ev ∈ events) (kind : EventKind) :
    ∃ p, StandsAt events kind ev.id p := by
  obtain ⟨ev', hev', ht⟩ := h.exists_tag hev (decide (kind = .call))
  obtain ⟨p, hp⟩ := List.getElem?_of_mem hev'
  exact ⟨p, standsAt_iff.2 ⟨ev', hp, ht⟩⟩

/-- and no other. -/
theorem standsAt_iff_eq (h : PairedEvents events) (hc : StandsAt events kind id c) :
    StandsAt events kind id p ↔ p = c := by
  constructor
  · intro hp
    obtain ⟨ev, hev, ht⟩ := standsAt_iff.1 hp
    obtain ⟨ev', hev', ht'⟩ := standsAt_iff.1 hc
    exact getElem?_inj_tag h.nodup hev hev' (ht.trans ht'.symm)
  · rintro rfl
    exact hc

/-- Where calls come first too, every id has its call and then its
return. -/
theorem callThenReturn (h : PairedEvents events) (hfirst : CallsFirst events)
    (hev : ev ∈ events) : ∃ c r, CallThenReturn events ev.id c r := by
  obtain ⟨c, hc⟩ := h.exists_standsAt hev .call
  obtain ⟨r, hr⟩ := h.exists_standsAt hev .ret
  refine ⟨c, r, fun p => h.standsAt_iff_eq hc, fun p => h.standsAt_iff_eq hr, ?_, ?_, ?_⟩
  · intro ev' hev'
    obtain ⟨evc, hevc, hk, -⟩ := hc
    obtain rfl : evc = ev' := Option.some.inj (hevc.symm.trans hev')
    exact (exists_eventValue_iff.1 (h.value evc (List.mem_of_getElem? hevc))).1 hk
  · intro ev' hev'
    obtain ⟨evr, hevr, hk, -⟩ := hr
    obtain rfl : evr = ev' := Option.some.inj (hevr.symm.trans hev')
    exact (exists_eventValue_iff.1 (h.value evr (List.mem_of_getElem? hevr))).2 hk
  · obtain ⟨evc, hevc, htc⟩ := standsAt_iff.1 hc
    obtain ⟨evr, hevr, htr⟩ := standsAt_iff.1 hr
    exact hfirst ev.id c r evc evr hevc hevr htc htr

end PairedEvents

namespace CallThenReturn

theorem exists_standsAt (h : CallThenReturn events id c r) (kind : EventKind) :
    ∃ p, StandsAt events kind id p := by
  cases kind with
  | call => exact ⟨c, (h.call c).2 rfl⟩
  | ret => exact ⟨r, (h.ret r).2 rfl⟩

theorem unique (h : CallThenReturn events id c r) {q : ℕ} (hp : StandsAt events kind id p)
    (hq : StandsAt events kind id q) : p = q := by
  cases kind with
  | call => exact ((h.call p).1 hp).trans ((h.call q).1 hq).symm
  | ret => exact ((h.ret p).1 hp).trans ((h.ret q).1 hq).symm

end CallThenReturn

section Positions

variable (h : ∀ ev ∈ events, ∃ c r, CallThenReturn events ev.id c r)

include h

/-- Events of one tag stand at one position. -/
theorem eq_of_tag_eq {q : ℕ} {ev' : Event Input Output} (hp : events[p]? = some ev)
    (hq : events[q]? = some ev') (ht : ev.tag = ev'.tag) : p = q := by
  obtain ⟨c, r, hcr⟩ := h ev (List.mem_of_getElem? hp)
  exact hcr.unique (standsAt_of_getElem? hp) (standsAt_iff.2 ⟨ev', hq, ht.symm⟩)

/-- Positions of one call and one return each make paired events, -/
theorem pairedEvents_of_positions : PairedEvents events where
  value ev hev := by
    obtain ⟨p, hp⟩ := List.getElem?_of_mem hev
    obtain ⟨c, r, hcr⟩ := h ev hev
    refine exists_eventValue_iff.2 ⟨fun hk => hcr.input ev ?_, fun hk => hcr.output ev ?_⟩
    · rw [← (hcr.call p).1 ⟨ev, hp, hk, rfl⟩, hp]
    · rw [← (hcr.ret p).1 ⟨ev, hp, hk, rfl⟩, hp]
  nodup := by
    rw [List.nodup_iff_pairwise_ne, List.pairwise_map, List.pairwise_iff_getElem]
    intro i j hi hj hlt ht
    exact absurd (eq_of_tag_eq h (List.getElem?_eq_getElem hi) (List.getElem?_eq_getElem hj) ht)
      (Nat.ne_of_lt hlt)
  both t ht b := by
    obtain ⟨ev, hev, rfl⟩ := List.mem_map.1 ht
    obtain ⟨c, r, hcr⟩ := h ev hev
    obtain ⟨kind, rfl⟩ : ∃ kind : EventKind, decide (kind = .call) = b := by
      cases b with
      | true => exact ⟨.call, rfl⟩
      | false => exact ⟨.ret, rfl⟩
    obtain ⟨p, hp⟩ := hcr.exists_standsAt kind
    obtain ⟨ev', hev', ht'⟩ := standsAt_iff.1 hp
    exact List.mem_map.2 ⟨ev', List.mem_of_getElem? hev', ht'⟩

/-- whose calls come first. -/
theorem callsFirst_of_positions : CallsFirst events := by
  intro id c r evc evr hc hr htc htr
  obtain ⟨rfl, -⟩ := tag_eq_true_iff.1 htc
  obtain ⟨c', r', hcr⟩ := h evc (List.mem_of_getElem? hc)
  rw [(hcr.call c).1 (standsAt_iff.2 ⟨evc, hc, htc⟩), (hcr.ret r).1 (standsAt_iff.2 ⟨evr, hr, htr⟩)]
  exact hcr.lt

end Positions

/-- **The first assertion accepts** one call and one return of each id, in
that order, each with its value. -/
theorem wellFormedEvents_iff : assertWellFormedEvents true events = .ok () ↔
    ∀ ev ∈ events, ∃ c r, CallThenReturn events ev.id c r := by
  rw [assertWellFormedEvents_iff]
  constructor
  · rintro ⟨hp, hfirst⟩ ev hev
    exact hp.callThenReturn hfirst hev
  · intro h
    exact ⟨pairedEvents_of_positions h, callsFirst_of_positions h⟩

/-! ## Groups -/

/-- Positions have one owner exactly when one group lists them. -/
theorem owner_eq_iff {v : List (Option ℕ)}
    (hv : scanPartitionCovering parts events.length = .ok v) (hc : c < events.length) :
    v[c]? = v[r]? ↔ ∃ g ∈ parts, c ∈ g ∧ r ∈ g := by
  obtain ⟨-, -, hown⟩ := scanPartitionCovering_inv hv
  obtain ⟨k, hk⟩ := exists_owner hv c hc
  obtain ⟨g, hg, hcg⟩ := (hown k c).1 hk
  constructor
  · intro he
    obtain ⟨g', hg', hrg⟩ := (hown k r).1 (he ▸ hk)
    obtain rfl : g = g' := Option.some.inj (hg.symm.trans hg')
    exact ⟨g, List.mem_of_getElem? hg, hcg, hrg⟩
  · rintro ⟨g', hg', hcg', hrg'⟩
    obtain ⟨k', hk'⟩ := List.getElem?_of_mem hg'
    rw [(hown k' c).2 ⟨g', hk', hcg'⟩, (hown k' r).2 ⟨g', hk', hrg'⟩]

theorem sameOwner_iff {v : List (Option ℕ)}
    (hv : scanPartitionCovering parts events.length = .ok v) :
    SameOwner v events ↔ PairsTogether events parts := by
  constructor
  · intro hsame id c r hc hr
    obtain ⟨evc, hc, htc⟩ := standsAt_iff.1 hc
    obtain ⟨evr, hr, htr⟩ := standsAt_iff.1 hr
    exact (owner_eq_iff hv (List.getElem?_eq_some_iff.1 hc).1).1
      (hsame id c r evc evr hc hr htc htr)
  · intro htog id c r evc evr hc hr htc htr
    exact (owner_eq_iff hv (List.getElem?_eq_some_iff.1 hc).1).2
      (htog id c r (standsAt_iff.2 ⟨evc, hc, htc⟩) (standsAt_iff.2 ⟨evr, hr, htr⟩))

/-- **The second assertion accepts** groups that list every position once
and the two positions of an id together. -/
theorem partitionEventsPaired_iff (hp : PairedEvents events) (hfirst : CallsFirst events)
    (hcount : parts.length ≤ 2 ^ 32) : assertPartitionEventsPaired true parts events = .ok () ↔
      parts.flatten.Perm (List.range events.length) ∧ PairsTogether events parts := by
  rw [assertPartitionEventsPaired_iff hp hfirst]
  constructor
  · rintro ⟨hpart, -⟩
    obtain ⟨v, hv⟩ := scanPartitionCovering_ok hpart.covers hcount
    exact ⟨hpart.covers, (sameOwner_iff hv).1 (hpart.sameOwner hp hv)⟩
  · rintro ⟨hcov, htog⟩
    obtain ⟨v, hv⟩ := scanPartitionCovering_ok hcov hcount
    exact ⟨((sameOwner_iff hv).2 htog).eventPartition hp hv, hcount⟩

/-- **The debug gate of `check_events` accepts exactly the well-formed
inputs**: one call and one return of each id, in that order, each with its
value, and groups that list every position once and keep pairs
together. -/
theorem eventGate_accepts_iff (events : List (Event Input Output)) (parts : List (List ℕ))
    (hcount : parts.length < 2 ^ 32) :
    (do assertWellFormedEvents true events; assertPartitionEventsPaired true parts events) =
        .ok () ↔
      (∀ ev ∈ events, ∃ c r, CallThenReturn events ev.id c r) ∧
      parts.flatten.Perm (List.range events.length) ∧ PairsTogether events parts := by
  have hseq : (do
      assertWellFormedEvents true events
      assertPartitionEventsPaired true parts events) = .ok () ↔
      assertWellFormedEvents true events = .ok () ∧
        assertPartitionEventsPaired true parts events = .ok () := by
    rw [Result.bind_eq_ok]
    exact ⟨fun ⟨_, h⟩ => h, fun h => ⟨(), h⟩⟩
  rw [hseq, wellFormedEvents_iff]
  refine and_congr_right fun h => ?_
  exact partitionEventsPaired_iff (pairedEvents_of_positions h) (callsFirst_of_positions h)
    hcount.le

/-- Two operations that overlap, under ids that are not dense. -/
def sparseEvents : List (Event ℕ ℕ) :=
  [⟨0, .call, some 1, none, 7⟩, ⟨1, .call, some 2, none, 3⟩, ⟨0, .ret, none, some 1, 7⟩,
    ⟨1, .ret, none, some 0, 3⟩]

theorem eventGate_accepts_sparse :
    (∀ ev ∈ sparseEvents, ∃ c r, CallThenReturn sparseEvents ev.id c r) ∧
      PairsTogether sparseEvents [[3, 1], [], [0, 2]] := by
  have h := (eventGate_accepts_iff sparseEvents [[3, 1], [], [0, 2]] (by decide)).1 (by decide)
  exact ⟨h.1, h.2.2⟩

end Porcupine
