import Porcupine.Common.Failure
import Porcupine.Entries.Acceptance
import Mathlib.Data.List.Duplicate
/-!
# What the debug gate reports

Every panic of the gate describes the input: `EventsFault` reads the
message of `assert_well_formed_events` as a statement about the events,
`ListsFault` and `PartitionFault` those of the two partition assertions.
What is reported is always there, and where nothing is there nothing is
reported (`gateVisiting_faults`, `assertPartitionEventsPaired_faults`).
The two later passes over the events walk hash maps; which fault is
reported depends on the order of the walk, that it is one does not.
-/

namespace Porcupine

variable {Input Output : Type} {events : List (Event Input Output)}
variable {history : List (Operation Input Output)} {parts : List (List ℕ)} {p : Panic} {n : ℕ}

theorem debugAssert_eq_error {condition : Bool} {panic : Panic} :
    debugAssert true condition panic = .error p ↔ condition = false ∧ p = panic := by
  cases condition with
  | true => exact ⟨fun h => (by cases h), fun h => (by cases h.1)⟩
  | false => exact ⟨fun h => ⟨rfl, (Except.error.inj h).symm⟩, fun h => congrArg _ h.2.symm⟩

/-- An assertion reports, or what follows it does. -/
theorem debugAssert_bind_eq_error {α : Type} {condition : Bool} {panic : Panic}
    {f : Unit → Result α} : (debugAssert true condition panic >>= f) = .error p ↔
      (condition = false ∧ p = panic) ∨ (condition = true ∧ f () = .error p) := by
  rw [Result.bind_eq_error, debugAssert_eq_error]
  refine or_congr_right ?_
  constructor
  · rintro ⟨⟨⟩, hok, hf⟩
    exact ⟨(debugAssert_eq_ok _).1 hok rfl, hf⟩
  · rintro ⟨hc, hf⟩
    exact ⟨(), (debugAssert_eq_ok _).2 fun _ => hc, hf⟩

/-! ## Operations -/

/-- **What is reported of operations** is the first that returns before it
is called. -/
theorem assertWellFormed_eq_error_iff : assertWellFormed true history = .error p ↔
    ∃ pre op post, history = pre ++ op :: post ∧ (∀ op' ∈ pre, op'.WellFormed) ∧
      op.returnTime < op.call ∧ p = .callAfterReturn op.clientId op.call op.returnTime := by
  unfold assertWellFormed
  rw [Loop.forM_eq_error_iff]
  refine exists₃_congr fun pre op post => and_congr_right fun _ => and_congr ?_ ?_
  · refine forall₂_congr fun op' _ => ?_
    rw [debugAssert_eq_ok, forall_prop_of_true rfl, decide_eq_true_eq]
    rfl
  · rw [debugAssert_eq_error, decide_eq_false_iff_not, not_le]

/-! ## Events -/

/-- **What a panic says of the events.** -/
inductive EventsFault (events : List (Event Input Output)) : Panic → Prop
  | callWithoutInput {ev : Event Input Output} {pos : ℕ} : events[pos]? = some ev →
      ev.kind = .call → ev.input = none → EventsFault events (.callWithoutInput ev.id pos)
  | callRepeated {id c c' : ℕ} : c < c' → StandsAt events .call id c →
      StandsAt events .call id c' → EventsFault events (.callRepeated id)
  | returnWithoutOutput {ev : Event Input Output} {pos : ℕ} : events[pos]? = some ev →
      ev.kind = .ret → ev.output = none → EventsFault events (.returnWithoutOutput ev.id pos)
  | returnRepeated {id r r' : ℕ} : r < r' → StandsAt events .ret id r →
      StandsAt events .ret id r' → EventsFault events (.returnRepeated id)
  | callUnmatched {id c : ℕ} : StandsAt events .call id c → (∀ r, ¬ StandsAt events .ret id r) →
      EventsFault events (.callUnmatched id c)
  | callNotBeforeReturn {id c r : ℕ} : StandsAt events .call id c → StandsAt events .ret id r →
      r < c → EventsFault events (.callNotBeforeReturn id c r)
  | returnUnmatched {id r : ℕ} : StandsAt events .ret id r → (∀ c, ¬ StandsAt events .call id c) →
      EventsFault events (.returnUnmatched id r)

/-- `assert_well_formed_events` of a debug build, its two later passes
walking the maps in the order `visit` puts them in. -/
def gateVisiting (visit : List (ℕ × ℕ) → List (ℕ × ℕ)) (events : List (Event Input Output)) :
    Result Unit := do
  let seen ← events.zipIdx.foldlM recordEvent ⟨[], []⟩
  (visit seen.callPos).forM (checkCall seen.returnPos)
  (visit seen.returnPos).forM (checkReturn seen.callPos)

theorem gateVisiting_id : gateVisiting id events = assertWellFormedEvents true events := rfl

section Events

variable {pre post : List (Event Input Output × ℕ)} {seen : Positions} {ev : Event Input Output}
variable {pos id : ℕ}

/-- Positions passed are before the next one. -/
theorem lt_of_zipIdx_eq {α : Type} {l : List α} {pre post : List (α × ℕ)} {a b : α} {p q : ℕ}
    (hl : l.zipIdx = pre ++ (a, p) :: post) (hb : (b, q) ∈ pre) : q < p := by
  have hsorted : (l.zipIdx.map Prod.snd).Pairwise (· < ·) := by
    rw [List.zipIdx_map_snd]
    exact List.pairwise_lt_range'
  rw [hl, List.map_append, List.pairwise_append] at hsorted
  exact hsorted.2.2 q (List.mem_map_of_mem (f := Prod.snd) hb) p (by simp)

theorem recorded_upTo (hok : pre.foldlM recordEvent ⟨[], []⟩ = .ok seen) :
    Recorded pre seen := by
  refine Loop.foldlM_inv (I := Recorded) ?_ ?_ hok
  · intro b id p
    cases b <;> simp [Positions.side]
  · rintro pre ⟨ev, p⟩ post seen seen' - hrec hstep
    exact hrec.snoc hstep

/-- A position looked up in what has been recorded is that of an event
passed. -/
theorem Recorded.exists_passed (h : Recorded pre seen)
    (hsome : ¬ ((seen.side ev.tag.2).lookup ev.id).isNone = true) :
    ∃ ev' q, (ev', q) ∈ pre ∧ ev'.tag = ev.tag := by
  rw [h.lookup_isNone_iff] at hsome
  push Not at hsome
  obtain ⟨⟨ev', q⟩, hmem, ht⟩ := hsome
  exact ⟨ev', q, hmem, ht⟩

/-- What the first pass reports. -/
theorem eventsFault_of_recordEvent (hl : events.zipIdx = pre ++ (ev, pos) :: post)
    (hrec : Recorded pre seen) (h : recordEvent seen (ev, pos) = .error p) :
    EventsFault events p := by
  have hev := getElem?_of_zipIdx_eq hl
  -- an event recorded under the same tag stands before this one
  have hearlier : ¬ ((seen.side ev.tag.2).lookup ev.id).isNone = true →
      ∃ q < pos, StandsAt events ev.kind ev.id q := by
    intro hsome
    obtain ⟨ev', q, hq, ht⟩ := hrec.exists_passed hsome
    have hev' : events[q]? = some ev' :=
      List.mem_zipIdx_iff_getElem?.1 (hl ▸ List.mem_append_left _ hq)
    exact ⟨q, lt_of_zipIdx_eq hl hq, standsAt_iff.2 ⟨ev', hev', ht⟩⟩
  have hstands := standsAt_of_getElem? hev
  cases hk : ev.kind with
  | call =>
    have htag : ev.tag.2 = true := by simp [Event.tag, hk]
    simp only [recordEvent, hk, debugAssert_bind_eq_error] at h
    rw [hk] at hearlier hstands
    rcases h with ⟨hin, rfl⟩ | ⟨-, ⟨hsome, rfl⟩ | ⟨-, h⟩⟩
    · exact .callWithoutInput hev hk (Option.not_isSome_iff_eq_none.1 (by simp [hin]))
    · obtain ⟨q, hq, hstands'⟩ := hearlier (by rw [htag]; exact ne_true_of_eq_false hsome)
      exact .callRepeated hq hstands' hstands
    · cases h
  | ret =>
    have htag : ev.tag.2 = false := by simp [Event.tag, hk]
    simp only [recordEvent, hk, debugAssert_bind_eq_error] at h
    rw [hk] at hearlier hstands
    rcases h with ⟨hout, rfl⟩ | ⟨-, ⟨hsome, rfl⟩ | ⟨-, h⟩⟩
    · exact .returnWithoutOutput hev hk (Option.not_isSome_iff_eq_none.1 (by simp [hout]))
    · obtain ⟨q, hq, hstands'⟩ := hearlier (by rw [htag]; exact ne_true_of_eq_false hsome)
      exact .returnRepeated hq hstands' hstands
    · cases h

/-- A side that has nothing for an id says that no event of that side has
it. -/
theorem not_standsAt_of_lookup (hok : events.zipIdx.foldlM recordEvent ⟨[], []⟩ = .ok seen)
    (kind : EventKind) (h : (seen.side (decide (kind = .call))).lookup id = none) (q : ℕ) :
    ¬ StandsAt events kind id q := by
  intro hq
  have hmem := (recordEvents_recorded hok _ id q).2 (standsAt_iff.1 hq)
  exact lookup_isNone.1 (Option.isNone_iff_eq_none.2 h) q hmem

theorem standsAt_of_mem_side (hok : events.zipIdx.foldlM recordEvent ⟨[], []⟩ = .ok seen)
    (kind : EventKind) (h : (id, pos) ∈ seen.side (decide (kind = .call))) :
    StandsAt events kind id pos :=
  standsAt_iff.2 ((recordEvents_recorded hok _ id pos).1 h)

/-- What the pass over the calls reports. -/
theorem eventsFault_of_checkCall (hok : events.zipIdx.foldlM recordEvent ⟨[], []⟩ = .ok seen)
    (hc : (id, pos) ∈ seen.callPos) (h : checkCall seen.returnPos (id, pos) = .error p) :
    EventsFault events p := by
  have hcall : StandsAt events .call id pos := standsAt_of_mem_side hok .call hc
  unfold checkCall at h
  cases hl : seen.returnPos.lookup id with
  | none =>
    simp only [hl] at h
    cases h
    exact .callUnmatched hcall fun r => not_standsAt_of_lookup hok .ret hl r
  | some r =>
    simp only [hl] at h
    obtain ⟨hlt, rfl⟩ := debugAssert_eq_error.1 h
    have hret : StandsAt events .ret id r :=
      standsAt_of_mem_side hok .ret (mem_of_lookup hl)
    have hle : r ≤ pos := by simpa using hlt
    refine .callNotBeforeReturn hcall hret (lt_of_le_of_ne hle ?_)
    -- no event is both
    rintro rfl
    obtain ⟨ev, hev, hk, -⟩ := hcall
    obtain ⟨ev', hev', hk', -⟩ := hret
    cases hev.symm.trans hev'
    rw [hk] at hk'
    cases hk'

/-- What the pass over the returns reports. -/
theorem eventsFault_of_checkReturn (hok : events.zipIdx.foldlM recordEvent ⟨[], []⟩ = .ok seen)
    (hr : (id, pos) ∈ seen.returnPos) (h : checkReturn seen.callPos (id, pos) = .error p) :
    EventsFault events p := by
  obtain ⟨hsome, rfl⟩ := debugAssert_eq_error.1 h
  have hl : seen.callPos.lookup id = none := by simpa using hsome
  exact .returnUnmatched (standsAt_of_mem_side hok .ret hr)
    fun c => not_standsAt_of_lookup hok .call hl c

variable {visit : List (ℕ × ℕ) → List (ℕ × ℕ)}

/-- **What is reported of the events is there.** -/
theorem eventsFault_of_gateVisiting (hvisit : ∀ l, (visit l).Perm l)
    (h : gateVisiting visit events = .error p) : EventsFault events p := by
  rcases Result.bind_eq_error.1 h with h | ⟨seen, hok, h⟩
  · obtain ⟨pre, ⟨ev, pos⟩, post, seen, hl, hpre, h⟩ := Loop.foldlM_eq_error_iff.1 h
    exact eventsFault_of_recordEvent hl (recorded_upTo hpre) h
  · rcases Result.bind_eq_error.1 h with h | ⟨_, -, h⟩
    · obtain ⟨pre, ⟨id, c⟩, post, hl, -, h⟩ := Loop.forM_eq_error_iff.1 h
      have hmem : (id, c) ∈ visit seen.callPos := by simp [hl]
      exact eventsFault_of_checkCall hok ((hvisit _).mem_iff.1 hmem) h
    · obtain ⟨pre, ⟨id, r⟩, post, hl, -, h⟩ := Loop.forM_eq_error_iff.1 h
      have hmem : (id, r) ∈ visit seen.returnPos := by simp [hl]
      exact eventsFault_of_checkReturn hok ((hvisit _).mem_iff.1 hmem) h

/-- The order of the walk does not matter to what is accepted. -/
theorem gateVisiting_eq_ok_iff (hvisit : ∀ l, (visit l).Perm l) :
    gateVisiting visit events = .ok () ↔ assertWellFormedEvents true events = .ok () := by
  rw [← gateVisiting_id]
  simp only [gateVisiting, Result.bind_eq_ok]
  refine exists_congr fun seen => and_congr_right fun _ => ?_
  have hwalk : ∀ {l : List (ℕ × ℕ)} {f : ℕ × ℕ → Result Unit},
      (visit l).forM f = .ok () ↔ (id l).forM f = .ok () := by
    intro l f
    rw [Loop.forM_eq_ok_iff, Loop.forM_eq_ok_iff]
    exact forall_congr' fun x => by rw [(hvisit l).mem_iff, id]
  rw [hwalk]
  exact exists_congr fun _ => and_congr_left fun _ => hwalk

/-- Well-formed events have no fault. -/
theorem PairedEvents.not_eventsFault (h : PairedEvents events) (hfirst : CallsFirst events) :
    ¬ EventsFault events p := by
  intro hfault
  cases hfault with
  | callWithoutInput hev hk hin =>
    have hsome := (exists_eventValue_iff.1 (h.value _ (List.mem_of_getElem? hev))).1 hk
    rw [hin] at hsome
    cases hsome
  | returnWithoutOutput hev hk hout =>
    have hsome := (exists_eventValue_iff.1 (h.value _ (List.mem_of_getElem? hev))).2 hk
    rw [hout] at hsome
    cases hsome
  | callRepeated hlt hc hc' => exact Nat.ne_of_lt hlt ((h.standsAt_iff_eq hc').1 hc)
  | returnRepeated hlt hr hr' => exact Nat.ne_of_lt hlt ((h.standsAt_iff_eq hr').1 hr)
  | callUnmatched hc hnone =>
    obtain ⟨ev, hev, -, rfl⟩ := hc
    obtain ⟨r, hr⟩ := h.exists_standsAt (List.mem_of_getElem? hev) .ret
    exact hnone r hr
  | returnUnmatched hr hnone =>
    obtain ⟨ev, hev, -, rfl⟩ := hr
    obtain ⟨c, hc⟩ := h.exists_standsAt (List.mem_of_getElem? hev) .call
    exact hnone c hc
  | callNotBeforeReturn hc hr hlt =>
    obtain ⟨evc, hevc, htc⟩ := standsAt_iff.1 hc
    obtain ⟨evr, hevr, htr⟩ := standsAt_iff.1 hr
    have := hfirst _ _ _ evc evr hevc hevr htc htr
    omega

/-- **The gate reports a fault of the events if there is one**, in whatever
order it walks its maps, and what it reports is one. -/
theorem gateVisiting_faults (visit : List (ℕ × ℕ) → List (ℕ × ℕ)) (hvisit : ∀ l, (visit l).Perm l)
    (events : List (Event Input Output)) :
    (gateVisiting visit events = .ok () ↔ ∀ p, ¬ EventsFault events p) ∧
    ∀ p, gateVisiting visit events = .error p → EventsFault events p := by
  refine ⟨⟨fun hok p => ?_, fun hnone => ?_⟩, fun p h => eventsFault_of_gateVisiting hvisit h⟩
  · rw [gateVisiting_eq_ok_iff hvisit, assertWellFormedEvents_iff] at hok
    exact hok.1.not_eventsFault hok.2
  · cases h : gateVisiting visit events with
    | ok u => rfl
    | error p => exact absurd (eventsFault_of_gateVisiting hvisit h) (hnone p)

/-- Events without a fault, and two calls without a return, of which the
order of the walk picks one. -/
theorem gateVisiting_faults_unmatched :
    (∀ p, ¬ EventsFault sparseEvents p) ∧
    EventsFault (sparseEvents.take 2) (.callUnmatched 7 0) ∧
    EventsFault (sparseEvents.take 2) (.callUnmatched 3 1) :=
  ⟨(gateVisiting_faults List.reverse List.reverse_perm sparseEvents).1.1 (by decide),
    (gateVisiting_faults List.reverse List.reverse_perm (sparseEvents.take 2)).2 _ (by decide),
    (gateVisiting_faults id .refl (sparseEvents.take 2)).2 _ (by decide)⟩

end Events

/-! ## Partitions -/

/-- **What a panic says of the index lists.** -/
inductive ListsFault (parts : List (List ℕ)) (n : ℕ) : Panic → Prop
  | partitionCount : 2 ^ 32 < parts.length → ListsFault parts n .partitionCount
  | partitionOutOfBounds {i : ℕ} : i ∈ parts.flatten → n ≤ i →
      ListsFault parts n (.partitionOutOfBounds i n)
  | partitionOverlap {i : ℕ} : parts.flatten.Duplicate i → ListsFault parts n (.partitionOverlap i)
  | partitionMissing : parts.flatten.Nodup → (∀ i ∈ parts.flatten, i < n) →
      parts.flatten.length < n →
      ListsFault parts n (.partitionMissing parts.flatten.length n (n - parts.flatten.length))

/-- What a panic says of index lists of events. -/
inductive PartitionFault (parts : List (List ℕ)) (events : List (Event Input Output)) : Panic → Prop
  | lists {p : Panic} : ListsFault parts events.length p → PartitionFault parts events p
  | pairSplit {id c r j k : ℕ} : StandsAt events .call id c → StandsAt events .ret id r →
      (∃ g, parts[j]? = some g ∧ c ∈ g) → (∃ g, parts[k]? = some g ∧ r ∈ g) → j ≠ k →
      PartitionFault parts events (.pairSplit id j k)

section Lists

variable {done : List (ℕ × ℕ)} {c : Covering} {k i : ℕ} {g : List ℕ}

/-- What a claim reports: its index, because it is out of bounds or has
been claimed. -/
theorem Claimed.claimIndex_eq_error (h : Claimed n done c) (herr : claimIndex n k c i = .error p) :
    (n ≤ i ∧ p = .partitionOutOfBounds i n) ∨
      (i ∈ done.map Prod.snd ∧ p = .partitionOverlap i) := by
  by_cases hi : i < n
  · by_cases hmem : i ∈ done.map Prod.snd
    · refine .inr ⟨hmem, ?_⟩
      simp only [claimIndex, debugAssert_bind_eq_error] at herr
      rcases herr with ⟨hlt, -⟩ | ⟨-, herr⟩
      · exact absurd hi (of_decide_eq_false hlt)
      · rcases Result.bind_eq_error.1 herr with hread | ⟨o, -, herr⟩
        · have hlen := (readAt_eq_error.1 hread).1
          rw [h.length] at hlen
          omega
        · rcases debugAssert_bind_eq_error.1 herr with ⟨-, rfl⟩ | ⟨-, herr⟩
          · rfl
          · rcases Result.bind_eq_error.1 herr with hw | ⟨v, -, hv⟩
            · rw [writeAt_of_lt (by rw [h.length]; exact hi)] at hw
              cases hw
            · cases hv
    · cases (h.claimIndex_eq_ok.2 ⟨hi, hmem, rfl⟩).symm.trans herr
  · refine .inl ⟨Nat.le_of_not_lt hi, ?_⟩
    simp only [claimIndex, debugAssert_bind_eq_error] at herr
    rcases herr with ⟨-, rfl⟩ | ⟨hlt, -⟩
    · rfl
    · exact absurd (of_decide_eq_true hlt) hi

theorem claimed_upTo {pre : List (List ℕ × ℕ)}
    (hok : pre.foldlM (scanPartition n) (List.replicate n none, 0) = .ok c) :
    Claimed n (owned pre) c := by
  refine Loop.foldlM_inv (I := fun pre c => Claimed n (owned pre) c) claimed_start ?_ hok
  rintro pre ⟨g, k⟩ post c c' - hcl hstep
  obtain ⟨-, hcl'⟩ := hcl.scanPartition_inv hstep
  simpa [owned] using hcl'

/-- **What the scan reports is there.** -/
theorem listsFault_of_scan (h : scanPartitionCovering parts n = .error p) :
    ListsFault parts n p := by
  rcases Result.bind_eq_error.1 h with h | ⟨c, hok, h⟩
  · obtain ⟨pre, ⟨g, k⟩, post, c, hl, hpre, h⟩ := Loop.foldlM_eq_error_iff.1 h
    have hcl := claimed_upTo hpre
    have hget := List.mem_zipIdx_iff_getElem?.1 (show (g, k) ∈ parts.zipIdx by simp [hl])
    rw [scanPartition] at h
    split at h
    · obtain ⟨pre', i, post', c', rfl, hpre', h⟩ := Loop.foldlM_eq_error_iff.1 h
      have hcl' : Claimed n (owned pre ++ pre'.map fun i => (k, i)) c' := by
        have hscan : scanPartition n c (pre', k) = .ok c' := by
          rw [scanPartition, if_pos (by assumption)]
          exact hpre'
        exact (hcl.scanPartition_inv hscan).2
      -- what has been claimed, and then the index
      have hflat : parts.flatten = (owned pre ++ pre'.map fun i => (k, i)).map Prod.snd ++
          i :: (post' ++ (post.map Prod.fst).flatten) := by
        rw [← List.zipIdx_map_fst 0 parts, hl, List.map_append, List.map_append, owned_snd]
        simp
      rcases hcl'.claimIndex_eq_error h with ⟨hi, rfl⟩ | ⟨hmem, rfl⟩
      · exact .partitionOutOfBounds (by rw [hflat]; simp) hi
      · refine .partitionOverlap (List.duplicate_iff_sublist.2 ?_)
        rw [hflat]
        exact (List.singleton_sublist.2 hmem).append (List.singleton_sublist.2 List.mem_cons_self)
    · cases h
      have hlt : k < parts.length := (List.getElem?_eq_some_iff.1 hget).1
      exact .partitionCount (by omega)
  · have hcl := claimed_upTo hok
    have hflat := owned_snd parts.zipIdx
    rw [List.zipIdx_map_fst] at hflat
    have hcount : c.2 = parts.flatten.length := by
      rw [hcl.count, ← hflat, List.length_map]
    have hnd : parts.flatten.Nodup := hflat ▸ hcl.nodup
    have hlt : ∀ i ∈ parts.flatten, i < n := by
      intro i hi
      rw [← hflat, List.mem_map] at hi
      obtain ⟨⟨k, i'⟩, hmem, rfl⟩ := hi
      exact hcl.lt hmem
    have hle : parts.flatten.length ≤ n := by
      have hsub : parts.flatten ⊆ List.range n := fun i hi => List.mem_range.2 (hlt i hi)
      simpa using (hnd.subperm hsub).length_le
    rcases debugAssert_bind_eq_error.1 h with ⟨hne, rfl⟩ | ⟨-, h⟩
    · have hne' := of_decide_eq_false hne
      simp only [hcount] at hne' ⊢
      exact .partitionMissing hnd hlt (lt_of_le_of_ne hle hne')
    · cases h

/-- A covering has no fault. -/
theorem not_listsFault (hperm : parts.flatten.Perm (List.range n)) (hlen : parts.length ≤ 2 ^ 32) :
    ¬ ListsFault parts n p := by
  intro hfault
  cases hfault with
  | partitionCount h => omega
  | partitionOutOfBounds hi hle => exact Nat.not_lt_of_le hle (List.mem_range.1 (hperm.mem_iff.1 hi))
  | partitionOverlap hdup => exact hdup.not_nodup (hperm.nodup_iff.2 List.nodup_range)
  | partitionMissing _ _ hlt =>
    rw [hperm.length_eq, List.length_range] at hlt
    exact Nat.lt_irrefl _ hlt

/-- **The gate of operations reports a fault of the index lists if there is
one**, and what it reports is one. -/
theorem assertPartitionCoversOps_faults :
    (assertPartitionCoversOps true parts n = .ok () ↔ ∀ p, ¬ ListsFault parts n p) ∧
    ∀ p, assertPartitionCoversOps true parts n = .error p → ListsFault parts n p := by
  have herr : ∀ p, assertPartitionCoversOps true parts n = .error p → ListsFault parts n p := by
    intro p h
    rcases Result.bind_eq_error.1 h with h | ⟨v, -, h⟩
    · exact listsFault_of_scan h
    · cases h
  refine ⟨⟨fun hok p => ?_, fun hnone => ?_⟩, herr⟩
  · obtain ⟨hperm, hlen⟩ := assertPartitionCoversOps_iff.1 hok
    exact not_listsFault hperm hlen
  · cases h : assertPartitionCoversOps true parts n with
    | ok u => rfl
    | error p => exact absurd (herr p h) (hnone p)

end Lists

section Pairs

variable {v : List (Option ℕ)} {pre post : List (Event Input Output × ℕ)} {callPart : CallPart}
variable {ev : Event Input Output} {pos : ℕ}

theorem callOwners_upTo (hp : PairedEvents events)
    (hv : ∀ i < events.length, ∃ k, v[i]? = some (some k))
    (hl : ∃ rest, events.zipIdx = pre ++ rest)
    (hok : pre.foldlM (checkPaired v) (fun _ => none) = .ok callPart) :
    CallOwners v pre callPart := by
  obtain ⟨rest, hl⟩ := hl
  refine Loop.foldlM_inv (I := fun pre callPart => CallOwners v pre callPart)
    (fun _ _ h => (by cases h)) ?_ hok
  rintro pre' ⟨ev, q⟩ post' callPart callPart' rfl hown hstep
  have hl' : events.zipIdx = pre' ++ (ev, q) :: (post' ++ rest) := by simp [hl]
  obtain ⟨k, hk⟩ := hv q (List.getElem?_eq_some_iff.1 (getElem?_of_zipIdx_eq hl')).1
  simp only [checkPaired, readAt_eq_ok.2 hk, Result.ok_bind] at hstep
  cases hkind : ev.kind with
  | call =>
    simp only [hkind, Result.pure_eq, Except.ok.injEq] at hstep
    subst hstep
    exact hown.call hp hl' hkind hk
  | ret =>
    simp only [hkind] at hstep
    -- a return that passes leaves the owners, found or not
    have hsame : callPart' = callPart := by
      split at hstep
      · exact (Except.ok.inj (debugAssert_bind_eq_ok.1 hstep).2).symm
      · exact (Except.ok.inj hstep).symm
    exact hsame ▸ hown.ret hkind

/-- **What the pairing pass reports is there**, of well-formed events. -/
theorem pairSplit_of_checkPaired (hp : PairedEvents events) (hfirst : CallsFirst events)
    (hv : ∀ i < events.length, ∃ k, v[i]? = some (some k))
    (h : events.zipIdx.foldlM (checkPaired v) (fun _ => none) = .error p) :
    ∃ id c r j k, StandsAt events .call id c ∧ StandsAt events .ret id r ∧
      v[c]? = some (some j) ∧ v[r]? = some (some k) ∧ j ≠ k ∧ p = .pairSplit id j k := by
  obtain ⟨pre, ⟨ev, r⟩, post, callPart, hl, hpre, h⟩ := Loop.foldlM_eq_error_iff.1 h
  have hown := callOwners_upTo hp hv ⟨_, hl⟩ hpre
  have hev := getElem?_of_zipIdx_eq hl
  obtain ⟨k, hk⟩ := hv r (List.getElem?_eq_some_iff.1 hev).1
  simp only [checkPaired, readAt_eq_ok.2 hk, Result.ok_bind] at h
  cases hkind : ev.kind with
  | call =>
    simp only [hkind] at h
    cases h
  | ret =>
    obtain ⟨evc, c, hc, htc, hvc⟩ := hown.found hp hfirst hl hkind
    obtain ⟨j, hj⟩ := hv c (List.getElem?_eq_some_iff.1 hc).1
    have hpart : callPart ev.id = some j := Option.some.inj (hvc.symm.trans hj)
    simp only [hkind, hpart, debugAssert_bind_eq_error] at h
    rcases h with ⟨hne, rfl⟩ | ⟨-, h⟩
    · exact ⟨ev.id, c, r, j, k, standsAt_iff.2 ⟨evc, hc, htc⟩,
        ⟨ev, hev, hkind, rfl⟩, hj, hk, of_decide_eq_false hne, rfl⟩
    · cases h

/-- Groups of paired events have no fault. -/
theorem EventPartition.not_partitionFault (h : EventPartition parts events)
    (hp : PairedEvents events) (hlen : parts.length ≤ 2 ^ 32) : ¬ PartitionFault parts events p := by
  intro hfault
  cases hfault with
  | lists hfault => exact not_listsFault h.covers hlen hfault
  | @pairSplit id c r j k hc hr hj hk hne =>
    obtain ⟨v, hv⟩ := scanPartitionCovering_ok h.covers hlen
    obtain ⟨-, -, hown⟩ := scanPartitionCovering_inv hv
    obtain ⟨evc, hevc, htc⟩ := standsAt_iff.1 hc
    obtain ⟨evr, hevr, htr⟩ := standsAt_iff.1 hr
    have hsame := h.sameOwner hp hv id c r evc evr hevc hevr htc htr
    rw [(hown j c).2 hj, (hown k r).2 hk] at hsame
    exact hne (Option.some.inj (Option.some.inj hsame))

/-- **The gate of events reports a fault of the index lists if there is
one**, and what it reports is one, once the events themselves have
passed. -/
theorem assertPartitionEventsPaired_faults (events : List (Event Input Output))
    (hgate : assertWellFormedEvents true events = .ok ()) (parts : List (List ℕ)) :
    (assertPartitionEventsPaired true parts events = .ok () ↔
      ∀ p, ¬ PartitionFault parts events p) ∧
    ∀ p, assertPartitionEventsPaired true parts events = .error p → PartitionFault parts events p := by
  obtain ⟨hp, hfirst⟩ := assertWellFormedEvents_iff.1 hgate
  have herr : ∀ p, assertPartitionEventsPaired true parts events = .error p →
      PartitionFault parts events p := by
    intro p h
    rcases Result.bind_eq_error.1 h with h | ⟨v, hv, h⟩
    · exact .lists (listsFault_of_scan h)
    · rcases Result.bind_eq_error.1 h with h | ⟨callPart, -, h⟩
      · obtain ⟨-, -, hown⟩ := scanPartitionCovering_inv hv
        obtain ⟨id, c, r, j, k, hc, hr, hj, hk, hne, rfl⟩ :=
          pairSplit_of_checkPaired hp hfirst (exists_owner hv) h
        exact .pairSplit hc hr ((hown j c).1 hj) ((hown k r).1 hk) hne
      · cases h
  refine ⟨⟨fun hok p => ?_, fun hnone => ?_⟩, herr⟩
  · obtain ⟨hpart, hlen⟩ := (assertPartitionEventsPaired_iff hp hfirst).1 hok
    exact hpart.not_partitionFault hp hlen
  · cases h : assertPartitionEventsPaired true parts events with
    | ok u => rfl
    | error p => exact absurd (herr p h) (hnone p)

end Pairs

end Porcupine
