import Porcupine.Model.Invariants
import Porcupine.Entries.Events
import Porcupine.Common.Loop
/-!
# What the debug gate accepts of a history

`assert_well_formed` accepts operations that return after they are called.
`assert_well_formed_events` accepts exactly the paired events whose calls
come first (`assertWellFormedEvents_iff`): its first pass records the
position of every call and return, and the other two look across.
-/

namespace Porcupine

variable {Input Output : Type} {events history : List (Event Input Output)}

theorem debugAssert_eq_ok {debug condition : Bool} (panic : Panic) :
    debugAssert debug condition panic = .ok () ↔ (debug = true → condition = true) := by
  cases debug <;> cases condition <;> simp [debugAssert]

/-- What follows an assertion runs when it holds. -/
theorem debugAssert_bind_eq_ok {α : Type} {debug condition : Bool} {panic : Panic}
    {f : Unit → Result α} {a : α} : (debugAssert debug condition panic >>= f) = .ok a ↔
      (debug = true → condition = true) ∧ f () = .ok a := by
  rw [Result.bind_eq_ok, ← debugAssert_eq_ok panic]
  exact ⟨fun ⟨⟨⟩, h⟩ => h, fun h => ⟨(), h⟩⟩

theorem assertWellFormed_ok {ops : List (Operation Input Output)} (h : ∀ op ∈ ops, op.WellFormed)
    (debug : Bool) : assertWellFormed debug ops = .ok () :=
  Loop.forM_eq_ok_iff.2 fun op hop => debugAssert_of (decide_eq_true (h op hop))

/-- A release build accepts any operations. -/
theorem assertWellFormed_release (ops : List (Operation Input Output)) :
    assertWellFormed false ops = .ok () :=
  Loop.forM_eq_ok_iff.2 fun _ _ => rfl

/-! ## Event histories -/

section WellFormed

variable {pre : List (Event Input Output × ℕ)} {seen seen' : Positions} {ev : Event Input Output}
variable {p : ℕ}

/-- The positions of the calls, or of the returns. -/
def Positions.side (seen : Positions) : Bool → List (ℕ × ℕ)
  | true => seen.callPos
  | false => seen.returnPos

/-- One more position on one side. -/
def Positions.record (seen : Positions) : Bool → ℕ × ℕ → Positions
  | true, x => { seen with callPos := x :: seen.callPos }
  | false, x => { seen with returnPos := x :: seen.returnPos }

theorem Positions.side_record (seen : Positions) (b b' : Bool) (x : ℕ × ℕ) :
    (seen.record b x).side b' = if b' = b then x :: seen.side b' else seen.side b' := by
  cases b <;> cases b' <;> rfl

/-- An event is recorded on its side when its value is there and the side
has no position for its id yet. -/
theorem recordEvent_eq_ok : recordEvent seen (ev, p) = .ok seen' ↔
    (∃ v, eventValue ev = .ok v) ∧ ((seen.side ev.tag.2).lookup ev.id).isNone = true ∧
      seen.record ev.tag.2 (ev.id, p) = seen' := by
  rw [exists_eventValue_iff]
  cases hk : ev.kind with
  | call =>
    have htag : ev.tag.2 = true := by simp [Event.tag, hk]
    simp [recordEvent, hk, htag, debugAssert_bind_eq_ok, Positions.side, Positions.record]
  | ret =>
    have htag : ev.tag.2 = false := by simp [Event.tag, hk]
    simp [recordEvent, hk, htag, debugAssert_bind_eq_ok, Positions.side, Positions.record]

/-- What the first pass has recorded of the events passed. -/
def Recorded (pre : List (Event Input Output × ℕ)) (seen : Positions) : Prop :=
  ∀ b id p, (id, p) ∈ seen.side b ↔ ∃ ev, (ev, p) ∈ pre ∧ ev.tag = (id, b)

theorem lookup_isNone {l : List (ℕ × ℕ)} {id : ℕ} :
    (l.lookup id).isNone = true ↔ ∀ p, (id, p) ∉ l := by
  rw [Option.isNone_iff_eq_none, List.lookup_eq_none_iff]
  simp only [bne_iff_ne, ne_eq, Prod.forall]
  constructor
  · intro h p hp
    exact h id p hp rfl
  · rintro h i p hp rfl
    exact h p hp

/-- A side has no position for an id exactly when no event of that side and
id has been passed. -/
theorem Recorded.lookup_isNone_iff (h : Recorded pre seen) :
    ((seen.side ev.tag.2).lookup ev.id).isNone = true ↔ ∀ x ∈ pre, x.1.tag ≠ ev.tag := by
  rw [lookup_isNone]
  constructor
  · rintro hall ⟨ev', q⟩ hx ht
    exact hall q ((h _ _ _).2 ⟨ev', hx, ht⟩)
  · intro hall q hq
    obtain ⟨ev', hev', ht⟩ := (h _ _ _).1 hq
    exact hall _ hev' ht

theorem Recorded.snoc (h : Recorded pre seen) (hok : recordEvent seen (ev, p) = .ok seen') :
    Recorded (pre ++ [(ev, p)]) seen' := by
  obtain ⟨-, -, rfl⟩ := recordEvent_eq_ok.1 hok
  intro b id q
  have hlast : (∃ ev', (ev', q) ∈ [(ev, p)] ∧ ev'.tag = (id, b)) ↔
      b = ev.tag.2 ∧ (id, q) = (ev.id, p) := by
    constructor
    · rintro ⟨ev', hev', ht⟩
      cases List.mem_singleton.1 hev'
      exact ⟨(congrArg Prod.snd ht).symm, by rw [show ev.id = id from congrArg Prod.fst ht]⟩
    · rintro ⟨rfl, he⟩
      cases he
      exact ⟨ev, List.mem_singleton.2 rfl, rfl⟩
  have happ : (∃ ev', (ev', q) ∈ pre ++ [(ev, p)] ∧ ev'.tag = (id, b)) ↔
      (id, q) ∈ seen.side b ∨ b = ev.tag.2 ∧ (id, q) = (ev.id, p) := by
    simp only [List.mem_append, or_and_right, exists_or, hlast, ← h b id q]
  rw [happ, seen.side_record]
  split
  · next hb => simp [hb, or_comm]
  · next hb => simp [hb]

theorem tags_zipIdx (events : List (Event Input Output)) :
    events.map Event.tag = events.zipIdx.map fun x => x.1.tag := by
  conv_lhs => rw [← List.zipIdx_map_fst 0 events, List.map_map]
  rfl

/-- **The first pass completes on events with values and distinct tags**,
and on no others. -/
theorem recordEvents_ok_iff :
    (∃ seen, events.zipIdx.foldlM recordEvent ⟨[], []⟩ = .ok seen) ↔
      (∀ ev ∈ events, ∃ v, eventValue ev = .ok v) ∧ (events.map Event.tag).Nodup := by
  have hstart : Recorded ([] : List (Event Input Output × ℕ)) ⟨[], []⟩ := by
    intro b id p
    cases b <;> simp [Positions.side]
  rw [tags_zipIdx]
  constructor
  · rintro ⟨seen, hok⟩
    have hinv := Loop.foldlM_inv (I := fun pre seen => Recorded pre seen ∧
      (∀ x ∈ pre, ∃ v, eventValue x.1 = .ok v) ∧ (pre.map fun x => x.1.tag).Nodup)
      ⟨hstart, by simp, by simp⟩ ?_ hok
    · refine ⟨fun ev hev => ?_, hinv.2.2⟩
      obtain ⟨p, hp⟩ := List.getElem?_of_mem hev
      exact hinv.2.1 (ev, p) (List.mem_zipIdx_iff_getElem?.2 hp)
    · rintro pre ⟨ev, p⟩ post seen seen' - ⟨hrec, hval, hnd⟩ hstep
      obtain ⟨hv, hnone, -⟩ := recordEvent_eq_ok.1 hstep
      refine ⟨hrec.snoc hstep, fun x hx => ?_, ?_⟩
      · rcases List.mem_append.1 hx with hx | hx
        · exact hval x hx
        · cases List.mem_singleton.1 hx
          exact hv
      · rw [List.map_append, List.nodup_append]
        refine ⟨hnd, by simp, fun t ht t' ht' => ?_⟩
        obtain ⟨x, hx, rfl⟩ := List.mem_map.1 ht
        cases List.mem_singleton.1 ht'
        exact hrec.lookup_isNone_iff.1 hnone x hx
  · rintro ⟨hval, hnd⟩
    have hloop := Loop.foldlM_ok (l := events.zipIdx) (f := recordEvent)
      (I := Recorded) (s := ⟨[], []⟩) hstart ?_
    · obtain ⟨seen, hok, -⟩ := hloop
      exact ⟨seen, hok⟩
    · rintro pre ⟨ev, p⟩ post seen hl hrec
      have hmem : ev ∈ events := by
        refine List.mem_of_getElem? (i := p) (List.mem_zipIdx_iff_getElem?.1 (?_ : (ev, p) ∈ _))
        rw [hl]
        simp
      have hnew : ∀ x ∈ pre, x.1.tag ≠ ev.tag := by
        intro x hx he
        rw [hl, List.map_append, List.map_cons, List.nodup_append] at hnd
        exact hnd.2.2 _ (List.mem_map_of_mem hx) _ List.mem_cons_self he
      have hok : recordEvent seen (ev, p) = .ok (seen.record ev.tag.2 (ev.id, p)) :=
        recordEvent_eq_ok.2 ⟨hval ev hmem, hrec.lookup_isNone_iff.2 hnew, rfl⟩
      exact ⟨_, hok, hrec.snoc hok⟩

theorem recordEvents_recorded (hok : events.zipIdx.foldlM recordEvent ⟨[], []⟩ = .ok seen) :
    ∀ b id p, (id, p) ∈ seen.side b ↔ ∃ ev, events[p]? = some ev ∧ ev.tag = (id, b) := by
  have hrec : Recorded events.zipIdx seen := by
    refine Loop.foldlM_inv (I := Recorded) ?_ ?_ hok
    · intro b id p
      cases b <;> simp [Positions.side]
    · rintro pre ⟨ev, p⟩ post seen seen' - hrec hstep
      exact hrec.snoc hstep
  intro b id p
  rw [hrec b id p]
  exact exists_congr fun ev => and_congr_left' List.mem_zipIdx_iff_getElem?

/-- Positions of distinct tags are one. -/
theorem getElem?_inj_tag (hnd : (events.map Event.tag).Nodup) {q : ℕ} {ev' : Event Input Output}
    (hp : events[p]? = some ev) (hq : events[q]? = some ev') (ht : ev.tag = ev'.tag) : p = q := by
  have hp' : (events.map Event.tag)[p]? = some ev.tag := by simp [hp]
  have hq' : (events.map Event.tag)[q]? = some ev.tag := by simp [hq, ht]
  exact (List.getElem?_inj (List.getElem?_eq_some_iff.1 hp').1 hnd).1 (hp'.trans hq'.symm)

/-- A position looked up is one recorded. -/
theorem mem_of_lookup {l : List (ℕ × ℕ)} {id p : ℕ} (h : l.lookup id = some p) : (id, p) ∈ l := by
  obtain ⟨l₁, l₂, rfl, -⟩ := List.lookup_eq_some_iff.1 h
  simp

/-- What the two later passes find, once the first has recorded. -/
theorem assertWellFormedEvents_eq_ok : assertWellFormedEvents true events = .ok () ↔
    ∃ seen, events.zipIdx.foldlM recordEvent ⟨[], []⟩ = .ok seen ∧
      (∀ x ∈ seen.side true, checkCall (seen.side false) x = .ok ()) ∧
      ∀ x ∈ seen.side false, checkReturn (seen.side true) x = .ok () := by
  simp only [assertWellFormedEvents, Bool.not_true, Bool.false_eq_true, if_false,
    Result.bind_eq_ok, Positions.side]
  refine exists_congr fun seen => and_congr_right fun _ => ?_
  rw [← Loop.forM_eq_ok_iff, ← Loop.forM_eq_ok_iff]
  exact ⟨fun ⟨⟨⟩, h⟩ => h, fun h => ⟨(), h⟩⟩

/-- A call passes when its return is recorded after it. -/
theorem checkCall_eq_ok {l : List (ℕ × ℕ)} {id c : ℕ} :
    checkCall l (id, c) = .ok () ↔ ∃ r, l.lookup id = some r ∧ c < r := by
  cases h : l.lookup id with
  | none => simp [checkCall, h]
  | some r => simp [checkCall, h, debugAssert_eq_ok]

/-- A return passes when its call is recorded. -/
theorem checkReturn_eq_ok {l : List (ℕ × ℕ)} {id r : ℕ} :
    checkReturn l (id, r) = .ok () ↔ ∃ c, l.lookup id = some c := by
  rw [checkReturn, debugAssert_eq_ok, ← Option.isSome_iff_exists]
  exact forall_prop_of_true rfl

/-- **What the gate accepts is paired, and its calls come first.** -/
theorem pairedEvents_of_gate (h : assertWellFormedEvents true events = .ok ()) :
    PairedEvents events ∧ CallsFirst events := by
  obtain ⟨seen, hok, hcalls, hrets⟩ := assertWellFormedEvents_eq_ok.1 h
  obtain ⟨hval, hnd⟩ := recordEvents_ok_iff.1 ⟨seen, hok⟩
  have hrec := recordEvents_recorded hok
  have hcall : ∀ id c, (id, c) ∈ seen.side true → ∃ r, (id, r) ∈ seen.side false ∧ c < r := by
    intro id c hc
    obtain ⟨r, hr, hlt⟩ := checkCall_eq_ok.1 (hcalls _ hc)
    exact ⟨r, mem_of_lookup hr, hlt⟩
  have hret : ∀ id r, (id, r) ∈ seen.side false → ∃ c, (id, c) ∈ seen.side true := by
    intro id r hr
    obtain ⟨c, hc⟩ := checkReturn_eq_ok.1 (hrets _ hr)
    exact ⟨c, mem_of_lookup hc⟩
  refine ⟨⟨hval, hnd, fun t ht b => ?_⟩, fun id c r evc evr hc hr htc htr => ?_⟩
  · obtain ⟨ev, hev, rfl⟩ := List.mem_map.1 ht
    obtain ⟨p, hp⟩ := List.getElem?_of_mem hev
    have hmem : (ev.id, p) ∈ seen.side ev.tag.2 := (hrec _ _ _).2 ⟨ev, hp, rfl⟩
    -- the other side of an event is recorded, whichever side it is on
    obtain ⟨q, hq⟩ : ∃ q, (ev.id, q) ∈ seen.side b := by
      cases b <;> cases hb : ev.tag.2 <;> rw [hb] at hmem
      · exact ⟨p, hmem⟩
      · obtain ⟨r, hr, -⟩ := hcall _ _ hmem
        exact ⟨r, hr⟩
      · exact hret _ _ hmem
      · exact ⟨p, hmem⟩
    obtain ⟨ev', hev', ht'⟩ := (hrec _ _ _).1 hq
    exact ht' ▸ List.mem_map_of_mem (List.mem_of_getElem? hev')
  · obtain ⟨r', hr', hlt⟩ := hcall id c ((hrec _ _ _).2 ⟨evc, hc, htc⟩)
    obtain ⟨ev', hev', ht'⟩ := (hrec _ _ _).1 hr'
    rwa [getElem?_inj_tag hnd hr hev' (htr.trans ht'.symm)]

/-- In paired events each side finds the other side of an id. -/
theorem PairedEvents.exists_lookup (h : PairedEvents events)
    (hok : events.zipIdx.foldlM recordEvent ⟨[], []⟩ = .ok seen) {b : Bool} {id p : ℕ}
    (hp : (id, p) ∈ seen.side b) (b' : Bool) : ∃ q, (seen.side b').lookup id = some q := by
  have hrec := recordEvents_recorded hok
  obtain ⟨ev, hev, ht⟩ := (hrec _ _ _).1 hp
  have hmem := h.both _ (List.mem_map_of_mem (List.mem_of_getElem? hev)) b'
  rw [ht] at hmem
  obtain ⟨ev', hev', ht'⟩ := List.mem_map.1 hmem
  obtain ⟨q, hq⟩ := List.getElem?_of_mem hev'
  cases hl : (seen.side b').lookup id with
  | some q => exact ⟨q, rfl⟩
  | none =>
    exact absurd ((hrec _ _ _).2 ⟨ev', hq, ht'⟩)
      (lookup_isNone.1 (Option.isNone_iff_eq_none.2 hl) q)

/-- **The gate accepts exactly the paired events whose calls come
first.** -/
theorem assertWellFormedEvents_iff :
    assertWellFormedEvents true events = .ok () ↔ PairedEvents events ∧ CallsFirst events := by
  refine ⟨pairedEvents_of_gate, ?_⟩
  rintro ⟨hp, hfirst⟩
  obtain ⟨seen, hok⟩ := recordEvents_ok_iff.2 ⟨hp.value, hp.nodup⟩
  have hrec := recordEvents_recorded hok
  refine assertWellFormedEvents_eq_ok.2 ⟨seen, hok, ?_, ?_⟩
  · rintro ⟨id, c⟩ hc
    obtain ⟨r, hr⟩ := hp.exists_lookup hok hc false
    obtain ⟨evc, hevc, htc⟩ := (hrec _ _ _).1 hc
    obtain ⟨evr, hevr, htr⟩ := (hrec _ _ _).1 (mem_of_lookup hr)
    exact checkCall_eq_ok.2 ⟨r, hr, hfirst id c r evc evr hevc hevr htc htr⟩
  · rintro ⟨id, r⟩ hr
    exact checkReturn_eq_ok.2 (hp.exists_lookup hok hr true)

/-- In any build. -/
theorem assertWellFormedEvents_ok (h : PairedEvents events) (hfirst : CallsFirst events)
    (debug : Bool) : assertWellFormedEvents debug events = .ok () := by
  cases debug with
  | false => rfl
  | true => exact assertWellFormedEvents_iff.2 ⟨h, hfirst⟩

end WellFormed

end Porcupine
