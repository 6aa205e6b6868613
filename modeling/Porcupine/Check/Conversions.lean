import Porcupine.Check.Agreement
import Porcupine.Check.Panics
import Porcupine.Check.Locality
import Porcupine.Model.Conversions
/-!
# One history, both entry points

Sorting the calls and returns of operations by time gives events that say
of the operations all a check reads, malformed ones included
(`opsToEvents_agrees`), and a partition by key on either side does not
change that (`kvEventPartition_agrees`). Listing the operations in turn
gives these events exactly when no two of them overlap
(`sequentialOpsToEvents_eq_iff`).
-/

namespace Porcupine

open Transition

variable {State Input Output : Type} {model : Model State Input Output}
variable {ops : List (Operation Input Output)} {events : List (Event Input Output)}
variable {entries : List (Entry Input Output)} {e e' : Entry Input Output} {ids : ℕ → ℕ}

/-! ## Any way of turning operations into events -/

section EventsOf

variable (hent : List.Forall₂ (fun e ev => eventValue ev = .ok e.value ∧ ev.id = ids e.id)
  entries events)

include hent in
/-- Events that have their calls first are those of entries that do. -/
theorem callFirst_of_forall₂ (hpaired : Paired entries ops.length) (hfirst : CallsFirst events) :
    CallFirst entries ops.length := by
  intro i hi
  have hevent : ∀ b, ∃ ev, events[posOf entries i b]? = some ev ∧ ev.tag = (ids i, b) := by
    intro b
    obtain ⟨e, he, ht⟩ := hpaired.getElem?_posOf hi b
    obtain ⟨hp, rfl⟩ := List.getElem?_eq_some_iff.1 he
    have hp' : posOf entries i b < events.length := hent.length_eq ▸ hp
    obtain ⟨hv, hid⟩ := hent.get hp hp'
    simp only [List.get_eq_getElem] at hv hid
    obtain ⟨hidi, hb⟩ : entries[posOf entries i b].id = i ∧ _ = b := Prod.mk.inj ht
    refine ⟨events[posOf entries i b], List.getElem?_eq_getElem hp', ?_⟩
    rw [Event.tag, ← isCall_of_eventValue hv]
    exact Prod.ext (hid.trans (congrArg ids hidi)) hb
  obtain ⟨evc, hc, htc⟩ := hevent true
  obtain ⟨evr, hr, htr⟩ := hevent false
  exact hfirst _ _ _ evc evr hc hr htc htr

end EventsOf

namespace EventsOf

variable (hids : ∀ i < ops.length, ∀ j < ops.length, ids i = ids j → i = j)

include hids in
/-- Under distinct names they are paired, -/
theorem pairedEvents (h : EventsOf ids ops events) : PairedEvents events := by
  obtain ⟨entries, harr, hent⟩ := h
  exact pairedEvents_of_forall₂ hent harr.paired hids

include hids in
/-- their calls come first exactly when the operations are well formed, -/
theorem callsFirst_iff (h : EventsOf ids ops events) :
    CallsFirst events ↔ ∀ op ∈ ops, op.WellFormed := by
  obtain ⟨entries, harr, hent⟩ := h
  rw [← harr.represents.callFirst_iff]
  exact ⟨callFirst_of_forall₂ hent harr.paired, callsFirst_of_forall₂ hent harr.paired hids⟩

include hids in
/-- and they are linearizable exactly when the operations are. -/
theorem linearizable_iff (h : EventsOf ids ops events) :
    EventsLinearizable model events ↔ HistoryLinearizable model ops := by
  have hp := h.pairedEvents hids
  obtain ⟨entries, harr, hent⟩ := h
  obtain ⟨entries', -, hent', hpaired'⟩ := hp.convert
  have hren := renamed_of_forall₂ hent hent'
  have hcount : idCount events = ops.length := by
    have hlen := hpaired'.length_eq
    have hlen' := harr.paired.length_eq
    rw [hren.length_eq] at hlen
    omega
  rw [← hp.linearizable_iff hent', ← hren.linearizable_iff harr.paired (hcount ▸ hpaired'),
    harr.represents.linearizable_iff]

theorem length_eq (h : EventsOf ids ops events) : events.length = 2 * ops.length := by
  obtain ⟨entries, harr, hent⟩ := h
  rw [← hent.length_eq, harr.paired.length_eq]

end EventsOf

/-! ## Sorted by time -/

/-- What the converter sorts of an entry. -/
def Entry.timed (e : Entry Input Output) : TimedIndex := ⟨e.time, e.value.isCall, e.id⟩

/-- The event of an entry. -/
def IsOpEvent (ops : List (Operation Input Output)) (e : Entry Input Output)
    (ev : Event Input Output) : Prop :=
  ∃ op, ops[e.id]? = some op ∧ ev = opEvent e.id op e.value.isCall

theorem cmp_timed : e.timed.cmp e'.timed = e.cmp e' := by
  obtain ⟨id, t, v⟩ := e
  obtain ⟨id', t', v'⟩ := e'
  cases v <;> cases v' <;> rfl

/-- It sorts what `make_entries` sorts. -/
theorem map_timed_makeEntries : (makeEntries ops).map Entry.timed =
    (ops.zipIdx.flatMap fun (op, i) =>
      [(⟨op.call, true, i⟩ : TimedIndex), ⟨op.returnTime, false, i⟩]).insertionSort
        fun a b => a.cmp b ≠ .gt := by
  have hcmp : ∀ a ∈ flattened ops, ∀ b ∈ flattened ops,
      a.cmp b ≠ .gt ↔ a.timed.cmp b.timed ≠ .gt := by
    intro a _ b _
    rw [cmp_timed]
  have hflat : (flattened ops).map Entry.timed = ops.zipIdx.flatMap fun (op, i) =>
      [(⟨op.call, true, i⟩ : TimedIndex), ⟨op.returnTime, false, i⟩] := by
    rw [flattened, List.map_flatMap]
    rfl
  rw [← hflat]
  exact List.map_insertionSort _ _ Entry.timed (flattened ops) hcmp

/-- **The converter completes with one event for each entry.** -/
theorem opsToEventsSortedByTime_eq_ok : opsToEventsSortedByTime ops = .ok events ↔
    List.Forall₂ (IsOpEvent ops) (makeEntries ops) events := by
  have hbody : ∀ (e : Entry Input Output) (ev : Event Input Output),
      ((readAt ops e.timed.index >>= fun op => pure (opEvent e.timed.index op e.timed.isCall)) =
        (.ok ev : Result _)) ↔ IsOpEvent ops e ev := by
    intro e ev
    rw [Result.bind_eq_ok]
    refine exists_congr fun op => and_congr readAt_eq_ok ?_
    exact ⟨fun h => (Except.ok.inj h).symm, fun h => congrArg Except.ok h.symm⟩
  rw [opsToEventsSortedByTime, ← map_timed_makeEntries, Loop.mapM_eq_ok_iff,
    List.forall₂_map_left_iff]
  exact ⟨fun h => h.imp fun e ev => (hbody e ev).1, fun h => h.imp fun e ev => (hbody e ev).2⟩

/-- The event of a flattened entry carries the entry's value. -/
theorem IsOpEvent.value (hmem : e ∈ flattened ops) {ev : Event Input Output}
    (h : IsOpEvent ops e ev) : eventValue ev = .ok e.value ∧ ev.id = e.id := by
  obtain ⟨op, hop, rfl⟩ := h
  obtain ⟨op', hop', he⟩ := mem_flattened.1 hmem
  obtain rfl : op = op' := Option.some.inj (hop.symm.trans hop')
  rcases he with he | he <;> rw [he] <;> exact ⟨rfl, rfl⟩

/-- **Sorting by time turns operations into events.** -/
theorem exists_opsToEventsSortedByTime (ops : List (Operation Input Output)) :
    ∃ events, opsToEventsSortedByTime ops = .ok events ∧ EventsOf (fun i => i) ops events := by
  have hmem : ∀ e ∈ makeEntries ops, e ∈ flattened ops := fun e he =>
    makeEntries_arranged.perm.mem_iff.1 he
  cases h : opsToEventsSortedByTime ops with
  | error p =>
    -- no index is out of bounds
    rw [opsToEventsSortedByTime, ← map_timed_makeEntries] at h
    obtain ⟨pre, t, post, hl, -, ht⟩ := Loop.exists_of_mapM_eq_error h
    obtain ⟨e, he, rfl⟩ := List.mem_map.1 (hl ▸ List.mem_append_cons_self)
    obtain ⟨op, hop, -⟩ := mem_flattened.1 (hmem e he)
    have hread : readAt ops e.timed.index = .ok op := readAt_eq_ok.2 hop
    rw [hread] at ht
    cases ht
  | ok events =>
    have hall := opsToEventsSortedByTime_eq_ok.1 h
    refine ⟨events, rfl, makeEntries ops, makeEntries_arranged, ?_⟩
    refine List.forall₂_iff_get.2 ⟨hall.length_eq, fun i hi hi' => ?_⟩
    exact (hall.get hi hi').value (hmem _ (List.get_mem _ _))

/-! ## What the two checks decide -/

section Agrees

variable [BEq State] {debug : Bool} {srt : UnstableSort (List (Entry Input Output))}
variable {history : List (Operation Input Output)}

/-- The search returns true on what is linearizable and lists its calls
first. -/
theorem Paired.checksTo_iff_callFirst {n : ℕ} (hpair : Paired entries n) (hsize : entries.length < NONE)
    (hlaw : model.Lawful) {b : Bool} (h : ChecksTo debug model entries b) :
    b = true ↔ CallFirst entries n ∧ EntriesLinearizable model entries := by
  constructor
  · rintro rfl
    exact ⟨hpair.callFirst_of_checksTo hsize h, hpair.linearizable_of_checksTo hsize h⟩
  · rintro ⟨hfirst, hlin⟩
    exact (hpair.checksTo_iff hsize hfirst hlaw h).2 hlin

/-- Paired events that come to their search are decided to be explained, -/
theorem PairedEvents.decides_explained (hp : PairedEvents events) (hlaw : model.Lawful)
    (hpart : model.partitionEvents events = none)
    (hgate : assertWellFormedEvents debug events = .ok ()) (hsize : events.length < NONE) :
    Decides (checker debug srt model) (checkEvents debug model events none)
      (CallsFirst events ∧ EventsLinearizable model events) := by
  obtain ⟨entries, hconv, hent, -⟩ := hp.convert
  have hpair := hp.paired hent
  have hlt : entries.length < NONE := hent.length_eq ▸ hsize
  have hps : eventPartitions debug model events = .ok [entries] := by
    simp only [eventPartitions, hgate, hpart, hconv, Result.ok_bind, Result.pure_eq]
  have hone : ∀ g ∈ [entries], ∃ n, Paired g n ∧ g.length < NONE :=
    List.forall_mem_singleton.2 ⟨_, hpair, hlt⟩
  obtain ⟨V⟩ := exists_verdicts_of_paired debug model hone
  rw [checkEvents, hps]
  refine V.decides srt ?_
  rw [List.forall_mem_singleton, hpair.checksTo_iff_callFirst hlt hlaw
    (V.checks entries (List.mem_singleton_self _)).checksTo, hp.linearizable_iff hent]
  exact and_congr_left' ⟨hp.callsFirst_of_callFirst hent, hp.callFirst hent⟩

/-- and operations likewise. -/
theorem decides_explained (hlaw : model.Lawful) (hpart : model.partition history = none)
    (hgate : assertWellFormed debug history = .ok ()) (hsize : history.length ≤ 2 ^ 31 - 1) :
    Decides (checker debug srt model) (checkOperations debug model history none)
      (Explained model history) := by
  have hsized : OperationsSized model history :=
    ⟨fun _ => by omega, fun parts h => by cases hpart.symm.trans h⟩
  refine (decides_operationsExplained srt hlaw hsized (operationPartitions_whole hpart hgate)).congr ?_
  exact ⟨fun h => h.whole hpart, fun h => ⟨fun _ => h, fun parts hp => by cases hpart.symm.trans hp⟩⟩

/-- **Operations and their events, sorted by time, get one answer** from
the two entry points: one verdict, malformed operations included, where the
build lets them through, and a panic from both where it does not. The
event gate lets through exactly the well-formed histories. -/
theorem opsToEvents_agrees (srt : UnstableSort (List (Entry Input Output)))
    (model : Model State Input Output) (hpart : ∀ history, model.partition history = none)
    (hpartEvents : ∀ events, model.partitionEvents events = none) (hlaw : model.Lawful)
    (history : List (Operation Input Output)) (hsize : history.length ≤ 2 ^ 31 - 1) :
    ∃ events, opsToEventsSortedByTime history = .ok events ∧
      (assertWellFormedEvents true events = .ok () ↔ ∀ op ∈ history, op.call ≤ op.returnTime) ∧
      (∀ debug, (debug = true → ∀ op ∈ history, op.call ≤ op.returnTime) →
        ∃ r, (checker debug srt model).Returns r (checkEvents debug model events none) ∧
          (checker debug srt model).Returns r (checkOperations debug model history none)) ∧
      ((∃ op ∈ history, op.returnTime < op.call) →
        (∃ p, (checkEvents true model events none).main = .panicked p) ∧
          ∃ p, (checkOperations true model history none).main = .panicked p) := by
  obtain ⟨events, hok, hev⟩ := exists_opsToEventsSortedByTime history
  have hids : ∀ i < history.length, ∀ j < history.length, i = j → i = j := fun _ _ _ _ h => h
  have hp := hev.pairedEvents hids
  have hfirst := hev.callsFirst_iff hids
  have hgate : assertWellFormedEvents true events = .ok () ↔ ∀ op ∈ history, op.WellFormed := by
    rw [assertWellFormedEvents_iff, ← hfirst, and_iff_right hp]
  refine ⟨events, hok, hgate, fun debug hwf => ?_, fun ⟨op, hop, hlt⟩ => ?_⟩
  · have hpassed : assertWellFormedEvents debug events = .ok () := by
      cases debug with
      | false => rfl
      | true => exact hgate.2 (hwf rfl)
    have hlen := hev.length_eq
    have hdec : Decides (checker debug srt model) (checkEvents debug model events none)
        (CallsFirst events ∧ EventsLinearizable model events) :=
      hp.decides_explained hlaw (hpartEvents events) hpassed (by rw [hlen, NONE]; omega)
    refine (hdec.congr ?_).agree (decides_explained hlaw (hpart history)
      (assertWellFormed_eq_ok_iff.2 hwf) hsize)
    rw [hfirst, hev.linearizable_iff hids]
    rfl
  · have hbad : ¬ ∀ op ∈ history, op.WellFormed := fun h => Nat.not_le_of_lt hlt (h op hop)
    constructor
    · cases h : assertWellFormedEvents true events with
      | ok u => exact absurd (hgate.1 h) hbad
      | error p =>
        refine ⟨p, ?_⟩
        rw [checkEvents, eventPartitions, h]
        rfl
    · cases h : assertWellFormed true history with
      | ok u => exact absurd (assertWellFormed_eq_ok_iff.1 h rfl) hbad
      | error p =>
        refine ⟨p, ?_⟩
        rw [checkOperations, operationPartitions, h]
        rfl

/-- A read that returns before it is called. -/
def earlyReturn : List (Operation RegisterInput ℤ) :=
  [⟨0, ⟨true, 7⟩, 0, 0, 3⟩, ⟨1, ⟨false, 0⟩, 9, 0, 4⟩]

theorem opsToEvents_agrees_earlyReturn :
    ∃ events, opsToEventsSortedByTime earlyReturn = .ok events ∧
      (∃ r, (checker false (.insertion _) RegisterModel).Returns r
          (checkEvents false RegisterModel events none) ∧
        (checker false (.insertion _) RegisterModel).Returns r
          (checkOperations false RegisterModel earlyReturn none)) ∧
      ∃ p, (checkEvents true RegisterModel events none).main = .panicked p := by
  obtain ⟨events, hok, -, hagree, hpanic⟩ := opsToEvents_agrees (.insertion _) RegisterModel
    (fun _ => rfl) (fun _ => rfl) RegisterModel.lawful_of_lawfulBEq earlyReturn (by decide)
  exact ⟨events, hok, hagree false nofun, (hpanic ⟨⟨1, ⟨false, 0⟩, 9, 0, 4⟩, by decide⟩).1⟩

end Agrees

/-! ## In turn -/

section Sequential

theorem notAfter_self {i : ℕ} {op : Operation Input Output} :
    (entriesOf i op).Pairwise Entry.NotAfter ↔ op.WellFormed := by
  rw [entriesOf, List.pairwise_pair, Entry.NotAfter, Entry.cmp_ne_gt, Operation.WellFormed]
  simp only [EntryValue.isCall, true_or, and_true]
  omega

theorem notAfter_across {i j : ℕ} {a b : Operation Input Output} :
    (∀ x ∈ entriesOf i a, ∀ y ∈ entriesOf j b, x.NotAfter y) ↔
      (a.call ≤ b.call ∧ a.call ≤ b.returnTime) ∧
        a.returnTime < b.call ∧ a.returnTime ≤ b.returnTime := by
  simp only [entriesOf, List.forall_mem_cons, List.not_mem_nil, false_imp_iff, implies_true,
    and_true, Entry.NotAfter, Entry.cmp_ne_gt, EntryValue.isCall]
  simp only [and_true, reduceCtorEq, or_self, and_false, or_false, or_true]
  omega

/-- The flattened entries are in order when every operation returns before
the next is called. -/
theorem pairwise_flattened_iff : (flattened ops).Pairwise Entry.NotAfter ↔
    (∀ op ∈ ops, op.WellFormed) ∧ ops.Pairwise fun a b => a.returnTime < b.call := by
  have hfst : ops.zipIdx.map Prod.fst = ops := List.zipIdx_map_fst 0 ops
  have hmem : (∀ op ∈ ops, op.WellFormed) ↔ ∀ x ∈ ops.zipIdx, x.1.WellFormed := by
    rw [← List.forall_mem_map (f := Prod.fst), hfst]
  have hpair : (ops.Pairwise fun a b => a.returnTime < b.call) ↔
      ops.zipIdx.Pairwise fun x y => x.1.returnTime < y.1.call := by
    conv_lhs => rw [← hfst, List.pairwise_map]
  rw [flattened, List.pairwise_flatMap, hmem, hpair]
  simp only [notAfter_self, notAfter_across]
  refine and_congr_right fun hwf => ⟨fun h => h.imp fun hxy => hxy.2.1, fun h => ?_⟩
  refine h.imp_of_mem fun {x y} hx hy hlt => ?_
  have hwx : x.1.call ≤ x.1.returnTime := hwf x hx
  have hwy : y.1.call ≤ y.1.returnTime := hwf y hy
  omega

/-- An event under an id tells its entry. -/
theorem IsOpEvent.unique (hmem : e ∈ flattened ops) (hmem' : e' ∈ flattened ops)
    {ev : Event Input Output} (h : IsOpEvent ops e ev) (h' : IsOpEvent ops e' ev) : e = e' := by
  have htag : e.tag = e'.tag := by
    have hv := h.value hmem
    have hv' := h'.value hmem'
    exact Prod.ext (hv.2.symm.trans hv'.2)
      ((isCall_of_eventValue hv.1).trans (isCall_of_eventValue hv'.1).symm)
  exact List.inj_on_of_nodup_map flattened_paired.nodup hmem hmem' htag

theorem sequentialOpsToEvents_forall₂ (ops : List (Operation RegisterInput ℤ)) :
    List.Forall₂ (IsOpEvent ops) (flattened ops) (sequentialOpsToEvents ops) := by
  have key : ∀ l : List (Operation RegisterInput ℤ × ℕ), (∀ x ∈ l, ops[x.2]? = some x.1) →
      List.Forall₂ (IsOpEvent ops) (l.flatMap fun x => entriesOf x.2 x.1)
        (l.flatMap fun x => [opEvent x.2 x.1 true, opEvent x.2 x.1 false]) := by
    intro l
    induction l with
    | nil => exact fun _ => .nil
    | cons x l ih =>
      intro hl
      have hop := hl x List.mem_cons_self
      exact .cons ⟨_, hop, rfl⟩ (.cons ⟨_, hop, rfl⟩ (ih fun y hy => hl y (List.mem_cons_of_mem _ hy)))
  exact key _ fun x hx => List.mem_zipIdx_iff_getElem?.1 hx

/-- **The two converters agree exactly on sequential histories**, where
every operation returns before the next is called. -/
theorem sequentialOpsToEvents_eq_iff (ops : List (Operation RegisterInput ℤ)) :
    opsToEventsSortedByTime ops = .ok (sequentialOpsToEvents ops) ↔
      (∀ op ∈ ops, op.call ≤ op.returnTime) ∧ ops.Pairwise fun a b => a.returnTime < b.call := by
  have hseq := sequentialOpsToEvents_forall₂ ops
  rw [opsToEventsSortedByTime_eq_ok]
  refine Iff.trans ⟨fun h => ?_, fun h => ?_⟩ pairwise_flattened_iff
  · -- the events tell which entries they are of
    have heq : makeEntries ops = flattened ops := by
      refine List.ext_get (h.length_eq.trans hseq.length_eq.symm) fun i hi hi' => ?_
      have hlt : i < (sequentialOpsToEvents ops).length := h.length_eq ▸ hi
      exact IsOpEvent.unique (makeEntries_arranged.perm.mem_iff.1 (List.get_mem _ _))
        (List.get_mem _ _) (h.get hi hlt) (hseq.get hi' hlt)
    exact heq ▸ makeEntries_arranged.sorted
  · have heq : makeEntries ops = flattened ops := List.Pairwise.insertionSort_eq h
    rw [heq]
    exact hseq

end Sequential

/-! ## Partitioned by key -/

section Keys

variable {events : List (Event KvInput ℤ)}

/-- **In paired events an id has the key of its call.** -/
theorem keyById_eq (hp : PairedEvents events) {ev : Event KvInput ℤ} {input : KvInput}
    (hev : ev ∈ events) (hkind : ev.kind = .call) (hin : ev.input = some input) :
    keyById events ev.id = some input.key := by
  -- no other event is a call of the id
  have hcall : ∀ ev' ∈ events, ev'.id = ev.id ∧ ev'.kind = .call → ev' = ev := by
    intro ev' hev' ⟨hid, hk⟩
    refine List.inj_on_of_nodup_map hp.nodup hev' hev ?_
    rw [Event.tag, Event.tag, hid, hk, hkind]
  set keys := events.filterMap fun ev' =>
    if ev'.id = ev.id ∧ ev'.kind = .call then ev'.input.map KvInput.key else none with hkeys
  have hmem : input.key ∈ keys := by
    refine List.mem_filterMap.2 ⟨ev, hev, ?_⟩
    rw [if_pos ⟨rfl, hkind⟩, hin]
    rfl
  obtain ⟨k, hk⟩ : ∃ k, keys.getLast? = some k :=
    Option.isSome_iff_exists.1 (List.getLast?_isSome.2 (List.ne_nil_of_mem hmem))
  obtain ⟨ev', hev', hget⟩ := List.mem_filterMap.1 (List.mem_of_getLast? hk)
  split at hget
  · next h =>
    rw [hcall ev' hev' h, hin] at hget
    rw [keyById, ← hkeys, hk, ← hget]
    rfl
  · cases hget

/-- The key of an id that has one. -/
def keyOfId (events : List (Event KvInput ℤ)) (id : ℕ) : Fin 256 :=
  (keyById events id).getD ⟨0, by decide⟩

theorem keyById_of_mem (hp : PairedEvents events) {ev : Event KvInput ℤ} (hev : ev ∈ events) :
    keyById events ev.id = some (keyOfId events ev.id) := by
  obtain ⟨evc, hevc, htag⟩ := hp.exists_tag hev true
  obtain ⟨hid, hkind⟩ := tag_eq_true_iff.1 htag
  obtain ⟨input, hin⟩ := Option.isSome_iff_exists.1
    ((exists_eventValue_iff.1 (hp.value evc hevc)).1 hkind)
  have hkey := keyById_eq hp hevc hkind hin
  rw [hid] at hkey
  rw [keyOfId, hkey]
  rfl

section Decides

variable {debug : Bool} {srt : UnstableSort (List (Entry KvInput ℤ))}
variable {visit : List (Fin 256 × List ℕ) → List (Fin 256 × List ℕ)}
variable {history : List (Operation KvInput ℤ)}

/-- Operations by key are decided to be linearizable as a whole, -/
theorem kvEventPartition_decides_operations (hvisit : ∀ l, (visit l).Perm l)
    (hwf : ∀ op ∈ history, op.WellFormed) (hsize : history.length ≤ 2 ^ 31 - 1) :
    Decides (checker debug srt (KvEventPartitionModel visit))
      (checkOperations debug (KvEventPartitionModel visit) history none)
      (HistoryLinearizable (KvModel visit) history) := by
  have hkey : ∀ op ∈ history, some op.input.key = some op.input.key := fun _ _ => rfl
  obtain ⟨hgroups, -, hcount⟩ := exists_parts hvisit hkey
  have hsplit := hgroups.toSplitsByKey
  refine ((prepares_operations_partition debug rfl hsplit.covers (by omega) hwf
    (by omega)).decides (Model.lawful_of_lawfulBEq _)).congr ?_
  exact (hsplit.historyLinearizable_iff kv_componentwise hwf).symm

/-- and so are events. -/
theorem kvEventPartition_decides_events (hvisit : ∀ l, (visit l).Perm l) (hp : PairedEvents events)
    (hfirst : CallsFirst events) (hsize : events.length < NONE) :
    Decides (checker debug srt (KvEventPartitionModel visit))
      (checkEvents debug (KvEventPartitionModel visit) events none)
      (EventsLinearizable (KvModel visit) events) := by
  have hkey : ∀ ev ∈ events, keyById events ev.id = some (keyOfId events ev.id) :=
    fun ev hev => keyById_of_mem hp hev
  obtain ⟨hgroups, hasc, hcount⟩ := exists_parts hvisit hkey
  have hsplit := hgroups.toSplitsByKey
  have hacc : Accepted events _ :=
    ⟨hp, hfirst, hsplit.eventPartition hp, by rw [NONE] at hsize; omega, hsize⟩
  refine ((hacc.prepares debug rfl (hacc.callsFirst_pick hasc)).decides
    (Model.lawful_of_lawfulBEq _)).congr ?_
  refine (hsplit.eventsLinearizable_iff (fun ev hev input hkind hin => ?_) kv_componentwise hasc
    hp hfirst).symm
  rw [keyOfId, keyById_eq hp hev hkind hin]
  rfl

end Decides

/-- **A partition by key changes nothing**, in whatever order the maps are
walked: the events get the answer that the operations get, each
partitioned by key, and that the events get unpartitioned. -/
theorem kvEventPartition_agrees (debug : Bool) (srt : UnstableSort (List (Entry KvInput ℤ)))
    (visit : List (Fin 256 × List ℕ) → List (Fin 256 × List ℕ)) (hvisit : ∀ l, (visit l).Perm l)
    (history : List (Operation KvInput ℤ)) (hwf : ∀ op ∈ history, op.call ≤ op.returnTime)
    (hsize : history.length ≤ 2 ^ 31 - 1) :
    ∃ events, opsToEventsSortedByTime history = .ok events ∧ ∃ r,
      (checker debug srt (KvEventPartitionModel visit)).Returns r
        (checkEvents debug (KvEventPartitionModel visit) events none) ∧
      (checker debug srt (KvEventPartitionModel visit)).Returns r
        (checkOperations debug (KvEventPartitionModel visit) history none) ∧
      (checker debug srt (KvModel visit)).Returns r
        (checkEvents debug (KvModel visit) events none) := by
  obtain ⟨events, hok, hev⟩ := exists_opsToEventsSortedByTime history
  have hids : ∀ i < history.length, ∀ j < history.length, i = j → i = j := fun _ _ _ _ h => h
  have hp := hev.pairedEvents hids
  have hfirst := (hev.callsFirst_iff hids).2 hwf
  have hlin : EventsLinearizable (KvModel visit) events ↔
      HistoryLinearizable (KvModel visit) history := hev.linearizable_iff hids
  have hlen : events.length < NONE := by
    rw [hev.length_eq, NONE]
    omega
  have hops : Decides (checker debug srt (KvEventPartitionModel visit))
      (checkOperations debug (KvEventPartitionModel visit) history none)
      (HistoryLinearizable (KvModel visit) history) :=
    kvEventPartition_decides_operations hvisit hwf hsize
  have hparts : Decides (checker debug srt (KvEventPartitionModel visit))
      (checkEvents debug (KvEventPartitionModel visit) events none)
      (EventsLinearizable (KvModel visit) events) :=
    kvEventPartition_decides_events hvisit hp hfirst hlen
  have hwhole : Decides (checker debug srt (KvModel visit))
      (checkEvents debug (KvModel visit) events none)
      (EventsLinearizable (KvModel visit) events) :=
    (prepares_events debug rfl hp hfirst hlen).decides (Model.lawful_of_lawfulBEq _)
  refine ⟨events, hok, ?_⟩
  by_cases h : HistoryLinearizable (KvModel visit) history
  · exact ⟨.ok, hparts.ok (hlin.2 h), hops.ok h, hwhole.ok (hlin.2 h)⟩
  · exact ⟨.illegal, hparts.illegal (mt hlin.1 h), hops.illegal h, hwhole.illegal (mt hlin.1 h)⟩

theorem kvEventPartition_agrees_twoKeys :
    ∃ events, opsToEventsSortedByTime twoKeys = .ok events ∧ ∃ r,
      (checker true (.insertion _) (KvEventPartitionModel List.reverse)).Returns r
        (checkEvents true (KvEventPartitionModel List.reverse) events none) ∧
      (checker true (.insertion _) (KvEventPartitionModel List.reverse)).Returns r
        (checkOperations true (KvEventPartitionModel List.reverse) twoKeys none) ∧
      (checker true (.insertion _) (KvModel List.reverse)).Returns r
        (checkEvents true (KvModel List.reverse) events none) :=
  kvEventPartition_agrees true (.insertion _) List.reverse List.reverse_perm twoKeys (by decide)
    (by decide)

end Keys

end Porcupine
