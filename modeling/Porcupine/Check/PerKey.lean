import Porcupine.Check.Locality
import Porcupine.Model.GoCompat
/-!
# Models of one key

A model that partitions by key need not keep the other keys: in each group
its state can be the value of the group's key alone. Such a model gives
the verdict that the model of the whole store gives unpartitioned
(`perKey_agrees`), which is what the key-value models ported from Go rely
on (`kvModel_agrees`).
-/

namespace Porcupine

open Linearization

variable {State Input Output κ γ : Type} {whole : Model State Input Output}
variable {single : Model γ Input Output} {key : Input → κ} {view : State → κ → γ}
variable {history : List (Operation Input Output)} {events : List (Event Input Output)}
variable {parts : List (List ℕ)} {debug : Bool} {srt : UnstableSort (List (Entry Input Output))}

/-- **One model is what the other is on each key.** -/
structure PerKey (whole : Model State Input Output) (single : Model γ Input Output)
    (key : Input → κ) (view : State → κ → γ) : Prop where
  componentwise : Componentwise whole.apply (fun io => key io.1) view single.apply
  init : ∀ k, view whole.init k = single.init

section Agrees

/-- Operations on one key are linearizable for both or for neither. -/
theorem PerKey.historyLinearizable_iff (h : PerKey whole single key view)
    (hk : ∀ a ∈ history, ∀ b ∈ history, key a.input = key b.input) :
    HistoryLinearizable whole history ↔ HistoryLinearizable single history := by
  classical
  have hops : Componentwise (fun s (op : Operation Input Output) => whole.apply s op.io)
      (fun op => key op.input) view fun c op => single.apply c op.io :=
    ⟨fun s op => h.componentwise.step_none s op.io, fun s op => h.componentwise.step_self s op.io,
      fun s op => h.componentwise.step_frame s op.io⟩
  refine exists_congr fun order => and_congr_right fun hperm => and_congr_right fun _ => ?_
  cases order with
  | nil => exact iff_of_true accepts_nil accepts_nil
  | cons a order =>
    have hone : ∀ op ∈ a :: order, key op.input = key a.input := fun op hop =>
      hk op (hperm.mem_iff.1 hop) a (hperm.mem_iff.1 List.mem_cons_self)
    rw [hops.accepts_iff_component hone, h.init]

/-- Events likewise. -/
theorem PerKey.eventsLinearizable_iff (h : PerKey whole single key view) {keyOf : ℕ → κ}
    (hkey : ∀ ev ∈ events, ∀ input, ev.kind = .call → ev.input = some input →
      key input = keyOf ev.id)
    (hk : ∀ ev ∈ events, ∀ ev' ∈ events, keyOf ev.id = keyOf ev'.id) :
    EventsLinearizable whole events ↔ EventsLinearizable single events := by
  refine exists_congr fun ops => and_congr_right fun hops => ?_
  have hcall : ∀ op ∈ ops, ∃ ev ∈ events, key op.input = keyOf ev.id := by
    intro op hop
    obtain ⟨id, hof⟩ := hops.exists_id hop
    obtain ⟨ev, hev, hkind, -, hin⟩ := hof.call
    exact ⟨ev, List.mem_of_getElem? hev, hkey ev (List.mem_of_getElem? hev) op.input hkind hin⟩
  refine h.historyLinearizable_iff fun a ha b hb => ?_
  obtain ⟨ev, hev, hka⟩ := hcall a ha
  obtain ⟨ev', hev', hkb⟩ := hcall b hb
  rw [hka, hkb]
  exact hk ev hev ev' hev'

variable [BEq γ]

/-- **The model of one key decides what the whole store linearizes**, of
operations -/
theorem PerKey.decides_operations (h : PerKey whole single key view) (hlaw : single.Lawful)
    (hpart : single.partition history = some parts) (hcount : parts.length ≤ 2 ^ 32)
    (hgroups : GroupsByKey (fun op : Operation Input Output => key op.input) history parts)
    (hwf : ∀ op ∈ history, op.call ≤ op.returnTime) (hsize : history.length ≤ 2 ^ 31 - 1) :
    Decides (checker debug srt single) (checkOperations debug single history none)
      (HistoryLinearizable whole history) := by
  have hdec : Decides (checker debug srt single) (checkOperations debug single history none)
      (∀ g ∈ parts, HistoryLinearizable single (pick history g)) :=
    (prepares_operations_partition debug hpart hgroups.covers hcount hwf (by omega)).decides hlaw
  refine hdec.congr ?_
  rw [hgroups.toSplitsByKey.historyLinearizable_iff h.componentwise hwf]
  exact forall₂_congr fun g hg => (h.historyLinearizable_iff (hgroups.uniform g hg)).symm

/-- and of events. -/
theorem PerKey.decides_events (h : PerKey whole single key view) (hlaw : single.Lawful)
    (keyOf : ℕ → κ) (hpart : single.partitionEvents events = some parts)
    (hcount : parts.length ≤ 2 ^ 32)
    (hkey : ∀ ev ∈ events, ∀ input, ev.kind = .call → ev.input = some input →
      key input = keyOf ev.id)
    (hgroups : GroupsByKey (fun ev : Event Input Output => keyOf ev.id) events parts)
    (hasc : Ascending parts) (hgate : assertWellFormedEvents true events = .ok ())
    (hsize : events.length ≤ 2 * (2 ^ 31 - 1)) :
    Decides (checker debug srt single) (checkEvents debug single events none)
      (EventsLinearizable whole events) := by
  obtain ⟨hp, hfirst⟩ := assertWellFormedEvents_iff.1 hgate
  have hsplit := hgroups.toSplitsByKey
  have hacc : Accepted events parts :=
    ⟨hp, hfirst, hsplit.eventPartition hp, hcount, by rw [NONE]; omega⟩
  have hdec : Decides (checker debug srt single) (checkEvents debug single events none)
      (∀ g ∈ parts, EventsLinearizable single (pick events g)) :=
    (hacc.prepares debug hpart (hacc.callsFirst_pick hasc)).decides hlaw
  refine hdec.congr ?_
  rw [hsplit.eventsLinearizable_iff hkey h.componentwise hasc hp hfirst]
  refine forall₂_congr fun g hg => (h.eventsLinearizable_iff ?_ (hgroups.uniform g hg)).symm
  intro ev hev
  obtain ⟨i, -, hi⟩ := mem_pick.1 hev
  exact hkey ev (List.mem_of_getElem? hi)

end Agrees

/-! ## The key-value store -/

namespace GoCompat

variable {history : List (Operation KvInput KvOutput)} {events : List (Event KvInput KvOutput)}
variable {visit : List (String × List ℕ) → List (String × List ℕ)}

/-- The value of a key, which is empty at first. -/
def valueAt (state : Finmap fun _ : String => String) (key : String) : String :=
  (state.lookup key).getD ""

@[simp] theorem valueAt_insert (state : Finmap fun _ : String => String) (key value : String) :
    valueAt (state.insert key value) key = value := by
  simp [valueAt]

theorem valueAt_insert_of_ne {state : Finmap fun _ : String => String} {key k value : String}
    (h : k ≠ key) : valueAt (state.insert key value) k = valueAt state k := by
  rw [valueAt, Finmap.lookup_insert_of_ne _ h, valueAt]

/-- **The store is the model of one key on each key.** -/
theorem kvNoPartitionModel_perKey :
    PerKey KvNoPartitionModel (KvModel visit) KvInput.key valueAt where
  init k := by simp [valueAt, KvNoPartitionModel, KvModel]
  componentwise := by
    refine ⟨fun s io => ?_, fun s io s' hs => ?_, fun s io s' k hs hk => ?_⟩ <;>
      obtain ⟨⟨op, key, value⟩, output⟩ := io
    · cases op with
      | get =>
        show (if output.value = valueAt s key then some s else none) = none ↔
          (if output.value = valueAt s key then some (valueAt s key) else none) = none
        split <;> simp
      | put => exact iff_of_false nofun nofun
      | append => exact iff_of_false nofun nofun
    · cases op with
      | get =>
        obtain ⟨hout, he⟩ := Option.ite_none_right_eq_some.1
          (show (if output.value = valueAt s key then some s else none) = some s' from hs)
        cases he
        exact if_pos hout
      | put =>
        cases hs
        exact congrArg some (valueAt_insert s key value).symm
      | append =>
        cases hs
        exact congrArg some (valueAt_insert s key _).symm
    · cases op with
      | get =>
        obtain ⟨-, he⟩ := Option.ite_none_right_eq_some.1
          (show (if output.value = valueAt s key then some s else none) = some s' from hs)
        cases he
        rfl
      | put =>
        cases hs
        exact valueAt_insert_of_ne hk
      | append =>
        cases hs
        exact valueAt_insert_of_ne hk

/-- The id and the key of a call. -/
def callKey (ev : Event KvInput KvOutput) : Option (ℕ × String) :=
  match ev.kind, ev.input with
  | .call, some input => some (ev.id, input.key)
  | _, _ => none

theorem idToKey_eq (events : List (Event KvInput KvOutput)) :
    idToKey events = (events.filterMap callKey).reverse := by
  induction events using List.reverseRecOn with
  | nil => rfl
  | append_singleton events ev ih =>
    have hfold : idToKey (events ++ [ev]) = (callKey ev).toList ++ idToKey events := by
      simp only [idToKey, List.foldl_append, List.foldl_cons, List.foldl_nil, callKey]
      cases ev.kind <;> cases ev.input <;> rfl
    rw [hfold, ih, List.filterMap_append, List.reverse_append]
    cases h : callKey ev <;> simp [h]

/-- A key that is listed with one value is looked up to it. -/
theorem lookup_eq_some_of_unique {α β : Type} [BEq α] [LawfulBEq α] {l : List (α × β)} {a : α}
    {b : β} (hmem : (a, b) ∈ l) (huniq : ∀ b', (a, b') ∈ l → b' = b) : l.lookup a = some b := by
  cases h : l.lookup a with
  | none =>
    have hne := List.lookup_eq_none_iff.1 h _ hmem
    simp at hne
  | some b' =>
    obtain ⟨l₁, l₂, rfl, -⟩ := List.lookup_eq_some_iff.1 h
    rw [huniq b' (by simp)]

/-- **In paired events an id has the key of its call.** -/
theorem lookup_idToKey (hp : PairedEvents events) {ev : Event KvInput KvOutput} {input : KvInput}
    (hev : ev ∈ events) (hkind : ev.kind = .call) (hin : ev.input = some input) :
    (idToKey events).lookup ev.id = some input.key := by
  have hmem : ∀ k, (ev.id, k) ∈ idToKey events ↔ ∃ ev' ∈ events, callKey ev' = some (ev.id, k) := by
    intro k
    rw [idToKey_eq, List.mem_reverse, List.mem_filterMap]
  refine lookup_eq_some_of_unique ((hmem _).2 ⟨ev, hev, by simp [callKey, hkind, hin]⟩) fun k hk => ?_
  obtain ⟨ev', hev', hcall⟩ := (hmem k).1 hk
  unfold callKey at hcall
  split at hcall
  · next input' hkind' hin' =>
    obtain ⟨hid, rfl⟩ := Prod.mk.inj (Option.some.inj hcall)
    have htag : ev'.tag = ev.tag := by simp [Event.tag, hid, hkind, hkind']
    obtain rfl : ev' = ev := List.inj_on_of_nodup_map hp.nodup hev' hev htag
    rw [hin] at hin'
    cases hin'
    rfl
  · cases hcall

/-- The key of an id. -/
def keyOfId (events : List (Event KvInput KvOutput)) (id : ℕ) : String :=
  ((idToKey events).lookup id).getD ""

/-- **The model of one key decides what the store linearizes.** -/
theorem kvModel_decides (debug : Bool) (srt : UnstableSort (List (Entry KvInput KvOutput)))
    (hvisit : ∀ l, (visit l).Perm l) :
    (∀ history : List (Operation KvInput KvOutput), (∀ op ∈ history, op.call ≤ op.returnTime) →
      history.length ≤ 2 ^ 31 - 1 →
      Decides (checker debug srt (KvModel visit)) (checkOperations debug (KvModel visit) history none)
        (HistoryLinearizable KvNoPartitionModel history)) ∧
    ∀ events : List (Event KvInput KvOutput), assertWellFormedEvents true events = .ok () →
      events.length ≤ 2 * (2 ^ 31 - 1) →
      Decides (checker debug srt (KvModel visit)) (checkEvents debug (KvModel visit) events none)
        (EventsLinearizable KvNoPartitionModel events) := by
  have hlaw : (KvModel visit).Lawful := Model.lawful_of_lawfulBEq _
  refine ⟨fun history hwf hsize => ?_, fun events hgate hsize => ?_⟩
  · have hkey : ∀ op ∈ history, some op.input.key = some op.input.key := fun _ _ => rfl
    obtain ⟨hgroups, -, hcount⟩ := exists_parts
      (f := fun op : Operation KvInput KvOutput => op.input.key) hvisit hkey
    exact kvNoPartitionModel_perKey.decides_operations hlaw rfl (by omega) hgroups hwf hsize
  · obtain ⟨hp, -⟩ := assertWellFormedEvents_iff.1 hgate
    have hlookup : ∀ ev ∈ events, (idToKey events).lookup ev.id = some (keyOfId events ev.id) := by
      intro ev hev
      obtain ⟨evc, hevc, htag⟩ := hp.exists_tag hev true
      obtain ⟨hid, hkind⟩ := tag_eq_true_iff.1 htag
      obtain ⟨input, hin⟩ := Option.isSome_iff_exists.1
        ((exists_eventValue_iff.1 (hp.value evc hevc)).1 hkind)
      have hl := lookup_idToKey hp hevc hkind hin
      rw [hid] at hl
      rw [keyOfId, hl]
      rfl
    obtain ⟨hgroups, hasc, hcount⟩ := exists_parts hvisit hlookup
    refine kvNoPartitionModel_perKey.decides_events hlaw (keyOfId events) rfl (by omega)
      (fun ev hev input hkind hin => ?_) hgroups hasc hgate hsize
    rw [keyOfId, lookup_idToKey hp hev hkind hin]
    rfl

/-- **Partitioned by key, one key's value at a time, or as one map**: the
two key-value models get the same verdict for all operations and events,
in whatever order the partition walks its map. -/
theorem kvModel_agrees (debug : Bool) (srt : UnstableSort (List (Entry KvInput KvOutput)))
    (visit : List (String × List ℕ) → List (String × List ℕ)) (hvisit : ∀ l, (visit l).Perm l) :
    (∀ history : List (Operation KvInput KvOutput), (∀ op ∈ history, op.call ≤ op.returnTime) →
      history.length ≤ 2 ^ 31 - 1 →
      ∃ r, (checker debug srt (KvModel visit)).Returns r
          (checkOperations debug (KvModel visit) history none) ∧
        (checker debug srt KvNoPartitionModel).Returns r
          (checkOperations debug KvNoPartitionModel history none)) ∧
    ∀ events : List (Event KvInput KvOutput), assertWellFormedEvents true events = .ok () →
      events.length ≤ 2 * (2 ^ 31 - 1) →
      ∃ r, (checker debug srt (KvModel visit)).Returns r
          (checkEvents debug (KvModel visit) events none) ∧
        (checker debug srt KvNoPartitionModel).Returns r
          (checkEvents debug KvNoPartitionModel events none) := by
  obtain ⟨hops, hevents⟩ := kvModel_decides debug srt hvisit
  have hlaw : KvNoPartitionModel.Lawful := Model.lawful_of_lawfulBEq _
  refine ⟨fun history hwf hsize => (hops history hwf hsize).agree ?_,
    fun events hgate hsize => (hevents events hgate hsize).agree ?_⟩
  · exact (prepares_operations debug rfl hwf (by omega)).decides hlaw
  · obtain ⟨hp, hfirst⟩ := assertWellFormedEvents_iff.1 hgate
    exact (prepares_events debug rfl hp hfirst (by rw [NONE]; omega)).decides hlaw

/-- Writes to two keys, and an append that a read has seen. -/
def appended : List (Operation KvInput KvOutput) :=
  [⟨0, ⟨.put, "x", "a"⟩, 0, ⟨""⟩, 3⟩, ⟨1, ⟨.put, "y", "b"⟩, 1, ⟨""⟩, 2⟩,
    ⟨0, ⟨.append, "x", "c"⟩, 4, ⟨""⟩, 7⟩, ⟨1, ⟨.get, "x", ""⟩, 5, ⟨"ac"⟩, 6⟩]

/-- The same history as events. -/
def appendedEvents : List (Event KvInput KvOutput) :=
  [⟨0, .call, some ⟨.put, "x", "a"⟩, none, 0⟩, ⟨1, .call, some ⟨.put, "y", "b"⟩, none, 1⟩,
    ⟨1, .ret, none, some ⟨""⟩, 1⟩, ⟨0, .ret, none, some ⟨""⟩, 0⟩,
    ⟨0, .call, some ⟨.append, "x", "c"⟩, none, 2⟩, ⟨1, .call, some ⟨.get, "x", ""⟩, none, 3⟩,
    ⟨1, .ret, none, some ⟨"ac"⟩, 3⟩, ⟨0, .ret, none, some ⟨""⟩, 2⟩]

theorem kvModel_agrees_appended :
    (∃ r, (checker true (.insertion _) (KvModel List.reverse)).Returns r
        (checkOperations true (KvModel List.reverse) appended none) ∧
      (checker true (.insertion _) KvNoPartitionModel).Returns r
        (checkOperations true KvNoPartitionModel appended none)) ∧
    ∃ r, (checker true (.insertion _) (KvModel List.reverse)).Returns r
        (checkEvents true (KvModel List.reverse) appendedEvents none) ∧
      (checker true (.insertion _) KvNoPartitionModel).Returns r
        (checkEvents true KvNoPartitionModel appendedEvents none) := by
  have h := kvModel_agrees true (.insertion _) List.reverse List.reverse_perm
  exact ⟨h.1 appended (by decide) (by decide), h.2 appendedEvents (by decide) (by decide)⟩

end GoCompat

end Porcupine
