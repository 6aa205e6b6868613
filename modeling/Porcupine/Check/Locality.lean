import Porcupine.Check.Agreement
import Porcupine.Check.Grouping
import Porcupine.Common.Locality
import Mathlib.Order.Nat
/-!
# P-compositionality

Where operations on different keys do not concern one another, a partition
that never splits a key changes no verdict. The key of an event is that of
its operation, which is the input of its call. For events each index list
has to be in history order besides, since a position in it is taken for
the time.
-/

namespace Porcupine

open Linearization

/-- The model with partitioning disabled. -/
def Model.unpartitioned {State Input Output : Type} (model : Model State Input Output) :
    Model State Input Output :=
  { model with partition := fun _ => none, partitionEvents := fun _ => none }

variable {State Input Output κ γ : Type} {model : Model State Input Output}
variable {key : Input → κ} {view : State → κ → γ} {component : γ → Input × Output → Option γ}
variable {events : List (Event Input Output)} {history : List (Operation Input Output)}
variable {parts : List (List ℕ)}

/-- **Locality of operations.** Groups on disjoint keys are linearizable
together when each is. -/
theorem historyLinearizable_flatten_iff
    (hc : Componentwise model.apply (fun io => key io.1) view component)
    {groups : List (List (Operation Input Output))} (hwf : ∀ g ∈ groups, ∀ op ∈ g, op.WellFormed)
    (hdisj : groups.Pairwise fun g g' => ∀ a ∈ g, ∀ b ∈ g', key a.input ≠ key b.input) :
    HistoryLinearizable model groups.flatten ↔ ∀ g ∈ groups, HistoryLinearizable model g := by
  classical
  have hc' : Componentwise (fun s (op : Operation Input Output) => model.apply s op.io)
      (fun op => key op.input) view fun c op => component c op.io :=
    ⟨fun s op => hc.step_none s op.io, fun s op => hc.step_self s op.io,
      fun s op => hc.step_frame s op.io⟩
  exact linearizable_flatten_iff hc' hwf hdisj

/-- A history of operations is linearizable when its groups are. -/
theorem SplitsByKey.historyLinearizable_iff
    (h : SplitsByKey (fun op : Operation Input Output => key op.input) history parts)
    (hc : Componentwise model.apply (fun io => key io.1) view component)
    (hwf : ∀ op ∈ history, op.WellFormed) :
    HistoryLinearizable model history ↔ ∀ g ∈ parts, HistoryLinearizable model (pick history g) := by
  have hperm : (parts.map (pick history)).flatten.Perm history := pick_covers h.covers
  rw [← historyLinearizable_of_perm (hperm.map Operation.content),
    historyLinearizable_flatten_iff hc _ (List.pairwise_map.2 h.distinct), List.forall_mem_map]
  intro g hg op hop
  exact hwf op (hperm.mem_iff.1 (List.mem_flatten.2 ⟨g, hg, hop⟩))

section Events

variable {keyOf : ℕ → κ}

/-- No operation is split. -/
theorem SplitsByKey.eventPartition
    (h : SplitsByKey (fun ev : Event Input Output => keyOf ev.id) events parts)
    (hp : PairedEvents events) : EventPartition parts events := by
  have hnd : parts.flatten.Nodup := h.covers.nodup_iff.2 List.nodup_range
  have hpick : ∀ {g : List ℕ}, g ∈ parts → ∀ ev ∈ pick events g, ev ∈ events := fun hg ev hev => by
    obtain ⟨i, -, hi⟩ := mem_pick.1 hev
    exact List.mem_of_getElem? hi
  refine ⟨h.covers, fun g hg => ⟨fun ev hev => hp.value ev (hpick hg ev hev), ?_, ?_⟩⟩
  · exact pick_nodup hp.nodup ((List.nodup_flatten.1 hnd).1 g hg)
  · intro t ht b
    obtain ⟨ev, hev, rfl⟩ := List.mem_map.1 ht
    obtain ⟨ev', hev', htag⟩ := hp.exists_tag (hpick hg ev hev) b
    obtain ⟨l, hl, hev'l⟩ := List.mem_flatten.1 ((pick_covers h.covers).mem_iff.2 hev')
    obtain ⟨g', hg', rfl⟩ := List.mem_map.1 hl
    have hid : ev.id = ev'.id := (congrArg Prod.fst htag).symm
    have hgg : g = g' := h.unique hg hg' hev hev'l (congrArg keyOf hid)
    exact List.mem_map.2 ⟨ev', hgg ▸ hev'l, htag⟩

/-- A history of events is linearizable when its groups are. -/
theorem SplitsByKey.eventsLinearizable_iff
    (h : SplitsByKey (fun ev : Event Input Output => keyOf ev.id) events parts)
    (hkey : ∀ ev ∈ events, ∀ input, ev.kind = .call → ev.input = some input →
      key input = keyOf ev.id)
    (hc : Componentwise model.apply (fun io => key io.1) view component) (hasc : Ascending parts)
    (hp : PairedEvents events) (hfirst : CallsFirst events) :
    EventsLinearizable model events ↔ ∀ g ∈ parts, EventsLinearizable model (pick events g) := by
  have hcov := h.eventPartition hp
  have hops : ∀ g, ∃ ops, g ∈ parts → OperationsOf (pick events g) ops := by
    intro g
    by_cases hg : g ∈ parts
    · obtain ⟨entries, -, hent, -⟩ := (hcov.paired g hg).convert
      exact ⟨_, fun _ => (hcov.paired g hg).operationsOf hent⟩
    · exact ⟨[], fun hg' => absurd hg' hg⟩
  choose opsOf hops using hops
  -- the operations of all groups, under the times of the whole history
  have hall := OperationsOf.flatten hp hcov hops
  rw [hall.linearizable_iff hp.nodup_kind, historyLinearizable_flatten_iff hc, List.forall_mem_map]
  · exact forall₂_congr fun g hg =>
      (eventsLinearizable_pick_iff hcov hg (hasc g hg) (hops g hg)).symm
  · intro g hg op hop
    exact hall.wellFormed hfirst op (List.mem_flatten.2 ⟨g, hg, hop⟩)
  · -- an operation's key is that of its call
    have hcall : ∀ {g : List ℕ}, g ∈ parts → ∀ op ∈ (opsOf g).map (Operation.relocate g),
        ∃ ev ∈ pick events g, key op.input = keyOf ev.id := by
      intro g hg op hop
      obtain ⟨op, hop', rfl⟩ := List.mem_map.1 hop
      obtain ⟨ids, -, -, hforall⟩ := hops g hg
      obtain ⟨i, hi, rfl⟩ := List.getElem_of_mem hop'
      obtain ⟨ev, hev, hk, -, hin⟩ := (hforall.get (hforall.length_eq ▸ hi) hi).call
      obtain ⟨p, -, hev'⟩ := mem_pick.1 (List.mem_of_getElem? hev)
      exact ⟨ev, List.mem_of_getElem? hev, hkey ev (List.mem_of_getElem? hev') _ hk hin⟩
    refine List.pairwise_map.2 (h.distinct.imp_of_mem fun {g g'} hg hg' hne a ha b hb => ?_)
    obtain ⟨eva, heva, hka⟩ := hcall hg a ha
    obtain ⟨evb, hevb, hkb⟩ := hcall hg' b hb
    rw [hka, hkb]
    exact hne eva heva evb hevb

end Events

variable [BEq State]

/-- **P-compositionality**: partitioned by key, both entry points return
what they return with partitioning disabled. -/
theorem partition_agrees (debug : Bool) (srt : UnstableSort (List (Entry Input Output)))
    (model : Model State Input Output) (key : Input → κ) (view : State → κ → γ)
    (component : γ → Input × Output → Option γ)
    (hc : Componentwise model.apply (fun io => key io.1) view component) (hlaw : model.Lawful) :
    (∀ (history : List (Operation Input Output)) (parts : List (List ℕ)),
      model.partition history = some parts → parts.length ≤ 2 ^ 32 →
      SplitsByKey (fun op : Operation Input Output => key op.input) history parts →
      (∀ op ∈ history, op.call ≤ op.returnTime) → history.length ≤ 2 ^ 31 - 1 →
      ∃ r, (checker debug srt model).Returns r (checkOperations debug model history none) ∧
        (checker debug srt model.unpartitioned).Returns r
          (checkOperations debug model.unpartitioned history none)) ∧
    (∀ (events : List (Event Input Output)) (parts : List (List ℕ)) (keyOf : ℕ → κ),
      model.partitionEvents events = some parts → parts.length ≤ 2 ^ 32 →
      (∀ ev ∈ events, ∀ input, ev.kind = .call → ev.input = some input →
        key input = keyOf ev.id) →
      SplitsByKey (fun ev : Event Input Output => keyOf ev.id) events parts → Ascending parts →
      assertWellFormedEvents true events = .ok () → events.length ≤ 2 * (2 ^ 31 - 1) →
      ∃ r, (checker debug srt model).Returns r (checkEvents debug model events none) ∧
        (checker debug srt model.unpartitioned).Returns r
          (checkEvents debug model.unpartitioned events none)) := by
  refine ⟨fun history parts hpart hcount hsplit hwf hsize => ?_,
    fun events parts keyOf hpart hcount hkey hsplit hasc hgate hsize => ?_⟩
  · have hgroups : Decides (checker debug srt model) (checkOperations debug model history none)
        (∀ g ∈ parts, HistoryLinearizable model (pick history g)) :=
      (prepares_operations_partition debug hpart hsplit.covers hcount hwf (by omega)).decides hlaw
    have hwhole : Decides (checker debug srt model.unpartitioned)
        (checkOperations debug model.unpartitioned history none)
        (HistoryLinearizable model history) :=
      (prepares_operations debug rfl hwf (by omega)).decides hlaw
    exact (hgroups.congr (hsplit.historyLinearizable_iff hc hwf).symm).agree hwhole
  · obtain ⟨hp, hfirst⟩ := assertWellFormedEvents_iff.1 hgate
    have hacc : Accepted events parts :=
      ⟨hp, hfirst, hsplit.eventPartition hp, hcount, by rw [NONE]; omega⟩
    have hgroups : Decides (checker debug srt model) (checkEvents debug model events none)
        (∀ g ∈ parts, EventsLinearizable model (pick events g)) :=
      (hacc.prepares debug hpart (hacc.callsFirst_pick hasc)).decides hlaw
    have hwhole : Decides (checker debug srt model.unpartitioned)
        (checkEvents debug model.unpartitioned events none) (EventsLinearizable model events) :=
      (prepares_events debug rfl hp hfirst (by rw [NONE]; omega)).decides hlaw
    exact (hgroups.congr (hsplit.eventsLinearizable_iff hkey hc hasc hp hfirst).symm).agree hwhole

/-! ## The key-value store -/

/-- What an operation does to its key. -/
def kvComponent (c : Option ℤ) (io : KvInput × ℤ) : Option (Option ℤ) :=
  if io.1.isWrite then some (some io.1.value) else if io.2 = c.getD 0 then some c else none

/-- The store is a map of its keys. -/
theorem kv_componentwise {visit : List (Fin 256 × List ℕ) → List (Fin 256 × List ℕ)} :
    Componentwise (KvEventPartitionModel visit).apply (fun io => io.1.key) (fun s k => s k)
      kvComponent := by
  refine ⟨fun s ⟨input, output⟩ => ?_, fun s ⟨input, output⟩ s' hs => ?_,
    fun s ⟨input, output⟩ s' k hs hk => ?_⟩
  · simp only [Model.apply, KvEventPartitionModel, KvModel, kvComponent]
    split_ifs <;> simp
  · simp only [Model.apply, KvEventPartitionModel, KvModel] at hs
    simp only [kvComponent]
    split_ifs at hs ⊢
    · cases hs
      simp
    · cases hs
      rfl
  · simp only [Model.apply, KvEventPartitionModel, KvModel] at hs
    split_ifs at hs
    · cases hs
      exact Function.update_of_ne hk _ _
    · cases hs
      rfl

/-- Writes and reads of two keys, interleaved. -/
def twoKeys : List (Operation KvInput ℤ) :=
  [⟨0, ⟨0, true, 5⟩, 0, 0, 3⟩, ⟨1, ⟨1, true, 6⟩, 1, 0, 4⟩, ⟨2, ⟨0, false, 0⟩, 2, 5, 6⟩,
    ⟨3, ⟨1, false, 0⟩, 5, 6, 7⟩]

/-- The same history as events. -/
def twoKeysEvents : List (Event KvInput ℤ) :=
  [⟨0, .call, some ⟨0, true, 5⟩, none, 0⟩, ⟨1, .call, some ⟨1, true, 6⟩, none, 1⟩,
    ⟨2, .call, some ⟨0, false, 0⟩, none, 2⟩, ⟨0, .ret, none, some 0, 0⟩,
    ⟨1, .ret, none, some 0, 1⟩, ⟨3, .call, some ⟨1, false, 0⟩, none, 3⟩,
    ⟨2, .ret, none, some 5, 2⟩, ⟨3, .ret, none, some 6, 3⟩]

/-- Each key is a group of the operations, -/
theorem twoKeys_partition {parts : List (List ℕ)}
    (h : (KvEventPartitionModel List.reverse).partition twoKeys = some parts) :
    parts.flatten.Perm (List.range twoKeys.length) ∧ parts.length ≤ 2 ^ 32 := by
  have htwo : some [[1, 3], [0, 2]] = some parts := h
  cases htwo
  decide

/-- and of the events. -/
theorem twoKeysEvents_partition {parts : List (List ℕ)}
    (h : (KvEventPartitionModel List.reverse).partitionEvents twoKeysEvents = some parts) :
    assertPartitionEventsPaired true parts twoKeysEvents = .ok () ∧ Ascending parts := by
  have htwo : some [[1, 4, 5, 7], [0, 2, 3, 6]] = some parts := h
  cases htwo
  exact ⟨by decide, by simp [Ascending]⟩

theorem partition_agrees_twoKeys :
    (∃ r, (checker true (.insertion _) (KvEventPartitionModel List.reverse)).Returns r
        (checkOperations true (KvEventPartitionModel List.reverse) twoKeys none) ∧
      (checker true (.insertion _) (KvEventPartitionModel List.reverse).unpartitioned).Returns r
        (checkOperations true (KvEventPartitionModel List.reverse).unpartitioned twoKeys none)) ∧
    ∃ r, (checker true (.insertion _) (KvEventPartitionModel List.reverse)).Returns r
        (checkEvents true (KvEventPartitionModel List.reverse) twoKeysEvents none) ∧
      (checker true (.insertion _) (KvEventPartitionModel List.reverse).unpartitioned).Returns r
        (checkEvents true (KvEventPartitionModel List.reverse).unpartitioned twoKeysEvents none) := by
  have h := partition_agrees true (.insertion _) (KvEventPartitionModel List.reverse) KvInput.key
    (fun s k => s k) kvComponent kv_componentwise (Model.lawful_of_lawfulBEq _)
  have hops : ∀ op ∈ twoKeys, some op.input.key = some op.input.key := fun _ _ => rfl
  obtain ⟨hgroups, -⟩ := exists_parts List.reverse_perm hops
  refine ⟨h.1 twoKeys _ rfl (by decide) hgroups.toSplitsByKey (by decide) (by decide), ?_⟩
  have hkey : ∀ ev ∈ twoKeysEvents, keyById twoKeysEvents ev.id =
      some ((keyById twoKeysEvents ev.id).getD 0) := by decide
  have hcall : ∀ ev ∈ twoKeysEvents, ev.kind = .call →
      ev.input.map KvInput.key = some ((keyById twoKeysEvents ev.id).getD 0) := by decide
  obtain ⟨hsplit, hasc, -⟩ := exists_parts List.reverse_perm hkey
  refine h.2 twoKeysEvents _ (fun id => (keyById twoKeysEvents id).getD 0) rfl (by decide)
    (fun ev hev input hk hin => ?_) hsplit.toSplitsByKey hasc (by decide) (by decide)
  have hmap := hcall ev hev hk
  rw [hin] at hmap
  exact Option.some.inj hmap

end Porcupine
