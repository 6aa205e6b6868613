import Porcupine.Check.Contract
import Porcupine.Check.Locality
import Porcupine.Check.PowerSet
import Porcupine.Common.Product
/-!
# Partitioned nondeterministic specifications

A specification whose branches on one key do not concern another key can be
partitioned by key like a deterministic one
(`powerSetModel_partition_agrees`). The power-set model is no help in
showing it, since its states mix the branches of all keys: that the groups
may be checked apart is read off the product that keeps the possible states
of each key, which accepts the same histories.
-/

namespace Porcupine

open Linearization

variable {State Input Output κ γ : Type} {key : Input → κ} {view : State → κ → γ}
variable {component : γ → Input × Output → List γ}
variable {m : NondeterministicModel State Input Output}
variable {history : List (Operation Input Output)}

/-- A key's initial states can be combined with those of any other key. -/
def MixesInit (m : NondeterministicModel State Input Output) (view : State → κ → γ) : Prop :=
  ∀ f : κ → State, (∀ k, f k ∈ m.init) → ∃ s ∈ m.init, ∀ k, view s k = view (f k) k

/-- **The product of the keys' power sets**, as a model. -/
noncomputable def productModel [DecidableEq κ] (m : NondeterministicModel State Input Output)
    (key : Input → κ) (view : State → κ → γ) (component : γ → Input × Output → List γ) :
    Model (κ → Set γ) Input Output where
  init k := {c | ∃ s ∈ m.init, view s k = c}
  step css input output := productStep (fun io : Input × Output => key io.1) component css (input, output)

section Product

variable [DecidableEq κ]

theorem productModel_componentwise :
    Componentwise (productModel m key view component).apply (fun io => key io.1)
      (fun css k => css k) (setStep component) :=
  productStep_componentwise

/-- **The product linearizes what the specification does.** -/
theorem historyLinearizable_productModel
    (h : Branchwise (fun s (io : Input × Output) => m.step s io.1 io.2) (fun io => key io.1) view
      component) (hne : m.init ≠ []) (hmix : MixesInit m view) :
    HistoryLinearizable (productModel m key view component) history ↔
      m.HistoryLinearizable history := by
  have hops : Branchwise (fun s (op : Operation Input Output) => m.step s op.input op.output)
      (fun op => key op.input) view fun c op => component c op.io :=
    ⟨fun s op => h.step_self s op.io, fun s op => h.step_frame s op.io,
      fun s op => h.exists_step s op.io⟩
  refine exists_congr fun order => and_congr_right fun _ => and_congr_right fun _ => ?_
  exact hops.accepts_product_iff hne hmix

variable [BEq State] [LawfulBEq State]

/-- So does the power-set model, which is the same by another way. -/
theorem historyLinearizable_powerSetModel_iff_product
    (h : Branchwise (fun s (io : Input × Output) => m.step s io.1 io.2) (fun io => key io.1) view
      component) (hne : m.init ≠ []) (hmix : MixesInit m view) :
    HistoryLinearizable (PowerSetModel m) history ↔
      HistoryLinearizable (productModel m key view component) history :=
  (historyLinearizable_powerSetModel (Or.inr hne)).trans
    (historyLinearizable_productModel h hne hmix).symm

theorem eventsLinearizable_powerSetModel_iff_product {events : List (Event Input Output)}
    (h : Branchwise (fun s (io : Input × Output) => m.step s io.1 io.2) (fun io => key io.1) view
      component) (hne : m.init ≠ []) (hmix : MixesInit m view) :
    EventsLinearizable (PowerSetModel m) events ↔
      EventsLinearizable (productModel m key view component) events :=
  exists_congr fun _ => and_congr_right fun _ =>
    historyLinearizable_powerSetModel_iff_product h hne hmix

end Product

variable [BEq State] [LawfulBEq State]

/-- **P-compositionality of nondeterministic specifications**: where the
branches of a key do not concern another, both entry points return for a
partition by key what they return with partitioning disabled. -/
theorem powerSetModel_partition_agrees (debug : Bool)
    (srt : UnstableSort (List (Entry Input Output))) (m : NondeterministicModel State Input Output)
    (key : Input → κ) (view : State → κ → γ) (component : γ → Input × Output → List γ)
    (hb : Branchwise (fun s (io : Input × Output) => m.step s io.1 io.2) (fun io => key io.1) view
      component) (hne : m.init ≠ []) (hmix : MixesInit m view) :
    (∀ (history : List (Operation Input Output)) (parts : List (List ℕ)),
      m.partition history = some parts → parts.length ≤ 2 ^ 32 →
      SplitsByKey (fun op : Operation Input Output => key op.input) history parts →
      (∀ op ∈ history, op.call ≤ op.returnTime) → history.length ≤ 2 ^ 31 - 1 →
      ∃ r, (checker debug srt (PowerSetModel m)).Returns r
          (checkOperations debug (PowerSetModel m) history none) ∧
        (checker debug srt (PowerSetModel m).unpartitioned).Returns r
          (checkOperations debug (PowerSetModel m).unpartitioned history none)) ∧
    (∀ (events : List (Event Input Output)) (parts : List (List ℕ)) (keyOf : ℕ → κ),
      m.partitionEvents events = some parts → parts.length ≤ 2 ^ 32 →
      (∀ ev ∈ events, ∀ input, ev.kind = .call → ev.input = some input →
        key input = keyOf ev.id) →
      SplitsByKey (fun ev : Event Input Output => keyOf ev.id) events parts → Ascending parts →
      assertWellFormedEvents true events = .ok () → events.length ≤ 2 * (2 ^ 31 - 1) →
      ∃ r, (checker debug srt (PowerSetModel m)).Returns r
          (checkEvents debug (PowerSetModel m) events none) ∧
        (checker debug srt (PowerSetModel m).unpartitioned).Returns r
          (checkEvents debug (PowerSetModel m).unpartitioned events none)) := by
  classical
  have hlaw : (PowerSetModel m).Lawful := Model.lawful_of_lawfulBEq _
  have hprod : Componentwise (productModel m key view component).apply (fun io => key io.1)
      (fun css k => css k) (setStep component) := productModel_componentwise
  refine ⟨fun history parts hpart hcount hsplit hwf hsize => ?_,
    fun events parts keyOf hpart hcount hkey hsplit hasc hgate hsize => ?_⟩
  · have hgroups : Decides (checker debug srt (PowerSetModel m))
        (checkOperations debug (PowerSetModel m) history none)
        (∀ g ∈ parts, HistoryLinearizable (PowerSetModel m) (pick history g)) :=
      (prepares_operations_partition debug hpart hsplit.covers hcount hwf (by omega)).decides hlaw
    have hwhole : Decides (checker debug srt (PowerSetModel m).unpartitioned)
        (checkOperations debug (PowerSetModel m).unpartitioned history none)
        (HistoryLinearizable (PowerSetModel m) history) :=
      (prepares_operations debug rfl hwf (by omega)).decides hlaw
    refine (hgroups.congr ?_).agree hwhole
    rw [historyLinearizable_powerSetModel_iff_product hb hne hmix,
      hsplit.historyLinearizable_iff hprod hwf]
    exact forall₂_congr fun g _ => historyLinearizable_powerSetModel_iff_product hb hne hmix
  · obtain ⟨hp, hfirst⟩ := assertWellFormedEvents_iff.1 hgate
    have hacc : Accepted events parts :=
      ⟨hp, hfirst, hsplit.eventPartition hp, hcount, by rw [NONE]; omega⟩
    have hgroups : Decides (checker debug srt (PowerSetModel m))
        (checkEvents debug (PowerSetModel m) events none)
        (∀ g ∈ parts, EventsLinearizable (PowerSetModel m) (pick events g)) :=
      (hacc.prepares debug hpart (hacc.callsFirst_pick hasc)).decides hlaw
    have hwhole : Decides (checker debug srt (PowerSetModel m).unpartitioned)
        (checkEvents debug (PowerSetModel m).unpartitioned events none)
        (EventsLinearizable (PowerSetModel m) events) :=
      (prepares_events debug rfl hp hfirst (by rw [NONE]; omega)).decides hlaw
    refine (hgroups.congr ?_).agree hwhole
    rw [eventsLinearizable_powerSetModel_iff_product hb hne hmix,
      hsplit.eventsLinearizable_iff hkey hprod hasc hp hfirst]
    exact forall₂_congr fun g _ => eventsLinearizable_powerSetModel_iff_product hb hne hmix

/-- Two registers that may lose a write, of which either may start at one,
partitioned by key. Events on the second have odd ids. -/
def LossyNdStore : NondeterministicModel (Bool → ℤ) (Bool × LossyInput) (Option ℤ) where
  init := [fun _ => 0, fun k => if k then 1 else 0, fun k => if k then 0 else 1, fun _ => 1]
  step state input output :=
    (LossyNdRegister.step (state input.1) input.2 output).map (Function.update state input.1)
  partition history := some ([false, true].map fun k => positionsOf (fun op => op.input.1) history k)
  partitionEvents events :=
    some ([false, true].map fun k => positionsOf (fun ev => decide (ev.id % 2 = 1)) events k)

theorem lossyNdStore_branchwise :
    Branchwise (fun s (io : (Bool × LossyInput) × Option ℤ) => LossyNdStore.step s io.1 io.2)
      (fun io => io.1.1) (fun s k => s k) fun c io => LossyNdRegister.step c io.1.2 io.2 where
  step_self s io t ht := by
    obtain ⟨c, hc, rfl⟩ := List.mem_map.1 ht
    rwa [Function.update_self]
  step_frame s io t k ht hk := by
    obtain ⟨c, -, rfl⟩ := List.mem_map.1 ht
    exact Function.update_of_ne hk _ _
  exists_step s io c hc := ⟨_, List.mem_map_of_mem hc, Function.update_self _ _ _⟩

theorem lossyNdStore_mixesInit : MixesInit LossyNdStore fun s k => s k := by
  have hval : ∀ s ∈ LossyNdStore.init, ∀ k, s k = 0 ∨ s k = 1 := by
    intro s hs k
    simp only [LossyNdStore, List.mem_cons, List.not_mem_nil, or_false] at hs
    rcases hs with rfl | rfl | rfl | rfl <;> cases k <;> simp
  intro f hf
  have hext : ∀ g : Bool → ℤ, g false = f false false → g true = f true true →
      g ∈ LossyNdStore.init → ∃ s ∈ LossyNdStore.init, ∀ k, s k = f k k :=
    fun g h₀ h₁ hg => ⟨g, hg, fun k => by cases k <;> assumption⟩
  rcases hval _ (hf false) false with h₀ | h₀ <;> rcases hval _ (hf true) true with h₁ | h₁
  · exact hext (fun _ => 0) h₀.symm h₁.symm (by simp [LossyNdStore])
  · exact hext (fun k => if k then 1 else 0) h₀.symm h₁.symm (by simp [LossyNdStore])
  · exact hext (fun k => if k then 0 else 1) h₀.symm h₁.symm (by simp [LossyNdStore])
  · exact hext (fun _ => 1) h₀.symm h₁.symm (by simp [LossyNdStore])

/-- Writes to both registers, one of them lost. -/
def lostKeyedWrite : List (Operation (Bool × LossyInput) (Option ℤ)) :=
  [⟨0, (false, .write 5), 0, none, 2⟩, ⟨1, (true, .write 6), 1, none, 3⟩,
    ⟨0, (false, .read), 4, some 1, 6⟩, ⟨1, (true, .read), 5, some 6, 7⟩]

/-- The same history as events. -/
def lostKeyedWriteEvents : List (Event (Bool × LossyInput) (Option ℤ)) :=
  [⟨0, .call, some (false, .write 5), none, 0⟩, ⟨1, .call, some (true, .write 6), none, 1⟩,
    ⟨0, .ret, none, some none, 0⟩, ⟨1, .ret, none, some none, 1⟩,
    ⟨0, .call, some (false, .read), none, 2⟩, ⟨1, .call, some (true, .read), none, 3⟩,
    ⟨0, .ret, none, some (some 1), 2⟩, ⟨1, .ret, none, some (some 6), 3⟩]

theorem powerSetModel_partition_agrees_lost :
    (∃ r, (checker true (.insertion _) (PowerSetModel LossyNdStore)).Returns r
        (checkOperations true (PowerSetModel LossyNdStore) lostKeyedWrite none) ∧
      (checker true (.insertion _) (PowerSetModel LossyNdStore).unpartitioned).Returns r
        (checkOperations true (PowerSetModel LossyNdStore).unpartitioned lostKeyedWrite none)) ∧
    ∃ r, (checker true (.insertion _) (PowerSetModel LossyNdStore)).Returns r
        (checkEvents true (PowerSetModel LossyNdStore) lostKeyedWriteEvents none) ∧
      (checker true (.insertion _) (PowerSetModel LossyNdStore).unpartitioned).Returns r
        (checkEvents true (PowerSetModel LossyNdStore).unpartitioned lostKeyedWriteEvents none) := by
  have h := powerSetModel_partition_agrees true (.insertion _) LossyNdStore Prod.fst
    (fun s k => s k) _ lossyNdStore_branchwise nofun lossyNdStore_mixesInit
  refine ⟨h.1 lostKeyedWrite _ rfl (by decide) ⟨by decide, by decide⟩ (by decide) (by decide), ?_⟩
  refine h.2 lostKeyedWriteEvents _ (fun id => decide (id % 2 = 1)) rfl (by decide)
    (fun ev hev input hk hin => ?_) ⟨by decide, by decide⟩ (by unfold Ascending; decide)
    (by decide) (by decide)
  have hcall : ∀ ev ∈ lostKeyedWriteEvents, ev.kind = .call →
      ev.input.map Prod.fst = some (decide (ev.id % 2 = 1)) := by decide
  have hmap := hcall ev hev hk
  rw [hin] at hmap
  exact Option.some.inj hmap

end Porcupine
