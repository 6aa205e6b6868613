import Porcupine.Search.Hashing
import Porcupine.Search.Pruning
/-!
# Nothing is explored twice

The search goes down only where no cache entry answers, and every node it
has gone down to is in the cache under a key that the set determines. So of
two lifts in one run of `check_single` the later never leads to the set of
the earlier and a state `==` to its state (`explored_once`), whatever `==`
is.
-/

namespace Porcupine

open Backtrack

variable {State Input Output : Type} [BEq State]

/-- A pass that lifts an operation: the stack grows. -/
def Search.Lifts (debug : Bool) (model : Model State Input Output)
    (s s' : Search State Input Output) : Prop :=
  s.step debug model = .ok (.inl s') ∧ s'.calls.length = s.calls.length + 1

variable {debug : Bool} {model : Model State Input Output} {entries : List (Entry Input Output)}
variable {n : ℕ} {s s' : Search State Input Output} {cfg : Config (Prefix State) ℕ}

/-- A lift goes down to a node that no memo node answers for, where all
candidates wait. -/
theorem Sim.lifts (h : Sim entries n debug s cfg) (hpair : Paired entries n)
    (hsize : entries.length < NONE) (hlift : s.Lifts debug model s') :
    ∃ cfg', Sim entries n debug s' cfg' ∧ cfg'.memo = cfg'.node :: cfg.memo ∧
      (∀ m ∈ cfg.memo, ¬ (searchProblem model entries).same m cfg'.node) ∧
      cfg'.rest = (searchProblem model entries).candidates cfg'.node := by
  obtain ⟨cfg', hstep, h'⟩ := h.pass hpair hsize hlift.1
  have hlen : cfg.stack.length < cfg'.stack.length := by
    rw [← h.calls.length_eq, ← h'.calls.length_eq, hlift.2]
    exact Nat.lt_succ_self _
  exact ⟨cfg', h', hstep.descends hlen⟩

/-- **No pair of a set and a state is explored twice.** Of two lifts the
later never reaches the set of the earlier and a state `==` to its state;
and the key of a probe depends on the resulting set only. -/
theorem explored_once (debug : Bool) (model : Model State Input Output)
    (entries : List (Entry Input Output)) (n : ℕ) (hpair : Paired entries n)
    (hsize : entries.length < 2 ^ 32 - 1) :
    (∀ s₀ s s' t t', Search.start model entries = .ok (.inl s₀) →
      (checkSingle debug model).Reachable s₀ s → s.Lifts debug model s' →
      (checkSingle debug model).Reachable s' t → t.Lifts debug model t' →
      ¬ (s'.linearized = t'.linearized ∧ (s'.state == t'.state) = true)) ∧
    ∀ (b b' : Bitset) (pos pos' : ℕ), pos < 64 * b.data.length → pos' < 64 * b'.data.length →
      b.has pos = false → b'.has pos' = false →
      (∀ i, (b.has i || decide (i = pos)) = (b'.has i || decide (i = pos'))) →
      b.hashWithBit pos = b'.hashWithBit pos' := by
  refine ⟨fun s₀ s s' t t' hstart hreach hlift hreach' hlift' => ?_,
    fun b b' pos pos' => Bitset.hashWithBit_congr⟩
  have hsim₀ : Sim entries n debug s₀ _ := hpair.sim_start hsize hstart
  obtain ⟨cfg, hsim, -⟩ := hsim₀.invariant (I := fun _ => True) hpair hsize trivial
    (fun _ _ _ _ => trivial) hreach
  obtain ⟨cfg', hsim', hmemo, -⟩ := hsim.lifts hpair hsize hlift
  -- the node of the earlier lift stays in the memo
  obtain ⟨cfg₁, hsim₁, hmem⟩ := hsim'.invariant (I := fun cfg => cfg'.node ∈ cfg.memo) hpair hsize
    (hmemo ▸ List.mem_cons_self) (fun _ _ hmem hstep => hstep.memo_subset _ hmem) hreach'
  obtain ⟨cfg₂, hsim₂, -, hnew, -⟩ := hsim₁.lifts hpair hsize hlift'
  rintro ⟨hbits, hstate⟩
  refine hnew _ hmem ⟨fun i => ?_, ?_⟩
  · rw [← decide_eq_decide, ← hsim'.bits.has, ← hsim₂.bits.has, hbits]
  · rw [← hsim'.state, ← hsim₂.state]
    exact hstate

/-- The two writes are lifted one after the other. -/
theorem explored_once_sameWrites : ∃ s₀ s t, Search.start RegisterModel (makeEntries sameWrites) =
      .ok (.inl s₀) ∧ s₀.Lifts true RegisterModel s ∧ s.Lifts true RegisterModel t ∧
    ¬ (s.linearized = t.linearized ∧ (s.state == t.state) = true) ∧
    (Bitset.mk [1#64]).hashWithBit 1 = (Bitset.mk [2#64]).hashWithBit 0 := by
  have hrun : ((Search.start RegisterModel (makeEntries sameWrites)).toOption.bind
      Sum.getLeft?).any (fun s₀ => ((checkSingle true RegisterModel).step () s₀).any fun s =>
        ((checkSingle true RegisterModel).step () s).any fun t =>
          s.calls.length == s₀.calls.length + 1 && t.calls.length == s.calls.length + 1) = true := by
    decide +kernel
  obtain ⟨s₀, hstart, hrun⟩ := (Option.any_eq_true _ _).1 hrun
  obtain ⟨s, hs, hrun⟩ := (Option.any_eq_true _ _).1 hrun
  obtain ⟨t, ht, hrun⟩ := (Option.any_eq_true _ _).1 hrun
  obtain ⟨hlen, hlen'⟩ := Bool.and_eq_true_iff.1 hrun
  have hlift : s₀.Lifts true RegisterModel s := ⟨checkSingle_step.1 hs, eq_of_beq hlen⟩
  have hlift' : s.Lifts true RegisterModel t := ⟨checkSingle_step.1 ht, eq_of_beq hlen'⟩
  have h := explored_once true RegisterModel (makeEntries sameWrites) 3
    makeEntries_arranged.paired (by decide)
  have hpair := h.1 s₀ s₀ s s t (start_eq_some.1 hstart) .refl hlift .refl hlift'
  refine ⟨s₀, s, t, start_eq_some.1 hstart, hlift, hlift', hpair, ?_⟩
  refine h.2 ⟨[1#64]⟩ ⟨[2#64]⟩ 1 0 (by decide) (by decide) (by decide) (by decide) fun i => ?_
  obtain ⟨c, hc, -, hhas⟩ := @Bitset.has_set ⟨[1#64]⟩ 1 (by decide)
  obtain ⟨c', hc', -, hhas'⟩ := @Bitset.has_set ⟨[2#64]⟩ 0 (by decide)
  have hcc : c = c' := Except.ok.inj (hc.symm.trans ((by decide : _ = _).trans hc'))
  rw [Bool.or_comm, ← hhas, hcc, hhas', Bool.or_comm]

end Porcupine
