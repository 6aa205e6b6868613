import Porcupine.Check.Schedules
import Porcupine.Parallel.Cancellation
/-!
# One call after another

A caller makes its calls one at a time, each with flags, a mutex and a
timer thread of its own, and the timer threads of earlier calls go on
beside the later ones. What their models are of does not matter, and need
not be the same.
-/

namespace Porcupine

open Transition

/-- A call of `check_operations` or `check_events`, under way. -/
structure Call where
  {State Input Output : Type}
  [beq : BEq State]
  debug : Bool
  srt : UnstableSort (List (Entry Input Output))
  model : Model State Input Output
  check : Check State Input Output

namespace Call

attribute [instance] Call.beq

/-- The call is about to be made. -/
def IsNew (call : Call) : Prop :=
  (∃ history timeout, call.check = checkOperations call.debug call.model history timeout) ∨
    ∃ events timeout, call.check = checkEvents call.debug call.model events timeout

def hasReturned (call : Call) : Bool := call.check.stage == .returned

/-- A step of the call's threads. -/
def step (choice : Choice) (call : Call) : Option Call :=
  ((checker call.debug call.srt call.model).step choice call.check).map fun check =>
    { call with check }

/-- Time passes, where there is a timer to notice. -/
def tick (call : Call) : Call := { call with check := call.check.stepTick.getD call.check }

end Call

/-- What happens next. -/
inductive Turn
  /-- A thread of the `k`-th call steps. -/
  | call (k : ℕ) (choice : Choice)
  /-- Time passes, for all calls. -/
  | tick
  deriving DecidableEq, Repr

/-- **The calls of one caller**, each made when those before it have
returned. -/
def session : Machine (List Call) Turn Unit where
  step
    | .call k choice, calls =>
      match calls[k]? with
      | some call =>
        if choice ≠ .tick && (calls.take k).all Call.hasReturned then
          (call.step choice).map (calls.set k)
        else none
      | none => none
    | .tick, calls => some (calls.map Call.tick)
  result _ := none

/-- **Every notification finds its timer thread in the wait**, or past
it. -/
def notifiesWaiters (calls : List Call) : Turn → Bool
  | .call k choice => (calls[k]?).all fun call => call.check.notifiesWaiter choice
  | .tick => true

variable {calls calls' : List Call} {turn : Turn}

/-- **A turn keeps every call orderly.** -/
theorem orderly_step (h : ∀ call ∈ calls, call.check.Orderly)
    (hnotify : notifiesWaiters calls turn = true)
    (hs : session.step turn calls = some calls') : ∀ call ∈ calls', call.check.Orderly := by
  cases turn with
  | call k choice =>
    simp only [session] at hs
    split at hs
    · next call hk =>
      split at hs
      · obtain ⟨call', hcall, rfl⟩ := Option.map_eq_some_iff.1 hs
        obtain ⟨check, hcheck, rfl⟩ := Option.map_eq_some_iff.1 hcall
        intro x hx
        rcases List.mem_or_eq_of_mem_set hx with hx | rfl
        · exact h x hx
        · rw [notifiesWaiters, hk] at hnotify
          exact (h call (List.mem_of_getElem? hk)).step hnotify hcheck
      · cases hs
    · cases hs
  | tick =>
    cases hs
    intro x hx
    obtain ⟨call, hcall, rfl⟩ := List.mem_map.1 hx
    have horderly := h call hcall
    simp only [Call.tick, Check.stepTick]
    split
    · exact horderly.tick
    · exact horderly

/-- Calls about to be made are orderly. -/
theorem orderly_of_isNew {call : Call} (h : call.IsNew) : call.check.Orderly := by
  rcases h with ⟨history, timeout, he⟩ | ⟨events, timeout, he⟩
  · rw [he]
    exact .begin timeout _
  · rw [he]
    exact .begin timeout _

/-- **Cancellation is not lost**, in every run in which each notification
finds its timer thread in the wait: no timer thread waits once it has been
cancelled and notified, and those of calls that have come that far can all
exit, whether or not their durations elapse. -/
theorem cancellation_not_lost (calls₀ calls : List Call) (hnew : ∀ call ∈ calls₀, call.IsNew)
    (h : session.Reach (fun calls turn => notifiesWaiters calls turn = true) calls₀ calls) :
    ∀ call ∈ calls, call.check.isLeaked = false ∧
      (call.check.stage.cancelReturned = true → ∀ t, call.check.timer = some t →
        ∃ check, (checker call.debug call.srt call.model).Reach (fun _ choice => choice = .timer)
          call.check check ∧ check.timer = some .exited) := by
  have horderly : ∀ call ∈ calls, call.check.Orderly :=
    h.invariant (I := fun calls => ∀ call ∈ calls, call.check.Orderly)
      (fun call hcall => orderly_of_isNew (hnew call hcall))
      fun _ _ _ hinv hnotify hs => orderly_step hinv hnotify hs
  exact fun call hcall => ⟨(horderly call hcall).not_leaked,
    fun hret t ht => (horderly call hcall).exits hret ht⟩

/-- Two calls, to be made one after the other. -/
def twoCalls : List Call :=
  List.replicate 2
    ⟨true, .insertion _, RegisterModel, checkOperations true RegisterModel overlapping (some 5)⟩

/-- In each call the timer thread waits before the search begins. -/
def timersFirst : List Turn :=
  [0, 1].flatMap fun k =>
    .call k .main :: List.replicate 2 (.call k .timer) ++ List.replicate 11 (.call k .main)

theorem cancellation_not_lost_twoCalls : ∃ calls,
    session.runs notifiesWaiters timersFirst twoCalls = some calls ∧
    ∀ call ∈ calls, call.check.isLeaked = false ∧
      (call.check.stage.cancelReturned = true → ∀ t, call.check.timer = some t →
        ∃ check, (checker call.debug call.srt call.model).Reach (fun _ choice => choice = .timer)
          call.check check ∧ check.timer = some .exited) := by
  have hsome : (session.runs notifiesWaiters timersFirst twoCalls).isSome = true := by decide +kernel
  obtain ⟨calls, hcalls⟩ := Option.isSome_iff_exists.1 hsome
  refine ⟨calls, hcalls, cancellation_not_lost twoCalls calls (fun call hcall => ?_)
    (.of_runs (fun _ _ hp => hp) hcalls)⟩
  rw [List.eq_of_mem_replicate hcall]
  exact Or.inl ⟨overlapping, some 5, rfl⟩

/-- In each call the timer thread starts only when the call has
returned. -/
def timersLast : List Turn :=
  [0, 1].flatMap fun k => List.replicate 12 (.call k .main) ++ List.replicate 2 (.call k .timer)

/-- **A timer thread that starts late is not woken**: both calls have
returned, and both timer threads wait out their durations. -/
theorem cancellation_lost_twoCalls : ∃ calls, session.Reachable twoCalls calls ∧
    calls.length = 2 ∧ ∀ call ∈ calls, call.check.isLeaked = true := by
  have hrun : (session.runs (fun _ _ => true) timersLast twoCalls).map (fun calls =>
      calls.map fun call => call.check.isLeaked) = some [true, true] := by decide +kernel
  obtain ⟨calls, hcalls, hmap⟩ := Option.map_eq_some_iff.1 hrun
  refine ⟨calls, .of_runs (fun _ _ _ => trivial) hcalls, ?_, fun call hcall => ?_⟩
  · simpa using congrArg List.length hmap
  · have hmem : call.check.isLeaked ∈ [true, true] := hmap ▸ List.mem_map_of_mem hcall
    simpa using hmem

end Porcupine
