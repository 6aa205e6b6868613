import Porcupine.Model.Search
import Mathlib.Data.List.Sort
import Mathlib.Order.OrderDual
/-!
# One check, as its threads see it

`check_parallel`, `spawn_timer`, `TimerHandle::cancel` and
`to_check_result` of `src/checker.rs`, and the lines of the entry points
that string them together. Every load and store of a flag, every
operation on the cancel mutex and every return from the wait is one step,
and a scheduler chooses who steps. Between two such operations a thread
works on what is its own, and that work is part of the step that opens it.
-/

namespace Porcupine

variable {State Input Output : Type}

/-- The flags of one check. -/
structure Flags where
  kill : Bool := false
  timedOut : Bool := false
  definitiveIllegal : Bool := false
  deriving DecidableEq, Repr

/-! ## Partitions -/

/-- What became of a partition. -/
inductive Outcome
  /-- `check_single` returned true. -/
  | passed
  /-- `check_single` returned false, exhausted or killed. -/
  | failed
  /-- The load before `check_single` read true. -/
  | aborted
  /-- The closure was never run. -/
  | skipped
  deriving DecidableEq, Repr

/-- Where the code that checks one partition stands. -/
inductive Task (State Input Output : Type)
  /-- About to load `kill`, before `check_single`. -/
  | queued (entries : List (Entry Input Output))
  /-- At the top of the loop of `check_single`, about to load `kill`. -/
  | searching (s : Search State Input Output)
  /-- `check_single` returned false; about to load `kill`. -/
  | exhausted
  /-- About to store `definitive_illegal`. -/
  | marking
  /-- About to store `kill`. -/
  | raising
  | finished (o : Outcome)

namespace Task

/-- `check_single` has returned. -/
def returned : Bool → Task State Input Output
  | true => .finished .passed
  | false => .exhausted

/-- What a pass of `check_single` leads to. -/
def ofPass : Search State Input Output ⊕ Bool → Task State Input Output
  | .inl s => .searching s
  | .inr b => returned b

/-- Calls `check_single`. -/
def enter (model : Model State Input Output) (entries : List (Entry Input Output)) :
    Result (Task State Input Output) := do
  return ofPass (← Search.start model entries)

/-- One step of the code that checks a partition. -/
def step [BEq State] (debug : Bool) (model : Model State Input Output) (flags : Flags) :
    Task State Input Output → Result (Task State Input Output × Flags)
  | .queued entries =>
    if flags.kill then return (.finished .aborted, flags)
    else return (← enter model entries, flags)
  | .searching s =>
    if flags.kill then return (.exhausted, flags)
    else return (ofPass (← s.step debug model), flags)
  | .exhausted => return (if flags.kill then .raising else .marking, flags)
  | .marking => return (.raising, { flags with definitiveIllegal := true })
  | .raising => return (.finished .failed, { flags with kill := true })
  | .finished o => return (.finished o, flags)

def isFinished : Task State Input Output → Bool
  | .finished _ => true
  | _ => false

/-- The closure has returned true. -/
def foundIllegal : Task State Input Output → Bool
  | .finished .failed => true
  | _ => false

end Task

/-- `sort_unstable_by_key`: sorts by the key, and leaves the order of
elements with equal keys to the implementation. -/
structure UnstableSort (α : Type) where
  sortByKey : {κ : Type} → [LinearOrder κ] → (α → κ) → List α → List α
  perm : ∀ {κ : Type} [LinearOrder κ] (key : α → κ) l, (sortByKey key l).Perm l
  sorted : ∀ {κ : Type} [LinearOrder κ] (key : α → κ) l,
    (sortByKey key l).Pairwise fun a b => key a ≤ key b

/-- Insertion sort is one. -/
def UnstableSort.insertion (α : Type) : UnstableSort α where
  sortByKey key l := l.insertionSort fun a b => key a ≤ key b
  perm key l := List.perm_insertionSort (fun a b => key a ≤ key b) l
  sorted key l := by
    have : Std.Total fun a b => key a ≤ key b := ⟨fun a b => le_total (key a) (key b)⟩
    have : IsTrans α fun a b => key a ≤ key b := ⟨fun _ _ _ => le_trans⟩
    exact List.pairwise_insertionSort _ l

/-- Where the checker's own thread stands. -/
inductive Main (State Input Output : Type)
  /-- About to spawn the timer, if any, and to call `check_parallel`. -/
  | start (timeout : Option ℕ) (partitions : List (List (Entry Input Output)))
  /-- Checking a partition itself, with others still to come. -/
  | inline (task : Task State Input Output) (rest : List (List (Entry Input Output)))
  /-- Waiting for rayon's `any`. -/
  | rayon (tasks : List (Task State Input Output))
  /-- `check_parallel` has returned `ok`. -/
  | joined (ok : Bool)
  /-- In `cancel`, about to lock the mutex. -/
  | cancelLock (ok : Bool)
  /-- In `cancel`, about to set the cancel flag. -/
  | cancelSet (ok : Bool)
  /-- In `cancel`, about to unlock the mutex. -/
  | cancelUnlock (ok : Bool)
  /-- In `cancel`, about to notify. -/
  | cancelNotify (ok : Bool)
  /-- In `to_check_result`. -/
  | reading (ok : Bool)
  /-- In `to_check_result`, about to load `timed_out`. -/
  | readTimedOut (ok : Bool)
  | returned (r : CheckResult)
  | panicked (p : Panic)

/-- Total work below which partitions are checked one after another. -/
def SEQUENTIAL_THRESHOLD : ℕ := 2000

/-- The sequential loop over the partitions, a partition's task having
moved. -/
def Main.ofTask : Task State Input Output → List (List (Entry Input Output)) →
    Main State Input Output
  | .finished .passed, [] => .joined true
  | .finished .passed, p :: rest => .inline (.queued p) rest
  | .finished _, _ => .joined false
  | task, rest => .inline task rest

/-- Enters `check_parallel`. -/
def checkParallel (srt : UnstableSort (List (Entry Input Output)))
    (model : Model State Input Output) (partitions : List (List (Entry Input Output))) :
    Result (Main State Input Output) :=
  match partitions with
  | [] => return .joined true
  | [p] => return .ofTask (← Task.enter model p) []
  | _ =>
    let ascending := srt.sortByKey List.length partitions
    let totalEntries := (ascending.map List.length).sum
    if totalEntries < SEQUENTIAL_THRESHOLD then
      match ascending with
      | [] => return .joined true
      | p :: rest => return .inline (.queued p) rest
    else
      let descending := srt.sortByKey (fun p => OrderDual.toDual p.length) ascending
      return .rayon (descending.map .queued)

/-! ## The timer -/

/-- Where the timer thread stands. -/
inductive Timer
  /-- Started, about to lock the mutex. -/
  | started (duration : ℕ)
  /-- Holds the mutex, about to wait. -/
  | locked (duration : ℕ)
  /-- In `wait_timeout`, the mutex released. -/
  | waiting (deadline : ℕ)
  /-- The wait is over; about to lock the mutex again. -/
  | woken
  /-- Holds the mutex, about to read the cancel flag. -/
  | checking
  /-- Holds the mutex, about to store `timed_out`. -/
  | storing
  /-- Holds the mutex, about to store `kill`. -/
  | killing
  /-- About to release the mutex and exit. -/
  | releasing
  | exited
  deriving DecidableEq, Repr

/-- Who holds the cancel mutex. -/
inductive Owner
  | checker
  | timer
  deriving DecidableEq, Repr

/-- **One check**: its shared memory, its threads and the time passed. -/
structure Check (State Input Output : Type) where
  flags : Flags := {}
  /-- What the cancel mutex guards. -/
  cancelled : Bool := false
  lock : Option Owner := none
  /-- The timer thread, once spawned. -/
  timer : Option Timer := none
  main : Main State Input Output
  clock : ℕ := 0

/-- Who steps next. -/
inductive Choice
  /-- The checker's own thread. -/
  | main
  /-- The closure of partition `i`, on a rayon thread. -/
  | worker (i : ℕ)
  /-- Rayon gives up on the closure of partition `i`. -/
  | skip (i : ℕ)
  /-- The timer thread, other than by returning from its wait. -/
  | timer
  /-- The wait returns because its duration has elapsed. -/
  | expire
  /-- The wait returns for no reason. -/
  | spurious
  /-- Time passes. -/
  | tick
  deriving DecidableEq, Repr

namespace Check

variable (c : Check State Input Output)

/-- `notify_one`: wakes the timer if it waits, and is forgotten if not. -/
def notify : Option Timer → Option Timer
  | some (.waiting _) => some .woken
  | timer => timer

/-- The checker's thread goes to `main`, or panics. -/
def goto : Result (Main State Input Output) → Check State Input Output
  | .ok main => { c with main }
  | .error p => { c with main := .panicked p }

/-- A step of the checker's own thread. -/
def stepMain [BEq State] (debug : Bool) (srt : UnstableSort (List (Entry Input Output)))
    (model : Model State Input Output) : Option (Check State Input Output) :=
  match c.main with
  | .start timeout partitions =>
    some <| { c with timer := timeout.map .started }.goto (checkParallel srt model partitions)
  | .inline task rest =>
    match task.step debug model c.flags with
    | .ok (task', flags) => some { c with flags, main := .ofTask task' rest }
    | .error p => some { c with main := .panicked p }
  | .rayon tasks =>
    if tasks.all Task.isFinished then
      some { c with main := .joined (!tasks.any Task.foundIllegal) }
    else none
  | .joined ok =>
    some { c with main := if c.timer.isSome then .cancelLock ok else .reading ok }
  | .cancelLock ok =>
    if c.lock.isNone then some { c with lock := some .checker, main := .cancelSet ok } else none
  | .cancelSet ok => some { c with cancelled := true, main := .cancelUnlock ok }
  | .cancelUnlock ok => some { c with lock := none, main := .cancelNotify ok }
  | .cancelNotify ok => some { c with timer := notify c.timer, main := .reading ok }
  | .reading ok =>
    if !ok && c.flags.definitiveIllegal then some { c with main := .returned .illegal }
    else some { c with main := .readTimedOut ok }
  | .readTimedOut ok =>
    some { c with main := .returned <|
      if c.flags.timedOut then .unknown else if ok then .ok else .illegal }
  | .returned _ => none
  | .panicked _ => none

/-- A step of a closure that `any` runs. -/
def stepWorker [BEq State] (debug : Bool) (model : Model State Input Output) (i : ℕ) :
    Option (Check State Input Output) :=
  match c.main with
  | .rayon tasks =>
    match tasks[i]? with
    | none | some (.finished _) => none
    | some task =>
      match task.step debug model c.flags with
      | .ok (task', flags) => some { c with flags, main := .rayon (tasks.set i task') }
      | .error p => some { c with main := .panicked p }
  | _ => none

/-- `any` skips a closure not yet run, once some closure has returned
true. -/
def stepSkip (i : ℕ) : Option (Check State Input Output) :=
  match c.main with
  | .rayon tasks =>
    match tasks[i]? with
    | some (.queued _) =>
      if tasks.any Task.foundIllegal then
        some { c with main := .rayon (tasks.set i (.finished .skipped)) }
      else none
    | _ => none
  | _ => none

/-- A step of the timer thread. -/
def stepTimer : Option (Check State Input Output) :=
  match c.timer with
  | some (.started d) =>
    if c.lock.isNone then some { c with lock := some .timer, timer := some (.locked d) } else none
  | some (.locked d) => some { c with lock := none, timer := some (.waiting (c.clock + d)) }
  | some .woken =>
    if c.lock.isNone then some { c with lock := some .timer, timer := some .checking } else none
  | some .checking =>
    some { c with timer := some (if c.cancelled then .releasing else .storing) }
  | some .storing =>
    some { c with flags := { c.flags with timedOut := true }, timer := some .killing }
  | some .killing =>
    some { c with flags := { c.flags with kill := true }, timer := some .releasing }
  | some .releasing => some { c with lock := none, timer := some .exited }
  | some (.waiting _) | some .exited | none => none

/-- The wait returns because its duration has elapsed. -/
def stepExpire : Option (Check State Input Output) :=
  match c.timer with
  | some (.waiting deadline) =>
    if deadline ≤ c.clock then some { c with timer := some .woken } else none
  | _ => none

/-- The wait returns for no reason. -/
def stepSpurious : Option (Check State Input Output) :=
  match c.timer with
  | some (.waiting _) => some { c with timer := some .woken }
  | _ => none

/-- Time passes, where there is a timer to notice. -/
def stepTick : Option (Check State Input Output) :=
  if c.timer.isSome then some { c with clock := c.clock + 1 } else none

/-- What the check has returned. -/
def result : Option CheckResult :=
  match c.main with
  | .returned r => some r
  | _ => none

end Check

/-- **A check, scheduled.** -/
def checker [BEq State] (debug : Bool) (srt : UnstableSort (List (Entry Input Output)))
    (model : Model State Input Output) :
    Transition.Machine (Check State Input Output) Choice CheckResult where
  step
    | .main, c => c.stepMain debug srt model
    | .worker i, c => c.stepWorker debug model i
    | .skip i, c => c.stepSkip i
    | .timer, c => c.stepTimer
    | .expire, c => c.stepExpire
    | .spurious, c => c.stepSpurious
    | .tick, c => c.stepTick
  result := Check.result

end Porcupine
