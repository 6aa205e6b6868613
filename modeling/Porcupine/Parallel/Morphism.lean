import Porcupine.Model.Checker
/-!
# A map of states, carried through a check

A map of states that takes the initial state to the initial state,
commutes with the step and neither joins nor parts states for `==`
commutes with every pass of the search, hence with every step of a task
and of a thread. So a check of one model is, step for step, the image of
a check of the other (`Embedding.checker_maps`), on any input at all.
-/

namespace Porcupine

open Transition

variable {State State' Input Output : Type} {model : Model State Input Output}
variable {model' : Model State' Input Output} {f : State → State'}

/-- A computation whose continuation is an image is the image of the
computation. -/
theorem Result.bind_eq_map {α β γ : Type} {x : Result α} {g : α → Result β} {g' : α → Result γ}
    {φ : β → γ} (h : ∀ a, g' a = (g a).map φ) : (x >>= g') = (x >>= g).map φ := by
  cases x with
  | error p => rfl
  | ok a => exact h a

/-- **A map of states under which one model is another.** -/
structure Morphism (model : Model State Input Output) (model' : Model State' Input Output)
    (f : State → State') : Prop where
  init : model'.init = f model.init
  step : ∀ s input output, model'.step (f s) input output = (model.step s input output).map f
  partition : model'.partition = model.partition
  partitionEvents : model'.partitionEvents = model.partitionEvents

/-- One that `==` does not notice. -/
structure Embedding [BEq State] [BEq State'] (model : Model State Input Output)
    (model' : Model State' Input Output) (f : State → State') : Prop
    extends Morphism model model' f where
  beq : ∀ s t, (f s == f t) = (s == t)

/-! ## The states of a check, state by state -/

def CacheEntry.map (f : State → State') (e : CacheEntry State) : CacheEntry State' :=
  ⟨e.linearized, f e.state⟩

def CallFrame.map (f : State → State') (frame : CallFrame State) : CallFrame State' :=
  ⟨frame.nodeRef, f frame.state⟩

def Search.map (f : State → State') (s : Search State Input Output) :
    Search State' Input Output where
  arena := s.arena
  linearized := s.linearized
  cache := List.map (CacheEntry.map f) ∘ s.cache
  calls := s.calls.map (CallFrame.map f)
  state := f s.state
  cursor := s.cursor

def Task.map (f : State → State') : Task State Input Output → Task State' Input Output
  | .queued entries => .queued entries
  | .searching s => .searching (s.map f)
  | .exhausted => .exhausted
  | .marking => .marking
  | .raising => .raising
  | .finished o => .finished o

def Main.map (f : State → State') : Main State Input Output → Main State' Input Output
  | .start timeout partitions => .start timeout partitions
  | .inline task rest => .inline (task.map f) rest
  | .rayon tasks => .rayon (tasks.map (Task.map f))
  | .joined ok => .joined ok
  | .cancelLock ok => .cancelLock ok
  | .cancelSet ok => .cancelSet ok
  | .cancelUnlock ok => .cancelUnlock ok
  | .cancelNotify ok => .cancelNotify ok
  | .reading ok => .reading ok
  | .readTimedOut ok => .readTimedOut ok
  | .returned r => .returned r
  | .panicked p => .panicked p

def Check.map (f : State → State') (c : Check State Input Output) : Check State' Input Output where
  flags := c.flags
  cancelled := c.cancelled
  lock := c.lock
  timer := c.timer
  main := c.main.map f
  clock := c.clock

/-! ## The search -/

section Search

variable {s : Search State Input Output}

@[simp] theorem Search.map_state : (s.map f).state = f s.state := rfl

@[simp] theorem Search.map_linearized : (s.map f).linearized = s.linearized := rfl

@[simp] theorem Search.map_cursor : (s.map f).cursor = s.cursor := rfl

@[simp] theorem Search.map_cache {hash : BitVec 64} :
    (s.map f).cache hash = (s.cache hash).map (CacheEntry.map f) := rfl

/-- A push of the image is the image of the push, -/
theorem Cache.push_map (cache : Cache State) (hash : BitVec 64) (e : CacheEntry State) :
    Cache.push (List.map (CacheEntry.map f) ∘ cache) hash (e.map f) =
      List.map (CacheEntry.map f) ∘ cache.push hash e := by
  rw [push, push, Function.comp_update, List.map_append, List.map_singleton, Function.comp_apply]

/-- and a lift of the image is undone as the lift is. -/
theorem Search.backtrack_map (debug : Bool) (f : State → State')
    (s : Search State Input Output) :
    (s.map f).backtrack debug = (s.backtrack debug).map (Sum.map (Search.map f) id) := by
  unfold backtrack
  cases hcalls : s.calls with
  | nil => simp [map, hcalls, Except.map]
  | cons frame calls =>
    simp only [map, hcalls, List.map_cons]
    exact Result.bind_eq_map fun node => Result.bind_eq_map fun linearized =>
      Result.bind_eq_map fun arena => Result.bind_eq_map fun cursor => rfl

variable [BEq State] [BEq State']

namespace Embedding

/-- The cache holds the image of a state where it holds the state. -/
theorem cacheContains_map (h : Embedding model model' f) (s : Search State Input Output)
    (hash : BitVec 64) (bitset : Bitset) (bitPos : ℕ) (t : State) :
    cacheContainsWithBit (s.map f).cache hash bitset bitPos (f t) =
      cacheContainsWithBit s.cache hash bitset bitPos t := by
  unfold cacheContainsWithBit
  rw [Search.map_cache, List.any_map]
  exact List.any_congr rfl fun e => congrArg _ (h.beq e.state t)

/-- A candidate is tried alike, -/
theorem tryCall_map (h : Embedding model model' f) (debug : Bool) (s : Search State Input Output)
    (idx retRef : ℕ) : (s.map f).tryCall debug model' idx retRef =
      (s.tryCall debug model idx retRef).map (Search.map f) := by
  refine Result.bind_eq_map fun node => Result.bind_eq_map fun ret =>
    Result.bind_eq_map fun io => ?_
  simp only [Search.map_state, h.step]
  cases model.step s.state io.1 io.2 with
  | none => exact Result.bind_eq_map fun cursor => rfl
  | some t =>
    refine Result.bind_eq_map fun hash => ?_
    simp only [Search.map_linearized, h.cacheContains_map]
    split
    · refine Result.bind_eq_map fun newLinearized => Result.bind_eq_map fun linearized =>
        Result.bind_eq_map fun arena => Result.bind_eq_map fun cursor => ?_
      -- the two states differ in how the cache has been pushed to
      simp only [Result.pure_eq, Except.map, Search.map]
      congr 2
      exact Cache.push_map s.cache hash ⟨newLinearized, t⟩
    · exact Result.bind_eq_map fun cursor => rfl

/-- **and so goes every pass.** -/
theorem step_map (h : Embedding model model' f) (debug : Bool) (s : Search State Input Output) :
    (s.map f).step debug model' = (s.step debug model).map (Sum.map (Search.map f) id) := by
  unfold Search.step
  rw [Search.map_cursor]
  cases s.cursor with
  | none => rfl
  | some idx =>
    refine Result.bind_eq_map fun ret => ?_
    cases ret with
    | none => exact Search.backtrack_map debug f s
    | some retRef =>
      simp only [h.tryCall_map]
      cases s.tryCall debug model idx retRef with
      | error p => rfl
      | ok t => rfl

end Embedding

end Search

/-! ## Tasks and threads -/

section Threads

variable {task : Task State Input Output}

theorem Task.ofPass_map (pass : Search State Input Output ⊕ Bool) :
    Task.ofPass (pass.map (Search.map f) id) = (Task.ofPass pass).map f := by
  rcases pass with s | b
  · rfl
  · cases b <;> rfl

theorem Main.ofTask_map (task : Task State Input Output)
    (rest : List (List (Entry Input Output))) :
    Main.ofTask (task.map f) rest = (Main.ofTask task rest).map f := by
  cases task with
  | finished o => cases o <;> cases rest <;> rfl
  | _ => rfl

@[simp] theorem Task.isFinished_map : (task.map f).isFinished = task.isFinished := by
  cases task <;> rfl

@[simp] theorem Task.foundIllegal_map : (task.map f).foundIllegal = task.foundIllegal := by
  cases task with
  | finished o => cases o <;> rfl
  | _ => rfl

theorem all_isFinished_map (tasks : List (Task State Input Output)) :
    (tasks.map (Task.map f)).all Task.isFinished = tasks.all Task.isFinished := by
  rw [List.all_map]
  exact List.all_congr rfl fun _ => Task.isFinished_map

theorem any_foundIllegal_map (tasks : List (Task State Input Output)) :
    (tasks.map (Task.map f)).any Task.foundIllegal = tasks.any Task.foundIllegal := by
  rw [List.any_map]
  exact List.any_congr rfl fun _ => Task.foundIllegal_map

/-- What precedes the search goes alike. -/
theorem Morphism.start_map (h : Morphism model model' f) (entries : List (Entry Input Output)) :
    Search.start model' entries =
      (Search.start model entries).map (Sum.map (Search.map f) id) := by
  unfold Search.start
  split
  · rfl
  · refine Result.bind_eq_map fun arena => Result.bind_eq_map fun cursor => ?_
    rw [h.init]
    rfl

theorem Morphism.enter_map (h : Morphism model model' f) (entries : List (Entry Input Output)) :
    Task.enter model' entries = (Task.enter model entries).map (Task.map f) := by
  unfold Task.enter
  rw [h.start_map]
  cases Search.start model entries with
  | error p => rfl
  | ok pass => exact congrArg Except.ok (Task.ofPass_map pass)

theorem Morphism.checkParallel_map (h : Morphism model model' f)
    (srt : UnstableSort (List (Entry Input Output)))
    (partitions : List (List (Entry Input Output))) :
    checkParallel srt model' partitions = (checkParallel srt model partitions).map (Main.map f) := by
  unfold checkParallel
  split
  · rfl
  · next p =>
    rw [h.enter_map]
    cases Task.enter model p with
    | error p => rfl
    | ok task => exact congrArg Except.ok (Main.ofTask_map task [])
  · simp only []
    split
    · split <;> rfl
    · simp only [Result.pure_eq, Except.map, Main.map, List.map_map]
      rfl

variable [BEq State] [BEq State'] (debug : Bool)

/-- **A step of a task goes alike,** -/
theorem Embedding.taskStep_map (h : Embedding model model' f) (flags : Flags)
    (task : Task State Input Output) : (task.map f).step debug model' flags =
      (task.step debug model flags).map (Prod.map (Task.map f) id) := by
  cases task with
  | queued entries =>
    simp only [Task.map, Task.step]
    split
    · rfl
    · rw [h.enter_map]
      cases Task.enter model entries with
      | error p => rfl
      | ok task => rfl
  | searching s =>
    simp only [Task.map, Task.step]
    split
    · rfl
    · rw [h.step_map]
      cases s.step debug model with
      | error p => rfl
      | ok pass => exact congrArg (fun task => Except.ok (task, flags)) (Task.ofPass_map pass)
  | exhausted =>
    simp only [Task.map, Task.step]
    split <;> rfl
  | marking => rfl
  | raising => rfl
  | finished o => rfl

/-- a step of the checker's own thread, -/
theorem Embedding.stepMain_map (h : Embedding model model' f)
    (srt : UnstableSort (List (Entry Input Output))) (c : Check State Input Output) :
    (c.map f).stepMain debug srt model' = (c.stepMain debug srt model).map (Check.map f) := by
  obtain ⟨flags, cancelled, lock, timer, main, clock⟩ := c
  cases main with
  | start timeout partitions =>
    simp only [Check.map, Main.map, Check.stepMain, h.checkParallel_map]
    cases checkParallel srt model partitions with
    | error p => rfl
    | ok main => rfl
  | inline task rest =>
    simp only [Check.map, Main.map, Check.stepMain, h.taskStep_map]
    cases task.step debug model flags with
    | error p => rfl
    | ok moved =>
      obtain ⟨task', flags'⟩ := moved
      simp only [Except.map, Prod.map, id, Main.ofTask_map, Option.map_some, Check.map]
  | rayon tasks =>
    simp only [Check.map, Main.map, Check.stepMain, all_isFinished_map, any_foundIllegal_map]
    split <;> rfl
  | joined ok =>
    cases timer with
    | none => rfl
    | some timer => rfl
  | cancelLock ok => cases lock <;> rfl
  | reading ok =>
    obtain ⟨kill, timedOut, definitiveIllegal⟩ := flags
    cases ok <;> cases definitiveIllegal <;> rfl
  | _ => rfl

/-- a step of a closure -/
theorem Embedding.stepWorker_map (h : Embedding model model' f) (i : ℕ)
    (c : Check State Input Output) :
    (c.map f).stepWorker debug model' i = (c.stepWorker debug model i).map (Check.map f) := by
  obtain ⟨flags, cancelled, lock, timer, main, clock⟩ := c
  cases main with
  | rayon tasks =>
    simp only [Check.map, Main.map, Check.stepWorker, List.getElem?_map]
    cases tasks[i]? with
    | none => rfl
    | some task =>
      have hstep := h.taskStep_map debug flags task
      rcases hok : task.step debug model flags with p | ⟨task', flags'⟩
      all_goals
        rw [hok] at hstep
        cases task with
        | finished o => rfl
        | _ =>
          simp only [Task.map] at hstep
          simp only [Option.map_some, Task.map, hok, hstep]
          simp only [Except.map, Prod.map, id, Check.map, Main.map, List.map_set]
  | _ => rfl

omit [BEq State] [BEq State'] in
/-- **and the skip of one.** -/
theorem Check.stepSkip_map (i : ℕ) (c : Check State Input Output) :
    (c.map f).stepSkip i = (c.stepSkip i).map (Check.map f) := by
  obtain ⟨flags, cancelled, lock, timer, main, clock⟩ := c
  cases main with
  | rayon tasks =>
    simp only [Check.map, Main.map, Check.stepSkip, List.getElem?_map, any_foundIllegal_map]
    cases tasks[i]? with
    | none => rfl
    | some task =>
      cases task with
      | queued entries =>
        simp only [Option.map_some, Task.map]
        split
        · simp only [Option.map_some, Check.map, Main.map, List.map_set, Task.map]
        · rfl
      | _ => rfl
  | _ => rfl

omit [BEq State] [BEq State'] in
/-- The timer does not look at the tasks. -/
theorem Check.stepTimer_map (c : Check State Input Output) :
    (c.map f).stepTimer = c.stepTimer.map (Check.map f) := by
  obtain ⟨flags, cancelled, lock, timer, main, clock⟩ := c
  unfold stepTimer Check.map
  cases timer with
  | none => rfl
  | some timer =>
    cases timer with
    | started d => cases lock <;> rfl
    | woken => cases lock <;> rfl
    | _ => rfl

omit [BEq State] [BEq State'] in
theorem Check.stepExpire_map (c : Check State Input Output) :
    (c.map f).stepExpire = c.stepExpire.map (Check.map f) := by
  obtain ⟨flags, cancelled, lock, timer, main, clock⟩ := c
  cases timer with
  | none => rfl
  | some timer =>
    cases timer with
    | waiting deadline =>
      simp only [Check.map, Check.stepExpire, apply_ite (Option.map _), Option.map_some,
        Option.map_none]
      rfl
    | _ => rfl

omit [BEq State] [BEq State'] in
theorem Check.stepSpurious_map (c : Check State Input Output) :
    (c.map f).stepSpurious = c.stepSpurious.map (Check.map f) := by
  obtain ⟨flags, cancelled, lock, timer, main, clock⟩ := c
  cases timer with
  | none => rfl
  | some timer => cases timer <;> rfl

/-- **A check of one model is, step for step, the image of a check of the
other.** -/
theorem Embedding.checker_maps (h : Embedding model model' f)
    (srt : UnstableSort (List (Entry Input Output))) :
    (checker debug srt model).Maps (checker debug srt model') (Check.map f) where
  step choice c := by
    cases choice with
    | main => exact h.stepMain_map debug srt c
    | worker i => exact h.stepWorker_map debug i c
    | skip i => exact Check.stepSkip_map i c
    | timer => exact Check.stepTimer_map c
    | expire => exact Check.stepExpire_map c
    | spurious => exact Check.stepSpurious_map c
    | tick =>
      obtain ⟨flags, cancelled, lock, timer, main, clock⟩ := c
      cases timer <;> rfl
  result c := by
    obtain ⟨flags, cancelled, lock, timer, main, clock⟩ := c
    cases main <;> rfl

end Threads

end Porcupine
