import Ylos.Model.Task

/-! # Mutexes and locks, statement by statement

`kernel/mutex.c` with a switch possible between any two statements. Interrupts are off in
`mutex_lock` and `mutex_unlock`, so a round of the loop in the one and the whole of the other
are single steps, in which only the code itself switches. -/

namespace Ylos.Sched

open Exec

/-- The next statement of a task inside a function of `kernel/mutex.c`. -/
inductive Stage where
  /-- `lock_acquire`: `lock->repeat++`. -/
  | again
  /-- A round of the loop in `mutex_lock`. -/
  | locking
  /-- `lock->holder = current`. -/
  | taking
  /-- `assert(lock->repeat == 0)`. -/
  | counting
  /-- `lock->repeat = 1`. -/
  | starting
  /-- `lock_release`: the test of `lock->repeat`. -/
  | testing
  /-- `lock->repeat--`. -/
  | lessening
  /-- `lock->holder = NULL`. -/
  | dropping
  /-- `lock->repeat = 0`. -/
  | clearing
  /-- `mutex_unlock`. -/
  | unlocking
  deriving DecidableEq, Repr

/-- One round of the loop in `mutex_lock`; `true` means that the task has the mutex. -/
def mutexLock (t l : ℕ) : M Bool := do
  if (← gets (·.locks l)).value then
    taskBlock t (.waiters l) .blocked
    return false
  else
    modify fun s => s.setLock l { s.locks l with value := true }
    return true

def mutexUnlock (l : ℕ) : M Unit := do
  check ((← gets (·.locks l)).value = true)
  modify fun s => s.setLock l { s.locks l with value := false }
  match (← gets (·.lists (.waiters l))).getLast? with
  | none => return ()
  | some u =>
    taskUnblock u
    taskYield

/-- The statement that a task has come to, and the one that is next in the function. After
`mutex_lock` the function ends if the mutex is used without a lock, which is `bare`. -/
def Stage.code (bare : Bool) (t l : ℕ) : Stage → M (Option Stage)
  | .again => do
    modify fun s => s.setLock l
      { s.locks l with repeats := ((s.locks l).repeats + 1) % 2 ^ 32 }
    return none
  | .locking => do
    if ← mutexLock t l then
      return if bare then none else some .taking
    else
      return some .locking
  | .taking => do
    modify fun s => s.setLock l { s.locks l with holder := some t }
    return some .counting
  | .counting => do
    check ((← gets (·.locks l)).repeats = 0)
    return some .starting
  | .starting => do
    modify fun s => s.setLock l { s.locks l with repeats := 1 }
    return none
  | .testing => do
    if 1 < (← gets (·.locks l)).repeats then
      return some .lessening
    else
      check ((← gets (·.locks l)).repeats = 1)
      return some .dropping
  | .lessening => do
    modify fun s => s.setLock l { s.locks l with repeats := (s.locks l).repeats - 1 }
    return none
  | .dropping => do
    modify fun s => s.setLock l { s.locks l with holder := none }
    return some .clearing
  | .clearing => do
    modify fun s => s.setLock l { s.locks l with repeats := 0 }
    return some .unlocking
  | .unlocking => do
    mutexUnlock l
    return none

/-- The functions of `kernel/mutex.c`. -/
inductive Entry where
  | acquire | release | lock | unlock
  deriving DecidableEq, Repr

/-- The function up to its first step. -/
def Entry.code (t l : ℕ) : Entry → M Stage
  | .acquire => do
    if (← gets (·.locks l)).holder ≠ some t then return .locking else return .again
  | .release => do
    check ((← gets (·.locks l)).holder = some t)
    return .testing
  | .lock => return .locking
  | .unlock => return .unlocking

structure Sync where
  sched : State
  /-- The function of `kernel/mutex.c` that a task is in: the mutex and the statement. -/
  stage : ℕ → Option (ℕ × Stage)
  /-- The mutexes that are used without a lock. -/
  bare : ℕ → Bool
  /-- How often a task has got a mutex or a lock and not given it back; no code reads it. -/
  depth : ℕ → ℕ → ℕ

/-- What the end of a function does to the depth. -/
def Stage.result : Stage → ℕ → ℕ
  | .lessening, d | .unlocking, d => d - 1
  | _, d => d + 1

inductive SyncCall where
  /-- The running task calls a function of `kernel/mutex.c`. -/
  | enter (e : Entry) (l : ℕ)
  /-- The running task goes on in such a function. -/
  | go
  /-- Another call, or an interrupt. -/
  | other (call : Call)
  deriving DecidableEq

namespace Sync

def setStage (x : Sync) (t : ℕ) (stage : Option (ℕ × Stage)) : Sync :=
  { x with stage := fun u => if u = t then stage else x.stage u }

def setDepth (x : Sync) (t l d : ℕ) : Sync :=
  { x with depth := fun u k => if u = t ∧ k = l then d else x.depth u k }

/-- The running task has made the step of `stage` at mutex `l`. -/
def advance (x : Sync) (l : ℕ) (stage : Stage) : Option Stage → Sync
  | some next => x.setStage x.sched.current (some (l, next))
  | none => (x.setStage x.sched.current none).setDepth x.sched.current l
      (stage.result (x.depth x.sched.current l))

def next (x : Sync) : SyncCall → Except Fault Sync
  | .enter e l => do
    let (stage, s, _) ← (e.code x.sched.current l).run x.sched
    return { x.setStage x.sched.current (some (l, stage)) with sched := s }
  | .go =>
    match x.stage x.sched.current with
    | none => return x
    | some (l, stage) => do
      let (next, s, _) ← (stage.code (x.bare l) x.sched.current l).run x.sched
      return { x.advance l stage next with sched := s }
  | .other call => do
    let (_, s, _) ← call.code.run x.sched
    return { x with sched := s }

end Sync

/-- The code that may run. The idle task takes no locks, only the holder releases, and the
waiters of a mutex are left to `mutex_lock` and `mutex_unlock`; inside a function of
`kernel/mutex.c` a task makes no other calls, but interrupts come. -/
def SyncCall.Possible (x : Sync) : SyncCall → Prop
  | .enter e l => x.stage x.sched.current = none ∧ x.sched.current ≠ x.sched.idle ∧
      match e with
      | .acquire => x.bare l = false
      | .release => x.bare l = false ∧ 0 < x.depth x.sched.current l
      | .lock => x.bare l = true
      | .unlock => x.bare l = true ∧ 0 < x.depth x.sched.current l
  | .go => x.stage x.sched.current ≠ none
  | .other call => call.Possible x.sched ∧
      (x.stage x.sched.current = none ∨ call = .clock ∨ ∃ t, call = .unblock t) ∧
      (∀ l state, call ≠ .block (.waiters l) state) ∧
      ∀ t, call = .unblock t → ∀ l, t ∉ x.sched.lists (.waiters l)

def SyncStep (x : Sync) (call : SyncCall) (x' : Sync) : Prop :=
  call.Possible x ∧ x.next call = .ok x'

end Ylos.Sched
