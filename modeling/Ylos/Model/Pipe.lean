import Ylos.Lib.Exec
import Mathlib.Data.Nat.Notation

/-! # Pipes (`fs/pipe.c`, `lib/fifo.c`)

Any number of tasks read from and write to one pipe. A call goes on until it blocks or
returns; a task that is unblocked goes on at some later time. -/

namespace Ylos.Pipes

open Exec

def PAGE_SIZE : ℕ := 4096

/-- `fifo_t`, with what its `buf` points to. -/
structure Fifo where
  buf : ℕ → UInt8
  length : ℕ
  head : ℕ
  tail : ℕ

inductive Phase where
  | idle
  /-- Blocked in `pipe_read`, with as many bytes to get after the next one. -/
  | reading (more : ℕ)
  /-- Unblocked there, but not run yet. -/
  | readable (more : ℕ)
  /-- Blocked in `pipe_write`, with these bytes to put. -/
  | writing (byte : UInt8) (more : List UInt8)
  | writable (byte : UInt8) (more : List UInt8)
  deriving DecidableEq

structure State where
  fifo : Fifo
  rxwaiter : Option ℕ
  txwaiter : Option ℕ
  phase : ℕ → Phase

inductive Event where
  /-- A writer has put the byte. -/
  | inserted (byte : UInt8)
  /-- A reader has got the byte. -/
  | removed (byte : UInt8)
  deriving DecidableEq

abbrev M := Exec State Event

def State.setPhase (s : State) (t : ℕ) (p : Phase) : State :=
  { s with phase := fun u => if u = t then p else s.phase u }

def setPhase (t : ℕ) (p : Phase) : M Unit := modify fun s => s.setPhase t p

/-! ## `lib/fifo.c` -/

def Fifo.next (fifo : Fifo) (pos : ℕ) : ℕ := (pos + 1) % fifo.length

def fifoInit (buf : ℕ → UInt8) (length : ℕ) : Fifo := ⟨buf, length, 0, 0⟩

def Fifo.full (fifo : Fifo) : Bool := fifo.next fifo.head = fifo.tail

def Fifo.empty (fifo : Fifo) : Bool := fifo.head = fifo.tail

def fifoGet : M UInt8 := do
  let fifo ← gets (·.fifo)
  check (fifo.empty = false)
  modify fun s => { s with fifo := { fifo with tail := fifo.next fifo.tail } }
  return fifo.buf fifo.tail

/-- The loop in `fifo_put`, of no more rounds than there are bytes. -/
def fifoDrain : ℕ → M Unit
  | 0 => pure ()
  | fuel + 1 => do
    if (← gets (·.fifo)).full then
      let _ ← fifoGet
      fifoDrain fuel

def fifoPut (byte : UInt8) : M Unit := do
  fifoDrain ((← gets (·.fifo)).length + 1)
  modify fun s => { s with fifo := { s.fifo with
    buf := fun i => if i = s.fifo.head then byte else s.fifo.buf i
    head := s.fifo.next s.fifo.head } }

/-! ## `fs/pipe.c` -/

/-- `task_unblock`: it asserts that the task is in a list of blocked tasks. -/
def taskUnblock (t : ℕ) : M Unit := do
  match (← get).phase t with
  | .reading more => setPhase t (.readable more)
  | .writing byte more => setPhase t (.writable byte more)
  | _ => fault .assertion

/-- `fifo_get` and what `pipe_read` does after it. -/
def getByte : M Unit := do
  note (.removed (← fifoGet))
  match ← gets (·.txwaiter) with
  | none => return ()
  | some t =>
    taskUnblock t
    modify fun s => { s with txwaiter := none }

/-- The loop in `pipe_read`, with this many bytes to go. -/
def pipeRead (t : ℕ) : ℕ → M Unit
  | 0 => setPhase t .idle
  | more + 1 => do
    if (← gets (·.fifo)).empty then
      check ((← gets (·.rxwaiter)) = none)
      modify fun s => { s with rxwaiter := some t }
      setPhase t (.reading more)
    else
      getByte
      pipeRead t more

/-- `fifo_put` and what `pipe_write` does after it. -/
def putByte (byte : UInt8) : M Unit := do
  fifoPut byte
  note (.inserted byte)
  match ← gets (·.rxwaiter) with
  | none => return ()
  | some t =>
    taskUnblock t
    modify fun s => { s with rxwaiter := none }

/-- The loop in `pipe_write`, with these bytes to go. -/
def pipeWrite (t : ℕ) : List UInt8 → M Unit
  | [] => setPhase t .idle
  | byte :: more => do
    if (← gets (·.fifo)).full then
      check ((← gets (·.txwaiter)) = none)
      modify fun s => { s with txwaiter := some t }
      setPhase t (.writing byte more)
    else
      putByte byte
      pipeWrite t more

/-! ## Steps -/

inductive Action where
  | read (t count : ℕ)
  | write (t : ℕ) (buf : List UInt8)
  /-- A task that was unblocked runs: it gets or puts its byte at once. -/
  | resume (t : ℕ)

def Action.Possible (s : State) : Action → Prop
  | .read t _ => s.phase t = .idle
  | .write t _ => s.phase t = .idle
  | .resume t => (∃ more, s.phase t = .readable more) ∨
      ∃ byte more, s.phase t = .writable byte more

def resume (t : ℕ) : M Unit := do
  match (← get).phase t with
  | .readable more =>
    getByte
    pipeRead t more
  | .writable byte more =>
    putByte byte
    pipeWrite t more
  | _ => return ()

def Action.code : Action → M Unit
  | .read t count => pipeRead t count
  | .write t buf => pipeWrite t buf
  | .resume t => Pipes.resume t

/-- A step from a state with the events so far. -/
def Step (s : State × List Event) (a : Action) (s' : State × List Event) : Prop :=
  a.Possible s.1 ∧ ∃ l, a.code.run s.1 = .ok ((), s'.1, l) ∧ s'.2 = s.2 ++ l

/-- A new pipe, see `get_pipe_inode`. -/
def Initial (s : State) : Prop :=
  (∃ buf, s.fifo = fifoInit buf PAGE_SIZE) ∧ s.rxwaiter = none ∧ s.txwaiter = none ∧
    ∀ t, s.phase t = .idle

end Ylos.Pipes
