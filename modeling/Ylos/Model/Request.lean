import Ylos.Model.Task

/-! # The request queue of one block device (`kernel/device.c`)

A call of `device_request` goes on until it blocks: in the queue, or inside `do_request`,
which may wait for the disk any number of times. Which task runs next is left open. -/

namespace Ylos.Requests

open Exec Sched

/-- Where a task stands in `device_request`. -/
inductive Phase where
  | idle
  /-- Blocked in the queue. -/
  | queued
  /-- Unblocked by the request before it, but not run yet. -/
  | woken
  /-- Inside `do_request`. -/
  | serving
  /-- Inside `do_request`, and blocked until the disk is ready. -/
  | waiting
  deriving DecidableEq, Repr

/-- The task's request is the one that the device is at. -/
def Phase.Active : Phase → Prop
  | .woken | .serving | .waiting => True
  | .idle | .queued => False

instance : DecidablePred Phase.Active := fun p => by
  unfold Phase.Active
  cases p <;> infer_instance

structure State where
  device : Device
  phase : ℕ → Phase

inductive Event where
  /-- The request was made. -/
  | asked (req : Request)
  /-- `do_request` was called for it. -/
  | served (req : Request)
  deriving DecidableEq

abbrev M := Exec State Event

def State.setPhase (s : State) (t : ℕ) (p : Phase) : State :=
  { s with phase := fun u => if u = t then p else s.phase u }

def setPhase (t : ℕ) (p : Phase) : M Unit := modify fun s => s.setPhase t p

def setRequests (requests : List Request) (up : Bool) : M Unit :=
  modify fun s => { s with device := { s.device with requests := requests, up := up } }

/-- The request of task `t`. -/
def findRequest (t : ℕ) : M Request := do
  deref ((← gets (·.device)).requests.find? fun r => r.owner = t)

/-- `task_unblock`: it asserts that the task is in a list of blocked tasks. -/
def taskUnblock (t : ℕ) : M Unit := do
  match (← get).phase t with
  | .queued => setPhase t .woken
  | .waiting => setPhase t .serving
  | _ => fault .assertion

def doRequest (t : ℕ) : M Unit := do
  let req ← findRequest t
  note (.served req)
  setPhase t .serving

def deviceRequest (t : ℕ) (type : ReqType) (idx count : ℕ) : M Unit := do
  let device ← gets (·.device)
  let empty := device.requests.isEmpty
  let req : Request := ⟨t, type, idx, count, if empty then none else some t⟩
  note (.asked req)
  setRequests (insertSort (fun r => int32 r.idx) req device.requests) device.up
  if empty then
    doRequest t
  else
    setPhase t .queued

/-- The part of `device_request` after `do_request`. -/
def requestDone (t : ℕ) : M Unit := do
  let device ← gets (·.device)
  let req ← findRequest t
  let (next, up) := nextRequest device (device.requests.idxOf req)
  setRequests (device.requests.erase req) up
  setPhase t .idle
  match next with
  | none => return ()
  | some next => taskUnblock (← deref next.task)

/-! ## Steps -/

inductive Action where
  | request (t : ℕ) (type : ReqType) (idx count : ℕ)
  /-- A task that was unblocked runs. -/
  | resume (t : ℕ)
  /-- `do_request` waits for the disk. -/
  | wait (t : ℕ)
  | disk (t : ℕ)
  /-- `do_request` returns. -/
  | finish (t : ℕ)

def Action.Possible (s : State) : Action → Prop
  | .request t _ _ _ => s.phase t = .idle
  | .resume t => s.phase t = .woken
  | .wait t => s.phase t = .serving
  | .disk t => s.phase t = .waiting
  | .finish t => s.phase t = .serving

def Action.code : Action → M Unit
  | .request t type idx count => deviceRequest t type idx count
  | .resume t => doRequest t
  | .wait t => setPhase t .waiting
  | .disk t => taskUnblock t
  | .finish t => requestDone t

/-- A step from a state with the events so far. -/
def Step (s : State × List Event) (a : Action) (s' : State × List Event) : Prop :=
  a.Possible s.1 ∧ ∃ l, a.code.run s.1 = .ok ((), s'.1, l) ∧ s'.2 = s.2 ++ l

end Ylos.Requests
