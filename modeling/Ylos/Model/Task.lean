import Ylos.Lib.Exec
import Ylos.Lib.Runs
import Mathlib.Algebra.Group.Int.Defs
import Mathlib.Algebra.Group.Nat.Defs

/-! # Tasks, locks and block-device requests

The scheduler (`kernel/task.c`), mutexes (`kernel/mutex.c`), the request queues
(`kernel/device.c`) and the waiting of the disk driver (`kernel/ide.c`). Tasks are named
by numbers that are never used again. The code of a task that has called `schedule`
goes on when the task is `current` again; its `Point` says with what. -/

namespace Ylos.Sched

open Exec

def NR_TASKS : ℕ := 64

inductive TaskState where
  | init | running | ready | blocked | sleeping | waiting | died
  deriving DecidableEq, Repr

/-- The lists that a task's `node` can be linked into. -/
inductive ListId where
  | block
  | sleep
  /-- The waiters of the mutex of a lock. -/
  | waiters (l : ℕ)
  deriving DecidableEq, Repr

/-- What a task does when it runs again. -/
inductive Point where
  /-- Its own code. -/
  | run
  /-- `do_request` of its request to device `d`. -/
  | queued (d : ℕ)
  /-- The loop in `mutex_lock`, for its own use or for its request to device `d`. -/
  | locking (l : ℕ) (d : Option ℕ)
  /-- Sector `i` of its request to device `d`. -/
  | sector (d i : ℕ)
  /-- What `device_request` does after `do_request`. -/
  | served (d : ℕ)
  /-- The loop in `task_waitpid`. -/
  | waitpid (pid : ℤ)
  /-- Nothing: it has made its last call of `schedule`. -/
  | finished
  deriving DecidableEq, Repr

/-- `task_t`, as far as scheduling uses it. -/
structure Task where
  state : TaskState
  /-- The list `node` is linked into, if any. -/
  node : Option ListId
  priority : ℤ
  ticks : ℤ
  jiffies : ℕ
  pid : ℕ
  ppid : ℕ
  waitpid : ℤ
  status : ℤ
  point : Point
  /-- `task_exit` has set the state of the task. -/
  dying : Bool
  deriving DecidableEq

/-- `lock_t` with its mutex, whose waiters are a list of their own. -/
structure Lock where
  value : Bool
  holder : Option ℕ
  repeats : ℕ
  deriving DecidableEq

inductive ReqType where
  | read | write
  deriving DecidableEq, Repr

/-- `request_t`; `owner` is the task in whose call it lives. -/
structure Request where
  owner : ℕ
  type : ReqType
  idx : ℕ
  count : ℕ
  task : Option ℕ
  deriving DecidableEq

/-- `device_t`: its queue, and the controller that it uses if it is a disk. -/
structure Device where
  parent : ℕ
  requests : List Request
  up : Bool
  ctrl : Option ℕ

/-- `ide_ctrl_t`. -/
structure Ctrl where
  lock : ℕ
  waiter : Option ℕ

structure State where
  tasks : ℕ → Task
  /-- The tasks from this number on are still to come. -/
  created : ℕ
  table : ℕ → Option ℕ
  current : ℕ
  idle : ℕ
  lists : ListId → List ℕ
  locks : ℕ → Lock
  devices : ℕ → Device
  ctrls : ℕ → Ctrl
  jiffies : ℕ

abbrev M := Exec State Empty

/-- A value as the `int` it is stored in. -/
def int32 (n : ℤ) : ℤ := (n + 2 ^ 31) % 2 ^ 32 - 2 ^ 31

/-- An `int` as the `u32` it is compared as. -/
def uint32 (n : ℤ) : ℤ := n % 2 ^ 32

namespace State

def setTask (s : State) (t : ℕ) (v : Task) : State :=
  { s with tasks := fun u => if u = t then v else s.tasks u }

def setList (s : State) (l : ListId) (v : List ℕ) : State :=
  { s with lists := fun k => if k = l then v else s.lists k }

def setLock (s : State) (l : ℕ) (v : Lock) : State :=
  { s with locks := fun k => if k = l then v else s.locks k }

def setDevice (s : State) (d : ℕ) (v : Device) : State :=
  { s with devices := fun k => if k = d then v else s.devices k }

def setCtrl (s : State) (c : ℕ) (v : Ctrl) : State :=
  { s with ctrls := fun k => if k = c then v else s.ctrls k }

end State

def getTask (t : ℕ) : M Task := gets (·.tasks t)

def modifyTask (t : ℕ) (f : Task → Task) : M Unit :=
  modify fun s => s.setTask t (f (s.tasks t))

def runningTask : M ℕ := gets (·.current)

def setPoint (t : ℕ) (p : Point) : M Unit := modifyTask t fun task => { task with point := p }

/-! ## Lists -/

/-- `list_push`; linking a linked node would break the list it is in. -/
def listPush (l : ListId) (t : ℕ) : M Unit := do
  check (t ∉ (← gets (·.lists l)))
  modify fun s => s.setList l (t :: s.lists l)
  modifyTask t fun task => { task with node := some l }

def listRemove (t : ℕ) : M Unit := do
  match (← getTask t).node with
  | none => fault .assertion
  | some l =>
    modify fun s => s.setList l ((s.lists l).erase t)
    modifyTask t fun task => { task with node := none }

/-- The place that `list_insert_sort` finds: before the first key that is greater. -/
def insertSort {β : Type} (key : β → ℤ) (x : β) : List β → List β
  | [] => [x]
  | y :: ys => if key x < key y then x :: y :: ys else y :: insertSort key x ys

/-! ## The scheduler -/

/-- One round of the loop in `task_search`. -/
def searchStep (s : State) (state : TaskState) (best : Option ℕ) (i : ℕ) : Option ℕ :=
  match s.table i with
  | none => best
  | some t =>
    if (s.tasks t).state ≠ state then best
    else if s.current = t then best
    else
      match best with
      | none => some t
      | some b =>
        if (s.tasks b).ticks < (s.tasks t).ticks ∨ (s.tasks t).jiffies < (s.tasks b).jiffies then
          some t
        else some b

def taskSearch (state : TaskState) : M (Option ℕ) := do
  let s ← get
  match (List.range NR_TASKS).foldl (searchStep s state) none with
  | none => if state = .ready then return some s.idle else return none
  | some t => return some t

/-- The code after this call runs when the task is `current` again. -/
def schedule : M Unit := do
  let current ← runningTask
  match ← taskSearch .ready with
  | none => fault .assertion
  | some next =>
    if (← getTask current).state = .running then
      modifyTask current fun task => { task with state := .ready }
    modifyTask next fun task => { task with state := .running }
    modify fun s => { s with current := next }

def taskYield : M Unit := schedule

def taskBlock (t : ℕ) (l : ListId) (state : TaskState) : M Unit := do
  check ((← getTask t).node = none)
  listPush l t
  check (state ≠ .ready ∧ state ≠ .running)
  modifyTask t fun task => { task with state := state }
  if (← runningTask) = t then schedule

def taskUnblock (t : ℕ) : M Unit := do
  listRemove t
  modifyTask t fun task => { task with state := .ready }

/-- `ticks` is `ms / jiffy`. -/
def taskSleep (ticks : ℕ) : M Unit := do
  let ticks := if 0 < ticks then ticks else 1
  let t ← runningTask
  let jiffies ← gets (·.jiffies)
  modifyTask t fun task => { task with ticks := int32 (jiffies + ticks) }
  check ((← getTask t).node = none)
  modify fun s => s.setList .sleep (insertSort (fun u => (s.tasks u).ticks) t (s.lists .sleep))
  modifyTask t fun task => { task with node := some .sleep, state := .sleeping }
  schedule

/-- The loop in `task_wakeup` over the sleepers, in order. -/
def wakeLoop : List ℕ → M Unit
  | [] => pure ()
  | t :: ts => do
    if (← gets (·.jiffies)) < uint32 (← getTask t).ticks then
      return ()
    else
      modifyTask t fun task => { task with ticks := 0 }
      taskUnblock t
      wakeLoop ts

def taskWakeup : M Unit := do
  wakeLoop (← gets (·.lists .sleep))

def clockHandler : M Unit := do
  taskWakeup
  modify fun s => { s with jiffies := (s.jiffies + 1) % 2 ^ 32 }
  let t ← runningTask
  let jiffies ← gets (·.jiffies)
  modifyTask t fun task => { task with jiffies := jiffies, ticks := int32 (task.ticks - 1) }
  if (← getTask t).ticks = 0 then
    modifyTask t fun task => { task with ticks := task.priority }
    schedule

/-! ## Creation and end of tasks -/

/-- `get_free_task`: the first empty slot, for a task with a new number. -/
def getFreeTask : M (ℕ × ℕ) := do
  let s ← get
  match (List.range NR_TASKS).find? fun i => (s.table i).isNone with
  | none => fault .assertion
  | some i =>
    modify fun s => { s with
      created := s.created + 1
      table := fun k => if k = i then some s.created else s.table k }
    return (s.created, i)

def taskFork : M Unit := do
  let t ← runningTask
  let task ← getTask t
  check (task.node = none ∧ task.state = .running)
  let (child, pid) ← getFreeTask
  modifyTask child fun _ => { task with
    pid := pid
    ppid := task.pid
    ticks := task.priority
    state := .ready }

/-- `task_exit` up to the point where the state is set. The code between it and `exitEnd`
may write any number of dirty buffers. -/
def exitBegin (status : ℤ) : M Unit := do
  let t ← runningTask
  let task ← getTask t
  check (task.node = none ∧ task.state = .running)
  modifyTask t fun task => { task with state := .died, status := status, dying := true }

/-- The children of the task that exits become those of its parent. -/
def reparent (s : State) (pid ppid i : ℕ) : State :=
  match s.table i with
  | none => s
  | some c =>
    if (s.tasks c).ppid = pid then s.setTask c { s.tasks c with ppid := ppid } else s

def exitEnd : M Unit := do
  let t ← runningTask
  let task ← getTask t
  modify fun s => (List.range' 2 (NR_TASKS - 2)).foldl
    (fun s i => reparent s task.pid task.ppid i) s
  let parent ← deref (← gets (·.table (← getTask t).ppid))
  let p ← getTask parent
  if p.state = .waiting ∧ (p.waitpid = -1 ∨ p.waitpid = task.pid) then
    taskUnblock parent
  setPoint t .finished
  schedule

/-- The loop in `task_waitpid` over the slots: the slot of a dead child, or whether there
is a child at all. -/
def childLoop (s : State) (self : ℕ) (pid : ℤ) : List ℕ → Bool → ℕ ⊕ Bool
  | [], found => .inr found
  | i :: is, found =>
    match s.table i with
    | none => childLoop s self pid is found
    | some c =>
      if (s.tasks c).ppid ≠ self then childLoop s self pid is found
      else if pid ≠ (s.tasks c).pid ∧ pid ≠ -1 then childLoop s self pid is found
      else if (s.tasks c).state = .died then .inl i
      else childLoop s self pid is true

def taskWaitpid (pid : ℤ) : M Unit := do
  let t ← runningTask
  let s ← get
  match childLoop s (s.tasks t).pid pid (List.range' 2 (NR_TASKS - 2)) false with
  | .inl i =>
    modify fun s => { s with table := fun k => if k = i then none else s.table k }
    setPoint t .run
  | .inr true =>
    modifyTask t fun task => { task with waitpid := pid, point := .waitpid pid }
    taskBlock t .block .waiting
  | .inr false => setPoint t .run

/-! ## Locks -/

/-- The end of `mutex_lock` and of `lock_acquire`. -/
def lockTake (t l : ℕ) : M Unit := do
  check ((← gets (·.locks l)).repeats = 0)
  modify fun s => s.setLock l ⟨true, some t, 1⟩

/-- The lock is free or the task has it: no waiting in `lock_acquire`. -/
def lockOpen (t : ℕ) (lock : Lock) : Bool := lock.holder = some t || !lock.value

/-- `lock_acquire` for a lock that is open. -/
def lockAcquire (t l : ℕ) : M Unit := do
  let lock ← gets (·.locks l)
  if lock.holder = some t then
    modify fun s => s.setLock l { lock with repeats := lock.repeats + 1 }
  else
    lockTake t l

/-- `lock_release`; `true` means that a waiter was woken and `task_yield` comes next. -/
def lockRelease (t l : ℕ) : M Bool := do
  let lock ← gets (·.locks l)
  check (lock.holder = some t)
  if 1 < lock.repeats then
    modify fun s => s.setLock l { lock with repeats := lock.repeats - 1 }
    return false
  else
    check (lock.repeats = 1)
    check (lock.value = true)
    modify fun s => s.setLock l ⟨false, none, 0⟩
    match (← gets (·.lists (.waiters l))).getLast? with
    | none => return false
    | some u =>
      taskUnblock u
      return true

/-! ## Block-device requests -/

/-- The request of task `t` to device `d`. -/
def findRequest (t d : ℕ) : M Request := do
  deref ((← gets (·.devices d)).requests.find? fun r => r.owner = t)

/-- `request_nextreq`, with the direction it leaves; `i` is the place of the request. -/
def nextRequest (dev : Device) (i : ℕ) : Option Request × Bool :=
  let up :=
    if dev.up ∧ i + 1 = dev.requests.length then false
    else if !dev.up ∧ i = 0 then true
    else dev.up
  if up then (dev.requests[i + 1]?, up)
  else if i = 0 then (none, up)
  else (dev.requests[i - 1]?, up)

/-- The part of `device_request` after `do_request`. -/
def requestDone (t d : ℕ) : M Unit := do
  let dev ← gets (·.devices d)
  let req ← findRequest t d
  let (next, up) := nextRequest dev (dev.requests.idxOf req)
  modify fun s => s.setDevice d { dev with requests := dev.requests.erase req, up := up }
  setPoint t .run
  match next with
  | none => return ()
  | some next => taskUnblock (← deref next.task)

/-- `lock_release` of the controller, and what comes after it. -/
def sectorsDone (t d c : ℕ) : M Unit := do
  if ← lockRelease t (← gets (·.ctrls c)).lock then
    setPoint t (.served d)
    taskYield
  else
    requestDone t d

/-- The loop over the sectors in `ide_pio_read` and `ide_pio_write`, from sector `i` on.
The task waits for the disk once a sector, but only while its state is `running`. -/
def sectors (t d c i : ℕ) : M Unit := do
  let req ← findRequest t d
  if i < req.count ∧ (← getTask t).state = .running then
    modify fun s => s.setCtrl c { s.ctrls c with waiter := some t }
    setPoint t (.sector d i)
    taskBlock t .block .blocked
  else
    sectorsDone t d c

/-- `do_request`: a disk needs its controller, a RAM disk nothing. -/
def doRequest (t d : ℕ) : M Unit := do
  match (← gets (·.devices d)).ctrl with
  | none => requestDone t d
  | some c =>
    let l := (← gets (·.ctrls c)).lock
    if lockOpen t (← gets (·.locks l)) then
      lockAcquire t l
      sectors t d c 0
    else
      setPoint t (.locking l (some d))
      taskBlock t (.waiters l) .blocked

/-- The device whose queue takes the requests to `dev`. -/
def queueOf (s : State) (dev : ℕ) : ℕ :=
  if (s.devices dev).parent ≠ 0 then (s.devices dev).parent else dev

/-- `device_request`; `idx` is the sector after adding the start of the partition. -/
def deviceRequest (dev : ℕ) (type : ReqType) (idx count : ℕ) : M Unit := do
  let t ← runningTask
  let d := queueOf (← get) dev
  let device ← gets (·.devices d)
  let empty := device.requests.isEmpty
  let req : Request := ⟨t, type, idx, count, if empty then none else some t⟩
  modify fun s => s.setDevice d
    { device with requests := insertSort (fun r => int32 r.idx) req device.requests }
  if empty then
    doRequest t d
  else
    setPoint t (.queued d)
    taskBlock t .block .blocked

def ideHandler (c : ℕ) : M Unit := do
  let ctrl ← gets (·.ctrls c)
  match ctrl.waiter with
  | none => return ()
  | some t =>
    taskUnblock t
    modify fun s => s.setCtrl c { ctrl with waiter := none }

/-! ## Steps -/

/-- The running task goes on from where it called `schedule`. -/
def resume (t : ℕ) : Point → M Unit
  | .run | .finished => pure ()
  | .queued d => doRequest t d
  | .locking l none => do
    if lockOpen t (← gets (·.locks l)) then
      lockAcquire t l
      setPoint t .run
    else
      taskBlock t (.waiters l) .blocked
  | .locking _ (some d) => doRequest t d
  | .sector d i => do
    match (← gets (·.devices d)).ctrl with
    | none => fault .wild
    | some c => sectors t d c (i + 1)
  | .served d => requestDone t d
  | .waitpid pid => taskWaitpid pid

inductive Action where
  /-- The running task calls a function. -/
  | yield
  | sleep (ticks : ℕ)
  | block
  | wake (t : ℕ)
  | fork
  | waitpid (pid : ℤ)
  | acquire (l : ℕ)
  | release (l : ℕ)
  | request (dev : ℕ) (type : ReqType) (idx count : ℕ)
  | exitBegin (status : ℤ)
  | exitEnd
  /-- The running task goes on. -/
  | resume
  /-- Interrupts. -/
  | clock
  | disk (c : ℕ)
  deriving DecidableEq

/-- The code that may run: a task that exits only writes buffers and ends, and the idle
task never exits. -/
def Action.Possible (s : State) : Action → Prop
  | .request _ _ _ _ => (s.tasks s.current).point = .run
  | .exitBegin _ => (s.tasks s.current).point = .run ∧ (s.tasks s.current).dying = false ∧
      s.current ≠ s.idle
  | .exitEnd => (s.tasks s.current).point = .run ∧ (s.tasks s.current).dying = true
  | .resume => (s.tasks s.current).point ≠ .run
  | .clock | .disk _ => True
  | _ => (s.tasks s.current).point = .run ∧ (s.tasks s.current).dying = false

def Action.code : Action → M Unit
  | .yield => taskYield
  | .sleep ticks => taskSleep ticks
  | .block => do taskBlock (← runningTask) .block .blocked
  | .wake t => taskUnblock t
  | .fork => taskFork
  | .waitpid pid => taskWaitpid pid
  | .acquire l => do
    let t ← runningTask
    if lockOpen t (← gets (·.locks l)) then
      lockAcquire t l
    else
      setPoint t (.locking l none)
      taskBlock t (.waiters l) .blocked
  | .release l => do
    if ← lockRelease (← runningTask) l then
      taskYield
  | .request dev type idx count => deviceRequest dev type idx count
  | .exitBegin status => Sched.exitBegin status
  | .exitEnd => Sched.exitEnd
  | .resume => do
    let t ← runningTask
    Sched.resume t (← getTask t).point
  | .clock => clockHandler
  | .disk c => ideHandler c

/-- One step of the kernel in which no assertion fails. -/
def Step (s : State) (a : Action) (s' : State) : Prop :=
  a.Possible s ∧ a.code.run s = .ok ((), s', [])

/-! ## Calls that run to their end

The calls of the scheduler itself, one after another; here `task_exit` does not wait for a
buffer, and every scan of `task_waitpid` is a call of its own. -/

/-- `task_create`, in a page of zeros; `priority` is a `u32`, and `ticks` an `int`. -/
def taskCreate (priority : ℕ) : M Unit := do
  let (child, pid) ← getFreeTask
  modifyTask child fun _ =>
    { state := .ready
      node := none
      priority := int32 priority
      ticks := int32 priority
      jiffies := 0
      pid := pid
      ppid := 0
      waitpid := 0
      status := 0
      point := .run
      dying := false }

/-- `jiffy`: the milliseconds of a clock tick. -/
def JIFFY : ℕ := 10

def taskExit (status : ℤ) : M Unit := do
  exitBegin status
  exitEnd

/-- A scan of `task_waitpid` with the pid and the status that it returns; nothing if it
blocks or if there is no child. -/
def waitpidScan (pid : ℤ) : M (Option (ℕ × ℤ)) := do
  let t ← runningTask
  let s ← get
  match childLoop s (s.tasks t).pid pid (List.range' 2 (NR_TASKS - 2)) false with
  | .inl i =>
    let child ← getTask (← deref (s.table i))
    modify fun s => { s with table := fun k => if k = i then none else s.table k }
    return some (child.pid, child.status)
  | .inr true =>
    modifyTask t fun task => { task with waitpid := pid }
    taskBlock t .block .waiting
    return none
  | .inr false => return none

inductive Call where
  | create (priority : ℕ)
  | fork
  | yield
  | block (l : ListId) (state : TaskState)
  | unblock (t : ℕ)
  | sleep (ms : ℕ)
  | clock
  | waitpid (pid : ℤ)
  | exit (status : ℤ)
  deriving DecidableEq

/-- The code that may run: `idle_thread` only yields, so nothing but an interrupt calls
other functions while it runs; `sleep_list` belongs to `task_sleep`; a linked task is
unblocked. -/
def Call.Possible (s : State) : Call → Prop
  | .create priority => priority < 2 ^ 32
  | .block l state => s.current ≠ s.idle ∧ l ≠ .sleep ∧
      (state = .blocked ∨ state = .sleeping ∨ state = .waiting)
  | .unblock t => ∃ l, t ∈ s.lists l
  | .sleep ms => s.current ≠ s.idle ∧ ms < 2 ^ 32
  | .fork | .waitpid _ | .exit _ => s.current ≠ s.idle
  | .yield | .clock => True

/-- The running task makes the call; the value is the answer of `task_waitpid`. -/
def Call.code : Call → M (Option (ℕ × ℤ))
  | .create priority => do
    taskCreate priority
    return none
  | .fork => do
    taskFork
    return none
  | .yield => do
    taskYield
    return none
  | .block l state => do
    taskBlock (← runningTask) l state
    return none
  | .unblock t => do
    taskUnblock t
    return none
  | .sleep ms => do
    taskSleep (ms / JIFFY)
    return none
  | .clock => do
    clockHandler
    return none
  | .waitpid pid => waitpidScan pid
  | .exit status => do
    taskExit status
    return none

def CallStep (s : State) (c : Call) (s' : State) : Prop :=
  c.Possible s ∧ ∃ answer, c.code.run s = .ok (answer, s', [])

end Ylos.Sched
