import Ylos.Lib.Exec
import Ylos.Lib.Runs
import Ylos.Model.Fs.State

/-! # The buffer cache (`kernel/buffer.c`, `kernel/mutex.c`)

Tasks `τ` use the cache at the same time. A task runs from one blocking point to the
next without interruption; `Point` says where it waits. A waiting task may go on at any
time: the request queue of the device, the lock of the controller and the interrupts
only restrict the orders that are possible here. `α` is the contents of a sector. -/

namespace Ylos.Cache

open Exec

def SECTOR_SIZE : ℕ := 512

def BLOCK_SECS : ℕ := BLOCK_SIZE / SECTOR_SIZE

def HASH_COUNT : ℕ := 31

def KERNEL_BUFFER_MEM : ℕ := 0x800000

def KERNEL_BUFFER_SIZE : ℕ := 0x400000

/-- `sizeof(buffer_t)`. -/
def BUFFER_T_SIZE : ℕ := 64

/-- `lock_t`; its mutex is taken exactly when there is a holder. -/
structure Lock (τ : Type) where
  holder : Option τ
  repeats : ℕ

/-- `buffer_t`, with the contents of its sectors. -/
structure Buffer (τ α : Type) where
  data : ℕ → α
  dev : ℤ
  block : ℕ
  count : ℤ
  lock : Lock τ
  dirty : Bool
  valid : Bool

def Buffer.setSector {τ α : Type} (buf : Buffer τ α) (i : ℕ) (v : α) : Buffer τ α :=
  { buf with data := fun j => if j = i then v else buf.data j }

/-- Where a task waits. -/
inductive Point where
  /-- Nowhere: the task runs its own code. -/
  | idle
  /-- In `get_free_buffer`, called for `bread` or for `getblk` alone. -/
  | free (dev : ℤ) (block : ℕ) (reads : Bool)
  /-- In `lock_acquire` of `bread`. -/
  | lock (b : ℕ)
  /-- In `device_request` of `bread`, with `n` sectors transferred. -/
  | read (b n : ℕ)
  /-- In `device_request` of `bwrite`, with `n` sectors transferred; `releases` says
  whether `brelse` called it. -/
  | write (b n : ℕ) (releases : Bool)
  deriving DecidableEq, Repr

/-- A task: where it waits, and how many references to each buffer it was given by calls
that have returned and has not passed to `brelse`. -/
structure Proc where
  point : Point
  held : ℕ → ℕ

structure State (τ α : Type) where
  /-- Buffer `b` is the one at `buffer_start + b`. -/
  buffers : ℕ → Buffer τ α
  bufferCount : ℕ
  hashTable : ℕ → List ℕ
  freeList : List ℕ
  waitList : List τ
  /-- The sectors of each block of each device. -/
  disk : ℤ → ℕ → ℕ → α
  procs : τ → Proc

abbrev C (τ α : Type) := Exec (State τ α) Empty

/-- `hash`, in `u32` arithmetic. -/
def hash (dev : ℤ) (block : ℕ) : ℕ := ((dev % 2 ^ 32).toNat ^^^ block) % HASH_COUNT

section Code

variable {τ α : Type} [DecidableEq τ]

namespace State

def setBuf (s : State τ α) (b : ℕ) (v : Buffer τ α) : State τ α :=
  { s with buffers := fun c => if c = b then v else s.buffers c }

def setProc (s : State τ α) (t : τ) (p : Proc) : State τ α :=
  { s with procs := fun u => if u = t then p else s.procs u }

def setChain (s : State τ α) (h : ℕ) (l : List ℕ) : State τ α :=
  { s with hashTable := fun k => if k = h then l else s.hashTable k }

def setDisk (s : State τ α) (dev : ℤ) (block i : ℕ) (v : α) : State τ α :=
  { s with disk := fun d k j =>
      if d = dev ∧ k = block ∧ j = i then v else s.disk d k j }

end State

def getBuf (b : ℕ) : C τ α (Buffer τ α) := gets (·.buffers b)

def modifyBuf (b : ℕ) (f : Buffer τ α → Buffer τ α) : C τ α Unit :=
  modify fun s => s.setBuf b (f (s.buffers b))

/-- The task blocks at `p`, or runs on. -/
def setPoint (t : τ) (p : Point) : C τ α Unit :=
  modify fun s => s.setProc t { s.procs t with point := p }

def setHeld (t : τ) (b : ℕ) (f : ℕ → ℕ) : C τ α Unit :=
  modify fun s => s.setProc t { s.procs t with
    held := fun c => if c = b then f ((s.procs t).held c) else (s.procs t).held c }

/-! ## Finding a buffer -/

def getFromHashTable (dev : ℤ) (block : ℕ) : C τ α (Option ℕ) := do
  let s ← get
  match (s.hashTable (hash dev block)).find? fun b =>
      (s.buffers b).dev = dev ∧ (s.buffers b).block = block with
  | none => return none
  | some b =>
    if b ∈ s.freeList then
      modify fun s => { s with freeList := s.freeList.erase b }
    return some b

def hashLocate (b : ℕ) : C τ α Unit := do
  let buf ← getBuf b
  let list ← gets (·.hashTable (hash buf.dev buf.block))
  check (b ∉ list)
  modify fun s => s.setChain (hash buf.dev buf.block) (b :: list)

/-- The first assertion is the one of the source. The second is that of `list_remove`:
the node is in a list. -/
def hashRemove (b : ℕ) : C τ α Unit := do
  let buf ← getBuf b
  let table ← gets (·.hashTable)
  check (b ∉ table (hash buf.dev buf.block))
  check (∃ h < HASH_COUNT, b ∈ table h)
  modify fun s => { s with hashTable := fun h => (table h).erase b }

def bufferPtr (n : ℕ) : ℕ := KERNEL_BUFFER_MEM + n * BUFFER_T_SIZE

def bufferData (n : ℕ) : ℕ :=
  KERNEL_BUFFER_MEM + KERNEL_BUFFER_SIZE - BLOCK_SIZE - n * BLOCK_SIZE

def getNewBuffer : C τ α (Option ℕ) := do
  let n ← gets (·.bufferCount)
  if bufferPtr n + BUFFER_T_SIZE < bufferData n then
    modifyBuf n fun buf => { buf with
      dev := -1
      block := 0
      count := 0
      dirty := false
      valid := false
      lock := ⟨none, 0⟩ }
    modify fun s => { s with bufferCount := n + 1 }
    return some n
  else
    return none

/-- One round of the loop; `none` means that the task has blocked. -/
def getFreeBuffer (t : τ) : C τ α (Option ℕ) := do
  match ← getNewBuffer with
  | some b => return some b
  | none =>
    match (← gets (·.freeList)).getLast? with
    | some b =>
      modify fun s => { s with freeList := s.freeList.dropLast }
      hashRemove b
      modifyBuf b fun buf => { buf with valid := false }
      return some b
    | none =>
      modify fun s => { s with waitList := t :: s.waitList }
      return none

/-- The part of `getblk` after the search in the hash table. -/
def getblkFree (t : τ) (dev : ℤ) (block : ℕ) : C τ α (Option ℕ) := do
  match ← getFreeBuffer t with
  | none => return none
  | some b =>
    let buf ← getBuf b
    check (buf.count = 0)
    check (buf.dirty = false)
    modifyBuf b fun buf => { buf with count := 1, dev := dev, block := block }
    hashLocate b
    return some b

def getblk (t : τ) (dev : ℤ) (block : ℕ) : C τ α (Option ℕ) := do
  match ← getFromHashTable dev block with
  | some b =>
    modifyBuf b fun buf => { buf with count := buf.count + 1 }
    return some b
  | none => getblkFree t dev block

/-! ## The lock of a buffer -/

/-- `false` means that the task has blocked. -/
def lockAcquire (t : τ) (b : ℕ) : C τ α Bool := do
  let lock := (← getBuf b).lock
  if lock.holder = some t then
    modifyBuf b fun buf => { buf with lock := ⟨some t, lock.repeats + 1⟩ }
    return true
  else if lock.holder = none then
    check (lock.repeats = 0)
    modifyBuf b fun buf => { buf with lock := ⟨some t, 1⟩ }
    return true
  else
    return false

def lockRelease (t : τ) (b : ℕ) : C τ α Unit := do
  let lock := (← getBuf b).lock
  check (lock.holder = some t)
  if 1 < lock.repeats then
    modifyBuf b fun buf => { buf with lock := ⟨some t, lock.repeats - 1⟩ }
  else
    check (lock.repeats = 1)
    modifyBuf b fun buf => { buf with lock := ⟨none, 0⟩ }

/-! ## Reading, writing and releasing -/

/-- A call returns buffer `b` to the task. -/
def handOut (t : τ) (b : ℕ) : C τ α Unit := setHeld t b (· + 1)

/-- The part of `bread` after `lock_acquire`. -/
def breadLocked (t : τ) (b : ℕ) : C τ α Unit := do
  if (← getBuf b).valid then
    lockRelease t b
    handOut t b
  else
    setPoint t (.read b 0)

/-- `lock_acquire` and what follows, also after the task has been woken. -/
def breadLock (t : τ) (b : ℕ) : C τ α Unit := do
  if ← lockAcquire t b then
    breadLocked t b
  else
    setPoint t (.lock b)

/-- What follows `getblk`, called for `bread` or alone. -/
def gotBuffer (t : τ) (dev : ℤ) (block : ℕ) (reads : Bool) : Option ℕ → C τ α Unit
  | none => setPoint t (.free dev block reads)
  | some b => do
    if reads ∧ (← getBuf b).valid = false then
      breadLock t b
    else
      handOut t b

def bread (t : τ) (dev : ℤ) (block : ℕ) : C τ α Unit := do
  gotBuffer t dev block true (← getblk t dev block)

/-- The rest of `bread` with `n` sectors transferred. -/
def breadOn (t : τ) (b n : ℕ) : C τ α Unit := do
  let buf ← getBuf b
  if n < BLOCK_SECS then
    let sector ← gets fun s => s.disk buf.dev buf.block n
    modifyBuf b fun buf => buf.setSector n sector
    setPoint t (.read b (n + 1))
  else
    modifyBuf b fun buf => { buf with dirty := false, valid := true }
    lockRelease t b
    handOut t b

/-- `list_popback` and `task_unblock`, which wants to find the task in a list. -/
def wakeWaiter : C τ α Unit := do
  match (← gets (·.waitList)).getLast? with
  | none => return ()
  | some u =>
    modify fun s => { s with waitList := s.waitList.dropLast }
    check (u ∈ (← gets (·.waitList)))
    modify fun s => { s with waitList := s.waitList.erase u }

/-- The part of `brelse` after the write. -/
def putRef (b : ℕ) : C τ α Unit := do
  modifyBuf b fun buf => { buf with count := buf.count - 1 }
  let count := (← getBuf b).count
  check (0 ≤ count)
  if count = 0 then
    check (b ∉ (← gets (·.freeList)))
    modify fun s => { s with freeList := b :: s.freeList }
    wakeWaiter

/-- The rest of `bwrite` with `n` sectors transferred. -/
def bwriteOn (t : τ) (b n : ℕ) (releases : Bool) : C τ α Unit := do
  let buf ← getBuf b
  if n < BLOCK_SECS then
    modify fun s => s.setDisk buf.dev buf.block n (buf.data n)
    setPoint t (.write b (n + 1) releases)
  else
    modifyBuf b fun buf => { buf with dirty := false, valid := true }
    if releases then
      putRef b

def bwrite (t : τ) (b : ℕ) : C τ α Unit := do
  if (← getBuf b).dirty then
    setPoint t (.write b 0 false)

def brelse (t : τ) (b : ℕ) : C τ α Unit := do
  setHeld t b (· - 1)
  if (← getBuf b).dirty then
    setPoint t (.write b 0 true)
  else
    putRef b

/-- A holder of the buffer writes to a sector of it, and marks it dirty. -/
def alter (b i : ℕ) (v : α) : C τ α Unit :=
  modifyBuf b fun buf => { buf.setSector i v with dirty := true }

/-! ## Interleavings -/

/-- Task `t` goes on from where it waited. -/
def resume (t : τ) : Point → C τ α Unit
  | .idle => return ()
  | .free dev block reads => do gotBuffer t dev block reads (← getblkFree t dev block)
  | .lock b => breadLock t b
  | .read b n => breadOn t b n
  | .write b n releases => bwriteOn t b n releases

inductive Action (τ α : Type) where
  | getblk (t : τ) (dev : ℤ) (block : ℕ)
  | bread (t : τ) (dev : ℤ) (block : ℕ)
  | alter (t : τ) (b i : ℕ) (v : α)
  | bwrite (t : τ) (b : ℕ)
  | brelse (t : τ) (b : ℕ)
  | resume (t : τ)

def Action.task : Action τ α → τ
  | .getblk t _ _ | .bread t _ _ | .alter t _ _ _ | .bwrite t _ | .brelse t _ | .resume t => t

/-- Tasks use a buffer only while they hold a reference to it. -/
def Action.Balanced (s : State τ α) : Action τ α → Prop
  | .getblk t _ _ | .bread t _ _ => (s.procs t).point = .idle
  | .alter t b i _ => (s.procs t).point = .idle ∧ 0 < (s.procs t).held b ∧ i < BLOCK_SECS
  | .bwrite t b | .brelse t b => (s.procs t).point = .idle ∧ 0 < (s.procs t).held b
  | .resume t => (s.procs t).point ≠ .idle ∧
      ∀ dev block reads, (s.procs t).point = .free dev block reads → t ∉ s.waitList

def Action.code : Action τ α → C τ α Unit
  | .getblk t dev block => do gotBuffer t dev block false (← Cache.getblk t dev block)
  | .bread t dev block => Cache.bread t dev block
  | .alter _ b i v => Cache.alter b i v
  | .bwrite t b => Cache.bwrite t b
  | .brelse t b => Cache.brelse t b
  | .resume t => do
    let p ← gets fun s => (s.procs t).point
    setPoint t .idle
    Cache.resume t p

/-- One task runs up to its next blocking point, and no assertion fails. -/
def Step (s : State τ α) (a : Action τ α) (s' : State τ α) : Prop :=
  a.Balanced s ∧ a.code.run s = .ok ((), s', [])

/-- The state that `buffer_init` leaves, with no task in the cache. -/
structure Initial (s : State τ α) : Prop where
  count : s.bufferCount = 0
  chains : ∀ h, s.hashTable h = []
  free : s.freeList = []
  wait : s.waitList = []
  idle : ∀ t, (s.procs t).point = .idle
  held : ∀ t b, (s.procs t).held b = 0

end Code

end Ylos.Cache
