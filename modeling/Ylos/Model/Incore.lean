import Ylos.Model.Buffer
import Ylos.Model.Fs.Inode

/-! # Inodes in core, for several tasks (`fs/inode.c`)

`iget` and `iput` over the buffer cache. A task runs without interruption until `bread`
blocks in it: for a free buffer, for the lock of the buffer, or for the device. No inode
is a mount point, and none is a pipe. -/

namespace Ylos.Incore

open Exec

/-- `inode_t`. Its buffer and its descriptor, number `slot` in the data of a buffer, stay
what they are when the inode is put. -/
structure Inode where
  dev : ℤ
  nr : ℕ
  count : ℕ
  buf : Option ℕ
  desc : Option (ℕ × ℕ)

/-- Where a task waits in `iget(dev, nr)` for inode `i`. -/
inductive Point where
  /-- Nowhere: the task runs its own code. -/
  | idle
  /-- In `get_free_buffer`. -/
  | free (dev : ℤ) (nr i : ℕ)
  /-- In `lock_acquire` of buffer `b`. -/
  | lock (dev : ℤ) (nr i b : ℕ)
  /-- In `device_request` for buffer `b`. -/
  | read (dev : ℤ) (nr i b : ℕ)
  deriving DecidableEq, Repr

structure State (τ α : Type) where
  cache : Cache.State τ α
  /-- The descriptors of the super blocks. -/
  supers : ℤ → Option SuperDesc
  /-- `inode_table`. -/
  inodes : ℕ → Inode
  /-- `inode_list` of each super block. -/
  lists : ℤ → List ℕ
  points : τ → Point
  /-- How many references to each inode a task was given and has not passed to `iput`. -/
  held : τ → ℕ → ℕ

/-- `iget(dev, nr)` returned inode `i` to task `t`. -/
structure Event (τ : Type) where
  t : τ
  dev : ℤ
  nr : ℕ
  i : ℕ

abbrev M (τ α : Type) := Exec (State τ α) (Event τ)

section Code

variable {τ α β : Type} [DecidableEq τ]

namespace State

def setInode (s : State τ α) (i : ℕ) (v : Inode) : State τ α :=
  { s with inodes := fun j => if j = i then v else s.inodes j }

def setList (s : State τ α) (dev : ℤ) (l : List ℕ) : State τ α :=
  { s with lists := fun d => if d = dev then l else s.lists d }

def setPoint (s : State τ α) (t : τ) (p : Point) : State τ α :=
  { s with points := fun u => if u = t then p else s.points u }

def setHeld (s : State τ α) (t : τ) (i n : ℕ) : State τ α :=
  { s with held := fun u j => if u = t ∧ j = i then n else s.held u j }

end State

/-- Code of the buffer cache. -/
def onCache (x : Cache.C τ α β) : M τ α β := fun s =>
  match x.run s.cache with
  | .error e => .error e
  | .ok (b, cache, _) => .ok (b, { s with cache := cache }, [])

def modifyInode (i : ℕ) (f : Inode → Inode) : M τ α Unit :=
  modify fun s => s.setInode i (f (s.inodes i))

def setPoint (t : τ) (p : Point) : M τ α Unit := modify fun s => s.setPoint t p

def theSuper (dev : ℤ) : M τ α SuperDesc := do
  match ← gets (·.supers dev) with
  | some d => pure d
  | none => fault .assertion

/-! ## `iget` -/

def findInode (dev : ℤ) (nr : ℕ) : M τ α (Option ℕ) := do
  let _ ← theSuper dev
  gets fun s => (s.lists dev).find? fun i => (s.inodes i).nr = nr

def getFreeInode : M τ α ℕ := do
  match ← gets fun s => (List.range INODE_NR).find? fun i => (s.inodes i).dev = NODEV with
  | some i => pure i
  | none => fault .assertion

/-- `iget` returns. -/
def handOut (t : τ) (dev : ℤ) (nr i : ℕ) : M τ α Unit := do
  modify fun s => s.setHeld t i (s.held t i + 1)
  note ⟨t, dev, nr, i⟩

/-- The part of `iget` after `bread`, which has returned buffer `b`. -/
def igetRead (t : τ) (dev : ℤ) (nr i b : ℕ) : M τ α Unit := do
  modifyInode i fun inode =>
    { inode with buf := some b, desc := some (b, pred inode.nr % BLOCK_INODES) }
  handOut t dev nr i

/-- The part of `bread` after `lock_acquire`. -/
def breadLocked (t : τ) (dev : ℤ) (nr i b : ℕ) : M τ α Unit := do
  if (← onCache (Cache.getBuf b)).valid then
    onCache (Cache.lockRelease t b)
    igetRead t dev nr i b
  else
    setPoint t (.read dev nr i b)

/-- `lock_acquire` and what follows, also after the task has been woken. -/
def breadLock (t : τ) (dev : ℤ) (nr i b : ℕ) : M τ α Unit := do
  if ← onCache (Cache.lockAcquire t b) then
    breadLocked t dev nr i b
  else
    setPoint t (.lock dev nr i b)

/-- What follows `getblk` in `bread`. -/
def gotBuffer (t : τ) (dev : ℤ) (nr i : ℕ) : Option ℕ → M τ α Unit
  | none => setPoint t (.free dev nr i)
  | some b => do
    if (← onCache (Cache.getBuf b)).valid then
      igetRead t dev nr i b
    else
      breadLock t dev nr i b

/-- `bread` from the end of `device_request` on. -/
def breadOn (t : τ) (dev : ℤ) (nr i b : ℕ) : M τ α Unit := do
  let disk ← gets (·.cache.disk)
  onCache (Cache.modifyBuf b fun buf => { buf with
    data := disk buf.dev buf.block
    dirty := false
    valid := true })
  onCache (Cache.lockRelease t b)
  igetRead t dev nr i b

def iget (t : τ) (dev : ℤ) (nr : ℕ) : M τ α Unit := do
  match ← findInode dev nr with
  | some i =>
    modifyInode i fun inode => { inode with count := u32 (inode.count + 1) }
    handOut t dev nr i
  | none =>
    let d ← theSuper dev
    check (nr ≤ d.inodes)
    let i ← getFreeInode
    modifyInode i fun inode => { inode with dev := dev, nr := nr, count := u32 (inode.count + 1) }
    modify fun s => s.setList dev (i :: s.lists dev)
    gotBuffer t dev nr i (← onCache (Cache.getblk t dev (inodeBlock d nr)))

/-! ## `iput` -/

/-- `bwrite`; the task is taken to run on until the block is written. -/
def bwrite (b : ℕ) : M τ α Unit := do
  if (← onCache (Cache.getBuf b)).dirty then
    onCache (modify fun s => { s with
      disk := fun d k => if d = (s.buffers b).dev ∧ k = (s.buffers b).block
        then (s.buffers b).data else s.disk d k })
    onCache (Cache.modifyBuf b fun buf => { buf with dirty := false, valid := true })

def brelse (b : ℕ) : M τ α Unit := do
  bwrite b
  onCache (Cache.putRef b)

def putFreeInode (i : ℕ) : M τ α Unit := do
  check (i ≠ 0)
  check ((← gets (·.inodes i)).count = 0)
  modifyInode i fun inode => { inode with dev := NODEV }

/-- `list_remove(&inode->node)`: the node must be linked. -/
def unlinkInode (i : ℕ) : M τ α Unit := do
  let dev := (← gets (·.inodes i)).dev
  check (i ∈ (← gets (·.lists dev)))
  modify fun s => s.setList dev ((s.lists dev).erase i)

def iput (t : τ) (i : ℕ) : M τ α Unit := do
  modify fun s => s.setHeld t i (s.held t i - 1)
  let b ← deref (← gets (·.inodes i)).buf
  bwrite b
  modifyInode i fun inode => { inode with count := u32 (inode.count + 2 ^ 32 - 1) }
  if (← gets (·.inodes i)).count = 0 then
    brelse b
    unlinkInode i
    putFreeInode i

/-! ## Interleavings -/

/-- Task `t` goes on from where it waited. -/
def resume (t : τ) : Point → M τ α Unit
  | .idle => return ()
  | .free dev nr i => do
    let d ← theSuper dev
    gotBuffer t dev nr i (← onCache (Cache.getblkFree t dev (inodeBlock d nr)))
  | .lock dev nr i b => breadLock t dev nr i b
  | .read dev nr i b => breadOn t dev nr i b

inductive Action (τ : Type) where
  | iget (t : τ) (dev : ℤ) (nr : ℕ)
  | iput (t : τ) (i : ℕ)
  | resume (t : τ)

/-- Tasks put an inode only while they hold a reference to it. -/
def Action.Possible (s : State τ α) : Action τ → Prop
  | .iget t _ _ => s.points t = .idle
  | .iput t i => s.points t = .idle ∧ 0 < s.held t i
  | .resume t => s.points t ≠ .idle ∧ t ∉ s.cache.waitList

def Action.code : Action τ → M τ α Unit
  | .iget t dev nr => Incore.iget t dev nr
  | .iput t i => Incore.iput t i
  | .resume t => do
    let p ← gets (·.points t)
    setPoint t .idle
    Incore.resume t p

/-- One task runs up to its next blocking point, and no assertion fails. -/
def Step (s : State τ α) (a : Action τ × List (Event τ)) (s' : State τ α) : Prop :=
  a.1.Possible s ∧ a.1.code.run s = .ok ((), s', a.2)

/-- The state that `buffer_init`, `inode_init` and `super_init` leave, with file systems
mounted. -/
structure Initial (s : State τ α) : Prop where
  cache : Cache.Initial s.cache
  supers : s.supers NODEV = none
  inodes : ∀ i, (s.inodes i).dev = NODEV ∧ (s.inodes i).count = 0
  lists : ∀ dev, s.lists dev = []
  points : ∀ t, s.points t = .idle
  held : ∀ t i, s.held t i = 0

end Code

end Ylos.Incore
