import Ylos.Model.Fs.Alloc

/-! # Inodes in core and file contents (`fs/inode.c`) -/

namespace Ylos

open Exec

def modifyInode (i : ℕ) (f : Inode → Inode) : K Unit :=
  modify fun s => s.setInode i (f (s.inodes i))

def getFreeInode : K ℕ := do
  match ← gets fun s => (List.range INODE_NR).find? fun i => (s.inodes i).dev = NODEV with
  | some i => pure i
  | none => fault .assertion

def putFreeInode (i : ℕ) : K Unit := do
  check (i ≠ 0)
  check ((← gets (·.inodes i)).count = 0)
  modifyInode i fun inode => { inode with dev := NODEV }

/-- `inode->count++` and `inode->count--`. -/
def incCount (i : ℕ) : K Unit :=
  modifyInode i fun inode => { inode with count := u32 (inode.count + 1) }

def decCount (i : ℕ) : K Unit :=
  modifyInode i fun inode => { inode with count := u32 (inode.count + 2 ^ 32 - 1) }

/-- `inode->atime = time()`. -/
def setAtime (i : ℕ) : K Unit := do
  let now ← gets (·.now)
  modifyInode i fun inode => { inode with atime := now }

/-- `inode->ctime = t`. -/
def setCtime (i t : ℕ) : K Unit := modifyInode i fun inode => { inode with ctime := t }

def putPipeInode (i : ℕ) : K Unit := do
  decCount i
  if (← gets (·.inodes i)).count ≠ 0 then return
  modifyInode i fun inode => { inode with pipe := false }
  putFreeInode i

/-- `list_remove(&inode->node)`: the node must be linked. -/
def unlinkInode (i : ℕ) : K Unit := do
  check (← gets fun s => (List.range SUPER_NR).any fun k => i ∈ (s.supers k).inodeList)
  modify fun s => { s with
    supers := fun k => { s.supers k with inodeList := (s.supers k).inodeList.erase i } }

def iput : Option ℕ → K Unit
  | none => pure ()
  | some i => do
    if (← gets (·.inodes i)).pipe then
      putPipeInode i
    else
      let buf := (← gets (·.inodes i)).buf
      if (← gets (·.dirty buf)) then bwrite buf
      decCount i
      if (← gets (·.inodes i)).count ≠ 0 then return
      brelse (some buf)
      unlinkInode i
      putFreeInode i

/-- `nr - 1` in `idx_t` arithmetic. -/
def pred (nr : ℕ) : ℕ := u32 (nr + 2 ^ 32 - 1)

def inodeBlock (d : SuperDesc) (nr : ℕ) : ℕ :=
  2 + d.imapBlocks + d.zmapBlocks + pred nr / BLOCK_INODES

def findInode (dev : ℤ) (nr : ℕ) : K (Option ℕ) := do
  let sb ← theSuper dev
  gets fun s => (s.supers sb).inodeList.find? fun i => (s.inodes i).nr = nr

def fitInode (i : ℕ) : K ℕ := do
  let inode ← gets (·.inodes i)
  if inode.mount = 0 then
    return i
  else
    let super ← theSuper inode.mount
    iput (some i)
    let root ← deref (← gets (·.supers super)).iroot
    incCount root
    return root

def iget (dev : ℤ) (nr : ℕ) : K ℕ := do
  match ← findInode dev nr with
  | some i =>
    incCount i
    setAtime i
    fitInode i
  | none =>
    let sb ← theSuper dev
    let d ← gets (·.superDesc sb)
    check (nr ≤ d.inodes)
    let i ← getFreeInode
    modifyInode i fun inode => { inode with dev := dev, nr := nr, count := u32 (inode.count + 1) }
    modify fun s => s.setSuper sb { s.supers sb with inodeList := i :: (s.supers sb).inodeList }
    let buf ← bread dev (inodeBlock d nr)
    modifyInode i fun inode => { inode with buf := buf, slot := pred nr % BLOCK_INODES }
    setCtime i (← getField i .mtime)
    setAtime i
    return i

def newInode (dev : ℤ) (nr : ℕ) : K ℕ := do
  let task ← gets (·.task)
  let i ← iget dev nr
  dirtyInode i
  setField i .mode (0o777 &&& (0xFFFF ^^^ task.umask))
  setField i .uid task.uid
  setField i .size 0
  setAtime i
  setField i .mtime (← gets (·.now))
  setField i .gid task.gid
  setField i .nlinks 1
  return i

/-- The history of a creation: the final mode and the pointers found in the slot. -/
def noteInode (i : ℕ) : K Unit := do
  note (.inode (← getField i .mode)
    (← gets fun s => (List.range 9).map fun z => s.desc i (.zone z)))

/-! ## Reading and writing -/

/-- `offset / BLOCK_SIZE` as an `idx_t`; C division rounds towards zero. -/
def blockOf (offset : ℤ) : ℕ := (Int.tdiv offset BLOCK_SIZE % 2 ^ 32).toNat

/-- `offset % BLOCK_SIZE` as a `u32`. -/
def startOf (offset : ℤ) : ℕ := (Int.tmod offset BLOCK_SIZE % 2 ^ 32).toNat

def offU32 (offset : ℤ) : ℕ := (offset % 2 ^ 32).toNat

/-- The bytes handled in one block: `MIN(BLOCK_SIZE - start, left)`. -/
def charsOf (start left : ℕ) : ℕ := min (u32 (BLOCK_SIZE + 2 ^ 32 - start)) left

/-- The loop of `inode_write`. Each round stores at least one byte, so `left` rounds
are enough. `done` bytes of `data` are stored already. -/
def writeLoop (i : ℕ) (data : ℕ → UInt8) :
    (fuel : ℕ) → (offset : ℤ) → (left done : ℕ) → K ℤ
  | 0, offset, _, _ => pure offset
  | fuel + 1, offset, left, done => do
    if left = 0 then
      return offset
    else
      let nr ← bmap i (blockOf offset) true
      check (nr ≠ 0)
      let buf ← bread (← gets (·.inodes i)).dev nr
      setDirty buf
      let start := startOf offset
      let chars := charsOf start left
      let next := offset + chars
      if (← getField i .size) < offU32 next then
        setField i .size (offU32 next)
        dirtyInode i
      if BLOCK_SIZE < start + chars then fault .wild
      setData buf fun m => m.copy start chars fun k => data (done + k)
      brelse (some buf)
      writeLoop i data fuel next (left - chars) (done + chars)

def inodeWrite (i : ℕ) (data : ℕ → UInt8) (len : ℕ) (offset : ℤ) : K ℕ := do
  check (isReg (← getField i .mode))
  let stop ← writeLoop i data len offset len 0
  setAtime i
  setField i .mtime (← gets (·.now))
  bwrite (← gets fun s => (s.inodes i).buf)
  return offU32 (stop - offset)

/-- `for (i = 0; i < n; i++) f(i);` -/
def forUpTo (f : ℕ → K Unit) : ℕ → K Unit
  | 0 => pure ()
  | n + 1 => do
    forUpTo f n
    f n

/-- `inode_bfree` on entry `index` of the array at byte `base` of `buf`. -/
def inodeBfree (dev : ℤ) : (level : ℕ) → (buf : BufRef) → (base index : ℕ) → K Unit
  | 0, buf, base, index => do
    let zone ← getU16 buf base index
    if zone = 0 then return
    bfree dev zone
  | level + 1, buf, base, index => do
    let zone ← getU16 buf base index
    if zone = 0 then return
    let table ← bread dev zone
    forUpTo (fun j => inodeBfree dev level table 0 j) BLOCK_INDEXES
    brelse (some table)
    bfree dev (← getU16 buf base index)

/-- Free what hangs off `zone[index]` and clear the pointer. -/
def dropZone (i level index : ℕ) : K Unit := do
  let inode ← gets (·.inodes i)
  inodeBfree inode.dev level inode.buf
    (DESC_SIZE * inode.slot + (Field.zone 0).offset) index
  setField i (.zone index) 0

def inodeTruncate (i : ℕ) : K Unit := do
  let mode ← getField i .mode
  if !isReg mode && !isDir mode then
    return
  else
    forUpTo (fun z => dropZone i 0 z) DIRECT_BLOCK
    dropZone i 1 DIRECT_BLOCK
    dropZone i 2 (DIRECT_BLOCK + 1)
    setField i .size 0
    dirtyInode i
    setField i .mtime (← gets (·.now))
    bwrite (← gets fun s => (s.inodes i).buf)

end Ylos
