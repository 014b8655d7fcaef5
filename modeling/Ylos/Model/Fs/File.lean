import Ylos.Model.Fs.Namei

/-! # Files that are open (`fs/inode.c`, `fs/file.c`) -/

namespace Ylos

open Exec

def O_WRONLY : ℕ := 0o1

/-- The loop of `inode_read`. Each round reads at least one byte, so `left` rounds are
enough. -/
def readLoop (i : ℕ) : (fuel : ℕ) → (offset : ℤ) → (left : ℕ) → (data : List UInt8) →
    K (ℤ × List UInt8)
  | 0, offset, _, data => return (offset, data)
  | fuel + 1, offset, left, data => do
    if left = 0 then
      return (offset, data)
    else
      let nr ← bmap i (blockOf offset) false
      check (nr ≠ 0)
      let buf ← bread (← gets (·.inodes i)).dev nr
      let start := startOf offset
      let chars := charsOf start left
      if BLOCK_SIZE < start + chars then fault .wild
      let bytes ← gets fun s => (List.range chars).map fun k => s.data buf (start + k)
      brelse (some buf)
      readLoop i fuel (offset + chars) (left - chars) (data ++ bytes)

/-- `inode_read`: `EOF`, or the number of bytes and the bytes. The comparison with `size`
is one of `u32`. -/
def inodeRead (i len : ℕ) (offset : ℤ) : K (Option (ℕ × List UInt8)) := do
  let mode ← getField i .mode
  check (isReg mode ∨ isDir mode)
  let size ← getField i .size
  if size ≤ offU32 offset then
    return none
  else
    let left := min len (u32 (size + 2 ^ 32 - offU32 offset))
    let (stop, data) ← readLoop i left offset left []
    setAtime i
    return some (offU32 (stop - offset), data)

/-- `file_t`, without its reference count. -/
structure OpenFile where
  inode : ℕ
  offset : ℤ
  flags : ℕ
  deriving DecidableEq, Repr

/-- What a call on a descriptor turns to. -/
inductive Target where
  | refused | pipe | chr | blk | inode
  deriving DecidableEq, Repr

/-- The branches of `sys_read` and `sys_write`; `denied` is the access mode that is turned
away. -/
def targetOf (denied flags : ℕ) (pipe : Bool) (mode : ℕ) : Target :=
  if flags &&& O_ACCMODE = denied then .refused
  else if pipe then .pipe
  else if isChr mode then .chr
  else if isBlk mode then .blk
  else .inode

def readTarget : ℕ → Bool → ℕ → Target := targetOf O_WRONLY

def writeTarget : ℕ → Bool → ℕ → Target := targetOf O_RDONLY

/-- A number as an `off_t`, of 32 bits. -/
def off32 (n : ℤ) : ℤ := n.bmod (2 ^ 32)

def SECTOR_SIZE : ℕ := 512

/-- `device_write` of `count` sectors from `idx` on: the buffers are passed by. -/
def deviceWrite (dev : ℤ) (data : ℕ → UInt8) (count idx : ℕ) : K Unit :=
  modify fun s => { s with
    disk := fun d k o =>
      if d = dev ∧ idx * SECTOR_SIZE ≤ k * BLOCK_SIZE + o ∧
          k * BLOCK_SIZE + o < (idx + count) * SECTOR_SIZE
      then data (k * BLOCK_SIZE + o - idx * SECTOR_SIZE) else s.disk d k o }

/-- `sys_read`; `none` is `EOF`. A pipe and a device give the `answer`. -/
def sysRead (answer : Option ℕ × List UInt8) (file : OpenFile) (count : ℕ) :
    K ((Option ℕ × List UInt8) × OpenFile) := do
  check (0 < count)
  let pipe ← gets fun s => (s.inodes file.inode).pipe
  match readTarget file.flags pipe (← getField file.inode .mode) with
  | .refused => return ((none, []), file)
  | .pipe => return (answer, file)
  | .chr =>
    check ((← getField file.inode (.zone 0)) ≠ 0)
    return (answer, file)
  | .blk =>
    check ((← getField file.inode (.zone 0)) ≠ 0)
    check (file.offset % BLOCK_SIZE = 0 ∧ count % BLOCK_SIZE = 0)
    return (answer, file)
  | .inode =>
    match ← inodeRead file.inode count file.offset with
    | none => return ((none, []), file)
    | some (len, data) =>
      return ((some len, data), { file with offset := off32 (file.offset + len) })

/-- `sys_write`, as `sysRead`. -/
def sysWrite (answer : Option ℕ) (file : OpenFile) (data : ℕ → UInt8) (count : ℕ) :
    K (Option ℕ × OpenFile) := do
  check (0 < count)
  let pipe ← gets fun s => (s.inodes file.inode).pipe
  match writeTarget file.flags pipe (← getField file.inode .mode) with
  | .refused => return (none, file)
  | .pipe => return (answer, file)
  | .chr =>
    check ((← getField file.inode (.zone 0)) ≠ 0)
    return (answer, file)
  | .blk =>
    let dev ← getField file.inode (.zone 0)
    check (dev ≠ 0)
    check (file.offset % BLOCK_SIZE = 0 ∧ count % BLOCK_SIZE = 0)
    deviceWrite dev data (count / BLOCK_SIZE) (offU32 (file.offset / BLOCK_SIZE))
    return (answer, file)
  | .inode =>
    let len ← inodeWrite file.inode data count file.offset
    return (some len, { file with offset := off32 (file.offset + len) })

end Ylos
