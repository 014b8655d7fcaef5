import Ylos.Model.Boot
import Ylos.Model.Copy
import Ylos.Model.File
import Ylos.Model.Fs.File
import Ylos.Model.Task

/-! # RAM disks (`kernel/ramdisk.c`, `kernel/device.c`, `fs/file.c`)

The descriptors are those of the running task. What the calls do with files that are not
block special is a parameter. -/

namespace Ylos.Ramdisk

open Exec Memory Sched

def SECTOR_SIZE : ℕ := 512

def RAMDISK_NR : ℕ := 4

def DEVICE_NR : ℕ := 64

def DEV_NULL : ℕ := 0

def DEV_BLOCK : ℕ := 2

/-- `ramdisk_t`. -/
structure Disk where
  start : ℕ
  size : ℕ
  deriving DecidableEq, Repr

/-- What `sys_read` and `sys_write` look at in an `inode_t`. -/
structure Inode where
  pipe : Bool
  mode : ℕ
  /-- `desc->zone[0]`. -/
  zone0 : ℕ
  size : ℕ

structure File where
  inode : Inode
  offset : ℤ
  flags : ℕ

structure State where
  ram : Bytes
  files : ℕ → Option File

instance : Ram State where
  ram := State.ram
  withRam s m := { s with ram := m }
  ram_withRam _ _ := rfl
  withRam_withRam _ _ _ := rfl
  withRam_ram _ := rfl

abbrev M := Exec State Access

/-! ## The driver -/

/-- A `count` as the `u8` that the driver takes. -/
def u8 (count : ℕ) : ℕ := count % 2 ^ 8

def ramdiskRead (disk : Disk) (buf count lba : ℕ) : M ℕ := do
  let addr := u32 (disk.start + lba * SECTOR_SIZE)
  let len := u8 count * SECTOR_SIZE
  check (u32 (addr + len) < KERNEL_RAMDISK_MEM + KERNEL_MEMORY_SIZE)
  memcpy buf addr len
  return u8 count

def ramdiskWrite (disk : Disk) (buf count lba : ℕ) : M ℕ := do
  let addr := u32 (disk.start + lba * SECTOR_SIZE)
  let len := u8 count * SECTOR_SIZE
  check (u32 (addr + len) < KERNEL_RAMDISK_MEM + KERNEL_MEMORY_SIZE)
  memcpy addr buf len
  return u8 count

/-- The size of each disk. -/
def diskSize : ℕ := KERNEL_RAMDISK_SIZE / RAMDISK_NR

/-- `ramdisks[i]`. -/
def ramdisk (i : ℕ) : Disk := ⟨KERNEL_RAMDISK_MEM + diskSize * i, diskSize⟩

/-- The loop of `ramdisk_init` from disk `i` on, with `n` disks to go. -/
def initLoop (i : ℕ) : (n : ℕ) → M (List Disk)
  | 0 => return []
  | n + 1 => do
    let disk := ramdisk i
    memset disk.start 0 disk.size
    return disk :: (← initLoop (i + 1) n)

/-- `ramdisk_init`: the disks in the order in which they are installed. -/
def ramdiskInit : M (List Disk) := do
  check (diskSize % SECTOR_SIZE = 0)
  initLoop 0 RAMDISK_NR

/-! ## Devices -/

/-- `device_t`; the pointer that it passes on is part of its functions. -/
structure Device where
  type : ℕ
  read : Option ((buf count idx : ℕ) → M ℕ)
  write : Option ((buf count idx : ℕ) → M ℕ)

/-- The device that `ramdisk_init` installs. -/
def ramdiskDevice (disk : Disk) : Device :=
  ⟨DEV_BLOCK, some (ramdiskRead disk), some (ramdiskWrite disk)⟩

/-- `devices`, and what handles the other files. -/
structure Kernel where
  devices : ℕ → Device
  pipeRead : Inode → (buf count : ℕ) → M ℕ
  pipeWrite : Inode → (buf count : ℕ) → M ℕ
  inodeRead : Inode → (buf count : ℕ) → (offset : ℤ) → M ℕ
  inodeWrite : Inode → (buf count : ℕ) → (offset : ℤ) → M ℕ

variable (k : Kernel)

def deviceGet (dev : ℕ) : M Device := do
  check (dev < DEVICE_NR)
  check ((k.devices dev).type ≠ DEV_NULL)
  return k.devices dev

def deviceRead (dev buf count idx : ℕ) : M ℕ := do
  match (← deviceGet k dev).read with
  | some read => read buf count idx
  | none => return EOF

def deviceWrite (dev buf count idx : ℕ) : M ℕ := do
  match (← deviceGet k dev).write with
  | some write => write buf count idx
  | none => return EOF

/-! ## Files -/

/-- `running_task()->files[fd]`, which is asserted not to be null. -/
def getFile (fd : ℕ) : M File := do
  match ← gets (·.files fd) with
  | none => fault .assertion
  | some file => return file

def setOffset (fd : ℕ) (file : File) (offset : ℤ) : M Unit :=
  modify fun s => { s with
    files := fun i => if i = fd then some { file with offset := int32 offset } else s.files i }

def sysRead (fd buf : ℕ) (count : ℤ) : M ℕ := do
  let file ← getFile fd
  check (0 < count)
  match readTarget file.flags file.inode.pipe file.inode.mode with
  | .refused => return EOF
  | .pipe => k.pipeRead file.inode buf count.toNat
  | .chr =>
    check (file.inode.zone0 ≠ 0)
    deviceRead k file.inode.zone0 buf count.toNat 0
  | .blk =>
    check (file.inode.zone0 ≠ 0)
    let _ ← deviceGet k file.inode.zone0
    check (file.offset.tmod BLOCK_SIZE = 0)
    check (count.tmod BLOCK_SIZE = 0)
    deviceRead k file.inode.zone0 buf (uint32 (count.tdiv BLOCK_SIZE)).toNat
      (uint32 (file.offset.tdiv BLOCK_SIZE)).toNat
  | .inode =>
    let len ← k.inodeRead file.inode buf count.toNat file.offset
    if len ≠ EOF then
      setOffset fd file (file.offset + len)
    return len

def sysWrite (fd buf : ℕ) (count : ℤ) : M ℕ := do
  let file ← getFile fd
  check (0 < count)
  match writeTarget file.flags file.inode.pipe file.inode.mode with
  | .refused => return EOF
  | .pipe => k.pipeWrite file.inode buf count.toNat
  | .chr =>
    check (file.inode.zone0 ≠ 0)
    let _ ← deviceGet k file.inode.zone0
    deviceWrite k file.inode.zone0 buf count.toNat 0
  | .blk =>
    check (file.inode.zone0 ≠ 0)
    let _ ← deviceGet k file.inode.zone0
    check (file.offset.tmod BLOCK_SIZE = 0)
    check (count.tmod BLOCK_SIZE = 0)
    deviceWrite k file.inode.zone0 buf (uint32 (count.tdiv BLOCK_SIZE)).toNat
      (uint32 (file.offset.tdiv BLOCK_SIZE)).toNat
  | .inode =>
    let len ← k.inodeWrite file.inode buf count.toNat file.offset
    if len ≠ EOF then
      setOffset fd file (file.offset + len)
    return len

end Ylos.Ramdisk
