import Ylos.Model.Fs.Inode

/-! # Super blocks and formatting (`fs/super.c`) -/

namespace Ylos

open Exec

def MINIX1_MAGIC : ℕ := 0x137f

def BLOCK_SECS : ℕ := 2

def divRoundUp (num size : ℕ) : ℕ := u32 (num + size + 2 ^ 32 - 1) / size

def getFreeSuper : K ℕ := do
  match ← gets fun s => (List.range SUPER_NR).find? fun i => (s.supers i).dev = NODEV with
  | some i => pure i
  | none => fault .assertion

def modifySuper (i : ℕ) (f : SuperBlock → SuperBlock) : K Unit :=
  modify fun s => s.setSuper i (f (s.supers i))

/-- `for (i = 0; i < n; i++) brelse(maps[i]);` -/
def releaseMaps (maps : ℕ → Option BufRef) (n : ℕ) : K Unit :=
  forUpTo (fun i => brelse (maps i)) n

def putSuper (i : ℕ) : K Unit := do
  check (0 < (← gets (·.supers i)).count)
  modifySuper i fun sb => { sb with count := sb.count - 1 }
  if (← gets (·.supers i)).count ≠ 0 then
    return
  else
    modifySuper i fun sb => { sb with dev := NODEV }
    iput (← gets (·.supers i)).imount
    iput (← gets (·.supers i)).iroot
    releaseMaps (← gets (·.supers i)).imaps (← gets (·.superDesc i)).imapBlocks
    releaseMaps (← gets (·.supers i)).zmaps (← gets (·.superDesc i)).zmapBlocks
    brelse (some (← gets (·.supers i)).buf)

/-! ## `devmkfs` -/

/-- The numbers that `devmkfs` computes from the size of the device. -/
structure Layout where
  total : ℕ
  icount : ℕ

namespace Layout

variable (l : Layout)

def inodeBlocks : ℕ := divRoundUp (l.icount * DESC_SIZE) BLOCK_SIZE

def imapBlocks : ℕ := divRoundUp l.icount BLOCK_BITS % 2 ^ 16

/-- The zone count of `devmkfs` does not subtract the zone bitmap itself. -/
def zcount : ℤ := l.total - l.imapBlocks - l.inodeBlocks - 2

def zmapBlocks : ℕ := divRoundUp (l.zcount % 2 ^ 32).toNat BLOCK_BITS % 2 ^ 16

def firstdatazone : ℕ := (2 + l.imapBlocks + l.zmapBlocks + l.inodeBlocks) % 2 ^ 16

end Layout

/-- The stores to the fields of `super_desc_t`. -/
def writeSuperDesc (l : Layout) (m : Bytes) : Bytes :=
  let m := m.write 2 0 l.icount
  let m := m.write 2 2 l.total
  let m := m.write 2 4 l.imapBlocks
  let m := m.write 2 6 l.zmapBlocks
  let m := m.write 2 8 l.firstdatazone
  let m := m.write 2 10 0
  let m := m.write 4 12 (BLOCK_SIZE * TOTAL_BLOCK)
  m.write 2 16 MINIX1_MAGIC

/-- `memset(buf->data, 0, BLOCK_SIZE)`. -/
def clearBlock (b : BufRef) : K Unit := setData b fun m => m.copy 0 BLOCK_SIZE fun _ => 0

/-- Read and clear `n` bitmap blocks from block `idx` on; the array has 8 entries. -/
def readMaps (dev : ℤ) (store : ℕ → BufRef → K Unit) : (n i idx : ℕ) → K ℕ
  | 0, _, idx => pure idx
  | n + 1, i, idx => do
    if IMAP_NR ≤ i then fault .wild
    let buf ← bread dev idx
    store i buf
    clearBlock buf
    setDirty buf
    readMaps dev store n (i + 1) (idx + 1)

/-- The byte that `devmkfs` stores at the end of the used part: its loop sets the same
bit `remain` times. -/
def tailByte : (remain : ℕ) → UInt8
  | 0 => 0
  | remain + 1 => tailByte remain ||| 0x80

/-- Mark the bits from `count` on in the last block of a bitmap. -/
def fillTail (count : ℤ) (buf : BufRef) : K Unit := do
  setDirty buf
  let offset := Int.tmod count BLOCK_BITS
  let start := (Int.tdiv offset 8).toNat
  let remain := (8 - Int.tmod offset 8).toNat
  setData buf fun m => m.copy (start + 1) (BLOCK_SIZE - start - 1) fun _ => 0xFF
  setData buf fun m => m.copy start 1 fun _ => tailByte remain

def devmkfs (dev : ℤ) (icount : ℕ) : K Ret := do
  let total := (← gets (·.sectors dev)) / BLOCK_SECS
  check (total ≠ 0)
  check (icount < total)
  let l : Layout := ⟨total, if icount = 0 then total / 3 else icount⟩
  let super ← getFreeSuper
  modifySuper super fun sb => { sb with dev := dev, count := 1 }
  let buf ← bread dev 1
  modifySuper super fun sb => { sb with buf := buf }
  setDirty buf
  setData buf (writeSuperDesc l)
  modifySuper super fun sb => { sb with imaps := fun _ => none, zmaps := fun _ => none }
  let desc ← gets (·.superDesc super)
  let idx ← readMaps dev (fun i b => modifySuper super fun sb =>
    { sb with imaps := fun j => if j = i then some b else sb.imaps j }) desc.imapBlocks 0 2
  let _ ← readMaps dev (fun i b => modifySuper super fun sb =>
    { sb with zmaps := fun j => if j = i then some b else sb.zmaps j }) desc.zmapBlocks 0 idx
  let _ ← balloc dev
  let _ ← ialloc dev
  let _ ← ialloc dev
  -- `imap_blocks - 1` is the index -1 when there is no block
  if desc.imapBlocks = 0 ∨ desc.zmapBlocks = 0 then fault .wild
  fillTail (l.icount + 1) (← deref ((← gets (·.supers super)).imaps (desc.imapBlocks - 1)))
  fillTail l.zcount (← deref ((← gets (·.supers super)).zmaps (desc.zmapBlocks - 1)))
  let task ← gets (·.task)
  let iroot ← newInode dev 1
  modifySuper super fun sb => { sb with iroot := some iroot }
  setField iroot .mode ((0o777 &&& (0xFFFF ^^^ task.umask)) ||| IFDIR)
  noteInode iroot
  setField iroot .size (DENTRY_SIZE * 2)
  setField iroot .nlinks 2
  let buf ← bread dev (← bmap iroot 0 true)
  setDirty buf
  clearBlock buf
  setData buf fun m => m.copy 2 2 fun k => if k = 0 then 46 else 0
  putU16 buf 0 0 (← gets (·.inodes iroot)).nr
  setData buf fun m => m.copy (DENTRY_SIZE + 2) 3 fun k => if k < 2 then 46 else 0
  putU16 buf DENTRY_SIZE 0 (← gets (·.inodes iroot)).nr
  brelse (some buf)
  putSuper super
  return .ok

end Ylos
