import Ylos.Model.Fs.State

/-! # Zone and inode allocation (`fs/bmap.c`) -/

namespace Ylos

open Exec

/-- `bitmap_make` over the data of a buffer, which is `BLOCK_SIZE` bytes long. -/
def bitmapOf (s : Fs) (b : BufRef) (length offset : ℕ) : Bitmap where
  bits := s.data b
  size := BLOCK_SIZE
  length := length
  offset := offset

/-- The search of `balloc` and `ialloc` over the bitmap blocks `maps i`, `i < 8`:
the last buffer tried, and the index found or `EOF`. -/
def allocLoop (maps : ℕ → Option BufRef) (length : ℕ) (offset : ℕ → ℕ) (zones : ℕ) :
    (n i : ℕ) → BufRef → K (BufRef × ℕ)
  | 0, _, last => pure (last, EOF)
  | n + 1, i, _ => do
    match maps i with
    | none => fault .assertion
    | some buf =>
      let (bit, map) ← lift (bitmapScan (bitmapOf (← get) buf length (offset i)) 1)
      if bit ≠ EOF then
        setData buf fun _ => map.bits
        check (bit < zones)
        setDirty buf
        return (buf, bit)
      else
        allocLoop maps length offset zones n (i + 1) buf

/-- `sb->desc->firstdatazone - 1 + i * BLOCK_BITS`, in `u32` arithmetic. -/
def zmapOffset (d : SuperDesc) (i : ℕ) : ℕ := u32 (i * BLOCK_BITS + d.firstdatazone + 2 ^ 32 - 1)

def imapOffset (i : ℕ) : ℕ := i * BLOCK_BITS

def balloc (dev : ℤ) : K ℕ := do
  let sb ← theSuper dev
  let d ← gets (·.superDesc sb)
  let maps ← gets fun s => (s.supers sb).zmaps
  let (buf, bit) ← allocLoop maps BLOCK_SIZE (zmapOffset d) d.zones ZMAP_NR 0 ⟨dev, 0⟩
  if bit = EOF then note .full
  bwrite buf
  return bit

/-- The length passed to `bitmap_make` here is `BLOCK_BITS`, in a place for bytes. -/
def ialloc (dev : ℤ) : K ℕ := do
  let sb ← theSuper dev
  let d ← gets (·.superDesc sb)
  let maps ← gets fun s => (s.supers sb).imaps
  let (buf, bit) ← allocLoop maps BLOCK_BITS imapOffset d.zones IMAP_NR 0 ⟨dev, 0⟩
  if bit = EOF then note .full
  bwrite buf
  return bit

/-- The search of `bfree` and `ifree`: the first `i` with `idx ≤ BLOCK_BITS * (i + 1)`. -/
def freeLoop (maps : ℕ → Option BufRef) (length : ℕ) (offset : ℕ → ℕ) (idx : ℕ) :
    (n i : ℕ) → K Unit
  -- no block matched: `buf` was never assigned
  | 0, _ => fault .wild
  | n + 1, i => do
    if BLOCK_BITS * (i + 1) < idx then
      freeLoop maps length offset idx n (i + 1)
    else
      match maps i with
      | none => fault .assertion
      | some buf =>
        let map ← gets fun s => bitmapOf s buf length (offset i)
        check ((← lift (bitmapTest map idx)) = true)
        let map ← lift (bitmapSet map idx false)
        setData buf fun _ => map.bits
        setDirty buf
        bwrite buf

def bfree (dev : ℤ) (idx : ℕ) : K Unit := do
  let sb ← theSuper dev
  let d ← gets (·.superDesc sb)
  check (idx < d.zones)
  let maps ← gets fun s => (s.supers sb).zmaps
  freeLoop maps BLOCK_SIZE (zmapOffset d) idx ZMAP_NR 0

def ifree (dev : ℤ) (idx : ℕ) : K Unit := do
  let sb ← theSuper dev
  let d ← gets (·.superDesc sb)
  check (idx < d.zones)
  let maps ← gets fun s => (s.supers sb).imaps
  freeLoop maps BLOCK_BITS imapOffset idx IMAP_NR 0

/-! ## Block mapping -/

/-- The pointers of an index block are all zero. -/
def blankTable (m : Bytes) : Bool := (List.range BLOCK_INDEXES).all fun j => m.read 2 (2 * j) = 0

/-- Pointer `index` of the array at byte `base` of `buf`: a zone is allocated for it if it is
zero and `create`, and `buf` is released. `level` index blocks follow on the way down. -/
def arrayZone (dev : ℤ) (create : Bool) (level : ℕ) (buf : BufRef) (base index : ℕ) : K ℕ := do
  if (← getU16 buf base index) = 0 ∧ create then
    let zone ← balloc dev
    if level ≠ 0 then note (.table (blankTable (← gets (·.img dev (zone % 2 ^ 16)))))
    putU16 buf base index zone
    setDirty buf
  brelse (some buf)
  getU16 buf base index

/-- The loop at `reckon`. The array is at byte `base` of `buf`, and `level` index
blocks lie between it and the block looked for. -/
def reckon (dev : ℤ) (create : Bool) :
    (level : ℕ) → (buf : BufRef) → (base index block divider : ℕ) → K ℕ
  | 0, buf, base, index, _, _ => arrayZone dev create 0 buf base index
  | level + 1, buf, base, index, block, divider => do
    let zone ← arrayZone dev create (level + 1) buf base index
    if zone = 0 then
      return zone
    else
      let buf ← bread dev zone
      reckon dev create level buf 0 (block / divider % 2 ^ 16) (block % divider)
        (divider / BLOCK_INDEXES)

/-- Block `block` of the file, allocated on the way if `create`. -/
def bmap (i block : ℕ) (create : Bool) : K ℕ := do
  check (block < TOTAL_BLOCK)
  let inode ← gets (·.inodes i)
  addRef inode.buf 1
  let zones := DESC_SIZE * inode.slot + (Field.zone 0).offset
  if block < DIRECT_BLOCK then
    reckon inode.dev create 0 inode.buf zones block block 1
  else
    let block := block - DIRECT_BLOCK
    if block < INDIRECT1_BLOCK then
      reckon inode.dev create 1 inode.buf zones DIRECT_BLOCK block 1
    else
      let block := block - INDIRECT1_BLOCK
      check (block < INDIRECT2_BLOCK)
      reckon inode.dev create 2 inode.buf zones (DIRECT_BLOCK + 1) block BLOCK_INDEXES

end Ylos
