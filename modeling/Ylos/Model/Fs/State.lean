import Ylos.Model.Bitmap

/-! # The state of the file system (`include/ylos/fs.h`, `stat.h`)

Kernel code runs to completion between two blocking points, so one system call run
alone sees the buffer cache as a map from blocks to contents: `img` is what the
buffers hold, `disk` what the device holds. -/

namespace Ylos

def BLOCK_SIZE : ℕ := 1024

/-- Bits in one bitmap block. -/
def BLOCK_BITS : ℕ := BLOCK_SIZE * 8

def BLOCK_INODES : ℕ := BLOCK_SIZE / 32

def BLOCK_DENTRIES : ℕ := BLOCK_SIZE / 16

/-- Pointers in one index block. -/
def BLOCK_INDEXES : ℕ := BLOCK_SIZE / 2

def DIRECT_BLOCK : ℕ := 7

def INDIRECT1_BLOCK : ℕ := BLOCK_INDEXES

def INDIRECT2_BLOCK : ℕ := INDIRECT1_BLOCK * INDIRECT1_BLOCK

def TOTAL_BLOCK : ℕ := DIRECT_BLOCK + INDIRECT1_BLOCK + INDIRECT2_BLOCK

def IMAP_NR : ℕ := 8

def ZMAP_NR : ℕ := 8

def NAME_LEN : ℕ := 14

def INODE_NR : ℕ := 64

def SUPER_NR : ℕ := 16

/-- `EOF` as a device number. -/
def NODEV : ℤ := -1

def IFMT : ℕ := 0o170000

def IFREG : ℕ := 0o100000

def IFBLK : ℕ := 0o060000

def IFDIR : ℕ := 0o040000

def IFCHR : ℕ := 0o020000

def ISVTX : ℕ := 0o001000

def isReg (m : ℕ) : Bool := m &&& IFMT = IFREG

def isDir (m : ℕ) : Bool := m &&& IFMT = IFDIR

def isChr (m : ℕ) : Bool := m &&& IFMT = IFCHR

def isBlk (m : ℕ) : Bool := m &&& IFMT = IFBLK

/-- A buffer, named by the block it caches. -/
structure BufRef where
  dev : ℤ
  blk : ℕ
  deriving DecidableEq, Repr

/-- The fields of `inode_desc_t`. -/
inductive Field where
  | mode | uid | size | mtime | gid | nlinks
  | zone (i : ℕ)
  deriving DecidableEq, Repr

/-- The size of `inode_desc_t`. -/
def DESC_SIZE : ℕ := 32

def Field.width : Field → ℕ
  | .mode => 2
  | .uid => 2
  | .size => 4
  | .mtime => 4
  | .gid => 1
  | .nlinks => 1
  | .zone _ => 2

def Field.offset : Field → ℕ
  | .mode => 0
  | .uid => 2
  | .size => 4
  | .mtime => 8
  | .gid => 12
  | .nlinks => 13
  | .zone i => 14 + 2 * i

/-- The size of `dentry_t`: the number `nr` and 14 bytes of name. -/
def DENTRY_SIZE : ℕ := 16

/-- `inode_t`. `desc` is the descriptor number `slot` in the data of `buf`. -/
structure Inode where
  dev : ℤ
  nr : ℕ
  count : ℕ
  mount : ℤ
  buf : BufRef
  slot : ℕ
  pipe : Bool
  atime : ℕ
  ctime : ℕ
  deriving DecidableEq, Repr

/-- `super_desc_t`. -/
structure SuperDesc where
  inodes : ℕ
  zones : ℕ
  imapBlocks : ℕ
  zmapBlocks : ℕ
  firstdatazone : ℕ
  deriving DecidableEq, Repr

/-- The super block as read from the data of its buffer. -/
def SuperDesc.ofBytes (m : Bytes) : SuperDesc where
  inodes := m.read 2 0
  zones := m.read 2 2
  imapBlocks := m.read 2 4
  zmapBlocks := m.read 2 6
  firstdatazone := m.read 2 8

/-- `super_block_t`; inodes are named by their index in `inode_table`. -/
structure SuperBlock where
  buf : BufRef
  imaps : ℕ → Option BufRef
  zmaps : ℕ → Option BufRef
  dev : ℤ
  count : ℕ
  inodeList : List ℕ
  iroot : Option ℕ
  imount : Option ℕ

/-- What the file system reads of the running `task_t`. -/
structure Task where
  uid : ℕ
  gid : ℕ
  umask : ℕ
  iroot : ℕ
  ipwd : ℕ
  /-- The string in the page `pwd`. -/
  pwd : List UInt8

structure Fs where
  /-- The data of the buffer of each block. -/
  img : ℤ → ℕ → Bytes
  disk : ℤ → ℕ → Bytes
  dirty : BufRef → Bool
  /-- The reference counts of the buffers. -/
  refs : BufRef → ℤ
  inodes : ℕ → Inode
  supers : ℕ → SuperBlock
  task : Task
  now : ℕ
  /-- `DEV_CMD_SECTOR_COUNT` of each device. -/
  sectors : ℤ → ℕ

/-- The branches a run has taken. -/
inductive Event where
  /-- A zone became an index table; `blank` says whether it held only zeros. -/
  | table (blank : Bool)
  /-- An inode was created with this mode over these zone pointers. -/
  | inode (mode : ℕ) (zones : List ℕ)
  /-- An allocator found no free bit. -/
  | full
  /-- A link count was about to be raised from this value. -/
  | links (n : ℕ)
  deriving DecidableEq, Repr

abbrev K := Exec Fs Event

/-- The return value of a system call: 0 or `EOF`. -/
inductive Ret where
  | ok | eof
  deriving DecidableEq, Repr

namespace Fs

def setImg (s : Fs) (b : BufRef) (m : Bytes) : Fs :=
  { s with img := fun d k => if d = b.dev ∧ k = b.blk then m else s.img d k }

def setInode (s : Fs) (i : ℕ) (v : Inode) : Fs :=
  { s with inodes := fun j => if j = i then v else s.inodes j }

def setSuper (s : Fs) (i : ℕ) (v : SuperBlock) : Fs :=
  { s with supers := fun j => if j = i then v else s.supers j }

def data (s : Fs) (b : BufRef) : Bytes := s.img b.dev b.blk

/-- `inode->desc->f`. -/
def desc (s : Fs) (i : ℕ) (f : Field) : ℕ :=
  (s.data (s.inodes i).buf).read f.width (DESC_SIZE * (s.inodes i).slot + f.offset)

/-- `sb->desc`. -/
def superDesc (s : Fs) (sb : ℕ) : SuperDesc := .ofBytes (s.data (s.supers sb).buf)

end Fs

/-! ## Buffers, for a task that runs alone (`kernel/buffer.c`) -/

open Exec

def setDirty (b : BufRef) : K Unit :=
  modify fun s => { s with dirty := fun c => if c = b then true else s.dirty c }

def setData (b : BufRef) (f : Bytes → Bytes) : K Unit :=
  modify fun s => s.setImg b (f (s.data b))

/-- `u16` number `i` of an array that starts at byte `base` of `b`. -/
def getU16 (b : BufRef) (base i : ℕ) : K ℕ :=
  gets fun s => (s.data b).read 2 (base + 2 * i)

def putU16 (b : BufRef) (base i v : ℕ) : K Unit :=
  setData b fun m => m.write 2 (base + 2 * i) v

def addRef (b : BufRef) (n : ℤ) : K Unit :=
  modify fun s => { s with refs := fun c => if c = b then s.refs c + n else s.refs c }

def bread (dev : ℤ) (block : ℕ) : K BufRef := do
  addRef ⟨dev, block⟩ 1
  return ⟨dev, block⟩

def bwrite (b : BufRef) : K Unit := do
  if (← gets (·.dirty b)) then
    modify fun s => { s with
      disk := fun d k => if d = b.dev ∧ k = b.blk then s.data b else s.disk d k
      dirty := fun c => if c = b then false else s.dirty c }

def brelse : Option BufRef → K Unit
  | none => pure ()
  | some b => do
    bwrite b
    addRef b (-1)
    check (0 ≤ (← gets (·.refs b)))

/-! ## Super blocks and descriptors -/

/-- `get_super`: the first entry of `super_table` for `dev`. -/
def getSuper (dev : ℤ) : K (Option ℕ) :=
  gets fun s => (List.range SUPER_NR).find? fun i => (s.supers i).dev = dev

/-- `sb = get_super(dev); assert(sb);` -/
def theSuper (dev : ℤ) : K ℕ := do
  match ← getSuper dev with
  | some sb => pure sb
  | none => fault .assertion

def getField (i : ℕ) (f : Field) : K ℕ := gets fun s => s.desc i f

def setField (i : ℕ) (f : Field) (v : ℕ) : K Unit :=
  modify fun s => s.setImg (s.inodes i).buf
    ((s.data (s.inodes i).buf).write f.width (DESC_SIZE * (s.inodes i).slot + f.offset) v)

/-- `inode->buf->dirty = true`. -/
def dirtyInode (i : ℕ) : K Unit := do
  setDirty (← gets fun s => (s.inodes i).buf)

end Ylos
