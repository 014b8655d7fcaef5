import Ylos.Lib.Runs
import Ylos.Model.Bitmap
import Mathlib.Data.Finset.Basic

/-! # Virtual memory (`kernel/memory.c`)

Physical memory is made of frames of 1024 words, and a word is read as a
`page_entry_t`. The first `KERNEL_PAGES` frames are the kernel's and are mapped
one to one in every page directory, so that a kernel page is its frame. The kernel
reaches its page tables through the last slot of the directory, which refers to the
directory itself. -/

namespace Ylos.Memory

open Exec

def PAGE_SIZE : ℕ := 0x1000

/-- `IDX(KERNEL_MEMORY_SIZE)`. -/
def KERNEL_PAGES : ℕ := 4096

/-- The user slots of a page directory are those from here to `SELF_SLOT`. -/
def KERNEL_SLOTS : ℕ := 4

/-- The slot that refers to the directory itself. -/
def SELF_SLOT : ℕ := 1023

def KERNEL_USER : ℕ := 0

def USER_EXEC_ADDR : ℕ := 0x1000000

def USER_MMAP_ADDR : ℕ := 0x8000000

def USER_MMAP_SIZE : ℕ := 0x8000000

def USER_STACK_TOP : ℕ := 0x10000000

def USER_STACK_BOTTOM : ℕ := USER_STACK_TOP - 0x200000

/-- `PDE_MASK`, where the page tables appear. -/
def WINDOW : ℕ := 0xFFC00000

/-- A word as `page_entry_t`; `misc` are the bits from `pwt` to `global`, and `index` has
20 bits. -/
structure Word where
  present : Bool
  write : Bool
  user : Bool
  misc : ℕ
  shared : Bool
  privat : Bool
  readonly : Bool
  index : ℕ
  deriving DecidableEq, Repr

def Word.zero : Word := ⟨false, false, false, 0, false, false, false, 0⟩

/-- Bit `k` of a word becomes 1. -/
def Word.setBit (w : Word) (k : ℕ) : Word :=
  match k with
  | 0 => { w with present := true }
  | 1 => { w with write := true }
  | 2 => { w with user := true }
  | 9 => { w with shared := true }
  | 10 => { w with privat := true }
  | 11 => { w with readonly := true }
  | k => if k < 9 then { w with misc := w.misc ||| 2 ^ (k - 3) }
    else { w with index := w.index ||| 2 ^ (k - 12) }

/-- What `entry_init` writes. -/
def entryInit (index : ℕ) : Word := ⟨true, true, true, 0, false, false, false, index⟩

def IDX (addr : ℕ) : ℕ := addr / 2 ^ 12

def DIDX (addr : ℕ) : ℕ := addr / 2 ^ 22 % 1024

def TIDX (addr : ℕ) : ℕ := addr / 2 ^ 12 % 1024

/-- What the address space of a task needs of `task_t`. `vmapPage` is the page behind
`vmap->bits`, whose bytes are those of `vmap`. -/
structure Proc where
  pde : ℕ
  vmap : Bitmap
  vmapPage : ℕ
  brk : ℕ
  endAddr : ℕ
  uid : ℕ

structure State where
  mem : ℕ → ℕ → Word
  memoryMap : ℕ → ℕ
  freePages : ℕ
  startPage : ℕ
  totalPages : ℕ
  kernelMap : Bitmap
  procs : ℕ → Proc
  /-- The tasks that have a page directory of their own and have not exited. -/
  live : Finset ℕ
  current : ℕ

/-- The branches a run has taken. -/
inductive Event where
  /-- `bitmap_set` wrote beyond the page of a `vmap`. -/
  | beyond
  /-- `sys_mmap` made an entry writable or shared whose frame has other mappings. -/
  | regrant
  /-- A user-mode store went through the window. -/
  | window
  deriving DecidableEq, Repr

abbrev M := Exec State Event

namespace State

def setWord (s : State) (frame i : ℕ) (w : Word) : State :=
  { s with mem := fun g j => if g = frame ∧ j = i then w else s.mem g j }

def setFrame (s : State) (frame : ℕ) (ws : ℕ → Word) : State :=
  { s with mem := fun g => if g = frame then ws else s.mem g }

def setCount (s : State) (frame n : ℕ) : State :=
  { s with memoryMap := fun g => if g = frame then n else s.memoryMap g }

def setProc (s : State) (p : ℕ) (v : Proc) : State :=
  { s with procs := fun q => if q = p then v else s.procs q }

def task (s : State) : Proc := s.procs s.current

/-- The frame that appears at `WINDOW + i * PAGE_SIZE` in the current address space. -/
def window (s : State) (i : ℕ) : ℕ := (s.mem (s.mem s.task.pde SELF_SLOT).index i).index

end State

def getWord (frame i : ℕ) : M Word := gets fun s => s.mem frame i

def setWord (frame i : ℕ) (w : Word) : M Unit := modify fun s => s.setWord frame i w

/-! ## Frames and kernel pages -/

def getPage : M ℕ := do
  let s ← get
  match (List.range' s.startPage (s.totalPages - s.startPage)).find? fun i =>
      s.memoryMap i = 0 with
  | none => fault .assertion
  | some i =>
    modify fun s => { s.setCount i 1 with freePages := u32 (s.freePages + 2 ^ 32 - 1) }
    return i

def putPage (idx : ℕ) : M Unit := do
  let s ← get
  check (s.startPage ≤ idx ∧ idx < s.totalPages)
  check (1 ≤ s.memoryMap idx)
  modify fun s => s.setCount idx (s.memoryMap idx - 1)
  if (← gets (·.memoryMap idx)) = 0 then
    modify fun s => { s with freePages := u32 (s.freePages + 1) }
  let s ← get
  check (0 < s.freePages ∧ s.freePages < s.totalPages)

/-- `alloc_kpage(1)`. -/
def allocKpage : M ℕ := do
  let (index, map) ← lift (bitmapScan (← get).kernelMap 1)
  check (index ≠ EOF)
  modify fun s => { s with kernelMap := map }
  return index

/-- `free_kpage(page, 1)`. -/
def freeKpage (page : ℕ) : M Unit := do
  let map ← gets (·.kernelMap)
  check ((← lift (bitmapTest map page)) = true)
  let map ← lift (bitmapSet map page false)
  modify fun s => { s with kernelMap := map }

/-! ## Page tables -/

/-- `get_pde`, as the frame that it points to. -/
def getPde : M ℕ := gets (·.window SELF_SLOT)

/-- `get_pte`, as the frame that it points to. -/
def getPte (vaddr : ℕ) (create : Bool) : M ℕ := do
  let pde ← getPde
  let entry ← getWord pde (DIDX vaddr)
  check (create = true ∨ entry.present = true)
  if entry.present = false then
    let page ← getPage
    setWord pde (DIDX vaddr) (entryInit page)
    modify fun s => s.setFrame (s.window (DIDX vaddr)) fun _ => .zero
  gets (·.window (DIDX vaddr))

def linkPage (vaddr : ℕ) : M Unit := do
  check (vaddr % PAGE_SIZE = 0)
  let table ← getPte vaddr true
  if (← getWord table (TIDX vaddr)).present = false then
    let page ← getPage
    setWord table (TIDX vaddr) (entryInit page)

def unlinkPage (vaddr : ℕ) : M Unit := do
  check (vaddr % PAGE_SIZE = 0)
  if (← getWord (← getPde) (DIDX vaddr)).present then
    let table ← getPte vaddr false
    let entry ← getWord table (TIDX vaddr)
    if entry.present then
      setWord table (TIDX vaddr) { entry with present := false }
      putPage entry.index

/-- `copy_page` of the page that is the frame `page`; the copy is made through page 0,
which is mapped for it. -/
def copyPage (page : ℕ) : M ℕ := do
  let paddr ← getPage
  let table ← getPte 0 false
  setWord table 0 (entryInit paddr)
  modify fun s => s.setFrame (s.mem table 0).index (s.mem page)
  let entry ← getWord table 0
  setWord table 0 { entry with present := false }
  return paddr

/-- The inner loop of `copy_pde`, over the entries of a page table. -/
def shareTable (table : ℕ) : List ℕ → M Unit
  | [] => pure ()
  | tidx :: rest => do
    let entry ← getWord table tidx
    if entry.present then
      check (0 < (← gets (·.memoryMap entry.index)))
      if entry.shared = false then
        setWord table tidx { entry with write := false }
      modify fun s => s.setCount entry.index ((s.memoryMap entry.index + 1) % 256)
      check ((← gets (·.memoryMap entry.index)) < 255)
    shareTable table rest

/-- The outer loop of `copy_pde`. -/
def copyTables (pde : ℕ) : List ℕ → M Unit
  | [] => pure ()
  | didx :: rest => do
    let dentry ← getWord pde didx
    if dentry.present then
      let pte ← gets (·.window didx)
      shareTable pte (List.range 1024)
      let paddr ← copyPage pte
      setWord pde didx { dentry with index := paddr }
    copyTables pde rest

/-- The user slots, in the order of the loops over them. -/
def userSlots : List ℕ := List.range' KERNEL_SLOTS (SELF_SLOT - KERNEL_SLOTS)

def copyPde : M ℕ := do
  let pde ← allocKpage
  modify fun s => s.setFrame pde (s.mem s.task.pde)
  setWord pde SELF_SLOT (entryInit pde)
  copyTables pde userSlots
  return pde

/-- The inner loop of `free_pde`. -/
def putTable (table : ℕ) : List ℕ → M Unit
  | [] => pure ()
  | tidx :: rest => do
    let entry ← getWord table tidx
    if entry.present then
      check (0 < (← gets (·.memoryMap entry.index)))
      putPage entry.index
    putTable table rest

/-- The outer loop of `free_pde`. -/
def putTables (pde : ℕ) : List ℕ → M Unit
  | [] => pure ()
  | didx :: rest => do
    let dentry ← getWord pde didx
    if dentry.present then
      putTable (← gets (·.window didx)) (List.range 1024)
      putPage dentry.index
    putTables pde rest

def freePde : M Unit := do
  let task ← gets (·.task)
  check (task.uid ≠ KERNEL_USER)
  putTables (← getPde) userSlots
  freeKpage task.pde

/-! ## System calls -/

/-- `unlink_page` on `n` pages from `page` on. -/
def unlinkLoop (page : ℕ) : ℕ → M Unit
  | 0 => pure ()
  | n + 1 => do
    unlinkPage page
    unlinkLoop (page + PAGE_SIZE) n

def pagesIn (length : ℕ) : ℕ := u32 (length + PAGE_SIZE - 1) / PAGE_SIZE

def sysBrk (addr : ℕ) : M Unit := do
  check (addr % PAGE_SIZE = 0)
  let p ← gets (·.current)
  let task ← gets (·.task)
  check (task.uid ≠ KERNEL_USER)
  check (task.endAddr ≤ addr ∧ addr ≤ USER_MMAP_ADDR)
  if addr < task.brk then
    unlinkLoop addr (pagesIn (task.brk - addr))
    modify fun s => s.setProc p { s.procs p with brk := addr }
  else if IDX (addr - task.brk) ≤ (← gets (·.freePages)) then
    modify fun s => s.setProc p { s.procs p with brk := addr }

/-- `bitmap_set(task->vmap, index, true)`. Past the page of the bitmap, the bit is one
of the memory that follows it. -/
def vmapSet (index : ℕ) : M Unit := do
  let p ← gets (·.current)
  let task ← gets (·.task)
  let bit := index - task.vmap.offset
  if task.vmap.offset ≤ index ∧ task.vmap.size ≤ bit / 8 then
    note .beyond
    let frame := task.vmapPage + bit / (8 * PAGE_SIZE)
    let i := bit % (8 * PAGE_SIZE) / 32
    modify fun s => s.setWord frame i ((s.mem frame i).setBit (bit % 32))
  else
    let map ← lift (bitmapSet task.vmap index true)
    modify fun s => s.setProc p { s.procs p with vmap := map }

/-- The arguments of `sys_mmap` that its loop looks at. -/
structure Prot where
  write : Bool
  shared : Bool
  privat : Bool
  deriving DecidableEq, Repr

/-- What the loop of `sys_mmap` does to an entry. -/
def Prot.apply (prot : Prot) (entry : Word) : Word :=
  { entry with
    user := true
    write := prot.write
    readonly := !prot.write
    shared := prot.shared || entry.shared
    privat := prot.privat || entry.privat }

/-- The loop of `sys_mmap` over `n` pages from `page` on. -/
def mmapLoop (prot : Prot) (page : ℕ) : ℕ → M Unit
  | 0 => pure ()
  | n + 1 => do
    linkPage page
    vmapSet (IDX page)
    let table ← getPte page false
    let entry ← getWord table (TIDX page)
    let count ← gets (·.memoryMap entry.index)
    if 2 ≤ count ∧ entry.shared = false ∧ (prot.write ∨ prot.shared) then note .regrant
    setWord table (TIDX page) (prot.apply entry)
    mmapLoop prot (u32 (page + PAGE_SIZE)) n

/-- `sys_mmap` without a file. -/
def sysMmap (addr length : ℕ) (prot : Prot) : M ℕ := do
  check (addr % PAGE_SIZE = 0)
  let count := pagesIn length
  let p ← gets (·.current)
  let vaddr ←
    if addr = 0 then do
      check (0 < count)
      let (index, map) ← lift (bitmapScan (← gets (·.task)).vmap count)
      check (index ≠ EOF)
      modify fun s => s.setProc p { s.procs p with vmap := map }
      pure (index * PAGE_SIZE)
    else pure addr
  check (USER_MMAP_ADDR ≤ vaddr ∧ vaddr < USER_STACK_BOTTOM)
  mmapLoop prot vaddr count
  return vaddr

/-- The loop of `sys_munmap`. -/
def munmapLoop (page : ℕ) : ℕ → M Unit
  | 0 => pure ()
  | n + 1 => do
    unlinkPage page
    let p ← gets (·.current)
    let map := (← gets (·.task)).vmap
    check ((← lift (bitmapTest map (IDX page))) = true)
    let map ← lift (bitmapSet map (IDX page) false)
    modify fun s => s.setProc p { s.procs p with vmap := map }
    munmapLoop (u32 (page + PAGE_SIZE)) n

def sysMunmap (addr length : ℕ) : M Unit := do
  check (USER_MMAP_ADDR ≤ addr ∧ addr < USER_STACK_BOTTOM)
  check (addr % PAGE_SIZE = 0)
  munmapLoop addr (pagesIn length)

/-- The address space of a copy of the running task. -/
def taskFork (child : ℕ) : M Unit := do
  let task ← gets (·.task)
  let vmapPage ← allocKpage
  let pde ← copyPde
  modify fun s => { s.setProc child { task with pde := pde, vmapPage := vmapPage } with
    live := insert child s.live }

/-- The end of the address space of the running task. -/
def taskExit : M Unit := do
  let p ← gets (·.current)
  freePde
  freeKpage (← gets (·.task)).vmapPage
  modify fun s => { s with live := s.live.erase p }

/-! ## Accesses in user mode -/

/-- The directory entry and the table entry that `vaddr` goes through. -/
def State.walk (s : State) (pde vaddr : ℕ) : Word × Word :=
  let dentry := s.mem pde (DIDX vaddr)
  (dentry, s.mem dentry.index (TIDX vaddr))

/-- `vaddr` is mapped. -/
def State.mapped (s : State) (pde vaddr : ℕ) : Bool :=
  (s.walk pde vaddr).1.present && (s.walk pde vaddr).2.present

/-- What the processor lets user code do. -/
def State.permits (s : State) (pde vaddr : ℕ) (write : Bool) : Bool :=
  s.mapped pde vaddr && (s.walk pde vaddr).1.user && (s.walk pde vaddr).2.user &&
    (!write || ((s.walk pde vaddr).1.write && (s.walk pde vaddr).2.write))

/-- `page_fault` at `vaddr`; `present` and `write` are those of the error code. -/
def pageFault (vaddr : ℕ) (present write : Bool) : M Unit := do
  let task ← gets (·.task)
  if vaddr < USER_EXEC_ADDR ∨ USER_STACK_TOP ≤ vaddr then
    check (task.uid ≠ KERNEL_USER)
    taskExit
  else if present then
    check (write = true)
    let table ← getPte vaddr false
    let entry ← getWord table (TIDX vaddr)
    check (entry.present = true)
    check (entry.shared = false)
    check (entry.readonly = false)
    check (0 < (← gets (·.memoryMap entry.index)))
    if (← gets (·.memoryMap entry.index)) = 1 then
      setWord table (TIDX vaddr) { entry with write := true }
    else
      let paddr ← copyPage entry.index
      modify fun s => s.setCount entry.index (s.memoryMap entry.index - 1)
      setWord table (TIDX vaddr) (entryInit paddr)
  else if vaddr < task.brk ∨ USER_STACK_BOTTOM ≤ vaddr then
    linkPage (IDX vaddr * PAGE_SIZE)
  else
    fault .assertion

/-- User code loads from `vaddr`. -/
def load (vaddr : ℕ) : M Unit := do
  let s ← get
  if s.permits s.task.pde vaddr false then
    pure ()
  else
    pageFault vaddr (s.mapped s.task.pde vaddr) false

/-- User code stores a word at `vaddr`. -/
def store (vaddr : ℕ) (w : Word) : M Unit := do
  let s ← get
  if s.permits s.task.pde vaddr true then
    if WINDOW ≤ vaddr then note .window
    setWord (s.walk s.task.pde vaddr).2.index (vaddr % PAGE_SIZE / 4) w
  else
    pageFault vaddr (s.mapped s.task.pde vaddr) true

/-! ## Interleavings -/

inductive Action where
  | link (vaddr : ℕ)
  | unlink (vaddr : ℕ)
  | brk (addr : ℕ)
  | mmap (addr length : ℕ) (prot : Prot)
  | munmap (addr length : ℕ)
  | fork (child : ℕ)
  | exit
  | load (vaddr : ℕ)
  | store (vaddr : ℕ) (w : Word)
  | switch (p : ℕ)
  /-- Other users of kernel pages. -/
  | kalloc
  | kfree (page : ℕ)

/-- `vaddr` belongs to a user slot. -/
def UserAddr (vaddr : ℕ) : Prop := USER_EXEC_ADDR ≤ vaddr ∧ vaddr < WINDOW

/-- Addresses are 32-bit numbers, `link_page` and `unlink_page` are for user addresses, a
new task is new, and nobody frees the kernel pages of another. -/
def Action.Possible (s : State) : Action → Prop
  | .switch p => p ∈ s.live
  | .kalloc => True
  | .kfree page => ∀ p ∈ s.live, page ≠ (s.procs p).pde ∧ page ≠ (s.procs p).vmapPage
  | .link vaddr | .unlink vaddr => s.current ∈ s.live ∧ UserAddr vaddr
  | .fork child => s.current ∈ s.live ∧ child ∉ s.live ∧ child ≠ s.current
  | .load vaddr | .store vaddr _ => s.current ∈ s.live ∧ vaddr < 2 ^ 32
  | .mmap addr length _ | .munmap addr length =>
    s.current ∈ s.live ∧ addr < 2 ^ 32 ∧ length < 2 ^ 32
  | _ => s.current ∈ s.live

def Action.code : Action → M Unit
  | .link vaddr => linkPage vaddr
  | .unlink vaddr => unlinkPage vaddr
  | .brk addr => sysBrk addr
  | .mmap addr length prot => do
    let _ ← sysMmap addr length prot
  | .munmap addr length => sysMunmap addr length
  | .fork child => taskFork child
  | .exit => taskExit
  | .load vaddr => Memory.load vaddr
  | .store vaddr w => Memory.store vaddr w
  | .switch p => modify fun s => { s with current := p }
  | .kalloc => do
    let _ ← allocKpage
  | .kfree page => freeKpage page

/-- One step in which no assertion fails, with the events on its way. -/
def Step (s : State) (a : Action × List Event) (s' : State) : Prop :=
  a.1.Possible s ∧ a.1.code.run s = .ok ((), s', a.2)

/-! ## Accesses in kernel mode -/

/-- A word as a `u32`. -/
def Word.toNat (w : Word) : ℕ :=
  w.present.toNat + 2 * w.write.toNat + 4 * w.user.toNat + 8 * w.misc + 512 * w.shared.toNat +
    1024 * w.privat.toNat + 2048 * w.readonly.toNat + 4096 * w.index

def Word.ofNat (n : ℕ) : Word :=
  ⟨n % 2 = 1, n / 2 % 2 = 1, n / 4 % 2 = 1, n / 8 % 64, n / 512 % 2 = 1, n / 1024 % 2 = 1,
    n / 2048 % 2 = 1, n / 4096 % 2 ^ 20⟩

/-- Byte `k` of a word, of four. -/
def Word.byte (w : Word) (k : ℕ) : ℕ := w.toNat / 256 ^ k % 256

def Word.setByte (w : Word) (k : ℕ) (b : UInt8) : Word :=
  .ofNat (w.toNat % 256 ^ k + 256 ^ k * (b.toNat + 256 * (w.toNat / 256 ^ (k + 1))))

/-- The kernel stores a byte at `vaddr`. As `enable_page` leaves `CR0.WP` clear, all that the
processor asks is whether the page is there. -/
def storeByte (vaddr : ℕ) (b : UInt8) : M Unit := do
  let s ← get
  if s.mapped s.task.pde vaddr = false then
    pageFault vaddr false true
  modify fun s =>
    let frame := (s.walk s.task.pde vaddr).2.index
    let i := vaddr % PAGE_SIZE / 4
    s.setWord frame i ((s.mem frame i).setByte (vaddr % 4) b)

def memcpy (dest : ℕ) : List UInt8 → M Unit
  | [] => pure ()
  | b :: src => do
    storeByte dest b
    memcpy (dest + 1) src

/-- The copies that `inode_read` makes for `sys_read`, one for each block of the file. -/
def copyBlocks (buf : ℕ) : List (List UInt8) → M Unit
  | [] => pure ()
  | bytes :: rest => do
    memcpy buf bytes
    copyBlocks (buf + bytes.length) rest

/-- `sys_mmap` of a file; `blocks` is what `read` copies from it, nothing if `fd` is `EOF`. -/
def sysMmapFile (addr length : ℕ) (prot : Prot) (blocks : List (List UInt8)) : M ℕ := do
  let vaddr ← sysMmap addr length prot
  copyBlocks vaddr blocks
  return vaddr

/-- What a task does, or has the kernel do for it. A `sys_read` that waits for the disk is
one `read` for each part between two waits. -/
inductive Move where
  | act (a : Action)
  | read (buf : ℕ) (blocks : List (List UInt8))

/-- The buffer of a `read` lies where a task has its memory. -/
def Move.Possible (s : State) : Move → Prop
  | .act a => a.Possible s
  | .read buf blocks => s.current ∈ s.live ∧ USER_EXEC_ADDR ≤ buf ∧
    buf + blocks.flatten.length ≤ USER_STACK_TOP

def Move.code : Move → M Unit
  | .act a => a.code
  | .read buf blocks => copyBlocks buf blocks

/-- As `Step`. -/
def MoveStep (s : State) (a : Move × List Event) (s' : State) : Prop :=
  a.1.Possible s ∧ a.1.code.run s = .ok ((), s', a.2)

end Ylos.Memory
