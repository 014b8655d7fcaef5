import Ylos.Model.Memory

/-! # The start of the memory (`kernel/memory.c`)

`memory_init` and `memory_map_init` set up the counts of the frames and the map of the
kernel pages, and `mapping_init` maps the kernel. What these find in the memory before is
arbitrary. -/

namespace Ylos.Memory

open Exec

def MEMORY_BASE : ℕ := 0x100000

def KERNEL_MEMORY_SIZE : ℕ := 0x1000000

def KERNEL_BUFFER_MEM : ℕ := 0x800000

def KERNEL_BUFFER_SIZE : ℕ := 0x400000

def KERNEL_RAMDISK_MEM : ℕ := KERNEL_BUFFER_MEM + KERNEL_BUFFER_SIZE

def KERNEL_RAMDISK_SIZE : ℕ := 0x400000

def KERNEL_PAGE_DIR : ℕ := 0x1000

def KERNEL_PAGE_TABLE : List ℕ := [0x2000, 0x3000, 0x4000, 0x5000]

def ZONE_VALID : ℕ := 1

/-- `ards_t`, or what a `multi_mmap_entry_t` says. -/
structure Ards where
  base : ℕ
  size : ℕ
  type : ℕ

/-- The loop of `memory_init` over the zones. -/
def zoneLoop : List Ards → (base size : ℕ) → ℕ × ℕ
  | [], base, size => (base, size)
  | ptr :: rest, base, size =>
    if ptr.type = ZONE_VALID ∧ size < ptr.size then zoneLoop rest (u32 ptr.base) (u32 ptr.size)
    else zoneLoop rest base size

def memoryInit (zones : List Ards) : M Unit := do
  let (memoryBase, memorySize) := zoneLoop zones 0 0
  check (memoryBase = MEMORY_BASE)
  check (memorySize % PAGE_SIZE = 0)
  modify fun s => { s with
    totalPages := IDX memorySize + IDX MEMORY_BASE
    freePages := IDX memorySize }
  if memorySize < KERNEL_MEMORY_SIZE then
    fault .assertion

def divRoundUp (num size : ℕ) : ℕ := u32 (num + size + (2 ^ 32 - 1)) / size

/-- The page at `KERNEL_MAP_BITS` has room for more bits than the map uses. -/
def memoryMapInit : M Unit := do
  let memoryMapPages := divRoundUp (← gets (·.totalPages)) PAGE_SIZE
  modify fun s => { s with freePages := u32 (s.freePages + 2 ^ 32 - memoryMapPages) }
  modify fun s => { s with
    memoryMap := fun i => if i < memoryMapPages * PAGE_SIZE then 0 else s.memoryMap i }
  let startPage := IDX MEMORY_BASE + memoryMapPages
  modify fun s => { s with startPage := startPage }
  modify fun s => { s with memoryMap := fun i => if i < startPage then 1 else s.memoryMap i }
  let length := (IDX KERNEL_MEMORY_SIZE - IDX MEMORY_BASE) / 8
  let (_, map) ← lift (bitmapScan ⟨fun _ => 0, PAGE_SIZE, length, IDX MEMORY_BASE⟩ memoryMapPages)
  modify fun s => { s with kernelMap := map }

/-- The inner loop of `mapping_init`; page 0 is left out. -/
def mapTable (pte : ℕ) : (tidxs : List ℕ) → (index : ℕ) → M ℕ
  | [], index => return index
  | tidx :: rest, index => do
    if index ≠ 0 then
      setWord pte tidx { entryInit index with user := false }
      modify fun s => s.setCount index 1
    mapTable pte rest (index + 1)

/-- The outer loop of `mapping_init`. -/
def mapTables (pde : ℕ) : (tables : List ℕ) → (didx index : ℕ) → M Unit
  | [], _, _ => pure ()
  | table :: rest, didx, index => do
    let pte := IDX table
    modify fun s => s.setFrame pte fun _ => .zero
    setWord pde didx { entryInit pte with user := false }
    let index ← mapTable pte (List.range 1024) index
    mapTables pde rest (didx + 1) index

@[irreducible] def mappingInit : M Unit := do
  let pde := IDX KERNEL_PAGE_DIR
  modify fun s => s.setFrame pde fun _ => .zero
  mapTables pde KERNEL_PAGE_TABLE 0 0
  setWord pde SELF_SLOT (entryInit pde)

/-- What `kernel_init` and the entry code call before there are any tasks. -/
def memoryBoot (zones : List Ards) : M Unit := do
  memoryInit zones
  memoryMapInit
  mappingInit

/-! ## Calls that take and give back frames -/

inductive PageCall where
  | get
  | put (idx : ℕ)
  | link (vaddr : ℕ)
  | unlink (vaddr : ℕ)
  | copy
  | fault (vaddr : ℕ) (present write : Bool)
  | free
  | brk (addr : ℕ)
  | fork (child : ℕ)
  | exit
  | switch (p : ℕ)

def PageCall.code : PageCall → M Unit
  | .get => do
    let _ ← getPage
  | .put idx => putPage idx
  | .link vaddr => linkPage vaddr
  | .unlink vaddr => unlinkPage vaddr
  | .copy => do
    let _ ← copyPde
  | .fault vaddr present write => pageFault vaddr present write
  | .free => freePde
  | .brk addr => sysBrk addr
  | .fork child => taskFork child
  | .exit => taskExit
  | .switch p => modify fun s => { s with current := p }

/-- A call in which no assertion fails. -/
def PageStep (s : State) (call : PageCall) (s' : State) : Prop :=
  ∃ l, call.code.run s = .ok ((), s', l)

end Ylos.Memory
