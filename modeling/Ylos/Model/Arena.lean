import Ylos.Lib.Exec
import Ylos.Model.Bitmap
import Mathlib.Logic.Function.Basic

/-! # The kernel heap (`kernel/arena.c`)

Kernel memory is an array of words, which are read and written at their addresses. The
descriptors are a static array of the kernel image, and everything else that the heap keeps
lies in the pages that it takes from `kernel_map`: an `arena_t` of four words at the start,
and list nodes in the blocks that are free. -/

namespace Ylos.Heap

open Exec

def PAGE_SIZE : ℕ := 0x1000

def YLOS_MAGIC : ℕ := 0x20230322

def DESC_COUNT : ℕ := 7

structure State where
  kernelMap : Bitmap
  mem : ℕ → ℕ

/-- Where `descriptors` lies: in the image, which is below the first kernel page. -/
structure Image where
  descriptors : ℕ
  pos : 0 < descriptors
  aligned : descriptors % 4 = 0
  below : descriptors + 28 * DESC_COUNT ≤ 0x100000

abbrev M := Exec State Empty

def load (addr : ℕ) : M ℕ := gets fun s => s.mem addr

def store (addr value : ℕ) : M Unit :=
  modify fun s => { s with mem := Function.update s.mem addr value }

/-- `memset(addr, 0, count)`. -/
def clear (addr count : ℕ) : M Unit :=
  modify fun s => { s with mem := fun w => if addr ≤ w ∧ w < addr + count then 0 else s.mem w }

/-! ## Lists (`lib/list.c`)

A node has `prev` at 0 and `next` at 4; a list has its head at 0 and its tail at 8. -/

def listInit (list : ℕ) : M Unit := do
  store list 0
  store (list + 12) 0
  store (list + 4) (list + 8)
  store (list + 8) list

def listInsertAfter (anchor node : ℕ) : M Unit := do
  store node anchor
  store (node + 4) (← load (anchor + 4))
  store (← load (anchor + 4)) node
  store (anchor + 4) node

/-- The loop of `list_search`. No list has as many nodes as there are words. -/
def searchLoop (list node : ℕ) : (left next : ℕ) → M Bool
  | 0, _ => fault .wild
  | left + 1, next => do
    if next = list + 8 then
      return false
    else if next = node then
      return true
    else
      searchLoop list node left (← load (next + 4))

def listSearch (list node : ℕ) : M Bool := do
  searchLoop list node (2 ^ 32) (← load (list + 4))

def listPush (list node : ℕ) : M Unit := do
  check ((← listSearch list node) = false)
  listInsertAfter list node

def listRemove (node : ℕ) : M Unit := do
  check ((← load node) ≠ 0)
  check ((← load (node + 4)) ≠ 0)
  store ((← load node) + 4) (← load (node + 4))
  store (← load (node + 4)) (← load node)
  store (node + 4) 0
  store node 0

def listEmpty (list : ℕ) : M Bool := return (← load (list + 4)) = list + 8

def listPop (list : ℕ) : M ℕ := do
  check ((← listEmpty list) = false)
  let node ← load (list + 4)
  listRemove node
  return node

/-! ## Kernel pages (`kernel/memory.c`) -/

def scanPage (count : ℕ) : M ℕ := do
  check (0 < count)
  let (index, map) ← lift (bitmapScan (← get).kernelMap count)
  check (index ≠ EOF)
  modify fun s => { s with kernelMap := map }
  return u32 (index * PAGE_SIZE)

/-- The loop of `reset_page`. -/
def resetLoop : (left index : ℕ) → M Unit
  | 0, _ => pure ()
  | left + 1, index => do
    check ((← lift (bitmapTest (← get).kernelMap index)) = true)
    let map ← lift (bitmapSet (← get).kernelMap index false)
    modify fun s => { s with kernelMap := map }
    resetLoop left (u32 (index + 1))

def resetPage (addr count : ℕ) : M Unit := do
  check (addr % PAGE_SIZE = 0)
  check (0 < count)
  resetLoop count (addr / PAGE_SIZE)

def allocKpage (count : ℕ) : M ℕ := do
  check (0 < count)
  scanPage count

def freeKpage (vaddr count : ℕ) : M Unit := do
  check (vaddr % PAGE_SIZE = 0)
  check (0 < count)
  resetPage vaddr count

/-- What other code asks of the kernel pages. -/
inductive KpageCall where
  | alloc (count : ℕ)
  | free (vaddr count : ℕ)

/-- A call in which no assertion fails. -/
def KpageStep (s : State) (call : KpageCall) (s' : State) : Prop :=
  match call with
  | .alloc count => ∃ vaddr l, (allocKpage count).run s = .ok (vaddr, s', l)
  | .free vaddr count => ∃ l, (freeKpage vaddr count).run s = .ok ((), s', l)

/-! ## Arenas -/

/-- `&descriptors[i]`. A descriptor has `total_block`, `block_size`, `page_count` and
`free_list` at 0, 4, 8 and 12. -/
def Image.desc (img : Image) (i : ℕ) : ℕ := img.descriptors + 28 * i

/-- The loop of `arena_init`. -/
def initLoop (img : Image) : (left i blockSize : ℕ) → M Unit
  | 0, _, _ => pure ()
  | left + 1, i, blockSize => do
    store (img.desc i + 4) blockSize
    store (img.desc i) ((PAGE_SIZE - 16) / blockSize)
    listInit (img.desc i + 12)
    initLoop img left (i + 1) (u32 (blockSize * 2))

def arenaInit (img : Image) : M Unit := initLoop img DESC_COUNT 0 16

/-- An `arena_t` has `desc`, `count`, `large` and `magic` at 0, 4, 8 and 12. -/
def getArenaBlock (arena idx : ℕ) : M ℕ := do
  let desc ← load arena
  check (idx < (← load desc))
  let gap := u32 (idx * (← load (desc + 4)))
  return u32 (arena + 16 + gap)

def getBlockArena (block : ℕ) : ℕ := block &&& 0xFFFFF000

def divRoundUp (num size : ℕ) : ℕ := u32 (num + size + (2 ^ 32 - 1)) / size

/-- The loop of `kmalloc` that looks for a descriptor; `desc` is the one looked at last. -/
def findDesc (size : ℕ) : (descs : List ℕ) → (desc : ℕ) → M ℕ
  | [], desc => return desc
  | next :: descs, _ => do
    if size ≤ (← load (next + 4)) then
      return next
    else
      findDesc size descs next

/-- The loop of `kmalloc` over the blocks of a new page. -/
def fillLoop (arena : ℕ) : List ℕ → M Unit
  | [] => pure ()
  | i :: rest => do
    let block ← getArenaBlock arena i
    check ((← listSearch ((← load arena) + 12) block) = false)
    listPush ((← load arena) + 12) block
    check ((← listSearch ((← load arena) + 12) block) = true)
    fillLoop arena rest

/-- `kmalloc` of more than 1024 bytes. -/
def kmallocLarge (size : ℕ) : M ℕ := do
  let asize := u32 (size + 16)
  let count := divRoundUp asize PAGE_SIZE
  let arena ← allocKpage count
  clear arena (u32 (count * PAGE_SIZE))
  store (arena + 8) 1
  store (arena + 4) count
  store arena 0
  store (arena + 12) YLOS_MAGIC
  return u32 (arena + 16)

/-- A new page for the descriptor. -/
def openArena (desc : ℕ) : M Unit := do
  let arena ← allocKpage 1
  clear arena PAGE_SIZE
  store (desc + 8) (u32 ((← load (desc + 8)) + 1))
  store arena desc
  store (arena + 8) 0
  store (arena + 4) (← load desc)
  store (arena + 12) YLOS_MAGIC
  fillLoop arena (List.range (← load desc))

def kmalloc (img : Image) (size : ℕ) : M ℕ := do
  if 1024 < size then
    kmallocLarge size
  else
    let desc ← findDesc size ((List.range DESC_COUNT).map img.desc) 0
    check (desc ≠ 0)
    if ← listEmpty (desc + 12) then
      openArena desc
    let block ← listPop (desc + 12)
    let arena := getBlockArena block
    check ((← load (arena + 12)) = YLOS_MAGIC ∧ (← load (arena + 8)) = 0)
    store (arena + 4) (u32 ((← load (arena + 4)) + (2 ^ 32 - 1)))
    return block

/-- The loop of `kfree` over the blocks of a page that is not in use any more. -/
def drainLoop (arena : ℕ) : List ℕ → M Unit
  | [] => pure ()
  | i :: rest => do
    let block ← getArenaBlock arena i
    check ((← listSearch ((← load arena) + 12) block) = true)
    listRemove block
    check ((← listSearch ((← load arena) + 12) block) = false)
    drainLoop arena rest

def kfree (ptr : ℕ) : M Unit := do
  check (ptr ≠ 0)
  let arena := getBlockArena ptr
  check ((← load (arena + 8)) = 1 ∨ (← load (arena + 8)) = 0)
  check ((← load (arena + 12)) = YLOS_MAGIC)
  if (← load (arena + 8)) ≠ 0 then
    freeKpage arena (← load (arena + 4))
  else
    listPush ((← load arena) + 12) ptr
    store (arena + 4) (u32 ((← load (arena + 4)) + 1))
    if (← load (arena + 4)) = (← load (← load arena)) then
      drainLoop arena (List.range (← load (← load arena)))
      freeKpage arena 1

end Ylos.Heap
