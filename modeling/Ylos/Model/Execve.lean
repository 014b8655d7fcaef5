import Ylos.Model.Memory

/-! # Running another program (`kernel/execve.c`)

User memory is what the page tables of the running task show of it: a page is its frame
with the bits of its entry. The task is what `sys_execve` looks at of `task_t`. The inodes
are counted elsewhere, so that `iput` and `iexec` are left out here, as are the kernel
pages in which `copy_argv_envp` puts the arguments together and which it gives back. -/

namespace Ylos.Execve

open Exec
open Memory (PAGE_SIZE USER_EXEC_ADDR USER_MMAP_ADDR USER_STACK_TOP USER_STACK_BOTTOM KERNEL_USER
  IDX pagesIn)

def TASK_NAME_LEN : ℕ := 16

/-- A mapped page; `count` is `memory_map` of its frame. -/
structure Page where
  bytes : Bytes
  write : Bool
  readonly : Bool
  count : ℕ

structure State where
  /-- The `TASK_NAME_LEN` bytes of `task->name`. -/
  name : List UInt8
  uid : ℕ
  gid : ℕ
  text : ℕ
  data : ℕ
  endAddr : ℕ
  brk : ℕ
  /-- The page tables behind the slots of the directory. -/
  tables : ℕ → Option (ℕ → Option Page)
  /-- What is left in the frames that `get_page` hands out, in this order; where there is
  none, memory is used up. -/
  frames : ℕ → Option Bytes
  taken : ℕ
  freePages : ℕ
  totalPages : ℕ

inductive Event where
  /-- `load_segment` is called for the program header at `ptr`. -/
  | segment (ptr : ℕ)
  deriving DecidableEq, Repr

abbrev M := Exec State Event

namespace State

/-- The page with the index `k`, if it is mapped. -/
def page (s : State) (k : ℕ) : Option Page := (s.tables (k / 1024)).bind fun table => table (k % 1024)

/-- The entry for the page `k` changes, in a page table that is new if there was none. -/
def setPage (s : State) (k : ℕ) (p : Option Page) : State :=
  { s with tables := fun d =>
      if d = k / 1024 then some fun t => if t = k % 1024 then p else (s.tables d).bind (· t)
      else s.tables d }

/-- The byte at `a`, if it is mapped. -/
def byteAt (s : State) (a : ℕ) : Option UInt8 :=
  (s.page (IDX a)).map fun p => p.bytes (a % PAGE_SIZE)

/-- The page of `a`, where it is mapped, gets the byte `b` at `a`. -/
def setByte (s : State) (a : ℕ) (b : UInt8) : State :=
  match s.page (IDX a) with
  | none => s
  | some p => s.setPage (IDX a)
      (some { p with bytes := fun o => if o = a % PAGE_SIZE then b else p.bytes o })

end State

/-! ## Pages (`kernel/memory.c`) -/

def getPage : M Bytes := do
  let s ← get
  match s.frames s.taken with
  | none => fault .assertion
  | some bytes =>
    modify fun s => { s with taken := s.taken + 1, freePages := u32 (s.freePages + 2 ^ 32 - 1) }
    return bytes

def linkPage (vaddr : ℕ) : M Unit := do
  check (vaddr % PAGE_SIZE = 0)
  let s ← get
  match s.page (IDX vaddr) with
  | some _ => pure ()
  | none =>
    if (s.tables (IDX vaddr / 1024)).isNone then
      let _ ← getPage
    let bytes ← getPage
    modify fun s => s.setPage (IDX vaddr) (some ⟨bytes, true, false, 1⟩)

/-- `unlink_page`, with what `put_page` does to the counters. -/
def unlinkPage (vaddr : ℕ) : M Unit := do
  check (vaddr % PAGE_SIZE = 0)
  let s ← get
  match s.page (IDX vaddr) with
  | none => pure ()
  | some p =>
    modify fun s => s.setPage (IDX vaddr) none
    check (1 ≤ p.count)
    if p.count = 1 then
      modify fun s => { s with freePages := u32 (s.freePages + 1) }
    let s ← get
    check (0 < s.freePages ∧ s.freePages < s.totalPages)

/-- `unlink_page` on `n` pages from `page` on. -/
def unlinkLoop (page : ℕ) : ℕ → M Unit
  | 0 => pure ()
  | n + 1 => do
    unlinkPage page
    unlinkLoop (page + PAGE_SIZE) n

def sysBrk (addr : ℕ) : M Unit := do
  check (addr % PAGE_SIZE = 0)
  let task ← get
  check (task.uid ≠ KERNEL_USER)
  check (task.endAddr ≤ addr ∧ addr ≤ USER_MMAP_ADDR)
  if addr < task.brk then
    unlinkLoop addr (pagesIn (task.brk - addr))
    modify fun s => { s with brk := addr }
  else if IDX (addr - task.brk) ≤ task.freePages then
    modify fun s => { s with brk := addr }

/-- `page_fault` of the kernel at an address that is not mapped. Where the task is killed, the
call does not come back. -/
def pageFault (vaddr : ℕ) : M Unit := do
  let task ← get
  if vaddr < USER_EXEC_ADDR ∨ USER_STACK_TOP ≤ vaddr then
    fault .assertion
  else if vaddr < task.brk ∨ USER_STACK_BOTTOM ≤ vaddr then
    linkPage (IDX vaddr * PAGE_SIZE)
  else
    fault .assertion

/-! ## Accesses of the kernel to user memory -/

/-- An access at `vaddr`. Below user memory there is the kernel's own. -/
def touch (vaddr : ℕ) : M Unit := do
  if vaddr < USER_EXEC_ADDR then fault .wild
  let s ← get
  if (s.page (IDX vaddr)).isNone then pageFault vaddr

def loadByte (vaddr : ℕ) : M UInt8 := do
  touch vaddr
  return ((← get).byteAt vaddr).getD 0

def storeByte (vaddr : ℕ) (b : UInt8) : M Unit := do
  touch vaddr
  modify fun s => s.setByte vaddr b

def memcpy (dest : ℕ) : List UInt8 → M Unit
  | [] => pure ()
  | b :: src => do
    storeByte dest b
    memcpy (dest + 1) src

def memset (dest : ℕ) (b : UInt8) : (count : ℕ) → M Unit
  | 0 => pure ()
  | count + 1 => do
    storeByte dest b
    memset (dest + 1) b count

/-- The little-endian number in the `w` bytes from `vaddr` on. -/
def loadField : (w vaddr : ℕ) → M ℕ
  | 0, _ => return 0
  | w + 1, vaddr => do
    let b ← loadByte vaddr
    return b.toNat + 256 * (← loadField w (vaddr + 1))

/-- `inode_read` of a file with the bytes `file`, into user memory. -/
def inodeRead (file : List UInt8) (data len offset : ℕ) : M ℕ := do
  if file.length ≤ offset then
    return EOF
  else
    let bytes := (file.drop offset).take len
    memcpy data bytes
    return bytes.length

/-! ## ELF files -/

/-- `sizeof(Elf32_Ehdr)`. -/
def EHDR_SIZE : ℕ := 52

/-- `sizeof(Elf32_Phdr)`. -/
def PHDR_SIZE : ℕ := 32

def ET_EXEC : ℕ := 2

def EM_386 : ℕ := 3

def EV_CURRENT : ℕ := 1

def PT_LOAD : ℕ := 1

def PF_X : ℕ := 1

def PF_W : ℕ := 2

def PF_R : ℕ := 4

/-! The fields of the `Elf32_Ehdr` at `ehdr`. -/

def e_type (ehdr : ℕ) : M ℕ := loadField 2 (ehdr + 16)

def e_machine (ehdr : ℕ) : M ℕ := loadField 2 (ehdr + 18)

def e_version (ehdr : ℕ) : M ℕ := loadField 4 (ehdr + 20)

def e_entry (ehdr : ℕ) : M ℕ := loadField 4 (ehdr + 24)

def e_phoff (ehdr : ℕ) : M ℕ := loadField 4 (ehdr + 28)

def e_phentsize (ehdr : ℕ) : M ℕ := loadField 2 (ehdr + 42)

def e_phnum (ehdr : ℕ) : M ℕ := loadField 2 (ehdr + 44)

/-! The fields of the `Elf32_Phdr` at `phdr`. -/

def p_type (phdr : ℕ) : M ℕ := loadField 4 phdr

def p_offset (phdr : ℕ) : M ℕ := loadField 4 (phdr + 4)

def p_vaddr (phdr : ℕ) : M ℕ := loadField 4 (phdr + 8)

def p_filesz (phdr : ℕ) : M ℕ := loadField 4 (phdr + 16)

def p_memsz (phdr : ℕ) : M ℕ := loadField 4 (phdr + 20)

def p_flags (phdr : ℕ) : M ℕ := loadField 4 (phdr + 24)

def p_align (phdr : ℕ) : M ℕ := loadField 4 (phdr + 28)

/-- `memcmp(lhs, rhs, count) == 0`, for the bytes `rhs`. -/
def memcmp (lhs : ℕ) : List UInt8 → M Bool
  | [] => return true
  | b :: rhs => do
    if (← loadByte lhs) = b then memcmp (lhs + 1) rhs else return false

/-- `"\177ELF\1\1\1"`. -/
def ELF_IDENT : List UInt8 := [0x7F, 0x45, 0x4C, 0x46, 1, 1, 1]

def elfValidate (ehdr : ℕ) : M Bool := do
  if (← memcmp ehdr ELF_IDENT) = false then return false
  else if (← e_type ehdr) ≠ ET_EXEC then return false
  else if (← e_machine ehdr) ≠ EM_386 then return false
  else if (← e_version ehdr) ≠ EV_CURRENT then return false
  else if (← e_phentsize ehdr) ≠ PHDR_SIZE then return false
  else return true

/-- The first loop of `load_segment`, with `n` pages to go. -/
def linkLoop (addr : ℕ) : (n : ℕ) → M Unit
  | 0 => pure ()
  | n + 1 => do
    check (USER_EXEC_ADDR ≤ addr ∧ addr < USER_MMAP_ADDR)
    linkPage addr
    linkLoop (u32 (addr + PAGE_SIZE)) n

/-- The second loop, over the entries. -/
def protectLoop (addr : ℕ) : (n : ℕ) → M Unit
  | 0 => pure ()
  | n + 1 => do
    check ((← get).tables (IDX addr / 1024)).isSome
    modify fun s => match s.page (IDX addr) with
      | none => s
      | some p => s.setPage (IDX addr) (some { p with write := false, readonly := true })
    protectLoop (u32 (addr + PAGE_SIZE)) n

def loadSegment (inode : List UInt8) (phdr : ℕ) : M Unit := do
  check ((← p_align phdr) = 0x1000)
  check ((← p_vaddr phdr) % 0x1000 = 0)
  let vaddr ← p_vaddr phdr
  let count := pagesIn (max (← p_memsz phdr) (← p_filesz phdr))
  linkLoop vaddr count
  let _ ← inodeRead inode vaddr (← p_filesz phdr) (← p_offset phdr)
  let filesz ← p_filesz phdr
  let memsz ← p_memsz phdr
  if filesz < memsz then
    memset (u32 (vaddr + filesz)) 0 (memsz - filesz)
  let flags ← p_flags phdr
  if flags &&& PF_W = 0 then
    protectLoop vaddr count
  if flags = PF_R ||| PF_X then
    modify fun s => { s with text := vaddr }
  else if flags = PF_R ||| PF_W then
    modify fun s => { s with data := vaddr }
  modify fun s => { s with endAddr := max s.endAddr (u32 (vaddr + count * PAGE_SIZE)) }

/-- The loop of `load_elf` from entry `i` on. As `e_phnum` has 16 bits, `2 ^ 16` rounds are
enough. -/
def loadLoop (inode : List UInt8) (ehdr : ℕ) : (rounds i ptr : ℕ) → M Unit
  | 0, _, _ => pure ()
  | rounds + 1, i, ptr => do
    if i < (← e_phnum ehdr) then
      if (← p_type ptr) ≠ PT_LOAD then
        loadLoop inode ehdr rounds (i + 1) ptr
      else
        note (.segment ptr)
        loadSegment inode ptr
        loadLoop inode ehdr rounds (i + 1) (ptr + PHDR_SIZE)

def loadElf (inode : List UInt8) : M ℕ := do
  linkPage USER_EXEC_ADDR
  let n ← inodeRead inode USER_EXEC_ADDR EHDR_SIZE 0
  check (n = EHDR_SIZE)
  let ehdr := USER_EXEC_ADDR
  if (← elfValidate ehdr) = false then
    return EOF
  else
    let phdr := USER_EXEC_ADDR + EHDR_SIZE
    let _ ← inodeRead inode phdr ((← e_phnum ehdr) * (← e_phentsize ehdr)) (← e_phoff ehdr)
    loadLoop inode ehdr (2 ^ 16) 0 phdr
    e_entry ehdr

/-! ## Arguments -/

/-- The loops of `copy_argv_envp` over strings, the last of which ends at `top`: their user
addresses, and the bytes of all of them. -/
def pushStrings (top : ℕ) : List (List UInt8) → List ℕ × List UInt8
  | [] => ([], [])
  | str :: rest =>
    let pushed := pushStrings top rest
    let bytes := str ++ 0 :: pushed.2
    ((top - bytes.length) :: pushed.1, bytes)

/-- A 32-bit number in memory. -/
def wordBytes (n : ℕ) : List UInt8 :=
  [UInt8.ofNat n, UInt8.ofNat (n / 256), UInt8.ofNat (n / 65536), UInt8.ofNat (n / 16777216)]

/-- What `copy_argv_envp` puts at the top of the stack: `argc`, the two arrays of pointers,
each with `NULL` at its end, and the strings. -/
def argBlock (filename : List UInt8) (argv envp : List (List UInt8)) : List UInt8 :=
  let argc := argv.length + 1
  let pushed := pushStrings USER_STACK_TOP (filename :: argv ++ envp)
  wordBytes argc ++ (pushed.1.take argc ++ [0]).flatMap wordBytes ++
    (pushed.1.drop argc ++ [0]).flatMap wordBytes ++ pushed.2

/-- The arrays have a kernel page for themselves, and everything four. -/
def copyArgvEnvp (filename : List UInt8) (argv envp : List (List UInt8)) : M ℕ := do
  if PAGE_SIZE < (argv.length + envp.length + 3) * 4 then fault .wild
  let block := argBlock filename argv envp
  check (block.length < 4 * PAGE_SIZE)
  let utop := USER_STACK_TOP - block.length
  memcpy utop block
  return utop

/-! ## `sys_execve` -/

/-- What `sys_execve` looks at of an inode, with the bytes that `inode_read` gets. -/
structure Inode where
  mode : ℕ
  nlinks : ℕ
  uid : ℕ
  gid : ℕ
  content : List UInt8

def ISFILE (mode : ℕ) : Prop := mode &&& 0o170000 = 0o100000

instance (mode : ℕ) : Decidable (ISFILE mode) := inferInstanceAs (Decidable (_ = _))

def P_EXEC : ℕ := 1

def permission (task : State) (inode : Inode) (mask : ℕ) : Bool :=
  if inode.nlinks = 0 then false
  else if task.uid = KERNEL_USER then true
  else
    let mode :=
      if task.uid = inode.uid then inode.mode >>> 6
      else if task.gid = inode.gid then inode.mode >>> 3
      else inode.mode
    mode &&& mask &&& 0b111 = mask

/-- `strncpy(dest, src, count)` for a string without its end. -/
def strncpy (dest src : List UInt8) (count : ℕ) : List UInt8 :=
  if src.length < count then src ++ 0 :: dest.drop (src.length + 1) else src.take (count - 1) ++ [0]

/-- How `sys_execve` ends: it returns to its caller, or the new program runs. -/
inductive Outcome where
  | returned (ret : ℕ)
  | entered (eip esp : ℕ)
  deriving DecidableEq, Repr

/-- `inode` is what `namei(filename)` returns. -/
def sysExecve (inode : Option Inode) (filename : List UInt8) (argv envp : List (List UInt8)) :
    M Outcome := do
  match inode with
  | none => return .returned EOF
  | some inode =>
    let task ← get
    if ¬ISFILE inode.mode then return .returned EOF
    else if permission task inode P_EXEC = false then return .returned EOF
    else
      modify fun s => { s with name := strncpy s.name filename TASK_NAME_LEN }
      let top ← copyArgvEnvp filename argv envp
      modify fun s => { s with endAddr := USER_EXEC_ADDR }
      sysBrk USER_EXEC_ADDR
      let entry ← loadElf inode.content
      if entry = EOF then
        return .returned EOF
      else
        sysBrk (← gets (·.endAddr))
        return .entered entry top

end Ylos.Execve
