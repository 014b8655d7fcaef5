import Ylos.Model.Copy
import Ylos.Model.Memory

/-! # The arguments of a program (`kernel/execve.c`, `lib/crt.asm`, `lib/crt1.c`)

The pages of the kernel and of the user are bytes of one memory here. A pointer is its address, and
the pages that `alloc_kpage` returns are parameters. -/

namespace Ylos.Arguments

open Exec Ram
open Memory (PAGE_SIZE USER_STACK_TOP)

abbrev M := Exec Bytes Access

/-- `p - len` on pointers. -/
def back (p len : ℕ) : ℕ := u32 (p + (2 ^ 32 - len))

/-- The loop of `strlen`. There are no more than `2 ^ 32` bytes. -/
def strlenLoop : (n ptr : ℕ) → M ℕ
  | 0, _ => fault .wild
  | n + 1, ptr => do
    if (← load ptr) = 0 then return ptr else strlenLoop n (u32 (ptr + 1))

def strlen (str : ℕ) : M ℕ := do
  return back (← strlenLoop (2 ^ 32) str) str

/-- The loop of `count_argv`. There are no more than `2 ^ 30` pointers. -/
def countLoop (argv : ℕ) : (n i : ℕ) → M ℕ
  | 0, _ => fault .wild
  | n + 1, i => do
    if (← loadLe 4 (u32 (argv + 4 * i))) = 0 then return i else countLoop argv n (i + 1)

def countArgv (argv : ℕ) : M ℕ := if argv = 0 then return 0 else countLoop argv (2 ^ 30) 0

/-- `ktop` and `utop`. -/
structure Tops where
  ktop : ℕ
  utop : ℕ

/-- A string goes below `ktop`. -/
def pushString (str : ℕ) (tops : Tops) : M Tops := do
  let len ← strlen str
  memcpy (back tops.ktop (u32 (len + 1))) str (u32 (len + 1))
  return ⟨back tops.ktop (u32 (len + 1)), back tops.utop (u32 (len + 1))⟩

/-- The loops over the strings of `array`, from the last one down. Their user addresses go to
`arrayk`. -/
def pushLoop (array arrayk : ℕ) : (n : ℕ) → (tops : Tops) → M Tops
  | 0, tops => return tops
  | n + 1, tops => do
    let str ← loadLe 4 (u32 (array + 4 * n))
    let tops ← pushString str tops
    storeLe 4 (u32 (arrayk + 4 * n)) tops.utop
    pushLoop array arrayk n tops

/-- The strings, and the two arrays at `argvk` and `envpk`. -/
def pushStrings (pagesEnd argvk envpk filename argv envp argc envc : ℕ) : M Tops := do
  storeLe 4 (u32 (argvk + 4 * argc)) 0
  storeLe 4 (u32 (envpk + 4 * envc)) 0
  let tops ← pushLoop envp envpk envc ⟨pagesEnd, USER_STACK_TOP⟩
  let tops ← pushLoop argv (u32 (argvk + 4)) (argc - 1) tops
  let tops ← pushString filename tops
  storeLe 4 argvk tops.utop
  return tops

/-- `len` bytes from `array` on go below `ktop`. -/
def pushArray (array len ktop : ℕ) : M ℕ := do
  memcpy (back ktop len) array len
  return back ktop len

/-- The two arrays and `argc` go below the strings. -/
def pushArrays (argvk envpk argc envc ktop : ℕ) : M ℕ := do
  let ktop ← pushArray envpk ((envc + 1) * 4) ktop
  let ktop ← pushArray argvk ((argc + 1) * 4) ktop
  storeLe 4 (back ktop 4) argc
  return back ktop 4

/-- Everything from `ktop` on goes to the top of the user stack. -/
def toUser (pagesEnd ktop : ℕ) : M ℕ := do
  memcpy (back USER_STACK_TOP (back pagesEnd ktop)) ktop (back pagesEnd ktop)
  return back USER_STACK_TOP (back pagesEnd ktop)

def copyArgvEnvp (pages argvk filename argv envp : ℕ) : M ℕ := do
  let argc := (← countArgv argv) + 1
  let envc ← countArgv envp
  let envpk := u32 (argvk + 4 * (argc + 1))
  let tops ← pushStrings (pages + 4 * PAGE_SIZE) argvk envpk filename argv envp argc envc
  let ktop ← pushArrays argvk envpk argc envc tops.ktop
  check (pages < ktop)
  toUser (pages + 4 * PAGE_SIZE) ktop

/-! ## The start of the program -/

def push (esp value : ℕ) : M ℕ := do
  storeLe 4 (back esp 4) value
  return back esp 4

def pushAll : (values : List ℕ) → (esp : ℕ) → M ℕ
  | [], esp => return esp
  | value :: values, esp => do pushAll values (← push esp value)

/-- What `_start` finds in its registers and what the linker puts into it; `ret` is the address
behind the call. -/
structure Crt where
  eax : ℕ
  edx : ℕ
  _init : ℕ
  _fini : ℕ
  main : ℕ
  ret : ℕ

/-- What `main` is called with. -/
structure Entry where
  argc : ℕ
  argv : ℕ
  envp : ℕ
  deriving DecidableEq, Repr

/-- `__libc_start_main`, with its parameters behind the address at `esp`. -/
def libcStartMain (esp : ℕ) : M Entry := do
  let argc ← loadLe 4 (u32 (esp + 8))
  let argv ← loadLe 4 (u32 (esp + 12))
  return ⟨argc, argv, u32 (argv + 4 * (argc + 1))⟩

/-- `_start` from its second line on; `and esp, -16` clears four bits. -/
def start (crt : Crt) (esp : ℕ) : M Entry := do
  let esi ← loadLe 4 esp
  let ecx := u32 (esp + 4)
  let esp := ecx / 16 * 16
  let esp ← pushAll [crt.eax, back esp 4, crt.edx, crt._init, crt._fini, ecx, esi, crt.main,
    crt.ret] esp
  libcStartMain esp

end Ylos.Arguments
