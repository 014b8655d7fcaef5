import Ylos.Lib.Words
import Ylos.Model.Bitmap

/-! # Kernel stacks (`kernel/handler.asm`, `kernel/schedule.asm`, `kernel/task.c`)

The assembly of the kernel is lists of instructions, which run on a machine with the
registers of the processor and a memory of words at their addresses. A task is its page:
`task_t` lies at the start of it and the kernel stack at its end. -/

namespace Ylos.Switch

def PAGE_SIZE : ℕ := 0x1000

def YLOS_MAGIC : ℕ := 0x20230322

def KERNEL_CODE_SELECTOR : ℕ := 1 <<< 3

def KERNEL_DATA_SELECTOR : ℕ := 2 <<< 3

def USER_CODE_SELECTOR : ℕ := 4 <<< 3 ||| 0b11

def USER_DATA_SELECTOR : ℕ := 5 <<< 3 ||| 0b11

/-! ## The processor -/

inductive Reg where
  | eax | ecx | edx | ebx | esp | ebp | esi | edi

inductive Seg where
  | ds | es | fs | gs

@[ext] structure Cpu where
  eax : ℕ
  ecx : ℕ
  edx : ℕ
  ebx : ℕ
  esp : ℕ
  ebp : ℕ
  esi : ℕ
  edi : ℕ
  ds : ℕ
  es : ℕ
  fs : ℕ
  gs : ℕ
  cs : ℕ
  ss : ℕ
  eip : ℕ
  eflags : ℕ
  deriving DecidableEq

namespace Cpu

def get (c : Cpu) : Reg → ℕ
  | .eax => c.eax
  | .ecx => c.ecx
  | .edx => c.edx
  | .ebx => c.ebx
  | .esp => c.esp
  | .ebp => c.ebp
  | .esi => c.esi
  | .edi => c.edi

def set (c : Cpu) (v : ℕ) : Reg → Cpu
  | .eax => { c with eax := v }
  | .ecx => { c with ecx := v }
  | .edx => { c with edx := v }
  | .ebx => { c with ebx := v }
  | .esp => { c with esp := v }
  | .ebp => { c with ebp := v }
  | .esi => { c with esi := v }
  | .edi => { c with edi := v }

def getSeg (c : Cpu) : Seg → ℕ
  | .ds => c.ds
  | .es => c.es
  | .fs => c.fs
  | .gs => c.gs

def setSeg (c : Cpu) (v : ℕ) : Seg → Cpu
  | .ds => { c with ds := v }
  | .es => { c with es := v }
  | .fs => { c with fs := v }
  | .gs => { c with gs := v }

/-- The processor runs user code: the privilege level is in the low bits of `cs`. -/
def User (c : Cpu) : Prop := c.cs % 4 = 3

instance (c : Cpu) : Decidable c.User := inferInstanceAs (Decidable (_ = _))

end Cpu

structure Machine where
  cpu : Cpu
  mem : ℕ → ℕ

/-- Subtraction of `u32`. -/
def sub32 (a b : ℕ) : ℕ := if b ≤ a then a - b else a + 2 ^ 32 - b

namespace Machine

def push (m : Machine) (v : ℕ) : Machine :=
  let p := sub32 m.cpu.esp 4
  ⟨{ m.cpu with esp := p }, Function.update m.mem p v⟩

def pushAll : Machine → (vs : List ℕ) → Machine
  | m, [] => m
  | m, v :: vs => pushAll (m.push v) vs

/-- The word on top of the stack. -/
def top (m : Machine) : ℕ := m.mem m.cpu.esp

/-- Drop the word on top of the stack. -/
def drop (m : Machine) : Machine := { m with cpu := { m.cpu with esp := u32 (m.cpu.esp + 4) } }

/-- `iret`: back to where the code was interrupted, and to its stack if that is another one. -/
def iret (m : Machine) : Machine :=
  let m₁ := m.drop.drop.drop
  let cs := m.drop.top
  let c := { m₁.cpu with eip := m.top, cs := cs, eflags := m.drop.drop.top }
  if cs % 4 = 3 then { m₁ with cpu := { c with esp := m₁.top, ss := m₁.drop.top } }
  else { m₁ with cpu := c }

end Machine

inductive Instr where
  | push (r : Reg)
  | pushImm (n : ℕ)
  | pushSeg (s : Seg)
  | pusha
  | pop (r : Reg)
  | popSeg (s : Seg)
  | popa
  | mov (dst src : Reg)
  | andImm (r : Reg) (n : ℕ)
  | addImm (r : Reg) (n : ℕ)
  /-- `mov dst, [base + disp]` -/
  | load (dst base : Reg) (disp : ℕ)
  /-- `mov [base + disp], src` -/
  | store (base : Reg) (disp : ℕ) (src : Reg)
  /-- `call [table + eax * 4]`, where `back` is the address behind it -/
  | call (table : ℕ → ℕ) (back : ℕ)
  | ret
  | iret

def Instr.exec (m : Machine) : Instr → Machine
  | push r => m.push (m.cpu.get r)
  | pushImm n => m.push n
  | pushSeg s => m.push (m.cpu.getSeg s)
  | pusha =>
    m.pushAll [m.cpu.eax, m.cpu.ecx, m.cpu.edx, m.cpu.ebx, m.cpu.esp, m.cpu.ebp, m.cpu.esi,
      m.cpu.edi]
  | pop r => { m.drop with cpu := m.drop.cpu.set m.top r }
  | popSeg s => { m.drop with cpu := m.drop.cpu.setSeg m.top s }
  | popa =>
    let m₁ := m.drop
    let m₂ := m₁.drop
    let m₃ := m₂.drop.drop
    let m₄ := m₃.drop
    let m₅ := m₄.drop
    let m₆ := m₅.drop
    { m₆.drop with cpu := { m₆.drop.cpu with
        edi := m.top, esi := m₁.top, ebp := m₂.top, ebx := m₃.top, edx := m₄.top, ecx := m₅.top,
        eax := m₆.top } }
  | mov dst src => { m with cpu := m.cpu.set (m.cpu.get src) dst }
  | andImm r n => { m with cpu := m.cpu.set (m.cpu.get r &&& n) r }
  | addImm r n => { m with cpu := m.cpu.set (u32 (m.cpu.get r + n)) r }
  | load dst base disp => { m with cpu := m.cpu.set (m.mem (u32 (m.cpu.get base + disp))) dst }
  | store base disp src =>
    { m with mem := Function.update m.mem (u32 (m.cpu.get base + disp)) (m.cpu.get src) }
  | call table back =>
    let m' := m.push back
    { m' with cpu := { m'.cpu with eip := table m.cpu.eax } }
  | ret => { m.drop with cpu := { m.drop.cpu with eip := m.top } }
  | iret => m.iret

def exec (code : List Instr) (m : Machine) : Machine := code.foldl Instr.exec m

/-! ## The code of the kernel -/

/-- What the linker and the initialisation of the kernel fix. -/
structure Image where
  handlerTable : ℕ → ℕ
  syscallTable : ℕ → ℕ
  /-- `interrupt_exit` -/
  interruptExit : ℕ
  /-- Behind the call of the system call in `syscall_handler`. -/
  syscallBack : ℕ

def SYSCALL_SIZE : ℕ := 256

def taskSwitch : List Instr :=
  [.push .ebp, .mov .ebp .esp, .push .ebx, .push .esi, .push .edi,
   .mov .eax .esp, .andImm .eax 0xFFFFF000,
   .store .eax 0 .esp, .load .eax .ebp 8,
   .load .esp .eax 0,
   .pop .edi, .pop .esi, .pop .ebx, .pop .ebp,
   .ret]

def saveRegs : List Instr :=
  [.pushSeg .ds, .pushSeg .es, .pushSeg .fs, .pushSeg .gs, .pusha]

def interruptEntry (img : Image) : List Instr :=
  saveRegs ++ [.load .eax .esp (12 * 4), .push .eax, .call img.handlerTable img.interruptExit]

def interruptExit : List Instr :=
  [.addImm .esp 4, .popa, .popSeg .gs, .popSeg .fs, .popSeg .es, .popSeg .ds, .addImm .esp 8, .iret]

/-- The exceptions for which the processor pushes an error code (`%2` of `INTERRUPT_HANDLER`). -/
def hasError (vector : ℕ) : Bool :=
  vector ∈ [0x08, 0x0a, 0x0b, 0x0c, 0x0d, 0x0e, 0x11, 0x15]

def interruptHandler (img : Image) (vector : ℕ) : List Instr :=
  (if hasError vector then [] else [.pushImm YLOS_MAGIC]) ++ [.pushImm vector] ++ interruptEntry img

/-- `syscall_check`. The handler needs `eax`, `ecx` and `edx` behind the call as they were, and
the compiled function leaves them. -/
def syscallCheck (m : Machine) : Except Fault Machine :=
  if SYSCALL_SIZE ≤ m.mem (u32 (m.cpu.esp + 4)) then .error .assertion else .ok (Instr.ret.exec m)

def syscallEntry (img : Image) : List Instr :=
  [.pushImm YLOS_MAGIC, .pushImm 0x80] ++ saveRegs ++
  [.pushImm 0x80, .push .ebp, .push .edi, .push .esi, .push .edx, .push .ecx, .push .ebx,
   .call img.syscallTable img.syscallBack]

def syscallExit : List Instr := [.addImm .esp (6 * 4), .store .esp (8 * 4) .eax] ++ interruptExit

/-! ## Interrupts

The processor takes the stack of the kernel from `tss` when it leaves user code, and clears the
flags IF, TF, NT, RF and VM on its way through an interrupt gate. -/

def clearFlags (eflags : ℕ) : ℕ := eflags &&& 0xFFFCBCFF

def deliver (m : Machine) (esp0 : ℕ) (error : List ℕ) : Machine :=
  let m₁ := if m.cpu.User then
      Machine.pushAll { m with cpu := { m.cpu with esp := esp0, ss := KERNEL_DATA_SELECTOR } }
        [m.cpu.ss, m.cpu.esp]
    else m
  let m₂ := m₁.pushAll ([m.cpu.eflags, m.cpu.cs, m.cpu.eip] ++ error)
  { m₂ with cpu := { m₂.cpu with cs := KERNEL_CODE_SELECTOR, eflags := clearFlags m.cpu.eflags } }

def interrupt (img : Image) (m : Machine) (esp0 vector error : ℕ) : Machine :=
  exec (interruptHandler img vector) (deliver m esp0 (if hasError vector then [error] else []))

/-- `int 0x80`, up to the first instruction of the system call. -/
def syscall (img : Image) (m : Machine) (esp0 back : ℕ) : Except Fault Machine := do
  let m₁ := deliver m esp0 []
  let m₂ ← syscallCheck ((m₁.push m₁.cpu.eax).push back)
  return exec (.addImm .esp 4 :: syscallEntry img) m₂

/-! ## Building stacks -/

/-- `sizeof(task_t)` -/
def TASK_SIZE : ℕ := 180

/-- Where `uid` lies in a `task_t`; `stack` is its first field. -/
def UID : ℕ := 44

def INTR_FRAME_SIZE : ℕ := 80

def TASK_FRAME_SIZE : ℕ := 20

def KERNEL_USER : ℕ := 0

def USER_STACK_TOP : ℕ := 0x10000000

/-- `task_create` on a page that `get_free_task` has cleared. -/
def taskCreate (mem : ℕ → ℕ) (task target uid : ℕ) : ℕ → ℕ :=
  let stack := task + PAGE_SIZE - TASK_FRAME_SIZE
  let mem := fun a => if task ≤ a ∧ a < task + PAGE_SIZE then 0 else mem a
  let mem := Words.stored mem stack [0x33333333, 0x22222222, 0x11111111, 0x44444444, target]
  Function.update (Function.update mem task stack) (task + UID) uid

def taskBuildStack (img : Image) (mem : ℕ → ℕ) (task : ℕ) : ℕ → ℕ :=
  let iframe := task + PAGE_SIZE - INTR_FRAME_SIZE
  let frame := iframe - TASK_FRAME_SIZE
  let mem := Function.update mem (iframe + 32) 0
  let mem := Words.stored mem frame
    [0xaa55aa55, 0xaa55aa55, 0xaa55aa55, 0xaa55aa55, img.interruptExit]
  Function.update mem task frame

/-- What `task_fork` does to kernel stacks. -/
def taskFork (img : Image) (mem : ℕ → ℕ) (task child : ℕ) : ℕ → ℕ :=
  taskBuildStack img
    (fun a => if child ≤ a ∧ a < child + PAGE_SIZE then mem (task + (a - child)) else mem a) child

/-- What the interrupt frame of `task_to_user_mode` holds. -/
def userCpu : Cpu where
  edi := 1
  esi := 2
  ebp := 3
  ebx := 5
  edx := 6
  ecx := 7
  eax := 8
  gs := 0
  ds := USER_DATA_SELECTOR
  es := USER_DATA_SELECTOR
  fs := USER_DATA_SELECTOR
  ss := USER_DATA_SELECTOR
  cs := USER_CODE_SELECTOR
  eip := 0
  eflags := 0 <<< 12 ||| 0b10 ||| 1 <<< 9
  esp := USER_STACK_TOP

/-- The interrupt frame that `task_to_user_mode` builds. -/
def userFrame (mem : ℕ → ℕ) (task : ℕ) : ℕ → ℕ :=
  let iframe := task + PAGE_SIZE - INTR_FRAME_SIZE
  let c := userCpu
  let mem := Words.stored mem iframe
    [0x20, c.edi, c.esi, c.ebp, 4, c.ebx, c.edx, c.ecx, c.eax, c.gs, c.fs, c.es, c.ds]
  Words.stored mem (iframe + 56) [YLOS_MAGIC, c.eip, c.cs, c.eflags, c.esp, c.ss]

/-- The end of `sys_execve`, which leaves the kernel through the interrupt frame. -/
def execveReturn (m : Machine) (task entry top : ℕ) : Machine :=
  let iframe := task + PAGE_SIZE - INTR_FRAME_SIZE
  let mem := Function.update m.mem (iframe + 24) 0
  let mem := Function.update mem (iframe + 60) entry
  let mem := Function.update mem (iframe + 72) top
  exec interruptExit ⟨{ m.cpu with esp := iframe }, mem⟩

/-- `running_task` -/
def runningTask (c : Cpu) : ℕ := c.esp &&& 0xFFFFF000

/-- The end of `task_activate`, at the entry of `task_switch(next)`. -/
def taskActivate (mem : ℕ → ℕ) (esp0 next : ℕ) : ℕ :=
  if mem (next + UID) ≠ KERNEL_USER then next + PAGE_SIZE else esp0

/-! ## Runs

The assembly of the kernel runs as it is written, without an interrupt in between. The C code of
the kernel and the code of the users are arbitrary, but for the calling convention: code leaves
the stack of its callers alone, and comes back to where it was called from. -/

inductive Kind where
  | interrupt | syscall
  /-- Built by `task_to_user_mode`. -/
  | user
  | switch
  deriving DecidableEq

/-- A frame on a kernel stack. `cpu` and `stack` are history: the processor that the frame
brings back, and the memory when the frame was built. -/
structure Frame where
  kind : Kind
  base : ℕ
  cpu : Cpu
  stack : ℕ → ℕ

/-- Where the frame ends. -/
def Frame.limit (f : Frame) : ℕ :=
  match f.kind with
  | .switch => f.base + TASK_FRAME_SIZE
  | _ => if f.cpu.User then f.base + INTR_FRAME_SIZE else f.base + 72

structure State where
  cpu : Cpu
  mem : ℕ → ℕ
  /-- `tss.esp0` -/
  esp0 : ℕ
  /-- The pages that are tasks. -/
  live : ℕ → Bool
  running : ℕ
  /-- The frames that each task comes back to, the last one first. -/
  frames : ℕ → List Frame

namespace State

def machine (s : State) : Machine := ⟨s.cpu, s.mem⟩

/-- Below this address the code of a task has its stack. -/
def floor (s : State) (t : ℕ) : ℕ := ((s.frames t).head?.map (·.base)).getD (t + PAGE_SIZE)

/-- What the code of the running task leaves alone. -/
def Kept (s : State) (a : ℕ) : Prop :=
  (s.floor s.running ≤ a ∧ a < s.running + PAGE_SIZE) ∨
    ∃ t, s.live t ∧
      (a = t + UID ∨ t ≠ s.running ∧ (a = t ∨ s.mem t ≤ a ∧ a < t + PAGE_SIZE))

/-- A page that `get_free_task` can get. -/
def Free (s : State) (t : ℕ) : Prop :=
  s.live t = false ∧ t % PAGE_SIZE = 0 ∧ t + PAGE_SIZE < 2 ^ 32

def setFrames (s : State) (t : ℕ) (fs : List Frame) : State :=
  { s with frames := Function.update s.frames t fs }

/-- The processor and the memory after a piece of code, and the frames that the running task has
then. -/
def after (s : State) (m : Machine) (fs : List Frame) : State :=
  { s with cpu := m.cpu, mem := m.mem, frames := Function.update s.frames s.running fs }

end State

inductive Act where
  /-- Code of the running task, up to the processor `cpu` and the memory `mem`. -/
  | work (cpu : Cpu) (mem : ℕ → ℕ)
  | interrupt (vector error : ℕ)
  | syscall (back : ℕ)
  /-- The handler of an interrupt returns. -/
  | leave
  /-- The system call returns. -/
  | syscallLeave
  /-- `schedule` activates `next` and calls `task_switch(next)`. -/
  | switch (next : ℕ)
  | create (task target uid : ℕ)
  | fork (child : ℕ)
  | reap (task : ℕ)
  /-- `task_to_user_mode`, up to its call of `sys_execve` -/
  | toUserMode
  /-- The end of `sys_execve` -/
  | execve (entry top : ℕ)

def Act.Possible (img : Image) (s : State) : Act → Prop
  | .work cpu mem =>
    (∀ a, s.Kept a → mem a = s.mem a) ∧ (s.cpu.User → cpu.User) ∧
      (¬s.cpu.User → cpu.cs = s.cpu.cs ∧ cpu.ss = s.cpu.ss ∧
        s.running + TASK_SIZE ≤ cpu.esp ∧ cpu.esp ≤ s.floor s.running)
  | .interrupt _ _ =>
    s.running + TASK_SIZE + 84 ≤ if s.cpu.User then s.esp0 else s.cpu.esp
  | .syscall _ =>
    s.running + TASK_SIZE + 108 ≤ if s.cpu.User then s.esp0 else s.cpu.esp
  | .leave =>
    ¬s.cpu.User ∧ s.cpu.eip = img.interruptExit ∧
      ∃ f fs, s.frames s.running = f :: fs ∧ f.kind = .interrupt ∧ s.cpu.esp = f.base
  | .syscallLeave =>
    ¬s.cpu.User ∧ s.cpu.eip = img.syscallBack ∧
      ∃ f fs, s.frames s.running = f :: fs ∧ f.kind = .syscall ∧ s.cpu.esp + 24 = f.base
  | .switch next =>
    ¬s.cpu.User ∧ s.live next ∧ next ≠ s.running ∧ s.mem (s.cpu.esp + 4) = next ∧
      s.running + TASK_SIZE + 16 ≤ s.cpu.esp ∧ s.cpu.esp + 8 ≤ s.floor s.running
  | .create task _ _ => ¬s.cpu.User ∧ s.Free task
  | .fork child =>
    ¬s.cpu.User ∧ s.Free child ∧ ∃ f, s.frames s.running = [f] ∧ f.kind = .syscall ∧ f.cpu.User
  | .reap task => ¬s.cpu.User ∧ task ≠ s.running
  | .toUserMode =>
    ¬s.cpu.User ∧ s.frames s.running = [] ∧ s.mem (s.running + UID) ≠ KERNEL_USER ∧
      s.cpu.esp ≤ s.running + PAGE_SIZE - INTR_FRAME_SIZE
  | .execve _ _ =>
    ¬s.cpu.User ∧ ∃ f, s.frames s.running = [f] ∧ (f.kind = .syscall ∨ f.kind = .user) ∧ f.cpu.User

def Act.next (img : Image) (s : State) : Act → Except Fault State
  | .work cpu mem => .ok { s with cpu := cpu, mem := mem }
  | .interrupt vector error =>
    let m := Switch.interrupt img s.machine s.esp0 vector error
    .ok (s.after m (⟨.interrupt, m.cpu.esp + 4, s.cpu, m.mem⟩ :: s.frames s.running))
  | .syscall back => do
    let m ← Switch.syscall img s.machine s.esp0 back
    return s.after m (⟨.syscall, m.cpu.esp + 28, s.cpu, m.mem⟩ :: s.frames s.running)
  | .leave => .ok (s.after (exec interruptExit s.machine) (s.frames s.running).tail)
  | .syscallLeave => .ok (s.after (exec syscallExit s.machine) (s.frames s.running).tail)
  | .switch next =>
    let m := exec taskSwitch s.machine
    let c := { s.cpu with esp := s.cpu.esp + 4, eip := s.mem s.cpu.esp }
    let f := ⟨.switch, s.cpu.esp - 16, c, m.mem⟩
    let s' := s.after m (f :: s.frames s.running)
    .ok { s'.setFrames next (s.frames next).tail with
      esp0 := taskActivate s.mem s.esp0 next, running := next }
  | .create task target uid =>
    let mem := taskCreate s.mem task target uid
    let cpu := { s.cpu with
      edi := 0x33333333, esi := 0x22222222, ebx := 0x11111111, ebp := 0x44444444,
      esp := task + PAGE_SIZE, eip := target }
    .ok { s.setFrames task [⟨.switch, task + PAGE_SIZE - TASK_FRAME_SIZE, cpu, mem⟩] with
      mem := mem, live := Function.update s.live task true }
  | .fork child =>
    let mem := taskFork img s.mem s.running child
    let iframe := child + PAGE_SIZE - INTR_FRAME_SIZE
    let cpu := { s.cpu with
      edi := 0xaa55aa55, esi := 0xaa55aa55, ebx := 0xaa55aa55, ebp := 0xaa55aa55,
      esp := iframe, eip := img.interruptExit }
    let fs := (s.frames s.running).map fun f => ⟨.interrupt, iframe, { f.cpu with eax := 0 }, mem⟩
    .ok { s.setFrames child (⟨.switch, iframe - TASK_FRAME_SIZE, cpu, mem⟩ :: fs) with
      mem := mem, live := Function.update s.live child true }
  | .reap task =>
    .ok { s.setFrames task [] with live := Function.update s.live task false }
  | .toUserMode =>
    let mem := userFrame s.mem s.running
    .ok (s.after ⟨s.cpu, mem⟩ [⟨.user, s.running + PAGE_SIZE - INTR_FRAME_SIZE, userCpu, mem⟩])
  | .execve entry top => .ok (s.after (execveReturn s.machine s.running entry top) [])

def Step (img : Image) (s : State) (a : Act) (s' : State) : Prop :=
  a.Possible img s ∧ a.next img s = .ok s'

/-- The kernel starts on the page of its boot stack, where no user was ever stored. -/
structure Initial (s : State) : Prop where
  live : ∀ t, s.live t = true ↔ t = s.running
  aligned : s.running % PAGE_SIZE = 0
  below : s.running + PAGE_SIZE < 2 ^ 32
  user : s.mem (s.running + UID) = KERNEL_USER
  frames : ∀ t, s.frames t = []
  cs : s.cpu.cs = KERNEL_CODE_SELECTOR
  ss : s.cpu.ss = KERNEL_DATA_SELECTOR
  low : s.running + TASK_SIZE ≤ s.cpu.esp
  high : s.cpu.esp ≤ s.running + PAGE_SIZE

end Ylos.Switch
