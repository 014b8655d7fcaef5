import Ylos.Model.Switch
import Ylos.Verification.Arena.Layout

/-! # What the assembly does to a stack -/

namespace Ylos.Switch

open Words

variable {m : Machine} {c : Cpu} {img : Image} {p v d v₀ e esp0 vector : ℕ} {vs : List ℕ}

theorem sub32_eq {a n : ℕ} (h : n ≤ a) : sub32 a n = a - n := if_pos h

theorem push_eq (h : 4 ≤ m.cpu.esp) (v : ℕ) :
    m.push v =
      ⟨{ m.cpu with esp := m.cpu.esp - 4 }, Function.update m.mem (m.cpu.esp - 4) v⟩ := by
  unfold Machine.push
  simp only [sub32_eq h]

/-- A list of pushes, all at once. -/
theorem pushAll_eq (m : Machine) (vs : List ℕ) (h : 4 * vs.length ≤ m.cpu.esp) :
    m.pushAll vs =
      ⟨{ m.cpu with esp := m.cpu.esp - 4 * vs.length }, pushed m.mem m.cpu.esp vs⟩ := by
  induction vs generalizing m with
  | nil => rfl
  | cons v vs ih =>
      rw [List.length_cons] at h
      have hesp : m.cpu.esp - 4 - 4 * vs.length = m.cpu.esp - 4 * (vs.length + 1) := by omega
      have hrest : 4 * vs.length ≤ m.cpu.esp - 4 := by omega
      unfold Machine.pushAll pushed
      rw [push_eq (by omega), ih _ hrest]
      simp only [hesp, List.length_cons]

theorem pushAll_append (m : Machine) (vs ws : List ℕ) :
    m.pushAll (vs ++ ws) = (m.pushAll vs).pushAll ws := by
  induction vs generalizing m with
  | nil => rfl
  | cons v vs ih => exact ih (m.push v)

theorem exec_append (code code' : List Instr) (m : Machine) :
    exec (code ++ code') m = exec code' (exec code m) := List.foldl_append

theorem exec_cons (i : Instr) (code : List Instr) (m : Machine) :
    exec (i :: code) m = exec code (i.exec m) := rfl

theorem exec_saveRegs (m : Machine) : ∃ d,
    exec saveRegs m = m.pushAll [m.cpu.ds, m.cpu.es, m.cpu.fs, m.cpu.gs, m.cpu.eax, m.cpu.ecx,
      m.cpu.edx, m.cpu.ebx, d, m.cpu.ebp, m.cpu.esi, m.cpu.edi] := by
  refine ⟨((((m.push m.cpu.ds).push m.cpu.es).push m.cpu.fs).push m.cpu.gs).cpu.esp, ?_⟩
  rfl

/-! ## Interrupt frames -/

/-- An `intr_frame_t` that brings back `c`. -/
def intrFrame (c : Cpu) (v d v₀ e : ℕ) : List ℕ :=
  [v, c.edi, c.esi, c.ebp, d, c.ebx, c.edx, c.ecx, c.eax, c.gs, c.fs, c.es, c.ds, v₀, e,
    c.eip, c.cs, c.eflags] ++ if c.User then [c.esp, c.ss] else []

theorem u32_u32_add (a b : ℕ) : u32 (u32 a + b) = u32 (a + b) := Nat.mod_add_mod _ _ _

/-- What `interrupt_exit` loads. -/
theorem interruptExit_loads (m : Machine) : exec interruptExit m =
    let w := fun k => m.mem (u32 (m.cpu.esp + k))
    let c : Cpu :=
      { edi := w 4, esi := w 8, ebp := w 12, ebx := w 20, edx := w 24, ecx := w 28, eax := w 32,
        gs := w 36, fs := w 40, es := w 44, ds := w 48, eip := w 60, cs := w 64, eflags := w 68,
        esp := u32 (m.cpu.esp + 72), ss := m.cpu.ss }
    ⟨if w 64 % 4 = 3 then { c with esp := w 72, ss := w 76 } else c, m.mem⟩ := by
  simp only [exec, interruptExit, List.foldl_cons, List.foldl_nil, Instr.exec, Machine.iret,
    Machine.top, Machine.drop, Cpu.get, Cpu.set, Cpu.setSeg, u32_u32_add, Nat.add_assoc,
    Nat.reduceAdd]
  split
  · rfl
  · rfl

/-- `interrupt_exit` brings back the processor that an interrupt frame holds. -/
theorem exec_interruptExit (h : Holds m.mem m.cpu.esp (intrFrame c v d v₀ e))
    (hp : m.cpu.esp + 80 ≤ 2 ^ 32)
    (hkernel : ¬c.User → c.esp = m.cpu.esp + 72 ∧ c.ss = m.cpu.ss) :
    exec interruptExit m = ⟨c, m.mem⟩ := by
  have hread : ∀ k, k < 80 → u32 (m.cpu.esp + k) = m.cpu.esp + k :=
    fun k hk => Nat.mod_eq_of_lt (by omega)
  unfold intrFrame at h
  rw [interruptExit_loads]
  by_cases huser : c.User
  · have hcs : c.cs % 4 = 3 := huser
    simp only [if_pos huser, List.cons_append, List.nil_append, holds_cons, Nat.add_assoc,
      Nat.reduceAdd] at h
    simp [hread, h, hcs]
  · have hcs : ¬c.cs % 4 = 3 := huser
    obtain ⟨hesp, hss⟩ := hkernel huser
    simp only [if_neg huser, List.append_nil, holds_cons, Nat.add_assoc, Nat.reduceAdd] at h
    simp only [hread, h, hcs, if_false, Nat.reduceLT]
    rw [← hesp, ← hss]

/-- What the processor pushes, but for an error code. -/
def delivered (c : Cpu) : List ℕ :=
  (if c.User then [c.ss, c.esp] else []) ++ [c.eflags, c.cs, c.eip]

/-- The stack that an interrupt takes. -/
def kernelEsp (c : Cpu) (esp0 : ℕ) : ℕ := if c.User then esp0 else c.esp

/-- The machine once an interrupt has pushed `ws`. -/
def pushedOn (m : Machine) (esp0 : ℕ) (ws : List ℕ) : Machine :=
  ⟨{ m.cpu with
      esp := kernelEsp m.cpu esp0 - 4 * ws.length
      ss := if m.cpu.User then KERNEL_DATA_SELECTOR else m.cpu.ss
      cs := KERNEL_CODE_SELECTOR
      eflags := clearFlags m.cpu.eflags },
    pushed m.mem (kernelEsp m.cpu esp0) ws⟩

theorem deliver_eq (m : Machine) (esp0 : ℕ) (error : List ℕ)
    (h : 4 * (delivered m.cpu ++ error).length ≤ kernelEsp m.cpu esp0) :
    deliver m esp0 error = pushedOn m esp0 (delivered m.cpu ++ error) := by
  unfold delivered kernelEsp at h
  unfold deliver delivered pushedOn kernelEsp
  by_cases huser : m.cpu.User
  · simp only [if_pos huser, List.append_assoc] at h ⊢
    have hpush := pushAll_eq ⟨{ m.cpu with esp := esp0, ss := KERNEL_DATA_SELECTOR }, m.mem⟩ _ h
    rw [pushAll_append] at hpush
    rw [hpush]
  · simp only [if_neg huser, List.nil_append] at h ⊢
    rw [pushAll_eq m _ h]

theorem pushedOn_pushAll (m : Machine) (esp0 : ℕ) (ws vs : List ℕ)
    (h : 4 * (ws.length + vs.length) ≤ kernelEsp m.cpu esp0) :
    (pushedOn m esp0 ws).pushAll vs = pushedOn m esp0 (ws ++ vs) := by
  have hesp : kernelEsp m.cpu esp0 - 4 * ws.length - 4 * vs.length =
      kernelEsp m.cpu esp0 - 4 * (ws.length + vs.length) := by omega
  have hroom : 4 * vs.length ≤ kernelEsp m.cpu esp0 - 4 * ws.length := by omega
  rw [pushAll_eq _ _ hroom]
  unfold pushedOn
  simp only [hesp, List.length_append, pushed_append]

/-- The registers that interrupt code saves are those of the code that it interrupts. -/
theorem exec_saveRegs_pushedOn (m : Machine) (esp0 : ℕ) (ws : List ℕ)
    (h : 4 * ws.length + 48 ≤ kernelEsp m.cpu esp0) : ∃ d,
    exec saveRegs (pushedOn m esp0 ws) =
      pushedOn m esp0 (ws ++ [m.cpu.ds, m.cpu.es, m.cpu.fs, m.cpu.gs, m.cpu.eax, m.cpu.ecx,
        m.cpu.edx, m.cpu.ebx, d, m.cpu.ebp, m.cpu.esi, m.cpu.edi]) := by
  obtain ⟨d, hd⟩ := exec_saveRegs (pushedOn m esp0 ws)
  refine ⟨d, ?_⟩
  rw [hd, pushedOn_pushAll _ _ _ _ (by simp only [List.length_cons, List.length_nil]; omega)]
  rfl

/-- What an interrupt pushes before it calls the handler. -/
def interruptWords (c : Cpu) (vector d e : ℕ) : List ℕ :=
  delivered c ++ [e, vector, c.ds, c.es, c.fs, c.gs, c.eax, c.ecx, c.edx, c.ebx, d, c.ebp, c.esi,
    c.edi]

theorem reverse_interruptWords (c : Cpu) (vector d e : ℕ) :
    vector :: (interruptWords c vector d e).reverse = intrFrame c vector d vector e := by
  unfold interruptWords delivered intrFrame
  split
  · rfl
  · rfl

theorem exec_call (img : Image) (m : Machine) :
    exec [.load .eax .esp (12 * 4), .push .eax, .call img.handlerTable img.interruptExit] m =
      let w := m.mem (u32 (m.cpu.esp + 48))
      let m' := Machine.pushAll ⟨{ m.cpu with eax := w }, m.mem⟩ [w, img.interruptExit]
      ⟨{ m'.cpu with eip := img.handlerTable w }, m'.mem⟩ := rfl

theorem exec_stub (m : Machine) (vector : ℕ) :
    exec ((if hasError vector then [] else [.pushImm YLOS_MAGIC]) ++ [.pushImm vector]) m =
      m.pushAll ((if hasError vector then [] else [YLOS_MAGIC]) ++ [vector]) := by
  split
  · rfl
  · rfl


theorem length_delivered_le (c : Cpu) : (delivered c).length ≤ 5 := by
  unfold delivered
  split
  · simp
  · simp

/-- `interrupt_entry` finds the vector behind the registers that it has saved. -/
theorem loaded_vector (hlow : 76 ≤ kernelEsp m.cpu esp0) (hhigh : kernelEsp m.cpu esp0 < 2 ^ 32) :
    let m' := pushedOn m esp0 (interruptWords m.cpu vector d e)
    m'.mem (u32 (m'.cpu.esp + 48)) = vector := by
  intro m'
  have hlen := length_delivered_le m.cpu
  have hholds := holds_pushed m.mem (kernelEsp m.cpu esp0) (interruptWords m.cpu vector d e)
    (by simp [interruptWords]; omega)
  have hread : u32 (m'.cpu.esp + 48) = m'.cpu.esp + 48 := by
    refine Nat.mod_eq_of_lt ?_
    change kernelEsp m.cpu esp0 - _ + 48 < _
    simp only [interruptWords, List.length_append, List.length_cons, List.length_nil]
    omega
  rw [hread]
  simp only [interruptWords, List.reverse_append, List.reverse_cons, List.reverse_nil,
    List.nil_append, List.cons_append, holds_cons, Nat.add_assoc, Nat.reduceAdd] at hholds
  exact hholds.2.2.2.2.2.2.2.2.2.2.2.2.1

/-- What the entry of an interrupt does to the machine. -/
theorem interrupt_pushes (img : Image) (m : Machine) (esp0 vector error : ℕ)
    (hlow : 84 ≤ kernelEsp m.cpu esp0)
    (hhigh : kernelEsp m.cpu esp0 < 2 ^ 32) : ∃ d e ws,
    let m' := interrupt img m esp0 vector error
    ws = interruptWords m.cpu vector d e ++ [vector, img.interruptExit] ∧
      m'.mem = pushed m.mem (kernelEsp m.cpu esp0) ws ∧
      m'.cpu.esp = kernelEsp m.cpu esp0 - 4 * ws.length ∧
      m'.cpu.eip = img.handlerTable vector ∧ m'.cpu.cs = KERNEL_CODE_SELECTOR ∧
      m'.cpu.ss = if m.cpu.User then KERNEL_DATA_SELECTOR else m.cpu.ss := by
  have hlen := length_delivered_le m.cpu
  have hstub : exec ((if hasError vector then [] else [.pushImm YLOS_MAGIC]) ++ [.pushImm vector])
      (deliver m esp0 (if hasError vector then [error] else [])) =
      pushedOn m esp0
        (delivered m.cpu ++ [if hasError vector then error else YLOS_MAGIC, vector]) := by
    rw [exec_stub]
    split
    · rw [deliver_eq _ _ _ (by simp; omega), pushedOn_pushAll _ _ _ _ (by simp; omega),
        List.append_assoc]
      rfl
    · rw [deliver_eq _ _ _ (by simp; omega), pushedOn_pushAll _ _ _ _ (by simp; omega),
        List.append_nil]
      rfl
  obtain ⟨d, hd⟩ := exec_saveRegs_pushedOn m esp0
    (delivered m.cpu ++ [if hasError vector then error else YLOS_MAGIC, vector])
    (by simp; omega)
  refine ⟨d, if hasError vector then error else YLOS_MAGIC, _, rfl, ?_⟩
  have hwords : delivered m.cpu ++ [if hasError vector then error else YLOS_MAGIC, vector] ++
      [m.cpu.ds, m.cpu.es, m.cpu.fs, m.cpu.gs, m.cpu.eax, m.cpu.ecx, m.cpu.edx, m.cpu.ebx, d,
        m.cpu.ebp, m.cpu.esi, m.cpu.edi] =
      interruptWords m.cpu vector d (if hasError vector then error else YLOS_MAGIC) := by
    rw [List.append_assoc]
    rfl
  have hpush := pushedOn_pushAll m esp0
    (interruptWords m.cpu vector d (if hasError vector then error else YLOS_MAGIC))
    [vector, img.interruptExit] (by simp [interruptWords]; omega)
  unfold interrupt interruptHandler interruptEntry
  rw [exec_append, exec_append, hstub, hd, hwords, exec_call, loaded_vector (by omega) hhigh]
  refine ⟨?_, ?_, rfl, rfl, rfl⟩
  · exact congrArg Machine.mem hpush
  · exact congrArg (fun m => m.cpu.esp) hpush

/-! ## Entry and exit -/

def frameSize (c : Cpu) : ℕ := if c.User then INTR_FRAME_SIZE else 72

theorem length_intrFrame (c : Cpu) (v d v₀ e : ℕ) :
    4 * (intrFrame c v d v₀ e).length = frameSize c := by
  unfold intrFrame frameSize
  split
  · rfl
  · rfl

/-- What an interrupt or a system call leaves on the kernel stack: the frame of the code that it
interrupts at `base`, and nothing else but what lies below. -/
structure Entry (m m' : Machine) (esp0 base : ℕ) : Prop where
  holds : ∃ v d v₀ e, Holds m'.mem base (intrFrame m.cpu v d v₀ e)
  limit : base + frameSize m.cpu = kernelEsp m.cpu esp0
  above : ∀ a, kernelEsp m.cpu esp0 ≤ a → m'.mem a = m.mem a
  below : ∀ a, a < m'.cpu.esp → m'.mem a = m.mem a
  cs : m'.cpu.cs = KERNEL_CODE_SELECTOR
  ss : m'.cpu.ss = if m.cpu.User then KERNEL_DATA_SELECTOR else m.cpu.ss

theorem length_delivered (c : Cpu) : 4 * (delivered c).length + 60 = frameSize c := by
  unfold delivered frameSize
  split
  · rfl
  · rfl

theorem frameSize_le (c : Cpu) : frameSize c ≤ 80 := by
  unfold frameSize
  split
  · exact le_rfl
  · decide

theorem le_frameSize (c : Cpu) : 72 ≤ frameSize c := by
  unfold frameSize
  split
  · decide
  · exact le_rfl

theorem interrupt_entry (img : Image) (m : Machine) (esp0 vector error : ℕ)
    (hlow : 84 ≤ kernelEsp m.cpu esp0)
    (hhigh : kernelEsp m.cpu esp0 < 2 ^ 32) :
    let m' := interrupt img m esp0 vector error
    Entry m m' esp0 (m'.cpu.esp + 4) ∧ m'.cpu.eip = img.handlerTable vector ∧
      Holds m'.mem m'.cpu.esp [img.interruptExit, vector] := by
  intro m'
  obtain ⟨d, e, ws, hws, hmem, hesp, heip, hcs, hss⟩ :=
    interrupt_pushes img m esp0 vector error hlow hhigh
  change m'.mem = _ at hmem
  change m'.cpu.esp = _ at hesp
  have hsize := length_delivered m.cpu
  have hle := frameSize_le m.cpu
  have hlen : 4 * ws.length = frameSize m.cpu + 4 := by
    rw [hws]
    simp [interruptWords]
    omega
  have hholds := holds_pushed m.mem (kernelEsp m.cpu esp0) ws (by omega)
  have hreverse : ws.reverse =
      img.interruptExit :: intrFrame m.cpu vector d vector e := by
    rw [hws, List.reverse_append, ← reverse_interruptWords]
    rfl
  rw [hreverse, ← hmem, ← hesp] at hholds
  refine ⟨⟨⟨vector, d, vector, e, hholds.2⟩, by omega, ?_, ?_, hcs, hss⟩, heip, hholds.1, ?_⟩
  · intro a ha
    rw [hmem]
    exact pushed_apply_of_le (by omega) ha
  · intro a ha
    rw [hmem]
    exact pushed_apply_of_lt (by omega)
  · unfold intrFrame at hholds
    exact ⟨hholds.2.1, trivial⟩

/-- What `syscall_handler` pushes once the number is checked. -/
def syscallWords (img : Image) (c : Cpu) (d : ℕ) : List ℕ :=
  [YLOS_MAGIC, 0x80, c.ds, c.es, c.fs, c.gs, c.eax, c.ecx, c.edx, c.ebx, d, c.ebp, c.esi, c.edi,
    0x80, c.ebp, c.edi, c.esi, c.edx, c.ecx, c.ebx, img.syscallBack]

@[simp] theorem push_eax (m : Machine) (v : ℕ) : (m.push v).cpu.eax = m.cpu.eax := rfl

@[simp] theorem push_ecx (m : Machine) (v : ℕ) : (m.push v).cpu.ecx = m.cpu.ecx := rfl

@[simp] theorem push_edx (m : Machine) (v : ℕ) : (m.push v).cpu.edx = m.cpu.edx := rfl

@[simp] theorem push_ebx (m : Machine) (v : ℕ) : (m.push v).cpu.ebx = m.cpu.ebx := rfl

@[simp] theorem push_ebp (m : Machine) (v : ℕ) : (m.push v).cpu.ebp = m.cpu.ebp := rfl

@[simp] theorem push_esi (m : Machine) (v : ℕ) : (m.push v).cpu.esi = m.cpu.esi := rfl

@[simp] theorem push_edi (m : Machine) (v : ℕ) : (m.push v).cpu.edi = m.cpu.edi := rfl

/-- Pushes change no register but `esp`. -/
theorem exists_pushAll (m : Machine) (vs : List ℕ) :
    ∃ esp mem, m.pushAll vs = ⟨{ m.cpu with esp := esp }, mem⟩ := by
  induction vs generalizing m with
  | nil => exact ⟨_, _, rfl⟩
  | cons v vs ih =>
      obtain ⟨esp, mem, h⟩ := ih (m.push v)
      exact ⟨esp, mem, h⟩

theorem exec_syscallEntry (img : Image) (m : Machine) : ∃ d,
    exec (syscallEntry img) m =
      let m' := m.pushAll (syscallWords img m.cpu d)
      ⟨{ m'.cpu with eip := img.syscallTable m.cpu.eax }, m'.mem⟩ := by
  have hfirst : exec [.pushImm YLOS_MAGIC, .pushImm 0x80] m = m.pushAll [YLOS_MAGIC, 0x80] := rfl
  have hlast : ∀ m : Machine,
      exec [.pushImm 0x80, .push .ebp, .push .edi, .push .esi, .push .edx, .push .ecx, .push .ebx,
        .call img.syscallTable img.syscallBack] m =
      let m' := m.pushAll [0x80, m.cpu.ebp, m.cpu.edi, m.cpu.esi, m.cpu.edx, m.cpu.ecx, m.cpu.ebx,
        img.syscallBack]
      ⟨{ m'.cpu with eip := img.syscallTable m.cpu.eax }, m'.mem⟩ := by
    intro m
    simp only [exec, List.foldl_cons, List.foldl_nil, Instr.exec, Cpu.get, Machine.pushAll,
      push_eax, push_ecx, push_edx, push_ebx, push_ebp, push_esi, push_edi]
  obtain ⟨esp, mem, hpush⟩ := exists_pushAll m [YLOS_MAGIC, 0x80]
  obtain ⟨d, hd⟩ := exec_saveRegs ⟨{ m.cpu with esp := esp }, mem⟩
  dsimp only at hd
  rw [← hpush, ← pushAll_append] at hd
  obtain ⟨esp', mem', hpush'⟩ := exists_pushAll m ([YLOS_MAGIC, 0x80] ++ [m.cpu.ds, m.cpu.es,
    m.cpu.fs, m.cpu.gs, m.cpu.eax, m.cpu.ecx, m.cpu.edx, m.cpu.ebx, d, m.cpu.ebp, m.cpu.esi,
    m.cpu.edi])
  have hafter := hlast ⟨{ m.cpu with esp := esp' }, mem'⟩
  dsimp only at hafter
  rw [← hpush', ← pushAll_append] at hafter
  refine ⟨d, ?_⟩
  unfold syscallEntry
  rw [exec_append, exec_append, hfirst, hd, hafter]
  rfl

/-- The check of the number leaves two words below the stack. -/
theorem syscallCheck_eq (m : Machine) (back : ℕ) (hlow : 8 ≤ m.cpu.esp)
    (hhigh : m.cpu.esp < 2 ^ 32) :
    syscallCheck ((m.push m.cpu.eax).push back) =
      if SYSCALL_SIZE ≤ m.cpu.eax then .error .assertion
      else .ok ⟨{ m.cpu with esp := m.cpu.esp - 4, eip := back },
        pushed m.mem m.cpu.esp [m.cpu.eax, back]⟩ := by
  have hpush := pushAll_eq m [m.cpu.eax, back] hlow
  change (m.push m.cpu.eax).push back = _ at hpush
  have hback : u32 (m.cpu.esp - 8 + 4) = m.cpu.esp - 4 := by
    unfold u32
    omega
  have hholds := holds_pushed m.mem m.cpu.esp [m.cpu.eax, back] hlow
  have hnext : m.cpu.esp - 8 + 4 = m.cpu.esp - 4 := by omega
  simp only [List.length_cons, List.length_nil, Nat.reduceAdd, Nat.reduceMul, List.reverse_cons,
    List.reverse_nil, List.nil_append, List.cons_append, holds_cons, hnext] at hholds hpush
  rw [hpush]
  unfold syscallCheck
  simp only [hback, hholds.2.1, Instr.exec, Machine.drop, Machine.top, hholds.1]

/-- What `int 0x80` does to the machine, when the number is one of a system call. -/
theorem syscall_pushes {back : ℕ} {m' : Machine} (hlow : 108 ≤ kernelEsp m.cpu esp0)
    (hhigh : kernelEsp m.cpu esp0 < 2 ^ 32) (h : syscall img m esp0 back = .ok m') : ∃ d,
    let q := kernelEsp m.cpu esp0 - 4 * (delivered m.cpu).length
    let ws := syscallWords img m.cpu d
    m.cpu.eax < SYSCALL_SIZE ∧
      m'.mem = pushed (pushed (pushed m.mem (kernelEsp m.cpu esp0) (delivered m.cpu)) q
        [m.cpu.eax, back]) q ws ∧
      m'.cpu.esp = q - 4 * ws.length ∧
      m'.cpu.eip = img.syscallTable m.cpu.eax ∧ m'.cpu.cs = KERNEL_CODE_SELECTOR ∧
      m'.cpu.ss = if m.cpu.User then KERNEL_DATA_SELECTOR else m.cpu.ss := by
  have hlen := length_delivered_le m.cpu
  have hdeliver := deliver_eq m esp0 [] (by simp; omega)
  rw [List.append_nil] at hdeliver
  generalize hm : pushedOn m esp0 (delivered m.cpu) = m₁ at hdeliver
  have hesp : m₁.cpu.esp = kernelEsp m.cpu esp0 - 4 * (delivered m.cpu).length := by
    rw [← hm]
    rfl
  have heax : m₁.cpu.eax = m.cpu.eax := by
    rw [← hm]
    rfl
  have hcheck := syscallCheck_eq m₁ back (by omega) (by omega)
  have hback : u32 (m₁.cpu.esp - 4 + 4) = m₁.cpu.esp := by
    unfold u32
    omega
  unfold syscall at h
  rw [hdeliver] at h
  dsimp only at h
  rw [hcheck] at h
  split at h
  · cases h
  · rename_i hlt
    have hskip : ∀ m : Machine, Instr.exec m (.addImm .esp 4) =
        ⟨{ m.cpu with esp := u32 (m.cpu.esp + 4) }, m.mem⟩ := fun _ => rfl
    simp only [exec_cons, hskip] at h
    obtain ⟨m₂, hm₂⟩ : ∃ m₂ : Machine, m₂ =
        ⟨{ m₁.cpu with esp := u32 (m₁.cpu.esp - 4 + 4), eip := back },
          pushed m₁.mem m₁.cpu.esp [m₁.cpu.eax, back]⟩ := ⟨_, rfl⟩
    have hrun : exec (syscallEntry img) m₂ = m' := by
      rw [hm₂]
      exact Except.ok.inj h
    obtain ⟨d, hd⟩ := exec_syscallEntry img m₂
    have hesp₂ : m₂.cpu.esp = kernelEsp m.cpu esp0 - 4 * (delivered m.cpu).length := by
      rw [hm₂, ← hesp]
      exact hback
    have hwords : syscallWords img m₂.cpu d = syscallWords img m.cpu d := by
      rw [hm₂, ← hm]
      rfl
    have heax₂ : m₂.cpu.eax = m.cpu.eax := by rw [hm₂, heax]
    have hpush := pushAll_eq m₂ (syscallWords img m.cpu d) (by simp [syscallWords]; omega)
    rw [hd, hwords, heax₂, hpush, hesp₂] at hrun
    subst hrun
    refine ⟨d, ?_, ?_, rfl, rfl, ?_, ?_⟩
    · omega
    · rw [hm₂, heax, hesp, ← hm]
      rfl
    · rw [hm₂, ← hm]
      rfl
    · rw [hm₂, ← hm]
      rfl

/-- The frame of a system call: what the processor and `syscall_handler` have pushed. -/
theorem reverse_syscallWords (img : Image) (c : Cpu) (d : ℕ) :
    (syscallWords img c d).reverse ++ (delivered c).reverse =
      [img.syscallBack, c.ebx, c.ecx, c.edx, c.esi, c.edi, c.ebp] ++
        intrFrame c 0x80 d 0x80 YLOS_MAGIC := by
  unfold delivered intrFrame syscallWords
  split
  · rfl
  · rfl

theorem syscall_entry {back : ℕ} {m' : Machine} (hlow : 108 ≤ kernelEsp m.cpu esp0)
    (hhigh : kernelEsp m.cpu esp0 < 2 ^ 32) (h : syscall img m esp0 back = .ok m') :
    m.cpu.eax < SYSCALL_SIZE ∧ Entry m m' esp0 (m'.cpu.esp + 28) ∧
      m'.cpu.eip = img.syscallTable m.cpu.eax ∧
      Holds m'.mem m'.cpu.esp [img.syscallBack, m.cpu.ebx, m.cpu.ecx, m.cpu.edx, m.cpu.esi,
        m.cpu.edi, m.cpu.ebp, 0x80] := by
  obtain ⟨d, hnr, hmem, hesp, heip, hcs, hss⟩ := syscall_pushes hlow hhigh h
  have hsize := length_delivered m.cpu
  have hle := frameSize_le m.cpu
  have hws : (syscallWords img m.cpu d).length = 22 := rfl
  rw [hws] at hesp
  generalize hq : kernelEsp m.cpu esp0 - 4 * (delivered m.cpu).length = q at hmem hesp
  have hdelivered : Holds m'.mem q (delivered m.cpu).reverse := by
    have hpushed := holds_pushed m.mem (kernelEsp m.cpu esp0) (delivered m.cpu)
      (by omega)
    rw [hq] at hpushed
    refine hpushed.congr fun a ha _ => ?_
    rw [hmem, pushed_apply_of_le (by omega) ha, pushed_apply_of_le (by simp; omega) ha]
  have hholds := holds_pushed
    (pushed (pushed m.mem (kernelEsp m.cpu esp0) (delivered m.cpu)) q [m.cpu.eax, back]) q
    (syscallWords img m.cpu d) (by omega)
  rw [← hmem, hws, ← hesp] at hholds
  have hend : m'.cpu.esp + 4 * (syscallWords img m.cpu d).reverse.length = q := by
    rw [List.length_reverse, hws]
    omega
  have hall : Holds m'.mem m'.cpu.esp
      ((syscallWords img m.cpu d).reverse ++ (delivered m.cpu).reverse) := by
    rw [holds_append, hend]
    exact ⟨hholds, hdelivered⟩
  rw [reverse_syscallWords, holds_append] at hall
  refine ⟨hnr, ⟨⟨_, _, _, _, hall.2⟩, by omega, ?_, ?_, hcs, hss⟩, heip, ?_⟩
  · intro a ha
    rw [hmem, pushed_apply_of_le (by omega) (by omega),
      pushed_apply_of_le (by simp; omega) (by omega), pushed_apply_of_le (by omega) ha]
  · intro a ha
    rw [hmem, pushed_apply_of_lt (by omega), pushed_apply_of_lt (by simp; omega),
      pushed_apply_of_lt (by omega)]
  · have hargs : [img.syscallBack, m.cpu.ebx, m.cpu.ecx, m.cpu.edx, m.cpu.esi, m.cpu.edi, m.cpu.ebp,
        0x80] = [img.syscallBack, m.cpu.ebx, m.cpu.ecx, m.cpu.edx, m.cpu.esi, m.cpu.edi,
          m.cpu.ebp] ++ [0x80] := rfl
    rw [hargs, holds_append]
    refine ⟨hall.1, ?_, trivial⟩
    have hframe := hall.2
    unfold intrFrame at hframe
    exact hframe.1

/-- A system call returns like an interrupt, but for its result. -/
theorem exec_syscallExit (h : Holds m.mem (m.cpu.esp + 24) (intrFrame c v d v₀ e))
    (hp : m.cpu.esp + 24 + 80 ≤ 2 ^ 32)
    (hkernel : ¬c.User → c.esp = m.cpu.esp + 24 + 72 ∧ c.ss = m.cpu.ss) :
    exec syscallExit m =
      ⟨{ c with eax := m.cpu.eax }, Function.update m.mem (m.cpu.esp + 56) m.cpu.eax⟩ := by
  have hesp : u32 (m.cpu.esp + 24) = m.cpu.esp + 24 := Nat.mod_eq_of_lt (by omega)
  have hslot : u32 (m.cpu.esp + 24 + 32) = m.cpu.esp + 56 := Nat.mod_eq_of_lt (by omega)
  have hadd : Instr.exec m (.addImm .esp (6 * 4)) =
      ⟨{ m.cpu with esp := m.cpu.esp + 24 }, m.mem⟩ := by
    rw [← hesp]
    rfl
  have hstore :
      Instr.exec ⟨{ m.cpu with esp := m.cpu.esp + 24 }, m.mem⟩ (.store .esp (8 * 4) .eax) =
      ⟨{ m.cpu with esp := m.cpu.esp + 24 },
        Function.update m.mem (m.cpu.esp + 56) m.cpu.eax⟩ := by
    rw [← hslot]
    rfl
  have hset : (intrFrame c v d v₀ e).set 8 m.cpu.eax =
      intrFrame { c with eax := m.cpu.eax } v d v₀ e := rfl
  have hframe := h.set m.cpu.eax 8
  rw [hset] at hframe
  have hexit := exec_interruptExit (m := ⟨{ m.cpu with esp := m.cpu.esp + 24 },
    Function.update m.mem (m.cpu.esp + 56) m.cpu.eax⟩) hframe hp hkernel
  unfold syscallExit
  rw [List.cons_append, List.cons_append, List.nil_append, exec_cons, exec_cons, hadd, hstore,
    hexit]

/-! ## The switch -/

theorem and_page {a : ℕ} (h : a < 2 ^ 32) : a &&& 0xFFFFF000 = a / 4096 * 4096 :=
  Heap.getBlockArena_eq h

/-- `task_switch` up to where it has stored its own stack. -/
theorem exec_switchSave (hlow : 16 ≤ m.cpu.esp) (hhigh : m.cpu.esp < 2 ^ 32) :
    exec [.push .ebp, .mov .ebp .esp, .push .ebx, .push .esi, .push .edi, .mov .eax .esp,
      .andImm .eax 0xFFFFF000, .store .eax 0 .esp] m =
      let sp := m.cpu.esp - 16
      ⟨{ m.cpu with ebp := m.cpu.esp - 4, esp := sp, eax := sp / 4096 * 4096 },
        Function.update (pushed m.mem m.cpu.esp [m.cpu.ebp, m.cpu.ebx, m.cpu.esi, m.cpu.edi])
          (sp / 4096 * 4096) sp⟩ := by
  have hfirst : exec [.push .ebp, .mov .ebp .esp] m =
      ⟨{ m.cpu with esp := m.cpu.esp - 4, ebp := m.cpu.esp - 4 },
        pushed m.mem m.cpu.esp [m.cpu.ebp]⟩ := by
    simp only [exec, List.foldl_cons, List.foldl_nil, Instr.exec, Cpu.get, Cpu.set,
      push_eq (show 4 ≤ m.cpu.esp by omega), pushed]
  have hrest : ∀ m : Machine, exec [.push .ebx, .push .esi, .push .edi] m =
      m.pushAll [m.cpu.ebx, m.cpu.esi, m.cpu.edi] := fun _ => rfl
  have hstore : ∀ m : Machine,
      exec [.mov .eax .esp, .andImm .eax 0xFFFFF000, .store .eax 0 .esp] m =
      ⟨{ m.cpu with eax := m.cpu.esp &&& 0xFFFFF000 },
        Function.update m.mem (u32 ((m.cpu.esp &&& 0xFFFFF000) + 0)) m.cpu.esp⟩ := fun _ => rfl
  have hsplit : ([.push .ebp, .mov .ebp .esp, .push .ebx, .push .esi, .push .edi, .mov .eax .esp,
      .andImm .eax 0xFFFFF000, .store .eax 0 .esp] : List Instr) =
      [.push .ebp, .mov .ebp .esp] ++ [.push .ebx, .push .esi, .push .edi] ++
        [.mov .eax .esp, .andImm .eax 0xFFFFF000, .store .eax 0 .esp] := rfl
  have hesp : m.cpu.esp - 4 - 4 * 3 = m.cpu.esp - 16 := by omega
  have hpage : u32 ((m.cpu.esp - 16) / 4096 * 4096 + 0) = (m.cpu.esp - 16) / 4096 * 4096 := by
    rw [Nat.add_zero]
    exact Nat.mod_eq_of_lt (by omega)
  have hroom : 4 * 3 ≤ m.cpu.esp - 4 := by omega
  have hpush := pushAll_eq ⟨{ m.cpu with esp := m.cpu.esp - 4, ebp := m.cpu.esp - 4 },
    pushed m.mem m.cpu.esp [m.cpu.ebp]⟩ [m.cpu.ebx, m.cpu.esi, m.cpu.edi] hroom
  rw [hsplit, exec_append, exec_append, hfirst, hrest, hpush, hstore]
  simp only [List.length_cons, List.length_nil, Nat.reduceAdd, hesp,
    and_page (show m.cpu.esp - 16 < 2 ^ 32 by omega), hpage]
  rfl

/-- `task_switch` from where it has the stack of the other task. -/
theorem exec_switchRestore (m : Machine) :
    exec [.pop .edi, .pop .esi, .pop .ebx, .pop .ebp, .ret] m =
      let sp := m.cpu.esp
      ⟨{ m.cpu with
          edi := m.mem sp, esi := m.mem (u32 (sp + 4)), ebx := m.mem (u32 (sp + 8)),
          ebp := m.mem (u32 (sp + 12)), eip := m.mem (u32 (sp + 16)), esp := u32 (sp + 20) },
        m.mem⟩ := by
  simp only [exec, List.foldl_cons, List.foldl_nil, Instr.exec, Cpu.set, Machine.drop, Machine.top,
    u32_u32_add, Nat.add_assoc, Nat.reduceAdd]

/-- A `task_frame_t` that brings back `c`. -/
def taskFrame (c : Cpu) : List ℕ := [c.edi, c.esi, c.ebx, c.ebp, c.eip]

/-- What a task gets back from `task_switch`. -/
structure Resumed (c c' : Cpu) : Prop where
  edi : c'.edi = c.edi
  esi : c'.esi = c.esi
  ebx : c'.ebx = c.ebx
  ebp : c'.ebp = c.ebp
  eip : c'.eip = c.eip
  esp : c'.esp = c.esp

/-- The memory once `task_switch` has left the stack of its caller. -/
def switchedMem (m : Machine) : ℕ → ℕ :=
  let sp := m.cpu.esp - 16
  Function.update (pushed m.mem m.cpu.esp [m.cpu.ebp, m.cpu.ebx, m.cpu.esi, m.cpu.edi])
    (sp / 4096 * 4096) sp

/-- `task_switch` brings back the task whose frame is on the other stack. -/
theorem exec_taskSwitch {next : ℕ} (hlow : 16 ≤ m.cpu.esp) (hhigh : m.cpu.esp + 8 ≤ 2 ^ 32)
    (hnext : switchedMem m (m.cpu.esp + 4) = next) (hlt : next < 2 ^ 32)
    (hother : switchedMem m next + 20 < 2 ^ 32)
    (hframe : Holds (switchedMem m) (switchedMem m next) (taskFrame c))
    (hc : c.esp = switchedMem m next + 20) :
    (exec taskSwitch m).mem = switchedMem m ∧ Resumed c (exec taskSwitch m).cpu ∧
      (exec taskSwitch m).cpu.cs = m.cpu.cs ∧ (exec taskSwitch m).cpu.ss = m.cpu.ss := by
  have hload : ∀ m : Machine, exec [.load .eax .ebp 8, .load .esp .eax 0] m =
      ⟨{ m.cpu with
          eax := m.mem (u32 (m.cpu.ebp + 8))
          esp := m.mem (u32 (m.mem (u32 (m.cpu.ebp + 8)) + 0)) }, m.mem⟩ := fun _ => rfl
  have hsplit : taskSwitch =
      [.push .ebp, .mov .ebp .esp, .push .ebx, .push .esi, .push .edi, .mov .eax .esp,
        .andImm .eax 0xFFFFF000, .store .eax 0 .esp] ++ [.load .eax .ebp 8, .load .esp .eax 0] ++
        [.pop .edi, .pop .esi, .pop .ebx, .pop .ebp, .ret] := rfl
  have harg : u32 (m.cpu.esp - 4 + 8) = m.cpu.esp + 4 := by
    unfold u32
    omega
  have hslot : u32 (next + 0) = next := Nat.mod_eq_of_lt hlt
  generalize hsp : switchedMem m next = sp at *
  have hread : ∀ k, k ≤ 20 → u32 (sp + k) = sp + k := fun k hk => Nat.mod_eq_of_lt (by omega)
  have hrun : exec taskSwitch m =
      ⟨{ m.cpu with
          eax := next, edi := switchedMem m sp, esi := switchedMem m (sp + 4),
          ebx := switchedMem m (sp + 8), ebp := switchedMem m (sp + 12),
          eip := switchedMem m (sp + 16), esp := sp + 20 }, switchedMem m⟩ := by
    rw [hsplit, exec_append, exec_append, exec_switchSave hlow (by omega), hload]
    change exec _ ⟨{ m.cpu with
        ebp := m.cpu.esp - 4, eax := switchedMem m (u32 (m.cpu.esp - 4 + 8))
        esp := switchedMem m (u32 (switchedMem m (u32 (m.cpu.esp - 4 + 8)) + 0)) },
      switchedMem m⟩ = _
    rw [harg, hnext, hslot, hsp, exec_switchRestore]
    simp only [hread 4 (by decide), hread 8 (by decide), hread 12 (by decide), hread 16 (by decide),
      hread 20 (by decide)]
  rw [hrun]
  obtain ⟨hedi, hesi, hebx, hebp, heip, -⟩ := hframe
  exact ⟨rfl, ⟨hedi, hesi, hebx, hebp, heip, hc.symm⟩, rfl, rfl⟩

theorem switchedMem_of_le {a : ℕ} (hlow : 16 ≤ m.cpu.esp)
    (hbelow : (m.cpu.esp - 16) / 4096 * 4096 < m.cpu.esp - 16) (h : m.cpu.esp ≤ a) :
    switchedMem m a = m.mem a := by
  unfold switchedMem
  rw [Function.update_of_ne (by omega), pushed_apply_of_le (by simpa using hlow) h]

theorem switchedMem_of_lt {a : ℕ} (h : a < m.cpu.esp - 16)
    (hne : a ≠ (m.cpu.esp - 16) / 4096 * 4096) : switchedMem m a = m.mem a := by
  unfold switchedMem
  rw [Function.update_of_ne hne, pushed_apply_of_lt (by simpa using h)]

theorem switchedMem_page (m : Machine) :
    switchedMem m ((m.cpu.esp - 16) / 4096 * 4096) = m.cpu.esp - 16 := Function.update_self _ _ _

/-- The frame that the caller of `task_switch` leaves. -/
theorem switchedMem_frame (hlow : 16 ≤ m.cpu.esp)
    (hbelow : (m.cpu.esp - 16) / 4096 * 4096 < m.cpu.esp - 16) :
    Holds (switchedMem m) (m.cpu.esp - 16)
      (taskFrame { m.cpu with esp := m.cpu.esp + 4, eip := m.mem m.cpu.esp }) := by
  have hpushed := holds_pushed m.mem m.cpu.esp [m.cpu.ebp, m.cpu.ebx, m.cpu.esi, m.cpu.edi]
    (by simpa using hlow)
  have hlast : m.cpu.esp - 16 + 4 + 4 + 4 + 4 = m.cpu.esp := by omega
  have hsaved : Holds (switchedMem m) (m.cpu.esp - 16)
      [m.cpu.edi, m.cpu.esi, m.cpu.ebx, m.cpu.ebp] :=
    hpushed.congr fun a ha _ => Function.update_of_ne (by simp at ha; omega) _ _
  obtain ⟨hedi, hesi, hebx, hebp, -⟩ := hsaved
  refine ⟨hedi, hesi, hebx, hebp, ?_, trivial⟩
  rw [hlast, switchedMem_of_le hlow hbelow le_rfl]

end Ylos.Switch
