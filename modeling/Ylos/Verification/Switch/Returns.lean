import Mathlib.Tactic.IntervalCases
import Ylos.Verification.Switch.Origin

/-! # The ways out of the kernel, over whole runs -/

namespace Ylos.Switch

open Words

variable {img : Image} {s₀ s s' u u' : State} {a : Act} {f g : Frame} {fs : List Frame} {t next : ℕ}

theorem Initial.traced (h : Initial s₀) (t : ℕ) : Traced img s₀ s₀ t (s₀.frames t) := by
  rw [h.frames]
  trivial

theorem Reaches.traced (h : Initial s₀) (hrun : Reaches img s₀ s) :
    ∀ t, Traced img s₀ s t (s.frames t) := by
  suffices hboth : Reaches img s₀ s ∧ ∀ t, Traced img s₀ s t (s.frames t) from hboth.2
  refine Run.invariant (P := fun s => Reaches img s₀ s ∧ ∀ t, Traced img s₀ s t (s.frames t))
    (fun s a s' hs _ hstep => ⟨hs.1.tail hstep, hstep.traced h hs.1 hs.2⟩) hrun
    ⟨.refl s₀, h.traced⟩

/-! ## A run -/

/-- Code of the kernel moves on its stack, and calls `task_switch(next)` there. -/
def callSwitch (next esp : ℕ) (s : State) : Act :=
  .work { s.cpu with esp := esp } (Function.update s.mem (esp + 4) next)

def moveTo (eip esp : ℕ) (s : State) : Act := .work { s.cpu with eip := eip, esp := esp } s.mem

theorem moveTo_possible {eip esp : ℕ} (hcpu : ¬s.cpu.User)
    (hlow : s.running + TASK_SIZE ≤ esp) (hhigh : esp ≤ s.floor s.running) :
    (moveTo eip esp s).Possible img s :=
  ⟨fun _ _ => rfl, fun huser => absurd huser hcpu, fun _ => ⟨rfl, rfl, hlow, hhigh⟩⟩

theorem callSwitch_possible {next esp : ℕ} (h : Inv s) (hcpu : ¬s.cpu.User)
    (hlow : s.running + TASK_SIZE ≤ esp) (hhigh : esp + 8 ≤ s.floor s.running) :
    (callSwitch next esp s).Possible img s := by
  have hfit : esp ≤ s.floor s.running := (Nat.le_add_right esp 8).trans hhigh
  refine ⟨?_, fun huser => absurd huser hcpu, fun _ => ⟨rfl, rfl, hlow, hfit⟩⟩
  intro a ha
  have htop := h.floor_le _ h.running
  have huid : UID < TASK_SIZE := by decide
  refine Function.update_of_ne ?_ _ _
  rintro rfl
  rcases ha with ⟨hfloor, -⟩ | ⟨t, ht, ha⟩
  · omega
  · by_cases heq : t = s.running
    · subst heq
      rcases ha with ha | ⟨hne, -⟩
      · omega
      · exact hne rfl
    · have hapart := h.apart ht h.running heq
      have hsaved : t ≤ s.mem t := by
        obtain ⟨f, fs, hfs, -, hbase, -⟩ := h.suspended t ht heq
        have hfloor := h.le_floor t ht
        rw [State.floor_of_frames hfs] at hfloor
        omega
      have hpage : TASK_SIZE < PAGE_SIZE := by decide
      omega

def exampleImage : Image := ⟨fun _ => 0x100, fun _ => 0x200, 0x300, 0x400⟩

def exampleBoot : State where
  cpu := ⟨0, 0, 0, 0, 0x11000, 0, 0, 0, 0x10, 0x10, 0x10, 0, KERNEL_CODE_SELECTOR,
    KERNEL_DATA_SELECTOR, 0, 0⟩
  mem _ := 0
  esp0 := 0
  live t := t == 0x10000
  running := 0x10000
  frames _ := []

theorem exampleBoot_initial : Initial exampleBoot where
  live t := by simp [exampleBoot]
  aligned := by decide
  below := by decide
  user := rfl
  frames _ := rfl
  cs := rfl
  ss := rfl
  low := by decide
  high := by decide

/-- A task is created, becomes a user, and forks. Its child runs until the clock brings back the
parent, whose system call returns. -/
def exampleActs : List (State → Act) :=
  [fun _ => .create 0x20000 0x500 1, callSwitch 0x20000 0x10800, fun _ => .switch 0x20000,
   moveTo 0x600 0x20f00, fun _ => .toUserMode, fun _ => .execve 0x8048000 0xFFFFF00,
   fun _ => .syscall 0x900, fun _ => .fork 0x30000, callSwitch 0x30000 0x20f00,
   fun _ => .switch 0x30000, fun _ => .leave, fun _ => .interrupt 0x20 0,
   callSwitch 0x20000 0x30f00, fun _ => .switch 0x20000, moveTo 0x400 0x20f98,
   fun _ => .syscallLeave]

def State.act (img : Image) (s : State) (a : State → Act) : State :=
  match (a s).next img s with
  | .ok s' => s'
  | .error _ => s

def exampleState (n : ℕ) : State := (exampleActs.take n).foldl (State.act exampleImage) exampleBoot

theorem exampleState_step : ∀ n, n < 16 → Inv (exampleState n) →
    Step exampleImage (exampleState n) (exampleActs.getD n (fun _ => .leave) (exampleState n))
      (exampleState (n + 1)) := by
  intro n hn hinv
  interval_cases n
  · exact ⟨⟨by decide, by decide, by decide, by decide⟩, rfl⟩
  · exact ⟨callSwitch_possible hinv (by decide) (by decide) (by decide), rfl⟩
  · exact ⟨⟨by decide, by decide, by decide, by decide, by decide, by decide⟩, rfl⟩
  · exact ⟨moveTo_possible (by decide) (by decide) (by decide), rfl⟩
  · exact ⟨⟨by decide, by rfl, by decide, by decide⟩, rfl⟩
  · exact ⟨⟨by decide, _, rfl, .inr rfl, by decide⟩, rfl⟩
  · exact ⟨show (_ : ℕ) ≤ _ by decide, rfl⟩
  · exact ⟨⟨by decide, ⟨by decide, by decide, by decide⟩, _, rfl, rfl, by decide⟩, rfl⟩
  · exact ⟨callSwitch_possible hinv (by decide) (by decide) (by decide), rfl⟩
  · exact ⟨⟨by decide, by decide, by decide, by decide, by decide, by decide⟩, rfl⟩
  · exact ⟨⟨by decide, by decide, _, _, rfl, rfl, by decide⟩, rfl⟩
  · exact ⟨show (_ : ℕ) ≤ _ by decide, rfl⟩
  · exact ⟨callSwitch_possible hinv (by decide) (by decide) (by decide), rfl⟩
  · exact ⟨⟨by decide, by decide, by decide, by decide, by decide, by decide⟩, rfl⟩
  · exact ⟨moveTo_possible (by decide) (by decide) (by decide), rfl⟩
  · exact ⟨⟨by decide, by decide, _, _, rfl, rfl, by decide⟩, rfl⟩

theorem exampleState_reaches {n : ℕ} (hn : n ≤ 16) :
    Reaches exampleImage exampleBoot (exampleState n) := by
  induction n with
  | zero => exact .refl exampleBoot
  | succ n ih =>
      have hrun := ih (by omega)
      exact hrun.tail (exampleState_step n (by omega) (hrun.inv exampleBoot_initial))

theorem exampleState_next {n : ℕ} (hn : n < 16) :
    Step exampleImage (exampleState n) (exampleActs.getD n (fun _ => .leave) (exampleState n))
      (exampleState (n + 1)) :=
  exampleState_step n hn ((exampleState_reaches (Nat.le_of_lt hn)).inv exampleBoot_initial)

/-! ## Interrupts and system calls -/

/-- The stack of `t` is what it was in the state `u`, in which the kernel was entered. -/
def StackKept (u : State) (t : ℕ) (s : State) : Prop :=
  s.frames t = u.frames t ∧ ∀ a, kernelEsp u.cpu u.esp0 ≤ a → a < t + PAGE_SIZE → s.mem a = u.mem a

/-- What lies above a frame on the stack has not changed since the frame was built. -/
theorem Inv.stackKept (h : Inv s) (hlive : s.live t = true) (hfs : s.frames t = f :: fs)
    (hentered : Entered u t f fs) (hframes : s'.frames t = fs)
    (hmem : ∀ a, f.limit ≤ a → s'.mem a = s.mem a) : StackKept u t s' := by
  have hstacked := h.stacked t hlive
  rw [hfs] at hstacked
  obtain ⟨-, -, hstack, -, -⟩ := hstacked
  have hsize := f.base_lt
  refine ⟨hframes.trans hentered.frames.symm, fun a ha hlt => ?_⟩
  rw [← hentered.limit] at ha
  rw [hmem a ha, hstack a (by omega) hlt, hentered.stack a ha]

theorem State.after_frames (s : State) (m : Machine) (fs : List Frame) :
    (s.after m fs).frames s.running = fs := Function.update_self _ _ _

/-- The frame on top lies in the page of the running task. -/
theorem Inv.frame_le (h : Inv s) (hfs : s.frames s.running = f :: fs) :
    s.running + TASK_SIZE ≤ f.base ∧ f.limit ≤ s.running + PAGE_SIZE := by
  have hstacked := h.stacked _ h.running
  rw [hfs] at hstacked
  obtain ⟨hlow, -, -, -, hrest⟩ := hstacked
  have hle := hrest.le_lowest
  have htop := hrest.lowest_le
  exact ⟨hlow, by omega⟩

/-- When the handler of an interrupt returns, the processor is as it was when the interrupt came,
and so is the stack of the task: or the task is a child that leaves the kernel for the first time,
with the processor of its parent at the system call, and 0 as its result. -/
theorem leave_resumes (hinit : Initial s₀) (hrun : Reaches img s₀ s)
    (hstep : Step img s .leave s') :
    (∃ u vector error u', Between img s₀ s (.interrupt vector error) u u' ∧
      u.running = s.running ∧ s'.cpu = u.cpu ∧ StackKept u s.running s') ∨
    ∃ p back p' u u', Between img s₀ u (.syscall back) p p' ∧ p.running = u.running ∧
      Between img s₀ s (.fork s.running) u u' ∧ s'.cpu = { p.cpu with eax := 0 } := by
  have hinv := hrun.inv hinit
  obtain ⟨⟨hcpu, -, f, fs, hfs, hkind, hesp⟩, hnext⟩ := hstep
  have horigin := hrun.traced hinit s.running
  rw [hfs] at horigin
  obtain rfl := Except.ok.inj hnext
  have hexit := hinv.leave_eq hfs hesp hcpu
  rw [hexit]
  cases horigin.1 with
  | interrupt _ hbetween hentered =>
      refine .inl ⟨_, _, _, _, hbetween, hentered.running, hentered.cpu, ?_⟩
      refine hinv.stackKept hinv.running hfs hentered ?_ fun _ _ => rfl
      rw [State.after_frames, hfs]
      rfl
  | fork _ hcall hparent hbetween hcpu =>
      exact .inr ⟨_, _, _, _, _, hcall, hparent, hbetween, hcpu⟩
  | syscall hk => exact absurd (hk.symm.trans hkind) (by simp)
  | user hk => exact absurd (hk.symm.trans hkind) (by simp)
  | switch hf => rw [hf] at hkind; cases hkind
  | create hk => exact absurd (hk.symm.trans hkind) (by simp)
  | forked hk => exact absurd (hk.symm.trans hkind) (by simp)

theorem leave_resumes_child :
    (∃ u vector error u',
      Between exampleImage exampleBoot (exampleState 10) (.interrupt vector error) u u' ∧
        u.running = (exampleState 10).running ∧ (exampleState 11).cpu = u.cpu ∧
        StackKept u (exampleState 10).running (exampleState 11)) ∨
    ∃ p back p' u u', Between exampleImage exampleBoot u (.syscall back) p p' ∧
      p.running = u.running ∧
      Between exampleImage exampleBoot (exampleState 10) (.fork (exampleState 10).running) u u' ∧
      (exampleState 11).cpu = { p.cpu with eax := 0 } :=
  leave_resumes exampleBoot_initial (exampleState_reaches (by decide))
    (exampleState_next (by decide))

/-- A system call gets its number and its arguments from the registers, and when it returns, all
the registers but `eax`, which is its result, and the stack are as they were. -/
theorem syscall_returns (hinit : Initial s₀) (hrun : Reaches img s₀ s)
    (hstep : Step img s .syscallLeave s') :
    ∃ u back u', Between img s₀ s (.syscall back) u u' ∧ u.running = s.running ∧
      (u.cpu.eax < SYSCALL_SIZE ∧ u'.cpu.eip = img.syscallTable u.cpu.eax ∧
        Holds u'.mem u'.cpu.esp [img.syscallBack, u.cpu.ebx, u.cpu.ecx, u.cpu.edx, u.cpu.esi,
          u.cpu.edi, u.cpu.ebp, 0x80]) ∧
      s'.cpu = { u.cpu with eax := s.cpu.eax } ∧ StackKept u s.running s' := by
  have hinv := hrun.inv hinit
  obtain ⟨⟨hcpu, -, f, fs, hfs, hkind, hesp⟩, hnext⟩ := hstep
  have horigin := hrun.traced hinit s.running
  rw [hfs] at horigin
  obtain rfl := Except.ok.inj hnext
  have hexit := hinv.syscallLeave_eq hfs hesp hcpu
  rw [hexit]
  obtain ⟨u, back, u', hbetween, hentered⟩ := horigin.1.of_syscall hkind
  have huinv := hbetween.before.inv hinit
  obtain ⟨m, hcall, rfl⟩ := next_syscall hbetween.step.2
  obtain ⟨hlow, hhigh⟩ := huinv.room hbetween.step.1
  obtain ⟨hnr, -, heip, hargs⟩ := syscall_entry (m := u.machine) hlow hhigh hcall
  refine ⟨u, back, _, hbetween, hentered.running, ⟨hnr, heip, hargs⟩, ?_, ?_⟩
  · rw [← hentered.cpu]
    rfl
  · refine hinv.stackKept hinv.running hfs hentered ?_ fun a ha => ?_
    · rw [State.after_frames, hfs]
      rfl
    · have hsize := f.limit_eq (by rw [hkind]; simp)
      have hfit := le_frameSize f.cpu
      exact Function.update_of_ne (by omega) _ _

theorem syscall_returns_fork :
    ∃ u back u', Between exampleImage exampleBoot (exampleState 15) (.syscall back) u u' ∧
      u.running = (exampleState 15).running ∧
      (u.cpu.eax < SYSCALL_SIZE ∧ u'.cpu.eip = exampleImage.syscallTable u.cpu.eax ∧
        Holds u'.mem u'.cpu.esp [exampleImage.syscallBack, u.cpu.ebx, u.cpu.ecx, u.cpu.edx,
          u.cpu.esi, u.cpu.edi, u.cpu.ebp, 0x80]) ∧
      (exampleState 16).cpu = { u.cpu with eax := (exampleState 15).cpu.eax } ∧
      StackKept u (exampleState 15).running (exampleState 16) :=
  syscall_returns exampleBoot_initial (exampleState_reaches (by decide))
    (exampleState_next (by decide))

/-- A program starts at its entry with the stack that `execve` has built, and with all the other
registers of the code that has called `execve`. The kernel stack is empty, and `tss` leads to its
end. -/
theorem execve_enters {entry top : ℕ} (hinit : Initial s₀) (hrun : Reaches img s₀ s)
    (hstep : Step img s (.execve entry top) s') :
    ((∃ u back u', Between img s₀ s (.syscall back) u u' ∧ u.running = s.running ∧
        s'.cpu = { u.cpu with edx := 0, eip := entry, esp := top }) ∨
      ∃ u u', Between img s₀ s .toUserMode u u' ∧ u.running = s.running ∧
        s'.cpu = { userCpu with edx := 0, eip := entry, esp := top }) ∧
    s'.cpu.User ∧ s'.frames s'.running = [] ∧ s'.esp0 = s'.running + PAGE_SIZE := by
  have hinv := hrun.inv hinit
  have hinv' := hstep.inv hinv
  obtain ⟨⟨hcpu, f, hfs, hkind, huser⟩, hnext⟩ := hstep
  have horigin := hrun.traced hinit s.running
  rw [hfs] at horigin
  obtain ⟨mem, hexit, -⟩ := hinv.execve_eq entry top hfs huser
  obtain rfl := Except.ok.inj hnext
  rw [hexit] at hinv' ⊢
  refine ⟨?_, huser, hinv'.user huser |>.1, hinv'.esp0 (hinv'.user huser).2⟩
  cases horigin.1 with
  | syscall _ hbetween hentered =>
      refine .inl ⟨_, _, _, hbetween, hentered.running, ?_⟩
      rw [← hentered.cpu]
      rfl
  | user _ hbetween hrunning hf =>
      refine .inr ⟨_, _, hbetween, hrunning, ?_⟩
      rw [← hf]
      rfl
  | interrupt hk => simp [hk] at hkind
  | switch hf => simp [hf, switchFrame] at hkind
  | create hk => simp [hk] at hkind
  | fork hk => simp [hk] at hkind

theorem execve_enters_init :
    ((∃ u back u', Between exampleImage exampleBoot (exampleState 5) (.syscall back) u u' ∧
        u.running = (exampleState 5).running ∧ (exampleState 6).cpu =
          { u.cpu with edx := 0, eip := 0x8048000, esp := 0xFFFFF00 }) ∨
      ∃ u u', Between exampleImage exampleBoot (exampleState 5) .toUserMode u u' ∧
        u.running = (exampleState 5).running ∧ (exampleState 6).cpu =
          { userCpu with edx := 0, eip := 0x8048000, esp := 0xFFFFF00 }) ∧
    (exampleState 6).cpu.User ∧ (exampleState 6).frames (exampleState 6).running = [] ∧
      (exampleState 6).esp0 = (exampleState 6).running + PAGE_SIZE :=
  execve_enters exampleBoot_initial (exampleState_reaches (by decide))
    (exampleState_next (by decide))

/-! ## The switch -/

/-- The processor that `task_switch` has for its caller, and its stack. -/
structure Continues (u : State) (t : ℕ) (s : State) : Prop where
  resumed : Resumed { u.cpu with esp := u.cpu.esp + 4, eip := u.mem u.cpu.esp } s.cpu
  frames : s.frames t = u.frames t
  stack : ∀ a, u.cpu.esp ≤ a → a < t + PAGE_SIZE → s.mem a = u.mem a

/-- `task_switch` leaves the stack above it alone. -/
theorem Act.Possible.switchFrame_stack {other : ℕ} (h : (Act.switch other).Possible img u)
    (hinv : Inv u) {a : ℕ} (ha : u.cpu.esp ≤ a) : (switchFrame u).stack a = u.mem a := by
  obtain ⟨-, hlive, hne, harg, hlow, hhigh⟩ := h
  obtain ⟨g, gs, hgs, -⟩ := hinv.suspended other hlive hne
  have hswitched := hinv.switched hlive hne harg hlow hhigh hgs
  change (exec taskSwitch u.machine).mem a = _
  rw [hswitched.mem, hswitched.kept a (by omega) (.inr ha)]

/-- `task_switch` comes back to where the next task has called it, with the registers and the
stack of then. A new task begins at its entry, and a child at the way out of the system call that
its parent has made. -/
theorem switch_resumes (hinit : Initial s₀) (hrun : Reaches img s₀ s)
    (hstep : Step img s (.switch next) s') :
    (∃ u other u', Between img s₀ s (.switch other) u u' ∧ u.running = next ∧
      Continues u next s') ∨
    (∃ u target uid u', Between img s₀ s (.create next target uid) u u' ∧
      s'.cpu.eip = target ∧ s'.cpu.esp = next + PAGE_SIZE) ∨
    ∃ p back p' u u', Between img s₀ u (.syscall back) p p' ∧ p.running = u.running ∧
      Between img s₀ s (.fork next) u u' ∧
      exec interruptExit s'.machine = ⟨{ p.cpu with eax := 0 }, s'.mem⟩ := by
  have hinv := hrun.inv hinit
  have hinv' := hstep.inv hinv
  obtain ⟨⟨hcpu, hlive, hne, harg, hlow, hhigh⟩, hnext⟩ := hstep
  obtain ⟨g, gs, hgs, hkind, -, -⟩ := hinv.suspended next hlive hne
  have hswitched := hinv.switched hlive hne harg hlow hhigh hgs
  have htraced := hrun.traced hinit next
  rw [hgs] at htraced
  obtain ⟨horigin, hrest⟩ := htraced
  have hstacked := hinv.stacked next hlive
  rw [hgs] at hstacked
  obtain ⟨hglow, -, hgstack, -, -⟩ := hstacked
  have hapart := hinv.apart hlive hinv.running hne
  have htop := hinv.floor_le _ hinv.running
  have hmem : ∀ a, g.base ≤ a → a < next + PAGE_SIZE → (s.switchTo next).mem a = g.stack a := by
    intro a ha hlt
    change (exec taskSwitch s.machine).mem a = _
    unfold TASK_SIZE at hlow hglow
    rw [hswitched.mem, hswitched.kept a (by omega) (by omega), hgstack a ha hlt]
  have hframes : (s.switchTo next).frames next = gs := by
    change Function.update (Function.update s.frames s.running _) next (s.frames next).tail next = _
    rw [Function.update_self, hgs]
    rfl
  obtain rfl : s.switchTo next = s' := Except.ok.inj hnext
  cases horigin with
  | interrupt hk => exact absurd (hk.symm.trans hkind) (by simp)
  | syscall hk => exact absurd (hk.symm.trans hkind) (by simp)
  | user hk => exact absurd (hk.symm.trans hkind) (by simp)
  | fork hk => exact absurd (hk.symm.trans hkind) (by simp)
  | switch hf hbetween hrunning hufs =>
      rename_i u u' other
      refine .inl ⟨u, other, u', hbetween, hrunning, ?_, hframes.trans hufs.symm, ?_⟩
      · have hresumed := hswitched.resumed
        rw [hf] at hresumed
        exact hresumed
      · intro a ha hlt
        have hbase : g.base = u.cpu.esp - 16 := by rw [hf]; rfl
        rw [hmem a (by omega) hlt, hf]
        exact hbetween.step.1.switchFrame_stack (hbetween.before.inv hinit) ha
  | create hk hbetween hcreate =>
      refine .inr (.inl ⟨_, _, _, _, hbetween, ?_, ?_⟩)
      · have heip := hswitched.resumed.eip
        rw [hcreate] at heip
        exact heip
      · have hesp := hswitched.resumed.esp
        rw [hcreate] at hesp
        exact hesp
  | forked hk hcall hparent hbetween hfork hbase hg =>
      refine .inr (.inr ⟨_, _, _, _, _, hcall, hparent, hbetween, ?_⟩)
      have hesp := hswitched.resumed.esp
      rw [hfork] at hesp
      rw [← hg]
      refine hinv'.leave_eq hframes (hesp.trans hbase.symm) fun huser => ?_
      have hnil : (s.switchTo next).frames next = [] := (hinv'.user huser).1
      rw [hframes] at hnil
      cases hnil

theorem switch_resumes_parent :
    (∃ u other u', Between exampleImage exampleBoot (exampleState 13) (.switch other) u u' ∧
      u.running = 0x20000 ∧ Continues u 0x20000 (exampleState 14)) ∨
    (∃ u target uid u',
      Between exampleImage exampleBoot (exampleState 13) (.create 0x20000 target uid) u u' ∧
        (exampleState 14).cpu.eip = target ∧ (exampleState 14).cpu.esp = 0x20000 + PAGE_SIZE) ∨
    ∃ p back p' u u', Between exampleImage exampleBoot u (.syscall back) p p' ∧
      p.running = u.running ∧
      Between exampleImage exampleBoot (exampleState 13) (.fork 0x20000) u u' ∧
      exec interruptExit (exampleState 14).machine =
        ⟨{ p.cpu with eax := 0 }, (exampleState 14).mem⟩ :=
  switch_resumes exampleBoot_initial (exampleState_reaches (by decide))
    (exampleState_next (by decide))

/-! ## What the assembly writes -/

/-- The steps that are not C code. -/
def Act.Assembly : Act → Prop
  | .interrupt _ _ | .syscall _ | .leave | .syscallLeave | .switch _ | .execve _ _ => True
  | _ => False

theorem Entry.outside {m m' : Machine} {esp0 lo n b : ℕ} (h : Entry m m' esp0 (m'.cpu.esp + n))
    (hroom : lo + (80 + n) ≤ kernelEsp m.cpu esp0) (hout : b < lo ∨ kernelEsp m.cpu esp0 ≤ b) :
    m'.mem b = m.mem b := by
  have hlimit := h.limit
  have hsize := frameSize_le m.cpu
  rcases hout with hout | hout
  · exact h.below b (by omega)
  · exact h.above b hout

/-- The code that enters and leaves the kernel, and the one that switches tasks, write to the
stack of the running task and to its field `stack`, and to no other address: not to the rest of
its `task_t`, and not to another task. -/
theorem assembly_confined (hinit : Initial s₀) (hrun : Reaches img s₀ s) (hstep : Step img s a s')
    (ha : a.Assembly) {b : ℕ} (hb : b ≠ s.running)
    (hout : b < s.running + TASK_SIZE ∨ s.running + PAGE_SIZE ≤ b) : s'.mem b = s.mem b := by
  have hinv := hrun.inv hinit
  have hfloor := hinv.kernelEsp_le
  have htop := hinv.floor_le _ hinv.running
  obtain ⟨hpossible, hnext⟩ := hstep
  cases a with
  | interrupt vector error =>
      obtain rfl := Except.ok.inj hnext
      obtain ⟨hlow, hhigh⟩ := hinv.room hpossible
      have hentry := (interrupt_entry img s.machine s.esp0 vector error hlow hhigh).1
      exact hentry.outside hpossible (by change _ ∨ kernelEsp s.cpu s.esp0 ≤ b; omega)
  | syscall back =>
      obtain ⟨m, hcall, rfl⟩ := next_syscall hnext
      obtain ⟨hlow, hhigh⟩ := hinv.room hpossible
      obtain ⟨-, hentry, -, -⟩ := syscall_entry hlow hhigh hcall
      exact hentry.outside hpossible (by change _ ∨ kernelEsp s.cpu s.esp0 ≤ b; omega)
  | leave =>
      obtain rfl := Except.ok.inj hnext
      obtain ⟨hcpu, -, f, fs, hfs, -, hesp⟩ := hpossible
      rw [hinv.leave_eq hfs hesp hcpu]
      rfl
  | syscallLeave =>
      obtain rfl := Except.ok.inj hnext
      obtain ⟨hcpu, -, f, fs, hfs, hkind, hesp⟩ := hpossible
      obtain ⟨hbase, hlimit⟩ := hinv.frame_le hfs
      have hsize := f.limit_eq (by rw [hkind]; simp)
      have hfit := le_frameSize f.cpu
      rw [hinv.syscallLeave_eq hfs hesp hcpu]
      exact Function.update_of_ne (by omega) _ _
  | switch next =>
      obtain rfl := Except.ok.inj hnext
      obtain ⟨hcpu, hlive, hne, harg, hlow, hhigh⟩ := hpossible
      obtain ⟨g, gs, hgs, -⟩ := hinv.suspended next hlive hne
      have hswitched := hinv.switched hlive hne harg hlow hhigh hgs
      change (exec taskSwitch s.machine).mem b = _
      rw [hswitched.mem]
      exact hswitched.kept b hb (by omega)
  | execve entry top =>
      obtain rfl := Except.ok.inj hnext
      obtain ⟨hcpu, f, hfs, -, huser⟩ := hpossible
      obtain ⟨hbase, hlimit⟩ := hinv.frame_le hfs
      obtain ⟨mem, hexit, hmem⟩ := hinv.execve_eq entry top hfs huser
      rw [hexit]
      exact hmem b (by omega)
  | work cpu mem => exact ha.elim
  | create task target uid => exact ha.elim
  | fork child => exact ha.elim
  | reap task => exact ha.elim
  | toUserMode => exact ha.elim

theorem assembly_confined_switch : (exampleState 14).mem 0x20000 = (exampleState 13).mem 0x20000 :=
  assembly_confined exampleBoot_initial (exampleState_reaches (by decide))
    (exampleState_next (show 13 < 16 by decide)) trivial (by decide) (by decide)

end Ylos.Switch
