import Ylos.Verification.Switch.Steps

/-! # Steps from task to task -/

namespace Ylos.Switch

open Words

variable {img : Image} {s s' : State} {f g : Frame} {fs gs : List Frame}
  {mem : ℕ → ℕ} {task child next : ℕ}

/-- A task that is not yet one has its page apart from all the others. -/
theorem State.Free.apart (h : Inv s) (hfree : s.Free child) {t : ℕ} (ht : s.live t = true) :
    t ≠ child ∧ (t + PAGE_SIZE ≤ child ∨ child + PAGE_SIZE ≤ t) := by
  obtain ⟨hlive, hmod, -⟩ := hfree
  have hne : t ≠ child := by
    intro heq
    rw [heq, hlive] at ht
    cases ht
  have hmod' := h.aligned t ht
  unfold PAGE_SIZE at *
  omega

/-- The state once `child` is a task with the stack `fs`. -/
def State.spawn (s : State) (child : ℕ) (fs : List Frame) (mem : ℕ → ℕ) : State :=
  { s.setFrames child fs with mem := mem, live := Function.update s.live child true }

theorem Inv.spawn (h : Inv s) (hfree : s.Free child)
    (hmem : ∀ a, a < child ∨ child + PAGE_SIZE ≤ a → mem a = s.mem a)
    (hstack : Stacked mem (child + PAGE_SIZE) (child + TASK_SIZE) (f :: fs))
    (hkind : f.kind = .switch) (hbase : f.base = mem child) (hrest : ∀ g ∈ fs, g.kind ≠ .switch)
    (husers : ∀ g ∈ fs, g.cpu.User → mem (child + UID) ≠ KERNEL_USER) :
    Inv (s.spawn child (f :: fs) mem) := by
  have hsmall : UID < PAGE_SIZE := by decide
  have hpos : 0 < PAGE_SIZE := by decide
  have hlive : ∀ t, (s.spawn child (f :: fs) mem).live t = true → t = child ∨
      s.live t = true ∧ t ≠ child ∧ (t + PAGE_SIZE ≤ child ∨ child + PAGE_SIZE ≤ t) := by
    intro t ht
    by_cases heq : t = child
    · exact .inl heq
    · change Function.update s.live child true t = true at ht
      rw [Function.update_of_ne heq] at ht
      exact .inr ⟨ht, hfree.apart h ht⟩
  have hnew : (s.spawn child (f :: fs) mem).frames child = f :: fs := Function.update_self _ _ _
  have hold : ∀ t, t ≠ child → (s.spawn child (f :: fs) mem).frames t = s.frames t := fun t hne =>
    Function.update_of_ne hne _ _
  obtain ⟨hne, hapart⟩ := hfree.apart h h.running
  have hrunning : (s.spawn child (f :: fs) mem).frames s.running = s.frames s.running := hold _ hne
  have huid : ∀ t, t + PAGE_SIZE ≤ child ∨ child + PAGE_SIZE ≤ t →
      mem (t + UID) = s.mem (t + UID) := fun t ht => hmem _ (by omega)
  refine ⟨?_, ?_, ?_, ?_, ?_, ?_, ?_, ?_, ?_, ?_⟩
  · change Function.update s.live child true s.running = true
    rw [Function.update_of_ne hne]
    exact h.running
  · intro t ht
    rcases hlive t ht with rfl | ⟨ht, -, -⟩
    · exact hfree.2.1
    · exact h.aligned t ht
  · intro t ht
    rcases hlive t ht with rfl | ⟨ht, -, -⟩
    · exact hfree.2.2
    · exact h.below t ht
  · intro t ht
    rcases hlive t ht with rfl | ⟨ht, hne, hapart⟩
    · rw [hnew]
      exact hstack
    · rw [hold t hne]
      have hlow := h.le_floor t ht
      exact (h.stacked t ht).congr fun a ha hlt => hmem a (by rw [s.floor_eq] at hlow; omega)
  · intro t ht hne
    rcases hlive t ht with rfl | ⟨ht, hne', hapart⟩
    · exact ⟨f, fs, hnew, hkind, hbase, hrest⟩
    · obtain ⟨g, gs, hgs, hgkind, hgbase, hgrest⟩ := h.suspended t ht hne
      have hsaved : mem t = s.mem t := hmem t (by omega)
      exact ⟨g, gs, (hold t hne').trans hgs, hgkind, hgbase.trans hsaved.symm, hgrest⟩
  · change ∀ g ∈ (s.spawn child (f :: fs) mem).frames s.running, _
    rw [hrunning]
    exact h.serving
  · intro t ht g hg hgkind huser
    change mem (t + UID) ≠ _
    rcases hlive t ht with rfl | ⟨ht, hne, hapart⟩
    · rw [hnew] at hg
      rcases List.mem_cons.mp hg with rfl | hg
      · exact absurd hkind hgkind
      · exact husers g hg huser
    · rw [hold t hne] at hg
      rw [huid t hapart]
      exact h.users t ht g hg hgkind huser
  · intro hne
    change mem (s.running + UID) ≠ _ at hne
    rw [huid _ hapart] at hne
    exact h.esp0 hne
  · intro huser
    change (s.spawn child (f :: fs) mem).frames s.running = [] ∧ mem (s.running + UID) ≠ _
    rw [hrunning, huid _ hapart]
    exact h.user huser
  · intro huser
    rw [State.floor_eq]
    change _ ∧ _ ∧ _ ∧ _ ≤ lowest _ ((s.spawn child (f :: fs) mem).frames s.running)
    rw [hrunning]
    exact h.kernel huser

/-! ## `task_create` -/

/-- What a new task starts with. -/
def createCpu (c : Cpu) (task target : ℕ) : Cpu :=
  { c with
    edi := 0x33333333, esi := 0x22222222, ebx := 0x11111111, ebp := 0x44444444,
    esp := task + PAGE_SIZE, eip := target }

theorem taskCreate_apply {target uid a : ℕ} (h : a < task ∨ task + PAGE_SIZE ≤ a) :
    taskCreate mem task target uid a = mem a := by
  have huid : UID < PAGE_SIZE := by decide
  have hframe : TASK_FRAME_SIZE ≤ PAGE_SIZE := by decide
  have hwords : TASK_FRAME_SIZE = 20 := rfl
  unfold taskCreate
  rw [Function.update_of_ne (by omega), Function.update_of_ne (by omega),
    stored_apply_of_lt (by simp; omega), if_neg (by omega)]

theorem taskCreate_frame {target uid : ℕ} {c : Cpu} :
    Holds (taskCreate mem task target uid) (task + PAGE_SIZE - TASK_FRAME_SIZE)
      (taskFrame (createCpu c task target)) := by
  have hroom : UID + TASK_FRAME_SIZE < PAGE_SIZE := by decide
  refine (holds_stored (m := fun a => if task ≤ a ∧ a < task + PAGE_SIZE then 0 else mem a)).congr
    fun a ha _ => ?_
  have huid : a ≠ task + UID := by omega
  have hstack : a ≠ task := by omega
  unfold taskCreate
  rw [Function.update_of_ne huid, Function.update_of_ne hstack]
  rfl

theorem taskCreate_stack {target uid : ℕ} :
    taskCreate mem task target uid task = task + PAGE_SIZE - TASK_FRAME_SIZE := by
  have huid : 0 < UID := by decide
  unfold taskCreate
  rw [Function.update_of_ne (by omega), Function.update_self]

theorem Inv.create (h : Inv s) (hfree : s.Free task) (target uid : ℕ) :
    let mem := taskCreate s.mem task target uid
    Inv (s.spawn task
      [⟨.switch, task + PAGE_SIZE - TASK_FRAME_SIZE, createCpu s.cpu task target, mem⟩] mem) := by
  intro mem
  have hsize : TASK_SIZE + TASK_FRAME_SIZE ≤ PAGE_SIZE := by decide
  have hlimit : task + PAGE_SIZE - TASK_FRAME_SIZE + TASK_FRAME_SIZE = task + PAGE_SIZE := by omega
  refine h.spawn hfree (fun a ha => taskCreate_apply ha) ⟨?_, ⟨taskCreate_frame, ?_⟩, ?_, ?_, ?_⟩
    rfl taskCreate_stack.symm ?_ ?_
  · change _ ≤ task + PAGE_SIZE - TASK_FRAME_SIZE
    omega
  · exact hlimit.symm
  · exact fun _ _ _ => rfl
  · exact fun hkind => absurd rfl hkind
  · exact hlimit.le
  · exact fun _ hg => absurd hg List.not_mem_nil
  · exact fun _ hg => absurd hg List.not_mem_nil

/-! ## `task_fork` -/

/-- What the child starts with. -/
def forkCpu (img : Image) (c : Cpu) (child : ℕ) : Cpu :=
  { c with
    edi := 0xaa55aa55, esi := 0xaa55aa55, ebx := 0xaa55aa55, ebp := 0xaa55aa55,
    esp := child + PAGE_SIZE - INTR_FRAME_SIZE, eip := img.interruptExit }

theorem taskFork_apply {task a : ℕ} (h : a < child ∨ child + PAGE_SIZE ≤ a) :
    taskFork img mem task child a = mem a := by
  have hroom : INTR_FRAME_SIZE + TASK_FRAME_SIZE ≤ PAGE_SIZE := by decide
  have hslot : 32 < INTR_FRAME_SIZE := by decide
  have hwords : TASK_FRAME_SIZE = 20 := rfl
  unfold taskFork taskBuildStack
  rw [Function.update_of_ne (by omega), stored_apply_of_lt (by simp; omega),
    Function.update_of_ne (by omega), if_neg (by omega)]

/-- The page of the child below its frames is that of its parent. -/
theorem taskFork_copy {task i : ℕ} (hpos : i ≠ 0)
    (hi : i < PAGE_SIZE - INTR_FRAME_SIZE - TASK_FRAME_SIZE) :
    taskFork img mem task child (child + i) = mem (task + i) := by
  have hroom : INTR_FRAME_SIZE + TASK_FRAME_SIZE ≤ PAGE_SIZE := by decide
  have hback : child + i - child = i := by omega
  unfold taskFork taskBuildStack
  rw [Function.update_of_ne (by omega), stored_apply_of_lt (by simp; omega),
    Function.update_of_ne (by omega), if_pos (by omega), hback]

theorem taskFork_stack {task : ℕ} : taskFork img mem task child child =
    child + PAGE_SIZE - INTR_FRAME_SIZE - TASK_FRAME_SIZE := Function.update_self _ _ _

theorem taskBuildStack_frame {c : Cpu} :
    Holds (taskBuildStack img mem child) (child + PAGE_SIZE - INTR_FRAME_SIZE - TASK_FRAME_SIZE)
      (taskFrame (forkCpu img c child)) := by
  have hroom : INTR_FRAME_SIZE + TASK_FRAME_SIZE < PAGE_SIZE := by decide
  refine Holds.congr (holds_stored (m := Function.update mem
    (child + PAGE_SIZE - INTR_FRAME_SIZE + 32) 0)) fun a ha _ => ?_
  exact Function.update_of_ne (by omega) _ _

/-- The interrupt frame of the child is that of its parent, with the result 0. -/
theorem taskFork_intrFrame {task v d v₀ e : ℕ} {c : Cpu} (huser : c.User)
    (h : Holds mem (task + PAGE_SIZE - INTR_FRAME_SIZE) (intrFrame c v d v₀ e)) :
    Holds (taskFork img mem task child) (child + PAGE_SIZE - INTR_FRAME_SIZE)
      (intrFrame { c with eax := 0 } v d v₀ e) := by
  have hroom : INTR_FRAME_SIZE + TASK_FRAME_SIZE < PAGE_SIZE := by decide
  have hwords : TASK_FRAME_SIZE = 20 := rfl
  have hlen := length_intrFrame c v d v₀ e
  unfold frameSize at hlen
  rw [if_pos huser] at hlen
  generalize hmem₁ : (fun a => if child ≤ a ∧ a < child + PAGE_SIZE then mem (task + (a - child))
    else mem a) = mem₁
  have hcopy : Holds mem₁ (child + PAGE_SIZE - INTR_FRAME_SIZE) (intrFrame c v d v₀ e) := by
    refine h.copy fun i hi => ?_
    have hback : child + PAGE_SIZE - INTR_FRAME_SIZE + i - child =
        PAGE_SIZE - INTR_FRAME_SIZE + i := by omega
    have hparent : task + PAGE_SIZE - INTR_FRAME_SIZE + i =
        task + (PAGE_SIZE - INTR_FRAME_SIZE + i) := by omega
    rw [← hmem₁, hparent]
    dsimp only
    rw [if_pos (by omega), hback]
  have hset := hcopy.set 0 8
  have hzero : (intrFrame c v d v₀ e).set 8 0 = intrFrame { c with eax := 0 } v d v₀ e := by
    have huser' : ({ c with eax := 0 } : Cpu).User := huser
    unfold intrFrame
    rw [if_pos huser, if_pos huser']
    rfl
  rw [hzero] at hset
  unfold taskFork taskBuildStack
  rw [hmem₁]
  refine hset.congr fun a ha _ => ?_
  rw [Function.update_of_ne (by omega), stored_apply_of_lt (by simp; omega)]

theorem Inv.fork (h : Inv s) (hfree : s.Free child) (hfs : s.frames s.running = [f])
    (hkind : f.kind = .syscall) (huser : f.cpu.User) :
    let mem := taskFork img s.mem s.running child
    let iframe := child + PAGE_SIZE - INTR_FRAME_SIZE
    Inv (s.spawn child
      [⟨.switch, iframe - TASK_FRAME_SIZE, forkCpu img s.cpu child, mem⟩,
        ⟨.interrupt, iframe, { f.cpu with eax := 0 }, mem⟩] mem) := by
  intro mem iframe
  have hroom : TASK_SIZE + INTR_FRAME_SIZE + TASK_FRAME_SIZE ≤ PAGE_SIZE := by decide
  obtain ⟨⟨v, d, v₀, e, hholds⟩, -, -⟩ := h.holds hfs
  rw [h.base_of_user hfs huser] at hholds
  have huser' : ({ f.cpu with eax := 0 } : Cpu).User := huser
  have hlimit : iframe - TASK_FRAME_SIZE + TASK_FRAME_SIZE = iframe := by
    change child + PAGE_SIZE - INTR_FRAME_SIZE - TASK_FRAME_SIZE + TASK_FRAME_SIZE =
      child + PAGE_SIZE - INTR_FRAME_SIZE
    omega
  have hlimit' : (⟨.interrupt, iframe, { f.cpu with eax := 0 }, mem⟩ : Frame).limit =
      child + PAGE_SIZE := by
    rw [Frame.limit_eq (by simp)]
    unfold frameSize
    rw [if_pos huser']
    change child + PAGE_SIZE - INTR_FRAME_SIZE + INTR_FRAME_SIZE = _
    omega
  have huid : mem (child + UID) = s.mem (s.running + UID) :=
    taskFork_copy (by decide) (by decide)
  have hparent := h.users _ h.running f (by rw [hfs]; exact List.mem_cons_self)
    (by rw [hkind]; simp) huser
  refine h.spawn hfree (fun a ha => taskFork_apply ha)
    ⟨?_, ⟨taskBuildStack_frame, hlimit.symm⟩, fun _ _ _ => rfl, fun hk => absurd rfl hk,
      hlimit.le, ⟨⟨_, _, _, _, taskFork_intrFrame huser hholds⟩, fun hk => absurd huser' hk⟩,
      fun _ _ _ => rfl, fun _ _ => hlimit', hlimit'.le⟩ rfl taskFork_stack.symm ?_ ?_
  · change _ ≤ child + PAGE_SIZE - INTR_FRAME_SIZE - TASK_FRAME_SIZE
    omega
  · intro g hg
    rw [List.mem_singleton.mp hg]
    simp
  · intro _ _ _
    rw [huid]
    exact hparent

/-! ## The end of a task -/

theorem Inv.reap (h : Inv s) (hne : task ≠ s.running) :
    Inv { s.setFrames task [] with live := Function.update s.live task false } := by
  have hlive : ∀ t, Function.update s.live task false t = true → t ≠ task ∧ s.live t = true := by
    intro t ht
    by_cases heq : t = task
    · rw [heq, Function.update_self] at ht
      cases ht
    · rw [Function.update_of_ne heq] at ht
      exact ⟨heq, ht⟩
  have hframes : ∀ t, t ≠ task → (s.setFrames task []).frames t = s.frames t := fun t hne =>
    Function.update_of_ne hne _ _
  have hrunning := hframes s.running (Ne.symm hne)
  refine ⟨?_, fun t ht => h.aligned t (hlive t ht).2, fun t ht => h.below t (hlive t ht).2,
    ?_, ?_, ?_, ?_, h.esp0, ?_, ?_⟩
  · change Function.update s.live task false s.running = true
    rw [Function.update_of_ne (Ne.symm hne)]
    exact h.running
  · intro t ht
    obtain ⟨hne', ht⟩ := hlive t ht
    rw [hframes t hne']
    exact h.stacked t ht
  · intro t ht hrun
    obtain ⟨hne', ht⟩ := hlive t ht
    rw [hframes t hne']
    exact h.suspended t ht hrun
  · change ∀ g ∈ (s.setFrames task []).frames s.running, _
    rw [hrunning]
    exact h.serving
  · intro t ht g hg
    obtain ⟨hne', ht⟩ := hlive t ht
    rw [hframes t hne'] at hg
    exact h.users t ht g hg
  · intro huser
    change (s.setFrames task []).frames s.running = [] ∧ _
    rw [hrunning]
    exact h.user huser
  · intro huser
    rw [State.floor_eq]
    change _ ∧ _ ∧ _ ∧ _ ≤ lowest _ ((s.setFrames task []).frames s.running)
    rw [hrunning]
    exact h.kernel huser

/-! ## `task_switch` -/

/-- What the switch to `next` does to the machine: the frame of the caller stays on its stack, and
the processor is the one that the frame of `next` brings back. -/
structure Switched (s : State) (next : ℕ) (g : Frame) : Prop where
  mem : (exec taskSwitch s.machine).mem = switchedMem s.machine
  resumed : Resumed g.cpu (exec taskSwitch s.machine).cpu
  cs : (exec taskSwitch s.machine).cpu.cs = s.cpu.cs
  ss : (exec taskSwitch s.machine).cpu.ss = s.cpu.ss
  frame : Holds (switchedMem s.machine) (s.cpu.esp - 16)
    (taskFrame { s.cpu with esp := s.cpu.esp + 4, eip := s.mem s.cpu.esp })
  stack : switchedMem s.machine s.running = s.cpu.esp - 16
  kept : ∀ a, a ≠ s.running → a < s.cpu.esp - 16 ∨ s.cpu.esp ≤ a →
    switchedMem s.machine a = s.mem a

theorem Inv.switched (h : Inv s) (hlive : s.live next = true) (hne : next ≠ s.running)
    (harg : s.mem (s.cpu.esp + 4) = next) (hlow : s.running + TASK_SIZE + 16 ≤ s.cpu.esp)
    (hhigh : s.cpu.esp + 8 ≤ s.floor s.running) (hgs : s.frames next = g :: gs) :
    Switched s next g := by
  have hpos : 0 < TASK_SIZE := by decide
  have hsmall : TASK_SIZE ≤ PAGE_SIZE := by decide
  have htop := h.floor_le _ h.running
  have hbelow := h.below _ h.running
  have hapart := h.apart hlive h.running hne
  obtain ⟨g', gs', hgs', hkind, hbase, -⟩ := h.suspended next hlive hne
  obtain ⟨rfl, rfl⟩ : g' = g ∧ gs' = gs := by
    rw [hgs] at hgs'
    exact ⟨(List.cons.inj hgs').1.symm, (List.cons.inj hgs').2.symm⟩
  have hstacked := h.stacked next hlive
  rw [hgs] at hstacked
  obtain ⟨hglow, hbrings, hgstack, -, hgrest⟩ := hstacked
  have hgle := hgrest.le_lowest
  have hgtop := hgrest.lowest_le
  have hnext := h.below next hlive
  unfold Frame.Brings at hbrings
  rw [hkind] at hbrings
  obtain ⟨hholds, hesp⟩ := hbrings
  have hlimit : g'.limit = g'.base + 20 := by
    unfold Frame.limit
    rw [hkind]
    rfl
  have hpage : (s.cpu.esp - 16) / 4096 * 4096 = s.running := by
    have hmod := h.aligned _ h.running
    unfold PAGE_SIZE at *
    omega
  have hkept : ∀ a, a ≠ s.running → a < s.cpu.esp - 16 ∨ s.cpu.esp ≤ a →
      switchedMem s.machine a = s.mem a := by
    intro a ha hout
    rcases hout with hout | hout
    · exact switchedMem_of_lt hout
        (by change a ≠ (s.cpu.esp - 16) / 4096 * 4096; rw [hpage]; exact ha)
    · exact switchedMem_of_le (m := s.machine) (by change 16 ≤ s.cpu.esp; omega)
        (by change (s.cpu.esp - 16) / 4096 * 4096 < s.cpu.esp - 16; omega) hout
  have hbelow' : (s.machine.cpu.esp - 16) / 4096 * 4096 < s.machine.cpu.esp - 16 := by
    change (s.cpu.esp - 16) / 4096 * 4096 < s.cpu.esp - 16
    omega
  have hsp : switchedMem s.machine next = g'.base := by
    rw [hkept next hne (by omega), hbase]
  have hframe : Holds (switchedMem s.machine) (switchedMem s.machine next) (taskFrame g'.cpu) := by
    rw [hsp]
    refine hholds.congr fun a ha hlt => ?_
    change a < g'.base + 20 at hlt
    rw [hkept a (by omega) (by omega)]
    exact hgstack a ha (by omega)
  obtain ⟨hmem, hresumed, hcs, hss⟩ := exec_taskSwitch
    (by change 16 ≤ s.cpu.esp; omega) (by change s.cpu.esp + 8 ≤ _; omega)
    (by
      change switchedMem s.machine (s.cpu.esp + 4) = next
      rw [hkept _ (by omega) (by omega)]
      exact harg)
    (show next < 2 ^ 32 by omega) (by omega) hframe (by rw [hesp, hlimit, hsp])
  refine ⟨hmem, hresumed, hcs, hss, ?_, ?_, hkept⟩
  · exact switchedMem_frame (m := s.machine) (by change 16 ≤ s.cpu.esp; omega) hbelow'
  · rw [← hpage]
    exact switchedMem_page s.machine

/-- The frame that `task_switch` leaves on the stack of its caller. -/
def switchFrame (s : State) : Frame :=
  ⟨.switch, s.cpu.esp - 16, { s.cpu with esp := s.cpu.esp + 4, eip := s.mem s.cpu.esp },
    (exec taskSwitch s.machine).mem⟩

/-- The state once `next` runs. -/
def State.switchTo (s : State) (next : ℕ) : State :=
  { (s.after (exec taskSwitch s.machine) (switchFrame s :: s.frames s.running)).setFrames next
      (s.frames next).tail with
    esp0 := taskActivate s.mem s.esp0 next, running := next }

theorem Inv.switch (h : Inv s) (hcpu : ¬s.cpu.User) (hlive : s.live next = true)
    (hne : next ≠ s.running) (harg : s.mem (s.cpu.esp + 4) = next)
    (hlow : s.running + TASK_SIZE + 16 ≤ s.cpu.esp) (hhigh : s.cpu.esp + 8 ≤ s.floor s.running) :
    Inv (s.switchTo next) := by
  obtain ⟨g, gs, hgs, hkind, hbase, hrest⟩ := h.suspended next hlive hne
  have hswitched := h.switched hlive hne harg hlow hhigh hgs
  have htop := h.floor_le _ h.running
  have hapart := h.apart hlive h.running hne
  have huidsmall : UID < TASK_SIZE := by decide
  have hsmall : TASK_SIZE ≤ PAGE_SIZE := by decide
  obtain ⟨hcs, hss, -, -⟩ := h.kernel hcpu
  have hmem : (s.switchTo next).mem = switchedMem s.machine := hswitched.mem
  have hown : (s.switchTo next).frames s.running = switchFrame s :: s.frames s.running := by
    change Function.update (Function.update s.frames s.running _) next _ s.running = _
    rw [Function.update_of_ne (Ne.symm hne), Function.update_self]
  have hnext : (s.switchTo next).frames next = gs := by
    change Function.update (Function.update s.frames s.running _) next (s.frames next).tail next = _
    rw [Function.update_self, hgs]
    rfl
  have hother : ∀ t, t ≠ s.running → t ≠ next → (s.switchTo next).frames t = s.frames t := by
    intro t hrun hnext
    change Function.update (Function.update s.frames s.running _) next _ t = _
    rw [Function.update_of_ne hnext, Function.update_of_ne hrun]
  have hpage : ∀ t, s.live t = true → t ≠ s.running → ∀ a, t ≤ a → a < t + PAGE_SIZE →
      switchedMem s.machine a = s.mem a := by
    intro t ht hrun a ha hlt
    have hapart' := h.apart ht h.running hrun
    exact hswitched.kept a (by omega) (by omega)
  have huid : ∀ t, s.live t = true → switchedMem s.machine (t + UID) = s.mem (t + UID) := by
    intro t ht
    by_cases heq : t = s.running
    · subst heq
      exact hswitched.kept _ (by unfold UID; omega) (by omega)
    · exact hpage t ht heq _ (by omega) (by omega)
  have hstacked := h.stacked next hlive
  rw [hgs] at hstacked
  obtain ⟨hglow, hbrings, -, -, hgrest⟩ := hstacked
  have hgsize := g.base_lt
  have hgbelow : (s.switchTo next).cpu.esp = g.limit := by
    unfold Frame.Brings at hbrings
    rw [hkind] at hbrings
    exact hswitched.resumed.esp.trans hbrings.2
  have hcsnew : (s.switchTo next).cpu.cs = KERNEL_CODE_SELECTOR := hswitched.cs.trans hcs
  have hssnew : (s.switchTo next).cpu.ss = KERNEL_DATA_SELECTOR := hswitched.ss.trans hss
  have hlimit : (switchFrame s).limit = s.cpu.esp + 4 := by
    change s.cpu.esp - 16 + 20 = _
    omega
  refine ⟨hlive, h.aligned, h.below, ?_, ?_, ?_, ?_, ?_, ?_, ?_⟩
  · intro t ht
    rw [hmem]
    by_cases hrun : t = s.running
    · subst hrun
      rw [hown]
      refine ⟨?_, ?_, ?_, fun hk => absurd rfl hk, ?_⟩
      · change _ ≤ s.cpu.esp - 16
        omega
      · refine ⟨?_, hlimit.symm⟩
        change Holds (exec taskSwitch s.machine).mem _ _
        rw [hswitched.mem]
        exact hswitched.frame
      · intro a _ _
        change _ = (exec taskSwitch s.machine).mem a
        rw [hswitched.mem]
      · rw [hlimit]
        refine ((h.stacked _ h.running).congr fun a ha _ => ?_).raise ?_
        · rw [← s.floor_eq] at ha
          exact hswitched.kept a (by omega) (by omega)
        · rw [← s.floor_eq]
          omega
    · have hlow := h.le_floor t ht
      by_cases hn : t = next
      · subst hn
        rw [hnext]
        refine (hgrest.congr fun a ha hlt => hpage t ht hrun a ?_ hlt).raise ?_
        · have hle := hgrest.le_lowest
          omega
        · have hle := hgrest.le_lowest
          omega
      · rw [hother t hrun hn]
        rw [s.floor_eq] at hlow
        exact (h.stacked t ht).congr fun a ha hlt => hpage t ht hrun a (by omega) hlt
  · intro t ht hn
    change t ≠ next at hn
    by_cases hrun : t = s.running
    · subst hrun
      refine ⟨switchFrame s, s.frames s.running, hown, rfl, ?_, h.serving⟩
      rw [hmem]
      exact hswitched.stack.symm
    · obtain ⟨g', gs', hgs', hkind', hbase', hrest'⟩ := h.suspended t ht hrun
      refine ⟨g', gs', (hother t hrun hn).trans hgs', hkind', ?_, hrest'⟩
      rw [hmem, hpage t ht hrun t le_rfl (by unfold PAGE_SIZE; omega)]
      exact hbase'
  · change ∀ g ∈ (s.switchTo next).frames next, _
    rw [hnext]
    exact hrest
  · intro t ht f hf hfkind hfuser
    rw [hmem, huid t ht]
    by_cases hrun : t = s.running
    · subst hrun
      rw [hown] at hf
      rcases List.mem_cons.mp hf with rfl | hf
      · exact absurd rfl hfkind
      · exact h.users _ h.running f hf hfkind hfuser
    · by_cases hn : t = next
      · subst hn
        rw [hnext] at hf
        exact h.users t ht f (by rw [hgs]; exact List.mem_cons_of_mem _ hf) hfkind hfuser
      · rw [hother t hrun hn] at hf
        exact h.users t ht f hf hfkind hfuser
  · intro huser
    change (s.switchTo next).mem (next + UID) ≠ _ at huser
    rw [hmem, huid next hlive] at huser
    change taskActivate s.mem s.esp0 next = next + PAGE_SIZE
    unfold taskActivate
    rw [if_pos huser]
  · intro huser
    unfold Cpu.User at huser
    rw [hcsnew] at huser
    cases huser
  · intro _
    refine ⟨hcsnew, hssnew, ?_, ?_⟩
    · change next + TASK_SIZE ≤ _
      rw [hgbelow]
      omega
    · rw [State.floor_eq]
      change _ ≤ lowest _ ((s.switchTo next).frames next)
      rw [hnext, hgbelow]
      exact hgrest.le_lowest

end Ylos.Switch
