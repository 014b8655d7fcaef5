import Ylos.Verification.Switch.Invariant

/-! # Every step keeps the stacks -/

namespace Ylos.Switch

open Words

variable {img : Image} {s s' : State} {m : Machine} {f : Frame} {fs : List Frame}

theorem Inv.floor_le (h : Inv s) (t : ℕ) (ht : s.live t = true) : s.floor t ≤ t + PAGE_SIZE :=
  (h.stacked t ht).lowest_le

theorem Inv.le_floor (h : Inv s) (t : ℕ) (ht : s.live t = true) : t + TASK_SIZE ≤ s.floor t :=
  (h.stacked t ht).le_lowest

theorem State.floor_of_frames {t : ℕ} (h : s.frames t = f :: fs) : s.floor t = f.base := by
  rw [s.floor_eq, h]
  rfl

theorem Frame.limit_eq (h : f.kind ≠ .switch) : f.limit = f.base + frameSize f.cpu := by
  have hsize : f.base + frameSize f.cpu =
      if f.cpu.User then f.base + INTR_FRAME_SIZE else f.base + 72 := by
    unfold frameSize
    split
    · rfl
    · rfl
  rw [hsize]
  unfold Frame.limit
  cases hkind : f.kind with
  | switch => exact absurd hkind h
  | interrupt => rfl
  | syscall => rfl
  | user => rfl

/-! ## Steps on the own stack -/

/-- What a task may do to its own page. -/
theorem Inv.after (h : Inv s)
    (hother : ∀ a, a < s.running ∨ s.running + PAGE_SIZE ≤ a → m.mem a = s.mem a)
    (huid : m.mem (s.running + UID) = s.mem (s.running + UID))
    (hstack : Stacked m.mem (s.running + PAGE_SIZE) (s.running + TASK_SIZE) fs)
    (hserving : ∀ g ∈ fs, g.kind ≠ .switch)
    (husers : ∀ g ∈ fs, g.cpu.User → s.mem (s.running + UID) ≠ KERNEL_USER)
    (huser : m.cpu.User → fs = [] ∧ s.mem (s.running + UID) ≠ KERNEL_USER)
    (hkernel : ¬m.cpu.User → m.cpu.cs = KERNEL_CODE_SELECTOR ∧ m.cpu.ss = KERNEL_DATA_SELECTOR ∧
      s.running + TASK_SIZE ≤ m.cpu.esp ∧ m.cpu.esp ≤ lowest (s.running + PAGE_SIZE) fs) :
    Inv (s.after m fs) := by
  have hpage : ∀ t, s.live t = true → t ≠ s.running → ∀ a, t ≤ a → a < t + PAGE_SIZE →
      m.mem a = s.mem a := by
    intro t ht hne a ha hlt
    have hapart := h.apart ht h.running hne
    exact hother a (by omega)
  have hframes : ∀ t, t ≠ s.running → (s.after m fs).frames t = s.frames t := fun t hne =>
    Function.update_of_ne hne _ _
  have hown : (s.after m fs).frames s.running = fs := Function.update_self _ _ _
  have hsmall : UID < PAGE_SIZE := by decide
  refine ⟨h.running, h.aligned, h.below, ?_, ?_, ?_, ?_, ?_, ?_, ?_⟩
  · intro t ht
    by_cases hne : t = s.running
    · subst hne
      rw [hown]
      exact hstack
    · rw [hframes t hne]
      have hlow := h.le_floor t ht
      rw [s.floor_eq] at hlow
      exact (h.stacked t ht).congr fun a ha hlt => hpage t ht hne a (by omega) hlt
  · intro t ht hne
    have hzero : m.mem t = s.mem t := hpage t ht hne t le_rfl (by unfold PAGE_SIZE; omega)
    obtain ⟨f, fs, hfs, hkind, hbase, hrest⟩ := h.suspended t ht hne
    exact ⟨f, fs, (hframes t hne).trans hfs, hkind, hbase.trans hzero.symm, hrest⟩
  · change ∀ g ∈ (s.after m fs).frames s.running, _
    rw [hown]
    exact hserving
  · intro t ht g hg hkind hg'
    change m.mem (t + UID) ≠ KERNEL_USER
    by_cases hne : t = s.running
    · subst hne
      rw [hown] at hg
      rw [huid]
      exact husers g hg hg'
    · rw [hframes t hne] at hg
      rw [hpage t ht hne _ (by omega) (by omega)]
      exact h.users t ht g hg hkind hg'
  · intro hne
    change m.mem (s.running + UID) ≠ KERNEL_USER at hne
    rw [huid] at hne
    exact h.esp0 hne
  · intro hm
    change (s.after m fs).frames s.running = [] ∧ m.mem (s.running + UID) ≠ KERNEL_USER
    rw [hown, huid]
    exact huser hm
  · intro hm
    rw [State.floor_eq]
    change _ ∧ _ ∧ _ ∧ _ ≤ lowest _ ((s.after m fs).frames s.running)
    rw [hown]
    exact hkernel hm

/-- The stack of the interrupted code, which the frame goes on. -/
theorem Inv.kernelEsp_le (h : Inv s) : kernelEsp s.cpu s.esp0 ≤ s.floor s.running := by
  unfold kernelEsp
  split
  · rename_i huser
    obtain ⟨hnil, huid⟩ := h.user huser
    rw [h.esp0 huid, s.floor_eq, hnil]
    exact le_rfl
  · rename_i hkernel
    exact (h.kernel hkernel).2.2.2

/-- Interrupts and system calls put a frame on the stack of the running task. -/
theorem Inv.enter (h : Inv s) {kind : Kind} {base room : ℕ} (hkind : kind ≠ .switch)
    (hentry : Entry s.machine m s.esp0 base) (hroom : base = m.cpu.esp + room)
    (hlow : s.running + TASK_SIZE ≤ m.cpu.esp) :
    Inv (s.after m (⟨kind, base, s.cpu, m.mem⟩ :: s.frames s.running)) := by
  have hfloor := h.kernelEsp_le
  have htop := h.floor_le _ h.running
  have hlimit : base + frameSize s.cpu = kernelEsp s.cpu s.esp0 := hentry.limit
  have hsize : (⟨kind, base, s.cpu, m.mem⟩ : Frame).limit = base + frameSize s.cpu :=
    Frame.limit_eq hkind
  have hkernel' : ¬m.cpu.User := by
    unfold Cpu.User
    rw [hentry.cs]
    decide
  have hss : m.cpu.ss = KERNEL_DATA_SELECTOR := by
    rw [hentry.ss]
    change (if s.cpu.User then _ else s.cpu.ss) = _
    split
    · rfl
    · exact (h.kernel ‹_›).2.1
  have hbrings : (⟨kind, base, s.cpu, m.mem⟩ : Frame).Brings := by
    have hholds := hentry.holds
    have hback : ¬s.cpu.User → s.cpu.esp = (⟨kind, base, s.cpu, m.mem⟩ : Frame).limit ∧
        s.cpu.cs = KERNEL_CODE_SELECTOR ∧ s.cpu.ss = KERNEL_DATA_SELECTOR := by
      intro hkernel
      obtain ⟨hcs, hss, -, -⟩ := h.kernel hkernel
      rw [hsize, hlimit]
      unfold kernelEsp
      rw [if_neg hkernel]
      exact ⟨rfl, hcs, hss⟩
    unfold Frame.Brings
    cases kind with
    | switch => exact absurd rfl hkind
    | interrupt => exact ⟨hholds, hback⟩
    | syscall => exact ⟨hholds, hback⟩
    | user => exact ⟨hholds, hback⟩
  refine h.after ?_ ?_ ⟨by change _ ≤ base; omega, hbrings, fun a _ _ => rfl, ?_, ?_⟩ ?_ ?_ ?_ ?_
  · intro a ha
    rcases ha with ha | ha
    · exact hentry.below a (by omega)
    · exact hentry.above a (by change kernelEsp s.cpu s.esp0 ≤ a; omega)
  · refine hentry.below _ ?_
    unfold UID TASK_SIZE at *
    omega
  · intro _ huser
    obtain ⟨hnil, huid⟩ := h.user huser
    rw [hsize, hlimit]
    unfold kernelEsp
    rw [if_pos huser]
    exact h.esp0 huid
  · rw [hsize, hlimit]
    refine ((h.stacked _ h.running).congr fun a ha _ => ?_).raise hfloor
    exact hentry.above a (hfloor.trans ha)
  · intro g hg
    rcases List.mem_cons.mp hg with rfl | hg
    · exact hkind
    · exact h.serving g hg
  · intro g hg huser
    rcases List.mem_cons.mp hg with rfl | hg
    · exact (h.user huser).2
    · exact h.users _ h.running g hg (h.serving g hg) huser
  · exact fun huser => absurd huser hkernel'
  · intro _
    refine ⟨hentry.cs, hss, hlow, ?_⟩
    change m.cpu.esp ≤ base
    omega

theorem Inv.interrupt (h : Inv s) {vector error : ℕ}
    (hroom : s.running + TASK_SIZE + 84 ≤ if s.cpu.User then s.esp0 else s.cpu.esp) :
    let m := Switch.interrupt img s.machine s.esp0 vector error
    Inv (s.after m (⟨.interrupt, m.cpu.esp + 4, s.cpu, m.mem⟩ :: s.frames s.running)) := by
  intro m
  change _ ≤ kernelEsp s.cpu s.esp0 at hroom
  have hfloor := h.kernelEsp_le
  have htop := h.floor_le _ h.running
  have hpage := h.below _ h.running
  have hsize := frameSize_le s.cpu
  obtain ⟨hentry, -, -⟩ := interrupt_entry img s.machine s.esp0 vector error
    (by change 84 ≤ kernelEsp s.cpu s.esp0; omega)
    (by change kernelEsp s.cpu s.esp0 < _; omega)
  have hlimit : m.cpu.esp + 4 + frameSize s.cpu = kernelEsp s.cpu s.esp0 := hentry.limit
  exact h.enter (by simp) hentry rfl (by omega)

theorem Inv.syscall (h : Inv s) {back : ℕ}
    (hroom : s.running + TASK_SIZE + 108 ≤ if s.cpu.User then s.esp0 else s.cpu.esp)
    (hrun : Switch.syscall img s.machine s.esp0 back = .ok m) :
    Inv (s.after m (⟨.syscall, m.cpu.esp + 28, s.cpu, m.mem⟩ :: s.frames s.running)) := by
  change _ ≤ kernelEsp s.cpu s.esp0 at hroom
  have hfloor := h.kernelEsp_le
  have htop := h.floor_le _ h.running
  have hpage := h.below _ h.running
  have hsize := frameSize_le s.cpu
  obtain ⟨-, hentry, -, -⟩ := syscall_entry (by change 108 ≤ kernelEsp s.cpu s.esp0; omega)
    (by change kernelEsp s.cpu s.esp0 < _; omega) hrun
  have hlimit : m.cpu.esp + 28 + frameSize s.cpu = kernelEsp s.cpu s.esp0 := hentry.limit
  exact h.enter (by simp) hentry rfl (by omega)

/-! ## The ways out -/

theorem Stacked.tail_eq_nil {mem : ℕ → ℕ} {top lo : ℕ} (h : Stacked mem top lo (f :: fs))
    (hkind : f.kind ≠ .switch) (huser : f.cpu.User) : fs = [] := by
  obtain ⟨-, -, -, htop, hrest⟩ := h
  rw [htop hkind huser] at hrest
  exact hrest.eq_nil

/-- The memory still holds the frame that is to be left. -/
theorem Inv.holds (h : Inv s) (hfs : s.frames s.running = f :: fs) :
    (∃ v d v₀ e, Holds s.mem f.base (intrFrame f.cpu v d v₀ e)) ∧ f.base + 88 ≤ 2 ^ 32 ∧
      (¬f.cpu.User → f.cpu.esp = f.base + 72 ∧ f.cpu.cs = KERNEL_CODE_SELECTOR ∧
        f.cpu.ss = KERNEL_DATA_SELECTOR) := by
  have hstacked := h.stacked _ h.running
  have hkind : f.kind ≠ .switch := h.serving f (by rw [hfs]; exact List.mem_cons_self)
  have haligned := h.aligned _ h.running
  have hbelow := h.below _ h.running
  have hsize := f.limit_eq hkind
  rw [hfs] at hstacked
  obtain ⟨-, hbrings, hstack, -, hrest⟩ := hstacked
  have hle := hrest.le_lowest
  have htop := hrest.lowest_le
  have hfit := le_frameSize f.cpu
  have hframe : (∃ v d v₀ e, Holds f.stack f.base (intrFrame f.cpu v d v₀ e)) ∧
      (¬f.cpu.User → f.cpu.esp = f.limit ∧ f.cpu.cs = KERNEL_CODE_SELECTOR ∧
        f.cpu.ss = KERNEL_DATA_SELECTOR) := by
    unfold Frame.Brings at hbrings
    cases hk : f.kind with
    | switch => exact absurd hk hkind
    | interrupt => rw [hk] at hbrings; exact hbrings
    | syscall => rw [hk] at hbrings; exact hbrings
    | user => rw [hk] at hbrings; exact hbrings
  obtain ⟨⟨v, d, v₀, e, hholds⟩, hkernel⟩ := hframe
  refine ⟨⟨v, d, v₀, e, hholds.congr fun a ha hlt => hstack a ha ?_⟩, ?_, fun hk => ?_⟩
  · rw [length_intrFrame] at hlt
    omega
  · unfold PAGE_SIZE at *
    omega
  · obtain ⟨hesp, hseg⟩ := hkernel hk
    refine ⟨?_, hseg⟩
    rw [hesp, hsize]
    unfold frameSize
    rw [if_neg hk]

/-- The running task comes back to the code whose frame is on top of its stack. -/
theorem Inv.exit (h : Inv s) {c : Cpu} {mem : ℕ → ℕ} (hfs : s.frames s.running = f :: fs)
    (hcs : c.cs = f.cpu.cs) (hss : c.ss = f.cpu.ss) (hesp : ¬f.cpu.User → c.esp = f.cpu.esp)
    (hmem : ∀ a, a < f.base ∨ f.limit ≤ a → mem a = s.mem a) : Inv (s.after ⟨c, mem⟩ fs) := by
  have hkind : f.kind ≠ .switch := h.serving f (by rw [hfs]; exact List.mem_cons_self)
  obtain ⟨-, -, hkernel⟩ := h.holds hfs
  have hstacked := h.stacked _ h.running
  rw [hfs] at hstacked
  have hnil := hstacked.tail_eq_nil hkind
  obtain ⟨hlow, -, -, -, hrest⟩ := hstacked
  have hle := hrest.le_lowest
  have htop := hrest.lowest_le
  have hsize := f.base_lt
  have husers := h.users _ h.running
  rw [hfs] at husers
  have huid : s.running + UID < f.base := by
    unfold UID TASK_SIZE at *
    omega
  have hcsUser : (⟨c, mem⟩ : Machine).cpu.User ↔ f.cpu.User := by
    unfold Cpu.User
    rw [hcs]
  refine h.after ?_ (hmem _ (.inl huid)) ?_ ?_ ?_ ?_ ?_
  · intro a ha
    refine hmem a ?_
    unfold TASK_SIZE at hlow
    omega
  · refine (hrest.congr fun a ha _ => hmem a (.inr (hle.trans ha))).raise ?_
    omega
  · intro g hg
    exact h.serving g (by rw [hfs]; exact List.mem_cons_of_mem _ hg)
  · intro g hg
    have hserving := h.serving g (by rw [hfs]; exact List.mem_cons_of_mem _ hg)
    exact husers g (List.mem_cons_of_mem _ hg) hserving
  · intro huser
    have hf := hcsUser.mp huser
    exact ⟨hnil hf, husers f List.mem_cons_self hkind hf⟩
  · intro huser
    have hf : ¬f.cpu.User := fun hf => huser (hcsUser.mpr hf)
    obtain ⟨hbase, hcode, hdata⟩ := hkernel hf
    have hlimit := f.limit_eq hkind
    unfold frameSize at hlimit
    rw [if_neg hf] at hlimit
    refine ⟨hcs.trans hcode, hss.trans hdata, ?_, ?_⟩
    · change _ ≤ c.esp
      rw [hesp hf]
      omega
    · change c.esp ≤ _
      rw [hesp hf]
      omega

/-- The handler of an interrupt comes back to the code that was interrupted. -/
theorem Inv.leave_eq (h : Inv s) (hfs : s.frames s.running = f :: fs) (hesp : s.cpu.esp = f.base)
    (hcpu : ¬s.cpu.User) : exec interruptExit s.machine = ⟨f.cpu, s.mem⟩ := by
  obtain ⟨⟨v, d, v₀, e, hholds⟩, hfit, hkernel⟩ := h.holds hfs
  have hss := (h.kernel hcpu).2.1
  have hsaved : Holds s.machine.mem s.machine.cpu.esp (intrFrame f.cpu v d v₀ e) := by
    change Holds s.mem s.cpu.esp _
    rw [hesp]
    exact hholds
  refine exec_interruptExit hsaved ?_ ?_
  · change s.cpu.esp + 80 ≤ _
    omega
  · intro hk
    obtain ⟨hbase, -, hdata⟩ := hkernel hk
    refine ⟨?_, hdata.trans hss.symm⟩
    change _ = s.cpu.esp + 72
    rw [hesp]
    exact hbase

/-- A system call comes back with its result. -/
theorem Inv.syscallLeave_eq (h : Inv s) (hfs : s.frames s.running = f :: fs)
    (hesp : s.cpu.esp + 24 = f.base) (hcpu : ¬s.cpu.User) :
    exec syscallExit s.machine =
      ⟨{ f.cpu with eax := s.cpu.eax }, Function.update s.mem (f.base + 32) s.cpu.eax⟩ := by
  obtain ⟨⟨v, d, v₀, e, hholds⟩, hfit, hkernel⟩ := h.holds hfs
  have hss := (h.kernel hcpu).2.1
  have hslot : f.base + 32 = s.cpu.esp + 56 := by omega
  rw [hslot]
  have hsaved : Holds s.machine.mem (s.machine.cpu.esp + 24) (intrFrame f.cpu v d v₀ e) := by
    change Holds s.mem (s.cpu.esp + 24) _
    rw [hesp]
    exact hholds
  refine exec_syscallExit hsaved ?_ ?_
  · change s.cpu.esp + 24 + 80 ≤ _
    omega
  · intro hk
    obtain ⟨hbase, -, hdata⟩ := hkernel hk
    refine ⟨?_, hdata.trans hss.symm⟩
    change _ = s.cpu.esp + 24 + 72
    omega

/-- The frame of user code is at the end of the page. -/
theorem Inv.base_of_user (h : Inv s) (hfs : s.frames s.running = f :: fs) (huser : f.cpu.User) :
    f.base = s.running + PAGE_SIZE - INTR_FRAME_SIZE := by
  have hkind : f.kind ≠ .switch := h.serving f (by rw [hfs]; exact List.mem_cons_self)
  have hstacked := h.stacked _ h.running
  rw [hfs] at hstacked
  obtain ⟨-, -, -, htop, -⟩ := hstacked
  have hlimit := htop hkind huser
  have hsize := f.limit_eq hkind
  unfold frameSize at hsize
  rw [if_pos huser] at hsize
  omega

/-- `execve` comes back to the entry of the program that it has loaded. -/
theorem Inv.execve_eq (h : Inv s) (entry top : ℕ) (hfs : s.frames s.running = f :: fs)
    (huser : f.cpu.User) : ∃ mem,
    execveReturn s.machine s.running entry top =
      ⟨{ f.cpu with edx := 0, eip := entry, esp := top }, mem⟩ ∧
    ∀ a, a < f.base ∨ f.limit ≤ a → mem a = s.mem a := by
  obtain ⟨⟨v, d, v₀, e, hholds⟩, hfit, -⟩ := h.holds hfs
  have hbase := h.base_of_user hfs huser
  have hkind : f.kind ≠ .switch := h.serving f (by rw [hfs]; exact List.mem_cons_self)
  have hsize := f.limit_eq hkind
  unfold frameSize INTR_FRAME_SIZE at hsize
  rw [if_pos huser] at hsize
  have hedx := hholds.set 0 6
  have heip := hedx.set entry 15
  have hesp := heip.set top 18
  have hframe : (((intrFrame f.cpu v d v₀ e).set 6 0).set 15 entry).set 18 top =
      intrFrame { f.cpu with edx := 0, eip := entry, esp := top } v d v₀ e := by
    have huser' : ({ f.cpu with edx := 0, eip := entry, esp := top } : Cpu).User := huser
    unfold intrFrame
    rw [if_pos huser, if_pos huser']
    rfl
  rw [hframe] at hesp
  generalize hmem : Function.update (Function.update (Function.update s.mem (f.base + 4 * 6) 0)
    (f.base + 4 * 15) entry) (f.base + 4 * 18) top = mem at hesp
  refine ⟨mem, ?_, fun a ha => ?_⟩
  · have hexit := exec_interruptExit (m := ⟨{ s.cpu with esp := f.base }, mem⟩) hesp
      (by change f.base + 80 ≤ _; omega) fun hk => absurd huser hk
    unfold execveReturn
    rw [← hbase]
    rw [← hmem] at hexit ⊢
    exact hexit
  · rw [← hmem, Function.update_of_ne (by omega), Function.update_of_ne (by omega),
      Function.update_of_ne (by omega)]

/-- The interrupt frame of `task_to_user_mode`. -/
theorem holds_userFrame (mem : ℕ → ℕ) (t : ℕ) : ∃ v₀,
    Holds (userFrame mem t) (t + PAGE_SIZE - INTR_FRAME_SIZE)
      (intrFrame userCpu 0x20 4 v₀ YLOS_MAGIC) := by
  generalize hp : t + PAGE_SIZE - INTR_FRAME_SIZE = p
  have hmem : userFrame mem t = stored (stored mem p [0x20, 1, 2, 3, 4, 5, 6, 7, 8, 0,
      USER_DATA_SELECTOR, USER_DATA_SELECTOR, USER_DATA_SELECTOR]) (p + 56)
      [YLOS_MAGIC, 0, USER_CODE_SELECTOR, 0 <<< 12 ||| 0b10 ||| 1 <<< 9, USER_STACK_TOP,
        USER_DATA_SELECTOR] := by
    rw [← hp]
    rfl
  generalize hmem₁ : stored mem p [0x20, 1, 2, 3, 4, 5, 6, 7, 8, 0, USER_DATA_SELECTOR,
    USER_DATA_SELECTOR, USER_DATA_SELECTOR] = mem₁ at hmem
  have hlow : Holds mem₁ p [0x20, 1, 2, 3, 4, 5, 6, 7, 8, 0, USER_DATA_SELECTOR,
      USER_DATA_SELECTOR, USER_DATA_SELECTOR] := by
    rw [← hmem₁]
    exact holds_stored
  rw [hmem]
  generalize hmem₂ : stored mem₁ (p + 56) [YLOS_MAGIC, 0, USER_CODE_SELECTOR,
    0 <<< 12 ||| 0b10 ||| 1 <<< 9, USER_STACK_TOP, USER_DATA_SELECTOR] = mem₂
  have hhigh : Holds mem₂ (p + 56) [YLOS_MAGIC, 0, USER_CODE_SELECTOR,
      0 <<< 12 ||| 0b10 ||| 1 <<< 9, USER_STACK_TOP, USER_DATA_SELECTOR] := by
    rw [← hmem₂]
    exact holds_stored
  have hlow₂ : Holds mem₂ p [0x20, 1, 2, 3, 4, 5, 6, 7, 8, 0, USER_DATA_SELECTOR,
      USER_DATA_SELECTOR, USER_DATA_SELECTOR] := by
    refine hlow.congr fun a _ hlt => ?_
    rw [← hmem₂]
    exact stored_apply_of_lt (.inl (by simp at hlt; omega))
  have hframe : ∀ v₀, intrFrame userCpu 0x20 4 v₀ YLOS_MAGIC =
      [0x20, 1, 2, 3, 4, 5, 6, 7, 8, 0, USER_DATA_SELECTOR, USER_DATA_SELECTOR,
        USER_DATA_SELECTOR] ++ ([v₀] ++ [YLOS_MAGIC, 0, USER_CODE_SELECTOR,
          0 <<< 12 ||| 0b10 ||| 1 <<< 9, USER_STACK_TOP, USER_DATA_SELECTOR]) := by
    intro v₀
    rfl
  refine ⟨mem₂ (p + 52), ?_⟩
  rw [hframe, holds_append, holds_append]
  exact ⟨hlow₂, ⟨rfl, trivial⟩, hhigh⟩

theorem userFrame_apply {mem : ℕ → ℕ} {t a : ℕ}
    (h : a < t + PAGE_SIZE - INTR_FRAME_SIZE ∨ t + PAGE_SIZE ≤ a) : userFrame mem t a = mem a := by
  unfold userFrame
  unfold INTR_FRAME_SIZE PAGE_SIZE at *
  rw [stored_apply_of_lt (by simp; omega), stored_apply_of_lt (by simp; omega)]

theorem Inv.toUserMode (h : Inv s) (hcpu : ¬s.cpu.User)
    (huid : s.mem (s.running + UID) ≠ KERNEL_USER)
    (hesp : s.cpu.esp ≤ s.running + PAGE_SIZE - INTR_FRAME_SIZE) :
    let mem := userFrame s.mem s.running
    Inv (s.after ⟨s.cpu, mem⟩
      [⟨.user, s.running + PAGE_SIZE - INTR_FRAME_SIZE, userCpu, mem⟩]) := by
  intro mem
  have huser : userCpu.User := by decide
  obtain ⟨hcs, hss, hlow, -⟩ := h.kernel hcpu
  obtain ⟨v₀, hholds⟩ := holds_userFrame s.mem s.running
  have hroom : TASK_SIZE + INTR_FRAME_SIZE ≤ PAGE_SIZE := by decide
  have hlimit : (⟨.user, s.running + PAGE_SIZE - INTR_FRAME_SIZE, userCpu, mem⟩ : Frame).limit =
      s.running + PAGE_SIZE := by
    rw [Frame.limit_eq (by simp)]
    unfold frameSize
    rw [if_pos huser]
    change s.running + PAGE_SIZE - INTR_FRAME_SIZE + INTR_FRAME_SIZE = _
    omega
  have hsmall : UID < TASK_SIZE := by decide
  refine h.after ?_ (userFrame_apply (by omega))
    ⟨?_, ⟨⟨_, _, _, _, hholds⟩, ?_⟩, ?_, ?_, ?_⟩ ?_ ?_ ?_ ?_
  · intro a ha
    exact userFrame_apply (by omega)
  · change _ ≤ s.running + PAGE_SIZE - INTR_FRAME_SIZE
    omega
  · exact fun hk => absurd huser hk
  · exact fun _ _ _ => rfl
  · exact fun _ _ => hlimit
  · rw [hlimit]
    exact le_rfl
  · intro g hg
    rw [List.mem_singleton.mp hg]
    simp
  · exact fun _ _ _ => huid
  · exact fun hk => absurd hk hcpu
  · exact fun _ => ⟨hcs, hss, hlow, hesp⟩

/-- Code that keeps to the calling convention keeps the stacks. -/
theorem Inv.work (h : Inv s) {cpu : Cpu} {mem : ℕ → ℕ}
    (hpossible : (Act.work cpu mem).Possible img s) : Inv { s with cpu := cpu, mem := mem } := by
  obtain ⟨hkept, huser, hkernel⟩ := hpossible
  have huid : ∀ t, s.live t = true → mem (t + UID) = s.mem (t + UID) := fun t ht =>
    hkept _ (.inr ⟨t, ht, .inl rfl⟩)
  refine ⟨h.running, h.aligned, h.below, ?_, ?_, h.serving, ?_, ?_, ?_, ?_⟩
  · intro t ht
    refine (h.stacked t ht).congr fun a ha hlt => hkept a ?_
    by_cases hne : t = s.running
    · subst hne
      exact .inl ⟨ha, hlt⟩
    · obtain ⟨f, fs, hfs, -, hbase, -⟩ := h.suspended t ht hne
      have hlowest : lowest (t + PAGE_SIZE) (s.frames t) = f.base := State.floor_of_frames hfs
      rw [hlowest, hbase] at ha
      exact .inr ⟨t, ht, .inr ⟨hne, .inr ⟨ha, hlt⟩⟩⟩
  · intro t ht hne
    obtain ⟨f, fs, hfs, hkind, hbase, hrest⟩ := h.suspended t ht hne
    have hsaved : mem t = s.mem t := hkept t (.inr ⟨t, ht, .inr ⟨hne, .inl rfl⟩⟩)
    exact ⟨f, fs, hfs, hkind, hbase.trans hsaved.symm, hrest⟩
  · intro t ht f hf hkind hfuser
    change mem (t + UID) ≠ _
    rw [huid t ht]
    exact h.users t ht f hf hkind hfuser
  · intro hne
    change mem (s.running + UID) ≠ _ at hne
    rw [huid _ h.running] at hne
    exact h.esp0 hne
  · intro hcpu
    change s.frames s.running = [] ∧ mem (s.running + UID) ≠ _
    rw [huid _ h.running]
    by_cases hold : s.cpu.User
    · exact h.user hold
    · obtain ⟨hcs, -, -, -⟩ := hkernel hold
      have hsame : s.cpu.User := by
        unfold Cpu.User
        rw [← hcs]
        exact hcpu
      exact absurd hsame hold
  · intro hcpu
    have hold : ¬s.cpu.User := fun hold => hcpu (huser hold)
    obtain ⟨hcs, hss, hlow, hhigh⟩ := hkernel hold
    obtain ⟨hcode, hdata, -, -⟩ := h.kernel hold
    exact ⟨hcs.trans hcode, hss.trans hdata, hlow, hhigh⟩

end Ylos.Switch
