import Ylos.Lib.Runs
import Ylos.Verification.Switch.Tasks

/-! # Where a task comes back to

Whatever the tasks do in between and in whatever order they run, each way out of the kernel
leads back to where the same task came in. -/

namespace Ylos.Switch

open Words

variable {img : Image} {s₀ s s' u u' : State} {a : Act} {f : Frame} {fs : List Frame} {t next : ℕ}

def Reaches (img : Image) : State → State → Prop := Run (Step img) fun _ _ => True

theorem Reaches.refl (s : State) : Reaches img s s := Run.refl

theorem Reaches.tail (h : Reaches img s s') (hstep : Step img s' a u) : Reaches img s u :=
  Run.tail h trivial hstep

/-- A system call that does not fault. -/
theorem next_syscall {back : ℕ} (h : (Act.syscall back).next img s = .ok s') : ∃ m,
    Switch.syscall img s.machine s.esp0 back = .ok m ∧
      s' = s.after m (⟨.syscall, m.cpu.esp + 28, s.cpu, m.mem⟩ :: s.frames s.running) := by
  change (do
    let m ← Switch.syscall img s.machine s.esp0 back
    return s.after m (⟨.syscall, m.cpu.esp + 28, s.cpu, m.mem⟩ :: s.frames s.running)) = _ at h
  cases hrun : Switch.syscall img s.machine s.esp0 back with
  | error e =>
      rw [hrun] at h
      cases h
  | ok m =>
      rw [hrun] at h
      exact ⟨m, rfl, (Except.ok.inj h).symm⟩

theorem Step.inv (hstep : Step img s a s') (h : Inv s) : Inv s' := by
  obtain ⟨hpossible, hnext⟩ := hstep
  cases a with
  | work cpu mem =>
      obtain rfl := Except.ok.inj hnext
      exact h.work hpossible
  | interrupt vector error =>
      obtain rfl := Except.ok.inj hnext
      exact h.interrupt hpossible
  | syscall back =>
      obtain ⟨m, hrun, rfl⟩ := next_syscall hnext
      exact h.syscall hpossible hrun
  | leave =>
      obtain rfl := Except.ok.inj hnext
      obtain ⟨hcpu, -, f, fs, hfs, -, hesp⟩ := hpossible
      rw [h.leave_eq hfs hesp hcpu, hfs]
      exact h.exit hfs rfl rfl (fun _ => rfl) fun _ _ => rfl
  | syscallLeave =>
      obtain rfl := Except.ok.inj hnext
      obtain ⟨hcpu, -, f, fs, hfs, hkind, hesp⟩ := hpossible
      rw [h.syscallLeave_eq hfs hesp hcpu, hfs]
      refine h.exit hfs rfl rfl (fun _ => rfl) fun a ha => ?_
      have hsize := f.limit_eq (by rw [hkind]; simp)
      have hfit : 72 ≤ frameSize f.cpu := le_frameSize f.cpu
      exact Function.update_of_ne (by omega) _ _
  | switch next =>
      obtain rfl := Except.ok.inj hnext
      obtain ⟨hcpu, hlive, hne, harg, hlow, hhigh⟩ := hpossible
      exact h.switch hcpu hlive hne harg hlow hhigh
  | create task target uid =>
      obtain rfl := Except.ok.inj hnext
      exact h.create hpossible.2 target uid
  | fork child =>
      obtain rfl := Except.ok.inj hnext
      obtain ⟨-, hfree, f, hfs, hkind, huser⟩ := hpossible
      rw [hfs]
      exact h.fork hfree hfs hkind huser
  | reap task =>
      obtain rfl := Except.ok.inj hnext
      exact h.reap hpossible.2
  | toUserMode =>
      obtain rfl := Except.ok.inj hnext
      obtain ⟨hcpu, -, huid, hesp⟩ := hpossible
      exact h.toUserMode hcpu huid hesp
  | execve entry top =>
      obtain rfl := Except.ok.inj hnext
      obtain ⟨-, f, hfs, -, huser⟩ := hpossible
      obtain ⟨mem, heq, hmem⟩ := h.execve_eq entry top hfs huser
      rw [heq]
      exact h.exit hfs rfl rfl (fun hk => absurd huser hk) hmem

theorem Reaches.inv (h : Initial s₀) (hrun : Reaches img s₀ s) : Inv s :=
  Run.invariant (fun _ _ _ hinv _ hstep => hstep.inv hinv) hrun h.inv

/-! ## Where frames come from -/

/-- On the way from `s₀` to `s` the step `a` led from `u` to `u'`. -/
structure Between (img : Image) (s₀ s : State) (a : Act) (u u' : State) : Prop where
  before : Reaches img s₀ u
  step : Step img u a u'
  later : Reaches img u' s

theorem Between.tail {b : Act} (h : Between img s₀ s a u u') (hstep : Step img s b s') :
    Between img s₀ s' a u u' := ⟨h.before, h.step, h.later.tail hstep⟩

/-- The frame `f` came on the stack of `t` above `fs` when `t` ran in the state `u`. -/
structure Entered (u : State) (t : ℕ) (f : Frame) (fs : List Frame) : Prop where
  running : u.running = t
  frames : u.frames t = fs
  cpu : f.cpu = u.cpu
  limit : f.limit = kernelEsp u.cpu u.esp0
  stack : ∀ a, f.limit ≤ a → f.stack a = u.mem a

inductive Origin (img : Image) (s₀ s : State) (t : ℕ) : Frame → List Frame → Prop where
  | interrupt {u u' : State} {vector error : ℕ} {f : Frame} {fs : List Frame}
      (hkind : f.kind = .interrupt) (hbetween : Between img s₀ s (.interrupt vector error) u u')
      (hentered : Entered u t f fs) : Origin img s₀ s t f fs
  | syscall {u u' : State} {back : ℕ} {f : Frame} {fs : List Frame}
      (hkind : f.kind = .syscall) (hbetween : Between img s₀ s (.syscall back) u u')
      (hentered : Entered u t f fs) : Origin img s₀ s t f fs
  | user {u u' : State} {f : Frame} {fs : List Frame} (hkind : f.kind = .user)
      (hbetween : Between img s₀ s .toUserMode u u') (hrunning : u.running = t)
      (hcpu : f.cpu = userCpu) : Origin img s₀ s t f fs
  | switch {u u' : State} {next : ℕ} {f : Frame} {fs : List Frame} (hf : f = switchFrame u)
      (hbetween : Between img s₀ s (.switch next) u u') (hrunning : u.running = t)
      (hframes : u.frames t = fs) : Origin img s₀ s t f fs
  | create {u u' : State} {target uid : ℕ} {f : Frame} (hkind : f.kind = .switch)
      (hbetween : Between img s₀ s (.create t target uid) u u')
      (hcpu : f.cpu = createCpu u.cpu t target) : Origin img s₀ s t f []
  /-- The interrupt frame of a child. -/
  | fork {p p' u u' : State} {back : ℕ} {f : Frame} (hkind : f.kind = .interrupt)
      (hcall : Between img s₀ u (.syscall back) p p') (hparent : p.running = u.running)
      (hbetween : Between img s₀ s (.fork t) u u') (hcpu : f.cpu = { p.cpu with eax := 0 }) :
      Origin img s₀ s t f []
  /-- The first frame of a child. -/
  | forked {p p' u u' : State} {back : ℕ} {f g : Frame} (hkind : f.kind = .switch)
      (hcall : Between img s₀ u (.syscall back) p p') (hparent : p.running = u.running)
      (hbetween : Between img s₀ s (.fork t) u u') (hcpu : f.cpu = forkCpu img u.cpu t)
      (hbase : g.base = t + PAGE_SIZE - INTR_FRAME_SIZE) (hg : g.cpu = { p.cpu with eax := 0 }) :
      Origin img s₀ s t f [g]

theorem Origin.of_syscall (h : Origin img s₀ s t f fs) (hkind : f.kind = .syscall) :
    ∃ u back u', Between img s₀ s (.syscall back) u u' ∧ Entered u t f fs := by
  cases h with
  | syscall _ hbetween hentered => exact ⟨_, _, _, hbetween, hentered⟩
  | interrupt hk => exact absurd (hk.symm.trans hkind) (by simp)
  | user hk => exact absurd (hk.symm.trans hkind) (by simp)
  | switch hf => rw [hf] at hkind; cases hkind
  | create hk => exact absurd (hk.symm.trans hkind) (by simp)
  | fork hk => exact absurd (hk.symm.trans hkind) (by simp)
  | forked hk => exact absurd (hk.symm.trans hkind) (by simp)

def Traced (img : Image) (s₀ s : State) (t : ℕ) : List Frame → Prop
  | [] => True
  | f :: fs => Origin img s₀ s t f fs ∧ Traced img s₀ s t fs

theorem Origin.tail (h : Origin img s₀ s t f fs) (hstep : Step img s a s') :
    Origin img s₀ s' t f fs := by
  cases h with
  | interrupt hkind hbetween hentered => exact .interrupt hkind (hbetween.tail hstep) hentered
  | syscall hkind hbetween hentered => exact .syscall hkind (hbetween.tail hstep) hentered
  | user hkind hbetween hrunning hcpu => exact .user hkind (hbetween.tail hstep) hrunning hcpu
  | switch hf hbetween hrunning hframes =>
      exact .switch hf (hbetween.tail hstep) hrunning hframes
  | create hkind hbetween hcpu => exact .create hkind (hbetween.tail hstep) hcpu
  | fork hkind hcall hparent hbetween hcpu =>
      exact .fork hkind hcall hparent (hbetween.tail hstep) hcpu
  | forked hkind hcall hparent hbetween hcpu hbase hg =>
      exact .forked hkind hcall hparent (hbetween.tail hstep) hcpu hbase hg

theorem Traced.step (h : Traced img s₀ s t fs) (hstep : Step img s a s') :
    Traced img s₀ s' t fs := by
  induction fs with
  | nil => trivial
  | cons f fs ih => exact ⟨h.1.tail hstep, ih h.2⟩

theorem Traced.of_tail (h : Traced img s₀ s t fs) : Traced img s₀ s t fs.tail := by
  cases fs with
  | nil => trivial
  | cons f fs => exact h.2

/-- The frames of one task change at a time. -/
theorem traced_update {frames : ℕ → List Frame} {t₀ : ℕ}
    (h : ∀ t, Traced img s₀ s t (frames t)) (hfs : Traced img s₀ s t₀ fs) :
    ∀ t, Traced img s₀ s t (Function.update frames t₀ fs t) := by
  intro t
  by_cases heq : t = t₀
  · subst heq
    rw [Function.update_self]
    exact hfs
  · rw [Function.update_of_ne heq]
    exact h t

/-- Interrupts and system calls save the processor of the code that they stop. -/
theorem Entry.entered {m : Machine} {kind : Kind} {base : ℕ} (hkind : kind ≠ .switch)
    (h : Entry s.machine m s.esp0 base) :
    Entered s s.running ⟨kind, base, s.cpu, m.mem⟩ (s.frames s.running) := by
  have hlimit : (⟨kind, base, s.cpu, m.mem⟩ : Frame).limit = kernelEsp s.cpu s.esp0 :=
    (Frame.limit_eq hkind).trans h.limit
  refine ⟨rfl, rfl, rfl, hlimit, fun a ha => ?_⟩
  rw [hlimit] at ha
  exact h.above a ha

theorem Inv.room (h : Inv s) {n : ℕ}
    (hroom : s.running + TASK_SIZE + n ≤ if s.cpu.User then s.esp0 else s.cpu.esp) :
    n ≤ kernelEsp s.cpu s.esp0 ∧ kernelEsp s.cpu s.esp0 < 2 ^ 32 := by
  change _ ≤ kernelEsp s.cpu s.esp0 at hroom
  have hfloor := h.kernelEsp_le
  have htop := h.floor_le _ h.running
  have hpage := h.below _ h.running
  omega

theorem Step.traced (hinit : Initial s₀) (hrun : Reaches img s₀ s) (hstep : Step img s a s')
    (h : ∀ t, Traced img s₀ s t (s.frames t)) : ∀ t, Traced img s₀ s' t (s'.frames t) := by
  have hinv := hrun.inv hinit
  have hkeep : ∀ t fs, Traced img s₀ s t fs → Traced img s₀ s' t fs := fun t fs ht => ht.step hstep
  have hold : ∀ t, Traced img s₀ s' t (s.frames t) := fun t => hkeep t _ (h t)
  have hnow : Between img s₀ s' a s s' := ⟨hrun, hstep, .refl s'⟩
  obtain ⟨hpossible, hnext⟩ := hstep
  cases a with
  | work cpu mem =>
      obtain rfl := Except.ok.inj hnext
      exact hold
  | interrupt vector error =>
      obtain rfl := Except.ok.inj hnext
      obtain ⟨hlow, hhigh⟩ := hinv.room hpossible
      have hentry := (interrupt_entry img s.machine s.esp0 vector error hlow hhigh).1
      exact traced_update hold ⟨.interrupt rfl hnow (hentry.entered (by simp)), hold _⟩
  | syscall back =>
      obtain ⟨m, hrun, rfl⟩ := next_syscall hnext
      obtain ⟨hlow, hhigh⟩ := hinv.room hpossible
      obtain ⟨-, hentry, -, -⟩ := syscall_entry (m := s.machine) hlow hhigh hrun
      exact traced_update hold ⟨.syscall rfl hnow (hentry.entered (by simp)), hold _⟩
  | leave =>
      obtain rfl := Except.ok.inj hnext
      exact traced_update hold (hold _).of_tail
  | syscallLeave =>
      obtain rfl := Except.ok.inj hnext
      exact traced_update hold (hold _).of_tail
  | switch next =>
      obtain rfl := Except.ok.inj hnext
      refine traced_update (traced_update hold ⟨.switch rfl hnow rfl rfl, hold _⟩) (hold _).of_tail
  | create task target uid =>
      obtain rfl := Except.ok.inj hnext
      exact traced_update hold ⟨.create rfl hnow rfl, trivial⟩
  | fork child =>
      obtain ⟨-, -, f, hfs, hkind, -⟩ := hpossible
      have hparent := h s.running
      rw [hfs] at hparent
      obtain ⟨p, back, p', hcall, hentered⟩ := hparent.1.of_syscall hkind
      have hcpu : ({ f.cpu with eax := 0 } : Cpu) = { p.cpu with eax := 0 } := by
        rw [hentered.cpu]
      have hframes := congrArg State.frames (Except.ok.inj hnext)
      rw [← hframes, hfs]
      exact traced_update hold ⟨.forked rfl hcall hentered.running hnow rfl rfl hcpu,
        .fork rfl hcall hentered.running hnow hcpu, trivial⟩
  | reap task =>
      obtain rfl := Except.ok.inj hnext
      exact traced_update hold trivial
  | toUserMode =>
      obtain rfl := Except.ok.inj hnext
      exact traced_update hold ⟨.user rfl hnow rfl rfl, trivial⟩
  | execve entry top =>
      obtain rfl := Except.ok.inj hnext
      exact traced_update hold trivial

end Ylos.Switch
