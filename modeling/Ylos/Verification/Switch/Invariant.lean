import Ylos.Verification.Switch.Stubs

/-! # What every task has on its kernel stack -/

namespace Ylos.Switch

variable {s : State} {f g : Frame} {fs : List Frame} {mem mem' : ℕ → ℕ} {t top lo : ℕ}

/-- The memory of a frame brings back its processor. -/
def Frame.Brings (f : Frame) : Prop :=
  match f.kind with
  | .switch => Words.Holds f.stack f.base (taskFrame f.cpu) ∧ f.cpu.esp = f.limit
  | _ => (∃ v d v₀ e, Words.Holds f.stack f.base (intrFrame f.cpu v d v₀ e)) ∧
      (¬f.cpu.User → f.cpu.esp = f.limit ∧ f.cpu.cs = KERNEL_CODE_SELECTOR ∧
        f.cpu.ss = KERNEL_DATA_SELECTOR)

/-- The frames lie one above the other from `lo` to `top`, each in a part of the stack that
nobody has touched since. A frame of user code is the uppermost. -/
def Stacked (mem : ℕ → ℕ) (top : ℕ) : (lo : ℕ) → List Frame → Prop
  | lo, [] => lo ≤ top
  | lo, f :: fs => lo ≤ f.base ∧ f.Brings ∧ (∀ a, f.base ≤ a → a < top → mem a = f.stack a) ∧
      (f.kind ≠ .switch → f.cpu.User → f.limit = top) ∧ Stacked mem top f.limit fs

/-- Where the lowest frame begins. -/
def lowest (top : ℕ) (fs : List Frame) : ℕ := (fs.head?.map (·.base)).getD top

theorem State.floor_eq (s : State) (t : ℕ) : s.floor t = lowest (t + PAGE_SIZE) (s.frames t) := rfl

theorem Frame.base_lt (f : Frame) : f.base + 20 ≤ f.limit := by
  unfold Frame.limit TASK_FRAME_SIZE INTR_FRAME_SIZE
  split
  · exact le_rfl
  · split
    · omega
    · omega

theorem Stacked.le_lowest (h : Stacked mem top lo fs) : lo ≤ lowest top fs := by
  cases fs with
  | nil => exact h
  | cons f fs => exact h.1

theorem Stacked.lowest_le (h : Stacked mem top lo fs) : lowest top fs ≤ top := by
  induction fs generalizing lo with
  | nil => exact le_rfl
  | cons f fs ih =>
      obtain ⟨-, -, -, -, hrest⟩ := h
      have hsize := f.base_lt
      have hle := hrest.le_lowest
      have htop := ih hrest
      change f.base ≤ top
      omega

theorem Stacked.raise (h : Stacked mem top lo fs) {lo' : ℕ} (hlo : lo' ≤ lowest top fs) :
    Stacked mem top lo' fs := by
  cases fs with
  | nil => exact hlo
  | cons f fs => exact ⟨hlo, h.2⟩

/-- Code that leaves the frames alone keeps them. -/
theorem Stacked.congr (h : Stacked mem top lo fs)
    (heq : ∀ a, lowest top fs ≤ a → a < top → mem' a = mem a) : Stacked mem' top lo fs := by
  induction fs generalizing lo with
  | nil => exact h
  | cons f fs ih =>
      obtain ⟨hlo, hbrings, hstack, huser, hrest⟩ := h
      refine ⟨hlo, hbrings, ?_, huser, ih hrest ?_⟩
      · intro a ha hlt
        rw [heq a ha hlt]
        exact hstack a ha hlt
      · intro a ha hlt
        have hsize := f.base_lt
        have hle := hrest.le_lowest
        exact heq a (by change f.base ≤ a; omega) hlt

/-- Nothing lies above the frame of user code. -/
theorem Stacked.eq_nil (h : Stacked mem top top fs) : fs = [] := by
  cases fs with
  | nil => rfl
  | cons f fs =>
      obtain ⟨hlo, -, -, -, hrest⟩ := h
      have hsize := f.base_lt
      have hle := hrest.le_lowest
      have htop := hrest.lowest_le
      omega

structure Inv (s : State) : Prop where
  running : s.live s.running = true
  aligned : ∀ t, s.live t = true → t % PAGE_SIZE = 0
  below : ∀ t, s.live t = true → t + PAGE_SIZE < 2 ^ 32
  stacked : ∀ t, s.live t = true → Stacked s.mem (t + PAGE_SIZE) (t + TASK_SIZE) (s.frames t)
  /-- A task that does not run has left its stack through `task_switch`. -/
  suspended : ∀ t, s.live t = true → t ≠ s.running →
    ∃ f fs, s.frames t = f :: fs ∧ f.kind = .switch ∧ f.base = s.mem t ∧ ∀ g ∈ fs, g.kind ≠ .switch
  serving : ∀ g ∈ s.frames s.running, g.kind ≠ .switch
  users : ∀ t, s.live t = true → ∀ f ∈ s.frames t, f.kind ≠ .switch → f.cpu.User →
    s.mem (t + UID) ≠ KERNEL_USER
  esp0 : s.mem (s.running + UID) ≠ KERNEL_USER → s.esp0 = s.running + PAGE_SIZE
  user : s.cpu.User → s.frames s.running = [] ∧ s.mem (s.running + UID) ≠ KERNEL_USER
  kernel : ¬s.cpu.User → s.cpu.cs = KERNEL_CODE_SELECTOR ∧ s.cpu.ss = KERNEL_DATA_SELECTOR ∧
    s.running + TASK_SIZE ≤ s.cpu.esp ∧ s.cpu.esp ≤ s.floor s.running

/-- The pages of two tasks are apart. -/
theorem Inv.apart (h : Inv s) {t t' : ℕ} (ht : s.live t = true) (ht' : s.live t' = true)
    (hne : t ≠ t') : t + PAGE_SIZE ≤ t' ∨ t' + PAGE_SIZE ≤ t := by
  have hmod := h.aligned t ht
  have hmod' := h.aligned t' ht'
  unfold PAGE_SIZE at *
  omega

theorem Initial.inv (h : Initial s) : Inv s where
  running := (h.live _).mpr rfl
  aligned t ht := (h.live t).mp ht ▸ h.aligned
  below t ht := (h.live t).mp ht ▸ h.below
  stacked t ht := by
    rw [h.frames]
    change t + TASK_SIZE ≤ t + PAGE_SIZE
    unfold TASK_SIZE PAGE_SIZE
    omega
  suspended t ht hne := absurd ((h.live t).mp ht) hne
  serving g hg := by
    rw [h.frames] at hg
    cases hg
  users t ht f hf := by
    rw [h.frames] at hf
    cases hf
  esp0 huser := absurd h.user huser
  user huser := by
    unfold Cpu.User at huser
    rw [h.cs] at huser
    cases huser
  kernel _ := by
    refine ⟨h.cs, h.ss, h.low, ?_⟩
    rw [s.floor_eq, h.frames]
    exact h.high

end Ylos.Switch
