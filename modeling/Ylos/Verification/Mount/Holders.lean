import Ylos.Lib.RefCount
import Ylos.Model.System
import Ylos.Verification.Mount.Calls

/-! # Who refers to the inodes

Tasks refer to their root, their current directory and their executable, files to the inode
they were opened on, and super blocks to their root and to their mount point. -/

namespace Ylos.System

open Exec Refs Mount

/-- The inode that an entry of the file table refers to. -/
def filed (f : Files.State) (n : ℕ) : Option ℕ :=
  if (f.fileTable n).count = 0 then none else (f.fileTable n).inode

def rootOf (v : Slot) : Option ℕ := if v.dev = NODEV then none else v.iroot

def mountOf (v : Slot) : Option ℕ := if v.dev = NODEV then none else v.imount

def taskRefs (live : Finset ℕ) (procs : ℕ → Proc) (i : ℕ) : ℕ :=
  refCount (fun t => some (procs t).task.iroot) live i +
    refCount (fun t => some (procs t).task.ipwd) live i +
    refCount (fun t => (procs t).iexec) live i

def fileRefs (f : Files.State) (i : ℕ) : ℕ := refCount (filed f) (Finset.range Files.FILE_NR) i

def slotRefs (sb : ℕ → Slot) (i : ℕ) : ℕ :=
  refCount (fun k => rootOf (sb k)) (Finset.range SUPER_NR) i +
    refCount (fun k => mountOf (sb k)) (Finset.range SUPER_NR) i

def Sys.holders (y : Sys) (i : ℕ) : ℕ :=
  taskRefs y.files.live y.procs i + fileRefs y.files i + slotRefs (slots y.fs) i

/-- Between two calls every count is the number of those that refer to the inode. What
`super_init`, `dev_init` and `task_create` leave is such a state. -/
structure Accounted (y : Sys) : Prop where
  sound : Sound y.fs
  tidy : Tidy y.fs
  count : ∀ i, (y.fs.inodes i).count = y.holders i
  tasks : ∀ t ∈ y.files.live, t < Files.NR_TASKS
  fds : ∀ t fd n, y.files.files t fd = some n → n < Files.FILE_NR

variable {y y' : Sys} {t now i k : ℕ} {s s' : Fs} {gained lost : List ℕ} {sb : ℕ → Slot}
  {mt : ℕ → ℤ}

theorem refCount_le_card {ρ φ : Type} [DecidableEq φ] (p : ρ → Option φ) (R : Finset ρ) (f : φ) :
    refCount p R f ≤ R.card :=
  Finset.card_filter_le _ _

/-! ## Moving references -/

theorem slotRefs_update (sb : ℕ → Slot) (hk : k < SUPER_NR) (v : Slot) (i : ℕ) :
    slotRefs (Function.update sb k v) i + hit (rootOf (sb k)) i + hit (mountOf (sb k)) i =
      slotRefs sb i + hit (rootOf v) i + hit (mountOf v) i := by
  have hother : ∀ {g : Slot → Option ℕ}, ∀ l ∈ Finset.range SUPER_NR, l ≠ k →
      g (Function.update sb k v l) = g (sb l) := fun l _ hl => by rw [Function.update_of_ne hl]
  have hroot := refCount_retarget (p := fun k => rootOf (sb k))
    (q := fun l => rootOf (Function.update sb k v l)) (f := i) (Finset.mem_range.mpr hk) hother
  have hmount := refCount_retarget (p := fun k => mountOf (sb k))
    (q := fun l => mountOf (Function.update sb k v l)) (f := i) (Finset.mem_range.mpr hk) hother
  simp only [Function.update_self] at hroot hmount
  unfold slotRefs
  omega

theorem taskRefs_leave (ht : t ∈ y.files.live) (s : Fs) (i : ℕ) :
    taskRefs y.files.live (y.leave t s).procs i + hit (some (y.procs t).task.iroot) i +
        hit (some (y.procs t).task.ipwd) i =
      taskRefs y.files.live y.procs i + hit (some s.task.iroot) i + hit (some s.task.ipwd) i := by
  have hself : (y.leave t s).procs t = { y.procs t with task := s.task } := if_pos rfl
  have hother : ∀ {α : Type} {g : Proc → Option α}, ∀ u ∈ y.files.live, u ≠ t →
      g ((y.leave t s).procs u) = g (y.procs u) := by
    intro α g u _ hu
    exact congrArg g (if_neg hu)
  have hroot := refCount_retarget (p := fun u => some (y.procs u).task.iroot)
    (q := fun u => some ((y.leave t s).procs u).task.iroot) (f := i) ht
    (hother (g := fun v => some v.task.iroot))
  have hpwd := refCount_retarget (p := fun u => some (y.procs u).task.ipwd)
    (q := fun u => some ((y.leave t s).procs u).task.ipwd) (f := i) ht
    (hother (g := fun v => some v.task.ipwd))
  have hexec : refCount (fun u => ((y.leave t s).procs u).iexec) y.files.live i =
      refCount (fun u => (y.procs u).iexec) y.files.live i := by
    refine refCount_congr fun u hu => ?_
    by_cases hut : u = t
    · rw [hut, hself]
    · exact hother (g := Proc.iexec) u hu hut
  simp only [hself] at hroot hpwd
  unfold taskRefs
  omega

/-! ## States between two calls -/

theorem slotRefs_pos (sb : ℕ → Slot) (hk : k < SUPER_NR) (hdev : (sb k).dev ≠ NODEV)
    (hi : (sb k).iroot = some i ∨ (sb k).imount = some i) : 0 < slotRefs sb i := by
  unfold slotRefs
  rcases hi with hi | hi
  · have hpos := refCount_pos (p := fun k => rootOf (sb k)) (Finset.mem_range.mpr hk)
      (show rootOf (sb k) = some i by rw [rootOf, if_neg hdev, hi])
    omega
  · have hpos := refCount_pos (p := fun k => mountOf (sb k)) (Finset.mem_range.mpr hk)
      (show mountOf (sb k) = some i by rw [mountOf, if_neg hdev, hi])
    omega

namespace Accounted

variable (h : Accounted y)

include h

theorem slot_live (hdev : (y.fs.supers k).dev ≠ NODEV)
    (hi : (y.fs.supers k).iroot = some i ∨ (y.fs.supers k).imount = some i) :
    (y.fs.inodes i).count ≠ 0 := by
  have hpos := slotRefs_pos (slots y.fs) (h.tidy.active k hdev).1 hdev hi
  have hcount := h.count i
  unfold Sys.holders at hcount
  omega

theorem few (i : ℕ) : (y.fs.inodes i).count < 2 ^ 31 := by
  have hcard : y.files.live.card ≤ Files.NR_TASKS := by
    have hsub : y.files.live ⊆ Finset.range Files.NR_TASKS := fun t ht =>
      Finset.mem_range.mpr (h.tasks t ht)
    simpa using Finset.card_le_card hsub
  have hroot := refCount_le_card (fun t => some (y.procs t).task.iroot) y.files.live i
  have hpwd := refCount_le_card (fun t => some (y.procs t).task.ipwd) y.files.live i
  have hexec := refCount_le_card (fun t => (y.procs t).iexec) y.files.live i
  have hfile := refCount_le_card (filed y.files) (Finset.range Files.FILE_NR) i
  have hroots := refCount_le_card (fun k => rootOf (slots y.fs k)) (Finset.range SUPER_NR) i
  have hmounts := refCount_le_card (fun k => mountOf (slots y.fs k)) (Finset.range SUPER_NR) i
  rw [Finset.card_range] at hfile hroots hmounts
  rw [h.count]
  unfold Sys.holders taskRefs fileRefs slotRefs
  have htasks : Files.NR_TASKS = 64 := rfl
  have hfiles : Files.FILE_NR = 128 := rfl
  have hsupers : SUPER_NR = 16 := rfl
  omega

theorem free (hi : (y.fs.inodes i).count = 0) : (y.fs.inodes i).mount = 0 := by
  by_contra hmount
  obtain ⟨-, k, -, hdev, himount⟩ := h.tidy.mounted i hmount
  exact h.slot_live hdev (.inr himount) hi

theorem place_live (ht : t ∈ y.files.live)
    (hi : (y.procs t).task.iroot = i ∨ (y.procs t).task.ipwd = i) :
    (y.fs.inodes i).count ≠ 0 := by
  have hcount := h.count i
  unfold Sys.holders taskRefs at hcount
  rcases hi with hi | hi
  · have hpos := refCount_pos (p := fun t => some (y.procs t).task.iroot) ht (by rw [hi])
    omega
  · have hpos := refCount_pos (p := fun t => some (y.procs t).task.ipwd) ht (by rw [hi])
    omega

/-- A call may start. -/
theorem wellFormed (ht : t ∈ y.files.live) (now : ℕ) : WellFormed (y.enter t now) where
  sound := ⟨h.sound.slot, h.sound.free, h.sound.used, h.sound.nodup, h.sound.listed⟩
  free i hi := h.free hi
  few := h.few
  iroot k i hdev hi := ⟨h.slot_live hdev (.inl hi), h.tidy.pipe i⟩
  imount k i hdev hi := ⟨h.slot_live hdev (.inr hi), h.tidy.pipe i⟩
  top k i hdev hi hnr l hl := by
    have hkl : k = l := h.tidy.apart k l hdev ((h.tidy.top k i hdev hi hnr).symm.trans hl.symm)
    rw [← hkl]
    exact hi
  root := ⟨h.place_live ht (.inl rfl), h.tidy.pipe _⟩
  pwd := ⟨h.place_live ht (.inr rfl), h.tidy.pipe _⟩

theorem enter_tidy (t now : ℕ) : Tidy (y.enter t now) :=
  ⟨h.tidy.pipe, h.tidy.apart, h.tidy.active, h.tidy.idle, h.tidy.mounted, h.tidy.top⟩

theorem backed (t now : ℕ) : Backed (y.enter t now) := by
  intro k hdev i
  have hk := (h.tidy.active k hdev).1
  have hcount := h.count i
  have hupdate := slotRefs_update (slots y.fs) hk ⟨NODEV, 0, none, none⟩ i
  have hroot : rootOf (slots y.fs k) = (y.fs.supers k).iroot := if_neg hdev
  have hmount : mountOf (slots y.fs k) = (y.fs.supers k).imount := if_neg hdev
  rw [hroot, hmount] at hupdate
  unfold Sys.holders at hcount
  change hit (y.fs.supers k).iroot i + hit (y.fs.supers k).imount i ≤ (y.fs.inodes i).count
  rw [hcount]
  simp only [rootOf, mountOf, if_true, hit_none] at hupdate
  omega

end Accounted

end Ylos.System
