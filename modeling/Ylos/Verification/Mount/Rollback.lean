import Ylos.Verification.Mount.Steps

/-! # `sys_mount` and `sys_umount` that fail -/

namespace Ylos.System

open Exec Refs Mount

variable {y₀ y y' : Sys} {a : Act}

/-- The table of super blocks, the mount fields and the counts are the same. -/
structure Unchanged (s s' : Fs) : Prop where
  dev : ∀ k, (s'.supers k).dev = (s.supers k).dev
  count : ∀ k, (s'.supers k).count = (s.supers k).count
  iroot : ∀ k, (s'.supers k).iroot = (s.supers k).iroot
  imount : ∀ k, (s'.supers k).imount = (s.supers k).imount
  mount : ∀ i, (s.inodes i).count ≠ 0 → (s'.inodes i).mount = (s.inodes i).mount
  inode : ∀ i, (s'.inodes i).count = (s.inodes i).count

/-- Behind every directory that something is mounted on there is a root. -/
def Enterable (s : Fs) : Prop :=
  ∀ i, (s.inodes i).count ≠ 0 → (s.inodes i).mount ≠ 0 →
    ∃ k r, Paths.superOf s (s.inodes i).mount = some k ∧ (s.supers k).iroot = some r ∧
      (s.inodes r).count ≠ 0

def Call.mounts : Call → Bool
  | .fs (.mount ..) | .fs (.umount _) => true
  | _ => false

theorem Same.unchanged {s₀ s : Fs} (h : Same s₀ s) : Unchanged s₀ s where
  dev k := congrArg Slot.dev (h.slots k)
  count k := congrArg Slot.count (h.slots k)
  iroot k := congrArg Slot.iroot (h.slots k)
  imount k := congrArg Slot.imount (h.slots k)
  mount i _ := h.mounts i
  inode i := by simpa using h.count i

theorem Accounted.enterable (h : Accounted y) : Enterable y.fs := by
  intro i _ hmount
  obtain ⟨-, k, hk, hdev, -⟩ := h.tidy.mounted i hmount
  obtain ⟨hlt, -, r, -, hr, -⟩ := h.tidy.active k hdev
  refine ⟨k, r, superOf_eq hlt hk fun l hl => ?_, hr, h.slot_live hdev (.inl hr)⟩
  exact (h.tidy.apart k l hdev (hk.trans hl.symm)).symm

theorem Effect.failed (heffect : Effect y a y') (hcall : a.call.mounts = true)
    (hret : a.ret = .eof) :
    ¬GivesUp y a ∧ Unchanged y.fs y'.fs ∨
      GivesUp y a ∧ ∃ k, (y.fs.supers k).count = 1 ∧ (y'.fs.supers k).count = 0 := by
  cases heffect with
  | same s hp hno =>
      have hsame := Same.unchanged hp
      exact .inl ⟨hno, hsame.dev, hsame.count, hsame.iroot, hsame.imount, hsame.mount, hsame.inode⟩
  | refused s k hyes _ hbefore hafter => exact .inr ⟨hyes, k, hbefore, hafter⟩
  | attached s k r i d hp hc hok => exact absurd (hret.symm.trans hok) nofun
  | detached target i s₁ s l k r m hc hok => exact absurd (hret.symm.trans hok) nofun
  | formatted s k r hc hok => exact absurd (hret.symm.trans hok) nofun
  | moved τ i old s hc =>
      obtain ⟨path, hc | hc⟩ := hc
      · rw [hc] at hcall
        cases hcall
      · rw [hc] at hcall
        cases hcall
  | opened o s f hc =>
      obtain ⟨path, flags, mode, hc⟩ := hc
      rw [hc] at hcall
      cases hcall
  | closed o s f hc =>
      obtain ⟨fd, hc⟩ := hc
      rw [hc] at hcall
      cases hcall

/-- In a run in which no `sys_umount` gives up after it has looked up a super block, a call
to mount or to unmount that fails changes nothing, unless it is such a call itself. -/
theorem failed_call_unchanged (h : Accounted y₀)
    (hrun : Run Step (fun y a => ¬GivesUp y a) y₀ y) (hstep : Step y a y')
    (hcall : a.call.mounts = true) (hret : a.ret = .eof) :
    (Unchanged y.fs y'.fs ∧ Enterable y'.fs) ↔ ¬GivesUp y a := by
  have hy := h.run hrun
  have heffect := step_cases hy hstep
  constructor
  · rintro ⟨hsame, -⟩ hyes
    rcases heffect.failed hcall hret with ⟨hno, -⟩ | ⟨-, k, hbefore, hafter⟩
    · exact hno hyes
    · exact zero_ne_one (hafter.symm.trans ((hsame.count k).trans hbefore))
  · intro hno
    refine ⟨?_, (hy.effect hstep.1 hno heffect).enterable⟩
    rcases heffect.failed hcall hret with ⟨-, hsame⟩ | ⟨hyes, -⟩
    · exact hsame
    · exact absurd hyes hno

/-! ## A file system with a node for its own device -/

/-- The root directory has one entry, `b`, for a block device node with number 1. -/
def nodeImg (_ : ℤ) : ℕ → Bytes
  | 1 => fun j => if j = 0 then 2 else 0
  | 2 => fun j =>
    match j with
    | 0 => 0xED
    | 1 => 0x41
    | 4 => 16
    | 13 => 2
    | 14 => 3
    | 32 => 0x80
    | 33 => 0x61
    | 45 => 1
    | 46 => 1
    | _ => 0
  | 3 => fun j => if j = 0 then 2 else if j = 2 then 98 else 0
  | _ => fun _ => 0

/-- One task at the root of the root file system, and nothing else in core. -/
def lone : Sys where
  fs := { rooted with
    img := nodeImg
    disk := nodeImg
    refs := fun b => if b = ⟨1, 1⟩ ∨ b = ⟨1, 2⟩ then 1 else 0
    inodes := fun i => if i = 0 then ⟨1, 1, 4, 0, ⟨1, 2⟩, 0, false, 0, 0⟩
      else ⟨NODEV, 0, 0, 0, ⟨0, 0⟩, 0, false, 0, 0⟩ }
  procs _ := ⟨rooted.task, none⟩
  files := ⟨fun _ => ⟨none, 0, 0, 0, 0⟩, fun _ _ => none, {0}⟩
  root := 0

theorem lone_inode {i : ℕ} (hi : i ≠ 0) :
    lone.fs.inodes i = ⟨NODEV, 0, 0, 0, ⟨0, 0⟩, 0, false, 0, 0⟩ := if_neg hi

theorem lone_super {k : ℕ} (hk : (lone.fs.supers k).dev ≠ NODEV) : k = 0 := rooted_super hk

theorem lone_live {i : ℕ} (hi : (lone.fs.inodes i).count ≠ 0) : i = 0 := by
  by_contra h
  rw [lone_inode h] at hi
  exact hi rfl

theorem lone_accounted : Accounted lone := by
  have hpipe : ∀ i, (lone.fs.inodes i).pipe = false := by
    intro i
    by_cases h : i = 0
    · rw [h]
      rfl
    · rw [lone_inode h]
  have hroot : InCore lone.fs 0 := ⟨by decide, rfl⟩
  have hlist : ∀ k, ∀ i ∈ (lone.fs.supers k).inodeList, k = 0 ∧ i = 0 := by
    intro k i hi
    by_cases h : k = 0
    · subst h
      exact ⟨rfl, by simpa [lone, rooted] using hi⟩
    · simp [lone, rooted, h] at hi
  refine ⟨⟨fun i hi => ?_, fun i hi => ?_, fun i hi => ?_, fun k => ?_, fun k i hi => ?_⟩,
    ⟨hpipe, fun k l hk hkl => ?_, fun k hk => ?_, fun k hk => ?_, fun i hi => ?_,
      fun k i hk hi hnr => ?_⟩, fun i => ?_, fun t ht => ?_,
    fun _ _ _ h => by cases h⟩
  · rw [lone_live hi]
    decide
  · by_cases h : i = 0
    · subst h
      cases hi
    · rw [lone_inode h]
      exact ⟨rfl, rfl⟩
  · rw [lone_live hi]
    decide
  · by_cases h : k = 0 <;> simp [lone, rooted, h]
  · rw [(hlist k i hi).2]
    exact hroot
  · exact (lone_super hk).trans (lone_super (hkl ▸ hk)).symm
  · rw [lone_super hk]
    exact ⟨by decide, rfl, 0, 0, rfl, rfl, by simp [lone, rooted], rfl⟩
  · have hne : k ≠ 0 := by
      rintro rfl
      exact absurd hk (by decide)
    simp [lone, rooted, hne]
  · refine absurd ?_ hi
    by_cases h : i = 0
    · rw [h]
      rfl
    · rw [lone_inode h]
  · rw [lone_super hk] at hi ⊢
    cases hi
    rfl
  · by_cases h : i = 0
    · subst h
      decide
    · have hplace : ∀ {ρ : Type} {p : ρ → Option ℕ} {R : Finset ρ},
          (∀ r ∈ R, p r = none ∨ p r = some 0) → refCount p R i = 0 := by
        intro ρ p R hp
        refine refCount_eq_zero fun r hr hi => ?_
        rcases hp r hr with hnone | hzero
        · rw [hnone] at hi
          cases hi
        · exact h (Option.some_injective _ (hi.symm.trans hzero))
      have hslot : ∀ k ∈ Finset.range SUPER_NR, ∀ g : Slot → Option ℕ,
          g (slots lone.fs 0) = some 0 → (∀ v : Slot, v.dev = NODEV → g v = none) →
          g (slots lone.fs k) = none ∨ g (slots lone.fs k) = some 0 := by
        intro k _ g hzero hfree
        by_cases hk : k = 0
        · rw [hk]
          exact .inr hzero
        · refine .inl (hfree _ ?_)
          by_contra hdev
          exact hk (lone_super hdev)
      have hroots : refCount (fun t => some (lone.procs t).task.iroot) lone.files.live i = 0 :=
        hplace fun _ _ => .inr rfl
      have hpwds : refCount (fun t => some (lone.procs t).task.ipwd) lone.files.live i = 0 :=
        hplace fun _ _ => .inr rfl
      have hexecs : refCount (fun t => (lone.procs t).iexec) lone.files.live i = 0 :=
        hplace fun _ _ => .inl rfl
      have hfiles : refCount (filed lone.files) (Finset.range Files.FILE_NR) i = 0 :=
        hplace fun _ _ => .inl rfl
      have htops : refCount (fun k => rootOf (slots lone.fs k)) (Finset.range SUPER_NR) i = 0 :=
        hplace fun k hk => hslot k hk rootOf rfl fun v hv => if_pos hv
      have hmounts : refCount (fun k => mountOf (slots lone.fs k)) (Finset.range SUPER_NR) i = 0 :=
        hplace fun k hk => hslot k hk mountOf rfl fun v hv => if_pos hv
      unfold Sys.holders taskRefs fileRefs slotRefs
      rw [lone_inode h, hroots, hpwds, hexecs, hfiles, htops, hmounts]
  · obtain rfl : t = 0 := by simpa [lone] using ht
    decide

/-- Mounting `/`, which is no device, fails. -/
theorem lone_mount_fails :
    ∃ y', Step lone ⟨0, 0, .fs (.mount [47] [47]), .eof⟩ y' ∧
      ((Unchanged lone.fs y'.fs ∧ Enterable y'.fs) ↔
        ¬GivesUp lone ⟨0, 0, .fs (.mount [47] [47]), .eof⟩) := by
  have hstep : ∃ y', Step lone ⟨0, 0, .fs (.mount [47] [47]), .eof⟩ y' := ⟨_, by decide, rfl⟩
  obtain ⟨y', hstep⟩ := hstep
  exact ⟨y', hstep, failed_call_unchanged lone_accounted .refl hstep rfl rfl⟩

/-- `umount /b` is refused, because the device is in use, and takes the super block of the
root file system away. -/
theorem failed_umount_releases_super :
    ¬∀ y₀ y a y', Accounted y₀ → Run Step (fun _ _ => True) y₀ y → Step y a y' →
      a.call.mounts = true → a.ret = .eof → Unchanged y.fs y'.fs ∧ Enterable y'.fs := by
  intro hclaim
  have hreleases : returnsBool (sysUmount 0 [47, 98])
      (fun ret s => decide (ret = .eof ∧ (s.supers 0).count = 0)) lone.fs = true := by decide
  obtain ⟨ret, s, l, hrun, hend⟩ := returns_of_bool hreleases
  obtain ⟨rfl, hcount⟩ := of_decide_eq_true hend
  have hstep : Step lone ⟨0, 0, .fs (.umount [47, 98]), .eof⟩ (lone.leave 0 s) := by
    refine ⟨by decide, ?_⟩
    unfold Sys.call
    change ((sysUmount 0 [47, 98]).run lone.fs >>= _) = _
    rw [hrun]
    rfl
  have hsame := (hclaim lone lone _ _ lone_accounted .refl hstep rfl rfl).1.count 0
  exact zero_ne_one (hcount.symm.trans hsame)

end Ylos.System
