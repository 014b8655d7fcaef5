import Ylos.Lib.Keeps
import Ylos.Verification.Mount.Rollback

/-! # File systems in use -/

namespace Ylos.System

open Exec Refs Mount

variable {y₀ y y' : Sys} {a : Act} {s₀ s s' : Fs} {held : List ℕ} {bufs : List BufRef}
  {i k r : ℕ} {d : ℤ}

/-! ## The lists of the super blocks -/

/-- Every inode in core is on the list of the super block of its device. -/
def Housed (s : Fs) : Prop := ∀ i, (s.inodes i).count ≠ 0 → Homed s i

/-- What is in core has been there before, and no list in use has got another device. -/
theorem Housed.persist (h : Housed s)
    (hold : ∀ i, (s'.inodes i).count ≠ 0 → (s.inodes i).count ≠ 0) (hpersist : Persist s s')
    (hdev : ∀ k i, (s'.inodes i).count ≠ 0 → i ∈ (s.supers k).inodeList →
      (s'.supers k).dev = (s.supers k).dev) : Housed s' := by
  intro i hi
  have hstays := hpersist i (hold i hi) hi
  obtain ⟨⟨k, hk⟩, hown⟩ := h i (hold i hi)
  refine ⟨⟨k, (hstays.lists k).mpr hk⟩, fun l hl => ?_⟩
  have hl := (hstays.lists l).mp hl
  rw [hdev l i hi hl, hown l hl, hstays.dev]

theorem Housed.phase {sb : ℕ → Slot} {mt : ℕ → ℤ} {lost : List ℕ} (h : Housed s₀)
    (hp : Phase s₀ [] lost sb mt s)
    (hdev : ∀ k i, (s.inodes i).count ≠ 0 → i ∈ (s₀.supers k).inodeList →
      (sb k).dev = (s₀.supers k).dev) : Housed s := by
  refine h.persist (fun i hi => ?_) hp.persist fun k i hi hk => ?_
  · have hcount := hp.count i
    rw [List.count_nil] at hcount
    omega
  · exact (congrArg Slot.dev (hp.slots k)).trans (hdev k i hi hk)

theorem Housed.ledger (h : Housed s₀) (hl : Ledger s₀ held bufs s) : Housed s := by
  have hdev : ∀ k, (s.supers k).dev = (s₀.supers k).dev := fun k =>
    congrArg (·.1) (hl.mounting k)
  intro i hi
  by_cases hnew : (s₀.inodes i).count = 0
  · exact ⟨hl.listing.listed i hnew hi, fun k hk => (hl.listing.entered k i hnew hk).1⟩
  · obtain ⟨⟨k, hk⟩, hown⟩ := h i hnew
    refine ⟨⟨k, (hl.listing.lists k i hnew hi).mpr hk⟩, fun l hmem => ?_⟩
    have hsame : (s.inodes i).dev = (s₀.inodes i).dev := congrArg (·.1) (hl.ident i hnew)
    rw [hdev, hsame, hown l ((hl.listing.lists l i hnew hi).mp hmem)]

/-- `iput` of a reference that is counted. -/
theorem Housed.wp_iput {gained lost : List ℕ} {sb : ℕ → Slot} {mt : ℕ → ℤ} (h : Housed s)
    (hp : Phase s₀ gained lost sb mt s)
    (hi : lost.count i < (s₀.inodes i).count + gained.count i) :
    wp (fun _ => True) (iput (some i)) (fun _ => Housed) s := by
  refine hp.wp_iput hi fun s' hp' hpersist => h.persist (fun j hj => ?_) hpersist fun k j _ _ => ?_
  · have hbefore := hp.count j
    have hafter := hp'.count j
    rw [List.count_cons] at hafter
    omega
  · exact congrArg Slot.dev ((hp'.slots k).trans (hp.slots k).symm)

theorem housed_sysChdir {path : Path} (hwf : WellFormed s) (htidy : Tidy s) (h : Housed s) :
    wp (fun _ => True) (sysChdir path) (fun _ => Housed) s := by
  unfold sysChdir
  rw [wp_bind]
  refine wp_mono (wp_namei hwf.ledger (by decide)) fun o s₁ h₁ => ?_
  cases o with
  | none => exact wp_rollback_then h₁ fun s' h' => h.ledger h'
  | some i =>
      have h₁' : Ledger s [i] [] s₁ := h₁
      simp only [wp_bind, wp_gets, wp_ite]
      refine (neutral_getField i _).wp h₁'.within fun mode s₂ h₂ => ?_
      refine ⟨fun _ => wp_rollback_then h₂.toLedger fun s' h' => h.ledger h', fun _ => ?_⟩
      rw [wp_lift]
      intro pwd _
      have hphase := Phase.of_ledger h₂.toLedger htidy.pipe
      rw [wp_modify, h₁'.ipwd]
      have hphase' : Phase s [i] [] (slots s) (mounts s)
          { s₂ with task := { s₂.task with pwd := pwd } } := hphase.retask hphase.iroot hphase.ipwd
      have h₂' : Housed s₂ := h.ledger h₂.toLedger
      refine wp_mono (Housed.wp_iput (fun i hi => h₂' i hi) hphase' ?_) fun _ s₃ h₃ => ?_
      · have hpwd := hwf.pwd.1
        rw [List.count_nil]
        omega
      · rw [wp_modify]
        exact (wp_pure _).mpr h₃

theorem housed_sysChroot {path : Path} (hwf : WellFormed s) (htidy : Tidy s) (h : Housed s) :
    wp (fun _ => True) (sysChroot path) (fun _ => Housed) s := by
  unfold sysChroot
  rw [wp_bind]
  refine wp_mono (wp_namei hwf.ledger (by decide)) fun o s₁ h₁ => ?_
  cases o with
  | none => exact wp_rollback_then h₁ fun s' h' => h.ledger h'
  | some i =>
      have h₁' : Ledger s [i] [] s₁ := h₁
      simp only [wp_bind, wp_gets, wp_ite]
      refine (neutral_getField i _).wp h₁'.within fun mode s₂ h₂ => ?_
      refine ⟨fun _ => wp_rollback_then h₂.toLedger fun s' h' => h.ledger h', fun _ => ?_⟩
      have hphase := Phase.of_ledger h₂.toLedger htidy.pipe
      rw [h₁'.iroot]
      refine wp_mono ((h.ledger h₂.toLedger).wp_iput hphase ?_) fun _ s₃ h₃ => ?_
      · have hroot := hwf.root.1
        rw [List.count_nil]
        omega
      · rw [wp_modify]
        exact (wp_pure _).mpr h₃

/-! ## The calls that take a file system away -/

/-- `sys_umount`, led to `i`, does not stop before it has looked up the super block `k`. -/
def Reaches (root : ℕ) (s : Fs) (i k : ℕ) : Prop :=
  (isBlk (s.desc i .mode) = true ∨ (s.inodes i).nr = 1) ∧ (s.supers root).imount ≠ some i ∧
    Paths.superOf s (umountDev s i) = some k

/-- The argument of a call of `sys_umount` leads to `i` in the state `s`. -/
def Unmounts (y : Sys) (a : Act) (i : ℕ) (s : Fs) : Prop :=
  ∃ target l, a.call = .fs (.umount target) ∧
    (namei target).run (y.enter a.task a.now) = .ok (some i, s, l)

/-- The argument of a call of `sys_mkfs` leads to `i` in the state `s`. -/
def Formats (y : Sys) (a : Act) (i : ℕ) (s : Fs) : Prop :=
  ∃ devname n l, a.call = .fs (.mkfs devname n) ∧
    (namei devname).run (y.enter a.task a.now) = .ok (some i, s, l)

/-- The call has unmounted or formatted the device. -/
def TakesAway (y : Sys) (a : Act) (d : ℤ) : Prop :=
  a.ret = .ok ∧ ∃ i s, Unmounts y a i s ∧ d = umountDev s i ∨ Formats y a i s ∧ d = s.desc i (.zone 0)

/-- A task or an open file refers to the inode. -/
def Uses (y : Sys) (i : ℕ) : Prop :=
  (∃ t ∈ y.files.live, (y.procs t).task.iroot = i ∨ (y.procs t).task.ipwd = i ∨
    (y.procs t).iexec = some i) ∨
  ∃ n < Files.FILE_NR, filed y.files n = some i

def InUse (y : Sys) (d : ℤ) : Prop := ∃ i, Uses y i ∧ (y.fs.inodes i).dev = d

/-- What the code would have to check: `sys_umount` is not called while the list of the device has
other inodes than the root, nor while the root has other references than that of the super
block, and `sys_mkfs` is not called for a device with a super block. -/
structure Careful (y : Sys) (a : Act) : Prop where
  clean : ¬GivesUp y a
  root : ∀ i s k r, Unmounts y a i s → Reaches y.root s i k → (y.fs.supers k).iroot = some r →
    (y.fs.inodes r).count = 1
  unmounted : ∀ i s, Formats y a i s → isBlk (s.desc i .mode) = true →
    ∀ k, (y.fs.supers k).dev ≠ s.desc i (.zone 0)

theorem Uses.count (h : Accounted y) (hi : Uses y i) :
    1 + slotRefs (slots y.fs) i ≤ (y.fs.inodes i).count := by
  have hcount := h.count i
  unfold Sys.holders taskRefs fileRefs at hcount
  rcases hi with ⟨t, ht, hroot | hpwd | hexec⟩ | ⟨n, hn, hfile⟩
  · have hpos := refCount_pos (p := fun t => some (y.procs t).task.iroot) ht (by rw [hroot])
    omega
  · have hpos := refCount_pos (p := fun t => some (y.procs t).task.ipwd) ht (by rw [hpwd])
    omega
  · have hpos := refCount_pos (p := fun t => (y.procs t).iexec) ht hexec
    omega
  · have hpos := refCount_pos (p := filed y.files) (Finset.mem_range.mpr hn) hfile
    omega

/-- A device in use has a super block, and the inode is on its list. -/
theorem InUse.listed (h : Accounted y) (hhoused : Housed y.fs) (hd : InUse y d) :
    ∃ i k, Uses y i ∧ (y.fs.supers k).dev = d ∧ (y.fs.supers k).dev ≠ NODEV ∧
      i ∈ (y.fs.supers k).inodeList ∧ (y.fs.inodes i).count ≠ 0 := by
  obtain ⟨i, hi, hdev⟩ := hd
  have hlive : (y.fs.inodes i).count ≠ 0 := by
    have hcount := hi.count h
    omega
  obtain ⟨⟨k, hk⟩, hown⟩ := hhoused i hlive
  have hsame := hown k hk
  exact ⟨i, k, hi, hsame.trans hdev, hsame.trans_ne (h.sound.used i hlive).1, hk, hlive⟩

theorem umountRollback_ret (ret : Ret) (super : Option ℕ) (i : ℕ) (s : Fs) :
    wp (fun _ => True) (umountRollback ret super i) (fun r _ => r = ret) s := by
  unfold umountRollback
  cases super with
  | none => exact wp_rest fun _ _ => (wp_pure _).mpr rfl
  | some k => exact wp_rest fun _ _ => wp_rest fun _ _ => (wp_pure _).mpr rfl

/-- A call of `sys_umount` that succeeds has passed its first checks. -/
theorem reaches_of_ok {root : ℕ} {target : Path} {l l' : List Event}
    (hrun : (sysUmount root target).run s₀ = .ok (.ok, s', l))
    (hnamei : (namei target).run s₀ = .ok (some i, s, l')) (hk : Paths.superOf s (umountDev s i) = some k) :
    Reaches root s i k := by
  unfold sysUmount at hrun
  obtain ⟨o, s₁, l₁, l₂, hfirst, hrest, -⟩ := bind_eq_ok.mp hrun
  rw [hnamei] at hfirst
  cases hfirst
  obtain ⟨mode, s₂, l₃, l₄, hmode, hrest, -⟩ := bind_eq_ok.mp hrest
  cases hmode
  obtain ⟨inode, s₃, l₅, l₆, hinode, hrest, -⟩ := bind_eq_ok.mp hrest
  cases hinode
  dsimp only at hrest
  split at hrest
  · exact absurd (umountRollback_ret _ _ _ _ _ _ _ hrest fun _ _ => trivial) nofun
  · rename_i hfirst
    obtain ⟨top, s₄, l₇, l₈, htop, hrest, -⟩ := bind_eq_ok.mp hrest
    cases htop
    split at hrest
    · exact absurd (umountRollback_ret _ _ _ _ _ _ _ hrest fun _ _ => trivial) nofun
    · rename_i hsecond
      refine ⟨?_, hsecond, hk⟩
      by_cases hblk : isBlk (s.desc i .mode) = true
      · exact .inl hblk
      · refine .inr (by_contra fun hnr => hfirst ⟨by simpa using hblk, hnr⟩)

/-! ## One call -/

/-- In the state that the argument is looked up in, the list of the super block has the root and the
inode of any user. -/
theorem mem_list_looked_up (h : Accounted y) (hledger : Ledger (y.enter a.task a.now) held bufs s)
    (hi : i ∈ (y.fs.supers k).inodeList) : i ∈ (s.supers k).inodeList := by
  have hlive₀ : (y.fs.inodes i).count ≠ 0 := (h.sound.listed k i hi).1
  have hcount : (s.inodes i).count = (y.fs.inodes i).count + held.count i := hledger.count i
  exact (hledger.listing.lists k i hlive₀ (by omega)).mpr hi

/-- A list of one has one member. -/
theorem eq_of_short {l : List ℕ} {j : ℕ} (h : l.length ≤ 1) (hi : i ∈ l) (hj : j ∈ l) : i = j := by
  cases l with
  | nil => cases hi
  | cons b l =>
      obtain rfl : l = [] := List.length_eq_zero_iff.mp (by simpa using h)
      rw [List.mem_singleton.mp hi, List.mem_singleton.mp hj]

/-- Nothing but the root is on the list, and it goes out of core. -/
theorem Housed.detached {m : ℕ} (h : Accounted y) (hhoused : Housed y.fs)
    (hledger : Ledger (y.enter a.task a.now) held bufs s)
    (hshort : (s.supers k).inodeList.length ≤ 1) (hroot : (y.fs.inodes r).count = 1)
    (hp : Detached (y.enter a.task a.now) k r m s') : Housed s' := by
  have hhoused' : Housed (y.enter a.task a.now) := fun i hi => hhoused i hi
  refine hhoused'.phase hp.phase fun l i hi hl => ?_
  by_cases hlk : l = k
  · subst hlk
    -- then `i` would be the root
    obtain ⟨-, -, r', -, hr', -, hmem, -⟩ := h.tidy.active l hp.active
    obtain rfl : r = r' := Option.some_injective _ (hp.iroot.symm.trans hr')
    obtain rfl := eq_of_short hshort (mem_list_looked_up h hledger hl)
      (mem_list_looked_up h hledger hmem)
    have hcount : (s'.inodes i).count + [i, m].count i = (y.fs.inodes i).count + [].count i :=
      hp.phase.count i
    rw [List.count_cons_self, List.count_nil] at hcount
    omega
  · rw [Function.update_of_ne hlk]
    rfl

theorem Housed.attached {m : ℕ} (h : Accounted y) (hhoused : Housed y.fs)
    (hp : Attached (y.enter a.task a.now) k r m d s) : Housed s := by
  intro i hi
  by_cases hnew : (y.fs.inodes i).count = 0
  · exact hp.homed i hnew hi
  · have hstays := hp.phase.persist i hnew hi
    obtain ⟨⟨l, hl⟩, hown⟩ := hhoused i hnew
    refine ⟨⟨l, (hstays.lists l).mpr hl⟩, fun l hl => ?_⟩
    have hold := hown l ((hstays.lists l).mp hl)
    have hlk : l ≠ k := by
      rintro rfl
      exact (h.sound.used i hnew).1 (hold.symm.trans hp.idle)
    have hslot := hp.phase.slots l
    rw [Function.update_of_ne hlk] at hslot
    exact (congrArg Slot.dev hslot).trans (hold.trans hstays.dev.symm)

theorem Housed.formatted (h : Accounted y) (hhoused : Housed y.fs)
    (hp : Formatted (y.enter a.task a.now) k r s) : Housed s := by
  have hhoused' : Housed (y.enter a.task a.now) := fun i hi => hhoused i hi
  refine hhoused'.phase hp.phase fun l i _ hl => ?_
  by_cases hlk : l = k
  · subst hlk
    have hlive := (h.sound.listed l i hl).1
    have hown := (hhoused i hlive).2 l hl
    exact absurd (hown.symm.trans hp.idle) (h.sound.used i hlive).1
  · rw [Function.update_of_ne hlk]
    rfl

theorem Housed.step (h : Accounted y) (hhoused : Housed y.fs) (hcareful : Careful y a)
    (hstep : Step y a y') : Housed y'.fs := by
  have hhoused' : Housed (y.enter a.task a.now) := fun i hi => hhoused i hi
  have hwf := h.wellFormed hstep.1 a.now
  have htidy := h.enter_tidy a.task a.now
  have hsame : ∀ {lost : List ℕ} {s : Fs},
      Phase (y.enter a.task a.now) [] lost (slots y.fs) (mounts y.fs) s → Housed s :=
    fun hp => hhoused'.phase hp fun _ _ _ _ => rfl
  cases step_cases h hstep with
  | same s hp => exact hsame hp
  | refused s k hyes => exact absurd hyes hcareful.clean
  | attached s k r i d hp => exact Housed.attached h hhoused hp
  | detached target i s₁ s l k r m hcall hret hnamei hledger hk hshort hp =>
      obtain ⟨s₂, l₂, hrun, -⟩ := call_fs (hcall ▸ hret ▸ hstep.2)
      have hreaches := reaches_of_ok hrun hnamei hk
      have hroot := hcareful.root i s₁ k r ⟨target, l, hcall, hnamei⟩ hreaches hp.iroot
      exact Housed.detached h hhoused hledger hshort hroot hp
  | formatted s k r hcall hret hp => exact Housed.formatted h hhoused hp
  | moved τ i old s hcall =>
      obtain ⟨path, hcall | hcall⟩ := hcall
      · obtain ⟨s₂, l, hrun, heq⟩ := call_fs (hcall ▸ hstep.2)
        have hend := housed_sysChdir hwf htidy hhoused' _ s₂ l hrun fun _ _ => trivial
        have hfs : s = s₂ := congrArg Sys.fs heq
        exact fun i hi => hfs ▸ hend i (hfs ▸ hi)
      · obtain ⟨s₂, l, hrun, heq⟩ := call_fs (hcall ▸ hstep.2)
        have hend := housed_sysChroot hwf htidy hhoused' _ s₂ l hrun fun _ _ => trivial
        have hfs : s = s₂ := congrArg Sys.fs heq
        exact fun i hi => hfs ▸ hend i (hfs ▸ hi)
  | opened o s f hcall hledger => exact hhoused'.ledger hledger
  | closed o s f hcall hp => exact hsame hp

/-! ## Runs -/

/-- A state that the kernel may be in after booting. -/
structure Settled (y : Sys) : Prop where
  accounted : Accounted y
  housed : Housed y.fs

theorem Settled.step (h : Settled y) (hcareful : Careful y a) (hstep : Step y a y') :
    Settled y' where
  accounted := h.accounted.effect hstep.1 hcareful.clean (step_cases h.accounted hstep)
  housed := h.housed.step h.accounted hcareful hstep

theorem Settled.run (h : Settled y₀) (hrun : Run Step Careful y₀ y) : Settled y :=
  hrun.invariant (fun _ _ _ hy hcareful hstep => hy.step hcareful hstep) h

/-- Two super blocks are of two devices, and no file system is taken away that is in use. -/
def Respects (y : Sys) (a : Act) (y' : Sys) : Prop :=
  Apart y'.fs ∧ ∀ d, TakesAway y a d → ¬InUse y d

theorem not_inUse_of_umount (h : Settled y) (hcareful : Careful y a) (hstep : Step y a y')
    (hret : a.ret = .ok) (hi : Unmounts y a i s) : ¬InUse y (umountDev s i) := by
  have haccounted := h.accounted
  obtain ⟨target, l, hcall, hnamei⟩ := hi
  obtain ⟨s', l', hrun, -⟩ := call_fs (hcall ▸ hret ▸ hstep.2)
  rcases sysUmount_run (haccounted.wellFormed hstep.1 a.now) (haccounted.enter_tidy a.task a.now)
    (haccounted.backed a.task a.now) hrun with ⟨s₁, l₁, hnamei', -⟩ | ⟨i', s₁, l₁, hnamei', hledger, hend⟩
  · rw [hnamei] at hnamei'
    cases hnamei'
  · rw [hnamei] at hnamei'
    cases hnamei'
    obtain ⟨k, r, m, hk, hshort, hp⟩ := hend
    have hreaches := reaches_of_ok hrun hnamei hk
    have hroot := hcareful.root i s k r ⟨target, l, hcall, hnamei⟩ hreaches hp.iroot
    intro hd
    obtain ⟨j, k', hj, hdev, hused, hlist, -⟩ := hd.listed haccounted h.housed
    have hsame : (y.fs.supers k').dev = (y.fs.supers k).dev := by
      rw [hdev, ← Paths.superOf_dev hk]
      exact congrArg (·.1) (hledger.mounting k)
    obtain rfl := haccounted.tidy.apart k' k hused hsame
    obtain ⟨hlt, -, r', -, hr', -, hmem, -⟩ := haccounted.tidy.active k' hused
    obtain rfl : r = r' := Option.some_injective _ (hp.iroot.symm.trans hr')
    -- a user other than the super block itself is one too many
    obtain rfl := eq_of_short hshort (mem_list_looked_up haccounted hledger hlist)
      (mem_list_looked_up haccounted hledger hmem)
    have hcount := hj.count haccounted
    have hpos := slotRefs_pos (slots y.fs) hlt hused (.inl hp.iroot)
    omega

/-- A call of `sys_mkfs` that succeeds is for a block device. -/
theorem blk_of_ok {devname : Path} {n : ℤ} {l l' : List Event}
    (hrun : (sysMkfs devname n).run s₀ = .ok (.ok, s', l))
    (hnamei : (namei devname).run s₀ = .ok (some i, s, l')) : isBlk (s.desc i .mode) = true := by
  unfold sysMkfs at hrun
  obtain ⟨o, s₁, l₁, l₂, hfirst, hrest, -⟩ := bind_eq_ok.mp hrun
  rw [hnamei] at hfirst
  cases hfirst
  obtain ⟨mode, s₂, l₃, l₄, hmode, hrest, -⟩ := bind_eq_ok.mp hrest
  cases hmode
  by_contra hblk
  rw [if_pos (by simpa using hblk)] at hrest
  obtain ⟨-, s₃, l₅, l₆, -, hend, -⟩ := bind_eq_ok.mp hrest
  cases hend

theorem respects_step (h : Settled y) (hcareful : Careful y a) (hstep : Step y a y') :
    Respects y a y' := by
  have haccounted := h.accounted
  have heffect := step_cases haccounted hstep
  refine ⟨(haccounted.effect hstep.1 hcareful.clean heffect).tidy.apart, ?_⟩
  rintro d ⟨hret, i, s, ⟨hi, rfl⟩ | ⟨hi, rfl⟩⟩
  · exact not_inUse_of_umount h hcareful hstep hret hi
  · intro hd
    obtain ⟨j, k, -, hdev, -⟩ := hd.listed haccounted h.housed
    refine hcareful.unmounted i s hi ?_ k hdev
    obtain ⟨devname, n, l, hcall, hnamei⟩ := hi
    obtain ⟨s', l', hrun, -⟩ := call_fs (hcall ▸ hret ▸ hstep.2)
    exact blk_of_ok hrun hnamei

/-- In a run of careful calls a careful call takes no file system away that is in use. -/
theorem careful_calls_respect (h : Settled y₀) (hrun : Run Step Careful y₀ y)
    (hcareful : Careful y a) (hstep : Step y a y') : Respects y a y' :=
  respects_step (h.run hrun) hcareful hstep

/-! ## Two devices -/

/-- The root directory of device 1 has `b`, a node for device 2, and `d`, a directory. -/
def pairImg (dev : ℤ) : ℕ → Bytes
  | 1 => fun j =>
    match j with
    | 0 => 3
    | 16 => 0x7F
    | 17 => 0x13
    | _ => 0
  | 2 => fun j =>
    match j with
    | 0 => 0xED
    | 1 => 0x41
    | 4 => if dev = 1 then 32 else 0
    | 13 => 2
    | 14 => if dev = 1 then 3 else 0
    | 32 => 0x80
    | 33 => 0x61
    | 45 => 1
    | 46 => 2
    | 64 => 0xED
    | 65 => 0x41
    | 77 => 2
    | _ => 0
  | 3 => fun j =>
    match j with
    | 0 => 2
    | 2 => 98
    | 16 => 3
    | 18 => 100
    | _ => 0
  | _ => fun _ => 0

def pair : Sys := { lone with fs := { lone.fs with img := pairImg, disk := pairImg } }

theorem pair_settled : Settled pair where
  accounted :=
    have h := lone_accounted
    ⟨⟨h.sound.slot, h.sound.free, h.sound.used, h.sound.nodup, h.sound.listed⟩,
      ⟨h.tidy.pipe, h.tidy.apart, h.tidy.active, h.tidy.idle, h.tidy.mounted, h.tidy.top⟩,
      h.count, h.tasks, h.fds⟩
  housed i hi := by
    rw [lone_live hi]
    refine ⟨⟨0, List.mem_cons_self⟩, fun k hk => ?_⟩
    by_cases hzero : k = 0
    · rw [hzero]
      rfl
    · have hnone : (pair.fs.supers k).inodeList = [] := by simp [pair, lone, rooted, hzero]
      rw [hnone] at hk
      cases hk

/-- A call of task 0 of `y`, where the code of the call starts from the state `s`. -/
theorem step_of_run {c : FsCall} {ret : Ret} {l : List Event} {now : ℕ} (ht : 0 ∈ y.files.live)
    (hrun : (c.code y.root).run (y.enter 0 now) = .ok (ret, s, l)) :
    Step y ⟨0, now, .fs c, ret⟩ (y.leave 0 s) := by
  refine ⟨ht, ?_⟩
  change ((c.code y.root).run (y.enter 0 now) >>= _) = _
  rw [hrun]
  rfl

/-- Device 2 is mounted on `/d`. Then it can be unmounted, and also when a task has gone there. -/
theorem pair_runs : returnsBool (sysMount [47, 98] [47, 100]) (fun ret s => decide (ret = .ok) &&
    (returnsBool (sysUmount 0 [47, 98]) (fun ret _ => ret = .ok) s &&
      returnsBool (namei [47, 98]) (fun o t => decide (∃ i ∈ o,
        Paths.superOf t (umountDev t i) = some 1 ∧ (t.supers 1).imount ≠ none ∧
          (t.supers 1).inodeList.length ≤ 1)) s &&
      decide (∃ r ∈ (s.supers 1).iroot, (s.inodes r).count = 1)) &&
    returnsBool (sysChdir [47, 100]) (fun ret s => decide (ret = .ok) &&
      returnsBool (sysUmount 0 [47, 98]) (fun ret _ => ret = .ok) s &&
      returnsBool (namei [47, 98]) (fun o t => decide (∃ i ∈ o, umountDev t i = 2)) s &&
      decide ((s.inodes s.task.ipwd).dev = 2)) s) pair.fs = true := by
  decide +kernel

/-- Device 2 is mounted on `/d`, and unmounted before anyone has gone there. -/
theorem pair_umount : ∃ y y', Step y ⟨0, y.fs.now, .fs (.umount [47, 98]), .ok⟩ y' ∧
    Respects y ⟨0, y.fs.now, .fs (.umount [47, 98]), .ok⟩ y' := by
  obtain ⟨_, s₁, l₁, hmount, h⟩ := returns_of_bool pair_runs
  simp only [Bool.and_eq_true, decide_eq_true_eq] at h
  obtain ⟨⟨rfl, ⟨humounts, hnameis⟩, r, hr, hone⟩, -⟩ := h
  have hfirst : Step pair ⟨0, 0, .fs (.mount [47, 98] [47, 100]), .ok⟩ (pair.leave 0 s₁) :=
    step_of_run (by decide) hmount
  have hrun : Run Step Careful pair (pair.leave 0 s₁) := by
    refine Run.refl.tail ⟨?_, ?_, ?_⟩ hfirst
    · rintro ⟨_, _, _, _, ⟨⟩, -⟩
    · rintro i s k r ⟨_, _, ⟨⟩, -⟩
    · rintro i s ⟨_, _, _, ⟨⟩, -⟩
  obtain ⟨_, s₂, l₂, humount, hret⟩ := returns_of_bool humounts
  obtain rfl := of_decide_eq_true hret
  have hstep : Step (pair.leave 0 s₁) ⟨0, s₁.now, .fs (.umount [47, 98]), .ok⟩
      ((pair.leave 0 s₁).leave 0 s₂) := step_of_run (Finset.mem_singleton_self 0) humount
  -- the state that the argument is looked up in
  obtain ⟨o, s₃, l₃, hnamei, hfound⟩ := returns_of_bool hnameis
  obtain ⟨i, hi, hk, hmounted, hshort⟩ := of_decide_eq_true hfound
  refine ⟨_, _, hstep, careful_calls_respect pair_settled hrun ⟨?_, ?_, ?_⟩ hstep⟩
  · rintro ⟨_, i', s, l, ⟨⟩, hnamei', -, -, k, hk', hrefused⟩
    cases hnamei.symm.trans hnamei'
    cases hi
    cases hk.symm.trans hk'
    exact hrefused.elim hmounted hshort.not_gt
  · rintro i' s k r' ⟨_, _, ⟨⟩, hnamei'⟩ ⟨-, -, hk'⟩ hr'
    cases hnamei.symm.trans hnamei'
    cases hi
    cases hk.symm.trans hk'
    cases hr.symm.trans hr'
    exact hone
  · rintro i s ⟨_, _, _, ⟨⟩, -⟩

/-- Device 2 is mounted on `/d`, a task goes there, and then the device is unmounted. -/
theorem umount_takes_directory_away :
    ¬∀ y₀ y a y', Settled y₀ → Run Step (fun _ _ => True) y₀ y → Step y a y' → Respects y a y' := by
  intro hclaim
  obtain ⟨_, s₁, l₁, hmount, h⟩ := returns_of_bool pair_runs
  simp only [Bool.and_eq_true, decide_eq_true_eq] at h
  obtain ⟨⟨rfl, -⟩, hchdirs⟩ := h
  obtain ⟨_, s₂, l₂, hchdir, h⟩ := returns_of_bool hchdirs
  simp only [Bool.and_eq_true, decide_eq_true_eq] at h
  obtain ⟨⟨⟨rfl, humounts⟩, hnameis⟩, hpwd⟩ := h
  obtain ⟨_, s₃, l₃, humount, hret⟩ := returns_of_bool humounts
  obtain rfl := of_decide_eq_true hret
  -- the device is that of the current directory
  obtain ⟨o, s₄, l₄, hnamei, hfound⟩ := returns_of_bool hnameis
  obtain ⟨i, hi, hdev⟩ := of_decide_eq_true hfound
  cases hi
  have hrun : Run Step (fun _ _ => True) pair ((pair.leave 0 s₁).leave 0 s₂) := by
    have hfirst : Step pair ⟨0, 0, .fs (.mount [47, 98] [47, 100]), .ok⟩ (pair.leave 0 s₁) :=
      step_of_run (by decide) hmount
    have hsecond : Step (pair.leave 0 s₁) ⟨0, s₁.now, .fs (.chdir [47, 100]), .ok⟩
        ((pair.leave 0 s₁).leave 0 s₂) := step_of_run (Finset.mem_singleton_self 0) hchdir
    exact (Run.refl.tail trivial hfirst).tail trivial hsecond
  have hstep : Step ((pair.leave 0 s₁).leave 0 s₂) ⟨0, s₂.now, .fs (.umount [47, 98]), .ok⟩
      (((pair.leave 0 s₁).leave 0 s₂).leave 0 s₃) :=
    step_of_run (Finset.mem_singleton_self 0) humount
  refine (hclaim pair _ _ _ pair_settled hrun hstep).2 2 ⟨rfl, i, s₄, .inl ⟨⟨_, l₄, rfl, hnamei⟩,
    hdev.symm⟩⟩ ⟨s₂.task.ipwd, .inl ⟨0, Finset.mem_singleton_self 0, .inr (.inl rfl)⟩, ?_⟩
  exact hpwd

end Ylos.System
