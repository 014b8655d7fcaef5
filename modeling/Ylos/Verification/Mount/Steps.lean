import Ylos.Lib.Runs
import Ylos.Verification.File.Counts
import Ylos.Verification.Mount.Holders

/-! # What a call keeps -/

namespace Ylos.System

open Exec Refs Mount

variable {y y' : Sys} {t now i k : ℕ} {s₀ s s' : Fs} {gained lost : List ℕ} {sb : ℕ → Slot}
  {mt : ℕ → ℤ} {f f' : Files.State}

/-! ## The tables of inodes and super blocks -/

/-- Slot `k` is in use as it was before. -/
def Old (s₀ : Fs) (sb : ℕ → Slot) (k : ℕ) : Prop := sb k = slots s₀ k

/-- Slot `k` has come into use, for a device that no other slot carries. -/
structure New (sb : ℕ → Slot) (s : Fs) (k : ℕ) : Prop where
  slot : k < SUPER_NR
  count : (sb k).count = 1
  refs : ∃ r m, (sb k).iroot = some r ∧ (sb k).imount = some m ∧
    r ∈ (s.supers k).inodeList ∧ (s.inodes r).nr = 1 ∧ (s.inodes m).nr ≠ 1
  only : ∀ l, (sb l).dev = (sb k).dev → l = k

theorem Tidy.phase (htidy : Tidy s₀)
    (hbefore : ∀ k i, (s₀.supers k).dev ≠ NODEV →
      (s₀.supers k).iroot = some i ∨ (s₀.supers k).imount = some i → (s₀.inodes i).count ≠ 0)
    (h : Phase s₀ gained lost sb mt s)
    (hafter : ∀ k i, k < SUPER_NR → (sb k).dev ≠ NODEV →
      (sb k).iroot = some i ∨ (sb k).imount = some i → (s.inodes i).count ≠ 0)
    (hslots : ∀ k, (sb k).dev ≠ NODEV → Old s₀ sb k ∨ New sb s k)
    (hidle : ∀ k, (sb k).dev = NODEV → (sb k).imount = none)
    (hmounts : ∀ i, mt i ≠ 0 →
      (mt i = mounts s₀ i ∧ ∀ k, (s₀.supers k).dev ≠ NODEV → (s₀.supers k).imount = some i →
        Old s₀ sb k) ∨
      ((s.inodes i).nr ≠ 1 ∧ ∃ k, (sb k).dev = mt i ∧ (sb k).dev ≠ NODEV ∧
        (sb k).imount = some i)) : Tidy s := by
  have hdev : ∀ k, (s.supers k).dev = (sb k).dev := fun k => congrArg Slot.dev (h.slots k)
  have himount : ∀ k, (s.supers k).imount = (sb k).imount := fun k =>
    congrArg Slot.imount (h.slots k)
  -- what an old slot refers to is as it was
  have hstays : ∀ k i, (sb k).dev ≠ NODEV → Old s₀ sb k →
      (sb k).iroot = some i ∨ (sb k).imount = some i → Stays s₀ s i := by
    intro k i hk hold hi
    have hk₀ : (s₀.supers k).dev ≠ NODEV := (congrArg Slot.dev hold).symm.trans_ne hk
    have hi₀ : (s₀.supers k).iroot = some i ∨ (s₀.supers k).imount = some i :=
      hi.imp (congrArg Slot.iroot hold).symm.trans (congrArg Slot.imount hold).symm.trans
    exact h.persist i (hbefore k i hk₀ hi₀) (hafter k i (htidy.active k hk₀).1 hk hi)
  refine ⟨h.pipe, fun k l hk hkl => ?_, fun k hk => ?_, fun k hk => ?_, fun i hi => ?_,
    fun k i hk hi hnr => ?_⟩
  · rw [hdev] at hk
    rw [hdev, hdev] at hkl
    rcases hslots k hk with hold | hnew
    · rcases hslots l (hkl ▸ hk) with hold' | hnew'
      · have hk₀ := congrArg Slot.dev hold
        have hl₀ := congrArg Slot.dev hold'
        exact htidy.apart k l (hk₀.symm.trans_ne hk) (hk₀.symm.trans (hkl.trans hl₀))
      · exact hnew'.only k hkl
    · exact (hnew.only l hkl.symm).symm
  · rw [hdev] at hk
    rcases hslots k hk with hold | hnew
    · have hk₀ : (s₀.supers k).dev ≠ NODEV := (congrArg Slot.dev hold).symm.trans_ne hk
      obtain ⟨hlt, hcount, r, m, hr, hm, hmem, hnr⟩ := htidy.active k hk₀
      have hr' : (sb k).iroot = some r := (congrArg Slot.iroot hold).trans hr
      have hsame := hstays k r hk hold (.inl hr')
      refine ⟨hlt, ?_, r, m, ?_, ?_, (hsame.lists k).mpr hmem, hsame.nr.trans hnr⟩
      · exact ((congrArg Slot.count (h.slots k)).trans (congrArg Slot.count hold)).trans hcount
      · exact (congrArg Slot.iroot (h.slots k)).trans hr'
      · exact (himount k).trans ((congrArg Slot.imount hold).trans hm)
    · obtain ⟨r, m, hr, hm, hmem, hnr, -⟩ := hnew.refs
      exact ⟨hnew.slot, (congrArg Slot.count (h.slots k)).trans hnew.count, r, m,
        (congrArg Slot.iroot (h.slots k)).trans hr, (himount k).trans hm, hmem, hnr⟩
  · rw [himount]
    exact hidle k ((hdev k).symm.trans hk)
  · rw [show (s.inodes i).mount = mt i from h.mounts i] at hi ⊢
    rcases hmounts i hi with ⟨hsame, hold⟩ | ⟨hnr, k, hk, hk', hi'⟩
    · obtain ⟨hnr, k, hk, hk', hi'⟩ := htidy.mounted i (hsame.symm.trans_ne hi)
      have hk'' : (sb k).dev = (s₀.supers k).dev := congrArg Slot.dev (hold k hk' hi')
      have hi'' : (sb k).imount = some i := (congrArg Slot.imount (hold k hk' hi')).trans hi'
      refine ⟨?_, k, ?_, ?_, (himount k).trans hi''⟩
      · rw [(hstays k i (hk''.trans_ne hk') (hold k hk' hi') (.inr hi'')).nr]
        exact hnr
      · exact (hdev k).trans (hk''.trans (hk.trans hsame.symm))
      · exact ((hdev k).trans hk'').trans_ne hk'
    · exact ⟨hnr, k, (hdev k).trans hk, (hdev k).trans_ne hk', (himount k).trans hi'⟩
  · rw [hdev] at hk ⊢
    rw [himount] at hi
    rcases hslots k hk with hold | hnew
    · have hsame := hstays k i hk hold (.inr hi)
      have hk₀ : (sb k).dev = (s₀.supers k).dev := congrArg Slot.dev hold
      have htop := htidy.top k i (hk₀.symm.trans_ne hk)
        ((congrArg Slot.imount hold).symm.trans hi) (hsame.nr.symm.trans hnr)
      rw [hsame.dev, htop, hk₀]
    · obtain ⟨r, m, -, hm, -, -, hnr'⟩ := hnew.refs
      obtain rfl : i = m := Option.some_injective _ (hi.symm.trans hm)
      exact absurd hnr hnr'

/-- What a call has done to the counts is what it has done to the references. -/
theorem Accounted.phase (h : Accounted y) {τ : Task}
    (hp : Phase { y.enter t now with task := τ } gained lost sb mt s)
    (hlive : f.live = y.files.live) (hfds : ∀ t fd n, f.files t fd = some n → n < Files.FILE_NR)
    (hbalance : ∀ i, taskRefs y.files.live (y.leave t s).procs i + fileRefs f i + slotRefs sb i +
      lost.count i = y.holders i + gained.count i)
    (hslots : ∀ k, (sb k).dev ≠ NODEV → Old y.fs sb k ∨ New sb s k)
    (hidle : ∀ k, (sb k).dev = NODEV → (sb k).imount = none)
    (hmounts : ∀ i, mt i ≠ 0 →
      (mt i = mounts y.fs i ∧ ∀ k, (y.fs.supers k).dev ≠ NODEV → (y.fs.supers k).imount = some i →
        Old y.fs sb k) ∨
      ((s.inodes i).nr ≠ 1 ∧ ∃ k, (sb k).dev = mt i ∧ (sb k).dev ≠ NODEV ∧
        (sb k).imount = some i)) :
    Accounted { y.leave t s with files := f } := by
  have hsb : slots s = sb := funext hp.slots
  have hcount : ∀ i, (s.inodes i).count =
      taskRefs y.files.live (y.leave t s).procs i + fileRefs f i + slotRefs sb i := by
    intro i
    have hbefore : (y.fs.inodes i).count = y.holders i := h.count i
    have hi : (s.inodes i).count + lost.count i = (y.fs.inodes i).count + gained.count i :=
      hp.count i
    have hbal := hbalance i
    omega
  have htidy : Tidy s := by
    have hbefore : Tidy { y.enter t now with task := τ } :=
      ⟨h.tidy.pipe, h.tidy.apart, h.tidy.active, h.tidy.idle, h.tidy.mounted, h.tidy.top⟩
    refine Tidy.phase hbefore
      (fun k i hk hi => h.slot_live hk hi) hp (fun k i hlt hk hi => ?_) hslots hidle hmounts
    have hpos := slotRefs_pos sb hlt hk hi
    rw [hcount]
    omega
  refine ⟨hp.sound, htidy, fun i => ?_, ?_, hfds⟩
  · rw [show ({ y.leave t s with files := f } : Sys).holders i = _ from rfl]
    unfold Sys.holders
    change _ = taskRefs f.live (y.leave t s).procs i + fileRefs f i + slotRefs (slots s) i
    rw [hlive, hsb]
    exact hcount i
  · change ∀ t ∈ f.live, t < Files.NR_TASKS
    rw [hlive]
    exact h.tasks

/-! ## The file table -/

theorem fileRefs_setFile {n : ℕ} (hn : n < Files.FILE_NR) (v : Files.File) (i : ℕ) :
    fileRefs (f.setFile n v) i + hit (filed f n) i =
      fileRefs f i + hit (if v.count = 0 then none else v.inode) i := by
  have hmoved := refCount_retarget (p := filed f) (q := filed (f.setFile n v)) (f := i)
    (Finset.mem_range.mpr hn) fun m _ hm => by
      unfold filed Files.State.setFile
      simp only [if_neg hm]
  have hself : filed (f.setFile n v) n = if v.count = 0 then none else v.inode := by
    unfold filed Files.State.setFile
    simp only [if_true]
  rw [hself] at hmoved
  exact hmoved

/-- A call of the file table, with what it does to the references of the files. -/
structure Filing (f : Files.State) (opened closed : Option ℕ) (f' : Files.State) : Prop where
  live : f'.live = f.live
  fds : (∀ t fd n, f.files t fd = some n → n < Files.FILE_NR) →
    ∀ t fd n, f'.files t fd = some n → n < Files.FILE_NR
  refs : ∀ i, fileRefs f' i + hit closed i = fileRefs f i + hit opened i

theorem Filing.refl (f : Files.State) : Filing f none none f := ⟨rfl, id, fun _ => rfl⟩

theorem after_sysOpen {o : Option Files.Opened} {flags : ℕ} :
    after (Files.sysOpen t o flags)
      (fun fd f' _ => fd.isSome = o.isSome ∧ Filing f (o.map (·.inode)) none f') f := by
  unfold Files.sysOpen
  cases o with
  | none => exact (after_pure _).mpr ⟨rfl, .refl f⟩
  | some o =>
      rw [after_bind]
      refine Files.after_taskGetFd fun fd hfd hfree => ?_
      unfold Files.getFile Files.modifyFile Files.setFd
      rw [after_bind, after_bind, after_get]
      cases hfind : (List.range' 3 (Files.FILE_NR - 3)).find? fun i =>
          (f.fileTable i).count = 0 with
      | none => exact after_fault _
      | some n =>
          simp only [after_bind, after_modify, after_note, after_pure, after_gets, after_check]
          intro _
          obtain ⟨hzero, hmem, -⟩ := List.find?_range'_eq_some.mp hfind
          rw [List.mem_range'_1] at hmem
          have hn : n < Files.FILE_NR := by
            unfold Files.FILE_NR at hmem ⊢
            omega
          have hfiled : filed f n = none := if_pos (by simpa using hzero)
          refine ⟨rfl, rfl, fun hfds u d m hm => ?_, fun i => ?_⟩
          · change (if u = t ∧ d = fd then some n else f.files u d) = some m at hm
            split at hm
            · cases hm
              exact hn
            · exact hfds u d m hm
          · have hopen := fileRefs_setFile (f := (f.setFile n (f.fileTable n).retain).setFd t fd
              (some n)) hn ⟨some o.inode, 1,
                if flags &&& Files.O_APPEND ≠ 0 then o.size else 0, flags, o.mode⟩ i
            have hget := fileRefs_setFile (f := f) hn (f.fileTable n).retain i
            have hsame : filed ((f.setFile n (f.fileTable n).retain).setFd t fd (some n)) n =
                if (f.fileTable n).retain.count = 0 then none
                else (f.fileTable n).retain.inode := by
              unfold filed Files.State.setFd Files.State.setFile
              simp only [if_true]
            rw [hsame, if_neg one_ne_zero] at hopen
            change _ = _ + hit (some o.inode) i at hopen
            rw [hfiled, hit_none] at hget
            rw [Option.map_some, hit_none]
            change fileRefs ((f.setFile n (f.fileTable n).retain).setFd t fd (some n)) i + 0 = _
              at hget
            omega

/-- What `put_file` gives back of the inode. -/
def given : List Files.Event → Option ℕ
  | [.iput _ inode] => some inode
  | _ => none

theorem after_sysClose {fd : ℕ} (hfds : ∀ t fd n, f.files t fd = some n → n < Files.FILE_NR) :
    after (Files.sysClose t fd)
      (fun _ f' l => (l = [] ∨ ∃ n j, l = [.iput n j]) ∧ Filing f none (given l) f') f := by
  unfold Files.sysClose
  rw [after_bind, after_check]
  intro _
  rw [after_bind, after_gets]
  cases hfd : f.files t fd with
  | none => exact (after_pure _).mpr ⟨.inl rfl, .refl f⟩
  | some n =>
      have hn := hfds t fd n hfd
      unfold Files.putFile Files.taskPutFd Files.modifyFile Files.setFd
      simp only [after_bind, after_gets, after_check, after_modify, after_ite, after_deref,
        after_note, after_pure, Files.setFile_self]
      intro _ hpos
      have hclosed : ∀ t' fd' m, ((f.setFile n { f.fileTable n with
          count := (f.fileTable n).count - 1 }).setFd t fd none).files t' fd' = some m →
          m < Files.FILE_NR := by
        intro u d m hm
        change (if u = t ∧ d = fd then none else f.files u d) = some m at hm
        split at hm
        · cases hm
        · exact hfds u d m hm
      have hrefs : ∀ i, fileRefs (f.setFile n { f.fileTable n with
          count := (f.fileTable n).count - 1 }) i + hit (filed f n) i = fileRefs f i +
          hit (if (f.fileTable n).count - 1 = 0 then none else (f.fileTable n).inode) i :=
        fun i => fileRefs_setFile hn _ i
      have hfiled : filed f n = (f.fileTable n).inode := if_neg (by omega)
      rw [hfiled] at hrefs
      refine ⟨fun hzero j hj _ => ⟨.inr ⟨n, j, rfl⟩, rfl, fun _ => hclosed, fun i => ?_⟩,
        fun hmore _ => ⟨.inl rfl, rfl, fun _ => hclosed, fun i => ?_⟩⟩
      · have hi := hrefs i
        rw [if_pos hzero, show (f.fileTable n).inode = some j from hj] at hi
        exact hi
      · have hi := hrefs i
        rw [if_neg hmore] at hi
        change fileRefs (f.setFile n { f.fileTable n with
          count := (f.fileTable n).count - 1 }) i + 0 = fileRefs f i + 0
        omega

/-! ## One call -/

/-- The task has stayed where it was. -/
theorem taskRefs_same (ht : t ∈ y.files.live)
    (hp : Phase (y.enter t now) gained lost sb mt s) (i : ℕ) :
    taskRefs y.files.live (y.leave t s).procs i = taskRefs y.files.live y.procs i := by
  have hleave := taskRefs_leave ht s i
  have hroot : s.task.iroot = (y.procs t).task.iroot := hp.iroot
  have hpwd : s.task.ipwd = (y.procs t).task.ipwd := hp.ipwd
  rw [hroot, hpwd] at hleave
  omega

namespace Accounted

variable (h : Accounted y) (ht : t ∈ y.files.live)

include h ht

/-- No super block has changed. -/
theorem still (hp : Phase (y.enter t now) gained lost (slots y.fs) (mounts y.fs) s)
    (hlive : f.live = y.files.live) (hfds : ∀ t fd n, f.files t fd = some n → n < Files.FILE_NR)
    (hrefs : ∀ i, fileRefs f i + lost.count i = fileRefs y.files i + gained.count i) :
    Accounted { y.leave t s with files := f } := by
  refine h.phase hp hlive hfds (fun i => ?_) (fun k _ => .inl rfl) h.tidy.idle
    fun i _ => .inl ⟨rfl, fun _ _ _ => rfl⟩
  have hi := hrefs i
  rw [taskRefs_same ht hp]
  unfold Sys.holders
  omega

theorem same (hp : Same (y.enter t now) s) : Accounted (y.leave t s) :=
  h.still ht hp rfl h.fds fun _ => rfl

theorem attached {r : ℕ} {d : ℤ} (hp : Attached (y.enter t now) k r i d s) :
    Accounted (y.leave t s) := by
  have hidle : (slots y.fs k).dev = NODEV := hp.idle
  have hupdate : ∀ l, l ≠ k → Old y.fs (Function.update (slots y.fs) k ⟨d, 1, some r, some i⟩) l :=
    fun l hl => Function.update_of_ne hl _ _
  have hphase : Phase (y.enter t now) [r, i] []
    (Function.update (slots y.fs) k ⟨d, 1, some r, some i⟩)
    (Function.update (mounts y.fs) i d) s := hp.phase
  refine h.phase hphase rfl h.fds (fun j => ?_) (fun l hl => ?_) (fun l hl => ?_)
    fun j hj => ?_
  · have hrefs := slotRefs_update (slots y.fs) hp.slot ⟨d, 1, some r, some i⟩ j
    simp only [rootOf, mountOf, hidle, if_true, if_neg hp.dev, hit_none] at hrefs
    rw [taskRefs_same ht hphase, List.count_nil]
    rw [show [r, i] = (some r).toList ++ (some i).toList from rfl, List.count_append,
      count_toList, count_toList]
    unfold Sys.holders
    omega
  · by_cases hlk : l = k
    · subst hlk
      have hnew : Function.update (slots y.fs) l ⟨d, 1, some r, some i⟩ l =
          ⟨d, 1, some r, some i⟩ := Function.update_self ..
      refine .inr ⟨hp.slot, by rw [hnew], ⟨r, i, by rw [hnew], by rw [hnew], hp.root, hp.nr,
        hp.dir⟩, fun l' hl' => ?_⟩
      by_contra hne
      rw [hnew, Function.update_of_ne hne] at hl'
      exact hp.fresh l' hl'
    · exact .inl (hupdate l hlk)
  · by_cases hlk : l = k
    · subst hlk
      rw [Function.update_self] at hl
      exact absurd hl hp.dev
    · rw [show _ = slots y.fs l from hupdate l hlk]
      exact h.tidy.idle l ((congrArg Slot.dev (hupdate l hlk)).symm.trans hl)
  · by_cases hji : j = i
    · subst hji
      refine .inr ⟨hp.dir, k, ?_⟩
      rw [Function.update_self, Function.update_self]
      exact ⟨rfl, hp.dev, rfl⟩
    · refine .inl ⟨Function.update_of_ne hji _ _, fun l hl _ => hupdate l ?_⟩
      rintro rfl
      exact hl hp.idle

/-- What was mounted on `m` is gone. -/
theorem detached {r m : ℕ} (hp : Detached (y.enter t now) k r m s) : Accounted (y.leave t s) := by
  have hactive : (slots y.fs k).dev ≠ NODEV := hp.active
  have hk := (h.tidy.active k hp.active).1
  have hiroot : (slots y.fs k).iroot = some r := hp.iroot
  have himount : (slots y.fs k).imount = some m := hp.imount
  have hupdate : ∀ l, l ≠ k → Old y.fs (Function.update (slots y.fs) k ⟨NODEV, 0, none, none⟩) l :=
    fun l hl => Function.update_of_ne hl _ _
  have hphase : Phase (y.enter t now) [] [r, m]
    (Function.update (slots y.fs) k ⟨NODEV, 0, none, none⟩)
    (Function.update (mounts y.fs) m 0) s := hp.phase
  refine h.phase hphase rfl h.fds (fun j => ?_) (fun l hl => ?_) (fun l hl => ?_)
    fun j hj => ?_
  · have hrefs := slotRefs_update (slots y.fs) hk ⟨NODEV, 0, none, none⟩ j
    simp only [rootOf, mountOf, if_neg hactive, hiroot, himount, if_true, hit_none] at hrefs
    rw [taskRefs_same ht hphase, List.count_nil]
    rw [show [r, m] = (some r).toList ++ (some m).toList from rfl, List.count_append,
      count_toList, count_toList]
    unfold Sys.holders
    omega
  · refine .inl (hupdate l ?_)
    rintro rfl
    rw [Function.update_self] at hl
    exact hl rfl
  · by_cases hlk : l = k
    · subst hlk
      rw [Function.update_self]
    · rw [show _ = slots y.fs l from hupdate l hlk]
      exact h.tidy.idle l ((congrArg Slot.dev (hupdate l hlk)).symm.trans hl)
  · have hjm : j ≠ m := by
      rintro rfl
      rw [Function.update_self] at hj
      exact hj rfl
    refine .inl ⟨Function.update_of_ne hjm _ _, fun l _ hl => hupdate l ?_⟩
    rintro rfl
    exact hjm (Option.some_injective _ (hl.symm.trans hp.imount))

/-- A slot that is free has been used. -/
theorem formatted {r : ℕ} (hp : Formatted (y.enter t now) k r s) : Accounted (y.leave t s) := by
  have hidle : (slots y.fs k).dev = NODEV := hp.idle
  have hupdate : ∀ l, l ≠ k →
      Old y.fs (Function.update (slots y.fs) k ⟨NODEV, 0, some r, none⟩) l :=
    fun l hl => Function.update_of_ne hl _ _
  have hactive : ∀ l, (y.fs.supers l).dev ≠ NODEV →
      Old y.fs (Function.update (slots y.fs) k ⟨NODEV, 0, some r, none⟩) l := by
    refine fun l hl => hupdate l ?_
    rintro rfl
    exact hl hidle
  have hphase : Phase (y.enter t now) [] []
    (Function.update (slots y.fs) k ⟨NODEV, 0, some r, none⟩) (mounts y.fs) s := hp.phase
  refine h.phase hphase rfl h.fds (fun j => ?_) (fun l hl => .inl ?_) (fun l hl => ?_)
    fun j _ => .inl ⟨rfl, fun l hl _ => hactive l hl⟩
  · have hrefs := slotRefs_update (slots y.fs) hp.slot ⟨NODEV, 0, some r, none⟩ j
    simp only [rootOf, mountOf, hidle, if_true, hit_none] at hrefs
    rw [taskRefs_same ht hphase, List.count_nil]
    unfold Sys.holders
    omega
  · refine hupdate l ?_
    rintro rfl
    rw [Function.update_self] at hl
    exact hl rfl
  · by_cases hlk : l = k
    · subst hlk
      rw [Function.update_self]
    · rw [show _ = slots y.fs l from hupdate l hlk]
      exact h.tidy.idle l ((congrArg Slot.dev (hupdate l hlk)).symm.trans hl)

/-- The task has gone to `i`. -/
theorem moved {τ : Task} {old : ℕ}
    (hp : Phase { y.enter t now with task := τ } [i] [old] (slots y.fs) (mounts y.fs) s)
    (hplaces : ∀ j, hit (some τ.iroot) j + hit (some τ.ipwd) j + hit (some old) j =
      hit (some (y.procs t).task.iroot) j + hit (some (y.procs t).task.ipwd) j +
        hit (some i) j) :
    Accounted (y.leave t s) := by
  refine h.phase hp rfl h.fds (fun j => ?_) (fun k _ => .inl rfl) h.tidy.idle
    fun i _ => .inl ⟨rfl, fun _ _ _ => rfl⟩
  have hleave := taskRefs_leave ht s j
  have hroot : s.task.iroot = τ.iroot := hp.iroot
  have hpwd : s.task.ipwd = τ.ipwd := hp.ipwd
  have hsum := hplaces j
  rw [hroot, hpwd] at hleave
  rw [show [i] = (some i).toList from rfl, show [old] = (some old).toList from rfl, count_toList,
    count_toList]
  unfold Sys.holders
  omega

end Accounted

/-! ## What a step can do -/

/-- `sys_umount` looks up a super block, and then gives up. -/
def GivesUp (y : Sys) (a : Act) : Prop :=
  ∃ target i s l, a.call = .fs (.umount target) ∧
    (namei target).run (y.enter a.task a.now) = .ok (some i, s, l) ∧ Refuses y.root s i

/-- The calls that work on the tree of one file system. -/
def FsCall.plain : FsCall → Bool
  | .mkdir .. | .rmdir _ | .link .. | .unlink _ | .mknod .. | .stat _ => true
  | _ => false

inductive Effect (y : Sys) (a : Act) : Sys → Prop where
  /-- The tables are what they were. -/
  | same (s : Fs) (hp : Same (y.enter a.task a.now) s) (hno : ¬GivesUp y a)
      (hcall : ∃ c, a.call = .fs c ∧ (a.ret = .eof ∨ c.plain = true)) :
      Effect y a (y.leave a.task s)
  | refused (s : Fs) (k : ℕ) (hyes : GivesUp y a) (hret : a.ret = .eof)
      (hbefore : (y.fs.supers k).count = 1) (hafter : (s.supers k).count = 0) :
      Effect y a (y.leave a.task s)
  | attached (s : Fs) (k r i : ℕ) (d : ℤ) (hp : Attached (y.enter a.task a.now) k r i d s)
      (hcall : ∃ devname dirname, a.call = .fs (.mount devname dirname)) (hret : a.ret = .ok) :
      Effect y a (y.leave a.task s)
  | detached (target : Path) (i : ℕ) (s₁ s : Fs) (l : List Event) (k r m : ℕ)
      (hcall : a.call = .fs (.umount target)) (hret : a.ret = .ok)
      (hnamei : (namei target).run (y.enter a.task a.now) = .ok (some i, s₁, l))
      (hledger : Ledger (y.enter a.task a.now) [i] [] s₁)
      (hk : Paths.superOf s₁ (umountDev s₁ i) = some k)
      (hshort : (s₁.supers k).inodeList.length ≤ 1)
      (hp : Detached (y.enter a.task a.now) k r m s) : Effect y a (y.leave a.task s)
  | formatted (s : Fs) (k r : ℕ) (hcall : ∃ devname n, a.call = .fs (.mkfs devname n))
      (hret : a.ret = .ok) (hp : Formatted (y.enter a.task a.now) k r s) :
      Effect y a (y.leave a.task s)
  | moved (τ : Task) (i old : ℕ) (s : Fs) (hcall : ∃ path, a.call = .fs (.chdir path) ∨
      a.call = .fs (.chroot path))
      (hp : Phase { y.enter a.task a.now with task := τ } [i] [old] (slots y.fs) (mounts y.fs) s)
      (hplaces : ∀ j, hit (some τ.iroot) j + hit (some τ.ipwd) j + hit (some old) j =
        hit (some (y.procs a.task).task.iroot) j + hit (some (y.procs a.task).task.ipwd) j +
          hit (some i) j) : Effect y a (y.leave a.task s)
  | opened (o : Option ℕ) (s : Fs) (f : Files.State)
      (hcall : ∃ path flags mode, a.call = .open path flags mode)
      (hledger : Ledger (y.enter a.task a.now) o.toList [] s) (hfiling : Filing y.files o none f) :
      Effect y a { y.leave a.task s with files := f }
  | closed (o : Option ℕ) (s : Fs) (f : Files.State) (hcall : ∃ fd, a.call = .close fd)
      (hp : Phase (y.enter a.task a.now) [] o.toList (slots y.fs) (mounts y.fs) s)
      (hfiling : Filing y.files none o f) : Effect y a { y.leave a.task s with files := f }

theorem call_fs {c : FsCall} {ret : Ret} (h : y.call t now (.fs c) = .ok (ret, y')) :
    ∃ s l, (c.code y.root).run (y.enter t now) = .ok (ret, s, l) ∧ y' = y.leave t s := by
  unfold Sys.call at h
  cases hrun : (c.code y.root).run (y.enter t now) with
  | error e =>
      simp only [hrun] at h
      cases h
  | ok r =>
      obtain ⟨ret', s, l⟩ := r
      simp only [hrun] at h
      cases h
      exact ⟨s, l, rfl, rfl⟩

theorem call_open {path : Path} {flags mode : ℕ} {ret : Ret}
    (h : y.call t now (.open path flags mode) = .ok (ret, y')) :
    ∃ o s f fd l l', (inodeOpen path flags mode).run (y.enter t now) = .ok (o, s, l) ∧
      (Files.sysOpen t (o.map (opened s)) flags).run y.files = .ok (fd, f, l') ∧
      y' = { y.leave t s with files := f } := by
  unfold Sys.call at h
  cases hrun : (inodeOpen path flags mode).run (y.enter t now) with
  | error e =>
      simp only [hrun] at h
      cases h
  | ok r =>
      obtain ⟨o, s, l⟩ := r
      cases hopen : (Files.sysOpen t (o.map (opened s)) flags).run y.files with
      | error e =>
          simp only [hrun] at h
          change ((Files.sysOpen t (o.map (opened s)) flags).run y.files >>= _) = _ at h
          rw [hopen] at h
          cases h
      | ok r' =>
          obtain ⟨fd, f, l'⟩ := r'
          simp only [hrun] at h
          change ((Files.sysOpen t (o.map (opened s)) flags).run y.files >>= _) = _ at h
          rw [hopen] at h
          cases h
          exact ⟨o, s, f, fd, l, l', rfl, hopen, rfl⟩

theorem call_close {fd : ℕ} {ret : Ret} (h : y.call t now (.close fd) = .ok (ret, y')) :
    ∃ s f l l', (Files.sysClose t fd).run y.files = .ok ((), f, l) ∧
      (release l).run (y.enter t now) = .ok ((), s, l') ∧
      y' = { y.leave t s with files := f } := by
  unfold Sys.call at h
  cases hclose : (Files.sysClose t fd).run y.files with
  | error e =>
      simp only [hclose] at h
      cases h
  | ok r =>
      obtain ⟨_, f, l⟩ := r
      cases hrun : (release l).run (y.enter t now) with
      | error e =>
          simp only [hclose] at h
          change ((release l).run (y.enter t now) >>= _) = _ at h
          rw [hrun] at h
          cases h
      | ok r' =>
          obtain ⟨_, s, l'⟩ := r'
          simp only [hclose] at h
          change ((release l).run (y.enter t now) >>= _) = _ at h
          rw [hrun] at h
          cases h
          exact ⟨s, f, l, l', rfl, hrun, rfl⟩

theorem not_givesUp {a : Act} (hcall : ∀ target, a.call ≠ .fs (.umount target)) :
    ¬GivesUp y a := by
  rintro ⟨target, _, _, _, hc, -⟩
  exact hcall target hc

/-- Everything that a call can do. -/
theorem step_cases {a : Act} (h : Accounted y) (hstep : Step y a y') : Effect y a y' := by
  obtain ⟨ht, hcall⟩ := hstep
  have hwf := h.wellFormed ht a.now
  have htidy := h.enter_tidy a.task a.now
  obtain ⟨t, now, call, ret⟩ := a
  cases call with
  | fs c =>
      obtain ⟨s, l, hrun, rfl⟩ := call_fs hcall
      cases c with
      | mount devname dirname =>
          have hend := wp_sysMount hwf htidy ret s l hrun fun _ _ => trivial
          cases ret with
          | ok =>
              obtain ⟨k, r, i, d, hp⟩ := hend
              exact .attached s k r i d hp ⟨devname, dirname, rfl⟩ rfl
          | eof =>
              exact .same s hend (not_givesUp nofun) ⟨_, rfl, .inl rfl⟩
      | umount target =>
          rcases sysUmount_run hwf htidy (h.backed t now) hrun with
            ⟨s₁, l₁, hnamei, rfl, hsame⟩ | ⟨i, s₁, l₁, hnamei, hledger, hend⟩
          · refine .same s hsame ?_ ⟨_, rfl, .inl rfl⟩
            rintro ⟨_, _, _, _, ⟨⟩, hnamei', -⟩
            rw [hnamei] at hnamei'
            cases hnamei'
          · cases ret with
            | ok =>
                obtain ⟨k, r, m, hk, hshort, hp⟩ := hend
                exact .detached target i s₁ s l₁ k r m rfl rfl hnamei hledger hk hshort hp
            | eof =>
                rcases hend with ⟨hno, hsame⟩ | ⟨hyes, k, hbefore, hafter⟩
                · refine .same s hsame ?_ ⟨_, rfl, .inl rfl⟩
                  rintro ⟨_, _, _, _, ⟨⟩, hnamei', hrefuses⟩
                  rw [hnamei] at hnamei'
                  cases hnamei'
                  exact hno hrefuses
                · exact .refused s k ⟨target, i, s₁, l₁, rfl, hnamei, hyes⟩ rfl hbefore hafter
      | mkfs devname n =>
          have hend := wp_sysMkfs hwf htidy ret s l hrun fun _ _ => trivial
          cases ret with
          | ok =>
              obtain ⟨k, r, hp⟩ := hend
              exact .formatted s k r ⟨devname, n, rfl⟩ rfl hp
          | eof =>
              exact .same s hend (not_givesUp nofun) ⟨_, rfl, .inl rfl⟩
      | chdir path =>
          have hend := wp_sysChdir hwf htidy ret s l hrun fun _ _ => trivial
          cases ret with
          | ok =>
              obtain ⟨i, hp⟩ := hend
              refine .moved _ i _ s ⟨path, .inl rfl⟩ hp fun j => ?_
              change _ + hit (some i) j + hit (some (y.procs t).task.ipwd) j = _
              rw [add_right_comm]
              rfl
          | eof => exact .same s hend (not_givesUp nofun) ⟨_, rfl, .inl rfl⟩
      | chroot path =>
          have hend := wp_sysChroot hwf htidy ret s l hrun fun _ _ => trivial
          cases ret with
          | ok =>
              obtain ⟨i, hp⟩ := hend
              refine .moved _ i _ s ⟨path, .inr rfl⟩ hp fun j => ?_
              change hit (some i) j + hit (some (y.procs t).task.ipwd) j +
                  hit (some (y.procs t).task.iroot) j =
                hit (some (y.procs t).task.iroot) j + hit (some (y.procs t).task.ipwd) j +
                  hit (some i) j
              omega
          | eof => exact .same s hend (not_givesUp nofun) ⟨_, rfl, .inl rfl⟩
      | mkdir path mode =>
          have hledger := wp_sysMkdir hwf.ledger ret s l hrun fun _ _ => trivial
          exact .same s (Same.of_ledger hledger htidy) (not_givesUp nofun) ⟨_, rfl, .inr rfl⟩
      | rmdir path =>
          have hledger := wp_sysRmdir hwf.ledger ret s l hrun fun _ _ => trivial
          exact .same s (Same.of_ledger hledger htidy) (not_givesUp nofun) ⟨_, rfl, .inr rfl⟩
      | link old new =>
          have hledger := wp_sysLink hwf.ledger ret s l hrun fun _ _ => trivial
          exact .same s (Same.of_ledger hledger htidy) (not_givesUp nofun) ⟨_, rfl, .inr rfl⟩
      | unlink path =>
          have hledger := wp_sysUnlink hwf.ledger ret s l hrun fun _ _ => trivial
          exact .same s (Same.of_ledger hledger htidy) (not_givesUp nofun) ⟨_, rfl, .inr rfl⟩
      | mknod path mode dev =>
          have hledger := wp_sysMknod hwf.ledger ret s l hrun fun _ _ => trivial
          exact .same s (Same.of_ledger hledger htidy) (not_givesUp nofun) ⟨_, rfl, .inr rfl⟩
      | stat path =>
          have hstat : wp (fun _ => True) (FsCall.code y.root (.stat path))
              (fun _ s' => Ledger (y.enter t now) [] [] s') (y.enter t now) := by
            refine (wp_bind _ _).mpr (wp_mono (wp_sysStat hwf.ledger) fun o s' h' => ?_)
            exact (wp_pure _).mpr h'
          have hledger := hstat ret s l hrun fun _ _ => trivial
          exact .same s (Same.of_ledger hledger htidy) (not_givesUp nofun) ⟨_, rfl, .inr rfl⟩
  | «open» path flags mode =>
      obtain ⟨o, s, f, fd, l, l', hrun, hopen, rfl⟩ := call_open hcall
      have hledger := wp_inodeOpen hwf.ledger o s l hrun fun _ _ => trivial
      have hfiling := (after_sysOpen fd f l' hopen).2
      refine .opened o s f ⟨path, flags, mode, rfl⟩ hledger ?_
      have ho : (o.map (opened s)).map (·.inode) = o := by
        cases o <;> rfl
      rwa [ho] at hfiling
  | close fd =>
      obtain ⟨s, f, l, l', hclose, hrun, rfl⟩ := call_close hcall
      obtain ⟨hevents, hfiling⟩ := after_sysClose h.fds _ f l hclose
      have hphase := Phase.of_ledger hwf.ledger htidy.pipe
      refine .closed (given l) s f ⟨fd, rfl⟩ ?_ hfiling
      rcases hevents with rfl | ⟨n, j, rfl⟩
      · cases hrun
        exact hphase
      · have hheld : 0 < (y.fs.inodes j).count := by
          have hrefs := hfiling.refs j
          have hcount := h.count j
          rw [show given [.iput n j] = some j from rfl, hit_self, hit_none] at hrefs
          unfold Sys.holders at hcount
          omega
        have hput : wp (fun _ => True) (release [.iput n j]) (fun _ s' =>
            Phase (y.enter t now) [] [j] (slots y.fs) (mounts y.fs) s') (y.enter t now) := by
          refine (wp_bind _ _).mpr (hphase.wp_iput ?_ fun s₁ h₁ _ => (wp_pure _).mpr h₁)
          rw [List.count_nil]
          exact Nat.lt_of_lt_of_le hheld (Nat.le_add_right _ _)
        exact hput _ s l' hrun fun _ _ => trivial

theorem Accounted.effect {a : Act} (h : Accounted y) (ht : a.task ∈ y.files.live)
    (hclean : ¬GivesUp y a) (heffect : Effect y a y') : Accounted y' := by
  cases heffect with
  | same s hp hno hcall => exact h.same ht hp
  | refused s k hyes => exact absurd hyes hclean
  | attached s k r i d hp hcall hret => exact h.attached ht hp
  | detached target i s₁ s l k r m hcall hret hnamei hledger hk hshort hp => exact h.detached ht hp
  | formatted s k r hcall hret hp => exact h.formatted ht hp
  | moved τ i old s hcall hp hplaces => exact h.moved ht hp hplaces
  | opened o s f hcall hledger hfiling =>
      have hp := Phase.of_ledger hledger (h.enter_tidy a.task a.now).pipe
      refine h.still ht hp hfiling.live (hfiling.fds h.fds) fun i => ?_
      have hrefs := hfiling.refs i
      rw [hit_none] at hrefs
      rw [count_toList, List.count_nil]
      exact hrefs
  | closed o s f hcall hp hfiling =>
      refine h.still ht hp hfiling.live (hfiling.fds h.fds) fun i => ?_
      have hrefs := hfiling.refs i
      rw [hit_none] at hrefs
      rw [count_toList, List.count_nil]
      exact hrefs

/-- In a run in which no `sys_umount` gives up a super block, the counts are those of the
references. -/
theorem Accounted.run {y₀ : Sys} (h : Accounted y₀)
    (hrun : Run Step (fun y a => ¬GivesUp y a) y₀ y) : Accounted y :=
  hrun.invariant (fun _ _ _ hy hclean hstep => hy.effect hstep.1 hclean (step_cases hy hstep)) h

end Ylos.System
