import Ylos.Verification.Mount.Calm
import Ylos.Verification.Path.Access

/-! # Files that `inode_open` creates -/

namespace Ylos.Paths

open Exec Dir Mount

variable {s s' s'' : Fs} {path name : Path} {flags mode i dir nr v : ℕ} {dev : ℤ} {f : Field}
  {good : Event → Prop} {e : Found}

/-! ## The task stays the same -/

def SameTask (s s' : Fs) : Prop := s'.task = s.task

instance : IsPreorder Fs SameTask where
  refl _ := rfl
  trans _ _ _ h h' := Eq.trans h' h

theorem sameTask_of_calms {α : Type} {x : K α} (h : Calms x) : Keeps SameTask x :=
  fun s => wp_mono (h s) fun _ _ hcalm => hcalm.task

theorem sameTask_of_unwritten {α : Type} {x : K α} (h : Tacit Unwritten x) : Keeps SameTask x :=
  h.keeps.mono fun _ _ hun => hun.task

theorem sameTask_brelse (o : Option BufRef) : Keeps SameTask (brelse o) :=
  sameTask_of_calms (calms_brelse o)

theorem sameTask_entryBlock (dir i : ℕ) (create : Bool) (buf : Option BufRef) (off : ℕ) :
    Keeps SameTask (entryBlock dir i create buf off) := by
  have hread : Keeps SameTask (do
      let block ← bmap dir (i / BLOCK_DENTRIES) create
      check (block ≠ 0)
      return (← bread (← gets (·.inodes dir)).dev block, 0)) :=
    (sameTask_of_calms (calms_bmap _ _ _)).bind fun _ => (keeps_check _).bind fun _ =>
      (keeps_gets _).bind fun _ => (sameTask_of_calms (calms_bread _ _)).bind fun _ =>
        keeps_pure _
  cases buf with
  | none => exact hread
  | some b => exact .ite (keeps_pure _) ((sameTask_brelse _).bind fun _ => hread)

theorem sameTask_addLoop (dir : ℕ) (name : Path) (fuel i : ℕ) (buf : Option BufRef) (off : ℕ) :
    Keeps SameTask (addLoop dir name fuel i buf off) := by
  induction fuel generalizing i buf off with
  | zero => exact keeps_fault _
  | succ fuel ih =>
      refine (sameTask_entryBlock dir i true buf off).bind fun r => (keeps_gets _).bind fun _ => ?_
      have hput : ∀ x, Keeps SameTask (setEntryNr ⟨r.1, r.2, []⟩ x) := fun x =>
        sameTask_of_calms (calms_putU16 _ _ _ _)
      have hfield : ∀ f x, Keeps SameTask (setField dir f x) := fun f x =>
        sameTask_of_calms (calms_setField dir f x)
      have hdirty : Keeps SameTask (dirtyInode dir) := sameTask_of_calms (calms_dirtyInode dir)
      have hrest : Keeps SameTask (do
          if (← entryNr ⟨r.1, r.2, []⟩) ≠ 0 then
            addLoop dir name fuel (i + 1) (some r.1) (r.2 + DENTRY_SIZE)
          else
            copyName ⟨r.1, r.2, []⟩ name
            setDirty r.1
            setField dir .mtime (← gets (·.now))
            dirtyInode dir
            return ⟨r.1, r.2, []⟩) := by
        refine (keeps_gets _).bind fun _ => .ite (ih _ _ _) ?_
        refine (sameTask_of_calms (calms_setData _ _)).bind fun _ => ?_
        refine (sameTask_of_calms (calms_setDirty _)).bind fun _ => (keeps_gets _).bind fun _ => ?_
        exact (hfield _ _).bind fun _ => hdirty.bind fun _ => keeps_pure _
      exact .ite ((hput _).bind fun _ => (hfield _ _).bind fun _ => hdirty.bind fun _ => hrest) hrest

theorem sameTask_addEntry (dir : ℕ) (name : Path) : Keeps SameTask (addEntry dir name) := by
  refine (sameTask_of_unwritten (unwritten_findEntry dir name)).bind fun r => ?_
  obtain ⟨dir, found⟩ := r
  cases found with
  | some e => exact keeps_pure _
  | none => exact (keeps_check _).bind fun _ => (keeps_gets _).bind fun _ =>
      sameTask_addLoop _ _ _ _ _ _

/-! ## A new descriptor -/

/-- The bytes of two fields are apart. -/
def Field.Apart (f g : Field) : Prop :=
  f.offset + f.width ≤ g.offset ∨ g.offset + g.width ≤ f.offset

instance (f g : Field) : Decidable (Field.Apart f g) := inferInstanceAs (Decidable (_ ∨ _))

/-- The field `f` of inode `i` has become `v`. -/
structure Assigned (s : Fs) (i : ℕ) (f : Field) (v : ℕ) (s' : Fs) : Prop where
  task : s'.task = s.task
  same : s'.desc i f = v % 256 ^ f.width
  other : ∀ g, Field.Apart f g → s'.desc i g = s.desc i g

theorem wp_setField {Q : Unit → Fs → Prop} (hQ : ∀ s', Assigned s i f v s' → Q () s') :
    wp good (setField i f v) Q s := by
  refine (wp_modify _).mpr (hQ _ ⟨rfl, ?_, fun g hg => ?_⟩)
  · unfold Fs.desc
    rw [Fs.data_setImg]
    change Bytes.read _ (if (s.inodes i).buf = (s.inodes i).buf then _ else _) _ = _
    rw [if_pos rfl]
    exact Bytes.read_write_same _ _ _ _
  · unfold Fs.desc
    rw [Fs.data_setImg]
    change Bytes.read _ (if (s.inodes i).buf = (s.inodes i).buf then _ else _) _ = _
    rw [if_pos rfl]
    refine Bytes.read_write_ne ?_
    change DESC_SIZE * (s.inodes i).slot + g.offset + g.width ≤
        DESC_SIZE * (s.inodes i).slot + f.offset ∨
      DESC_SIZE * (s.inodes i).slot + f.offset + f.width ≤
        DESC_SIZE * (s.inodes i).slot + g.offset
    unfold Field.Apart at hg
    omega

/-- Neither the task nor any descriptor in core has changed. -/
structure SameDescs (s s' : Fs) : Prop where
  task : s'.task = s.task
  desc : ∀ i f, s'.desc i f = s.desc i f

theorem Seated.sameDescs (h : Seated s s') (himg : s'.img = s.img) (htask : s'.task = s.task) :
    SameDescs s s' := by
  refine ⟨htask, fun i f => ?_⟩
  change Dir.descOf s' (siteAt s' i) f = Dir.descOf s (siteAt s i) f
  rw [h.descOf, descOf_congr himg]

theorem wp_setAtime {Q : Unit → Fs → Prop} (hQ : ∀ s', SameDescs s s' → Q () s') :
    wp good (setAtime i) Q s := by
  have hseat : Tacit Seated (setAtime i) := lax_seated.tacit_setAtime i
  have hun : Tacit Unwritten (setAtime i) := lax_unwritten.tacit_setAtime i
  exact wp_mono (wp_and (wp_weaken (hseat.keeps s)) (wp_weaken (hun.keeps s))) fun _ s' h =>
    hQ s' (h.1.sameDescs h.2.img h.2.task)

theorem wp_dirtyInode {Q : Unit → Fs → Prop} (hQ : ∀ s', SameDescs s s' → Q () s') :
    wp good (dirtyInode i) Q s := by
  unfold dirtyInode setDirty
  simp only [wp_bind, wp_gets, wp_modify]
  exact hQ _ ⟨rfl, fun _ _ => rfl⟩

/-- The inode `i` belongs to the task, and has one link. -/
structure OwnedBy (task : Task) (i : ℕ) (s : Fs) : Prop where
  caller : s.task = task
  uid : s.desc i .uid = task.uid % 2 ^ 16
  gid : s.desc i .gid = task.gid % 2 ^ 8
  nlinks : s.desc i .nlinks = 1

theorem wp_newInode : wp good (newInode dev nr) (fun i => OwnedBy s.task i) s := by
  unfold newInode
  rw [wp_bind, wp_gets, wp_bind]
  refine (unwritten_iget dev nr).wp fun i s₁ h₁ => ?_
  rw [wp_bind]
  refine wp_dirtyInode fun s₂ h₂ => ?_
  rw [wp_bind]
  refine wp_setField fun s₃ h₃ => ?_
  rw [wp_bind]
  refine wp_setField fun s₄ h₄ => ?_
  rw [wp_bind]
  refine wp_setField fun s₅ h₅ => ?_
  rw [wp_bind]
  refine wp_setAtime fun s₆ h₆ => ?_
  rw [wp_bind, wp_gets, wp_bind]
  refine wp_setField fun s₇ h₇ => ?_
  rw [wp_bind]
  refine wp_setField fun s₈ h₈ => ?_
  rw [wp_bind]
  refine wp_setField fun s₉ h₉ => (wp_pure _).mpr ⟨?_, ?_, ?_, h₉.same⟩
  · rw [h₉.task, h₈.task, h₇.task, h₆.task, h₅.task, h₄.task, h₃.task, h₂.task, h₁.task]
  · rw [h₉.other _ (by decide), h₈.other _ (by decide), h₇.other _ (by decide), h₆.desc,
      h₅.other _ (by decide), h₄.same]
    rfl
  · rw [h₉.other _ (by decide), h₈.same]
    rfl

/-- The mode of a new file. -/
def createdMode (task : Task) (mode : ℕ) : ℕ :=
  (mode &&& (0o777 &&& (0xFFFF ^^^ task.umask))) ||| IFREG

theorem createdMode_lt (task : Task) : createdMode task mode < 2 ^ 16 := by
  refine Nat.or_lt_two_pow ?_ (by decide)
  exact (Nat.and_le_right.trans Nat.and_le_left).trans_lt (by decide)

theorem createdMode_not_dir (task : Task) : isDir (createdMode task mode) = false := by
  -- Bit 15 is that of `IFREG`.
  refine decide_eq_false fun hdir => ?_
  have hbit := congrArg (·.testBit 15) hdir
  have hreg : IFREG.testBit 15 = true := by decide
  have hfmt : IFMT.testBit 15 = true := by decide
  have hnot : IFDIR.testBit 15 = false := by decide
  simp only [createdMode, Nat.testBit_and, Nat.testBit_or, hreg, hfmt, hnot, Bool.or_true,
    Bool.and_true] at hbit
  cases hbit

/-- A new file grants its creator the access that `flags` asks for. -/
def GrantsNew (task : Task) (flags mode : ℕ) : Prop :=
  allowed task (accMode (truncFlags flags)) (createdMode task mode) 1 (task.uid % 2 ^ 16)
    (task.gid % 2 ^ 8) = true

/-! ## From `makeup` on -/

theorem after_openFail {Q : Option ℕ → Fs → List Event → Prop}
    (hQ : ∀ s', s'.img = s.img → Q none s' []) : after (openMakeup.openFail dir i e) Q s := by
  unfold openMakeup.openFail
  refine (lax_unwritten.tacit_brelse _).after_bind fun _ s₁ h₁ => ?_
  refine (lax_unwritten.tacit_iput _).after_bind fun _ s₂ h₂ => ?_
  refine (lax_unwritten.tacit_iput _).after_bind fun _ s₃ h₃ => (after_pure _).mpr (hQ s₃ ?_)
  rw [h₃.img, h₂.img, h₁.img]

/-- The call fails exactly if the descriptor does not grant the access, and then no buffer has
changed since `makeup`. -/
theorem after_openMakeup : after (openMakeup flags dir i e) (fun r s' l =>
    (r = none ↔ ¬Granted s (siteAt s i) flags) ∧ (r = none → s'.img = s.img) ∧ l = []) s := by
  have hfail : ¬Granted s (siteAt s i) flags → after (openMakeup.openFail dir i e) (fun r s' l =>
      (r = none ↔ ¬Granted s (siteAt s i) flags) ∧ (r = none → s'.img = s.img) ∧ l = []) s :=
    fun hno => after_openFail fun _ himg => ⟨iff_of_true rfl hno, fun _ => himg, rfl⟩
  unfold openMakeup
  refine after_bind_run (run_permission i _) ((after_ite _ _ _).mpr ⟨fun hdenied => ?_,
    fun hallowed => ?_⟩)
  · refine hfail fun h => ?_
    have hallowed : allowed s.task (accMode flags) (s.desc i .mode) (s.desc i .nlinks)
      (s.desc i .uid) (s.desc i .gid) = true := h.1
    simp [hallowed] at hdenied
  refine after_bind_run (run_gets _ s) ((after_ite _ _ _).mpr ⟨fun hdir => ?_, fun hdir => ?_⟩)
  · exact hfail fun h => hdir.2 (h.2 hdir.1)
  have hgranted : Granted s (siteAt s i) flags := by
    refine ⟨?_, fun h => by_contra fun hno => hdir ⟨h, hno⟩⟩
    change allowed s.task (accMode flags) (s.desc i .mode) (s.desc i .nlinks) (s.desc i .uid)
      (s.desc i .gid) = true
    simpa using hallowed
  have hrest : ∀ s₁, after (do
      brelse (some e.buf)
      iput (some dir)
      return some i) (fun r s' l =>
        (r = none ↔ ¬Granted s (siteAt s i) flags) ∧ (r = none → s'.img = s.img) ∧ l = []) s₁ := by
    intro s₁
    refine (lax_seated.tacit_brelse _).after_bind fun _ s₂ _ => ?_
    refine (lax_seated.tacit_iput _).after_bind fun _ s₃ _ => (after_pure _).mpr ⟨?_, nofun, rfl⟩
    exact iff_of_false nofun (not_not.mpr hgranted)
  refine (lax_seated.tacit_setAtime i).after_bind fun _ s₁ _ => (after_ite _ _ _).mpr
    ⟨fun _ => ?_, fun _ => hrest s₁⟩
  exact (seated_inodeTruncate i).after_bind fun _ s₂ _ => hrest s₂

/-! ## The call -/

/-- The call comes to create a file: the name is not there, it is asked for, and the task may
write the directory. -/
def Creates (path : Path) (flags : ℕ) (s : Fs) : Prop :=
  ∃ dir name s₁ l₁ dir' s₂ l₂, (named path).run s = .ok (some (dir, name), s₁, l₁) ∧
    chr name ≠ 0 ∧ (findEntry dir name).run s₁ = .ok ((dir', none), s₂, l₂) ∧
    flags &&& O_CREAT ≠ 0 ∧ allowed s₂.task P_WRITE (s₂.desc dir' .mode) (s₂.desc dir' .nlinks)
      (s₂.desc dir' .uid) (s₂.desc dir' .gid) = true

/-- No buffer has changed, and no file has been created. -/
structure Traceless (s s' : Fs) (l : List Event) : Prop where
  img : s'.img = s.img
  existing : ∀ e ∈ l, Existing e

/-- What follows after the directory is found to have no such entry. -/
def createdOpen (flags mode dir : ℕ) (name : Path) : K (Option ℕ) := do
  let e ← addEntry dir name
  setEntryNr e (← ialloc (← gets (·.inodes dir)).dev)
  let i ← newInode (← gets (·.inodes dir)).dev (← entryNr e)
  let task ← gets (·.task)
  setField i .mode ((mode &&& (0o777 &&& (0xFFFF ^^^ task.umask))) ||| IFREG)
  noteInode i
  openMakeup flags dir i e

theorem truncFlags_creat : truncFlags flags &&& O_CREAT = flags &&& O_CREAT := by
  unfold truncFlags
  split
  · rw [Nat.and_or_distrib_right]
    exact Nat.or_zero _
  · rfl

theorem granted_iff_grantsNew {task : Task} (h : OwnedBy task i s)
    (hmode : s.desc i .mode = createdMode task mode) :
    Granted s (siteAt s i) (truncFlags flags) ↔ GrantsNew task flags mode := by
  change (allowed s.task (accMode (truncFlags flags)) (s.desc i .mode) (s.desc i .nlinks)
    (s.desc i .uid) (s.desc i .gid) = true ∧ (isDir (s.desc i .mode) = true → _)) ↔ _
  rw [h.caller, hmode, h.nlinks, h.uid, h.gid, createdMode_not_dir]
  exact and_iff_left nofun

theorem run_noteInode : (noteInode i).run s = .ok ((), s, [.inode (s.desc i .mode)
    ((List.range 9).map fun z => s.desc i (.zone z))]) := rfl

theorem after_noteInode {Q : Unit → Fs → List Event → Prop}
    (hQ : ∀ e, ¬Existing e → Q () s [e]) : after (noteInode i) Q s := by
  intro _ s' l hrun
  rw [run_noteInode] at hrun
  cases hrun
  exact hQ _ fun hold => hold _ _ rfl

/-- The file has been created before the access is checked. -/
theorem after_createdOpen : after (createdOpen (truncFlags flags) mode dir name) (fun r _ l =>
    (r = none ↔ ¬GrantsNew s.task flags mode) ∧ ∃ e ∈ l, ¬Existing e) s := by
  unfold createdOpen
  rw [after_bind]
  refine (sameTask_addEntry dir name).after fun e s₁ l₁ h₁ => ?_
  rw [after_bind, after_gets, after_bind]
  refine (sameTask_of_calms (calms_ialloc _)).after fun new s₂ l₂ h₂ => ?_
  rw [after_bind]
  refine (sameTask_of_calms (calms_putU16 _ _ _ _)).after fun _ s₃ l₃ h₃ => ?_
  rw [after_bind, after_gets, after_bind]
  refine (after_gets _).mpr ?_
  rw [after_bind]
  refine after_mono (after_of_wp wp_newInode) fun i s₄ l₄ h₄ => ?_
  have htask : s₃.task = s.task := Eq.trans h₃ (Eq.trans h₂ h₁)
  rw [htask] at h₄
  rw [after_bind, after_gets, after_bind]
  refine after_mono (after_of_wp (wp_setField (Q := fun _ => Assigned s₄ i .mode _) fun _ h => h))
    fun _ s₅ l₅ h₅ => ?_
  have howned : OwnedBy s.task i s₅ := by
    refine ⟨h₅.task.trans h₄.caller, ?_, ?_, ?_⟩
    · rw [h₅.other _ (by decide), h₄.uid]
    · rw [h₅.other _ (by decide), h₄.gid]
    · rw [h₅.other _ (by decide), h₄.nlinks]
  have hmode : s₅.desc i .mode = createdMode s.task mode := by
    rw [h₅.same, h₄.caller]
    exact Nat.mod_eq_of_lt (createdMode_lt _)
  rw [after_bind]
  refine after_noteInode fun new hnew => after_mono after_openMakeup fun r s₇ l₇ h₇ => ⟨?_, ?_⟩
  · rw [h₇.1, granted_iff_grantsNew howned hmode]
  · exact ⟨new, by simp, hnew⟩

/-- As the calls before are deterministic, one run of them decides. -/
theorem creates_iff {s₁ s₂ : Fs} {l₁ l₂ : List Event} {dir' : ℕ} {found : Option Found}
    (hnamed : (named path).run s = .ok (some (dir, name), s₁, l₁)) (hname : chr name ≠ 0)
    (hfind : (findEntry dir name).run s₁ = .ok ((dir', found), s₂, l₂)) :
    Creates path flags s ↔ found = none ∧ flags &&& O_CREAT ≠ 0 ∧
      allowed s₂.task P_WRITE (s₂.desc dir' .mode) (s₂.desc dir' .nlinks) (s₂.desc dir' .uid)
        (s₂.desc dir' .gid) = true := by
  constructor
  · rintro ⟨d, n, t₁, k₁, d', t₂, k₂, hnamed', -, hfind', hrest⟩
    rw [hnamed] at hnamed'
    cases hnamed'
    rw [hfind] at hfind'
    cases hfind'
    exact ⟨rfl, hrest⟩
  · rintro ⟨rfl, hrest⟩
    exact ⟨dir, name, s₁, l₁, dir', s₂, l₂, hnamed, hname, hfind, hrest⟩

theorem not_creates_of_named {s₁ : Fs} {l₁ : List Event} {o : Option (ℕ × Path)}
    (hnamed : (named path).run s = .ok (o, s₁, l₁)) (ho : ∀ p ∈ o, chr p.2 = 0) :
    ¬Creates path flags s := by
  rintro ⟨d, n, t₁, k₁, d', t₂, k₂, hnamed', hname, -⟩
  rw [hnamed] at hnamed'
  cases hnamed'
  exact hname (ho _ rfl)

/-- What follows after the entry is found. -/
theorem after_openFound : after (do
      let i ← iget (← gets (·.inodes dir)).dev (← entryNr e)
      openMakeup flags dir i e) (fun r s' l => r = none → s'.img = s.img ∧ l = []) s := by
  refine after_bind_run (run_gets _ s) (after_bind_run (run_gets _ s) ?_)
  refine (unwritten_iget _ _).after_bind fun i s₁ h₁ => ?_
  refine after_mono after_openMakeup fun r s₂ l h₂ hr => ⟨?_, h₂.2.2⟩
  rw [h₂.2.1 hr, h₁.img]

theorem Traceless.of_silent (himg : s'.img = s.img) : Traceless s s' [] := ⟨himg, nofun⟩

/-- A call that fails leaves no trace exactly if it does not come to create a file that would
not grant the access asked for. -/
theorem failed_open_traceless_iff {r : Option ℕ} {l : List Event}
    (hrun : (inodeOpen path flags mode).run s = .ok (r, s', l)) :
    (r = none → Traceless s s' l) ↔ (Creates path flags s → GrantsNew s.task flags mode) := by
  unfold inodeOpen at hrun
  obtain ⟨named?, s₁, l₁, l₂, hnamed, hrest, rfl⟩ := bind_eq_ok.mp hrun
  have h₁ : Unwritten s s₁ := (unwritten_named path).keeps s _ _ _ hnamed fun _ _ => trivial
  obtain rfl : l₁ = [] := (unwritten_named path).silent _ _ _ _ hnamed
  rw [List.nil_append]
  cases named? with
  | none =>
      cases hrest
      exact iff_of_true (fun _ => .of_silent h₁.img) fun hcreates =>
        absurd hcreates (not_creates_of_named hnamed (by simp))
  | some p =>
      obtain ⟨dir, name⟩ := p
      dsimp only at hrest
      split at hrest
      · rename_i hempty
        cases hrest
        refine iff_of_true (by simp) fun hcreates => absurd hcreates (not_creates_of_named hnamed ?_)
        rintro _ ⟨⟩
        exact hempty
      rename_i hname
      rw [← truncFlags] at hrest
      obtain ⟨⟨dir', found⟩, s₂, l₃, l₄, hfind, hrest, rfl⟩ := bind_eq_ok.mp hrest
      have h₂ : Unwritten s₁ s₂ :=
        (unwritten_findEntry dir name).keeps s₁ _ _ _ hfind fun _ _ => trivial
      obtain rfl : l₃ = [] := (unwritten_findEntry dir name).silent _ _ _ _ hfind
      have himg : s₂.img = s.img := h₂.img.trans h₁.img
      rw [List.nil_append, creates_iff hnamed hname hfind]
      cases found with
      | some e =>
          refine iff_of_true (fun hr => ?_) (by simp)
          have hdone := after_openFound r s' l₄ hrest hr
          rw [hdone.2]
          exact .of_silent (hdone.1.trans himg)
      | none =>
          have hquit : ∀ {l}, (do
              iput (some dir')
              return none : K (Option ℕ)).run s₂ = .ok (r, s', l) → Traceless s s' l := by
            intro l hput
            obtain ⟨_, s₃, l₁, l₂, hiput, hpure, rfl⟩ := bind_eq_ok.mp hput
            cases hpure
            rw [(lax_unwritten.tacit_iput _).silent _ _ _ _ hiput]
            have h₃ : Unwritten s₂ s' :=
              (lax_unwritten.tacit_iput _).keeps s₂ _ _ _ hiput fun _ _ => trivial
            exact .of_silent (h₃.img.trans himg)
          dsimp only at hrest
          rw [truncFlags_creat] at hrest
          split at hrest
          · rename_i hflag
            exact iff_of_true (fun _ => hquit hrest) fun hcreates => absurd hflag hcreates.2.1
          rename_i hflag
          rw [run_bind _ (run_permission _ _)] at hrest
          split at hrest
          · rename_i hdenied
            refine iff_of_true (fun _ => hquit hrest) fun hcreates => ?_
            simp [hcreates.2.2] at hdenied
          rename_i hallowed
          have hcreated := after_createdOpen r s' l₄ hrest
          rw [show s₂.task = s.task from h₂.task.trans h₁.task] at hcreated
          obtain ⟨hnone, e, hmem, hnew⟩ := hcreated
          constructor
          · intro htraceless _
            by_contra hno
            exact hnew ((htraceless (hnone.mpr hno)).existing e hmem)
          · intro hgrants hr
            exact absurd (hgrants ⟨rfl, hflag, by simpa using hallowed⟩) (hnone.mp hr)

/-! ## A directory for everybody -/

/-- The blocks of a device like that of `grown`, with its bitmaps, and `/` with the mode 0777. -/
def sharedBlock : ℕ → List UInt8
  | 2 => [7]
  | 3 => [7]
  | 4 => [255, 65] ++ (grownBlock 4).drop 2
  | k => grownBlock k

/-- A task that is not the superuser's. -/
def shared : Fs :=
  asUser { grown with
    img := fun _ k o => (sharedBlock k).getD o 0
    supers := fun k =>
      if k = 0 then { grown.supers 0 with
        imaps := fun i => if i = 0 then some ⟨1, 2⟩ else none
        zmaps := fun i => if i = 0 then some ⟨1, 3⟩ else none }
      else grown.supers k } 1 1

/-- `/x` is opened to be written and created with the mode 0444. -/
theorem run_shared : ∃ s' l, (inodeOpen [47, 120] (O_CREAT ||| O_WRONLY) 0o444).run shared =
    .ok (none, s', l) ∧ s'.img 1 5 48 = 3 := by
  have hreturns : returnsBool (inodeOpen [47, 120] (O_CREAT ||| O_WRONLY) 0o444)
      (fun r s' => decide (r = none ∧ s'.img 1 5 48 = 3)) shared = true := by
    decide +kernel
  obtain ⟨r, s', l, hrun, hr⟩ := returns_of_bool hreturns
  obtain ⟨rfl, hbyte⟩ := of_decide_eq_true hr
  exact ⟨s', l, hrun, hbyte⟩

/-- Nobody gets to open the file, and it has an entry with its number. -/
theorem exists_trace : ∃ path flags mode s s' l,
    (inodeOpen path flags mode).run s = .ok (none, s', l) ∧ ¬Traceless s s' l := by
  obtain ⟨s', l, hrun, hbyte⟩ := run_shared
  refine ⟨_, _, _, shared, s', l, hrun, fun htraceless => ?_⟩
  rw [htraceless.img] at hbyte
  exact absurd hbyte (by decide)

theorem shared_traceless_iff : ∃ s' l,
    (inodeOpen [47, 120] (O_CREAT ||| O_WRONLY) 0o444).run shared = .ok (none, s', l) ∧
      (Traceless shared s' l ↔ (Creates [47, 120] (O_CREAT ||| O_WRONLY) shared →
        GrantsNew shared.task (O_CREAT ||| O_WRONLY) 0o444)) := by
  obtain ⟨s', l, hrun, -⟩ := run_shared
  have hiff := failed_open_traceless_iff hrun
  exact ⟨s', l, hrun, ⟨fun h => hiff.mp fun _ => h, fun h => hiff.mpr h rfl⟩⟩

end Ylos.Paths
