import Ylos.Verification.File.Counts

/-! # What `dup2` does -/

namespace Ylos.Files

open Exec

variable {s s' : State} {X Y : List ℕ} {t u fd file newfd oldfd : ℕ} {v : File}

/-! ## Descriptors lead to inodes -/

/-- Every descriptor of a live task leads to a slot with an inode, but for the slots in `X`,
whose inode is still to be stored. -/
def Backed (X : List ℕ) (s : State) : Prop :=
  ∀ u ∈ s.live, ∀ i f, s.files u i = some f →
    f < FILE_NR ∧ (f ∉ X → (s.fileTable f).inode ≠ none)

theorem Backed.setFile (h : Backed X s) (hv : v.inode = (s.fileTable file).inode) :
    Backed X (s.setFile file v) := by
  intro u hu i f hf
  obtain ⟨hlt, hinode⟩ := h u hu i f hf
  refine ⟨hlt, fun hX => ?_⟩
  by_cases heq : f = file
  · rw [heq, setFile_self, hv, ← heq]
    exact hinode hX
  · rw [setFile_ne _ heq]
    exact hinode hX

/-- The inode of a slot is stored. -/
theorem Backed.fill (h : Backed X s) (hv : v.inode ≠ none) (hX : ∀ f ∈ X, f = file ∨ f ∈ Y) :
    Backed Y (s.setFile file v) := by
  intro u hu i f hf
  obtain ⟨hlt, hinode⟩ := h u hu i f hf
  refine ⟨hlt, fun hY => ?_⟩
  by_cases heq : f = file
  · rw [heq, setFile_self]
    exact hv
  · rw [setFile_ne _ heq]
    exact hinode fun hmem => (hX f hmem).elim heq hY

theorem Backed.setFd {target : Option ℕ} (h : Backed X s)
    (htarget : ∀ f, target = some f → f < FILE_NR ∧ (f ∉ X → (s.fileTable f).inode ≠ none)) :
    Backed X (s.setFd t fd target) := by
  intro u hu i f hf
  change (if _ then _ else _) = _ at hf
  split at hf
  · exact htarget f hf
  · exact h u hu i f hf

/-- A new slot goes into a descriptor before its inode is stored. -/
theorem Backed.open (h : Backed X s) (hlt : file < FILE_NR) :
    Backed (file :: X) (s.setFd t fd (some file)) := by
  have hweak : Backed (file :: X) s := by
    intro u hu i f hf
    obtain ⟨hf', hinode⟩ := h u hu i f hf
    exact ⟨hf', fun hX => hinode fun hmem => hX (List.mem_cons_of_mem _ hmem)⟩
  apply hweak.setFd
  rintro f ⟨⟩
  exact ⟨hlt, fun hX => absurd List.mem_cons_self hX⟩

theorem wp_backed_getFile (h : Backed X s) :
    wp (fun _ => True) getFile (fun file s' => Backed X s' ∧ file < FILE_NR) s := by
  unfold getFile modifyFile
  simp only [wp_bind, wp_get]
  split
  · exact wp_fault _
  · rename_i file hfind
    simp only [wp_bind, wp_modify, wp_note, wp_pure]
    have hmem := (List.find?_range'_eq_some.mp hfind).2.1
    rw [List.mem_range'_1] at hmem
    unfold FILE_NR at hmem ⊢
    exact fun _ => ⟨h.setFile rfl, by omega⟩

theorem wp_backed_pipeEnd (h : Backed X s) :
    wp (fun _ => True) (pipeEnd t) (fun r s' => Backed (r.2 :: X) s') s := by
  unfold pipeEnd taskGetFd
  simp only [wp_bind, wp_get]
  split
  · exact wp_fault _
  · rw [wp_pure]
    refine wp_mono (wp_backed_getFile h) ?_
    rintro file s' ⟨h', hlt⟩
    unfold Files.setFd
    simp only [wp_modify, wp_pure]
    exact h'.open hlt

theorem wp_backed_sysPipe {inode : ℕ} (h : Backed [] s) :
    wp (fun _ => True) (sysPipe t inode) (fun _ s' => Backed [] s') s := by
  unfold sysPipe
  rw [wp_bind]
  refine wp_mono (wp_backed_pipeEnd h) ?_
  rintro ⟨fd₀, file₀⟩ s₁ h₁
  simp only [wp_bind]
  refine wp_mono (wp_backed_pipeEnd h₁) ?_
  rintro ⟨fd₁, file₁⟩ s₂ h₂
  unfold modifyFile
  simp only [wp_modify, wp_pure]
  have h₃ : Backed [file₁] (s₂.setFile file₀
      { s₂.fileTable file₀ with inode := some inode, flags := O_RDONLY }) :=
    h₂.fill (by simp) (by simp)
  exact h₃.fill (by simp) (by simp)

theorem wp_backed_sysOpen {inode : Option Opened} {flags : ℕ} (h : Backed [] s) :
    wp (fun _ => True) (sysOpen t inode flags) (fun _ s' => Backed [] s') s := by
  unfold sysOpen
  cases inode with
  | none => exact (wp_pure _).mpr h
  | some inode =>
      unfold taskGetFd
      simp only [wp_bind, wp_get]
      split
      · exact wp_fault _
      · rw [wp_pure]
        refine wp_mono (wp_backed_getFile h) ?_
        rintro file s₁ ⟨h₁, hlt⟩
        unfold Files.setFd modifyFile
        simp only [wp_gets, wp_check, wp_modify, wp_pure]
        intro _
        exact (h₁.open hlt).fill (by simp) (by simp)

theorem wp_backed_sysClose (h : Backed X s) :
    wp (fun _ => True) (sysClose t fd) (fun _ s' => Backed X s' ∧ s'.live = s.live) s := by
  unfold sysClose
  rw [wp_bind, wp_check]
  intro _
  rw [wp_bind, wp_gets]
  cases s.files t fd with
  | none => exact (wp_pure _).mpr ⟨h, rfl⟩
  | some file =>
      unfold putFile taskPutFd modifyFile Files.setFd
      simp only [wp_bind, wp_gets, wp_check, wp_modify, wp_ite, wp_deref, wp_note, wp_pure]
      intro _ _
      have hput : Backed X ((s.setFile file { s.fileTable file with
          count := (s.fileTable file).count - 1 }).setFd t fd none) :=
        Backed.setFd (h.setFile rfl) (by simp)
      exact ⟨fun _ _ _ _ _ => ⟨hput, rfl⟩, fun _ _ => ⟨hput, rfl⟩⟩

theorem wp_backed_dupfd {arg : ℕ} (h : Backed [] s) (ht : t ∈ s.live) :
    wp (fun _ => True) (dupfd t fd arg) (fun _ s' => Backed [] s') s := by
  unfold dupfd
  rw [wp_bind, wp_get, wp_ite]
  refine ⟨fun _ => (wp_pure _).mpr h, fun _ => ?_⟩
  cases hfile : s.files t fd with
  | none => exact (wp_pure _).mpr h
  | some file =>
      simp only
      split
      · exact (wp_pure _).mpr h
      · unfold Files.setFd modifyFile
        simp only [wp_bind, wp_modify, wp_pure]
        refine Backed.setFile (h.setFd ?_) rfl
        rintro f ⟨⟩
        exact h t ht fd file hfile

theorem wp_backed_retainFiles {fds : List ℕ} (h : Backed [] s) :
    wp (fun _ => True) (retainFiles t fds) (fun _ s' => Backed [] s') s := by
  induction fds generalizing s with
  | nil => exact (wp_pure _).mpr h
  | cons fd fds ih =>
      unfold retainFiles
      rw [wp_bind, wp_gets]
      cases s.files t fd with
      | none => exact ih h
      | some file =>
          unfold modifyFile
          simp only [wp_bind, wp_modify]
          exact ih (h.setFile rfl)

theorem wp_backed_closeFiles {fds : List ℕ} (h : Backed [] s) :
    wp (fun _ => True) (closeFiles t fds) (fun _ s' => Backed [] s') s := by
  induction fds generalizing s with
  | nil => exact (wp_pure _).mpr h
  | cons fd fds ih =>
      unfold closeFiles
      simp only [wp_bind, wp_gets, wp_ite]
      refine ⟨fun _ => wp_mono (wp_backed_sysClose h) ?_, fun _ => ih h⟩
      rintro _ s' ⟨h', -⟩
      exact ih h'

theorem wp_backed_code {a : Action} (h : Backed [] s) (ht : t ∈ s.live) :
    wp (fun _ => True) (a.code t) (fun _ s' => Backed [] s') s := by
  cases a with
  | «open» inode flags =>
      refine (wp_bind _ _).mpr (wp_mono (wp_backed_sysOpen h) fun r s' h' => ?_)
      exact (wp_pure _).mpr h'
  | close fd => exact wp_mono (wp_backed_sysClose h) fun _ s' h' => h'.1
  | dup oldfd =>
      refine (wp_bind _ _).mpr (wp_mono (wp_backed_dupfd h ht) fun r s' h' => ?_)
      exact (wp_pure _).mpr h'
  | dup2 oldfd newfd =>
      unfold Action.code sysDup2
      simp only [wp_bind]
      refine wp_mono (wp_backed_sysClose h) ?_
      rintro _ s₁ ⟨h₁, hlive⟩
      refine wp_mono (wp_backed_dupfd h₁ (hlive ▸ ht)) fun r s' h' => ?_
      exact (wp_pure _).mpr h'
  | pipe inode =>
      refine (wp_bind _ _).mpr (wp_mono (wp_backed_sysPipe h) fun r s' h' => ?_)
      exact (wp_pure _).mpr h'
  | fork child =>
      unfold Action.code taskFork
      rw [wp_bind, wp_modify]
      apply wp_backed_retainFiles
      intro u hu i f hf
      by_cases heq : u = child
      · rw [heq] at hf
        exact h t ht i f (by simpa using hf)
      · exact h u ((Finset.mem_insert.mp hu).resolve_left heq) i f (by simpa [heq] using hf)
  | exit =>
      unfold Action.code taskExit
      rw [wp_bind]
      refine wp_mono (wp_backed_closeFiles h) fun _ s' h' => ?_
      rw [wp_modify]
      exact fun u hu => h' u (Finset.mem_of_mem_erase hu)

/-! ## Runs -/

/-- After `file_init` and `dev_init`, with the standard streams of the tasks counted. -/
structure Started (s : State) : Prop extends Initial s where
  streams : ∀ f < 3, (s.fileTable f).count = s.refs f ∧ (s.fileTable f).inode ≠ none

/-- Every slot of the file table is counted, and every descriptor leads to an inode. -/
structure Sound (s : State) : Prop where
  balanced : Balanced (· < FILE_NR) s 0 0
  backed : Backed [] s

theorem Started.sound (h : Started s) : Sound s := by
  refine ⟨⟨fun f hf => hf.2, h.tasks, fun f hf => ?_⟩, ?_⟩
  · by_cases hlt : f < 3
    · rw [(h.streams f hlt).1]
    · exact h.toInitial.balanced.count f ⟨not_lt.mp hlt, hf⟩
  · intro u hu i f hf
    have hlt := h.files u hu i f hf
    exact ⟨hlt.trans (by decide), fun _ => (h.streams f hlt).2⟩

theorem Sound.run (h : Sound s) (hrun : Run Step (fun _ _ => True) s s') : Sound s' := by
  refine ⟨h.balanced.run hrun, ?_⟩
  refine hrun.invariant (P := Backed []) ?_ h.backed
  rintro x a x' hx - ⟨ht, ha, hcode⟩
  exact wp_backed_code hx ht () x' a.2 hcode (by simp)

/-- The count of an open slot, which cannot overflow. -/
theorem Sound.count_eq (hs : Sound s) (ht : t ∈ s.live) (h : s.files t fd = some file) :
    (s.fileTable file).count = s.refs file := by
  simpa using hs.balanced.count file (hs.backed t ht fd file h).1

theorem Sound.count_pos (hs : Sound s) (ht : t ∈ s.live) (hfd : fd < TASK_FILE_NR)
    (h : s.files t fd = some file) : 0 < (s.fileTable file).count := by
  rw [hs.count_eq ht h]
  exact refCount_pos (r := (t, fd)) (mem_descriptors.mpr ⟨ht, hfd⟩) h

theorem Sound.count_le (hs : Sound s) (ht : t ∈ s.live) (h : s.files t fd = some file) :
    (s.fileTable file).count ≤ 1024 := by
  rw [hs.count_eq ht h]
  exact refs_le hs.balanced.tasks

/-! ## `dup2` -/

/-- The state after `sys_close` of a descriptor that leads to `file`. -/
def State.closed (s : State) (t fd file : ℕ) : State :=
  (s.setFile file { s.fileTable file with count := (s.fileTable file).count - 1 }).setFd t fd none

theorem run_sysClose_none (hfd : fd < TASK_FILE_NR) (h : s.files t fd = none) :
    (sysClose t fd).run s = .ok ((), s, []) := by
  unfold sysClose
  rw [run_bind _ (run_check_pos hfd s), run_bind _ (run_gets _ s), h, run_pure]

theorem ends_sysClose (hs : Sound s) (ht : t ∈ s.live) (hfd : fd < TASK_FILE_NR)
    (h : s.files t fd = some file) :
    Ends (sysClose t fd) (fun _ s' _ => s' = s.closed t fd file) s := by
  obtain ⟨hlt, hinode⟩ := hs.backed t ht fd file h
  obtain ⟨inode, hinode⟩ := Option.ne_none_iff_exists'.mp (hinode (by simp))
  have hpos := hs.count_pos ht hfd h
  unfold sysClose
  refine ends_bind (ends_check hfd (ends_bind (ends_gets ?_)))
  rw [h]
  refine ends_bind (ends_gets (ends_bind (ends_check (by simp [hinode]) (ends_bind ?_))))
  unfold putFile modifyFile taskPutFd Files.setFd
  refine ends_bind (ends_gets (ends_bind (ends_check hpos (ends_bind (ends_modify
    (ends_bind (ends_gets ?_)))))))
  have hput : Ends (taskPutFd t fd) (fun _ s' _ => s' = s.closed t fd file)
      (s.setFile file { s.fileTable file with count := (s.fileTable file).count - 1 }) :=
    ends_bind (ends_check hfd (ends_modify rfl))
  split
  · rw [setFile_self, hinode]
    exact ends_bind (ends_pure (ends_note hput))
  · exact ends_pure hput

/-- `dupfd` with the wanted descriptor free. -/
theorem run_dupfd (hold : oldfd < TASK_FILE_NR) (hnew : newfd < TASK_FILE_NR)
    (h : s.files t oldfd = some file) (hfree : s.files t newfd = none) :
    (dupfd t oldfd newfd).run s = .ok (some newfd,
      (s.setFd t newfd (some file)).setFile file (s.fileTable file).retain, []) := by
  have hfind : (List.range' newfd (TASK_FILE_NR - newfd)).find?
      (fun i => (s.files t i).isNone) = some newfd := by
    obtain ⟨n, hn⟩ := Nat.exists_eq_succ_of_ne_zero (Nat.sub_pos_of_lt hnew).ne'
    rw [hn, List.range'_succ, List.find?_cons_of_pos (by simp [hfree])]
  unfold dupfd Files.setFd modifyFile
  rw [run_bind _ (run_get s), if_neg (not_le.mpr hold), h]
  dsimp only
  rw [hfind]
  dsimp only
  rw [run_bind _ (run_modify _ s), run_bind _ (run_modify _ _), run_pure]
  rfl

theorem run_dupfd_none {arg : ℕ} (h : s.files t oldfd = none) :
    (dupfd t oldfd arg).run s = .ok (none, s, []) := by
  unfold dupfd
  rw [run_bind _ (run_get s), h]
  split <;> rfl

/-- `dup2` makes `newfd` a copy of an open `oldfd`, and does nothing for one that is not
open. -/
structure Duplicates (s : State) (t oldfd newfd : ℕ) : Prop where
  copies : ∀ file, s.files t oldfd = some file → ∃ s' l,
    (sysDup2 t oldfd newfd).run s = .ok (some newfd, s', l) ∧
    s'.files t newfd = some file ∧
    (∀ u i, ¬(u = t ∧ i = newfd) → s'.files u i = s.files u i) ∧
    ∀ f, (s'.fileTable f).count + hit (s.files t newfd) f =
      (s.fileTable f).count + hit (some file) f
  refuses : s.files t oldfd = none → ∃ s' l,
    (sysDup2 t oldfd newfd).run s = .ok (none, s', l) ∧ s'.files = s.files ∧
    ∀ f, (s'.fileTable f).count = (s.fileTable f).count

/-- The descriptor has been closed. -/
structure Freed (s : State) (t fd : ℕ) (s' : State) : Prop where
  free : s'.files t fd = none
  files : ∀ u i, ¬(u = t ∧ i = fd) → s'.files u i = s.files u i
  count : ∀ f, (s'.fileTable f).count + hit (s.files t fd) f = (s.fileTable f).count

theorem ends_sysClose_freed (hs : Sound s) (ht : t ∈ s.live) (hfd : fd < TASK_FILE_NR) :
    Ends (sysClose t fd) (fun _ s' _ => Freed s t fd s') s := by
  cases h : s.files t fd with
  | none =>
      refine ⟨(), s, [], run_sysClose_none hfd h, h, fun _ _ _ => rfl, fun f => ?_⟩
      rw [h, hit_none, Nat.add_zero]
  | some file =>
      refine ends_mono (ends_sysClose hs ht hfd h) ?_
      rintro _ s' l rfl
      refine ⟨if_pos ⟨rfl, rfl⟩, fun u i hui => if_neg hui, fun f => ?_⟩
      rw [h]
      by_cases hf : f = file
      · subst f
        have hpos := hs.count_pos ht hfd h
        change ((s.setFile file _).fileTable file).count + _ = _
        rw [setFile_self, hit_self]
        change (s.fileTable file).count - 1 + 1 = _
        omega
      · change ((s.setFile file _).fileTable f).count + _ = _
        rw [setFile_ne _ hf, hit_of_ne (Ne.symm hf), Nat.add_zero]

theorem duplicates_of_ne (hs : Sound s) (ht : t ∈ s.live) (hold : oldfd < TASK_FILE_NR)
    (hnew : newfd < TASK_FILE_NR) (h : s.files t oldfd = some file) (hne : oldfd ≠ newfd) :
    Duplicates s t oldfd newfd := by
  refine ⟨?_, fun hnone => absurd (h.symm.trans hnone) (by simp)⟩
  intro file' h'
  obtain rfl : file = file' := Option.some.inj (h.symm.trans h')
  obtain ⟨_, s₁, l, hclose, hfreed⟩ := ends_sysClose_freed hs ht hnew
  have hkept : s₁.files t oldfd = some file := by
    rw [hfreed.files t oldfd fun hui => hne hui.2, h]
  have hdup := run_dupfd hold hnew hkept hfreed.free
  have hrun : (sysDup2 t oldfd newfd).run s = .ok (some newfd,
      (s₁.setFd t newfd (some file)).setFile file (s₁.fileTable file).retain, l ++ []) := by
    rw [sysDup2, run_bind_ok _ hclose, hdup]
  refine ⟨_, _, hrun, ?_, ?_, ?_⟩
  · exact if_pos ⟨rfl, rfl⟩
  · intro u i hui
    exact (if_neg hui).trans (hfreed.files u i hui)
  · intro f
    have hcount := hfreed.count f
    by_cases hf : f = file
    · subst f
      have hle := hs.count_le ht h
      change ((s₁.setFile file (s₁.fileTable file).retain).fileTable file).count + _ = _
      rw [setFile_self, hit_self]
      change ((s₁.fileTable file).count + 1) % 2 ^ 32 + _ = _
      rw [Nat.mod_eq_of_lt (by omega)]
      omega
    · change ((s₁.setFile file (s₁.fileTable file).retain).fileTable f).count + _ = _
      rw [setFile_ne _ hf, hit_of_ne (Ne.symm hf), hcount, Nat.add_zero]

theorem duplicates_of_none (hnew : newfd < TASK_FILE_NR) (h : s.files t oldfd = none)
    (h' : s.files t newfd = none) : Duplicates s t oldfd newfd := by
  constructor
  · intro file hfile
    rw [h] at hfile
    cases hfile
  · intro _
    refine ⟨s, [], ?_, rfl, fun _ => rfl⟩
    rw [sysDup2, run_bind _ (run_sysClose_none hnew h'), run_dupfd_none h]

/-- The descriptor is closed before the other is looked at. -/
theorem not_duplicates_self (hs : Sound s) (ht : t ∈ s.live) (hfd : fd < TASK_FILE_NR)
    (h : s.files t fd = some file) : ¬Duplicates s t fd fd := by
  intro hdup
  obtain ⟨s', l', hrun, -⟩ := hdup.copies file h
  obtain ⟨_, s₁, l, hclose, hfreed⟩ := ends_sysClose_freed hs ht hfd
  rw [sysDup2, run_bind_ok _ hclose, run_dupfd_none hfreed.free] at hrun
  cases hrun

theorem not_duplicates_closed (hs : Sound s) (ht : t ∈ s.live) (hnew : newfd < TASK_FILE_NR)
    (h : s.files t oldfd = none) (h' : s.files t newfd = some file) :
    ¬Duplicates s t oldfd newfd := by
  intro hdup
  obtain ⟨s', l', hrun, hfiles, -⟩ := hdup.refuses h
  obtain ⟨_, s₁, l, hclose, hfreed⟩ := ends_sysClose_freed hs ht hnew
  have hold : s₁.files t oldfd = none := by
    by_cases heq : oldfd = newfd
    · rw [heq]
      exact hfreed.free
    · rw [hfreed.files t oldfd fun hui => heq hui.2, h]
  rw [sysDup2, run_bind_ok _ hclose, run_dupfd_none hold] at hrun
  cases hrun
  rw [← hfiles, hfreed.free] at h'
  cases h'

/-- In every state that is reached `dup2` does its work exactly if the old descriptor is open
and is not the new one, or neither is open. -/
theorem dup2_duplicates_iff (h : Started s) (hrun : Run Step (fun _ _ => True) s s')
    (ht : t ∈ s'.live) (hold : oldfd < TASK_FILE_NR) (hnew : newfd < TASK_FILE_NR) :
    Duplicates s' t oldfd newfd ↔ (s'.files t oldfd ≠ none ∧ oldfd ≠ newfd) ∨
      (s'.files t oldfd = none ∧ s'.files t newfd = none) := by
  have hs := h.sound.run hrun
  cases hfile : s'.files t oldfd with
  | none =>
      cases hfile' : s'.files t newfd with
      | none => simpa using duplicates_of_none hnew hfile hfile'
      | some file => simpa using not_duplicates_closed hs ht hnew hfile hfile'
  | some file =>
      by_cases hne : oldfd = newfd
      · subst hne
        simpa [hfile] using not_duplicates_self hs ht hold hfile
      · simpa [hne] using duplicates_of_ne hs ht hold hnew hfile hne

/-- Task 1 with the standard streams. -/
def streaming : State where
  fileTable f := if f < 3 then ⟨some f, 1, 0, 0, 0⟩ else ⟨none, 0, 0, 0, 0⟩
  files _ fd := if fd < 3 then some fd else none
  live := {1}

theorem streaming_started : Started streaming := by
  refine ⟨⟨?_, ?_, ?_⟩, ?_⟩
  · intro t ht
    rw [Finset.mem_singleton.mp ht]
    decide
  · intro f hf
    simp [streaming, not_lt.mpr hf.1]
  · intro t _ fd f hf
    change (if fd < 3 then some fd else none) = some f at hf
    split at hf
    · cases hf
      assumption
    · cases hf
  · decide

/-- Input is duplicated to descriptor 5. -/
theorem streaming_duplicates : Duplicates streaming 1 0 5 :=
  (dup2_duplicates_iff streaming_started .refl (by decide) (by decide) (by decide)).mpr
    (.inl ⟨by decide, by decide⟩)

/-- `dup2(1, 1)` closes the descriptor, and then finds that it is not open. -/
theorem streaming_not_duplicated : Started streaming ∧ streaming.files 1 1 = some 1 ∧
    ¬Duplicates streaming 1 1 1 :=
  ⟨streaming_started, rfl,
    not_duplicates_self streaming_started.sound (by decide) (by decide) rfl⟩

end Ylos.Files
