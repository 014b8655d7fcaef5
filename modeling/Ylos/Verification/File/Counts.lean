import Ylos.Lib.RefCount
import Ylos.Lib.Runs
import Ylos.Model.File
import Mathlib.Tactic.Ring

/-! # Reference counts of the file table -/

namespace Ylos.Files

open Exec

/-- All descriptors of the tasks that have not exited. -/
def State.descriptors (s : State) : Finset (ℕ × ℕ) := s.live ×ˢ Finset.range TASK_FILE_NR

def State.target (s : State) (r : ℕ × ℕ) : Option ℕ := s.files r.1 r.2

/-- The number of descriptors that point to the slot. -/
def State.refs (s : State) (file : ℕ) : ℕ := refCount s.target s.descriptors file

/-- The slots that `get_file` hands out. -/
def Slot (file : ℕ) : Prop := 3 ≤ file ∧ file < FILE_NR

def Event.releases (file : ℕ) : Event → Bool
  | .iput f _ => f = file
  | .got _ => false

/-- The counts of the slots in `P`, to which those of `get_file` belong, say how many
descriptors point to them, but for `extra` references that only the code has, and `lack`
references that it has still to count. -/
structure Balanced (P : ℕ → Prop) (s : State) (extra lack : ℕ → ℕ) : Prop where
  slots : ∀ file, Slot file → P file
  tasks : ∀ t ∈ s.live, t < NR_TASKS
  count : ∀ file, P file → (s.fileTable file).count + lack file = s.refs file + extra file

variable {P : ℕ → Prop} {s s' s'' : State} {extra lack : ℕ → ℕ} {t fd file : ℕ} {l l' : List Event}

theorem mem_descriptors {r : ℕ × ℕ} :
    r ∈ s.descriptors ↔ r.1 ∈ s.live ∧ r.2 < TASK_FILE_NR := by
  simp [State.descriptors]

theorem refs_le (h : ∀ t ∈ s.live, t < NR_TASKS) :
    s.refs file ≤ NR_TASKS * TASK_FILE_NR := by
  have hsub : s.descriptors ⊆ Finset.range NR_TASKS ×ˢ Finset.range TASK_FILE_NR := by
    intro r hr
    simp only [State.descriptors, Finset.mem_product, Finset.mem_range] at hr ⊢
    exact ⟨h _ hr.1, hr.2⟩
  have hcard := Finset.card_le_card hsub
  rw [Finset.card_product, Finset.card_range, Finset.card_range] at hcard
  exact (Finset.card_filter_le _ _).trans hcard

/-- One descriptor is pointed elsewhere. -/
theorem refs_setFd (ht : t ∈ s.live) (hfd : fd < TASK_FILE_NR) (target : Option ℕ) (f : ℕ) :
    (s.setFd t fd target).refs f + hit (s.files t fd) f = s.refs f + hit target f := by
  have hmoved := refCount_retarget (p := s.target) (q := (s.setFd t fd target).target)
    (r := (t, fd)) (f := f) (mem_descriptors.mpr ⟨ht, hfd⟩) (by
      rintro ⟨u, i⟩ _ hne
      exact if_neg fun h => hne (Prod.ext h.1 h.2))
  have hnew : (s.setFd t fd target).target (t, fd) = target := if_pos ⟨rfl, rfl⟩
  rw [hnew] at hmoved
  exact hmoved

@[simp] theorem refs_setFile (v : File) (f : ℕ) : (s.setFile file v).refs f = s.refs f := rfl

theorem setFile_self (v : File) : (s.setFile file v).fileTable file = v := if_pos rfl

theorem setFile_ne (v : File) {f : ℕ} (h : f ≠ file) :
    (s.setFile file v).fileTable f = s.fileTable f := if_neg h

/-! ## `get_file` and free descriptors -/

theorem after_getFile {Q : ℕ → State → List Event → Prop} (h : Balanced P s 0 0)
    (hQ : ∀ file, Slot file → s.refs file = 0 →
      Balanced P (s.setFile file (s.fileTable file).retain) (hit (some file)) 0 →
      ((s.fileTable file).retain).count = 1 →
      Q file (s.setFile file (s.fileTable file).retain) [.got file]) :
    after getFile Q s := by
  unfold getFile modifyFile
  rw [after_bind, after_get]
  split
  · exact after_fault _
  · rename_i file hfind
    simp only [after_bind, after_modify, after_note, after_pure]
    obtain ⟨hzero, hmem, _⟩ := List.find?_range'_eq_some.mp hfind
    have hzero : (s.fileTable file).count = 0 := by simpa using hzero
    rw [List.mem_range'_1] at hmem
    have hslot : Slot file := ⟨hmem.1, by unfold FILE_NR at hmem ⊢; omega⟩
    have hone : ((s.fileTable file).retain).count = 1 := by simp [File.retain, hzero]
    have hrefs := h.count file (h.slots file hslot)
    simp only [hzero, Pi.zero_apply, Nat.add_zero] at hrefs
    refine hQ file hslot hrefs.symm ⟨h.slots, h.tasks, fun f hf => ?_⟩ hone
    rw [refs_setFile]
    by_cases hff : f = file
    · subst f
      rw [setFile_self, hone, hit_self, ← hrefs]
      rfl
    · rw [setFile_ne _ hff, hit_of_ne (Ne.symm hff)]
      exact h.count f hf

theorem after_taskGetFd {Q : ℕ → State → List Event → Prop}
    (hQ : ∀ fd, fd < TASK_FILE_NR → s.files t fd = none → Q fd s []) :
    after (taskGetFd t) Q s := by
  unfold taskGetFd
  rw [after_bind, after_get]
  split
  · exact after_fault _
  · rename_i fd hfind
    rw [after_pure]
    obtain ⟨hnone, hmem, _⟩ := List.find?_range'_eq_some.mp hfind
    rw [List.mem_range'_1] at hmem
    exact hQ fd (by unfold TASK_FILE_NR at hmem ⊢; omega) (by simpa using hnone)

/-- A reference that the code holds goes into a free descriptor. -/
theorem Balanced.hold (h : Balanced P s (hit (some file)) 0) (ht : t ∈ s.live)
    (hfd : fd < TASK_FILE_NR) (hfree : s.files t fd = none) :
    Balanced P (s.setFd t fd (some file)) 0 0 := by
  refine ⟨h.slots, h.tasks, fun f hf => ?_⟩
  have hmoved := refs_setFd ht hfd (some file) f
  have hcount := h.count f hf
  rw [hfree, hit_none] at hmoved
  change (s.fileTable f).count + 0 = _ + 0
  simp only [Pi.zero_apply] at hcount
  omega

/-- The code counts a reference that it lacks. -/
theorem Balanced.retain (h : Balanced P s 0 lack) {lack' : ℕ → ℕ}
    (hlack : ∀ f, lack f = lack' f + hit (some file) f) :
    Balanced P (s.setFile file (s.fileTable file).retain) 0 lack' := by
  refine ⟨h.slots, h.tasks, fun f hf => ?_⟩
  have hcount := h.count f hf
  have hle : s.refs f ≤ 64 * 16 := refs_le h.tasks
  have hf' := hlack f
  rw [refs_setFile]
  simp only [Pi.zero_apply] at hcount ⊢
  by_cases hff : f = file
  · subst f
    rw [hit_self] at hf'
    rw [setFile_self]
    change (_ + 1) % 2 ^ 32 + _ = _
    rw [Nat.mod_eq_of_lt (by omega)]
    omega
  · rw [hit_of_ne (Ne.symm hff)] at hf'
    rw [setFile_ne _ hff]
    omega

/-! ## Closing -/

/-- Descriptors have been closed, and nothing else happened. -/
structure Closing (s : State) (l : List Event) (s' : State) : Prop where
  live : s'.live = s.live
  files : ∀ u i, s'.files u i = s.files u i ∨ s'.files u i = none
  inode : ∀ f, (s'.fileTable f).inode = (s.fileTable f).inode
  refs : ∀ f, s'.refs f ≤ s.refs f
  events : ∀ e ∈ l, ∃ f i, e = .iput f i ∧ (s.fileTable f).inode = some i
  released : ∀ f, Slot f →
    l.countP (Event.releases f) = if 0 < s.refs f ∧ s'.refs f = 0 then 1 else 0

theorem Closing.refl (s : State) : Closing s [] s := by
  refine ⟨rfl, fun _ _ => .inl rfl, fun _ => rfl, fun _ => le_rfl, by simp, fun f _ => ?_⟩
  rw [if_neg (by omega), List.countP_nil]

theorem Closing.trans (h : Closing s l s') (h' : Closing s' l' s'') :
    Closing s (l ++ l') s'' := by
  refine ⟨h'.live.trans h.live, fun u i => ?_, fun f => (h'.inode f).trans (h.inode f),
    fun f => (h'.refs f).trans (h.refs f), fun e he => ?_, fun f hf => ?_⟩
  · rcases h'.files u i with hsame | hnone
    · rw [hsame]
      exact h.files u i
    · exact .inr hnone
  · rcases List.mem_append.mp he with he | he
    · exact h.events e he
    · obtain ⟨f, i, rfl, hi⟩ := h'.events e he
      exact ⟨f, i, rfl, (h.inode f).symm.trans hi⟩
  · have hle := h.refs f
    have hle' := h'.refs f
    rw [List.countP_append, h.released f hf, h'.released f hf]
    split <;> split <;> split <;> omega

theorem after_sysClose {Q : Unit → State → List Event → Prop} (h : Balanced P s 0 0)
    (ht : t ∈ s.live) (hQ : ∀ s' l, Balanced P s' 0 0 → Closing s l s' → s'.files t fd = none →
      Q () s' l) : after (sysClose t fd) Q s := by
  unfold sysClose
  rw [after_bind, after_check]
  intro hfd
  rw [after_bind, after_gets]
  cases htarget : s.files t fd with
  | none => exact (after_pure _).mpr (hQ s [] h (Closing.refl s) htarget)
  | some file =>
      simp only [after_bind, after_gets, after_check]
      intro _
      unfold putFile taskPutFd modifyFile setFd
      simp only [after_bind, after_gets, after_check, after_modify, after_ite, after_deref,
        after_note, after_pure, setFile_self]
      intro hpos
      generalize hs' : (s.setFile file { s.fileTable file with
        count := (s.fileTable file).count - 1 }).setFd t fd none = s'
      have hrefs : ∀ f, s'.refs f + hit (some file) f = s.refs f := by
        intro f
        have hmoved := refs_setFd (s := s.setFile file { s.fileTable file with
          count := (s.fileTable file).count - 1 }) ht hfd none f
        rw [hs'] at hmoved
        have hold : (s.setFile file { s.fileTable file with
          count := (s.fileTable file).count - 1 }).files t fd = some file := htarget
        rw [hold, hit_none, Nat.add_zero] at hmoved
        exact hmoved
      have htable : ∀ f, f ≠ file → s'.fileTable f = s.fileTable f := by
        intro f hf
        rw [← hs']
        exact setFile_ne _ hf
      have hfile : s'.fileTable file = { s.fileTable file with
          count := (s.fileTable file).count - 1 } := by
        rw [← hs']
        exact setFile_self _
      have hlive : s'.live = s.live := by rw [← hs']; rfl
      have hfiles : ∀ u i, s'.files u i = s.files u i ∨ s'.files u i = none := by
        intro u i
        rw [← hs']
        by_cases hui : u = t ∧ i = fd
        · exact .inr (if_pos hui)
        · exact .inl (if_neg hui)
      have hclosed : s'.files t fd = none := by
        rw [← hs']
        exact if_pos ⟨rfl, rfl⟩
      have hbalanced : Balanced P s' 0 0 := by
        refine ⟨h.slots, hlive ▸ h.tasks, fun f hf => ?_⟩
        have hcount := h.count f hf
        have hf' := hrefs f
        simp only [Pi.zero_apply] at hcount ⊢
        by_cases hff : f = file
        · subst f
          rw [hit_self] at hf'
          rw [hfile]
          change (s.fileTable file).count - 1 + 0 = _
          omega
        · rw [hit_of_ne (Ne.symm hff)] at hf'
          rw [htable f hff]
          omega
      have hclosing : ∀ l, (∀ e ∈ l, ∃ i, e = .iput file i ∧ (s.fileTable file).inode = some i) →
          (Slot file → l.countP (Event.releases file) =
            if (s.fileTable file).count - 1 = 0 then 1 else 0) → Closing s l s' := by
        intro l hevents hreleased
        refine ⟨hlive, hfiles, fun f => ?_, fun f => Nat.le.intro (hrefs f),
          fun e he => ?_, fun f hf => ?_⟩
        · by_cases hff : f = file
          · rw [hff, hfile]
          · rw [htable f hff]
        · obtain ⟨i, he, hi⟩ := hevents e he
          exact ⟨file, i, he, hi⟩
        · have hf' := hrefs f
          by_cases hff : f = file
          · subst f
            have hcount := h.count file (h.slots file hf)
            rw [hit_self] at hf'
            simp only [Pi.zero_apply] at hcount
            rw [hreleased hf]
            split <;> split <;> omega
          · rw [hit_of_ne (Ne.symm hff)] at hf'
            have hnone : l.countP (Event.releases f) = 0 := by
              refine List.countP_eq_zero.mpr fun e he => ?_
              obtain ⟨i, rfl, _⟩ := hevents e he
              simpa [Event.releases] using Ne.symm hff
            rw [hnone, if_neg (by omega)]
      constructor
      · intro hzero i hi _
        refine hQ s' _ hbalanced (hclosing _ ?_ ?_) hclosed
        · intro e he
          simp only [List.nil_append, List.append_nil, List.mem_singleton] at he
          exact ⟨i, he, hi⟩
        · intro _
          simp only [List.nil_append, List.append_nil, List.countP_singleton, Event.releases,
            decide_true, if_true]
          rw [if_pos hzero]
      · intro hzero _
        refine hQ s' _ hbalanced (hclosing _ (by simp) fun _ => ?_) hclosed
        simp only [List.append_nil, List.countP_nil]
        rw [if_neg hzero]

theorem after_closeFiles {Q : Unit → State → List Event → Prop} {fds : List ℕ}
    (h : Balanced P s 0 0) (ht : t ∈ s.live)
    (hQ : ∀ s' l, Balanced P s' 0 0 → Closing s l s' → (∀ fd ∈ fds, s'.files t fd = none) →
      Q () s' l) : after (closeFiles t fds) Q s := by
  induction fds generalizing s Q with
  | nil => exact (after_pure _).mpr (hQ s [] h (Closing.refl s) (by simp))
  | cons fd fds ih =>
      -- After the first descriptor, the others are closed.
      have hrest : ∀ s₁ l₁, Balanced P s₁ 0 0 → Closing s l₁ s₁ → s₁.files t fd = none →
          after (closeFiles t fds) (fun _ s'' l' => Q () s'' (l₁ ++ l')) s₁ := by
        intro s₁ l₁ h₁ hclosing hclosed
        refine ih h₁ (hclosing.live ▸ ht) fun s' l h' hclosing' hfds => ?_
        refine hQ s' _ h' (hclosing.trans hclosing') fun i hi => ?_
        rcases List.mem_cons.mp hi with rfl | hi
        · rcases hclosing'.files t i with hsame | hnone
          · exact hsame.trans hclosed
          · exact hnone
        · exact hfds i hi
      unfold closeFiles
      simp only [after_bind, after_gets, after_ite]
      constructor
      · intro _
        exact after_sysClose h ht fun s₁ l₁ h₁ hclosing hclosed => hrest s₁ l₁ h₁ hclosing hclosed
      · intro hnone
        exact hrest s [] h (Closing.refl s) (by simpa using hnone)

/-! ## Opening -/

/-- Descriptors have been opened for the slots `got`, which nobody used. -/
structure Opening (s : State) (l : List Event) (s' : State) : Prop where
  live : s'.live = s.live
  refs : ∀ f, s.refs f ≤ s'.refs f
  events : ∀ e ∈ l, ∃ f, e = .got f ∧ s.refs f = 0 ∧ 0 < s'.refs f
  nodup : l.Nodup

theorem Opening.refl (s : State) : Opening s [] s :=
  ⟨rfl, fun _ => le_rfl, by simp, List.nodup_nil⟩

theorem Opening.trans (h : Opening s l s') (h' : Opening s' l' s'') :
    Opening s (l ++ l') s'' := by
  refine ⟨h'.live.trans h.live, fun f => (h.refs f).trans (h'.refs f), fun e he => ?_,
    h.nodup.append h'.nodup fun e he he' => ?_⟩
  · rcases List.mem_append.mp he with he | he
    · obtain ⟨f, rfl, hzero, hpos⟩ := h.events e he
      exact ⟨f, rfl, hzero, hpos.trans_le (h'.refs f)⟩
    · obtain ⟨f, rfl, hzero, hpos⟩ := h'.events e he
      have hle := h.refs f
      exact ⟨f, rfl, by omega, hpos⟩
  · obtain ⟨f, rfl, _, hpos⟩ := h.events e he
    obtain ⟨f', heq, hzero, _⟩ := h'.events _ he'
    cases heq
    omega

/-- Fields of a file other than its count do not matter. -/
theorem Balanced.setFile (h : Balanced P s extra lack) {v : File}
    (hv : v.count = (s.fileTable file).count) : Balanced P (s.setFile file v) extra lack := by
  refine ⟨h.slots, h.tasks, fun f hf => ?_⟩
  by_cases hff : f = file
  · subst f
    rw [setFile_self, hv]
    exact h.count file hf
  · rw [setFile_ne _ hff]
    exact h.count f hf

theorem after_pipeEnd {Q : ℕ × ℕ → State → List Event → Prop} (h : Balanced P s 0 0)
    (ht : t ∈ s.live) (hQ : ∀ r s' l, Balanced P s' 0 0 → Opening s l s' → Q r s' l) :
    after (pipeEnd t) Q s := by
  unfold pipeEnd
  rw [after_bind]
  refine after_taskGetFd fun fd hfd hfree => ?_
  rw [after_bind]
  refine after_getFile h fun file hslot hzero hbalanced _ => ?_
  unfold Files.setFd
  simp only [after_bind, after_modify, after_pure, List.append_nil, List.nil_append]
  have hmoved : ∀ f, State.refs _ f + _ = _ :=
    refs_setFd (s := s.setFile file (s.fileTable file).retain) ht hfd (some file)
  have hfree' : (s.setFile file (s.fileTable file).retain).files t fd = none := hfree
  have hrefs : ∀ f, State.refs ((s.setFile file (s.fileTable file).retain).setFd t fd (some file)) f =
      s.refs f + hit (some file) f := by
    intro f
    have hf := hmoved f
    rw [hfree', hit_none, Nat.add_zero] at hf
    exact hf
  refine hQ _ _ _ (hbalanced.hold ht hfd hfree) ⟨rfl, fun f => ?_, ?_, List.nodup_singleton _⟩
  · rw [hrefs]
    exact Nat.le_add_right _ _
  · intro e he
    refine ⟨file, List.mem_singleton.mp he, hzero, ?_⟩
    rw [hrefs, hit_self]
    exact Nat.succ_pos _

theorem after_sysPipe {Q : ℕ × ℕ → State → List Event → Prop} {inode : ℕ} (h : Balanced P s 0 0)
    (ht : t ∈ s.live) (hQ : ∀ r s' l, Balanced P s' 0 0 → Opening s l s' → Q r s' l) :
    after (sysPipe t inode) Q s := by
  unfold sysPipe
  rw [after_bind]
  refine after_pipeEnd h ht fun r₀ s₁ l₁ h₁ hopening₁ => ?_
  rw [after_bind]
  refine after_pipeEnd h₁ (hopening₁.live ▸ ht) fun r₁ s₂ l₂ h₂ hopening₂ => ?_
  unfold modifyFile
  simp only [after_bind, after_modify, after_pure, List.append_nil]
  refine hQ _ _ _ (Balanced.setFile (Balanced.setFile h₂ ?_) ?_) ?_
  · rfl
  · rfl
  have hopening := hopening₁.trans hopening₂
  exact ⟨hopening.live, hopening.refs, hopening.events, hopening.nodup⟩

theorem after_sysOpen {Q : Option ℕ → State → List Event → Prop} {inode : Option Opened}
    {flags : ℕ} (h : Balanced P s 0 0) (ht : t ∈ s.live)
    (hQ : ∀ r s' l, Balanced P s' 0 0 → Opening s l s' → Q r s' l) :
    after (sysOpen t inode flags) Q s := by
  unfold sysOpen
  cases inode with
  | none => exact (after_pure _).mpr (hQ _ s [] h (Opening.refl s))
  | some inode =>
      simp only [after_bind]
      refine after_taskGetFd fun fd hfd hfree => ?_
      refine after_getFile h fun file hslot hzero hbalanced hone => ?_
      unfold Files.setFd modifyFile
      simp only [after_gets, after_check, after_modify, after_pure, List.append_nil,
        List.nil_append]
      intro _
      have hfree' : (s.setFile file (s.fileTable file).retain).files t fd = none := hfree
      have hmoved := refs_setFd (s := s.setFile file (s.fileTable file).retain) ht hfd (some file)
      rw [hfree'] at hmoved
      simp only [hit_none, Nat.add_zero] at hmoved
      refine hQ _ _ _ ((hbalanced.hold ht hfd hfree).setFile ?_)
        ⟨rfl, fun f => Nat.le.intro (hmoved f).symm, ?_, List.nodup_singleton _⟩
      · exact hone.symm.trans (congrArg File.count (setFile_self _).symm)
      · intro e he
        refine ⟨file, List.mem_singleton.mp he, hzero, ?_⟩
        have hfile := hmoved file
        rw [hit_self] at hfile
        exact Nat.lt_of_lt_of_eq (Nat.succ_pos _) hfile.symm

/-- `dupfd` points a free descriptor to a slot that has descriptors already. -/
theorem after_dupfd {Q : Option ℕ → State → List Event → Prop} {arg : ℕ} (h : Balanced P s 0 0)
    (ht : t ∈ s.live)
    (hQ : ∀ r s', Balanced P s' 0 0 → s'.live = s.live → (∀ f, s.refs f ≤ s'.refs f) →
      (∀ f, s.refs f = 0 → s'.refs f = 0) → Q r s' []) :
    after (dupfd t fd arg) Q s := by
  have hsame : ∀ r, Q r s [] := fun r => hQ r s h rfl (fun _ => le_rfl) fun _ hf => hf
  unfold dupfd
  rw [after_bind, after_get, after_ite]
  refine ⟨fun _ => (after_pure _).mpr (hsame _), fun hfd => ?_⟩
  cases htarget : s.files t fd with
  | none => exact (after_pure _).mpr (hsame _)
  | some file =>
      simp only
      split
      · exact (after_pure _).mpr (hsame _)
      · rename_i i hfind
        obtain ⟨hnone, hmem, _⟩ := List.find?_range'_eq_some.mp hfind
        have hfree : s.files t i = none := by simpa using hnone
        have hi : i < TASK_FILE_NR := by
          rw [List.mem_range'_1] at hmem
          omega
        unfold Files.setFd modifyFile
        simp only [after_bind, after_modify, after_pure, List.append_nil]
        have hmoved := refs_setFd (s := s) ht hi (some file)
        have hpos : 0 < s.refs file :=
          refCount_pos (r := (t, fd)) (mem_descriptors.mpr ⟨ht, Nat.lt_of_not_le hfd⟩) htarget
        rw [hfree] at hmoved
        simp only [hit_none, Nat.add_zero] at hmoved
        have hlacking : Balanced P (s.setFd t i (some file)) 0 (hit (some file)) := by
          refine ⟨h.slots, h.tasks, fun f hf => ?_⟩
          have hcount := h.count f hf
          rw [hmoved f]
          simp only [Pi.zero_apply, Nat.add_zero] at hcount ⊢
          rw [← hcount]
          rfl
        refine hQ _ _ (hlacking.retain fun f => by simp) rfl (fun f => ?_) fun f hf => ?_
        · exact Nat.le.intro (hmoved f).symm
        · have hne : file ≠ f := by
            rintro rfl
            omega
          have hf' := hmoved f
          rw [hit_of_ne hne, hf] at hf'
          exact hf'

/-! ## Steps -/

/-- What a system call does with slots: it hands out unused ones, and it passes the inode of
a slot to `iput` once if it closes the last descriptor of the slot, else not at all. -/
structure Served (s : State) (l : List Event) (s' : State) : Prop where
  got : ∀ f, .got f ∈ l → s.refs f = 0
  once : ∀ f, l.count (.got f) ≤ 1
  inode : ∀ f i, .iput f i ∈ l → (s.fileTable f).inode = some i
  released : ∀ f, Slot f →
    l.countP (Event.releases f) = if 0 < s.refs f ∧ s'.refs f = 0 then 1 else 0

theorem Closing.served (h : Closing s l s') (hlive : ∀ f, s''.refs f = 0 ↔ s'.refs f = 0) :
    Served s l s'' := by
  have hgot : ∀ f, .got f ∉ l := by
    intro f hf
    obtain ⟨_, _, he, _⟩ := h.events _ hf
    cases he
  refine ⟨fun f hf => absurd hf (hgot f), fun f => ?_, fun f i hi => ?_, fun f hf => ?_⟩
  · rw [List.count_eq_zero_of_not_mem (hgot f)]
    exact Nat.zero_le _
  · obtain ⟨_, _, he, hinode⟩ := h.events _ hi
    cases he
    exact hinode
  · rw [h.released f hf]
    simp only [hlive f]

theorem Opening.served (h : Opening s l s') : Served s l s' := by
  have hiput : ∀ f i, .iput f i ∉ l := by
    intro f i hi
    obtain ⟨_, he, _⟩ := h.events _ hi
    cases he
  refine ⟨fun f hf => ?_, fun f => List.nodup_iff_count_le_one.mp h.nodup _,
    fun f i hi => absurd hi (hiput f i), fun f _ => ?_⟩
  · obtain ⟨_, he, hzero, _⟩ := h.events _ hf
    cases he
    exact hzero
  · have hle := h.refs f
    rw [if_neg (by omega)]
    refine List.countP_eq_zero.mpr fun e he => ?_
    obtain ⟨_, rfl, _⟩ := h.events e he
    simp [Event.releases]

theorem after_retainFiles {Q : Unit → State → List Event → Prop} {fds : List ℕ}
    (h : Balanced P s 0 fun f => fds.countP fun fd => decide (s.files t fd = some f))
    (hQ : ∀ s', Balanced P s' 0 0 → s'.live = s.live → s'.files = s.files → Q () s' []) :
    after (retainFiles t fds) Q s := by
  induction fds generalizing s with
  | nil => exact (after_pure _).mpr (hQ s h rfl rfl)
  | cons fd fds ih =>
      unfold retainFiles
      rw [after_bind, after_gets]
      cases hfile : s.files t fd with
      | none =>
          refine ih ?_ hQ
          simpa [List.countP_cons, hfile] using h
      | some file =>
          unfold modifyFile
          simp only [after_bind, after_modify, List.nil_append]
          refine ih (Balanced.retain h fun f => ?_) fun s' h' hlive hfiles =>
            hQ s' h' hlive hfiles
          rw [List.countP_cons, hfile]
          unfold hit
          simp only [decide_eq_true_eq]
          rfl

theorem after_taskFork {Q : Unit → State → List Event → Prop} {child : ℕ}
    (h : Balanced P s 0 0) (hchild : child ∉ s.live) (hlt : child < NR_TASKS)
    (hQ : ∀ s', Balanced P s' 0 0 → (∀ f, s'.refs f = 0 ↔ s.refs f = 0) → Q () s' [])
    (ht : t ∈ s.live) : after (taskFork t child) Q s := by
  unfold taskFork
  simp only [after_bind, after_modify, List.nil_append]
  generalize hs' : { s with
    files := fun u => if u = child then s.files t else s.files u
    live := insert child s.live } = s'
  have hchildFiles : s'.files child = s.files t := by
    rw [← hs']
    exact if_pos rfl
  have hlive : s'.live = insert child s.live := by rw [← hs']
  have hother : ∀ r ∈ s.descriptors, s'.target r = s.target r := by
    intro r hr
    have hne : r.1 ≠ child := fun heq => hchild (heq ▸ (mem_descriptors.mp hr).1)
    rw [← hs']
    exact congrFun (if_neg hne) r.2
  -- The child has the descriptors of its parent.
  have hrefs : ∀ f, s'.refs f = s.refs f +
      (List.range TASK_FILE_NR).countP fun fd => decide (s'.files child fd = some f) := by
    intro f
    have hrow : s'.refs f = refCount s'.target s.descriptors f +
        refCount (s'.files child) (Finset.range TASK_FILE_NR) f := by
      unfold State.refs State.descriptors
      rw [hlive]
      exact refCount_insert_row hchild
    rw [hrow, refCount_congr hother, refCount_range]
    rfl
  have hbalanced : Balanced P s' 0 fun f =>
      (List.range TASK_FILE_NR).countP fun fd => decide (s'.files child fd = some f) := by
    refine ⟨h.slots, fun u hu => ?_, fun f hf => ?_⟩
    · rw [hlive] at hu
      rcases Finset.mem_insert.mp hu with rfl | hu
      · exact hlt
      · exact h.tasks u hu
    · have hcount := h.count f hf
      have hf' := hrefs f
      simp only [Pi.zero_apply, Nat.add_zero] at hcount ⊢
      rw [hf', ← hcount, ← hs']
  refine after_retainFiles hbalanced fun s'' h'' hlive'' hfiles'' => hQ s'' h'' fun f => ?_
  have hsame : s''.refs f = s'.refs f := by
    unfold State.refs State.descriptors
    rw [hlive'']
    exact refCount_congr fun r _ => by
      unfold State.target
      rw [hfiles'']
  rw [hsame, hrefs f, hchildFiles]
  constructor
  · intro hzero
    exact Nat.eq_zero_of_add_eq_zero_right hzero
  · intro hzero
    rw [hzero, Nat.zero_add, List.countP_eq_zero]
    intro fd hfd
    have hmem : (t, fd) ∈ s.descriptors := mem_descriptors.mpr ⟨ht, List.mem_range.mp hfd⟩
    have hne : s.target (t, fd) ≠ some f := not_target_of_refCount hzero hmem
    change s.files t fd ≠ some f at hne
    simpa using hne

theorem after_taskExit {Q : Unit → State → List Event → Prop} (h : Balanced P s 0 0)
    (ht : t ∈ s.live) (hQ : ∀ s' l, Balanced P s' 0 0 → Served s l s' → Q () s' l) :
    after (taskExit t) Q s := by
  unfold taskExit
  rw [after_bind]
  refine after_closeFiles h ht fun s₁ l h₁ hclosing hclosed => ?_
  rw [after_modify, List.append_nil]
  have hrefs : ∀ f, State.refs { s₁ with live := s₁.live.erase t } f = s₁.refs f := by
    intro f
    have hrow : State.refs { s₁ with live := s₁.live.erase t } f +
        refCount (s₁.files t) (Finset.range TASK_FILE_NR) f = s₁.refs f :=
      refCount_erase_row (hclosing.live ▸ ht)
    rw [refCount_eq_zero fun fd hfd => by
      rw [hclosed fd (List.mem_range.mpr (Finset.mem_range.mp hfd))]
      exact nofun] at hrow
    exact hrow
  refine hQ _ l ⟨h.slots, fun u hu => h₁.tasks u (Finset.mem_of_mem_erase hu), fun f hf => ?_⟩
    (hclosing.served fun f => by rw [hrefs f])
  rw [hrefs f]
  exact h₁.count f hf

theorem after_sysDup2 {Q : Option ℕ → State → List Event → Prop} {oldfd newfd : ℕ}
    (h : Balanced P s 0 0) (ht : t ∈ s.live)
    (hQ : ∀ r s' l, Balanced P s' 0 0 → Served s l s' → Q r s' l) :
    after (sysDup2 t oldfd newfd) Q s := by
  unfold sysDup2
  rw [after_bind]
  refine after_sysClose h ht fun s₁ l h₁ hclosing _ => ?_
  refine after_dupfd h₁ (hclosing.live ▸ ht) fun r s' h' _ hle hzero => ?_
  rw [List.append_nil]
  refine hQ r s' l h' (hclosing.served fun f => ⟨fun h0 => ?_, hzero f⟩)
  have hf := hle f
  omega

theorem Served.silent (h : ∀ f, s'.refs f = 0 ↔ s.refs f = 0) : Served s [] s' :=
  (Closing.refl s).served h

/-- What one system call keeps, and what it does. -/
theorem after_code {a : Action} (h : Balanced P s 0 0) (ht : t ∈ s.live) (ha : a.Possible s) :
    after (a.code t) (fun _ s' l => Balanced P s' 0 0 ∧ Served s l s') s := by
  cases a with
  | «open» inode flags =>
      refine (after_bind _ _).mpr (after_sysOpen h ht fun r s' l h' hopening => ?_)
      rw [after_pure, List.append_nil]
      exact ⟨h', hopening.served⟩
  | close fd =>
      exact after_sysClose h ht fun s' l h' hclosing _ => ⟨h', hclosing.served fun _ => Iff.rfl⟩
  | dup oldfd =>
      refine (after_bind _ _).mpr (after_dupfd h ht fun r s' h' _ hle hzero => ?_)
      rw [after_pure]
      refine ⟨h', Served.silent fun f => ⟨fun h0 => ?_, hzero f⟩⟩
      have hf := hle f
      omega
  | dup2 oldfd newfd =>
      refine (after_bind _ _).mpr (after_sysDup2 h ht fun r s' l h' hserved => ?_)
      rw [after_pure, List.append_nil]
      exact ⟨h', hserved⟩
  | pipe inode =>
      refine (after_bind _ _).mpr (after_sysPipe h ht fun r s' l h' hopening => ?_)
      rw [after_pure, List.append_nil]
      exact ⟨h', hopening.served⟩
  | fork child =>
      exact after_taskFork h ha.1 ha.2 (fun s' h' hzero => ⟨h', Served.silent hzero⟩) ht
  | exit => exact after_taskExit h ht fun s' l h' hserved => ⟨h', hserved⟩

/-! ## Runs -/

/-- After `file_init`: the first three slots are those of the standard streams. -/
structure Initial (s : State) : Prop where
  tasks : ∀ t ∈ s.live, t < NR_TASKS
  count : ∀ f, Slot f → (s.fileTable f).count = 0
  files : ∀ t ∈ s.live, ∀ fd f, s.files t fd = some f → f < 3

theorem Initial.balanced (h : Initial s) : Balanced Slot s 0 0 := by
  refine ⟨fun _ => id, h.tasks, fun f hf => ?_⟩
  have hzero : s.refs f = 0 := by
    refine refCount_eq_zero fun r hr hrf => ?_
    have hlt := h.files r.1 (mem_descriptors.mp hr).1 r.2 f hrf
    exact absurd hf.1 (by omega)
  rw [h.count f hf, hzero]

theorem Balanced.run (h : Balanced P s 0 0) (hrun : Run Step (fun _ _ => True) s s') :
    Balanced P s' 0 0 := by
  refine hrun.invariant (P := fun s => Balanced P s 0 0) (fun u a u' hu _ hstep => ?_) h
  exact (after_code hu hstep.1 hstep.2.1 _ _ _ hstep.2.2).1

/-- Along every run the counts of the slots are the numbers of descriptors, `get_file` hands
out slots without descriptors, and the inode of a slot is released once, with the last one. -/
theorem file_table_counts (h : Initial s) (hrun : Run Step (fun _ _ => True) s s') :
    (∀ f, Slot f → (s'.fileTable f).count = s'.refs f) ∧
      ∀ a l s'', Step s' (a, l) s'' → Served s' l s'' := by
  have hbalanced := h.balanced.run hrun
  refine ⟨fun f hf => hbalanced.count f hf, fun a l s'' hstep => ?_⟩
  exact (after_code hbalanced hstep.1 hstep.2.1 _ _ _ hstep.2.2).2

/-- Task 1 with the standard streams, and nothing open. -/
def booted : State where
  fileTable _ := ⟨none, 0, 0, 0, 0⟩
  files _ fd := if fd < 3 then some fd else none
  live := {1}

theorem booted_initial : Initial booted := by
  refine ⟨fun t ht => ?_, fun _ _ => rfl, fun t _ fd f hf => ?_⟩
  · rw [Finset.mem_singleton.mp ht]
    decide
  · change (if fd < 3 then some fd else none) = some f at hf
    split at hf
    · cases hf
      assumption
    · cases hf

/-- The state after `open`. -/
def booted.opened : State :=
  ((booted.setFile 3 ⟨none, 1, 0, 0, 0⟩).setFd 1 3 (some 3)).setFile 3 ⟨some 7, 1, 0, 0, 0⟩

theorem booted_opens : Step booted ((1, .open (some ⟨7, 0, 0⟩) 0), [.got 3]) booted.opened :=
  ⟨by decide, trivial, rfl⟩

theorem booted_counts :
    (∀ f, Slot f → (booted.opened.fileTable f).count = booted.opened.refs f) ∧
      ∀ a l s', Step booted.opened (a, l) s' → Served booted.opened l s' :=
  file_table_counts booted_initial (Run.refl.tail trivial booted_opens)

end Ylos.Files
