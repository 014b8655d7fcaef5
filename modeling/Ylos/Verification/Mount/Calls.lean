import Ylos.Verification.Mount.Phase
import Ylos.Verification.Path.Walk

/-! # What `sys_mount`, `sys_umount` and `sys_mkfs` do to the tables -/

namespace Ylos.Mount

open Exec Refs

/-- No two slots of `super_table` carry the same device number. -/
def Apart (s : Fs) : Prop :=
  ∀ k l, (s.supers k).dev ≠ NODEV → (s.supers k).dev = (s.supers l).dev → k = l

/-- Every super block in use has its root in core and is mounted somewhere, and every mount
field belongs to one. -/
structure Tidy (s : Fs) : Prop where
  pipe : ∀ i, (s.inodes i).pipe = false
  apart : Apart s
  active : ∀ k, (s.supers k).dev ≠ NODEV → k < SUPER_NR ∧ (s.supers k).count = 1 ∧
    ∃ r m, (s.supers k).iroot = some r ∧ (s.supers k).imount = some m ∧
      r ∈ (s.supers k).inodeList ∧ (s.inodes r).nr = 1
  idle : ∀ k, (s.supers k).dev = NODEV → (s.supers k).imount = none
  mounted : ∀ i, (s.inodes i).mount ≠ 0 → (s.inodes i).nr ≠ 1 ∧
    ∃ k, (s.supers k).dev = (s.inodes i).mount ∧ (s.supers k).dev ≠ NODEV ∧
      (s.supers k).imount = some i
  /-- The root of the root file system is mounted on itself. -/
  top : ∀ k i, (s.supers k).dev ≠ NODEV → (s.supers k).imount = some i →
    (s.inodes i).nr = 1 → (s.inodes i).dev = (s.supers k).dev

/-- The counts cover what a super block refers to. -/
def Backed (s : Fs) : Prop :=
  ∀ k, (s.supers k).dev ≠ NODEV →
    ∀ i, hit (s.supers k).iroot i + hit (s.supers k).imount i ≤ (s.inodes i).count

variable {s₀ s s' : Fs} {gained lost : List ℕ} {sb : ℕ → Slot} {mt : ℕ → ℤ} {i k : ℕ} {d : ℤ}

theorem superOf_eq (hk : k < SUPER_NR) (hdev : (s.supers k).dev = d)
    (honly : ∀ l, (s.supers l).dev = d → l = k) : Paths.superOf s d = some k := by
  unfold Paths.superOf
  cases hfind : (List.range SUPER_NR).find? fun l => (s.supers l).dev = d with
  | none =>
      have hno := List.find?_eq_none.mp hfind k (List.mem_range.mpr hk)
      exact absurd (decide_eq_true hdev) hno
  | some l =>
      have hl : (s.supers l).dev = d := by simpa using List.find?_some hfind
      rw [honly l hl]

theorem superOf_none (h : Paths.superOf s d = none) {l : ℕ} (hl : l < SUPER_NR) :
    (s.supers l).dev ≠ d := by
  simpa using List.find?_eq_none.mp h l (List.mem_range.mpr hl)

theorem count_toList (o : Option ℕ) (i : ℕ) : o.toList.count i = hit o i := by
  cases o with
  | none => rfl
  | some j =>
      unfold hit
      rw [Option.toList_some, List.count_singleton]
      simp

namespace Phase

/-! ## Facts about the start of a call -/

variable (h : Phase s₀ gained [] sb mt s)

include h

theorem live (hi : (s₀.inodes i).count ≠ 0) : (s.inodes i).count ≠ 0 := by
  have hcount := h.count i
  rw [List.count_nil] at hcount
  omega

theorem dead (hi : (s.inodes i).count = 0) : (s₀.inodes i).count = 0 := by
  by_contra hlive
  exact h.live hlive hi

/-- Nothing is mounted on a root. -/
theorem rootless (hwf : WellFormed s₀) (htidy : Tidy s₀) (hi : Mount.mounts s₀ i ≠ 0) :
    (s.inodes i).nr ≠ 1 := by
  have hlive : (s₀.inodes i).count ≠ 0 := fun hdead => hi (hwf.free i hdead)
  rw [(h.persist i hlive (h.live hlive)).nr]
  exact (htidy.mounted i hi).1

end Phase

/-! ## `read_super` -/

theorem wp_getFreeSuper {Q : ℕ → Fs → Prop}
    (hQ : ∀ k, k < SUPER_NR → (s.supers k).dev = NODEV → Q k s) :
    wp (fun _ => True) getFreeSuper Q s := by
  unfold getFreeSuper
  rw [wp_bind, wp_gets]
  cases hfind : (List.range SUPER_NR).find? fun i => (s.supers i).dev = NODEV with
  | none => exact wp_fault _
  | some k =>
      have hdev : (s.supers k).dev = NODEV := by simpa using List.find?_some hfind
      have hlt := List.mem_range.mp (List.mem_of_find?_eq_some hfind)
      exact (wp_pure k).mpr (hQ k hlt hdev)

theorem wp_readSuper {Q : ℕ → Fs → Prop} (h : Phase s₀ gained lost sb mt s)
    (hold : ∀ k s', Paths.superOf s d = some k →
      Phase s₀ gained lost (Function.update sb k { sb k with count := u32 ((sb k).count + 1) })
        mt s' → (∀ i, Stays s s' i) → Q k s')
    (hnew : ∀ k s', Paths.superOf s d = none → k < SUPER_NR → (sb k).dev = NODEV →
      Phase s₀ gained lost (Function.update sb k ⟨d, 1, (sb k).iroot, (sb k).imount⟩) mt s' →
      (∀ i, Stays s s' i) → Q k s') :
    wp (fun _ => True) (readSuper d) Q s := by
  unfold readSuper getSuper
  rw [wp_bind, wp_gets]
  cases hfind : (List.range SUPER_NR).find? fun i => (s.supers i).dev = d with
  | some k =>
      have hslot := h.slots k
      rw [wp_bind]
      refine h.wp_modifySuper { sb k with count := u32 ((sb k).count + 1) }
        (fun _ => rfl) (by rw [← hslot]; rfl) fun s₁ h₁ hstays₁ => ?_
      exact (wp_pure k).mpr (hold k s₁ hfind h₁ hstays₁)
  | none =>
      rw [wp_bind]
      refine wp_getFreeSuper fun k hlt hidle => ?_
      have hidle' : (sb k).dev = NODEV := (congrArg Slot.dev (h.slots k)).symm.trans hidle
      rw [wp_bind]
      refine h.wp_calm (calms_bread d 1) fun buf s₁ h₁ hstays₁ => ?_
      have hslot := h₁.slots k
      rw [wp_bind]
      refine h₁.wp_modifySuper ⟨d, 1, (sb k).iroot, (sb k).imount⟩ (fun _ => rfl)
        (by rw [← hslot]; rfl) fun s₂ h₂ hstays₂ => ?_
      rw [wp_bind]
      refine h₂.wp_calm (calms_getU16 buf 16 0) fun magic s₃ h₃ hstays₃ => ?_
      rw [wp_bind, wp_check]
      intro _
      rw [wp_bind]
      refine h₃.wp_calm (calms_modifySuper fun _ => by rfl) fun _ s₄ h₄ hstays₄ => ?_
      rw [wp_bind, wp_gets, wp_bind]
      refine h₄.wp_calm (calms_readBitmaps (fun _ _ => calms_modifySuper fun _ => by rfl) _ _ _)
        fun idx s₅ h₅ hstays₅ => ?_
      rw [wp_bind]
      refine h₅.wp_calm (calms_readBitmaps (fun _ _ => calms_modifySuper fun _ => by rfl) _ _ _)
        fun _ s₆ h₆ hstays₆ => (wp_pure k).mpr ?_
      exact hnew k s₆ hfind hlt hidle' h₆ fun i => (hstays₁ i).trans <| (hstays₂ i).trans <|
        (hstays₃ i).trans <| (hstays₄ i).trans <| (hstays₅ i).trans (hstays₆ i)

/-! ## `sys_mount` -/

/-- An inode in core is on a list, and only on lists of its device. -/
def Homed (s : Fs) (i : ℕ) : Prop :=
  (∃ k, i ∈ (s.supers k).inodeList) ∧
    ∀ k, i ∈ (s.supers k).inodeList → (s.supers k).dev = (s.inodes i).dev

/-- Device `d` has been mounted on the directory `i`: slot `k` holds its super block, and
`r` is its root. -/
structure Attached (s₀ : Fs) (k r i : ℕ) (d : ℤ) (s : Fs) : Prop where
  phase : Phase s₀ [r, i] [] (Function.update (slots s₀) k ⟨d, 1, some r, some i⟩)
    (Function.update (mounts s₀) i d) s
  dev : d ≠ NODEV
  slot : k < SUPER_NR
  idle : (s₀.supers k).dev = NODEV
  fresh : ∀ l, (s₀.supers l).dev ≠ d
  nr : (s.inodes r).nr = 1
  root : r ∈ (s.supers k).inodeList
  dir : (s.inodes i).nr ≠ 1
  homed : ∀ j, (s₀.inodes j).count = 0 → (s.inodes j).count ≠ 0 → Homed s j

/-- Nothing has changed but what is in core for nobody. -/
def Same (s₀ s : Fs) : Prop := Phase s₀ [] [] (slots s₀) (mounts s₀) s

def MountEnd (s₀ : Fs) : Ret → Fs → Prop
  | .eof, s => Same s₀ s
  | .ok, s => ∃ k r i d, Attached s₀ k r i d s

theorem Same.of_ledger (h : Ledger s₀ [] [] s) (htidy : Tidy s₀) : Same s₀ s :=
  Phase.of_ledger h htidy.pipe

/-- A directory that only the call refers to is no root. -/
theorem newcomer_nr (h : Ledger s₀ gained [] s) (htidy : Tidy s₀)
    (hnew : (s₀.inodes i).count = 0) (hlive : (s.inodes i).count ≠ 0) : (s.inodes i).nr ≠ 1 := by
  intro hnr
  obtain ⟨l, hl⟩ := h.listing.listed i hnew hlive
  obtain ⟨hdev, hroot⟩ := h.listing.entered l i hnew hl
  have hactive : (s₀.supers l).dev ≠ NODEV := by
    rw [← show (s.supers l).dev = (s₀.supers l).dev from congrArg (·.1) (h.mounting l), hdev]
    exact (h.sound.used i hlive).1
  obtain ⟨-, -, r, -, -, -, hmem, hnr'⟩ := htidy.active l hactive
  exact hroot hnr r hmem hnr'

theorem wp_mountRollback (dev dir : Option ℕ)
    (h : Ledger s₀ (dev.toList ++ dir.toList) [] s)
    (htidy : Tidy s₀) :
    wp (fun _ => True) (mountRollback none dev dir) (MountEnd s₀) s := by
  unfold mountRollback
  simp only [wp_bind]
  refine wp_iput_option h fun s₁ h₁ => ?_
  rw [← List.append_nil dir.toList] at h₁
  exact wp_iput_option h₁ fun s₂ h₂ => (wp_pure _).mpr (Same.of_ledger h₂ htidy)

theorem Tidy.fresh (htidy : Tidy s₀) (hd : d ≠ NODEV) (h : Paths.superOf s₀ d = none) (l : ℕ) :
    (s₀.supers l).dev ≠ d := by
  intro hl
  exact superOf_none h (htidy.active l (hl.trans_ne hd)).1 hl

/-- The device has been mounted before. -/
theorem wp_mountRollback_super {dev dir : ℕ}
    (h : Phase s₀ [dir, dev] [] (Function.update (slots s₀) k { slots s₀ k with count := 2 })
      (mounts s₀) s) (hone : (slots s₀ k).count = 1) :
    wp (fun _ => True) (mountRollback (some k) (some dev) (some dir)) (MountEnd s₀) s := by
  unfold mountRollback
  simp only [wp_bind]
  refine h.wp_putSuper_more (n := 0) (by rw [Function.update_self]) fun s₁ h₁ _ => ?_
  rw [Function.update_idem, Function.update_self] at h₁
  have hslots : Function.update (slots s₀) k { slots s₀ k with count := 0 + 1 } = slots s₀ := by
    rw [Function.update_eq_self_iff, zero_add, ← hone]
  change Phase s₀ _ _ (Function.update (slots s₀) k { slots s₀ k with count := 0 + 1 }) _ s₁ at h₁
  rw [hslots] at h₁
  refine h₁.wp_iput (by simp) fun s₂ h₂ _ => ?_
  refine h₂.wp_iput ?_ fun s₃ h₃ _ => (wp_pure _).mpr (h₃.cancel (by simp) fun i => ?_)
  · simp only [List.count_cons, List.count_nil, beq_self_eq_true, if_true]
    omega
  · simp only [List.count_cons, List.count_nil]
    omega

/-- What `sys_mount` does once its arguments are checked. -/
theorem wp_attach {dev dir : ℕ} (hwf : WellFormed s₀) (htidy : Tidy s₀)
    (h : Ledger s₀ [dir, dev] [] s) (hd : d ≠ NODEV) (hone : (s.inodes dir).count = 1) :
    wp (fun _ => True) (do
      let super ← readSuper d
      if (← gets (·.supers super)).imount.isSome then
        mountRollback (some super) (some dev) (some dir)
      else
        let iroot ← iget d 1
        modifySuper super fun v => { v with iroot := some iroot }
        modifySuper super fun v => { v with imount := some dir }
        modifyInode dir fun inode => { inode with mount := d }
        iput (some dev)
        return .ok) (MountEnd s₀) s := by
  have hphase := Phase.of_ledger h htidy.pipe
  have hnew : (s₀.inodes dir).count = 0 := by
    have hcount := h.count dir
    rw [List.count_cons_self] at hcount
    omega
  have hlive : (s.inodes dir).count ≠ 0 := by omega
  have hdir := newcomer_nr h htidy hnew hlive
  simp only [wp_bind]
  refine wp_readSuper hphase (fun k s₁ hk h₁ _ => ?_) fun k s₁ hk hlt hidle h₁ hstays₁ => ?_
  · rw [hphase.superOf d fun _ => rfl] at hk
    have hactive := htidy.active k (by rwa [Paths.superOf_dev hk])
    obtain ⟨-, hcount, r, m, -, himount, -⟩ := hactive
    have hcount' : (slots s₀ k).count = 1 := hcount
    rw [hcount'] at h₁
    have himount₁ : (s₁.supers k).imount = some m := by
      have hslot := congrArg Slot.imount (h₁.slots k)
      rw [Function.update_self] at hslot
      exact hslot.trans himount
    rw [wp_gets, himount₁, Option.isSome_some, if_pos rfl]
    exact wp_mountRollback_super h₁ hcount'
  · rw [hphase.superOf d fun _ => rfl] at hk
    have hfresh := htidy.fresh hd hk
    have hslot₁ := h₁.slots k
    rw [Function.update_self] at hslot₁
    have himount₁ : (s₁.supers k).imount = none :=
      (congrArg Slot.imount hslot₁).trans (htidy.idle k hidle)
    have hfirst : Paths.superOf s₁ d = some k := by
      refine superOf_eq hlt (congrArg Slot.dev hslot₁) fun l hl => ?_
      by_contra hlk
      have hslot := h₁.slots l
      rw [Function.update_of_ne hlk] at hslot
      exact hfresh l ((congrArg Slot.dev hslot).symm.trans hl)
    rw [wp_gets, himount₁, Option.isSome_none, if_neg (by simp)]
    simp only [wp_bind]
    refine h₁.wp_getRoot hd (by simp) (fun j hj => hwf.free j (h₁.dead hj))
      (fun j hj => h₁.rootless hwf htidy hj) fun r l s₂ h₂ hpersist₂ hl hnr hmem hentered => ?_
    obtain rfl : k = l := Option.some_injective _ (hfirst.symm.trans hl)
    have hslot₂ := h₂.slots k
    rw [Function.update_self] at hslot₂
    refine h₂.wp_modifySuper ⟨d, 1, some r, none⟩ (fun _ => rfl) ?_
      fun s₃ h₃ hstays₃ => ?_
    · rw [show (none : Option ℕ) = (s₂.supers k).imount from
        ((congrArg Slot.imount hslot₂).trans (htidy.idle k hidle)).symm,
        show d = (s₂.supers k).dev from (congrArg Slot.dev hslot₂).symm,
        show 1 = (s₂.supers k).count from (congrArg Slot.count hslot₂).symm]
      rfl
    rw [Function.update_idem] at h₃
    have hslot₃ := h₃.slots k
    rw [Function.update_self] at hslot₃
    refine h₃.wp_modifySuper ⟨d, 1, some r, some dir⟩ (fun _ => rfl) ?_
      fun s₄ h₄ hstays₄ => ?_
    · rw [show some r = (s₃.supers k).iroot from (congrArg Slot.iroot hslot₃).symm,
        show d = (s₃.supers k).dev from (congrArg Slot.dev hslot₃).symm,
        show 1 = (s₃.supers k).count from (congrArg Slot.count hslot₃).symm]
      rfl
    rw [Function.update_idem] at h₄
    refine h₄.wp_setMount hd fun s₅ h₅ hstays₅ => ?_
    refine h₅.wp_iput (by simp) fun s₆ h₆ hpersist₆ => (wp_pure _).mpr ?_
    have hend : Phase s₀ [r, dir] [] (Function.update (slots s₀) k ⟨d, 1, some r, some dir⟩)
        (Function.update (mounts s₀) dir d) s₆ := h₆.cancel (by simp) fun j => by
      simp only [List.count_cons, List.count_nil]
      omega
    have hlate : ∀ j ∈ [r, dir], Stays s₂ s₆ j := by
      intro j hj
      have hcount₅ := h₅.count j
      have hcount₆ := hend.count j
      have hpos := List.count_pos_iff.mpr hj
      have hpos' : 0 < [r, dir, dev].count j := List.count_pos_iff.mpr (by
        simp only [List.mem_cons] at hj ⊢
        tauto)
      simp only [List.count_nil] at hcount₅ hcount₆
      exact (hstays₃ j).trans <| (hstays₄ j).trans <| (hstays₅ j).trans <|
        hpersist₆ j (by omega) (by omega)
    have hdir₂ : Stays s₁ s₂ dir := by
      have hcount₁ := h₁.count dir
      have hcount₂ := h₂.count dir
      simp only [List.count_cons, List.count_nil, beq_self_eq_true, if_true] at hcount₁ hcount₂
      exact hpersist₂ dir (by omega) (by omega)
    have hdir' : Stays s s₆ dir := (hstays₁ dir).trans (hdir₂.trans (hlate dir (by simp)))
    refine ⟨k, r, dir, d, hend, hd, hlt, hidle, hfresh, ?_, ?_, ?_, fun j hj hj' => ?_⟩
    · exact (hlate r (by simp)).nr.trans hnr
    · exact ((hlate r (by simp)).lists k).mpr hmem
    · rw [hdir'.nr]
      exact hdir
    -- the two inodes that came in are on the lists they were entered in
    have hdev₆ : ∀ l, (s₆.supers l).dev = if l = k then d else (s₀.supers l).dev := by
      intro l
      have hslot := h₆.slots l
      rw [Function.update_apply] at hslot
      rw [show (s₆.supers l).dev = _ from congrArg Slot.dev hslot]
      split <;> rfl
    have hcount₆ := hend.count j
    have hmem₆ : j ∈ [r, dir] := List.count_pos_iff.mp (by
      rw [List.count_nil] at hcount₆
      omega)
    have hold : ∀ l, j ∈ (s.supers l).inodeList → (s.inodes j).count ≠ 0 →
        (s₀.supers l).dev = (s.inodes j).dev ∧ l ≠ k := by
      intro l hjl hlive'
      have hdev := (h.listing.entered l j hj hjl).1
      rw [show (s.supers l).dev = (s₀.supers l).dev from congrArg (·.1) (h.mounting l)] at hdev
      refine ⟨hdev, ?_⟩
      rintro rfl
      exact (h.sound.used j hlive').1 (hdev.symm.trans hidle)
    rcases List.mem_cons.mp hmem₆ with rfl | hjdir
    · have hnew₁ : (s₁.inodes j).count = 0 := by
        by_contra hlive₁
        have hcount₂ := h₂.count j
        simp only [List.count_cons_self, List.count_nil] at hcount₂
        have hstays₂ := hpersist₂ j hlive₁ (by omega)
        have hmem₀ := ((hstays₁ j).trans hstays₂).lists k |>.mp hmem
        exact (hold k hmem₀ (h.sound.listed k j hmem₀).1).2 rfl
      refine ⟨⟨k, ((hlate j (by simp)).lists k).mpr hmem⟩, fun l hjl => ?_⟩
      have hdev := hentered hnew₁ l (((hlate j (by simp)).lists l).mp hjl)
      rw [hdev₆, (hlate j (by simp)).dev, ← hdev, Function.update_apply]
      split <;> rfl
    · obtain rfl : j = dir := by simpa using hjdir
      obtain ⟨l, hl⟩ := h.listing.listed j hj hlive
      refine ⟨⟨l, (hdir'.lists l).mpr hl⟩, fun l hjl => ?_⟩
      obtain ⟨hdev, hlk⟩ := hold l ((hdir'.lists l).mp hjl) hlive
      rw [hdev₆, if_neg hlk, hdev, hdir'.dev]

theorem nat_ne_nodev (n : ℕ) : (n : ℤ) ≠ NODEV := by
  unfold NODEV
  omega

theorem wp_sysMount {devname dirname : Path} (hwf : WellFormed s₀) (htidy : Tidy s₀) :
    wp (fun _ => True) (sysMount devname dirname) (MountEnd s₀) s₀ := by
  unfold sysMount
  rw [wp_bind]
  refine wp_mono (wp_namei hwf.ledger (by decide)) fun o s₁ h₁ => ?_
  cases o with
  | none => exact wp_mountRollback none none h₁ htidy
  | some dev =>
      have h₁' : Ledger s₀ [dev] [] s₁ := h₁
      simp only [wp_bind, wp_ite]
      refine (neutral_getField dev .mode).wp h₁'.within fun mode s₂ h₂ => ?_
      refine ⟨fun _ => wp_mountRollback (some dev) none h₂.toLedger htidy, fun _ => ?_⟩
      refine (neutral_getField dev (.zone 0)).wp h₂ fun zone s₃ h₃ => ?_
      refine wp_mono (wp_namei h₃.toLedger (by simp)) fun o s₄ h₄ => ?_
      cases o with
      | none => exact wp_mountRollback (some dev) none h₄ htidy
      | some dir =>
          have h₄' : Ledger s₀ [dir, dev] [] s₄ := h₄
          have hrollback : ∀ s', Ledger s₀ [dir, dev] [] s' →
              wp (fun _ => True) (mountRollback none (some dev) (some dir)) (MountEnd s₀) s' :=
            fun s' h' => wp_mountRollback (some dev) (some dir) (h'.perm (.swap ..)) htidy
          simp only [wp_bind, wp_ite, wp_gets]
          refine (neutral_getField dir .mode).wp h₄'.within fun mode s₅ h₅ => ?_
          refine ⟨fun _ => hrollback s₅ h₅.toLedger, fun _ => ?_⟩
          refine ⟨fun _ => hrollback s₅ h₅.toLedger, fun hfree => ?_⟩
          have hattach := wp_attach hwf htidy h₅.toLedger (nat_ne_nodev zone)
            (not_not.mp fun hone => hfree (.inl hone))
          simpa only [wp_bind, wp_ite, wp_gets] using hattach

/-! ## `sys_umount` -/

/-- Slot `k` has been given up: its root was `r`, mounted on `m`. -/
structure Detached (s₀ : Fs) (k r m : ℕ) (s : Fs) : Prop where
  phase : Phase s₀ [] [r, m] (Function.update (slots s₀) k ⟨NODEV, 0, none, none⟩)
    (Function.update (mounts s₀) m 0) s
  active : (s₀.supers k).dev ≠ NODEV
  iroot : (s₀.supers k).iroot = some r
  imount : (s₀.supers k).imount = some m

/-- `sys_umount`, led to `i`, looks up a super block and then gives up. -/
def Refuses (root : ℕ) (s : Fs) (i : ℕ) : Prop :=
  (isBlk (s.desc i .mode) = true ∨ (s.inodes i).nr = 1) ∧ (s.supers root).imount ≠ some i ∧
    ∃ k, Paths.superOf s (umountDev s i) = some k ∧
      ((s.supers k).imount = none ∨ 1 < (s.supers k).inodeList.length)

/-- What `sys_umount` returns with when its argument leads to `i` in the state `s`. -/
def UmountEnd (root : ℕ) (s₀ s : Fs) (i : ℕ) : Ret → Fs → Prop
  | .eof, s' => ¬Refuses root s i ∧ Same s₀ s' ∨
      Refuses root s i ∧ ∃ k, (s₀.supers k).count = 1 ∧ (s'.supers k).count = 0
  | .ok, s' => ∃ k r m, Paths.superOf s (umountDev s i) = some k ∧
      (s.supers k).inodeList.length ≤ 1 ∧ Detached s₀ k r m s'

theorem wp_umountRollback_none {root : ℕ} (h : Ledger s₀ [i] [] s) (htidy : Tidy s₀) {s₁ : Fs}
    (hstays : ¬Refuses root s₁ i) :
    wp (fun _ => True) (umountRollback .eof none i) (UmountEnd root s₀ s₁ i) s := by
  unfold umountRollback
  simp only [wp_bind]
  exact wp_iput h fun s' h' => (wp_pure _).mpr (.inl ⟨hstays, Same.of_ledger h' htidy⟩)

theorem umountDev_ne (h : Sound s) (hi : (s.inodes i).count ≠ 0) : umountDev s i ≠ NODEV := by
  unfold umountDev
  split
  · exact nat_ne_nodev _
  · exact (h.used i hi).1

/-- The last reference to a super block, and then the inode. -/
theorem wp_umountRollback_some {Q : Ret → Fs → Prop} {ret : Ret} (h : Phase s₀ [i] lost sb mt s)
    (hlast : (sb k).count = 1)
    (hheld : ∀ j, ((sb k).iroot.toList ++ ((sb k).imount.toList ++ lost)).count j ≤
      (s₀.inodes j).count)
    (hQ : ∀ s', Phase s₀ [] ((sb k).iroot.toList ++ ((sb k).imount.toList ++ lost))
      (Function.update sb k ⟨NODEV, 0, (sb k).iroot, (sb k).imount⟩) mt s' → Q ret s') :
    wp (fun _ => True) (umountRollback ret (some k) i) Q s := by
  unfold umountRollback
  simp only [wp_bind]
  refine h.wp_putSuper_last hlast (fun j => ?_) fun s₁ h₁ _ => ?_
  · have hle := hheld j
    omega
  · refine h₁.wp_iput ?_ fun s₂ h₂ _ => (wp_pure _).mpr (hQ s₂ (h₂.cancel (by simp) fun j => ?_))
    · have hle := hheld i
      rw [List.count_singleton_self]
      omega
    · simp only [List.count_cons, List.count_nil]
      omega

/-- The super block is given up. -/
theorem wp_detach (root : ℕ) (s₁ : Fs) {r m : ℕ} (hbacked : Backed s₀)
    (h : Phase s₀ [i] [] (slots s₀) (mounts s₀) s)
    (hactive : (s₀.supers k).dev ≠ NODEV) (hcount : (s₀.supers k).count = 1)
    (hiroot : (s₀.supers k).iroot = some r) (himount : (s₀.supers k).imount = some m)
    (hk : Paths.superOf s₁ (umountDev s₁ i) = some k)
    (hshort : (s₁.supers k).inodeList.length ≤ 1) :
    wp (fun _ => True) (do
      iput (← gets (·.supers k)).iroot
      modifySuper k fun v => { v with iroot := none }
      modifyInode m fun inode => { inode with mount := 0 }
      iput (some m)
      modifySuper k fun v => { v with imount := none }
      umountRollback .ok (some k) i) (UmountEnd root s₀ s₁ i) s := by
  have hheld : ∀ j, [r, m].count j ≤ (s₀.inodes j).count := by
    intro j
    have hle := hbacked k hactive j
    rw [hiroot, himount, ← count_toList, ← count_toList, ← List.count_append] at hle
    exact hle
  have hslot : slots s₀ k = ⟨(s₀.supers k).dev, 1, some r, some m⟩ := by
    rw [← hcount, ← hiroot, ← himount]
    rfl
  have hslot₀ := (h.slots k).trans hslot
  simp only [wp_bind, wp_gets]
  rw [show (s.supers k).iroot = some r from congrArg Slot.iroot hslot₀]
  have hr : 0 < (s₀.inodes r).count := by
    have hle := hheld r
    simp only [List.count_cons, beq_self_eq_true, if_true] at hle
    omega
  refine h.wp_iput (by simp only [List.count_nil]; omega) fun s₂ h₂ _ => ?_
  have hslot₂ := (h₂.slots k).trans hslot
  refine h₂.wp_modifySuper ⟨(s₀.supers k).dev, 1, none, some m⟩ (fun _ => rfl) ?_
    fun s₃ h₃ _ => ?_
  · have hdev := congrArg Slot.dev hslot₂
    have hone := congrArg Slot.count hslot₂
    have hm := congrArg Slot.imount hslot₂
    exact Slot.mk.injEq .. ▸ ⟨hdev, hone, rfl, hm⟩
  refine h₃.wp_setMount (d := 0) (by decide) fun s₄ h₄ _ => ?_
  refine h₄.wp_iput ?_ fun s₅ h₅ _ => ?_
  · have hle := hheld m
    simp only [List.count_cons, List.count_nil, beq_self_eq_true, if_true] at hle ⊢
    omega
  have hslot₅ := h₅.slots k
  rw [Function.update_self] at hslot₅
  refine h₅.wp_modifySuper ⟨(s₀.supers k).dev, 1, none, none⟩ (fun _ => rfl) ?_
    fun s₆ h₆ _ => ?_
  · have hdev := congrArg Slot.dev hslot₅
    have hone := congrArg Slot.count hslot₅
    have hr := congrArg Slot.iroot hslot₅
    exact Slot.mk.injEq .. ▸ ⟨hdev, hone, hr, rfl⟩
  rw [Function.update_idem] at h₆
  refine wp_umountRollback_some h₆ (by rw [Function.update_self]) (fun j => ?_) fun s₇ h₇ => ?_
  · have hle := hheld j
    rw [Function.update_self]
    simp only [Option.toList_none, List.nil_append, List.count_cons, List.count_nil] at hle ⊢
    omega
  · rw [Function.update_self, Function.update_idem] at h₇
    refine ⟨k, r, m, hk, hshort, h₇.cancel (by simp) fun j => ?_, hactive, hiroot, himount⟩
    simp only [Option.toList_none, List.nil_append, List.count_cons, List.count_nil]
    omega

/-- `sys_umount`, once its argument has led to `i`. -/
theorem wp_umountFound {root : ℕ} (htidy : Tidy s₀) (hbacked : Backed s₀)
    (h : Ledger s₀ [i] [] s) :
    wp (fun _ => True) (do
      if !isBlk (← getField i .mode) ∧ (← gets (·.inodes i)).nr ≠ 1 then
        umountRollback .eof none i
      else if (← gets (·.supers root)).imount = some i then
        umountRollback .eof none i
      else
        match ← getSuper (← gets (umountDev · i)) with
        | none => fault .wild
        | some super =>
          match (← gets (·.supers super)).imount with
          | none => umountRollback .eof (some super) i
          | some imount =>
            if 1 < (← gets (·.supers super)).inodeList.length then
              umountRollback .eof (some super) i
            else
              iput (← gets (·.supers super)).iroot
              modifySuper super fun v => { v with iroot := none }
              modifyInode imount fun inode => { inode with mount := 0 }
              iput (some imount)
              modifySuper super fun v => { v with imount := none }
              umountRollback .ok (some super) i) (UmountEnd root s₀ s i) s := by
  have hphase := Phase.of_ledger h htidy.pipe
  have hlive := (h.inCore_of_mem List.mem_cons_self).1
  unfold getField getSuper
  simp only [wp_bind, wp_gets, wp_ite]
  refine ⟨fun hno => ?_, fun hyes => ⟨fun htop => ?_, fun hnot => ?_⟩⟩
  · refine wp_umountRollback_none h htidy fun hrefuses => ?_
    rcases hrefuses.1 with hblk | hnr
    · simp [hblk] at hno
    · exact hno.2 hnr
  · exact wp_umountRollback_none h htidy fun hrefuses => hrefuses.2.1 htop
  · cases hfind : (List.range SUPER_NR).find? fun l => (s.supers l).dev = umountDev s i with
    | none => exact wp_fault _
    | some k =>
        have hdev : (s.supers k).dev = umountDev s i := Paths.superOf_dev hfind
        have hslot := hphase.slots k
        have hactive : (s₀.supers k).dev ≠ NODEV := by
          rw [← show (s.supers k).dev = (s₀.supers k).dev from congrArg Slot.dev hslot, hdev]
          exact umountDev_ne h.sound hlive
        obtain ⟨-, hcount, r, m, hiroot, himount, -⟩ := htidy.active k hactive
        have himount' : (s.supers k).imount = some m :=
          (congrArg Slot.imount hslot).trans himount
        simp only [wp_bind, wp_gets, himount', wp_ite]
        refine ⟨fun hlong => ?_, fun hshort => ?_⟩
        · refine wp_umountRollback_some hphase hcount (fun j => ?_) fun s' h' =>
            .inr ⟨?_, k, hcount, ?_⟩
          · have hle := hbacked k hactive j
            rw [← count_toList, ← count_toList, ← List.count_append] at hle
            rw [List.append_nil]
            exact hle
          · refine ⟨?_, hnot, k, hfind, .inr hlong⟩
            by_cases hblk : isBlk (s.desc i .mode) = true
            · exact .inl hblk
            · refine .inr (by_contra fun hnr => hyes ⟨by simpa using hblk, hnr⟩)
          · have hslot' := h'.slots k
            rw [Function.update_self] at hslot'
            exact congrArg Slot.count hslot'
        · have hdetach := wp_detach root s hbacked hphase hactive hcount hiroot himount hfind
            (not_lt.mp hshort)
          simpa only [wp_bind, wp_gets] using hdetach

/-- A run of `sys_umount` first looks up its argument. -/
theorem sysUmount_run {root : ℕ} {target : Path} {ret : Ret} {l : List Event}
    (hwf : WellFormed s₀) (htidy : Tidy s₀) (hbacked : Backed s₀)
    (hrun : (sysUmount root target).run s₀ = .ok (ret, s', l)) :
    (∃ s₁ l₁, (namei target).run s₀ = .ok (none, s₁, l₁) ∧ ret = .eof ∧ Same s₀ s') ∨
      ∃ i s₁ l₁, (namei target).run s₀ = .ok (some i, s₁, l₁) ∧ Ledger s₀ [i] [] s₁ ∧
        UmountEnd root s₀ s₁ i ret s' := by
  unfold sysUmount at hrun
  obtain ⟨o, s₁, l₁, l₂, hnamei, hrest, -⟩ := bind_eq_ok.mp hrun
  have hledger : Ledger s₀ (o.toList ++ []) [] s₁ :=
    wp_namei hwf.ledger (by decide) o s₁ l₁ hnamei fun _ _ => trivial
  cases o with
  | none =>
      cases hrest
      exact .inl ⟨s', l₁, hnamei, rfl, Same.of_ledger hledger htidy⟩
  | some i =>
      have hledger' : Ledger s₀ [i] [] s₁ := hledger
      refine .inr ⟨i, s₁, l₁, hnamei, hledger', ?_⟩
      exact wp_umountFound htidy hbacked hledger' ret s' l₂ hrest fun _ _ => trivial

/-! ## `sys_mkfs` -/

/-- The free slot `k` of `super_table` has been used for the root `r`, and is free again. -/
structure Formatted (s₀ : Fs) (k r : ℕ) (s : Fs) : Prop where
  phase : Phase s₀ [] [] (Function.update (slots s₀) k ⟨NODEV, 0, some r, none⟩) (mounts s₀) s
  slot : k < SUPER_NR
  idle : (s₀.supers k).dev = NODEV

def MkfsEnd (s₀ : Fs) : Ret → Fs → Prop
  | .eof, s => Same s₀ s
  | .ok, s => ∃ k r, Formatted s₀ k r s

/-- `new_inode` of number 1. -/
theorem wp_newRoot {Q : ℕ → Fs → Prop} (hwf : WellFormed s₀) (htidy : Tidy s₀) (hd : d ≠ NODEV)
    (h : Phase s₀ gained [] sb (mounts s₀) s) (hfew : gained.length < 8)
    (hQ : ∀ r s', Phase s₀ (r :: gained) [] sb (mounts s₀) s' → Q r s') :
    wp (fun _ => True) (newInode d 1) Q s := by
  unfold newInode
  refine h.calm_bind (calms_gets _) fun task s₁ h₁ => ?_
  rw [wp_bind]
  refine h₁.wp_getRoot hd hfew (fun j hj => hwf.free j (h₁.dead hj))
    (fun j hj => h₁.rootless hwf htidy hj) fun r _ s₂ h₂ _ _ _ _ _ => ?_
  refine h₂.calm_bind (calms_dirtyInode r) fun _ s₂ h₂ => ?_
  refine h₂.calm_bind (calms_setField r _ _) fun _ s₂ h₂ => ?_
  refine h₂.calm_bind (calms_setField r _ _) fun _ s₂ h₂ => ?_
  refine h₂.calm_bind (calms_setField r _ _) fun _ s₂ h₂ => ?_
  refine h₂.calm_bind (calms_setAtime r) fun _ s₂ h₂ => ?_
  refine h₂.calm_bind (calms_gets _) fun now s₂ h₂ => ?_
  refine h₂.calm_bind (calms_setField r _ _) fun _ s₂ h₂ => ?_
  refine h₂.calm_bind (calms_setField r _ _) fun _ s₂ h₂ => ?_
  refine h₂.calm_bind (calms_setField r _ _) fun _ s₂ h₂ => ?_
  exact (wp_pure r).mpr (hQ r s₂ h₂)

theorem wp_devmkfs {Q : Ret → Fs → Prop} {icount : ℕ} (hwf : WellFormed s₀) (htidy : Tidy s₀)
    (hd : d ≠ NODEV) (h : Phase s₀ gained [] (slots s₀) (mounts s₀) s) (hfew : gained.length < 8)
    (hQ : ∀ k r s', k < SUPER_NR → (s₀.supers k).dev = NODEV →
      Phase s₀ gained [] (Function.update (slots s₀) k ⟨NODEV, 0, some r, none⟩) (mounts s₀) s' →
      Q .ok s') :
    wp (fun _ => True) (devmkfs d icount) Q s := by
  unfold devmkfs
  rw [wp_bind, wp_gets, wp_bind, wp_check]
  intro _
  rw [wp_bind, wp_check]
  intro _
  rw [wp_bind]
  refine wp_getFreeSuper fun k hlt hidle => ?_
  have hslot := h.slots k
  have hidle₀ : (s₀.supers k).dev = NODEV := (congrArg Slot.dev hslot).symm.trans hidle
  rw [wp_bind]
  refine h.wp_modifySuper ⟨d, 1, (slots s₀ k).iroot, none⟩ (fun _ => rfl)
    (slotOf_eq rfl rfl (congrArg Slot.iroot hslot)
      ((congrArg Slot.imount hslot).trans (htidy.idle k hidle₀))) fun s₁ h₁ _ => ?_
  have hbuffers : ∀ {f : SuperBlock → SuperBlock}, (∀ v, entry (f v) = entry v) →
      Calms (modifySuper k f) := calms_modifySuper
  refine h₁.calm_bind (calms_bread d 1) fun buf s₁ h₁ => ?_
  refine h₁.calm_bind (hbuffers fun _ => by rfl) fun _ s₁ h₁ => ?_
  refine h₁.calm_bind (calms_setDirty buf) fun _ s₁ h₁ => ?_
  refine h₁.calm_bind (calms_setData buf _) fun _ s₁ h₁ => ?_
  refine h₁.calm_bind (hbuffers fun _ => by rfl) fun _ s₁ h₁ => ?_
  refine h₁.calm_bind (calms_gets _) fun desc s₁ h₁ => ?_
  refine h₁.calm_bind (calms_readMaps (fun _ _ => hbuffers fun _ => by rfl) _ _ _)
    fun idx s₁ h₁ => ?_
  refine h₁.calm_bind (calms_readMaps (fun _ _ => hbuffers fun _ => by rfl) _ _ _)
    fun _ s₁ h₁ => ?_
  refine h₁.calm_bind (calms_balloc d) fun _ s₁ h₁ => ?_
  refine h₁.calm_bind (calms_ialloc d) fun _ s₁ h₁ => ?_
  refine h₁.calm_bind (calms_ialloc d) fun _ s₁ h₁ => ?_
  rw [wp_ite]
  refine ⟨fun _ => by rw [wp_bind]; exact wp_fault _, fun _ => ?_⟩
  refine h₁.calm_bind (calms_gets _) fun v s₁ h₁ => ?_
  refine h₁.calm_bind (calms_deref _) fun imap s₁ h₁ => ?_
  refine h₁.calm_bind (calms_fillTail _ imap) fun _ s₁ h₁ => ?_
  refine h₁.calm_bind (calms_gets _) fun v s₁ h₁ => ?_
  refine h₁.calm_bind (calms_deref _) fun zmap s₁ h₁ => ?_
  refine h₁.calm_bind (calms_fillTail _ zmap) fun _ s₁ h₁ => ?_
  refine h₁.calm_bind (calms_gets _) fun task s₁ h₁ => ?_
  rw [wp_bind]
  refine wp_newRoot hwf htidy hd h₁ hfew fun r s₂ h₂ => ?_
  have hslot₂ := h₂.slots k
  rw [Function.update_self] at hslot₂
  rw [wp_bind]
  refine h₂.wp_modifySuper ⟨d, 1, some r, none⟩ (fun _ => rfl)
    (slotOf_eq (congrArg Slot.dev hslot₂) (congrArg Slot.count hslot₂) rfl
      (congrArg Slot.imount hslot₂)) fun s₃ h₃ _ => ?_
  rw [Function.update_idem] at h₃
  refine h₃.calm_bind (calms_setField r _ _) fun _ s₃ h₃ => ?_
  refine h₃.calm_bind (calms_noteInode r) fun _ s₃ h₃ => ?_
  refine h₃.calm_bind (calms_setField r _ _) fun _ s₃ h₃ => ?_
  refine h₃.calm_bind (calms_setField r _ _) fun _ s₃ h₃ => ?_
  refine h₃.calm_bind (calms_bmap r 0 true) fun block s₃ h₃ => ?_
  refine h₃.calm_bind (calms_bread d block) fun buf s₃ h₃ => ?_
  refine h₃.calm_bind (calms_setDirty buf) fun _ s₃ h₃ => ?_
  refine h₃.calm_bind (calms_clearBlock buf) fun _ s₃ h₃ => ?_
  refine h₃.calm_bind (calms_setData buf _) fun _ s₃ h₃ => ?_
  refine h₃.calm_bind (calms_gets _) fun inode s₃ h₃ => ?_
  refine h₃.calm_bind (calms_putU16 buf _ _ _) fun _ s₃ h₃ => ?_
  refine h₃.calm_bind (calms_setData buf _) fun _ s₃ h₃ => ?_
  refine h₃.calm_bind (calms_gets _) fun inode s₃ h₃ => ?_
  refine h₃.calm_bind (calms_putU16 buf _ _ _) fun _ s₃ h₃ => ?_
  refine h₃.calm_bind (calms_brelse _) fun _ s₃ h₃ => ?_
  rw [wp_bind]
  refine h₃.wp_putSuper_last (by rw [Function.update_self]) (fun j => ?_) fun s₄ h₄ _ => ?_
  · rw [Function.update_self]
    simp only [Option.toList_some, Option.toList_none, List.append_nil,
      List.count_cons, List.count_nil]
    omega
  · rw [Function.update_self, Function.update_idem] at h₄
    refine (wp_pure _).mpr (hQ k r s₄ hlt hidle₀ (h₄.cancel hfew.le fun j => ?_))
    simp only [Option.toList_some, Option.toList_none, List.append_nil,
      List.count_cons, List.count_nil]
    omega

theorem wp_sysMkfs {devname : Path} {icount : ℤ} (hwf : WellFormed s₀) (htidy : Tidy s₀) :
    wp (fun _ => True) (sysMkfs devname icount) (MkfsEnd s₀) s₀ := by
  unfold sysMkfs
  rw [wp_bind]
  refine wp_mono (wp_namei hwf.ledger (by decide)) fun o s₁ h₁ => ?_
  cases o with
  | none => exact (wp_pure _).mpr (Same.of_ledger h₁ htidy)
  | some i =>
      have h₁' : Ledger s₀ [i] [] s₁ := h₁
      simp only [wp_bind, wp_ite]
      refine (neutral_getField i .mode).wp h₁'.within fun mode s₂ h₂ => ⟨fun _ => ?_, fun _ => ?_⟩
      · exact wp_iput h₂.toLedger fun s₃ h₃ => (wp_pure _).mpr (Same.of_ledger h₃ htidy)
      · refine (neutral_getField i (.zone 0)).wp h₂ fun zone s₃ h₃ => ?_
        rw [wp_check]
        intro _
        have hphase := Phase.of_ledger h₃.toLedger htidy.pipe
        refine wp_devmkfs hwf htidy (nat_ne_nodev zone) hphase (by simp)
          fun k r s₄ hlt hidle h₄ => ?_
        refine h₄.wp_iput (by simp) fun s₅ h₅ _ => (wp_pure _).mpr ?_
        refine ⟨k, r, h₅.cancel (by simp) fun j => ?_, hlt, hidle⟩
        simp only [List.count_cons, List.count_nil]
        omega

/-! ## The other calls -/

/-- The task has left `place` for another directory. -/
def MovedEnd (place : Task → ℕ) (move : Task → ℕ → Task) (s₀ : Fs) : Ret → Fs → Prop
  | .eof, s => Same s₀ s
  | .ok, s => ∃ i, Phase { s₀ with task := move s₀.task i } [i] [place s₀.task] (slots s₀)
      (mounts s₀) s

theorem wp_sysChdir {path : Path} (hwf : WellFormed s₀) (htidy : Tidy s₀) :
    wp (fun _ => True) (sysChdir path)
      (MovedEnd Task.ipwd (fun task i => { task with ipwd := i }) s₀) s₀ := by
  unfold sysChdir
  rw [wp_bind]
  refine wp_mono (wp_namei hwf.ledger (by decide)) fun o s₁ h₁ => ?_
  cases o with
  | none => exact wp_rollback_then h₁ fun s' h' => Same.of_ledger h' htidy
  | some i =>
      have h₁' : Ledger s₀ [i] [] s₁ := h₁
      simp only [wp_bind, wp_gets, wp_ite]
      refine (neutral_getField i _).wp h₁'.within fun mode s₂ h₂ => ?_
      refine ⟨fun _ => wp_rollback_then h₂.toLedger fun s' h' => Same.of_ledger h' htidy,
        fun _ => ?_⟩
      rw [wp_lift]
      intro pwd _
      have hphase := Phase.of_ledger h₂.toLedger htidy.pipe
      rw [wp_modify, h₁'.ipwd]
      have hphase' : Phase s₀ [i] [] (slots s₀) (mounts s₀)
          { s₂ with task := { s₂.task with pwd := pwd } } := hphase.retask hphase.iroot hphase.ipwd
      refine hphase'.wp_iput ?_ fun s₃ h₃ _ => ?_
      · have hpwd := hwf.pwd.1
        rw [List.count_nil]
        omega
      · rw [wp_modify]
        exact (wp_pure _).mpr ⟨i, h₃.retask h₃.iroot rfl⟩

theorem wp_sysChroot {path : Path} (hwf : WellFormed s₀) (htidy : Tidy s₀) :
    wp (fun _ => True) (sysChroot path)
      (MovedEnd Task.iroot (fun task i => { task with iroot := i }) s₀) s₀ := by
  unfold sysChroot
  rw [wp_bind]
  refine wp_mono (wp_namei hwf.ledger (by decide)) fun o s₁ h₁ => ?_
  cases o with
  | none => exact wp_rollback_then h₁ fun s' h' => Same.of_ledger h' htidy
  | some i =>
      have h₁' : Ledger s₀ [i] [] s₁ := h₁
      simp only [wp_bind, wp_gets, wp_ite]
      refine (neutral_getField i _).wp h₁'.within fun mode s₂ h₂ => ?_
      refine ⟨fun _ => wp_rollback_then h₂.toLedger fun s' h' => Same.of_ledger h' htidy,
        fun _ => ?_⟩
      have hphase := Phase.of_ledger h₂.toLedger htidy.pipe
      rw [h₁'.iroot]
      refine hphase.wp_iput ?_ fun s₃ h₃ _ => ?_
      · have hroot := hwf.root.1
        rw [List.count_nil]
        omega
      · rw [wp_modify]
        exact (wp_pure _).mpr ⟨i, h₃.retask rfl h₃.ipwd⟩

end Ylos.Mount
