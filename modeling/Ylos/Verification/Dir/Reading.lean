import Ylos.Model.Fs.Namei
import Ylos.Verification.Fs.Equations

/-! # Code that only reads

Such code may write buffers back and take or release references to buffers. What it
answers is a function of the data. -/

namespace Ylos.Dir

open Exec

variable {α β : Type} {s s' s'' : Fs} {bufs bufs' bufs'' : List BufRef} {b : BufRef}

/-- Code with the references `bufs` to buffers has gone from `s` to `s'`, and has `bufs'`. -/
structure Reads (bufs bufs' : List BufRef) (s s' : Fs) : Prop where
  img : s'.img = s.img
  inodes : s'.inodes = s.inodes
  supers : s'.supers = s.supers
  task : s'.task = s.task
  now : s'.now = s.now
  refs : ∀ c, s'.refs c + bufs.count c = s.refs c + bufs'.count c

/-- The references `bufs` are counted. -/
def Owned (bufs : List BufRef) (s : Fs) : Prop := ∀ c, (bufs.count c : ℤ) ≤ s.refs c

/-- From `s`, with the references `bufs`, the code returns `a` and the references `bufs'`. -/
def Answers (bufs : List BufRef) (x : K α) (s : Fs) (bufs' : List BufRef) (a : α) : Prop :=
  ∃ s', x.run s = .ok (a, s', []) ∧ Reads bufs bufs' s s'

theorem Reads.refl (bufs : List BufRef) (s : Fs) : Reads bufs bufs s s :=
  ⟨rfl, rfl, rfl, rfl, rfl, fun _ => rfl⟩

theorem Reads.trans (h : Reads bufs bufs' s s') (h' : Reads bufs' bufs'' s' s'') :
    Reads bufs bufs'' s s'' where
  img := h'.img.trans h.img
  inodes := h'.inodes.trans h.inodes
  supers := h'.supers.trans h.supers
  task := h'.task.trans h.task
  now := h'.now.trans h.now
  refs c := by
    have hfirst := h.refs c
    have hsecond := h'.refs c
    omega

theorem Reads.data (h : Reads bufs bufs' s s') (c : BufRef) : s'.data c = s.data c := by
  unfold Fs.data
  rw [h.img]

theorem Reads.desc (h : Reads bufs bufs' s s') (i : ℕ) (f : Field) : s'.desc i f = s.desc i f := by
  unfold Fs.desc
  rw [h.data, h.inodes]

theorem Owned.reads (h : Owned bufs s) (hreads : Reads bufs bufs' s s') : Owned bufs' s' := by
  intro c
  have howned := h c
  have hrefs := hreads.refs c
  omega

/-! ## Rules -/

theorem answers_pure (a : α) : Answers bufs (pure a) s bufs a := ⟨s, rfl, .refl bufs s⟩

theorem answers_gets (f : Fs → α) : Answers bufs (gets f) s bufs (f s) := ⟨s, rfl, .refl bufs s⟩

theorem answers_check {p : Prop} [Decidable p] (h : p) : Answers bufs (check p) s bufs () :=
  ⟨s, run_check_pos h s, .refl bufs s⟩

/-- Code whose run is known is passed over. -/
theorem answers_bind_run {x : K α} {f : α → K β} {a : α} {c : β}
    (hrun : x.run s = .ok (a, s', [])) (hreads : Reads bufs bufs' s s')
    (hf : Answers bufs' (f a) s' bufs'' c) : Answers bufs (x >>= f) s bufs'' c := by
  obtain ⟨s₂, hrun', hreads'⟩ := hf
  exact ⟨s₂, (run_bind f hrun).trans hrun', hreads.trans hreads'⟩

theorem Answers.bind {x : K α} {f : α → K β} {a : α} {c : β} (hx : Answers bufs x s bufs' a)
    (hf : ∀ s', Reads bufs bufs' s s' → Answers bufs' (f a) s' bufs'' c) :
    Answers bufs (x >>= f) s bufs'' c := by
  obtain ⟨s₁, hrun, hreads⟩ := hx
  exact answers_bind_run hrun hreads (hf s₁ hreads)

theorem Answers.of_run {x : K α} {a : α} (h : x.run s = .ok (a, s, [])) :
    Answers bufs x s bufs a :=
  ⟨s, h, .refl bufs s⟩

/-! ## Buffers -/

theorem answers_getU16 (c : BufRef) (base i : ℕ) :
    Answers bufs (getU16 c base i) s bufs ((s.data c).read 2 (base + 2 * i)) := answers_gets _

theorem answers_getField (i : ℕ) (f : Field) : Answers bufs (getField i f) s bufs (s.desc i f) :=
  answers_gets _

theorem answers_addRef (b : BufRef) : Answers bufs (addRef b 1) s (b :: bufs) () := by
  refine ⟨_, rfl, ⟨rfl, rfl, rfl, rfl, rfl, fun c => ?_⟩⟩
  rw [List.count_cons]
  change (if c = b then s.refs c + 1 else s.refs c) + _ = _
  by_cases hc : c = b
  · rw [if_pos hc, if_pos (by simp [hc])]
    push_cast
    omega
  · rw [if_neg hc, if_neg (by simpa using Ne.symm hc)]
    rfl

theorem answers_bread (dev : ℤ) (block : ℕ) :
    Answers bufs (bread dev block) s (⟨dev, block⟩ :: bufs) ⟨dev, block⟩ :=
  (answers_addRef ⟨dev, block⟩).bind fun _ _ => answers_pure _

theorem answers_bwrite (b : BufRef) : Answers bufs (bwrite b) s bufs () := by
  unfold bwrite
  refine (answers_gets _).bind fun s₁ _ => ?_
  split
  · exact ⟨_, rfl, rfl, rfl, rfl, rfl, rfl, fun _ => rfl⟩
  · exact answers_pure ()

/-- `brelse` asserts that the reference was counted. -/
theorem answers_brelse (h : Owned (b :: bufs) s) :
    Answers (b :: bufs) (brelse (some b)) s bufs () := by
  unfold brelse
  refine (answers_bwrite b).bind fun s₁ h₁ => ?_
  have hpos : 1 ≤ s₁.refs b := by
    have howned := (h.reads h₁) b
    rw [List.count_cons_self] at howned
    push_cast at howned
    omega
  refine ⟨{ s₁ with refs := fun c => if c = b then s₁.refs c + -1 else s₁.refs c }, ?_,
    rfl, rfl, rfl, rfl, rfl, fun c => ?_⟩
  · unfold addRef
    rw [run_bind _ (run_modify _ s₁), run_bind _ (run_gets _ _), run_check_pos]
    change 0 ≤ if b = b then s₁.refs b + -1 else s₁.refs b
    rw [if_pos rfl]
    omega
  · rw [List.count_cons]
    change (if c = b then s₁.refs c + -1 else s₁.refs c) + _ = _
    by_cases hc : c = b
    · rw [if_pos hc, if_pos (by simp [hc])]
      push_cast
      omega
    · rw [if_neg hc, if_neg (by simpa using Ne.symm hc)]
      rfl

/-! ## Block mapping -/

/-- Entry `index` of the array of block numbers at byte `base` of `b`. -/
def arrayAt (s : Fs) (b : BufRef) (base index : ℕ) : ℕ := (s.data b).read 2 (base + 2 * index)

/-- What `reckon` finds without creating. -/
def zoneVia (s : Fs) (dev : ℤ) : (level : ℕ) → BufRef → (base index block divider : ℕ) → ℕ
  | 0, b, base, index, _, _ => arrayAt s b base index
  | level + 1, b, base, index, block, divider =>
    if arrayAt s b base index = 0 then 0
    else zoneVia s dev level ⟨dev, arrayAt s b base index⟩ 0 (block / divider % 2 ^ 16)
      (block % divider) (divider / BLOCK_INDEXES)

/-- Where an inode is: its device, and its descriptor in the buffer of a block. -/
structure Site where
  dev : ℤ
  buf : BufRef
  slot : ℕ
  deriving DecidableEq, Repr

/-- Where an inode in core says it is. -/
def siteAt (s : Fs) (i : ℕ) : Site := ⟨(s.inodes i).dev, (s.inodes i).buf, (s.inodes i).slot⟩

def descOf (s : Fs) (v : Site) (f : Field) : ℕ :=
  (s.data v.buf).read f.width (DESC_SIZE * v.slot + f.offset)

/-- The zone of block `block` of an inode, or 0. -/
def fileZone (s : Fs) (v : Site) (block : ℕ) : ℕ :=
  let zones := DESC_SIZE * v.slot + (Field.zone 0).offset
  if block < DIRECT_BLOCK then
    zoneVia s v.dev 0 v.buf zones block block 1
  else if block - DIRECT_BLOCK < INDIRECT1_BLOCK then
    zoneVia s v.dev 1 v.buf zones DIRECT_BLOCK (block - DIRECT_BLOCK) 1
  else
    zoneVia s v.dev 2 v.buf zones (DIRECT_BLOCK + 1)
      (block - DIRECT_BLOCK - INDIRECT1_BLOCK) BLOCK_INDEXES

theorem Reads.siteAt (h : Reads bufs bufs' s s') (i : ℕ) : Dir.siteAt s' i = Dir.siteAt s i := by
  unfold Dir.siteAt
  rw [h.inodes]

theorem zoneVia_congr (h : s'.img = s.img) (dev : ℤ) (level : ℕ) (b : BufRef)
    (base index block divider : ℕ) :
    zoneVia s' dev level b base index block divider =
      zoneVia s dev level b base index block divider := by
  have harray : ∀ b base index, arrayAt s' b base index = arrayAt s b base index := by
    intro b base index
    unfold arrayAt Fs.data
    rw [h]
  induction level generalizing b base index block divider with
  | zero => exact harray b base index
  | succ level ih => rw [zoneVia, zoneVia, harray, ih]

theorem fileZone_congr (h : s'.img = s.img) (v : Site) (block : ℕ) :
    fileZone s' v block = fileZone s v block := by
  unfold fileZone
  simp only [zoneVia_congr h]

theorem descOf_congr (h : s'.img = s.img) (v : Site) (f : Field) :
    descOf s' v f = descOf s v f := by
  unfold descOf Fs.data
  rw [h]

theorem answers_arrayZone {dev : ℤ} {level base index : ℕ} (h : Owned (b :: bufs) s) :
    Answers (b :: bufs) (arrayZone dev false level b base index) s bufs
      (arrayAt s b base index) := by
  unfold arrayZone
  refine (answers_getU16 b base index).bind fun s₁ h₁ => ?_
  rw [if_neg (by simp)]
  refine (answers_brelse (h.reads h₁)).bind fun s₂ h₂ => ?_
  have hdata : (s₂.data b).read 2 (base + 2 * index) = arrayAt s b base index := by
    rw [(h₁.trans h₂).data b]
    rfl
  exact hdata ▸ answers_getU16 b base index

theorem answers_reckon {dev : ℤ} {level base index block divider : ℕ}
    (h : Owned (b :: bufs) s) :
    Answers (b :: bufs) (reckon dev false level b base index block divider) s bufs
      (zoneVia s dev level b base index block divider) := by
  induction level generalizing b base index block divider s with
  | zero => exact answers_arrayZone h
  | succ level ih =>
      unfold reckon zoneVia
      refine (answers_arrayZone h).bind fun s₁ h₁ => ?_
      split
      · rename_i hzero
        rw [hzero]
        exact answers_pure 0
      · refine (answers_bread dev _).bind fun s₂ h₂ => ?_
        have howned := (h.reads h₁).reads h₂
        rw [← zoneVia_congr (h₁.trans h₂).img]
        exact ih howned

theorem answers_bmap {i block : ℕ} (hblock : block < TOTAL_BLOCK) (h : Owned bufs s) :
    Answers bufs (bmap i block false) s bufs (fileZone s (siteAt s i) block) := by
  unfold bmap fileZone
  refine (answers_check hblock).bind fun s₁ h₁ => ?_
  refine (answers_gets _).bind fun s₂ h₂ => ?_
  refine (answers_addRef _).bind fun s₃ h₃ => ?_
  have hreads := (h₁.trans h₂).trans h₃
  have howned := h.reads hreads
  rw [h₁.inodes] at howned ⊢
  simp only [← zoneVia_congr hreads.img]
  have htotal : TOTAL_BLOCK = DIRECT_BLOCK + INDIRECT1_BLOCK + INDIRECT2_BLOCK := rfl
  split
  · exact answers_reckon howned
  · split
    · exact answers_reckon howned
    · refine (answers_check (by omega)).bind fun s₄ h₄ => ?_
      simp only [← zoneVia_congr h₄.img]
      exact answers_reckon (howned.reads h₄)

end Ylos.Dir
