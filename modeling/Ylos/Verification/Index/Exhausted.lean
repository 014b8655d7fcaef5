import Ylos.Verification.Index.Transfer

/-! # A volume without a free zone -/

namespace Ylos.Index

open Exec Dir Allocator

variable {dev : ℤ} {d : SuperDesc} {k : ℕ} {zb : ℕ → BufRef} {vs : Set Site} {s s' t t' : Fs}
  {v : Site} {i block level base index divider : ℕ} {b : BufRef} {good : Event → Prop}

/-! ## Reading changes no buffer -/

/-- The buffers and the tables are as before. -/
structure Still (s s' : Fs) : Prop where
  img : s'.img = s.img
  inodes : s'.inodes = s.inodes
  supers : s'.supers = s.supers

instance : IsPreorder Fs Still where
  refl _ := ⟨rfl, rfl, rfl⟩
  trans _ _ _ h h' := ⟨h'.img.trans h.img, h'.inodes.trans h.inodes, h'.supers.trans h.supers⟩

theorem Still.siteAt (h : Still s s') (i : ℕ) : Dir.siteAt s' i = Dir.siteAt s i := by
  unfold Dir.siteAt
  rw [h.inodes]

theorem still_setDirty (b : BufRef) : Keeps Still (setDirty b) :=
  keeps_modify fun _ => ⟨rfl, rfl, rfl⟩

theorem still_addRef (b : BufRef) (n : ℤ) : Keeps Still (addRef b n) :=
  keeps_modify fun _ => ⟨rfl, rfl, rfl⟩

theorem still_bwrite (b : BufRef) : Keeps Still (bwrite b) :=
  (keeps_gets _).bind fun _ => .ite (keeps_modify fun _ => ⟨rfl, rfl, rfl⟩) (keeps_pure _)

theorem still_brelse (b : BufRef) : Keeps Still (brelse (some b)) :=
  (still_bwrite b).bind fun _ => (still_addRef b _).bind fun _ => (keeps_gets _).bind fun _ =>
    keeps_check _

theorem wp_bread {Q : BufRef → Fs → Prop} {dev : ℤ} (hQ : ∀ s', Still s s' → Q ⟨dev, block⟩ s') :
    wp good (bread dev block) Q s := by
  unfold bread
  rw [wp_bind]
  exact (still_addRef _ _).wp fun _ s₁ h₁ => (wp_pure _).mpr (hQ s₁ h₁)

/-! ## `bmap` without a free zone -/

/-- All bits of the zone bitmap are set, and the code looks for more blocks than there are. -/
structure Exhausted (dev : ℤ) (d : SuperDesc) (k : ℕ) (zb : ℕ → BufRef) (s : Fs) : Prop
    extends ZoneMap dev d k zb s where
  few : k < ZMAP_NR
  full : ∀ z, d.firstdatazone - 1 ≤ z → z < d.firstdatazone - 1 + k * BLOCK_BITS →
    z ∈ zoneBits d k zb s

theorem Exhausted.run_balloc (h : Exhausted dev d k zb s) :
    (balloc dev).run s = .error .assertion :=
  run_balloc_of_full h.toZoneMap h.few h.full

theorem Exhausted.still (h : Exhausted dev d k zb s) (hstill : Still s s') :
    Exhausted dev d k zb s' := by
  have hdata : ∀ b, s'.data b = s.data b := fun b => by
    unfold Fs.data
    rw [hstill.img]
  refine ⟨zoneMap_congr h.toZoneMap hstill.supers fun _ _ => hdata _, h.few, ?_⟩
  rw [zoneBits_congr fun _ _ => hdata _]
  exact h.full

theorem Exhausted.run_arrayZone (h : Exhausted dev d k zb s) (hzero : arrayAt s b base index = 0) :
    (arrayZone dev true level b base index).run s = .error .assertion := by
  unfold arrayZone
  rw [run_bind _ (show (getU16 b base index).run s = .ok (0, s, []) from by rw [← hzero]; rfl),
    if_pos ⟨rfl, rfl⟩]
  exact run_bind_error _ h.run_balloc

/-- A direct block without a zone fails the assertion of `balloc`. -/
theorem Exhausted.run_bmap (h : Exhausted dev d k zb s) (hdev : (siteAt s i).dev = dev)
    (hlow : block < DIRECT_BLOCK) (hzero : fileZone s (siteAt s i) block = 0) :
    (bmap i block true).run s = .error .assertion := by
  have hblock : block < TOTAL_BLOCK := hlow.trans (by decide)
  unfold fileZone at hzero
  rw [if_pos hlow, zoneVia_zero] at hzero
  unfold bmap addRef
  rw [run_bind _ (run_check_pos hblock s), run_bind _ (run_gets _ s), run_bind _ (run_modify _ s)]
  dsimp only
  rw [if_pos hlow, show (s.inodes i).dev = dev from hdev]
  have hstill : Still s { s with refs := fun c =>
    if c = (s.inodes i).buf then s.refs c + 1 else s.refs c } := ⟨rfl, rfl, rfl⟩
  exact (h.still hstill).run_arrayZone hzero

/-- Only numbers that are there are found. -/
theorem wp_arrayZone_exhausted {Q : ℕ → Fs → Prop} (h : Exhausted dev d k zb s)
    (hQ : ∀ s', Still s s' → arrayAt s b base index ≠ 0 → Q (arrayAt s b base index) s') :
    wp good (arrayZone dev true level b base index) Q s := by
  unfold arrayZone getU16
  rw [wp_bind, wp_gets]
  refine (wp_ite _ _ _).mpr ⟨fun _ => ?_, fun hset => ?_⟩
  · rw [wp_bind]
    intro zone s₁ l hrun
    cases h.run_balloc.symm.trans hrun
  · rw [wp_bind]
    refine (still_brelse b).wp fun _ s₁ h₁ => (wp_gets _).mpr ?_
    have hne : arrayAt s b base index ≠ 0 := fun hzero => hset ⟨hzero, rfl⟩
    have hsame : arrayAt s₁ b base index = arrayAt s b base index := by
      unfold arrayAt Fs.data
      rw [h₁.img]
    change Q (arrayAt s₁ b base index) s₁
    rw [hsame]
    exact hQ s₁ h₁ hne

theorem wp_reckon_exhausted {Q : ℕ → Fs → Prop} (h : Exhausted dev d k zb s)
    (hQ : ∀ s', Still s s' → zoneVia s dev level b base index block divider ≠ 0 →
      Q (zoneVia s dev level b base index block divider) s') :
    wp good (reckon dev true level b base index block divider) Q s := by
  induction level generalizing b base index block divider s with
  | zero => exact wp_arrayZone_exhausted h hQ
  | succ level ih =>
      unfold reckon
      unfold zoneVia at hQ
      rw [wp_bind]
      refine wp_arrayZone_exhausted h fun s₁ h₁ hne => ?_
      rw [if_neg hne, wp_bind]
      refine wp_bread fun s₂ h₂ => ih ((h.still h₁).still h₂) fun s₃ h₃ hzone => ?_
      rw [if_neg hne] at hQ
      rw [zoneVia_congr (h₂.img.trans h₁.img)] at hzone ⊢
      exact hQ s₃ (Trans.trans (Trans.trans h₁ h₂) h₃) hzone

/-- `bmap` does not create anything, and does not return for a block without a zone. -/
theorem wp_bmap_exhausted {Q : ℕ → Fs → Prop} (h : Exhausted dev d k zb s)
    (hdev : (siteAt s i).dev = dev) (hQ : ∀ s', Still s s' → block < TOTAL_BLOCK →
      fileZone s (siteAt s i) block ≠ 0 → Q (fileZone s (siteAt s i) block) s') :
    wp good (bmap i block true) Q s := by
  unfold bmap
  simp only [wp_bind, wp_check, wp_gets]
  intro hblock
  refine (still_addRef _ _).wp fun _ s₁ h₁ => ?_
  have hreckon : ∀ level index block' divider,
      fileZone s (siteAt s i) block = zoneVia s dev level (siteAt s i).buf (zonesAt (siteAt s i))
        index block' divider →
      wp good (reckon (s.inodes i).dev true level (s.inodes i).buf (zonesAt (siteAt s i)) index
        block' divider) Q s₁ := by
    intro level index block' divider heq
    rw [show (s.inodes i).dev = dev from hdev]
    refine wp_reckon_exhausted (h.still h₁) fun s₂ h₂ hne => ?_
    change zoneVia s₁ dev level (siteAt s i).buf _ _ _ _ ≠ 0 at hne
    change Q (zoneVia s₁ dev level (siteAt s i).buf _ _ _ _) s₂
    rw [zoneVia_congr h₁.img, ← heq] at hne ⊢
    exact hQ s₂ (Trans.trans h₁ h₂) hblock hne
  have hfile := fileZone_beginning s (siteAt s i) block
  unfold beginning at hfile
  rw [hdev] at hfile
  simp only [wp_ite, wp_bind, wp_check]
  refine ⟨fun hlow => hreckon _ _ _ _ ?_, fun hlow => ⟨fun hmid => hreckon _ _ _ _ ?_,
    fun hmid _ => hreckon _ _ _ _ ?_⟩⟩
  · rwa [if_pos hlow] at hfile
  · rwa [if_neg hlow, if_pos hmid] at hfile
  · rwa [if_neg hlow, if_neg hmid] at hfile

/-! ## `inode_write` without a free zone -/

/-- The same zones are in use, and the trees are the same. -/
structure Kept (dev : ℤ) (d : SuperDesc) (k : ℕ) (zb : ℕ → BufRef) (vs : Set Site) (s t : Fs) :
    Prop where
  volume : Volume dev d k zb vs t
  bits : zoneBits d k zb t = zoneBits d k zb s
  tree : ∀ v ∈ vs, SameTree s t v
  inodes : t.inodes = s.inodes

theorem Kept.trans (h : Kept dev d k zb vs s t) (h' : Kept dev d k zb vs t t') :
    Kept dev d k zb vs s t' where
  volume := h'.volume
  bits := h'.bits.trans h.bits
  tree v hv := by
    refine ⟨fun j hj => ((h'.tree v hv).top j hj).trans ((h.tree v hv).top j hj),
      fun n p hp hne j hj => ?_⟩
    have hsame := (h.tree v hv).ptr hp
    have htable := (h'.tree v hv).table n p hp (by rwa [hsame]) j hj
    rw [hsame] at htable
    exact htable.trans ((h.tree v hv).table n p hp hne j hj)
  inodes := h'.inodes.trans h.inodes

theorem Kept.siteAt (h : Kept dev d k zb vs s t) (i : ℕ) : Dir.siteAt t i = Dir.siteAt s i := by
  unfold Dir.siteAt
  rw [h.inodes]

theorem Kept.exhausted (h : Kept dev d k zb vs s t) (hs : Exhausted dev d k zb s) :
    Exhausted dev d k zb t :=
  ⟨h.volume.map, hs.few, h.bits ▸ hs.full⟩

theorem Kept.fileZone (h : Kept dev d k zb vs s t) (hv : v ∈ vs) (hblock : block < TOTAL_BLOCK) :
    Dir.fileZone t v block = Dir.fileZone s v block := by
  rw [fileZone_eq hblock, fileZone_eq hblock, (h.tree v hv).ptr (blockPlace_level hblock)]

theorem Volume.kept (h : Volume dev d k zb vs s) (hstill : Still s t) :
    Kept dev d k zb vs s t := by
  have hdata : ∀ b, t.data b = s.data b := fun b => by
    unfold Fs.data
    rw [hstill.img]
  refine ⟨h.img hstill.supers hstill.img, zoneBits_congr fun _ _ => hdata _, fun v _ => ?_,
    hstill.inodes⟩
  exact .of_data (fun o _ _ => by rw [hdata]) fun _ _ _ _ => hdata _

/-- A new size is not in the way of the numbers that follow it in the descriptor. -/
theorem wp_setSize {Q : Unit → Fs → Prop} {n : ℕ} (h : Volume dev d k zb vs s)
    (hv : siteAt s i ∈ vs) (hQ : ∀ t, Kept dev d k zb vs s t → Q () t) :
    wp good (setField i .size n) Q s := by
  refine (wp_modify _).mpr (hQ _ ?_)
  generalize ht : s.setImg _ _ = t
  have hdata : ∀ b, t.data b = if b = (siteAt s i).buf then
      (s.data b).write 4 (DESC_SIZE * (siteAt s i).slot + 4) n else s.data b := by
    intro b
    rw [← ht, Fs.data_setImg]
    change (if b = (siteAt s i).buf then (s.data (siteAt s i).buf).write 4 _ n else s.data b) = _
    split
    · rename_i hb
      rw [hb]
      rfl
    · rfl
  have hother : ∀ b, b ≠ (siteAt s i).buf → t.data b = s.data b := fun b hb => by
    rw [hdata, if_neg hb]
  have htree : ∀ v ∈ vs, SameTree s t v := fun v hw => by
    refine .of_data (fun o ho ho' => ?_) fun n p hp hne =>
      hother _ (h.ptr_ne hw hp hne (h.home _ hv))
    rw [hdata]
    split
    · refine Bytes.write_apply_of_lt ?_
      change 32 * v.slot + 14 ≤ o at ho
      change o < 32 * v.slot + 14 + 18 at ho'
      change o < 32 * (siteAt s i).slot + 4 ∨ 32 * (siteAt s i).slot + 4 + 4 ≤ o
      omega
    · rfl
  have hbits : zoneBits d k zb t = zoneBits d k zb s :=
    zoneBits_congr fun j hj => hother _ (h.offMap _ hv j hj).symm
  have hhead : ∀ j, (s.supers j).dev = dev → t.data (s.supers j).buf = s.data (s.supers j).buf :=
    fun j hj => hother _ (h.offHead _ hv j hj).symm
  have hsupers : t.supers = s.supers := by
    rw [← ht]
    rfl
  refine ⟨h.congr hsupers hhead hbits htree, hbits, htree, ?_⟩
  rw [← ht]
  rfl

/-- Data are stored in a block of a file. -/
theorem wp_storeBlock {Q : Unit → Fs → Prop} {f : Bytes → Bytes} (h : Volume dev d k zb vs s)
    (hv : v ∈ vs) (hblock : block < TOTAL_BLOCK) (hzone : Dir.fileZone s v block ≠ 0)
    (hQ : ∀ t, Kept dev d k zb vs s t → Q () t) :
    wp good (setData ⟨v.dev, Dir.fileZone s v block⟩ f) Q s := by
  refine (wp_modify _).mpr (hQ _ ?_)
  generalize ht : s.setImg _ _ = t
  have hin : Within v s t := fun b hb => by
    rw [← ht, Fs.data_setImg, if_neg (hb block hblock hzone)]
  have hsupers : t.supers = s.supers := by
    rw [← ht]
    rfl
  refine ⟨hin.volume h hv hsupers, hin.bits h hv, fun w hw => hin.tree h hv hw, ?_⟩
  rw [← ht]
  rfl

/-- One round of `inode_write` comes to its end in a block that has a zone only, and keeps the
volume as it is. -/
theorem wp_writeLoop_exhausted {Q : ℤ → Fs → Prop} {data : ℕ → UInt8} {fuel o left done p : ℕ}
    (h : Volume dev d k zb vs s) (hfull : Exhausted dev d k zb s) (hv : siteAt s i ∈ vs)
    (hlow : o ≤ p) (hhigh : p < o + left) (hfuel : left ≤ fuel)
    (hblock : p / BLOCK_SIZE < TOTAL_BLOCK)
    (hnone : Dir.fileZone s (siteAt s i) (p / BLOCK_SIZE) = 0) :
    wp good (writeLoop i data fuel o left done) Q s := by
  have hsize : BLOCK_SIZE = 1024 := rfl
  induction fuel generalizing o left done s with
  | zero => omega
  | succ fuel ih =>
      have hleft : left ≠ 0 := by omega
      have hle : o / BLOCK_SIZE ≤ p / BLOCK_SIZE := Nat.div_le_div_right hlow
      have hblock' : o / BLOCK_SIZE < TOTAL_BLOCK := hle.trans_lt hblock
      obtain ⟨hinside, hchars, hpos⟩ := round_bounds o hleft
      unfold writeLoop
      rw [if_neg hleft, blockOf_cast hblock', startOf_cast, wp_bind]
      refine wp_bmap_exhausted hfull (h.onDev _ hv) fun s₁ h₁ _ hzone => ?_
      have hne : o / BLOCK_SIZE ≠ p / BLOCK_SIZE := fun heq => hzone (heq ▸ hnone)
      simp only [wp_bind, wp_check, wp_gets]
      intro _
      refine wp_bread fun s₂ h₂ => (still_setDirty _).wp fun _ s₃ h₃ => ?_
      have hkept₃ := h.kept (Trans.trans (Trans.trans h₁ h₂) h₃)
      have hdev : (s₁.inodes i).dev = (siteAt s i).dev := congrArg Site.dev (h₁.siteAt i)
      rw [hdev]
      -- the size may grow before the data are stored
      have hrest : ∀ s₄, Kept dev d k zb vs s s₄ → wp good (do
          if BLOCK_SIZE < o % BLOCK_SIZE + charsOf (o % BLOCK_SIZE) left then fault .wild
          setData ⟨(siteAt s i).dev, Dir.fileZone s (siteAt s i) (o / BLOCK_SIZE)⟩ fun m =>
            m.copy (o % BLOCK_SIZE) (charsOf (o % BLOCK_SIZE) left) fun n => data (done + n)
          brelse (some ⟨(siteAt s i).dev, Dir.fileZone s (siteAt s i) (o / BLOCK_SIZE)⟩)
          writeLoop i data fuel (o + charsOf (o % BLOCK_SIZE) left)
            (left - charsOf (o % BLOCK_SIZE) left)
            (done + charsOf (o % BLOCK_SIZE) left)) Q s₄ := by
        intro s₄ h₄
        rw [if_neg (not_lt.mpr hinside), wp_bind, ← h₄.fileZone hv hblock']
        refine wp_storeBlock h₄.volume hv hblock' ?_ fun s₅ h₅ => ?_
        · rwa [h₄.fileZone hv hblock']
        rw [wp_bind]
        refine (still_brelse _).wp fun _ s₆ h₆ => ?_
        have hkept := (h₄.trans h₅).trans (h₅.volume.kept h₆)
        have hsite := hkept.siteAt i
        have hend : o + charsOf (o % BLOCK_SIZE) left ≤ p := by
          rw [hsize] at hle hne hinside ⊢
          omega
        have hrun := @ih s₆ (o + charsOf (o % BLOCK_SIZE) left)
          (left - charsOf (o % BLOCK_SIZE) left) (done + charsOf (o % BLOCK_SIZE) left)
          hkept.volume (hkept.exhausted hfull) (by rwa [hsite]) hend (by omega) (by omega) (by
            rw [hsite, hkept.fileZone hv hblock]
            exact hnone)
        rw [Nat.cast_add] at hrun
        exact hrun
      refine (wp_gets _).mpr ((wp_ite _ _ _).mpr ⟨fun _ => ?_, fun _ => hrest s₃ hkept₃⟩)
      rw [wp_bind]
      refine wp_setSize hkept₃.volume (by rwa [hkept₃.siteAt]) fun s₄ h₄ => ?_
      unfold dirtyInode
      simp only [wp_bind, wp_gets]
      refine (still_setDirty _).wp fun _ s₅ h₅ => ?_
      exact hrest s₅ ((hkept₃.trans h₄).trans (h₄.volume.kept h₅))

/-- A write that comes to a block without a zone does not return. -/
theorem run_inodeWrite_exhausted {data : ℕ → UInt8} {offset len p : ℕ}
    (h : Volume dev d k zb vs s) (hfull : Exhausted dev d k zb s) (hv : siteAt s i ∈ vs)
    (hlow : offset ≤ p) (hhigh : p < offset + len) (hblock : p / BLOCK_SIZE < TOTAL_BLOCK)
    (hnone : Dir.fileZone s (siteAt s i) (p / BLOCK_SIZE) = 0) :
    ∃ e, (inodeWrite i data len offset).run s = .error e := by
  have hwp : wp (fun _ => True) (inodeWrite i data len offset) (fun _ _ => False) s := by
    unfold inodeWrite getField
    simp only [wp_bind, wp_gets, wp_check]
    exact fun _ => wp_writeLoop_exhausted h hfull hv hlow hhigh le_rfl hblock hnone
  cases hrun : (inodeWrite i data len offset).run s with
  | error e => exact ⟨e, rfl⟩
  | ok r =>
      obtain ⟨n, s', l⟩ := r
      exact (hwp n s' l hrun fun _ _ => trivial).elim

end Ylos.Index
