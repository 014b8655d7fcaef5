import Ylos.Model.Fs.File
import Ylos.Verification.Index.Mapping

/-! # Reading a file, and overwriting it in place -/

namespace Ylos.Index

open Exec Dir Allocator

variable {dev : ℤ} {d : SuperDesc} {k : ℕ} {zb : ℕ → BufRef} {vs : Set Site} {s s' t t' : Fs}
  {v : Site} {i block size : ℕ} {bufs : List BufRef}

/-- The byte at `o` of a file. -/
def fileByte (s : Fs) (v : Site) (o : ℕ) : UInt8 :=
  s.data ⟨v.dev, fileZone s v (o / BLOCK_SIZE)⟩ (o % BLOCK_SIZE)

/-- Every block of the file that begins before `size` has a zone. -/
def Mapped (s : Fs) (v : Site) (size : ℕ) : Prop :=
  ∀ block, block * BLOCK_SIZE < size → block < TOTAL_BLOCK ∧ fileZone s v block ≠ 0

theorem Mapped.at {o : ℕ} (h : Mapped s v size) (ho : o < size) :
    o / BLOCK_SIZE < TOTAL_BLOCK ∧ fileZone s v (o / BLOCK_SIZE) ≠ 0 :=
  h _ ((Nat.div_mul_le_self o BLOCK_SIZE).trans_lt ho)

/-- A file whose blocks are mapped has at most `TOTAL_BLOCK` of them. -/
theorem Mapped.size_le (h : Mapped s v size) : size ≤ TOTAL_BLOCK * BLOCK_SIZE := by
  by_contra hlarge
  exact absurd (h TOTAL_BLOCK (not_le.mp hlarge)).1 (lt_irrefl _)

theorem fileByte_congr (h : s'.img = s.img) (v : Site) (o : ℕ) :
    fileByte s' v o = fileByte s v o := by
  unfold fileByte Fs.data
  rw [fileZone_congr h, h]

/-! ## Offsets that are not negative -/

theorem blockOf_cast {o : ℕ} (h : o / BLOCK_SIZE < TOTAL_BLOCK) : blockOf o = o / BLOCK_SIZE := by
  have htotal : TOTAL_BLOCK = 262663 := rfl
  unfold blockOf
  rw [← Int.ofNat_tdiv, Int.emod_eq_of_lt (Int.natCast_nonneg _) (by omega), Int.toNat_natCast]

theorem startOf_cast (o : ℕ) : startOf o = o % BLOCK_SIZE := by
  have hsize : BLOCK_SIZE = 1024 := rfl
  have hmod := Nat.mod_lt o (show 0 < BLOCK_SIZE by decide)
  unfold startOf
  rw [← Int.ofNat_tmod, Int.emod_eq_of_lt (Int.natCast_nonneg _) (by omega), Int.toNat_natCast]

theorem offU32_cast {o : ℕ} (h : o < 2 ^ 32) : offU32 o = o := by
  unfold offU32
  omega

theorem charsOf_eq {start : ℕ} (h : start < BLOCK_SIZE) (left : ℕ) :
    charsOf start left = min (BLOCK_SIZE - start) left := by
  have hsize : BLOCK_SIZE = 1024 := rfl
  unfold charsOf u32
  congr 1
  omega

/-- A round stays in the block where it begins, and comes at least one byte further. -/
theorem round_bounds (o : ℕ) {left : ℕ} (h : left ≠ 0) :
    o % BLOCK_SIZE + charsOf (o % BLOCK_SIZE) left ≤ BLOCK_SIZE ∧
      charsOf (o % BLOCK_SIZE) left ≤ left ∧ 1 ≤ charsOf (o % BLOCK_SIZE) left := by
  have hmod := Nat.mod_lt o (show 0 < BLOCK_SIZE by decide)
  rw [charsOf_eq hmod]
  omega

/-! ## `inode_read` -/

/-- `len` bytes of a file from `offset` on. -/
def bytesFrom (s : Fs) (v : Site) (offset len : ℕ) : List UInt8 :=
  (List.range len).map fun n => fileByte s v (offset + n)

theorem bytesFrom_add (s : Fs) (v : Site) (offset len len' : ℕ) :
    bytesFrom s v offset (len + len') =
      bytesFrom s v offset len ++ bytesFrom s v (offset + len) len' := by
  unfold bytesFrom
  rw [List.range_add, List.map_append, List.map_map]
  refine congrArg _ (List.map_congr_left fun n _ => ?_)
  change fileByte s v (offset + (len + n)) = _
  rw [Nat.add_assoc]

theorem bytesFrom_congr (h : s'.img = s.img) (v : Site) (offset len : ℕ) :
    bytesFrom s' v offset len = bytesFrom s v offset len := by
  unfold bytesFrom
  simp only [fileByte_congr h]

/-- The bytes of a round lie side by side in one block. -/
theorem bytesFrom_block {o len : ℕ} (h : o % BLOCK_SIZE + len ≤ BLOCK_SIZE) :
    bytesFrom s v o len = (List.range len).map fun n =>
      s.data ⟨v.dev, fileZone s v (o / BLOCK_SIZE)⟩ (o % BLOCK_SIZE + n) := by
  have hsize : BLOCK_SIZE = 1024 := rfl
  refine List.map_congr_left fun n hn => ?_
  have hlt := List.mem_range.mp hn
  have hdiv : (o + n) / BLOCK_SIZE = o / BLOCK_SIZE := by
    rw [hsize] at h ⊢
    omega
  have hmod : (o + n) % BLOCK_SIZE = o % BLOCK_SIZE + n := by
    rw [hsize] at h ⊢
    omega
  unfold fileByte
  rw [hdiv, hmod]

theorem Mapped.congr (h : Mapped s v size) (himg : s'.img = s.img) : Mapped s' v size := by
  intro block hblock
  rw [fileZone_congr himg]
  exact h block hblock

theorem answers_readLoop {fuel left o : ℕ} {l : List UInt8}
    (hmap : Mapped s (siteAt s i) size) (hsize : o + left ≤ size) (hfuel : left ≤ fuel)
    (howned : Owned bufs s) :
    Answers bufs (readLoop i fuel o left l) s bufs
      (((o + left : ℕ) : ℤ), l ++ bytesFrom s (siteAt s i) o left) := by
  induction fuel generalizing o left l s with
  | zero =>
      obtain rfl : left = 0 := Nat.le_zero.mp hfuel
      unfold readLoop bytesFrom
      rw [List.range_zero, List.map_nil, List.append_nil]
      exact answers_pure _
  | succ fuel ih =>
      unfold readLoop
      by_cases hleft : left = 0
      · subst hleft
        rw [if_pos rfl]
        unfold bytesFrom
        rw [List.range_zero, List.map_nil, List.append_nil]
        exact answers_pure _
      · rw [if_neg hleft]
        obtain ⟨hblock, hzone⟩ := hmap.at (show o < size by omega)
        obtain ⟨hinside, hchars, hpos⟩ := round_bounds o hleft
        rw [blockOf_cast hblock, startOf_cast]
        refine (answers_bmap hblock howned).bind fun s₁ h₁ => ?_
        refine (answers_check hzone).bind fun s₂ h₂ => (answers_gets _).bind fun s₃ h₃ => ?_
        refine (answers_bread _ _).bind fun s₄ h₄ => ?_
        have hreads := ((h₁.trans h₂).trans h₃).trans h₄
        rw [if_neg (not_lt.mpr hinside)]
        refine (answers_gets _).bind fun s₅ h₅ => ?_
        have howned₅ := (howned.reads hreads).reads h₅
        refine (answers_brelse howned₅).bind fun s₆ h₆ => ?_
        have hall := (hreads.trans h₅).trans h₆
        have hdev : (s₂.inodes i).dev = (siteAt s i).dev := by
          rw [(h₁.trans h₂).inodes]
          rfl
        have hround : ((List.range (charsOf (o % BLOCK_SIZE) left)).map fun n =>
            s₄.data ⟨(s₂.inodes i).dev, fileZone s (siteAt s i) (o / BLOCK_SIZE)⟩
              (o % BLOCK_SIZE + n)) =
            bytesFrom s (siteAt s i) o (charsOf (o % BLOCK_SIZE) left) := by
          rw [bytesFrom_block hinside, hreads.data, hdev]
        have hsame : o + charsOf (o % BLOCK_SIZE) left + (left - charsOf (o % BLOCK_SIZE) left) =
            o + left := by omega
        have hfuel' : left - charsOf (o % BLOCK_SIZE) left ≤ fuel := by omega
        have hrest := ih (s := s₆) (o := o + charsOf (o % BLOCK_SIZE) left)
          (l := l ++ bytesFrom s (siteAt s i) o (charsOf (o % BLOCK_SIZE) left))
          (by rw [hall.siteAt]; exact hmap.congr hall.img) (hsame.trans_le hsize) hfuel'
          (howned.reads hall)
        rw [hall.siteAt, bytesFrom_congr hall.img, List.append_assoc, ← bytesFrom_add, hsame,
          Nat.add_sub_cancel' hchars, ← hround, Nat.cast_add] at hrest
        exact hrest

/-- What `inode_read` answers for a file with these bytes: `EOF` from the size on, else the bytes up
to the size. -/
def readAnswer (size : ℕ) (byte : ℕ → UInt8) (len offset : ℕ) : Option (ℕ × List UInt8) :=
  if size ≤ offset then none
  else some (min len (size - offset), (List.range (min len (size - offset))).map fun n =>
    byte (offset + n))

theorem desc_lt (s : Fs) (v : Site) : descOf s v .size < 2 ^ 32 := Bytes.read_lt 4 _ _

theorem inodeRead_answers {len : ℕ} {offset : ℤ}
    (hmode : isReg (s.desc i .mode) ∨ isDir (s.desc i .mode))
    (hmap : Mapped s (siteAt s i) (descOf s (siteAt s i) .size)) (howned : Owned [] s)
    (hlow : -2 ^ 31 ≤ offset) (hhigh : offset < 2 ^ 31) :
    Returns (inodeRead i len offset)
      (fun r s' => s'.img = s.img ∧ r = readAnswer (descOf s (siteAt s i) .size)
        (fileByte s (siteAt s i)) len (offU32 offset)) s := by
  have htotal : TOTAL_BLOCK * BLOCK_SIZE = 268966912 := rfl
  have hle := hmap.size_le
  have hlt := desc_lt s (siteAt s i)
  unfold inodeRead readAnswer
  refine returns_bind (returns_gets (returns_bind (returns_check hmode (returns_bind (returns_gets ?_)))))
  change Returns (if descOf s (siteAt s i) .size ≤ offU32 offset then _ else _) _ s
  by_cases heof : descOf s (siteAt s i) .size ≤ offU32 offset
  · rw [if_pos heof, if_pos heof]
    exact returns_pure ⟨rfl, rfl⟩
  · rw [if_neg heof, if_neg heof]
    -- below the size the offset is not negative
    obtain ⟨o, rfl⟩ : ∃ o : ℕ, offset = o := Int.eq_ofNat_of_zero_le (by unfold offU32 at heof; omega)
    have ho : offU32 (o : ℤ) = o := offU32_cast (by omega)
    rw [ho] at heof ⊢
    have hleft : u32 (descOf s (siteAt s i) .size + 2 ^ 32 - o) = descOf s (siteAt s i) .size - o := by
      unfold u32
      omega
    change Returns (do
      let read ← readLoop i (min len (u32 (descOf s (siteAt s i) .size + 2 ^ 32 - o))) o
        (min len (u32 (descOf s (siteAt s i) .size + 2 ^ 32 - o))) []
      setAtime i
      return some (offU32 (read.1 - (o : ℤ)), read.2)) _ s
    rw [hleft]
    obtain ⟨s₁, hrun, hreads⟩ := answers_readLoop (i := i) (o := o) (l := []) hmap
      (show o + min len (descOf s (siteAt s i) .size - o) ≤ _ by omega) le_rfl howned
    refine returns_bind ⟨_, s₁, [], hrun, ?_⟩
    refine returns_bind (returns_bind (returns_gets (returns_modify (returns_pure ⟨hreads.img, ?_⟩))))
    rw [Nat.cast_add, add_sub_cancel_left, offU32_cast (by omega), List.nil_append]
    rfl

/-! ## Finding the zones again -/

theorem answers_reckon_set {level base index divider : ℕ} {b : BufRef}
    (howned : Owned (b :: bufs) s) (hne : zoneVia s dev level b base index block divider ≠ 0) :
    Answers (b :: bufs) (reckon dev true level b base index block divider) s bufs
      (zoneVia s dev level b base index block divider) := by
  induction level generalizing b base index block divider s with
  | zero => exact answers_arrayZone_set howned hne
  | succ level ih =>
      unfold reckon
      unfold zoneVia at hne ⊢
      by_cases hzero : arrayAt s b base index = 0
      · rw [if_pos hzero] at hne
        exact absurd rfl hne
      · rw [if_neg hzero] at hne ⊢
        refine (answers_arrayZone_set howned hzero).bind fun s₁ h₁ => ?_
        rw [if_neg hzero]
        refine (answers_bread dev _).bind fun s₂ h₂ => ?_
        have himg := (h₁.trans h₂).img
        rw [← zoneVia_congr himg] at hne ⊢
        exact ih ((howned.reads h₁).reads h₂) hne

theorem fileZone_beginning (s : Fs) (v : Site) (block : ℕ) : fileZone s v block =
    zoneVia s v.dev (beginning block).1 v.buf (zonesAt v) (beginning block).2.1
      (beginning block).2.2.1 (beginning block).2.2.2 := by
  unfold fileZone beginning
  dsimp only
  split_ifs <;> rfl

/-- `bmap` creates nothing for a block that is mapped. -/
theorem does_bmap_mapped (hblock : block < TOTAL_BLOCK) (hzone : fileZone s (siteAt s i) block ≠ 0)
    (howned : Owned bufs s) : Does bufs (bmap i block true) s bufs
      (fun z s' => z = fileZone s (siteAt s i) block ∧ s'.img = s.img) := by
  refine does_begin hblock fun s₁ h₁ => ?_
  rw [fileZone_beginning, ← zoneVia_congr h₁.img] at hzone ⊢
  exact (answers_reckon_set (howned.reads h₁) hzone).does fun s₂ h₂ =>
    ⟨rfl, h₂.img.trans h₁.img⟩

/-! ## `inode_write` -/

/-- No block has changed but those of the file. -/
def Within (v : Site) (s t : Fs) : Prop :=
  ∀ b, (∀ block < TOTAL_BLOCK, fileZone s v block ≠ 0 → b ≠ ⟨v.dev, fileZone s v block⟩) →
    t.data b = s.data b

section Within

variable (h : Volume dev d k zb vs s) (hv : v ∈ vs) (hin : Within v s t)

include h hv hin

theorem Within.early {b : BufRef} (hb : Early dev d b) : t.data b = s.data b :=
  hin b fun block hblock hzone => by
    rw [fileZone_eq hblock] at hzone ⊢
    exact (h.ptr_ne hv (blockPlace_level hblock) hzone hb).symm

/-- Only data zones of the file itself are stored to. -/
theorem Within.apart {w : Site} {n : ℕ} {p : Place} (hw : w ∈ vs) (hp : Level n p)
    (hne : ptr s w p ≠ 0) (hdiff : w ≠ v ∨ n ≠ 0) :
    t.data ⟨w.dev, ptr s w p⟩ = s.data ⟨w.dev, ptr s w p⟩ := by
  refine hin _ fun block hblock hzone heq => ?_
  rw [fileZone_eq hblock] at hzone heq
  obtain ⟨hsite, hsame⟩ := h.distinct w hw v hv _ _ _ _ hp (blockPlace_level hblock) hne
    (BufRef.mk.inj heq).2
  rcases hdiff with hdiff | hdiff
  · exact hdiff hsite
  · exact hdiff ((hsame ▸ hp).unique (blockPlace_level hblock))

theorem Within.tree {w : Site} (hw : w ∈ vs) : SameTree s t w :=
  .of_data (fun o _ _ => by rw [hin.early h hv (h.home w hw)]) fun n p hp hne =>
    hin.apart h hv hw hp hne (.inr (Nat.succ_ne_zero n))

theorem Within.bits : zoneBits d k zb t = zoneBits d k zb s :=
  zoneBits_congr fun i hi => hin.early h hv (h.maps i hi)

theorem Within.volume (hsupers : t.supers = s.supers) : Volume dev d k zb vs t :=
  h.congr hsupers (fun i hi => hin.early h hv (h.head i hi).1) (hin.bits h hv) fun _ hw =>
    hin.tree h hv hw

end Within

/-- The bytes `data` have been stored in a file from `offset` on, `done` of them, and nothing else
has changed since `s`. -/
structure Overlaid (data : ℕ → UInt8) (offset done : ℕ) (v : Site) (s t : Fs) : Prop where
  frame : ∀ b, (∀ block < TOTAL_BLOCK, fileZone s v block ≠ 0 → b ≠ ⟨v.dev, fileZone s v block⟩) →
    t.data b = s.data b
  bytes : ∀ block < TOTAL_BLOCK, fileZone s v block ≠ 0 → ∀ o < BLOCK_SIZE,
    t.data ⟨v.dev, fileZone s v block⟩ o =
      if offset ≤ block * BLOCK_SIZE + o ∧ block * BLOCK_SIZE + o < offset + done
      then data (block * BLOCK_SIZE + o - offset) else s.data ⟨v.dev, fileZone s v block⟩ o

theorem Overlaid.within {data : ℕ → UInt8} {offset done : ℕ} (h : Overlaid data offset done v s t) :
    Within v s t := h.frame

section Overlaid

variable {data : ℕ → UInt8} {offset done : ℕ} (h : Volume dev d k zb vs s) (hv : v ∈ vs)
  (hover : Overlaid data offset done v s t)

include h hv hover

theorem Overlaid.zone {w : Site} (hw : w ∈ vs) (hblock : block < TOTAL_BLOCK) :
    fileZone t w block = fileZone s w block := by
  rw [fileZone_eq hblock, fileZone_eq hblock, (hover.within.tree h hv hw).ptr (blockPlace_level hblock)]

theorem Overlaid.descSize : descOf t v .size = descOf s v .size := by
  unfold descOf
  rw [hover.within.early h hv (h.home v hv)]

/-- One round: `chars` bytes more, in one block. -/
theorem Overlaid.store {chars : ℕ} (hblock : (offset + done) / BLOCK_SIZE < TOTAL_BLOCK)
    (hzone : fileZone s v ((offset + done) / BLOCK_SIZE) ≠ 0)
    (hinside : (offset + done) % BLOCK_SIZE + chars ≤ BLOCK_SIZE)
    (hs : Stored t ⟨v.dev, fileZone s v ((offset + done) / BLOCK_SIZE)⟩
      ((t.data ⟨v.dev, fileZone s v ((offset + done) / BLOCK_SIZE)⟩).copy
        ((offset + done) % BLOCK_SIZE) chars fun n => data (done + n)) t') :
    Overlaid data offset (done + chars) v s t' where
  frame b hb := by
    rw [hs.data, if_neg (hb _ hblock hzone), hover.frame b hb]
  bytes block hblock' hzone' o ho := by
    have hsize : BLOCK_SIZE = 1024 := rfl
    have hbefore := hover.bytes block hblock' hzone' o ho
    rw [hs.data]
    by_cases hsame : block = (offset + done) / BLOCK_SIZE
    · subst hsame
      rw [if_pos rfl]
      unfold Bytes.copy
      by_cases hin : (offset + done) % BLOCK_SIZE ≤ o ∧ o < (offset + done) % BLOCK_SIZE + chars
      · rw [if_pos hin, if_pos (by rw [hsize] at hin ⊢; omega)]
        change data (done + (o - (offset + done) % BLOCK_SIZE)) = _
        congr 1
        rw [hsize] at hin ⊢
        omega
      · rw [if_neg hin, hbefore]
        refine if_congr ?_ rfl rfl
        rw [hsize] at hin ⊢
        omega
    · rw [if_neg, hbefore]
      · refine if_congr ?_ rfl rfl
        rw [hsize] at hsame hinside ho ⊢
        omega
      · intro heq
        have hptr := (BufRef.mk.inj heq).2
        rw [fileZone_eq hblock', fileZone_eq hblock] at hptr
        rw [fileZone_eq hblock'] at hzone'
        exact hsame (blockPlace_injective (h.distinct v hv v hv _ _ _ _ (blockPlace_level hblock')
          (blockPlace_level hblock) hzone' hptr).2)

end Overlaid

theorem Overlaid.img {data : ℕ → UInt8} {offset done : ℕ} (h : Overlaid data offset done v s t)
    (himg : t'.img = t.img) : Overlaid data offset done v s t' := by
  have hdata : ∀ b, t'.data b = t.data b := fun b => by
    unfold Fs.data
    rw [himg]
  exact ⟨fun b hb => (hdata b).trans (h.frame b hb), fun block hblock hzone o ho => by
    rw [hdata, h.bytes block hblock hzone o ho]⟩

theorem does_writeLoop {data : ℕ → UInt8} {fuel left offset done : ℕ}
    (h : Volume dev d k zb vs s) (hv : siteAt s i ∈ vs)
    (hmap : Mapped s (siteAt s i) (descOf s (siteAt s i) .size))
    (hsite : siteAt t i = siteAt s i) (hsupers : t.supers = s.supers)
    (hover : Overlaid data offset done (siteAt s i) s t)
    (hsize : offset + done + left ≤ descOf s (siteAt s i) .size) (hfuel : left ≤ fuel)
    (howned : Owned bufs t) :
    Does bufs (writeLoop i data fuel (offset + done : ℕ) left done) t bufs (fun stop t' =>
      stop = (offset + done + left : ℕ) ∧ Overlaid data offset (done + left) (siteAt s i) s t') := by
  induction fuel generalizing left done t with
  | zero =>
      obtain rfl : left = 0 := Nat.le_zero.mp hfuel
      exact does_pure ⟨rfl, hover⟩
  | succ fuel ih =>
      unfold writeLoop
      by_cases hleft : left = 0
      · subst hleft
        rw [if_pos rfl]
        exact does_pure ⟨rfl, hover⟩
      · rw [if_neg hleft]
        obtain ⟨hblock, hzone⟩ := hmap.at (show offset + done < _ by omega)
        obtain ⟨hinside, hchars, hpos⟩ := round_bounds (offset + done) hleft
        have hzone_t := hover.zone h hv hv hblock
        rw [blockOf_cast hblock, startOf_cast]
        have hmapped : fileZone t (siteAt t i) ((offset + done) / BLOCK_SIZE) ≠ 0 := by
          rw [hsite, hzone_t]
          exact hzone
        refine Does.bind (does_bmap_mapped hblock hmapped howned) fun z t₁ hacts₁ ⟨hz, himg₁⟩ => ?_
        subst hz
        refine Does.bind (Q := fun _ t' => t' = t₁) (does_check hmapped rfl) fun _ t₂ _ ht₂ => ?_
        subst ht₂
        refine Does.bind (Q := fun inode t' => inode = t₂.inodes i ∧ t' = t₂)
          (does_gets ⟨rfl, rfl⟩) fun inode t₃ _ ⟨hinode, ht₃⟩ => ?_
        subst hinode ht₃
        have hdev : (t₃.inodes i).dev = (siteAt s i).dev :=
          congrArg Site.dev ((hacts₁.siteAt i).trans hsite)
        rw [hdev, hsite, hzone_t]
        refine Does.bind (Q := fun b t' => b = ⟨(siteAt s i).dev, fileZone s (siteAt s i)
          ((offset + done) / BLOCK_SIZE)⟩ ∧ Reads bufs (b :: bufs) t₃ t')
          ((answers_bread _ _).does fun t' hreads => ⟨rfl, hreads⟩) fun b t₄ hacts₄ ⟨hb, hreads₄⟩ => ?_
        refine Does.bind (Q := fun _ t' => t'.img = t₄.img) (does_setDirty fun _ himg _ => himg)
          fun _ t₅ hacts₅ himg₅ => ?_
        have hover₅ := hover.img ((himg₅.trans hreads₄.img).trans himg₁)
        refine Does.bind (Q := fun size t' => size = t₅.desc i .size ∧ t' = t₅)
          (does_gets ⟨rfl, rfl⟩) fun size t₆ _ ⟨hsz, ht₆⟩ => ?_
        subst hsz ht₆
        subst hb
        have hacts₆ := (hacts₁.trans hacts₄).trans hacts₅
        have hsite₆ : siteAt t₆ i = siteAt s i := (hacts₆.siteAt i).trans hsite
        have hgrown : ¬t₆.desc i .size <
            offU32 ((offset + done : ℕ) + charsOf ((offset + done) % BLOCK_SIZE) left) := by
          change ¬descOf t₆ (siteAt t₆ i) .size < _
          have hlt := desc_lt s (siteAt s i)
          rw [hsite₆, hover₅.descSize h hv, ← Nat.cast_add, offU32_cast (by omega)]
          omega
        dsimp only
        rw [if_neg hgrown, if_neg (not_lt.mpr hinside)]
        refine Does.bind (Q := fun _ t' => Overlaid data offset
          (done + charsOf ((offset + done) % BLOCK_SIZE) left) (siteAt s i) s t')
          (does_setData fun t' hs => hover₅.store h hv hblock hzone hinside hs)
          fun _ t₇ hacts₇ hover₇ => ?_
        have howned₇ := (howned.acts hacts₆).acts hacts₇
        refine Does.bind (Q := fun _ t' => t'.img = t₇.img)
          ((answers_brelse howned₇).does fun t' hreads => hreads.img) fun _ t₈ hacts₈ himg₈ => ?_
        have hacts := (hacts₆.trans hacts₇).trans hacts₈
        have hsame : done + charsOf ((offset + done) % BLOCK_SIZE) left +
            (left - charsOf ((offset + done) % BLOCK_SIZE) left) = done + left := by omega
        have hfuel' : left - charsOf ((offset + done) % BLOCK_SIZE) left ≤ fuel := by omega
        have hrest := ih (t := t₈) ((hacts.siteAt i).trans hsite) (hacts.supers.trans hsupers)
          (hover₇.img himg₈) (by omega) hfuel' (howned.acts hacts)
        rw [Nat.add_assoc offset _ (left - _), hsame, ← Nat.add_assoc, ← Nat.add_assoc,
          Nat.cast_add] at hrest
        exact hrest

/-- The inode `i` has the bytes `data` from `offset` on in place of what it had in `s`. -/
structure Overwritten (dev : ℤ) (d : SuperDesc) (k : ℕ) (zb : ℕ → BufRef) (vs : Set Site) (i : ℕ)
    (data : ℕ → UInt8) (offset len : ℕ) (s t : Fs) : Prop where
  volume : Volume dev d k zb vs t
  site : siteAt t i = siteAt s i
  size : descOf t (siteAt s i) .size = descOf s (siteAt s i) .size
  trees : ∀ v ∈ vs, SameTree s t v
  bits : zoneBits d k zb t = zoneBits d k zb s
  early : ∀ b, Early dev d b → b ≠ (siteAt s i).buf → t.data b = s.data b
  rest : ∀ o, o < DESC_SIZE * (siteAt s i).slot + 8 ∨ DESC_SIZE * (siteAt s i).slot + 12 ≤ o →
    t.data (siteAt s i).buf o = s.data (siteAt s i).buf o
  bytes : ∀ o < descOf s (siteAt s i) .size, fileByte t (siteAt s i) o =
    if offset ≤ o ∧ o < offset + len then data (o - offset) else fileByte s (siteAt s i) o
  others : ∀ v ∈ vs, v ≠ siteAt s i →
    (∀ o, DESC_SIZE * v.slot ≤ o → o < DESC_SIZE * (v.slot + 1) → t.data v.buf o = s.data v.buf o) ∧
    ∀ block < TOTAL_BLOCK, fileZone s v block ≠ 0 →
      t.data ⟨v.dev, fileZone s v block⟩ = s.data ⟨v.dev, fileZone s v block⟩

/-- The loop has run, and the time of the change is stored. -/
theorem Overlaid.overwritten {data : ℕ → UInt8} {offset len n : ℕ}
    (h : Volume dev d k zb vs s) (hv : siteAt s i ∈ vs)
    (hmap : Mapped s (siteAt s i) (descOf s (siteAt s i) .size))
    (hover : Overlaid data offset len (siteAt s i) s t) (hsite : siteAt t' i = siteAt s i)
    (hsupers : t'.supers = s.supers)
    (hs : ∀ b, t'.data b = if b = (siteAt s i).buf then
      (t.data b).write 4 (DESC_SIZE * (siteAt s i).slot + 8) n else t.data b) :
    Overwritten dev d k zb vs i data offset len s t' := by
  have hdesc : DESC_SIZE = 32 := rfl
  have hbase : ∀ v, zonesAt v = DESC_SIZE * v.slot + 14 := fun _ => rfl
  have hself : ∀ o, o < DESC_SIZE * (siteAt s i).slot + 8 ∨
      DESC_SIZE * (siteAt s i).slot + 12 ≤ o →
      t'.data (siteAt s i).buf o = s.data (siteAt s i).buf o := fun o ho => by
    rw [hs, if_pos rfl, Bytes.write_apply_of_lt (by omega), hover.within.early h hv (h.home _ hv)]
  have hother : ∀ b, b ≠ (siteAt s i).buf → t'.data b = t.data b := fun b hb => by
    rw [hs, if_neg hb]
  have hzone : ∀ v ∈ vs, ∀ n p, Level n p → ptr s v p ≠ 0 →
      t'.data ⟨v.dev, ptr s v p⟩ = t.data ⟨v.dev, ptr s v p⟩ := fun v hw n p hp hne =>
    hother _ (h.ptr_ne hw hp hne (h.home _ hv))
  have hblock : ∀ b, Early dev d b → b ≠ (siteAt s i).buf → t'.data b = s.data b :=
    fun b hb hne => (hother b hne).trans (hover.within.early h hv hb)
  have htree : ∀ v ∈ vs, SameTree s t' v := fun v hw => by
    refine .of_data (fun o ho ho' => ?_) fun n p hp hne => ?_
    · by_cases hbuf : v.buf = (siteAt s i).buf
      · rw [hbuf]
        refine hself o ?_
        rw [hbase, hdesc] at ho ho'
        rw [hdesc]
        omega
      · rw [hblock _ (h.home v hw) hbuf]
    · rw [hzone v hw _ p hp hne, hover.within.apart h hv hw hp hne (.inr (Nat.succ_ne_zero n))]
  have hbits : zoneBits d k zb t' = zoneBits d k zb s :=
    zoneBits_congr fun j hj => hblock _ (h.maps j hj) (h.offMap _ hv j hj).symm
  refine ⟨h.congr hsupers (fun j hj => hblock _ (h.head j hj).1 (h.offHead _ hv j hj).symm) hbits
    htree, hsite, ?_, htree, hbits, hblock, hself, fun o ho => ?_, fun v hw hne => ⟨?_, ?_⟩⟩
  · refine Bytes.read_congr fun o _ ho => hself o (.inl ?_)
    change o < DESC_SIZE * (siteAt s i).slot + 4 + 4 at ho
    omega
  · obtain ⟨hlow, hne⟩ := hmap.at ho
    have hsame : fileZone t' (siteAt s i) (o / BLOCK_SIZE) = fileZone s (siteAt s i) (o / BLOCK_SIZE) := by
      rw [fileZone_eq hlow, fileZone_eq hlow, (htree _ hv).ptr (blockPlace_level hlow)]
    have hdivision : o / BLOCK_SIZE * BLOCK_SIZE + o % BLOCK_SIZE = o := by
      rw [Nat.mul_comm]
      exact Nat.div_add_mod o BLOCK_SIZE
    have hbytes := hover.bytes _ hlow hne (o % BLOCK_SIZE) (Nat.mod_lt o (by decide))
    rw [hdivision] at hbytes
    unfold fileByte
    rw [hsame, ← hbytes, fileZone_eq hlow]
    rw [fileZone_eq hlow] at hne
    rw [hzone _ hv _ _ (blockPlace_level hlow) hne]
  · intro o ho ho'
    by_cases hbuf : v.buf = (siteAt s i).buf
    · have hslot : v.slot ≠ (siteAt s i).slot := h.slot_ne hw hv hne hbuf
      rw [hbuf]
      refine hself o ?_
      rw [hdesc] at ho ho' ⊢
      omega
    · rw [hblock _ (h.home v hw) hbuf]
  · intro block hlow hnz
    rw [fileZone_eq hlow] at hnz ⊢
    rw [hzone v hw _ _ (blockPlace_level hlow) hnz,
      hover.within.apart h hv hw (blockPlace_level hlow) hnz (.inl hne)]

/-- What `inode_read` finds after data have been stored over the bytes of `s`. -/
def overlay (s : Fs) (v : Site) (data : ℕ → UInt8) (offset len o : ℕ) : UInt8 :=
  if offset ≤ o ∧ o < offset + len then data (o - offset) else fileByte s v o

theorem does_inodeWrite {data : ℕ → UInt8} {offset len : ℕ} (h : Volume dev d k zb vs s)
    (hv : siteAt s i ∈ vs) (hmode : isReg (s.desc i .mode))
    (hmap : Mapped s (siteAt s i) (descOf s (siteAt s i) .size)) (howned : Owned [] s)
    (hsize : offset + len ≤ descOf s (siteAt s i) .size) :
    Returns (inodeWrite i data len offset) (fun n s' => n = len ∧ Owned [] s' ∧
      Overwritten dev d k zb vs i data offset len s s') s := by
  have hlt := desc_lt s (siteAt s i)
  have hbegin : Overlaid data offset 0 (siteAt s i) s s := ⟨fun _ _ => rfl, fun _ _ _ _ _ => by
    rw [if_neg (by omega)]⟩
  obtain ⟨stop, t, l, hrun, hacts, rfl, hover⟩ := does_writeLoop h hv hmap rfl rfl hbegin
    (show offset + 0 + len ≤ _ by omega) le_rfl howned
  rw [Nat.zero_add] at hover
  unfold inodeWrite
  refine returns_bind (returns_gets (returns_bind (returns_check hmode (returns_bind
    ⟨_, t, l, hrun, ?_⟩))))
  refine returns_bind (returns_bind (returns_gets (returns_modify ?_)))
  have hsite₁ : siteAt (t.setInode i { t.inodes i with atime := t.now }) i = siteAt t i := by
    unfold siteAt Fs.setInode
    simp only [if_pos]
  generalize ht₁ : t.setInode i { t.inodes i with atime := t.now } = t₁ at hsite₁
  refine returns_bind (returns_gets (returns_bind (returns_modify ?_)))
  change Returns _ _ (t₁.setImg (siteAt t₁ i).buf ((t₁.data (siteAt t₁ i).buf).write 4
    (DESC_SIZE * (siteAt t₁ i).slot + 8) t₁.now))
  rw [hsite₁, hacts.siteAt]
  generalize ht₂ : t₁.setImg _ _ = t₂
  obtain ⟨s', hrun', himg, hio, hrefs⟩ := run_bwrite (t₂.inodes i).buf t₂
  refine returns_bind (returns_gets (returns_bind ⟨(), s', [], hrun', returns_pure ⟨?_, ?_, ?_⟩⟩))
  · rw [Nat.add_zero, Nat.cast_add, add_sub_cancel_left, offU32_cast (by omega)]
  · intro c
    rw [hrefs, ← ht₂, ← ht₁]
    exact howned.acts hacts c
  · refine hover.overwritten (n := t₁.now) h hv hmap ?_ ?_ fun b => ?_
    · unfold siteAt
      rw [hio.inodes, ← ht₂]
      exact hsite₁.trans (hacts.siteAt i)
    · rw [hio.supers, ← ht₂, ← ht₁]
      exact hacts.supers
    · have hdata : s'.data b = t₂.data b := by
        unfold Fs.data
        rw [himg]
      have hbefore : ∀ c, t₁.data c = t.data c := fun c => by
        rw [← ht₁]
        rfl
      rw [hdata, ← ht₂, Fs.data_setImg, hbefore, hbefore]
      split
      · rename_i hb
        rw [hb]
      · rfl

/-- Overwriting in place is exact, and so is reading. -/
theorem overwrite_exact (h : Volume dev d k zb vs s) (hv : siteAt s i ∈ vs)
    (hmode : isReg (s.desc i .mode))
    (hmap : Mapped s (siteAt s i) (descOf s (siteAt s i) .size)) (howned : Owned [] s) :
    (∀ len (offset : ℤ), -2 ^ 31 ≤ offset → offset < 2 ^ 31 → Returns (inodeRead i len offset)
      (fun r _ => r = readAnswer (descOf s (siteAt s i) .size) (fileByte s (siteAt s i)) len
        (offU32 offset)) s) ∧
    ∀ data len offset, offset + len ≤ descOf s (siteAt s i) .size →
      Returns (inodeWrite i data len offset) (fun n s' => n = len ∧
        Overwritten dev d k zb vs i data offset len s s' ∧
        ∀ len' (o : ℤ), -2 ^ 31 ≤ o → o < 2 ^ 31 → Returns (inodeRead i len' o)
          (fun r _ => r = readAnswer (descOf s (siteAt s i) .size)
            (overlay s (siteAt s i) data offset len) len' (offU32 o)) s') s := by
  refine ⟨fun len offset hlow hhigh => ?_, fun data len offset hsize => ?_⟩
  · exact returns_mono (inodeRead_answers (.inl hmode) hmap howned hlow hhigh) fun _ _ h => h.2
  · refine returns_mono (does_inodeWrite h hv hmode hmap howned hsize) fun n s' ⟨hn, howned', hs'⟩ =>
      ⟨hn, hs', fun len' o hlow hhigh => ?_⟩
    have hmode' : s'.desc i .mode = s.desc i .mode := by
      change descOf s' (siteAt s' i) .mode = descOf s (siteAt s i) .mode
      rw [hs'.site]
      refine Bytes.read_congr fun o _ ho => hs'.rest o (.inl ?_)
      change o < DESC_SIZE * (siteAt s i).slot + 0 + 2 at ho
      omega
    have hmap' : Mapped s' (siteAt s i) (descOf s (siteAt s i) .size) := fun block hblock => by
      obtain ⟨hlow, hne⟩ := hmap block hblock
      refine ⟨hlow, ?_⟩
      rw [fileZone_eq hlow] at hne ⊢
      rwa [(hs'.trees _ hv).ptr (blockPlace_level hlow)]
    have hread : Returns (inodeRead i len' o) _ s' := inodeRead_answers
      (.inl (hmode' ▸ hmode)) (by rw [hs'.site, hs'.size]; exact hmap') howned' hlow hhigh
    rw [hs'.site, hs'.size] at hread
    refine returns_mono hread fun r _ ⟨_, hr⟩ => hr.trans ?_
    unfold readAnswer
    refine if_ctx_congr Iff.rfl (fun _ => rfl) fun hinside => ?_
    refine congrArg (fun bytes => some (_, bytes)) (List.map_congr_left fun n hn => ?_)
    have hlt := List.mem_range.mp hn
    exact hs'.bytes _ (by omega)

/-- A file of 1000 bytes, all in zone 5. -/
theorem overwrite_exact_small : ∃ s, descOf s (siteAt s 0) .size = 1000 ∧
    Returns (inodeWrite 0 (fun _ => 7) 100 300) (fun n s' => n = 100 ∧
      Overwritten 1 smallDesc 1 (fun _ => ⟨1, 3⟩) {⟨1, ⟨1, 4⟩, 0⟩} 0 (fun _ => 7) 300 100 s s') s := by
  have howned : Owned [] (dusty []) := fun _ => le_rfl
  have hwanted : wanted (dusty []) ⟨1, ⟨1, 4⟩, 0⟩ 0 = 1 := by decide
  have hfew : wanted (dusty []) ⟨1, ⟨1, 4⟩, 0⟩ 0 ≤ 2 := hwanted.trans_le (by decide)
  obtain ⟨z, s, l, hrun, hacts, hz, hvol, hzone, -⟩ := does_bmap (i := 0)
    dusty_volume rfl (show 0 < TOTAL_BLOCK by decide)
    ⟨hfew.trans dusty_enough, fun z hz _ => dusty_blank hz.1.1⟩ howned
  have hmode : s.desc 0 .mode = 0o100644 := desc_of_run hrun (by decide)
  have hsite : siteAt s 0 = ⟨1, ⟨1, 4⟩, 0⟩ := hacts.siteAt 0
  -- then its size is set
  have hs := Fs.data_setImg s ⟨1, 4⟩ (m := (s.data ⟨1, 4⟩).write 4 4 1000)
  generalize ht : s.setImg ⟨1, 4⟩ ((s.data ⟨1, 4⟩).write 4 4 1000) = t at hs
  have hinodes : t.inodes = s.inodes := by
    rw [← ht]
    rfl
  have hsite' : siteAt t 0 = ⟨1, ⟨1, 4⟩, 0⟩ := by
    unfold siteAt
    rw [hinodes]
    exact hsite
  have hself : t.data ⟨1, 4⟩ = (s.data ⟨1, 4⟩).write 4 4 1000 := (hs _).trans (if_pos rfl)
  have hother : ∀ b, b ≠ ⟨1, 4⟩ → t.data b = s.data b := fun b hb => (hs b).trans (if_neg hb)
  have htree : SameTree s t ⟨1, ⟨1, 4⟩, 0⟩ := by
    refine .of_data (fun o ho _ => ?_) fun n p hp hne => hother _ (hvol.ptr_ne rfl hp hne (hvol.home _ rfl))
    change 32 * 0 + 14 ≤ o at ho
    rw [hself, Bytes.write_apply_of_lt (by omega)]
  have hvol' : Volume 1 smallDesc 1 (fun _ => ⟨1, 3⟩) {⟨1, ⟨1, 4⟩, 0⟩} t := by
    refine hvol.congr ?_ (fun i hi => hother _ (hvol.offHead _ rfl i hi).symm)
      (zoneBits_congr fun i hi => hother _ (hvol.offMap _ rfl i hi).symm) ?_
    · rw [← ht]
      rfl
    · rintro v rfl
      exact htree
  have hsize : descOf t ⟨1, ⟨1, 4⟩, 0⟩ .size = 1000 := by
    change Bytes.read 4 (t.data ⟨1, 4⟩) 4 = 1000
    rw [hself, Bytes.read_write_same]
    exact Nat.mod_eq_of_lt (by decide)
  have hmode' : t.desc 0 .mode = 0o100644 := by
    rw [← hmode]
    change descOf t (siteAt t 0) .mode = descOf s (siteAt s 0) .mode
    rw [hsite, hsite']
    change Bytes.read 2 (t.data ⟨1, 4⟩) 0 = Bytes.read 2 (s.data ⟨1, 4⟩) 0
    rw [hself, Bytes.read_write_ne (by omega)]
  have hmap : Mapped t ⟨1, ⟨1, 4⟩, 0⟩ 1000 := fun block hblock => by
    have hzero : block = 0 := by
      change block * 1024 < 1000 at hblock
      omega
    have hlow : 0 < TOTAL_BLOCK := by decide
    subst hzero
    refine ⟨hlow, ?_⟩
    rw [fileZone_eq hlow, htree.ptr (blockPlace_level hlow), ← fileZone_eq hlow]
    exact hzone.trans_ne hz
  refine ⟨t, hsite' ▸ hsize, ?_⟩
  have howned' : Owned [] t := fun c => by
    have hrefs : t.refs = s.refs := by
      rw [← ht]
      rfl
    rw [hrefs]
    exact howned.acts hacts c
  refine returns_mono ((overwrite_exact (i := 0) hvol' hsite' (by rw [hmode']; rfl) ?_ howned').2
    (fun _ => 7) 100 300 ?_) fun n s' h => ⟨h.1, h.2.1⟩
  · rw [hsite', hsize]
    exact hmap
  · rw [hsite', hsize]
    decide

end Ylos.Index
