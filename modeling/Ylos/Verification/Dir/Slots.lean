import Ylos.Verification.Dir.Reading
import Ylos.Verification.Path.Match

/-! # The slots of a directory -/

namespace Ylos.Dir

open Exec

variable {s s' : Fs} {bufs bufs' : List BufRef} {v : Site} {dir i : ℕ} {name : Path}

def slotBuf (s : Fs) (v : Site) (i : ℕ) : BufRef := ⟨v.dev, fileZone s v (i / BLOCK_DENTRIES)⟩

def slotOff (i : ℕ) : ℕ := DENTRY_SIZE * (i % BLOCK_DENTRIES)

def slotNr (s : Fs) (v : Site) (i : ℕ) : ℕ := (s.data (slotBuf s v i)).read 2 (slotOff i)

def slotByte (s : Fs) (v : Site) (i k : ℕ) : UInt8 := s.data (slotBuf s v i) (slotOff i + 2 + k)

def slotCount (s : Fs) (v : Site) : ℕ := descOf s v .size / DENTRY_SIZE

/-- What follows the name of slot `i` in the path, if that is the name and the slot is in use. -/
def slotHit (s : Fs) (v : Site) (name : Path) (i : ℕ) : Option Path :=
  match matched (slotByte s v i) name with
  | none => none
  | some next => if slotNr s v i ≠ 0 then some next else none

/-- The first of the slots `i`, ..., `i + n - 1` that the name leads to. -/
def firstHit (s : Fs) (v : Site) (name : Path) : (n i : ℕ) → Option Found
  | 0, _ => none
  | n + 1, i =>
    match slotHit s v name i with
    | some next => some ⟨slotBuf s v i, slotOff i, next⟩
    | none => firstHit s v name n (i + 1)

/-- Slot `i` has a block, and its name is over within the slot, or the path is. -/
structure Legible (s : Fs) (v : Site) (name : Path) (i : ℕ) : Prop where
  block : i / BLOCK_DENTRIES < TOTAL_BLOCK
  zone : fileZone s v (i / BLOCK_DENTRIES) ≠ 0
  name : ∃ n ≤ 13, slotByte s v i n = 0 ∨ name.length ≤ n

theorem slotOff_add (i : ℕ) : slotOff i + DENTRY_SIZE ≤ BLOCK_SIZE := by
  unfold slotOff DENTRY_SIZE BLOCK_DENTRIES BLOCK_SIZE
  omega

/-! ## The same data -/

theorem slotBuf_congr (h : s'.img = s.img) (v : Site) (i : ℕ) :
    slotBuf s' v i = slotBuf s v i := by
  unfold slotBuf
  rw [fileZone_congr h]

theorem slotByte_congr (h : s'.img = s.img) (v : Site) (i : ℕ) :
    slotByte s' v i = slotByte s v i := by
  funext k
  unfold slotByte Fs.data
  rw [slotBuf_congr h, h]

theorem slotNr_congr (h : s'.img = s.img) (v : Site) (i : ℕ) : slotNr s' v i = slotNr s v i := by
  unfold slotNr Fs.data
  rw [slotBuf_congr h, h]

theorem slotCount_congr (h : s'.img = s.img) (v : Site) : slotCount s' v = slotCount s v := by
  unfold slotCount
  rw [descOf_congr h]

theorem slotHit_congr (h : s'.img = s.img) (v : Site) (name : Path) (i : ℕ) :
    slotHit s' v name i = slotHit s v name i := by
  unfold slotHit
  rw [slotByte_congr h, slotNr_congr h]

theorem firstHit_congr (h : s'.img = s.img) (v : Site) (name : Path) (n i : ℕ) :
    firstHit s' v name n i = firstHit s v name n i := by
  induction n generalizing i with
  | zero => rfl
  | succ n ih =>
      unfold firstHit
      rw [slotHit_congr h, slotBuf_congr h, ih]

theorem Legible.congr (h : Legible s v name i) (himg : s'.img = s.img) :
    Legible s' v name i :=
  ⟨h.block, fileZone_congr himg v _ ▸ h.zone, slotByte_congr himg v i ▸ h.name⟩

/-! ## The search -/

/-- The directory loops have come to slot `i` with the buffer of the slot before. -/
def Cursor (s : Fs) (v : Site) (i : ℕ) (buf : Option BufRef) (off : ℕ) : Prop :=
  match buf with
  | none => i % BLOCK_DENTRIES = 0
  | some b => ∃ j, i = j + 1 ∧ b = slotBuf s v j ∧ off = slotOff j + DENTRY_SIZE

theorem Cursor.next (s : Fs) (v : Site) (i : ℕ) :
    Cursor s v (i + 1) (some (slotBuf s v i)) (slotOff i + DENTRY_SIZE) := ⟨i, rfl, rfl, rfl⟩

theorem Cursor.congr {buf : Option BufRef} {off : ℕ} (h : Cursor s v i buf off)
    (himg : s'.img = s.img) : Cursor s' v i buf off := by
  cases buf with
  | none => exact h
  | some b =>
      obtain ⟨j, hij, hb, hoff⟩ := h
      exact ⟨j, hij, hb.trans (slotBuf_congr himg v j).symm, hoff⟩

/-- Inside a buffer the next slot is in the same block. -/
theorem slot_succ {j : ℕ} (h : slotOff j + DENTRY_SIZE < BLOCK_SIZE) :
    slotBuf s v (j + 1) = slotBuf s v j ∧ slotOff (j + 1) = slotOff j + DENTRY_SIZE := by
  unfold slotBuf slotOff at *
  unfold DENTRY_SIZE BLOCK_DENTRIES BLOCK_SIZE at *
  rw [show (j + 1) / (1024 / 16) = j / (1024 / 16) by omega]
  exact ⟨rfl, by omega⟩

/-- After the last slot of a block the next one begins. -/
theorem slot_first {j : ℕ} (h : ¬slotOff j + DENTRY_SIZE < BLOCK_SIZE) :
    (j + 1) % BLOCK_DENTRIES = 0 := by
  unfold slotOff at h
  unfold DENTRY_SIZE BLOCK_DENTRIES BLOCK_SIZE at *
  omega

theorem slotOff_first (h : i % BLOCK_DENTRIES = 0) : slotOff i = 0 := by
  unfold slotOff
  rw [h, Nat.mul_zero]

/-- The block is read when the slot before was the last of its block. -/
theorem answers_entryBlock {buf : Option BufRef} {off : ℕ} (hv : siteAt s dir = v)
    (hcursor : Cursor s v i buf off) (h : Owned (buf.toList ++ bufs) s)
    (hblock : i / BLOCK_DENTRIES < TOTAL_BLOCK) (hzone : fileZone s v (i / BLOCK_DENTRIES) ≠ 0) :
    Answers (buf.toList ++ bufs) (entryBlock dir i false buf off) s
      (slotBuf s v i :: bufs) (slotBuf s v i, slotOff i) := by
  have hnext : ∀ bufs₁ s₁, Reads bufs₁ bufs s s₁ → Owned bufs s₁ → i % BLOCK_DENTRIES = 0 →
      Answers bufs (do
        let block ← bmap dir (i / BLOCK_DENTRIES) false
        check (block ≠ 0)
        return (← bread (← gets (·.inodes dir)).dev block, 0)) s₁
      (slotBuf s v i :: bufs) (slotBuf s v i, slotOff i) := by
    intro bufs₁ s₁ h₁ howned hfirst
    rw [slotOff_first hfirst]
    refine (answers_bmap hblock howned).bind fun s₂ h₂ => ?_
    rw [h₁.siteAt, hv, fileZone_congr h₁.img]
    refine (answers_check hzone).bind fun s₃ h₃ => (answers_gets _).bind fun s₄ h₄ => ?_
    rw [((h₁.trans h₂).trans h₃).inodes, show (s.inodes dir).dev = v.dev from congrArg (·.dev) hv]
    exact (answers_bread _ _).bind fun s₅ _ => answers_pure _
  unfold entryBlock
  cases buf with
  | none => exact hnext bufs s (.refl bufs s) h hcursor
  | some b =>
      obtain ⟨j, rfl, rfl, rfl⟩ := hcursor
      dsimp only
      split
      · rename_i hin
        rw [(slot_succ hin).1, (slot_succ (s := s) (v := v) hin).2]
        exact answers_pure _
      · rename_i hout
        refine (answers_brelse h).bind fun s₁ h₁ => ?_
        exact hnext _ s₁ h₁ (h.reads h₁) (slot_first hout)

theorem answers_findTest (h : Legible s v name i) :
    Answers bufs (findLoop.test name (slotBuf s v i) (slotOff i)) s bufs (slotHit s v name i) := by
  obtain ⟨n, hn, hend⟩ := h.name
  have hbytes : ∀ k ≤ n, (nameByte (slotBuf s v i) (slotOff i) k).run s =
      .ok (slotByte s v i k, s, []) := by
    intro k hk
    have hadd := slotOff_add i
    have hsize : DENTRY_SIZE = 16 := rfl
    unfold nameByte
    rw [if_pos (by omega)]
    rfl
  unfold findLoop.test slotHit
  refine Answers.bind (.of_run (run_matchName hend hbytes)) fun s₁ h₁ => ?_
  cases matched (slotByte s v i) name with
  | none => exact answers_pure none
  | some next =>
      refine (answers_getU16 _ _ _).bind fun s₂ h₂ => ?_
      rw [h₁.data]
      change Answers _ (if slotNr s v i ≠ 0 then _ else _) _ _ _
      split
      · exact answers_pure _
      · exact answers_pure _

theorem answers_findLoop {n off : ℕ} (buf : Option BufRef) (hv : siteAt s dir = v)
    (hcursor : Cursor s v i buf off) (h : Owned (buf.toList ++ bufs) s)
    (hlegible : ∀ j, i ≤ j → j < i + n → Legible s v name j) :
    Answers (buf.toList ++ bufs) (findLoop dir name n i buf off) s
      ((Found.buf? (firstHit s v name n i)).toList ++ bufs) (firstHit s v name n i) := by
  induction n generalizing i off buf s with
  | zero =>
      unfold findLoop
      cases buf with
      | none => exact (answers_pure ()).bind fun _ _ => answers_pure _
      | some b => exact (answers_brelse h).bind fun _ _ => answers_pure _
  | succ n ih =>
      have hi := hlegible i le_rfl (by omega)
      unfold findLoop
      refine (answers_entryBlock hv hcursor h hi.block hi.zone).bind fun s₁ h₁ => ?_
      have htest : Answers (slotBuf s v i :: bufs)
          (findLoop.test name (slotBuf s v i) (slotOff i)) s₁
          (slotBuf s v i :: bufs) (slotHit s v name i) := by
        rw [← slotHit_congr h₁.img, ← slotBuf_congr h₁.img]
        exact answers_findTest (hi.congr h₁.img)
      refine htest.bind fun s₂ h₂ => ?_
      unfold firstHit
      cases slotHit s v name i with
      | some next => exact answers_pure _
      | none =>
          have hreads := h₁.trans h₂
          have hloop := ih (some (slotBuf s v i)) ((hreads.siteAt dir).trans hv)
            ((Cursor.next s v i).congr hreads.img) (h.reads hreads)
            fun j hj hj' => (hlegible j (by omega) (by omega)).congr hreads.img
          rwa [firstHit_congr hreads.img] at hloop

/-- The end of `find_entry`, in the directory that is left. -/
theorem answers_search (name : Path) (hv : siteAt s dir = v) (h : Owned bufs s)
    (hlegible : ∀ i < slotCount s v, Legible s v name i) :
    Answers bufs (do
        let entries := (← getField dir .size) / DENTRY_SIZE
        return (dir, ← findLoop dir name entries 0 none 0)) s
      ((Found.buf? (firstHit s v name (slotCount s v) 0)).toList ++ bufs)
      (dir, firstHit s v name (slotCount s v) 0) := by
  refine (answers_getField dir .size).bind fun s₁ h₁ => ?_
  have hcount : s.desc dir .size / DENTRY_SIZE = slotCount s v := by
    rw [← hv]
    rfl
  have hloop := answers_findLoop (s := s₁) (n := slotCount s v) none ((h₁.siteAt dir).trans hv)
    (show Cursor s₁ v 0 none 0 from Nat.zero_mod _) (h.reads h₁)
    fun j _ hj => (hlegible j (by omega)).congr h₁.img
  rw [hcount, ← firstHit_congr h₁.img]
  exact hloop.bind fun _ _ => answers_pure _

/-- `find_entry`, where it does not leave the directory. -/
theorem answers_findEntry (hv : siteAt s dir = v) (hdir : isDir (s.desc dir .mode) = true)
    (hstay : matched dots name = none ∨ (s.inodes dir).nr ≠ 1) (h : Owned bufs s)
    (hlegible : ∀ i < slotCount s v, Legible s v name i) :
    Answers bufs (findEntry dir name) s
      ((Found.buf? (firstHit s v name (slotCount s v) 0)).toList ++ bufs)
      (dir, firstHit s v name (slotCount s v) 0) := by
  unfold findEntry
  refine (answers_getField dir .mode).bind fun s₁ h₁ => ?_
  refine (answers_check hdir).bind fun s₂ h₂ => ?_
  refine Answers.bind (.of_run run_matchDots) fun s₃ h₃ => ?_
  refine (answers_gets _).bind fun s₄ h₄ => ?_
  have hreads := ((h₁.trans h₂).trans h₃).trans h₄
  have hno : ¬((matched dots name).isSome = true ∧ (s₃.inodes dir).nr = 1) := by
    rw [((h₁.trans h₂).trans h₃).inodes]
    rcases hstay with hstay | hstay
    · rw [hstay]
      simp
    · exact fun h => hstay h.2
  rw [if_neg hno]
  refine (answers_pure dir).bind fun s₅ h₅ => ?_
  have hall := hreads.trans h₅
  rw [← firstHit_congr hall.img, ← slotCount_congr hall.img]
  refine answers_search name ((hall.siteAt dir).trans hv) (h.reads hall) fun j hj => ?_
  rw [slotCount_congr hall.img] at hj
  exact (hlegible j hj).congr hall.img

end Ylos.Dir
