import Ylos.Verification.Path.Match
import Ylos.Verification.Refs.Inodes

/-! # References on the way along a path -/

namespace Ylos.Refs

open Exec

variable {m s₀ s s' : Fs} {held : List ℕ} {bufs : List BufRef} {dir i : ℕ} {name : Path}

theorem neutral_matchLoop {rhs : ℕ → K UInt8} (hrhs : ∀ k, Neutral (rhs k)) (k : ℕ) :
    Neutral (matchLoop rhs name k) := by
  induction name generalizing k with
  | nil => exact (hrhs k).bind fun _ => neutral_pure _
  | cons c name ih => exact (hrhs k).bind fun _ => .ite (ih (k + 1)) (neutral_pure _)

theorem neutral_matchName {rhs : ℕ → K UInt8} (hrhs : ∀ k, Neutral (rhs k)) :
    Neutral (matchName name rhs) :=
  (neutral_matchLoop hrhs 0).bind fun at_ => (hrhs at_.2).bind fun _ =>
    .ite (neutral_pure _) (.ite (neutral_pure _) (neutral_pure _))

theorem neutral_nameByte (b : BufRef) (off k : ℕ) : Neutral (nameByte b off k) :=
  .ite (neutral_gets _) (neutral_fault _)

theorem neutral_findTest (b : BufRef) (off : ℕ) : Neutral (findLoop.test name b off) := by
  refine (neutral_matchName (neutral_nameByte b off)).bind fun rest => ?_
  cases rest with
  | none => exact neutral_pure _
  | some next => exact (neutral_getU16 _ _ _).bind fun nr => .ite (neutral_pure _) (neutral_pure _)

theorem neutral_entryNr (e : Found) : Neutral (entryNr e) := neutral_getU16 _ _ _

theorem neutral_setEntryNr (e : Found) (nr : ℕ) : Neutral (setEntryNr e nr) :=
  neutral_putU16 _ _ _ _

/-! ## Directories -/

theorem wp_entryBlock {create : Bool} {off : ℕ} {buf : Option BufRef}
    (h : Within m s₀ held (buf.toList ++ bufs) s) :
    wp (fun _ => True) (entryBlock dir i create buf off)
      (fun r s' => Within m s₀ held (r.1 :: bufs) s') s := by
  have hnext : ∀ s₁, Within m s₀ held bufs s₁ → wp (fun _ => True) (do
        let block ← bmap dir (i / BLOCK_DENTRIES) create
        check (block ≠ 0)
        return (← bread (← gets (·.inodes dir)).dev block, 0))
      (fun r s' => Within m s₀ held (r.1 :: bufs) s') s₁ := by
    intro s₁ h₁
    rw [wp_bind]
    refine (neutral_bmap dir _ create).wp h₁ fun block s₂ h₂ => ?_
    rw [wp_bind, wp_check]
    intro _
    rw [wp_bind, wp_gets, wp_bind]
    exact wp_bread h₂ fun s₃ h₃ => (wp_pure _).mpr h₃
  unfold entryBlock
  cases buf with
  | none => exact hnext s h
  | some b =>
      simp only [wp_ite]
      refine ⟨fun _ => (wp_pure _).mpr h, fun _ => ?_⟩
      rw [wp_bind]
      exact wp_brelse h hnext

theorem wp_findLoop {n off : ℕ} (buf : Option BufRef)
    (h : Within m s₀ held (buf.toList ++ bufs) s) :
    wp (fun _ => True) (findLoop dir name n i buf off)
      (fun r s' => Within m s₀ held ((Found.buf? r).toList ++ bufs) s') s := by
  induction n generalizing i off buf s with
  | zero =>
      unfold findLoop
      rw [wp_bind]
      exact wp_brelse_option h fun s₁ h₁ => (wp_pure _).mpr h₁
  | succ n ih =>
      unfold findLoop
      rw [wp_bind]
      refine wp_mono (wp_entryBlock h) fun r s₁ h₁ => ?_
      rw [wp_bind]
      refine (neutral_findTest r.1 r.2).wp h₁ fun rest s₂ h₂ => ?_
      cases rest with
      | none => exact ih _ h₂
      | some next => exact (wp_pure _).mpr h₂

/-- If the name goes up from a root, then the root is the one that nothing is above. -/
def Still (s : Fs) (dir : ℕ) (name : Path) : Prop :=
  (matched dots name).isSome = true → (s.inodes dir).nr = 1 →
    ∀ l, (s.supers l).dev = (s.inodes dir).dev → (s.supers l).imount = some dir

theorem Still.same {s' : Fs} (h : Still s dir name)
    (hlabel : label (s'.inodes dir) = label (s.inodes dir))
    (hmounting : ∀ k, mounting (s'.supers k) = mounting (s.supers k)) : Still s' dir name := by
  intro hup hnr l hl
  rw [show (s'.inodes dir).nr = (s.inodes dir).nr from congrArg (·.2.1) hlabel] at hnr
  rw [show (s'.inodes dir).dev = (s.inodes dir).dev from congrArg (·.1) hlabel,
    show (s'.supers l).dev = (s.supers l).dev from congrArg (·.1) (hmounting l)] at hl
  exact (congrArg (·.2.2) (hmounting l)).trans (h hup hnr l hl)

/-- What `find_entry` returns with. -/
structure Searched (s₀ : Fs) (held : List ℕ) (bufs : List BufRef) (name : Path)
    (r : ℕ × Option Found) (s : Fs) : Prop where
  ledger : Ledger s₀ (r.1 :: held) ((Found.buf? r.2).toList ++ bufs) s
  still : Still s r.1 name

theorem mounting_eq (h : Ledger s₀ held bufs s) {held' : List ℕ} {bufs' : List BufRef}
    (h' : Ledger s₀ held' bufs' s') (k : ℕ) : mounting (s'.supers k) = mounting (s.supers k) :=
  (h'.mounting k).trans (h.mounting k).symm

/-- A root that something is mounted on is its own mount point. -/
theorem Ledger.top {sb l : ℕ} (h : Ledger s₀ held bufs s) (hdev : (s.supers sb).dev ≠ NODEV)
    (himount : (s.supers sb).imount = some i) (hnr : (s.inodes i).nr = 1)
    (hl : (s.supers l).dev = (s.inodes i).dev) : (s.supers l).imount = some i := by
  have hsame := h.mounting sb
  have hdev₀ : (s₀.supers sb).dev ≠ NODEV := (congrArg (·.1) hsame).symm.trans_ne hdev
  have himount₀ := (congrArg (·.2.2) hsame).symm.trans himount
  have hlabel := h.ident i (h.start.imount sb i hdev₀ himount₀).1
  refine (congrArg (·.2.2) (h.mounting l)).trans (h.start.top sb i hdev₀ himount₀ ?_ l ?_)
  · exact (congrArg (·.2.1) hlabel).symm.trans hnr
  · exact ((congrArg (·.1) (h.mounting l)).symm.trans hl).trans (congrArg (·.1) hlabel)

theorem wp_findEntry (h : Ledger s₀ (dir :: held) bufs s) (hfew : held.length < 7) :
    wp (fun _ => True) (findEntry dir name)
      (fun r s' => Searched s₀ held bufs name r s' ∧ (Still s dir name → r.1 = dir)) s := by
  unfold findEntry
  rw [wp_bind]
  refine (neutral_getField dir .mode).wp h.within fun mode s₁ h₁ => ?_
  rw [wp_bind, wp_check]
  intro _
  rw [wp_bind]
  refine wp_of_run run_matchDots ?_
  rw [wp_bind, wp_gets]
  -- the search itself, from the directory that is left
  have hsearch : ∀ d s₂, Ledger s₀ (d :: held) bufs s₂ → Still s₂ d name →
      (Still s dir name → d = dir) → wp (fun _ => True) (do
        let entries := (← getField d .size) / DENTRY_SIZE
        return (d, ← findLoop d name entries 0 none 0))
      (fun r s' => Searched s₀ held bufs name r s' ∧ (Still s dir name → r.1 = dir)) s₂ := by
    intro d s₂ h₂ hstill hstay
    rw [wp_bind]
    refine (neutral_getField d .size).wp h₂.within fun size s₃ h₃ => ?_
    rw [wp_bind]
    refine wp_mono (wp_findLoop none h₃) fun r s₄ h₄ => (wp_pure _).mpr ?_
    exact ⟨⟨h₄.toLedger, hstill.same (h₄.same d) (mounting_eq h₂ h₄.toLedger)⟩, hstay⟩
  rw [wp_ite]
  constructor
  · rintro ⟨hup, hnr⟩
    rw [wp_bind, wp_gets, wp_bind]
    refine wp_theSuper fun sb hsb => ?_
    rw [wp_bind, wp_gets, wp_bind, wp_deref]
    intro mount hmount
    have hdir := h₁.inCore_of_mem List.mem_cons_self
    have hdev : (s₁.supers sb).dev ≠ NODEV := hsb ▸ (h₁.sound.used dir hdir.1).1
    rw [wp_bind]
    refine wp_incCount_ledger h₁.toLedger (h₁.mounted hdev (.inr hmount))
      (by rw [List.length_cons]; omega) ?_
    intro s₂ h₂
    rw [wp_bind]
    refine wp_iput (h₂.perm (.swap ..)) fun s₃ h₃ => ?_
    rw [wp_bind]
    refine (wp_pure mount).mpr (hsearch mount s₃ h₃ (fun _ hnr' l hl => ?_) fun hstill => ?_)
    swap
    · have hstill₁ := hstill.same (h₁.same dir) (mounting_eq h h₁.toLedger)
      exact Option.some_injective _ (hmount.symm.trans (hstill₁ hup hnr sb hsb))
    have hmount₃ := (congrArg (·.2.2) (mounting_eq h₁.toLedger h₃ sb)).trans hmount
    have hdev₃ : (s₃.supers sb).dev ≠ NODEV :=
      (congrArg (·.1) (mounting_eq h₁.toLedger h₃ sb)).trans_ne hdev
    exact h₃.top hdev₃ hmount₃ hnr' hl
  · intro hnot
    rw [wp_bind]
    exact (wp_pure dir).mpr
      (hsearch dir s₁ h₁.toLedger (fun hup hnr => absurd ⟨hup, hnr⟩ hnot) fun _ => rfl)

theorem neutral_copyName (e : Found) : Neutral (copyName e name) := neutral_setData _ _

theorem wp_addLoop {fuel off : ℕ} (buf : Option BufRef)
    (h : Within m s₀ held (buf.toList ++ bufs) s) :
    wp (fun _ => True) (addLoop dir name fuel i buf off)
      (fun e s' => Within m s₀ held (e.buf :: bufs) s') s := by
  induction fuel generalizing i off buf s with
  | zero => exact wp_fault _
  | succ fuel ih =>
      unfold addLoop
      rw [wp_bind]
      refine wp_mono (wp_entryBlock h) fun r s₁ h₁ => ?_
      rw [wp_bind]
      refine (neutral_getField dir .size).wp h₁ fun size s₂ h₂ => ?_
      have hfill : ∀ s₃, Within m s₀ held (r.1 :: bufs) s₃ → wp (fun _ => True) (do
            if (← entryNr ⟨r.1, r.2, []⟩) ≠ 0 then
              addLoop dir name fuel (i + 1) (some r.1) (r.2 + DENTRY_SIZE)
            else
              copyName ⟨r.1, r.2, []⟩ name
              setDirty r.1
              setField dir .mtime (← gets (·.now))
              dirtyInode dir
              return ⟨r.1, r.2, []⟩) (fun e s' => Within m s₀ held (e.buf :: bufs) s') s₃ := by
        intro s₃ h₃
        rw [wp_bind]
        refine (neutral_entryNr _).wp h₃ fun nr s₄ h₄ => ?_
        rw [wp_ite]
        refine ⟨fun _ => ih _ h₄, fun _ => ?_⟩
        rw [wp_bind]
        refine (neutral_copyName _).wp h₄ fun _ s₅ h₅ => ?_
        rw [wp_bind]
        refine (neutral_setDirty _).wp h₅ fun _ s₆ h₆ => ?_
        rw [wp_bind, wp_gets, wp_bind]
        refine (neutral_setField _ _ _).wp h₆ fun _ s₇ h₇ => ?_
        rw [wp_bind]
        exact (neutral_dirtyInode _).wp h₇ fun _ s₈ h₈ => (wp_pure _).mpr h₈
      rw [wp_ite]
      refine ⟨fun _ => ?_, fun _ => hfill s₂ h₂⟩
      rw [wp_bind]
      refine (neutral_setEntryNr _ _).wp h₂ fun _ s₃ h₃ => ?_
      rw [wp_bind]
      refine (neutral_setField _ _ _).wp h₃ fun _ s₄ h₄ => ?_
      rw [wp_bind]
      exact (neutral_dirtyInode _).wp h₄ fun _ s₅ h₅ => hfill s₅ h₅

theorem wp_addEntry (h : Ledger s₀ (dir :: held) bufs s) (hfew : held.length < 7)
    (hstill : Still s dir name) :
    wp (fun _ => True) (addEntry dir name)
      (fun e s' => Ledger s₀ (dir :: held) (e.buf :: bufs) s') s := by
  unfold addEntry
  rw [wp_bind]
  refine wp_mono (wp_findEntry h hfew) ?_
  rintro ⟨d, found⟩ s₁ ⟨⟨h₁, -⟩, hstay⟩
  obtain rfl : d = dir := hstay hstill
  cases found with
  | some e => exact (wp_pure e).mpr h₁
  | none =>
      rw [wp_bind, wp_check]
      intro _
      rw [wp_bind]
      refine (neutral_getField d .size).wp h₁.within fun size s₂ h₂ => ?_
      exact wp_mono (wp_addLoop none h₂) fun e s₃ h₃ => h₃.toLedger

/-! ## Paths -/

theorem Ledger.dev (h : Ledger s₀ held bufs s) (hi : i ∈ held) : (s.inodes i).dev ≠ NODEV :=
  (h.sound.used i (h.inCore_of_mem hi).1).1

/-- What `named` returns with. -/
def Reached (s₀ : Fs) (held : List ℕ) (bufs : List BufRef) (r : Option (ℕ × Path)) (s : Fs) :
    Prop :=
  Ledger s₀ ((r.map Prod.fst).toList ++ held) bufs s

theorem wp_namedLoop {right left : Path} {fuel : ℕ} (buf : Option BufRef)
    (h : Ledger s₀ (i :: held) (buf.toList ++ bufs) s) (hfew : held.length < 7) :
    wp (fun _ => True) (namedLoop right fuel i left buf) (Reached s₀ held bufs) s := by
  induction fuel generalizing i left buf s with
  | zero => exact wp_fault _
  | succ fuel ih =>
      unfold namedLoop
      rw [wp_bind]
      refine wp_brelse_option h.within fun s₁ h₁ => ?_
      rw [wp_bind]
      refine wp_mono (wp_findEntry h₁.toLedger hfew) ?_
      rintro ⟨d, found⟩ s₂ ⟨⟨h₂, -⟩, -⟩
      cases found with
      | none =>
          simp only [wp_bind]
          exact wp_iput h₂ fun s₃ h₃ => (wp_pure none).mpr h₃
      | some e =>
          simp only [wp_bind, wp_gets]
          have hdev := h₂.dev List.mem_cons_self
          refine wp_iput h₂ fun s₃ h₃ => ?_
          refine (neutral_entryNr e).wp h₃.within fun nr s₄ h₄ => ?_
          refine wp_iget h₄.toLedger hdev (by omega) fun i s₅ h₅ => ?_
          refine (neutral_getField i .mode).wp h₅.within fun mode s₆ h₆ => ?_
          refine (neutral_permission i P_EXEC).wp h₆ fun may s₇ h₇ => ?_
          simp only [wp_ite, wp_bind]
          refine ⟨fun _ => ?_, fun _ => ⟨fun _ => ?_, fun _ => ih _ h₇.toLedger⟩⟩
          · refine wp_brelse h₇ fun s₈ h₈ => ?_
            exact wp_iput h₈.toLedger fun s₉ h₉ => (wp_pure none).mpr h₉
          · exact wp_brelse h₇ fun s₈ h₈ => (wp_pure _).mpr h₈.toLedger

theorem wp_named {path : Path} (h : Ledger s₀ held bufs s) (hfew : held.length < 7) :
    wp (fun _ => True) (named path) (Reached s₀ held bufs) s := by
  unfold named
  rw [wp_bind, wp_gets]
  cases path with
  | nil => exact (wp_pure none).mpr h
  | cons c rest =>
      have hstart : ∀ i left, InCore s i →
          wp (fun _ => True) (namedFrom i left) (Reached s₀ held bufs) s := by
        intro i left hi
        unfold namedFrom
        rw [wp_bind]
        refine wp_incCount_ledger h hi (by omega) fun s₁ h₁ => ?_
        rw [wp_ite]
        refine ⟨fun _ => (wp_pure _).mpr h₁, fun _ => ?_⟩
        cases strrsep left with
        | none => exact (wp_pure _).mpr h₁
        | some right => exact wp_namedLoop none h₁ hfew
      by_cases hsep : isSeparator c = true
      · simp only [hsep, if_true]
        exact hstart _ _ (h.iroot ▸ h.inCore h.start.root)
      · simp only [hsep, Bool.false_eq_true, if_false]
        exact hstart _ _ (h.ipwd ▸ h.inCore h.start.pwd)

theorem wp_namei {path : Path} (h : Ledger s₀ held bufs s) (hfew : held.length < 6) :
    wp (fun _ => True) (namei path)
      (fun r s' => Ledger s₀ (r.toList ++ held) bufs s') s := by
  unfold namei
  rw [wp_bind]
  refine wp_mono (wp_named h (by omega)) fun r s₁ h₁ => ?_
  cases r with
  | none => exact (wp_pure none).mpr h₁
  | some found =>
      obtain ⟨dir, next⟩ := found
      have h₁' : Ledger s₀ (dir :: held) bufs s₁ := h₁
      rw [wp_ite]
      refine ⟨fun _ => (wp_pure _).mpr h₁, fun _ => ?_⟩
      rw [wp_bind]
      refine wp_mono (wp_findEntry h₁' (by omega)) ?_
      rintro ⟨d, found⟩ s₂ ⟨⟨h₂, -⟩, -⟩
      cases found with
      | none =>
          simp only [wp_bind]
          exact wp_iput h₂ fun s₃ h₃ => (wp_pure none).mpr h₃
      | some e =>
          simp only [wp_bind, wp_gets]
          have hdev := h₂.dev List.mem_cons_self
          refine (neutral_entryNr e).wp h₂.within fun nr s₃ h₃ => ?_
          refine wp_iget h₃.toLedger hdev ?_ fun i s₄ h₄ => ?_
          · rw [List.length_cons]
            omega
          · refine wp_iput (h₄.perm (.swap ..)) fun s₅ h₅ => ?_
            exact wp_brelse h₅.within fun s₆ h₆ => (wp_pure _).mpr h₆.toLedger

end Ylos.Refs
