import Ylos.Verification.Refs.Paths

/-! # What the path system calls do to the reference counts -/

namespace Ylos.Refs

open Exec

variable {s₀ s s' : Fs} {held : List ℕ} {bufs : List BufRef} {dir i : ℕ}

/-- From `s` to `s'` the counts of inodes differ by `gained` and `lost`, and the references
to buffers only by those that inodes in core hold. -/
structure Conserved (s : Fs) (gained lost : List ℕ) (s' : Fs) : Prop where
  count : ∀ i, (s'.inodes i).count + lost.count i = (s.inodes i).count + gained.count i
  refs : ∀ b, s'.refs b - kept s' b = s.refs b - kept s b

theorem Ledger.conserved (h : Ledger s₀ held [] s) : Conserved s₀ held [] s where
  count i := by rw [h.count, List.count_nil, Nat.add_zero]
  refs b := by
    have hrefs := h.refs b
    rw [List.count_nil] at hrefs
    omega

theorem wp_forM_iput {Q : Unit → Fs → Prop} {inodes : List (Option ℕ)}
    (h : Ledger s₀ (inodes.flatMap Option.toList ++ held) bufs s)
    (hQ : ∀ s', Ledger s₀ held bufs s' → Q () s') :
    wp (fun _ => True) (inodes.forM iput) Q s := by
  induction inodes generalizing s with
  | nil => exact (wp_pure ()).mpr (hQ s h)
  | cons o inodes ih =>
      change wp _ (iput o >>= fun _ => inodes.forM iput) Q s
      rw [wp_bind]
      refine wp_iput_option ?_ fun s₁ h₁ => ih h₁
      rwa [List.flatMap_cons, List.append_assoc] at h

theorem wp_rollback_then {Q : Ret → Fs → Prop} {ret : Ret} {buf : Option BufRef}
    {inodes : List (Option ℕ)} (h : Ledger s₀ (inodes.flatMap Option.toList) buf.toList s)
    (hQ : ∀ s', Ledger s₀ [] [] s' → Q ret s') :
    wp (fun _ => True) (rollback ret buf inodes) Q s := by
  unfold rollback
  rw [wp_bind]
  have hbufs : Within s s₀ (inodes.flatMap Option.toList) (buf.toList ++ []) s := by
    simpa using h.within
  refine wp_brelse_option hbufs fun s₁ h₁ => ?_
  rw [wp_bind]
  have hheld : Ledger s₀ (inodes.flatMap Option.toList ++ []) [] s₁ := by simpa using h₁.toLedger
  refine wp_forM_iput hheld fun s₂ h₂ => ?_
  exact (wp_pure ret).mpr (hQ s₂ h₂)

theorem wp_rollback {ret : Ret} {buf : Option BufRef} {inodes : List (Option ℕ)}
    (h : Ledger s₀ (inodes.flatMap Option.toList) buf.toList s) :
    wp (fun _ => True) (rollback ret buf inodes) (fun _ s' => Ledger s₀ [] [] s') s :=
  wp_rollback_then h fun _ hs => hs

theorem wp_newInode {Q : ℕ → Fs → Prop} {dev : ℤ} {nr : ℕ} (h : Ledger s₀ held bufs s)
    (hdev : dev ≠ NODEV) (hfew : held.length < 8)
    (hQ : ∀ i s', Ledger s₀ (i :: held) bufs s' → Q i s') :
    wp (fun _ => True) (newInode dev nr) Q s := by
  unfold newInode
  rw [wp_bind, wp_gets, wp_bind]
  refine wp_iget h hdev hfew fun i s₁ h₁ => ?_
  simp only [wp_bind, wp_gets]
  refine (neutral_dirtyInode i).wp h₁.within fun _ s₂ h₂ => ?_
  refine (neutral_setField i _ _).wp h₂ fun _ s₃ h₃ => ?_
  refine (neutral_setField i _ _).wp h₃ fun _ s₄ h₄ => ?_
  refine (neutral_setField i _ _).wp h₄ fun _ s₅ h₅ => ?_
  refine (neutral_setAtime i).wp h₅ fun _ s₆ h₆ => ?_
  refine (neutral_setField i _ _).wp h₆ fun _ s₇ h₇ => ?_
  refine (neutral_setField i _ _).wp h₇ fun _ s₈ h₈ => ?_
  refine (neutral_setField i _ _).wp h₈ fun _ s₉ h₉ => ?_
  exact (wp_pure i).mpr (hQ i s₉ h₉.toLedger)

/-! ## The calls that create a name -/

theorem wp_sysMknod {path : Path} {mode dev : ℕ} (h : Ledger s₀ [] [] s) :
    wp (fun _ => True) (sysMknod path mode dev) (fun _ s' => Ledger s₀ [] [] s') s := by
  unfold sysMknod
  rw [wp_bind]
  refine wp_mono (wp_named h (by decide)) fun r s₁ h₁ => ?_
  cases r with
  | none => exact wp_rollback h₁
  | some found =>
      obtain ⟨dir, name⟩ := found
      have h₁' : Ledger s₀ [dir] [] s₁ := h₁
      simp only [wp_ite, wp_bind]
      refine ⟨fun _ => wp_rollback h₁', fun _ => ?_⟩
      refine (neutral_permission dir P_WRITE).wp h₁'.within fun may s₂ h₂ => ?_
      refine ⟨fun _ => wp_rollback h₂.toLedger, fun _ => ?_⟩
      refine wp_mono (wp_findEntry h₂.toLedger (by decide)) ?_
      rintro ⟨d, found⟩ s₃ ⟨⟨h₃, hstill⟩, -⟩
      cases found with
      | some e => exact wp_rollback h₃
      | none =>
          have h₃' : Ledger s₀ [d] [] s₃ := h₃
          simp only [wp_bind, wp_gets, wp_ite]
          refine wp_mono (wp_addEntry h₃' (by decide) hstill) fun e s₄ h₄ => ?_
          refine (neutral_setDirty _).wp h₄.within fun _ s₅ h₅ => ?_
          refine (neutral_ialloc _).wp h₅ fun nr s₆ h₆ => ?_
          refine (neutral_setEntryNr _ _).wp h₆ fun _ s₇ h₇ => ?_
          refine (neutral_entryNr _).wp h₇ fun nr s₈ h₈ => ?_
          refine wp_newInode h₈.toLedger (h₇.dev List.mem_cons_self) (by simp) fun i s₉ h₉ => ?_
          refine (neutral_setField i _ _).wp h₉.within fun _ s₁ h₁ => ?_
          refine (neutral_noteInode i).wp h₁ fun _ s₂ h₂ => ⟨fun _ => ?_, fun _ => ?_⟩
          · refine (neutral_setField i _ _).wp h₂ fun _ s₃ h₃ => ?_
            exact wp_rollback h₃.toLedger
          · exact wp_rollback h₂.toLedger

theorem wp_sysMkdir {path : Path} {mode : ℕ} (h : Ledger s₀ [] [] s) :
    wp (fun _ => True) (sysMkdir path mode) (fun _ s' => Ledger s₀ [] [] s') s := by
  unfold sysMkdir
  rw [wp_bind]
  refine wp_mono (wp_named h (by decide)) fun r s₁ h₁ => ?_
  cases r with
  | none => exact wp_rollback h₁
  | some found =>
      obtain ⟨dir, name⟩ := found
      have h₁' : Ledger s₀ [dir] [] s₁ := h₁
      simp only [wp_ite, wp_bind]
      refine ⟨fun _ => wp_rollback h₁', fun _ => ?_⟩
      refine (neutral_permission dir P_WRITE).wp h₁'.within fun may s₂ h₂ => ?_
      refine ⟨fun _ => wp_rollback h₂.toLedger, fun _ => ?_⟩
      refine wp_mono (wp_findEntry h₂.toLedger (by decide)) ?_
      rintro ⟨d, found⟩ s₃ ⟨⟨h₃, hstill⟩, -⟩
      cases found with
      | some e => exact wp_rollback h₃
      | none =>
          have h₃' : Ledger s₀ [d] [] s₃ := h₃
          simp only [wp_bind, wp_gets]
          refine wp_mono (wp_addEntry h₃' (by decide) hstill) fun e s₄ h₄ => ?_
          refine (neutral_setDirty _).wp h₄.within fun _ s₅ h₅ => ?_
          refine (neutral_ialloc _).wp h₅ fun nr s₆ h₆ => ?_
          refine (neutral_setEntryNr _ _).wp h₆ fun _ s₇ h₇ => ?_
          refine (neutral_entryNr _).wp h₇ fun nr s₈ h₈ => ?_
          refine wp_newInode h₈.toLedger (h₅.dev List.mem_cons_self) (by simp) fun i s₉ h₉ => ?_
          refine (neutral_setField i _ _).wp h₉.within fun _ s₁ h₁ => ?_
          refine (neutral_noteInode i).wp h₁ fun _ s₂ h₂ => ?_
          refine (neutral_setField i _ _).wp h₂ fun _ s₃ h₃ => ?_
          refine (neutral_setField i _ _).wp h₃ fun _ s₄ h₄ => ?_
          refine (neutral_dirtyInode d).wp h₄ fun _ s₅ h₅ => ?_
          refine (neutral_getField d _).wp h₅ fun links s₆ h₆ => ?_
          refine (neutral_note _).wp h₆ fun _ s₇ h₇ => ?_
          refine (neutral_getField d _).wp h₇ fun links s₈ h₈ => ?_
          refine (neutral_setField d _ _).wp h₈ fun _ s₉ h₉ => ?_
          refine (neutral_bmap i 0 true).wp h₉ fun zone s₁ h₁ => ?_
          refine wp_bread h₁ fun s₂ h₂ => ?_
          refine (neutral_setDirty _).wp h₂ fun _ s₃ h₃ => ?_
          refine (neutral_setData _ _).wp h₃ fun _ s₄ h₄ => ?_
          refine (neutral_setEntryNr _ _).wp h₄ fun _ s₅ h₅ => ?_
          refine (neutral_setData _ _).wp h₅ fun _ s₆ h₆ => ?_
          refine (neutral_setEntryNr _ _).wp h₆ fun _ s₇ h₇ => ?_
          refine wp_iput h₇.toLedger fun s₈ h₈ => wp_iput h₈ fun s₉ h₉ => ?_
          refine wp_brelse (h₉.within.perm (.swap ..)) fun s₁ h₁ => ?_
          exact wp_brelse h₁ fun s₂ h₂ => (wp_pure _).mpr h₂.toLedger

theorem wp_openMakeup {flag : ℕ} {e : Found} (h : Ledger s₀ [i, dir] [e.buf] s) :
    wp (fun _ => True) (openMakeup flag dir i e)
      (fun r s' => Ledger s₀ r.toList [] s') s := by
  have hfail : ∀ s₁, Within s s₀ [i, dir] [e.buf] s₁ →
      wp (fun _ => True) (openMakeup.openFail dir i e) (fun r s' => Ledger s₀ r.toList [] s') s₁ := by
    intro s₁ h₁
    unfold openMakeup.openFail
    simp only [wp_bind]
    refine wp_brelse h₁ fun s₂ h₂ => wp_iput (h₂.toLedger.perm (.swap ..)) fun s₃ h₃ => ?_
    exact wp_iput h₃ fun s₄ h₄ => (wp_pure none).mpr h₄
  have hkeep : ∀ s₁, Within s s₀ [i, dir] [e.buf] s₁ →
      wp (fun _ => True) (do brelse (some e.buf); iput (some dir); return some i)
        (fun r s' => Ledger s₀ r.toList [] s') s₁ := by
    intro s₁ h₁
    simp only [wp_bind]
    refine wp_brelse h₁ fun s₂ h₂ => wp_iput (h₂.toLedger.perm (.swap ..)) fun s₃ h₃ => ?_
    exact (wp_pure (some i)).mpr h₃
  unfold openMakeup
  rw [wp_bind]
  refine (neutral_permission i _).wp h.within fun may s₁ h₁ => ?_
  rw [wp_ite]
  refine ⟨fun _ => hfail s₁ h₁, fun _ => ?_⟩
  rw [wp_bind]
  refine (neutral_getField i _).wp h₁ fun mode s₂ h₂ => ?_
  rw [wp_ite]
  refine ⟨fun _ => hfail s₂ h₂, fun _ => ?_⟩
  rw [wp_bind]
  refine (neutral_setAtime i).wp h₂ fun _ s₃ h₃ => ?_
  rw [wp_ite]
  refine ⟨fun _ => ?_, fun _ => hkeep s₃ h₃⟩
  rw [wp_bind]
  exact (neutral_inodeTruncate i).wp h₃ fun _ s₄ h₄ => hkeep s₄ h₄

theorem wp_inodeOpen {path : Path} {flag mode : ℕ} (h : Ledger s₀ [] [] s) :
    wp (fun _ => True) (inodeOpen path flag mode) (fun r s' => Ledger s₀ r.toList [] s') s := by
  unfold inodeOpen
  rw [wp_bind]
  refine wp_mono (wp_named h (by decide)) fun r s₁ h₁ => ?_
  cases r with
  | none => exact (wp_pure none).mpr h₁
  | some found =>
      obtain ⟨dir, name⟩ := found
      have h₁' : Ledger s₀ [dir] [] s₁ := h₁
      simp only [wp_ite, wp_bind]
      refine ⟨fun _ => (wp_pure _).mpr h₁', fun _ => ?_⟩
      refine wp_mono (wp_findEntry h₁' (by decide)) ?_
      rintro ⟨d, found⟩ s₂ ⟨⟨h₂, hstill⟩, -⟩
      cases found with
      | some e =>
          have h₂' : Ledger s₀ [d] [e.buf] s₂ := h₂
          simp only [wp_bind, wp_gets]
          refine (neutral_entryNr e).wp h₂'.within fun nr s₃ h₃ => ?_
          refine wp_iget h₃.toLedger (h₂.dev List.mem_cons_self) (by simp) fun i s₄ h₄ => ?_
          exact wp_openMakeup h₄
      | none =>
          have h₂' : Ledger s₀ [d] [] s₂ := h₂
          have hnone : ∀ s₃, Ledger s₀ [d] [] s₃ →
              wp (fun _ => True) (do iput (some d); return none)
                (fun r s' => Ledger s₀ r.toList [] s') s₃ := by
            intro s₃ h₃
            rw [wp_bind]
            exact wp_iput h₃ fun s₄ h₄ => (wp_pure none).mpr h₄
          simp only [wp_ite]
          refine ⟨fun _ => hnone s₂ h₂', fun _ => ?_⟩
          rw [wp_bind]
          refine (neutral_permission d P_WRITE).wp h₂'.within fun may s₃ h₃ => ?_
          simp only [wp_ite]
          refine ⟨fun _ => hnone s₃ h₃.toLedger, fun _ => ?_⟩
          simp only [wp_bind, wp_gets]
          have hstill₃ := hstill.same (h₃.same d) (mounting_eq h₂' h₃.toLedger)
          refine wp_mono (wp_addEntry h₃.toLedger (by simp) hstill₃) fun e s₄ h₄ => ?_
          refine (neutral_ialloc _).wp h₄.within fun nr s₅ h₅ => ?_
          refine (neutral_setEntryNr _ _).wp h₅ fun _ s₆ h₆ => ?_
          refine (neutral_entryNr _).wp h₆ fun nr s₇ h₇ => ?_
          refine wp_newInode h₇.toLedger (h₆.dev List.mem_cons_self) (by simp) fun i s₈ h₈ => ?_
          refine (neutral_setField i _ _).wp h₈.within fun _ s₉ h₉ => ?_
          exact (neutral_noteInode i).wp h₉ fun _ s₁ h₁ => wp_openMakeup h₁.toLedger

/-! ## The calls that work on names -/

theorem wp_sysLink {oldname newname : Path} (h : Ledger s₀ [] [] s) :
    wp (fun _ => True) (sysLink oldname newname) (fun _ s' => Ledger s₀ [] [] s') s := by
  unfold sysLink
  rw [wp_bind]
  refine wp_mono (wp_namei h (by decide)) fun r s₁ h₁ => ?_
  cases r with
  | none => exact wp_rollback h₁
  | some i =>
      have h₁' : Ledger s₀ [i] [] s₁ := h₁
      simp only [wp_bind, wp_ite]
      refine (neutral_getField i _).wp h₁'.within fun mode s₂ h₂ => ?_
      refine ⟨fun _ => wp_rollback h₂.toLedger, fun _ => ?_⟩
      refine wp_mono (wp_named h₂.toLedger (by simp)) fun r s₃ h₃ => ?_
      cases r with
      | none => exact wp_rollback h₃
      | some found =>
          obtain ⟨dir, name⟩ := found
          have h₃' : Ledger s₀ [dir, i] [] s₃ := h₃
          simp only [wp_bind, wp_ite, wp_gets]
          refine ⟨fun _ => wp_rollback (h₃'.perm (.swap ..)), fun _ => ?_⟩
          refine ⟨fun _ => wp_rollback (h₃'.perm (.swap ..)), fun _ => ?_⟩
          refine (neutral_permission dir P_WRITE).wp h₃'.within fun may s₄ h₄ => ?_
          refine ⟨fun _ => wp_rollback (h₄.toLedger.perm (.swap ..)), fun _ => ?_⟩
          refine wp_mono (wp_findEntry h₄.toLedger (by simp)) ?_
          rintro ⟨d, found⟩ s₅ ⟨⟨h₅, hstill⟩, -⟩
          cases found with
          | some e =>
              have h₅' : Ledger s₀ [d, i] [e.buf] s₅ := h₅
              exact wp_rollback (h₅'.perm (.swap ..))
          | none =>
              have h₅' : Ledger s₀ [d, i] [] s₅ := h₅
              simp only [wp_bind, wp_gets]
              refine wp_mono (wp_addEntry h₅' (by simp) hstill) fun e s₆ h₆ => ?_
              refine (neutral_setEntryNr _ _).wp h₆.within fun _ s₇ h₇ => ?_
              refine (neutral_setDirty _).wp h₇ fun _ s₈ h₈ => ?_
              refine (neutral_getField i _).wp h₈ fun links s₉ h₉ => ?_
              refine (neutral_note _).wp h₉ fun _ s₁ h₁ => ?_
              refine (neutral_getField i _).wp h₁ fun links s₂ h₂ => ?_
              refine (neutral_setField i _ _).wp h₂ fun _ s₃ h₃ => ?_
              refine (neutral_setCtime i _).wp h₃ fun _ s₄ h₄ => ?_
              refine (neutral_dirtyInode i).wp h₄ fun _ s₅ h₅ => ?_
              exact wp_rollback (h₅.toLedger.perm (.swap ..))

theorem wp_sysUnlink {path : Path} (h : Ledger s₀ [] [] s) :
    wp (fun _ => True) (sysUnlink path) (fun _ s' => Ledger s₀ [] [] s') s := by
  unfold sysUnlink
  rw [wp_bind]
  refine wp_mono (wp_named h (by decide)) fun r s₁ h₁ => ?_
  cases r with
  | none => exact wp_rollback h₁
  | some found =>
      obtain ⟨dir, name⟩ := found
      have h₁' : Ledger s₀ [dir] [] s₁ := h₁
      simp only [wp_ite, wp_bind]
      refine ⟨fun _ => wp_rollback h₁', fun _ => ?_⟩
      refine (neutral_permission dir P_WRITE).wp h₁'.within fun may s₂ h₂ => ?_
      refine ⟨fun _ => wp_rollback h₂.toLedger, fun _ => ?_⟩
      refine wp_mono (wp_findEntry h₂.toLedger (by decide)) ?_
      rintro ⟨d, found⟩ s₃ ⟨⟨h₃, -⟩, -⟩
      cases found with
      | none => exact wp_rollback h₃
      | some e =>
          have h₃' : Ledger s₀ [d] [e.buf] s₃ := h₃
          simp only [wp_bind, wp_gets, wp_ite]
          refine (neutral_entryNr e).wp h₃'.within fun nr s₄ h₄ => ?_
          refine wp_iget h₄.toLedger (h₃.dev List.mem_cons_self) (by simp) fun i s₅ h₅ => ?_
          refine (neutral_getField i _).wp h₅.within fun mode s₆ h₆ => ?_
          refine ⟨fun _ => wp_rollback h₆.toLedger, fun _ => ?_⟩
          refine (neutral_getField i _).wp h₆ fun mode s₇ h₇ => ?_
          refine (neutral_getField i _).wp h₇ fun uid s₈ h₈ => ?_
          refine ⟨fun _ => wp_rollback h₈.toLedger, fun _ => ?_⟩
          refine (neutral_setEntryNr e 0).wp h₈ fun _ s₉ h₉ => ?_
          refine (neutral_setDirty _).wp h₉ fun _ s₁ h₁ => ?_
          refine (neutral_getField i _).wp h₁ fun links s₂ h₂ => ?_
          refine (neutral_setField i _ _).wp h₂ fun _ s₃ h₃ => ?_
          refine (neutral_dirtyInode i).wp h₃ fun _ s₄ h₄ => ?_
          refine (neutral_getField i _).wp h₄ fun links s₅ h₅ => ⟨fun _ => ?_, fun _ => ?_⟩
          · refine (neutral_inodeTruncate i).wp h₅ fun _ s₆ h₆ => ?_
            exact (neutral_ifree _ _).wp h₆ fun _ s₇ h₇ => wp_rollback h₇.toLedger
          · exact wp_rollback h₅.toLedger

theorem wp_countLoop {n k off count : ℕ} (buf : Option BufRef) {m : Fs}
    (h : Within m s₀ held (buf.toList ++ bufs) s) :
    wp (fun _ => True) (countLoop i n k buf off count)
      (fun _ s' => Within m s₀ held bufs s') s := by
  induction n generalizing k off count buf s with
  | zero =>
      unfold countLoop
      rw [wp_bind]
      exact wp_brelse_option h fun s₁ h₁ => (wp_pure _).mpr h₁
  | succ n ih =>
      unfold countLoop
      rw [wp_bind]
      refine wp_mono (wp_entryBlock h) fun r s₁ h₁ => ?_
      rw [wp_bind]
      exact (neutral_getU16 _ _ _).wp h₁ fun nr s₂ h₂ => ih _ h₂

theorem neutral_isEmpty (i : ℕ) : Neutral (isEmpty i) := by
  refine (neutral_getField i _).bind fun mode => (neutral_check _).bind fun _ => ?_
  refine (neutral_getField i _).bind fun size => (neutral_getField i _).bind fun zone => ?_
  refine .ite (neutral_pure _) (.bind ?_ fun count => neutral_pure _)
  exact fun m s₀ held bufs s h => wp_countLoop none h

/-- The number of an inode that was not in core before is cleared. -/
theorem wp_clearNr {Q : Unit → Fs → Prop} (h : Ledger s₀ held bufs s)
    (hi : (s₀.inodes i).count = 0) (hQ : ∀ s', Ledger s₀ held bufs s' → Q () s') :
    wp (fun _ => True) (modifyInode i fun inode => { inode with nr := 0 }) Q s := by
  unfold modifyInode
  rw [wp_modify]
  have hslot : ∀ j, (s.setInode i { s.inodes i with nr := 0 }).inodes j =
      { s.inodes j with nr := if j = i then 0 else (s.inodes j).nr } := by
    intro j
    unfold Fs.setInode
    by_cases hj : j = i
    · simp [hj]
    · simp [hj]
  refine hQ _ (h.renumber (fun j => ?_) (fun j => ?_) (fun j => ?_) (fun j => ?_) (fun j => ?_)
    (fun j hj => ?_) (fun j hj => ?_) rfl rfl rfl fun b => rfl)
  all_goals rw [hslot] at *
  · change (if j = i then 0 else _) = _
    rw [if_neg]
    rintro rfl
    exact hj hi
  · change (if j = i then 0 else _) = 1 at hj
    split at hj
    · cases hj
    · exact hj

theorem wp_rmdirEnd {ret : Ret} {e : Found} (h : Ledger s₀ [i, dir] [e.buf] s) :
    wp (fun _ => True) (sysRmdir.rmdirEnd ret i dir e) (fun _ s' => Ledger s₀ [] [] s') s := by
  unfold sysRmdir.rmdirEnd
  simp only [wp_bind]
  refine wp_iput h fun s₁ h₁ => wp_iput h₁ fun s₂ h₂ => ?_
  exact wp_brelse h₂.within fun s₃ h₃ => (wp_pure ret).mpr h₃.toLedger

theorem wp_sysRmdir {path : Path} (h : Ledger s₀ [] [] s) :
    wp (fun _ => True) (sysRmdir path) (fun _ s' => Ledger s₀ [] [] s') s := by
  unfold sysRmdir
  rw [wp_bind]
  refine wp_mono (wp_named h (by decide)) fun r s₁ h₁ => ?_
  cases r with
  | none => exact wp_rollback h₁
  | some found =>
      obtain ⟨dir, name⟩ := found
      have h₁' : Ledger s₀ [dir] [] s₁ := h₁
      simp only [wp_ite, wp_bind]
      refine ⟨fun _ => wp_rollback h₁', fun _ => ?_⟩
      refine (neutral_permission dir P_WRITE).wp h₁'.within fun may s₂ h₂ => ?_
      refine ⟨fun _ => wp_rollback h₂.toLedger, fun _ => ?_⟩
      refine wp_mono (wp_findEntry h₂.toLedger (by decide)) ?_
      rintro ⟨d, found⟩ s₃ ⟨⟨h₃, -⟩, -⟩
      cases found with
      | none => exact wp_rollback h₃
      | some e =>
          have h₃' : Ledger s₀ [d] [e.buf] s₃ := h₃
          simp only [wp_bind, wp_gets, wp_ite]
          refine (neutral_entryNr e).wp h₃'.within fun nr s₄ h₄ => ?_
          refine wp_iget h₄.toLedger (h₃.dev List.mem_cons_self) (by simp) fun i s₅ h₅ => ?_
          refine (neutral_getField i _).wp h₅.within fun mode s₆ h₆ => ?_
          refine ⟨fun _ => wp_rmdirEnd h₆.toLedger, fun _ => ?_⟩
          refine (neutral_getField d _).wp h₆ fun mode s₇ h₇ => ?_
          refine (neutral_getField i _).wp h₇ fun uid s₈ h₈ => ?_
          refine ⟨fun _ => wp_rmdirEnd h₈.toLedger, fun _ => ?_⟩
          refine ⟨fun _ => wp_rmdirEnd h₈.toLedger, fun hone => ?_⟩
          -- nothing but this call refers to the directory that goes
          have hnew : (s₀.inodes i).count = 0 := by
            have hcount := h₈.count i
            rw [List.count_cons_self] at hcount
            have hle : ¬1 < (s₈.inodes i).count := fun hlt => hone (.inr hlt)
            omega
          refine (neutral_isEmpty i).wp h₈ fun empty s₉ h₉ => ?_
          refine ⟨fun _ => wp_rmdirEnd h₉.toLedger, fun _ => ?_⟩
          refine (neutral_getField i _).wp h₉ fun links s₁ h₁ => ?_
          rw [wp_check]
          intro _
          refine (neutral_inodeTruncate i).wp h₁ fun _ s₂ h₂ => ?_
          refine (neutral_ifree _ _).wp h₂ fun _ s₃ h₃ => ?_
          refine (neutral_setField i _ _).wp h₃ fun _ s₄ h₄ => ?_
          refine (neutral_dirtyInode i).wp h₄ fun _ s₅ h₅ => ?_
          refine wp_clearNr h₅.toLedger hnew fun s₆ h₆ => ?_
          refine (neutral_getField d _).wp h₆.within fun links s₇ h₇ => ?_
          refine (neutral_setField d _ _).wp h₇ fun _ s₈ h₈ => ?_
          refine (neutral_setField d _ _).wp h₈ fun _ s₉ h₉ => ?_
          refine (neutral_setAtime d).wp h₉ fun _ s₁ h₁ => ?_
          refine (neutral_setCtime d _).wp h₁ fun _ s₂ h₂ => ?_
          refine (neutral_dirtyInode d).wp h₂ fun _ s₃ h₃ => ?_
          refine (neutral_getField d _).wp h₃ fun links s₄ h₄ => ?_
          rw [wp_check]
          intro _
          refine (neutral_setEntryNr e 0).wp h₄ fun _ s₅ h₅ => ?_
          exact (neutral_setDirty _).wp h₅ fun _ s₆ h₆ => wp_rmdirEnd h₆.toLedger

/-! ## The calls that work on one inode -/

theorem neutral_copyStat (i : ℕ) : Neutral (copyStat i) := by
  refine (neutral_gets _).bind fun inode => (neutral_getField i _).bind fun mode => ?_
  refine (neutral_getField i _).bind fun nlinks => (neutral_getField i _).bind fun uid => ?_
  refine (neutral_getField i _).bind fun gid => (neutral_getField i _).bind fun rdev => ?_
  refine (neutral_getField i _).bind fun size => (neutral_getField i _).bind fun mtime => ?_
  exact neutral_pure _

theorem wp_sysStat {path : Path} (h : Ledger s₀ [] [] s) :
    wp (fun _ => True) (sysStat path) (fun _ s' => Ledger s₀ [] [] s') s := by
  unfold sysStat
  rw [wp_bind]
  refine wp_mono (wp_namei h (by decide)) fun r s₁ h₁ => ?_
  cases r with
  | none => exact (wp_pure none).mpr h₁
  | some i =>
      have h₁' : Ledger s₀ [i] [] s₁ := h₁
      simp only [wp_bind]
      refine (neutral_copyStat i).wp h₁'.within fun stat s₂ h₂ => ?_
      exact wp_iput h₂.toLedger fun s₃ h₃ => (wp_pure _).mpr h₃

/-- The task gives a reference of its own back, while it holds `held`. -/
theorem Ledger.conserved_put (h : Ledger s₀ held [] s) (hi : InCore s i)
    (hmoves : Moves s (fun j => if j = i then (s.inodes i).count - 1 else (s.inodes j).count) s') :
    Conserved s₀ held [i] s' := by
  refine ⟨fun j => ?_, fun b => ?_⟩
  · have hcount := h.count j
    have hpos := hi.1
    rw [hmoves.count, List.count_singleton]
    by_cases hj : j = i
    · rw [if_pos hj, if_pos (by simp [hj]), ← hj]
      rw [← hj] at hpos
      omega
    · rw [if_neg hj, if_neg (by simpa using Ne.symm hj)]
      omega
  · have hrefs := h.refs b
    have hmove := hmoves.refs b
    rw [List.count_nil] at hrefs
    omega

/-- What a call returns that makes a directory a place of the task: `place` is `iroot` or
`ipwd`. -/
def Entered (place : Task → ℕ) (s : Fs) (ret : Ret) (s' : Fs) : Prop :=
  match ret with
  | .ok => Conserved s [place s'.task] [place s.task] s'
  | .eof => Conserved s [] [] s'

/-- The old place is given back, with the new one in hand. -/
theorem wp_leave {old : ℕ} (place : Task → ℕ) (f : Task → Task)
    (hplace : ∀ task, place (f task) = i) (hold : place s₀.task = old) (hcore : InCore s₀ old)
    (h : Ledger s₀ [i] [] s) :
    wp (fun _ => True) (do
      iput (some old)
      modify fun s => { s with task := f s.task }
      return .ok) (Entered place s₀) s := by
  have hlt := h.lt old
  have hcore' := h.inCore hcore
  rw [wp_bind]
  refine wp_mono (wp_iput_moves h.sound hcore' (by omega)) ?_
  rintro _ s₁ ⟨-, hmoves⟩
  have hconserved := h.conserved_put hcore' hmoves
  rw [wp_bind, wp_modify]
  refine (wp_pure _).mpr ?_
  unfold Entered
  simp only [hplace, hold]
  exact ⟨hconserved.count, hconserved.refs⟩

theorem wp_sysChdir {path : Path} (h : WellFormed s) :
    wp (fun _ => True) (sysChdir path) (Entered Task.ipwd s) s := by
  unfold sysChdir
  rw [wp_bind]
  refine wp_mono (wp_namei h.ledger (by decide)) fun r s₁ h₁ => ?_
  cases r with
  | none => exact wp_rollback_then h₁ fun s' h' => h'.conserved
  | some i =>
      have h₁' : Ledger s [i] [] s₁ := h₁
      simp only [wp_bind, wp_gets, wp_ite]
      refine (neutral_getField i _).wp h₁'.within fun mode s₂ h₂ => ?_
      refine ⟨fun _ => wp_rollback_then h₂.toLedger fun s' h' => h'.conserved, fun _ => ?_⟩
      rw [wp_lift]
      intro pwd _
      rw [wp_modify]
      have h₃ : Ledger s [i] [] { s₂ with task := { s₂.task with pwd := pwd } } :=
        h₂.toLedger.quiet ⟨fun _ => rfl, fun _ => rfl, rfl, rfl, rfl⟩ fun _ => rfl
      have hleave := wp_leave Task.ipwd (fun task => { task with ipwd := i }) (fun _ => rfl)
        h₁'.ipwd.symm (h₁'.ipwd.symm ▸ h.pwd) h₃
      simpa only [wp_bind, wp_modify] using hleave

theorem wp_sysChroot {path : Path} (h : WellFormed s) :
    wp (fun _ => True) (sysChroot path) (Entered Task.iroot s) s := by
  unfold sysChroot
  rw [wp_bind]
  refine wp_mono (wp_namei h.ledger (by decide)) fun r s₁ h₁ => ?_
  cases r with
  | none => exact wp_rollback_then h₁ fun s' h' => h'.conserved
  | some i =>
      have h₁' : Ledger s [i] [] s₁ := h₁
      simp only [wp_bind, wp_gets, wp_ite]
      refine (neutral_getField i _).wp h₁'.within fun mode s₂ h₂ => ?_
      refine ⟨fun _ => wp_rollback_then h₂.toLedger fun s' h' => h'.conserved, fun _ => ?_⟩
      have hleave := wp_leave Task.iroot (fun task => { task with iroot := i }) (fun _ => rfl)
        h₁'.iroot.symm (h₁'.iroot.symm ▸ h.root) h₂.toLedger
      simpa only [wp_bind, wp_modify] using hleave

/-- The path system calls, run alone, return with every reference that they took given
back, up to those that they are asked to take. -/
theorem path_calls_conserve (h : WellFormed s) :
    (∀ path, wp (fun _ => True) (sysStat path) (fun _ => Conserved s [] []) s) ∧
      (∀ path mode, wp (fun _ => True) (sysMkdir path mode) (fun _ => Conserved s [] []) s) ∧
      (∀ path, wp (fun _ => True) (sysRmdir path) (fun _ => Conserved s [] []) s) ∧
      (∀ old new, wp (fun _ => True) (sysLink old new) (fun _ => Conserved s [] []) s) ∧
      (∀ path, wp (fun _ => True) (sysUnlink path) (fun _ => Conserved s [] []) s) ∧
      (∀ path mode dev,
        wp (fun _ => True) (sysMknod path mode dev) (fun _ => Conserved s [] []) s) ∧
      (∀ path flag mode,
        wp (fun _ => True) (inodeOpen path flag mode) (fun r => Conserved s r.toList []) s) ∧
      (∀ path, wp (fun _ => True) (sysChdir path) (Entered Task.ipwd s) s) ∧
      ∀ path, wp (fun _ => True) (sysChroot path) (Entered Task.iroot s) s := by
  refine ⟨fun _ => ?_, fun _ _ => ?_, fun _ => ?_, fun _ _ => ?_, fun _ => ?_, fun _ _ _ => ?_,
    fun _ _ _ => ?_, fun _ => wp_sysChdir h, fun _ => wp_sysChroot h⟩
  · exact wp_mono (wp_sysStat h.ledger) fun _ _ hs => hs.conserved
  · exact wp_mono (wp_sysMkdir h.ledger) fun _ _ hs => hs.conserved
  · exact wp_mono (wp_sysRmdir h.ledger) fun _ _ hs => hs.conserved
  · exact wp_mono (wp_sysLink h.ledger) fun _ _ hs => hs.conserved
  · exact wp_mono (wp_sysUnlink h.ledger) fun _ _ hs => hs.conserved
  · exact wp_mono (wp_sysMknod h.ledger) fun _ _ hs => hs.conserved
  · exact wp_mono (wp_inodeOpen h.ledger) fun _ _ hs => hs.conserved

/-- The root file system on device 1, and nothing else in core. -/
def rooted : Fs where
  img _ _ _ := 0
  disk _ _ _ := 0
  dirty _ := false
  refs b := if b = ⟨1, 4⟩ then 1 else 0
  inodes i := if i = 0 then ⟨1, 1, 4, 0, ⟨1, 4⟩, 0, false, 0, 0⟩
    else ⟨NODEV, 0, 0, 0, ⟨0, 0⟩, 0, false, 0, 0⟩
  supers k := if k = 0 then ⟨⟨1, 1⟩, fun _ => none, fun _ => none, 1, 1, [0], some 0, some 0⟩
    else ⟨⟨0, 0⟩, fun _ => none, fun _ => none, NODEV, 0, [], none, none⟩
  task := ⟨0, 0, 0, 0, 0, [47]⟩
  now := 0
  sectors _ := 0

theorem rooted_slot {i : ℕ} (hi : (rooted.inodes i).count ≠ 0) : i = 0 := by
  by_contra h
  exact hi (by simp [rooted, h])

theorem rooted_super {k : ℕ} (hk : (rooted.supers k).dev ≠ NODEV) : k = 0 := by
  by_contra h
  exact hk (by simp [rooted, h])

theorem rooted_wellFormed : WellFormed rooted := by
  have hroot : InCore rooted 0 := ⟨by decide, rfl⟩
  refine ⟨⟨fun i hi => ?_, fun i hi => ?_, fun i hi => ?_, fun k => ?_, fun k i hi => ?_⟩,
    fun i hi => ?_, fun i => ?_, fun k i hk hi => ?_, fun k i hk hi => ?_,
    fun k i hk hi _ l hl => ?_, hroot, hroot⟩
  · rw [rooted_slot hi]
    decide
  · by_cases h : i = 0
    · subst h
      cases hi
    · simp [rooted, h]
  · rw [rooted_slot hi]
    decide
  · by_cases h : k = 0 <;> simp [rooted, h]
  · by_cases h : k = 0
    · obtain rfl : i = 0 := by simpa [rooted, h] using hi
      exact hroot
    · simp [rooted, h] at hi
  · by_cases h : i = 0
    · subst h
      cases hi
    · simp [rooted, h]
  · by_cases h : i = 0 <;> simp [rooted, h]
  · rw [rooted_super hk] at hi
    cases hi
    exact hroot
  · rw [rooted_super hk] at hi
    cases hi
    exact hroot
  · rw [rooted_super hk] at hi
    cases hi
    by_cases h : l = 0
    · rw [h]
      rfl
    · simp [rooted, h, NODEV] at hl

/-- Opening `/` takes one reference to the root. -/
theorem rooted_opened : ∃ s' l, (inodeOpen [47] 0 0).run rooted = .ok (some 0, s', l) ∧
    Conserved rooted [0] [] s' :=
  ⟨_, _, rfl, (path_calls_conserve rooted_wellFormed).2.2.2.2.2.2.1 [47] 0 0 _ _ _ rfl
    fun _ _ => trivial⟩

end Ylos.Refs
