import Ylos.Verification.Fs.Equations
import Ylos.Verification.Refs.Neutral

/-! # `iget` and `iput` -/

namespace Ylos.Refs

open Exec

variable {s₀ s s' : Fs} {held : List ℕ} {bufs : List BufRef} {i nr : ℕ} {dev : ℤ}

theorem wp_theSuper_first {Q : ℕ → Fs → Prop}
    (hQ : ∀ sb, (List.range SUPER_NR).find? (fun i => (s.supers i).dev = dev) = some sb →
      Q sb s) : wp (fun _ => True) (theSuper dev) Q s := by
  unfold theSuper getSuper
  rw [wp_bind, wp_gets]
  cases hfind : (List.range SUPER_NR).find? fun i => (s.supers i).dev = dev with
  | none => exact wp_fault _
  | some sb => exact (wp_pure sb).mpr (hQ sb hfind)

theorem wp_theSuper {Q : ℕ → Fs → Prop}
    (hQ : ∀ sb, (s.supers sb).dev = dev → Q sb s) : wp (fun _ => True) (theSuper dev) Q s :=
  wp_theSuper_first fun sb hsb => hQ sb (by simpa using List.find?_some hsb)

theorem wp_bwrite {Q : Unit → Fs → Prop} {b : BufRef}
    (hQ : ∀ s', OnlyIo s s' → s'.refs = s.refs → Q () s') :
    wp (fun _ => True) (bwrite b) Q s := by
  obtain ⟨s₁, hrun, -, hio, hrefs⟩ := run_bwrite b s
  rintro _ _ _ hrun' -
  rw [hrun] at hrun'
  cases hrun'
  exact hQ s₁ hio hrefs

/-! ## `iput` -/

/-- Only the count of slot `i` has changed, to `n`. -/
structure Recounted (s : Fs) (i n : ℕ) (s' : Fs) : Prop where
  inodes : ∀ j, s'.inodes j = if j = i then { s.inodes i with count := n } else s.inodes j
  supers : s'.supers = s.supers
  task : s'.task = s.task
  refs : s'.refs = s.refs

theorem wp_incCount {Q : Unit → Fs → Prop} (hlt : (s.inodes i).count + 1 < 2 ^ 32)
    (hQ : ∀ s', Recounted s i ((s.inodes i).count + 1) s' → Q () s') :
    wp (fun _ => True) (incCount i) Q s := by
  unfold incCount modifyInode
  rw [wp_modify]
  have hinc : u32 ((s.inodes i).count + 1) = (s.inodes i).count + 1 := Nat.mod_eq_of_lt hlt
  refine hQ _ ⟨fun j => ?_, rfl, rfl, rfl⟩
  rw [← hinc]
  rfl

theorem wp_decCount {Q : Unit → Fs → Prop} (hpos : (s.inodes i).count ≠ 0)
    (hlt : (s.inodes i).count < 2 ^ 32)
    (hQ : ∀ s', Recounted s i ((s.inodes i).count - 1) s' → Q () s') :
    wp (fun _ => True) (decCount i) Q s := by
  unfold decCount modifyInode
  rw [wp_modify]
  have hdec : u32 ((s.inodes i).count + 2 ^ 32 - 1) = (s.inodes i).count - 1 := by
    unfold u32
    omega
  refine hQ _ ⟨fun j => ?_, rfl, rfl, rfl⟩
  rw [← hdec]
  rfl

/-- The end of `iput`, for the last reference. -/
theorem wp_iput_last (h : Sound s) (hi : InCore s i) {s₁ : Fs} (h₁ : Recounted s i 0 s₁) :
    wp (fun _ => True) (do
      brelse (some (s.inodes i).buf)
      unlinkInode i
      putFreeInode i) (fun _ s' => Sound s' ∧
        Moves s (fun j => if j = i then 0 else (s.inodes j).count) s') s₁ := by
  unfold brelse addRef unlinkInode putFreeInode modifyInode
  simp only [wp_bind]
  refine wp_bwrite fun s₂ hio hrefs => ?_
  simp only [wp_modify, wp_gets, wp_check]
  intro _ _ _ _
  refine h.retire hi (fun j => ?_) (fun k => ?_) ?_ fun b => ?_
  · change (if j = i then { s₂.inodes i with dev := NODEV } else s₂.inodes j) = _
    rw [hio.inodes, h₁.inodes, h₁.inodes, if_pos rfl]
    split <;> rfl
  · change { s₂.supers k with inodeList := (s₂.supers k).inodeList.erase i } = _
    rw [hio.supers, h₁.supers]
  · exact hio.task.trans h₁.task
  · change (if b = _ then s₂.refs b + -1 else s₂.refs b) = _
    rw [hrefs, h₁.refs]
    rfl

/-- `iput` gives back one reference, in any state. -/
theorem wp_iput_moves (h : Sound s) (hi : InCore s i) (hlt : (s.inodes i).count < 2 ^ 32) :
    wp (fun _ => True) (iput (some i)) (fun _ s' => Sound s' ∧
      Moves s (fun j => if j = i then (s.inodes i).count - 1 else (s.inodes j).count) s') s := by
  have hpos := hi.1
  -- what is left to do once the buffer is written
  have hrest : ∀ s₁ : Fs, OnlyIo s s₁ → s₁.refs = s.refs → wp (fun _ => True) (do
        decCount i
        if (← gets (·.inodes i)).count ≠ 0 then return
        brelse (some (s.inodes i).buf)
        unlinkInode i
        putFreeInode i) (fun _ s' => Sound s' ∧
      Moves s (fun j => if j = i then (s.inodes i).count - 1 else (s.inodes j).count) s') s₁ := by
    intro s₁ hio hrefs
    rw [wp_bind]
    refine wp_decCount (by rwa [hio.inodes]) (by rwa [hio.inodes]) fun s₂ h₂ => ?_
    rw [hio.inodes] at h₂
    have h₂' : Recounted s i ((s.inodes i).count - 1) s₂ :=
      ⟨hio.inodes ▸ h₂.inodes, h₂.supers.trans hio.supers, h₂.task.trans hio.task,
        h₂.refs.trans hrefs⟩
    rw [wp_bind, wp_gets, h₂'.inodes, if_pos rfl, wp_ite]
    constructor
    · intro hmore
      exact (wp_pure _).mpr
        (h.recount hpos hmore h₂'.inodes h₂'.supers h₂'.task h₂'.refs)
    · intro hlast
      obtain hone : (s.inodes i).count - 1 = 0 := not_not.mp hlast
      rw [hone] at h₂' ⊢
      exact wp_iput_last h hi h₂'
  unfold iput
  rw [wp_bind, wp_gets, hi.2, wp_ite]
  refine ⟨nofun, fun _ => ?_⟩
  rw [wp_bind, wp_gets, wp_bind, wp_gets, wp_ite]
  constructor
  · intro _
    rw [wp_bind]
    exact wp_bwrite hrest
  · intro _
    exact hrest s (OnlyIo.refl s) rfl

theorem wp_iput {Q : Unit → Fs → Prop} (h : Ledger s₀ (i :: held) bufs s)
    (hQ : ∀ s', Ledger s₀ held bufs s' → Q () s') : wp (fun _ => True) (iput (some i)) Q s := by
  have hlt := h.lt i
  refine wp_mono (wp_iput_moves h.sound (h.inCore_of_mem List.mem_cons_self) (by omega)) ?_
  rintro _ s' ⟨hsound, hmoves⟩
  exact hQ s' (h.put hsound hmoves)

/-- `iput` of an inode that may be missing. -/
theorem wp_iput_option {Q : Unit → Fs → Prop} {o : Option ℕ}
    (h : Ledger s₀ (o.toList ++ held) bufs s) (hQ : ∀ s', Ledger s₀ held bufs s' → Q () s') :
    wp (fun _ => True) (iput o) Q s := by
  cases o with
  | none => exact (wp_pure ()).mpr (hQ s h)
  | some i => exact wp_iput h hQ

/-! ## `iget` -/

theorem wp_incCount_ledger {Q : Unit → Fs → Prop} (h : Ledger s₀ held bufs s) (hi : InCore s i)
    (hfew : held.length < 8) (hQ : ∀ s', Ledger s₀ (i :: held) bufs s' → Q () s') :
    wp (fun _ => True) (incCount i) Q s := by
  have hlt := h.lt i
  refine wp_incCount (by omega) fun s' hs' => hQ s' ?_
  obtain ⟨hsound, hmoves⟩ := h.sound.recount hi.1 (Nat.succ_ne_zero _) hs'.inodes hs'.supers
    hs'.task hs'.refs
  refine h.take hsound hmoves ?_ hfew
  rw [hs'.inodes, if_pos rfl]
  exact hi.2

/-- The super block of a device keeps its roots in core. -/
theorem Ledger.mounted {sb : ℕ} (h : Ledger s₀ held bufs s) (hdev : (s.supers sb).dev ≠ NODEV)
    (hi : (s.supers sb).iroot = some i ∨ (s.supers sb).imount = some i) : InCore s i := by
  have hsame := h.mounting sb
  have hdev₀ : (s₀.supers sb).dev ≠ NODEV := by
    rwa [← show (s.supers sb).dev = (s₀.supers sb).dev from congrArg (·.1) hsame]
  rcases hi with hi | hi
  · exact h.inCore (h.start.iroot sb i hdev₀ ((congrArg (·.2.1) hsame).symm.trans hi))
  · exact h.inCore (h.start.imount sb i hdev₀ ((congrArg (·.2.2) hsame).symm.trans hi))

theorem wp_fitInode {Q : ℕ → Fs → Prop} (h : Ledger s₀ (i :: held) bufs s)
    (hQ : ∀ r s', Ledger s₀ (r :: held) bufs s' → Q r s') :
    wp (fun _ => True) (fitInode i) Q s := by
  have hi := h.inCore_of_mem List.mem_cons_self
  have hfew := h.few
  rw [List.length_cons] at hfew
  unfold fitInode
  rw [wp_bind, wp_gets, wp_ite]
  refine ⟨fun _ => (wp_pure i).mpr (hQ i s h), fun _ => ?_⟩
  rw [wp_bind]
  refine wp_theSuper fun sb hsb => ?_
  have hmount := (h.sound.used i hi.1).2
  rw [wp_bind]
  refine wp_iput h fun s₁ h₁ => ?_
  rw [wp_bind, wp_gets, wp_bind, wp_deref]
  intro root hroot
  have hdev : (s₁.supers sb).dev = (s.supers sb).dev :=
    congrArg (·.1) ((h₁.mounting sb).trans (h.mounting sb).symm)
  rw [wp_bind]
  refine wp_incCount_ledger h₁ (h₁.mounted (by rwa [hdev, hsb]) (.inl hroot)) (by omega) ?_
  exact fun s₂ h₂ => (wp_pure root).mpr (hQ root s₂ h₂)

theorem wp_getFreeInode {Q : ℕ → Fs → Prop} (h : Sound s)
    (hQ : ∀ i, i < INODE_NR → (s.inodes i).count = 0 → Q i s) :
    wp (fun _ => True) getFreeInode Q s := by
  unfold getFreeInode
  rw [wp_bind, wp_gets]
  cases hfind : (List.range INODE_NR).find? fun i => (s.inodes i).dev = NODEV with
  | none => exact wp_fault _
  | some i =>
      have hdev : (s.inodes i).dev = NODEV := by simpa using List.find?_some hfind
      have hlt := List.mem_range.mp (List.mem_of_find?_eq_some hfind)
      refine (wp_pure i).mpr (hQ i hlt ?_)
      by_contra hused
      exact (h.used i hused).1 hdev

/-- The part of `iget` that reads the inode into a free slot, but for the times. -/
theorem wp_readInode {Q : ℕ → Fs → Prop} {sb block slot : ℕ} (h : Sound s) (hdev : dev ≠ NODEV)
    (hlt : i < INODE_NR) (hfree : (s.inodes i).count = 0) (hmount : (s.inodes i).mount ≠ NODEV)
    (hsb : (s.supers sb).dev = dev)
    (hnr : ∀ j ∈ (s.supers sb).inodeList, (s.inodes j).nr ≠ nr)
    (hQ : ∀ s', Sound s' → Moves s (fun j => if j = i then 1 else (s.inodes j).count) s' →
      (s'.inodes i).pipe = false → (s'.inodes i).nr = nr → i ∈ (s'.supers sb).inodeList →
      wp (fun _ => True) (do
        setCtime i (← getField i .mtime)
        setAtime i
        return i) Q s') :
    wp (fun _ => True) (do
      modifyInode i fun inode => { inode with dev := dev, nr := nr, count := u32 (inode.count + 1) }
      modify fun s => s.setSuper sb { s.supers sb with inodeList := i :: (s.supers sb).inodeList }
      let buf ← bread dev block
      modifyInode i fun inode => { inode with buf := buf, slot := slot }
      setCtime i (← getField i .mtime)
      setAtime i
      return i) Q s := by
  unfold modifyInode bread addRef
  rw [wp_bind, wp_modify, wp_bind, wp_modify, wp_bind, wp_bind, wp_modify, wp_pure, wp_bind,
    wp_modify]
  generalize hs' : Fs.setInode (Fs.mk _ _ _ _ _ _ _ _ _) i _ = s'
  have hself : (s'.inodes i).count = 1 ∧ (s'.inodes i).dev = dev ∧
      (s'.inodes i).mount = (s.inodes i).mount ∧ (s'.inodes i).pipe = (s.inodes i).pipe ∧
      (s'.inodes i).buf = ⟨dev, block⟩ ∧ (s'.inodes i).nr = nr := by
    rw [← hs']
    simp [Fs.setInode, Fs.setSuper, hfree, u32]
  obtain ⟨hcount, hdev', hmount', hpipe, hbuf, hnr'⟩ := hself
  have hpipe' := hpipe.trans (h.free i hfree).2
  have hinodes : ∀ j, s'.inodes j = if j = i then s'.inodes i else s.inodes j := by
    intro j
    by_cases hj : j = i
    · rw [if_pos hj, hj]
    · rw [if_neg hj, ← hs']
      simp [Fs.setInode, Fs.setSuper, hj]
  obtain ⟨hsound, hmoves⟩ := h.enter (m := sb) hfree hlt hcount (hdev'.symm ▸ hdev) hmount' hpipe'
    hmount (hsb.trans hdev'.symm) (fun hone => (hnr'.symm.trans hone) ▸ hnr) hinodes
    (fun k => by rw [← hs']; rfl) (by rw [← hs']; rfl) fun b => by rw [hbuf, ← hs']; rfl
  refine hQ s' hsound hmoves hpipe' hnr' ?_
  rw [← hs']
  simp [Fs.setInode, Fs.setSuper]

/-- The part of `iget` that reads the inode into a free slot. -/
theorem wp_iget_new {Q : ℕ → Fs → Prop} {sb block slot : ℕ} (h : Ledger s₀ held bufs s)
    (hdev : dev ≠ NODEV) (hlt : i < INODE_NR) (hfree : (s.inodes i).count = 0)
    (hsb : (s.supers sb).dev = dev)
    (hnr : ∀ j ∈ (s.supers sb).inodeList, (s.inodes j).nr ≠ nr)
    (hfew : held.length < 8) (hQ : ∀ s', Ledger s₀ (i :: held) bufs s' → Q i s') :
    wp (fun _ => True) (do
      modifyInode i fun inode => { inode with dev := dev, nr := nr, count := u32 (inode.count + 1) }
      modify fun s => s.setSuper sb { s.supers sb with inodeList := i :: (s.supers sb).inodeList }
      let buf ← bread dev block
      modifyInode i fun inode => { inode with buf := buf, slot := slot }
      setCtime i (← getField i .mtime)
      setAtime i
      return i) Q s := by
  have hmount : (s.inodes i).mount = 0 := by
    have hcount := h.count i
    exact h.new i (by omega)
  refine wp_readInode h.sound hdev hlt hfree (by rw [hmount]; decide) hsb hnr ?_
  intro s' hsound hmoves hpipe _ _
  have h' : Ledger s₀ (i :: held) bufs s' :=
    h.take hsound (by rw [hfree]; exact hmoves) hpipe hfew
  rw [wp_bind]
  refine (neutral_getField i .mtime).wp h'.within fun ctime s₁ h₁ => ?_
  rw [wp_bind]
  refine (neutral_setCtime i ctime).wp h₁ fun _ s₂ h₂ => ?_
  rw [wp_bind]
  exact (neutral_setAtime i).wp h₂ fun _ s₃ h₃ => (wp_pure i).mpr (hQ s₃ h₃.toLedger)

theorem wp_iget {Q : ℕ → Fs → Prop} (h : Ledger s₀ held bufs s) (hdev : dev ≠ NODEV)
    (hfew : held.length < 8) (hQ : ∀ i s', Ledger s₀ (i :: held) bufs s' → Q i s') :
    wp (fun _ => True) (iget dev nr) Q s := by
  unfold iget findInode
  rw [wp_bind, wp_bind]
  refine wp_theSuper_first fun sb hsb => ?_
  have hdev' : (s.supers sb).dev = dev := by simpa using List.find?_some hsb
  rw [wp_gets]
  cases hfind : (s.supers sb).inodeList.find? fun i => (s.inodes i).nr = nr with
  | some i =>
      have hi := h.sound.listed sb i (List.mem_of_find?_eq_some hfind)
      rw [wp_bind]
      refine wp_incCount_ledger h hi hfew fun s₁ h₁ => ?_
      rw [wp_bind]
      exact (neutral_setAtime i).wp h₁.within fun _ s₂ h₂ => wp_fitInode h₂.toLedger hQ
  | none =>
      rw [wp_bind]
      refine wp_of_run (run_theSuper hsb) ?_
      rw [wp_bind, wp_gets, wp_bind, wp_check]
      intro _
      rw [wp_bind]
      refine wp_getFreeInode h.sound fun i hlt hfree => ?_
      refine wp_iget_new h hdev hlt hfree hdev' (fun j hj => ?_) hfew (hQ i)
      simpa using List.find?_eq_none.mp hfind j hj

end Ylos.Refs
