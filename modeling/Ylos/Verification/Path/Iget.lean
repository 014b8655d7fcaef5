import Ylos.Verification.Path.Walk

/-! # `iget` on a walk -/

namespace Ylos.Paths

open Exec Dir Refs

variable {s₀ s s' : Fs} {held : List (ℕ × Loc)} {bufs : List BufRef} {i : ℕ} {l : Loc} {e : Prop}

theorem meets_theSuper {Q : ℕ → Fs → Prop} {k : ℕ} {dev : ℤ} (hk : superOf s dev = some k)
    (hQ : Q k s) : Meets e (theSuper dev) Q s := meets_of_run (run_theSuper hk) hQ

/-- The root of a device is in core. -/
theorem Walk.root_core (h : Walk s₀ held bufs s) {k r : ℕ} (hdev : (s₀.supers k).dev ≠ NODEV)
    (hr : (s₀.supers k).iroot = some r) : InCore s r ∧ loc s r = loc s₀ r := by
  have hcore := h.tree.iroot k r hdev hr
  exact ⟨h.ledger.inCore hcore, h.loc_start hcore.1⟩

theorem meets_fitInode {Q : ℕ → Fs → Prop} (h : Walk s₀ ((i, l) :: held) bufs s)
    (hQ : ∀ r s', Walk s₀ ((r, crossed s₀ l) :: held) bufs s' → Q r s') :
    Meets e (fitInode i) Q s := by
  have hi : InCore s i := h.inCore List.mem_cons_self
  have hl : loc s i = l := h.locs (i, l) List.mem_cons_self
  have hfew := h.ledger.few
  rw [List.length_map, List.length_cons] at hfew
  unfold fitInode
  refine meets_bind (meets_gets (meets_ite (fun hmount => ?_) fun hmount => ?_))
  · have hcross := h.crossed_self hi hmount
    rw [hl] at hcross
    exact meets_pure (hQ i s (by rwa [hcross]))
  · obtain ⟨hcore, hsame⟩ := h.mount_start i hmount
    obtain ⟨⟨k, hk, ⟨r, hr, hroot⟩, -⟩, -⟩ := h.tree.mounted i (hsame ▸ hmount)
    have hdev : (s₀.supers k).dev ≠ NODEV := by
      rw [superOf_dev hk]
      exact (h.tree.sound.used i hcore.1).2
    have hcross := h.crossed_mount hi hmount
    rw [hl, hsame, ← hroot] at hcross
    refine meets_bind (meets_theSuper (k := k) (by rw [hsame, h.superOf, hk]) ?_)
    refine meets_bind (meets_iput h fun s₁ h₁ => meets_bind (meets_gets ?_))
    have hr₁ : (s₁.supers k).iroot = some r :=
      (congrArg (·.2.1) (h₁.ledger.mounting k)).trans hr
    obtain ⟨hcore₁, hloc₁⟩ := h₁.root_core hdev hr
    rw [hr₁]
    refine meets_bind (meets_pure (meets_bind ?_))
    refine meets_incCount h₁ hcore₁ (by omega) fun s₂ h₂ => meets_pure (hQ r s₂ ?_)
    rwa [hloc₁, ← hcross] at h₂

/-- The free slots of `inode_table`. -/
def freeSlots (s : Fs) : Finset ℕ := (Finset.range INODE_NR).filter fun i => (s.inodes i).count = 0

/-- A walk takes at most as many slots as it holds inodes. -/
theorem Walk.room (h : Walk s₀ held bufs s) (hroom : held.length < (freeSlots s₀).card) :
    (freeSlots s).Nonempty := by
  by_contra hnone
  rw [Finset.not_nonempty_iff_eq_empty] at hnone
  have hsub : freeSlots s₀ ⊆ (held.map Prod.fst).toFinset := by
    intro i hi
    obtain ⟨hlt, hfree⟩ := Finset.mem_filter.mp hi
    rw [List.mem_toFinset]
    by_contra hno
    have hcount := h.ledger.count i
    rw [List.count_eq_zero_of_not_mem hno] at hcount
    exact Finset.eq_empty_iff_forall_notMem.mp hnone i
      (Finset.mem_filter.mpr ⟨hlt, by rw [hcount, hfree]⟩)
  have hle := (Finset.card_le_card hsub).trans (List.toFinset_card_le _)
  rw [List.length_map] at hle
  omega

theorem meets_getFreeInode {Q : ℕ → Fs → Prop} (h : Walk s₀ held bufs s)
    (hroom : e → held.length < (freeSlots s₀).card)
    (hQ : ∀ i, i < INODE_NR → (s.inodes i).count = 0 → Q i s) : Meets e getFreeInode Q s := by
  unfold getFreeInode
  refine meets_bind (meets_gets ?_)
  cases hfind : (List.range INODE_NR).find? fun i => (s.inodes i).dev = NODEV with
  | none =>
      refine meets_fault fun he => ?_
      obtain ⟨i, hi⟩ := h.room (hroom he)
      obtain ⟨hlt, hfree⟩ := Finset.mem_filter.mp hi
      have hno := List.find?_eq_none.mp hfind i (List.mem_range.mpr (Finset.mem_range.mp hlt))
      exact hno (decide_eq_true (h.ledger.sound.free i hfree).1)
  | some i =>
      have hdev : (s.inodes i).dev = NODEV := by simpa using List.find?_some hfind
      have hlt := List.mem_range.mp (List.mem_of_find?_eq_some hfind)
      refine meets_pure (hQ i hlt ?_)
      by_contra hused
      exact (h.ledger.sound.used i hused).1 hdev

/-- An inode that was not in core comes in. -/
theorem Walk.enter (h : Walk s₀ held bufs s) {m : ℕ} {dev : ℤ} {nr : ℕ} {v : Inode}
    (hm : Paths.superOf s₀ dev = some m) (hhosted : Hosted s₀ dev) (hnodev : dev ≠ NODEV)
    (hfree : (s.inodes i).count = 0) (hlt : i < INODE_NR) (hfew : held.length < 8)
    (habsent : ∀ j, InCore s j → loc s j ≠ (dev, nr)) (hcount : v.count = 1)
    (hmount : v.mount = (s.inodes i).mount) (hpipe : v.pipe = false)
    (hloc : (v.dev, v.nr) = (dev, nr)) (hsite : Site.mk v.dev v.buf v.slot = siteOf s₀ (dev, nr))
    (hinodes : ∀ j, s'.inodes j = if j = i then v else s.inodes j)
    (hsupers : ∀ k, s'.supers k = if k = m then
      { s.supers m with inodeList := i :: (s.supers m).inodeList } else s.supers k)
    (htask : s'.task = s.task) (himg : s'.img = s.img)
    (hrefs : ∀ b, s'.refs b = if b = v.buf then s.refs b + 1 else s.refs b) :
    Walk s₀ ((i, (dev, nr)) :: held) bufs s' := by
  have hdev : v.dev = dev := congrArg Prod.fst hloc
  have hzero : (s.inodes i).mount = 0 := by
    have hold := h.ledger.count i
    exact h.ledger.new i (by omega)
  have hm' : Paths.superOf s dev = some m := (h.superOf dev).trans hm
  have hroot : v.nr = 1 → ∀ j ∈ (s.supers m).inodeList, (s.inodes j).nr ≠ 1 := by
    intro hnr j hj hone
    refine habsent j (h.ledger.sound.listed m j hj) (Prod.ext ?_ ?_)
    · have hfirst := h.placed.listed m j hj
      rw [superOf_dev hm'] at hfirst
      exact hfirst
    · exact hone.trans (hnr.symm.trans (congrArg Prod.snd hloc))
  obtain ⟨hsound, hmoves⟩ := h.ledger.sound.enter (m := m) hfree hlt hcount (hdev ▸ hnodev) hmount
    hpipe (by rw [hzero]; decide) ((superOf_dev hm').trans hdev.symm) hroot hinodes hsupers htask
    hrefs
  refine ⟨h.tree, ?_, ?_, htask.trans h.task, fun p hp => ?_⟩
  · refine h.ledger.take hsound ?_ (by rw [hinodes, if_pos rfl, hpipe]) (by simpa using hfew)
    rw [hfree]
    exact hmoves
  · exact h.placed.enter h.ledger.sound h.dev hm hhosted hfree habsent hloc hsite hinodes hsupers
      himg
  · unfold loc
    rcases List.mem_cons.mp hp with rfl | hp
    · rw [hinodes, if_pos rfl, hloc]
    · have hpi : p.1 ≠ i := fun hpi => (h.inCore hp).1 (hpi ▸ hfree)
      rw [hinodes, if_neg hpi]
      exact h.locs p hp

/-- Only the times of a slot change. -/
theorem meets_modifyInode {Q : Unit → Fs → Prop} {f : Inode → Inode} (h : Walk s₀ held bufs s)
    (hcount : ∀ v, (f v).count = v.count) (hlabel : ∀ v, label (f v) = label v)
    (hslot : ∀ v, (f v).slot = v.slot) (hQ : ∀ s', Walk s₀ held bufs s' → Q () s') :
    Meets e (modifyInode i f) Q s := by
  unfold modifyInode
  refine meets_modify (hQ _ ?_)
  generalize hs' : s.setInode i _ = s'
  have hinodes : ∀ j, s'.inodes j = if j = i then f (s.inodes i) else s.inodes j := by
    intro j
    rw [← hs']
    rfl
  have hsame : ∀ j, label (s'.inodes j) = label (s.inodes j) ∧
      (s'.inodes j).count = (s.inodes j).count ∧ (s'.inodes j).slot = (s.inodes j).slot := by
    intro j
    rw [hinodes]
    split
    · rename_i hj
      rw [hj]
      exact ⟨hlabel _, hcount _, hslot _⟩
    · exact ⟨rfl, rfl, rfl⟩
  have hloc : ∀ j, loc s' j = loc s j := fun j =>
    congrArg (fun v : ℤ × ℕ × ℤ × BufRef × Bool => (v.1, v.2.1)) (hsame j).1
  have hcore : ∀ j, InCore s' j ↔ InCore s j := by
    intro j
    unfold InCore
    rw [(hsame j).2.1, show (s'.inodes j).pipe = (s.inodes j).pipe from
      congrArg (·.2.2.2.2) (hsame j).1]
  obtain ⟨hsupers, htask, himg, hrefs⟩ : s'.supers = s.supers ∧ s'.task = s.task ∧
      s'.img = s.img ∧ s'.refs = s.refs := by
    rw [← hs']
    exact ⟨rfl, rfl, rfl, rfl⟩
  refine ⟨h.tree, h.ledger.quiet ⟨fun j => (hsame j).2.1, fun j => (hsame j).1, hsupers,
    by rw [htask], by rw [htask]⟩ fun b => by rw [hrefs], h.placed.mono himg
    (fun k => by rw [hsupers]) (fun k => by rw [hsupers])
    (fun j hj => ⟨(hcore j).mp hj, ?_, hloc j⟩) (fun k j _ => by rw [hsupers])
    fun k j hj => ?_, htask.trans h.task, fun p hp => (hloc p.1).trans (h.locs p hp)⟩
  · unfold siteAt
    rw [(hsame j).2.2, show (s'.inodes j).dev = (s.inodes j).dev from congrArg (·.1) (hsame j).1,
      show (s'.inodes j).buf = (s.inodes j).buf from congrArg (·.2.2.2.1) (hsame j).1]
  · rw [hsupers] at hj
    exact (hcore j).mpr (h.ledger.sound.listed k j hj)

theorem meets_setAtime {Q : Unit → Fs → Prop} (h : Walk s₀ held bufs s)
    (hQ : ∀ s', Walk s₀ held bufs s' → Q () s') : Meets e (setAtime i) Q s :=
  meets_bind (meets_gets (meets_modifyInode h (fun _ => rfl) (fun _ => rfl) (fun _ => rfl) hQ))

/-- The inode with a number is the one that the list of the super block has. -/
theorem Walk.find (h : Walk s₀ held bufs s) {k : ℕ} {dev : ℤ} {nr : ℕ}
    (hk : Paths.superOf s₀ dev = some k) (hi : InCore s i) (hloc : loc s i = (dev, nr)) :
    ∃ j, (s.supers k).inodeList.find? (fun i => (s.inodes i).nr = nr) = some j := by
  obtain ⟨k', hk', hmem⟩ := h.placed.super i hi
  rw [show (s.inodes i).dev = dev from congrArg Prod.fst hloc, hk] at hk'
  obtain rfl := Option.some_injective _ hk'
  cases hfind : (s.supers k).inodeList.find? fun i => (s.inodes i).nr = nr with
  | some j => exact ⟨j, rfl⟩
  | none =>
      have hno := List.find?_eq_none.mp hfind i hmem
      exact absurd (decide_eq_true (congrArg Prod.snd hloc)) hno

theorem meets_iget {Q : ℕ → Fs → Prop} {dev : ℤ} {nr : ℕ} (h : Walk s₀ held bufs s)
    (hhosted : Hosted s₀ dev) (hnodev : dev ≠ NODEV)
    (hnr : nr ≤ (s₀.superDesc ((superOf s₀ dev).getD 0)).inodes)
    (hroom : e → held.length < (freeSlots s₀).card) (hfew : held.length < 8)
    (hQ : ∀ i s', Walk s₀ ((i, crossed s₀ (dev, nr)) :: held) bufs s' → Q i s') :
    Meets e (iget dev nr) Q s := by
  obtain ⟨k, hk, -⟩ := id hhosted
  have hk' : superOf s dev = some k := (h.superOf dev).trans hk
  rw [hk, Option.getD_some] at hnr
  unfold iget findInode
  refine meets_bind (meets_bind (meets_theSuper hk' (meets_gets ?_)))
  cases hfind : (s.supers k).inodeList.find? fun i => (s.inodes i).nr = nr with
  | some i =>
      have hmem := List.mem_of_find?_eq_some hfind
      have hi := h.ledger.sound.listed k i hmem
      have hloc : loc s i = (dev, nr) := by
        have hdev := h.placed.listed k i hmem
        rw [superOf_dev hk'] at hdev
        have hnr' : (s.inodes i).nr = nr := by simpa using List.find?_some hfind
        exact Prod.ext hdev hnr'
      refine meets_bind (meets_incCount h hi hfew fun s₁ h₁ => ?_)
      rw [hloc] at h₁
      exact meets_bind (meets_setAtime h₁ fun s₂ h₂ => meets_fitInode h₂ hQ)
  | none =>
      have habsent : ∀ i, InCore s i → loc s i ≠ (dev, nr) := by
        intro i hi hloc
        obtain ⟨j, hj⟩ := h.find hk hi hloc
        rw [hfind] at hj
        cases hj
      have hcross := h.crossed_absent habsent
      refine meets_bind (meets_theSuper hk' (meets_bind (meets_gets ?_)))
      rw [h.superDesc k]
      refine meets_bind (meets_check hnr (meets_bind ?_))
      refine meets_getFreeInode h hroom fun i hlt hfree => ?_
      unfold modifyInode bread addRef
      refine meets_bind (meets_modify (meets_bind (meets_modify (meets_bind ?_))))
      refine meets_bind (meets_modify (meets_pure (meets_bind (meets_modify ?_))))
      generalize hs' : Fs.setInode (Fs.mk _ _ _ _ _ _ _ _ _) i _ = s'
      have h' : Walk s₀ ((i, (dev, nr)) :: held) bufs s' := by
        have hself : (s'.inodes i).count = 1 ∧ (s'.inodes i).mount = (s.inodes i).mount ∧
            (s'.inodes i).pipe = (s.inodes i).pipe ∧
            ((s'.inodes i).dev, (s'.inodes i).nr) = (dev, nr) ∧
            Site.mk (s'.inodes i).dev (s'.inodes i).buf (s'.inodes i).slot =
              siteOf s₀ (dev, nr) := by
          unfold siteOf
          rw [hk, ← hs']
          simp [Fs.setInode, Fs.setSuper, hfree, u32]
        obtain ⟨hcount, hmount, hpipe, hloc, hsite⟩ := hself
        refine @Walk.enter _ _ s' _ _ i h k dev nr (s'.inodes i) hk hhosted hnodev hfree hlt hfew
          habsent hcount hmount (hpipe.trans (h.ledger.sound.free i hfree).2) hloc hsite
          (fun j => ?_) (fun j => by rw [← hs']; rfl) (by rw [← hs']; rfl) (by rw [← hs']; rfl)
          fun b => ?_
        · by_cases hj : j = i
          · rw [if_pos hj, hj]
          · rw [if_neg hj, ← hs']
            simp [Fs.setInode, Fs.setSuper, hj]
        · rw [show (s'.inodes i).buf = ⟨dev, inodeBlock (s₀.superDesc k) nr⟩ by
            rw [← hs']; simp [Fs.setInode], ← hs']
          rfl
      refine meets_bind (meets_gets (meets_bind ?_))
      refine meets_modifyInode h' (fun _ => rfl) (fun _ => rfl) (fun _ => rfl) fun s₁ h₁ => ?_
      refine meets_bind (meets_setAtime h₁ fun s₂ h₂ => meets_pure (hQ i s₂ ?_))
      rwa [hcross]

end Ylos.Paths
