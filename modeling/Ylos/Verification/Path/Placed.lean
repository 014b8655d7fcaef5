import Ylos.Verification.Path.Tree
import Ylos.Verification.Refs.Inodes

/-! # Inodes in core and their places

The steps by which counts change leave every inode in its place. -/

namespace Ylos.Paths

open Exec Dir Refs

variable {s₀ s s' : Fs} {i n : ℕ} {e : Prop}

theorem Placed.mono (h : Placed s₀ s) (himg : s'.img = s.img)
    (hbuf : ∀ k, (s'.supers k).buf = (s.supers k).buf)
    (hdev : ∀ k, (s'.supers k).dev = (s.supers k).dev)
    (hcore : ∀ j, InCore s' j → InCore s j ∧ siteAt s' j = siteAt s j ∧ loc s' j = loc s j)
    (hlist : ∀ k j, InCore s' j → (j ∈ (s'.supers k).inodeList ↔ j ∈ (s.supers k).inodeList))
    (hlisted : ∀ k, ∀ j ∈ (s'.supers k).inodeList, InCore s' j) : Placed s₀ s' where
  img := himg.trans h.img
  buf k := (hbuf k).trans (h.buf k)
  site j hj := by
    obtain ⟨hcore, hsite, hloc⟩ := hcore j hj
    rw [hsite, hloc]
    exact h.site j hcore
  super j hj := by
    obtain ⟨hcore, -, hloc⟩ := hcore j hj
    rw [show (s'.inodes j).dev = (s.inodes j).dev from congrArg Prod.fst hloc]
    obtain ⟨k, hk, hmem⟩ := h.super j hcore
    exact ⟨k, hk, (hlist k j hj).mpr hmem⟩
  hosted j hj := by
    obtain ⟨hcore, -, hloc⟩ := hcore j hj
    rw [show (s'.inodes j).dev = (s.inodes j).dev from congrArg Prod.fst hloc]
    exact h.hosted j hcore
  listed k j hj := by
    have hj' := hlisted k j hj
    obtain ⟨-, -, hloc⟩ := hcore j hj'
    rw [hdev, show (s'.inodes j).dev = (s.inodes j).dev from congrArg Prod.fst hloc]
    exact h.listed k j ((hlist k j hj').mp hj)
  unique j k hj hk heq := by
    obtain ⟨hj, -, hlocj⟩ := hcore j hj
    obtain ⟨hk, -, hlock⟩ := hcore k hk
    exact h.unique j k hj hk (hlocj.symm.trans (heq.trans hlock))

/-- One count changes, and the inode stays in core. -/
theorem Placed.recount (h : Placed s₀ s) (hsound : Sound s) (hi : InCore s i) (hn : n ≠ 0)
    (hs : Recounted s i n s') (himg : s'.img = s.img) :
    Placed s₀ s' ∧ ∀ j, loc s' j = loc s j := by
  have hinodes : ∀ j, siteAt s' j = siteAt s j ∧ loc s' j = loc s j ∧
      (InCore s' j ↔ InCore s j) := by
    intro j
    unfold siteAt loc InCore
    rw [hs.inodes]
    split
    · rename_i hj
      rw [hj]
      exact ⟨rfl, rfl, and_congr_left fun _ => iff_of_true hn hi.1⟩
    · exact ⟨rfl, rfl, Iff.rfl⟩
  refine ⟨h.mono himg (fun k => by rw [hs.supers]) (fun k => by rw [hs.supers])
    (fun j hj => ⟨(hinodes j).2.2.mp hj, (hinodes j).1, (hinodes j).2.1⟩)
    (fun k j _ => by rw [hs.supers]) fun k j hj => ?_, fun j => (hinodes j).2.1⟩
  rw [hs.supers] at hj
  exact (hinodes j).2.2.mpr (hsound.listed k j hj)

/-- A free slot is filled with an inode that was not in core. -/
theorem Placed.enter (h : Placed s₀ s) (hsound : Sound s) {m : ℕ} {dev : ℤ} {nr : ℕ} {v : Inode}
    (hdevs : ∀ k, (s.supers k).dev = (s₀.supers k).dev) (hm : superOf s₀ dev = some m)
    (hhosted : Hosted s₀ dev) (hfree : (s.inodes i).count = 0)
    (habsent : ∀ j, InCore s j → loc s j ≠ (dev, nr)) (hloc : (v.dev, v.nr) = (dev, nr))
    (hsite : Site.mk v.dev v.buf v.slot = siteOf s₀ (dev, nr))
    (hinodes : ∀ j, s'.inodes j = if j = i then v else s.inodes j)
    (hsupers : ∀ k, s'.supers k = if k = m then
      { s.supers m with inodeList := i :: (s.supers m).inodeList } else s.supers k)
    (himg : s'.img = s.img) : Placed s₀ s' := by
  have hdev : v.dev = dev := congrArg Prod.fst hloc
  have hself : s'.inodes i = v := by rw [hinodes, if_pos rfl]
  have hother : ∀ j, j ≠ i → s'.inodes j = s.inodes j := fun j hj => by rw [hinodes, if_neg hj]
  have hlocself : loc s' i = (dev, nr) := by
    unfold loc
    rw [hself, hloc]
  have hnew : ∀ j, InCore s' j → j ≠ i → InCore s j ∧ siteAt s' j = siteAt s j ∧
      loc s' j = loc s j := by
    intro j hj hji
    unfold InCore siteAt loc at *
    rw [hother j hji] at hj ⊢
    exact ⟨hj, rfl, rfl⟩
  have hfield : ∀ k, (s'.supers k).buf = (s.supers k).buf ∧
      (s'.supers k).dev = (s.supers k).dev ∧
      ∀ j, j ≠ i → (j ∈ (s'.supers k).inodeList ↔ j ∈ (s.supers k).inodeList) := by
    intro k
    rw [hsupers]
    split
    · rename_i hk
      rw [hk]
      exact ⟨rfl, rfl, fun j hj => by simp [hj]⟩
    · exact ⟨rfl, rfl, fun _ _ => Iff.rfl⟩
  refine ⟨himg.trans h.img, fun k => (hfield k).1.trans (h.buf k), fun j hj => ?_, fun j hj => ?_,
    fun j hj => ?_, fun k j hj => ?_, fun j k hj hk heq => ?_⟩
  · by_cases hji : j = i
    · rw [hji, hlocself, ← hsite]
      unfold siteAt
      rw [hself]
    · obtain ⟨hcore, hsame, hloc⟩ := hnew j hj hji
      rw [hsame, hloc]
      exact h.site j hcore
  · by_cases hji : j = i
    · rw [hji, hself, hdev]
      refine ⟨m, hm, ?_⟩
      rw [hsupers, if_pos rfl]
      exact List.mem_cons_self
    · obtain ⟨k, hk, hmem⟩ := h.super j (hnew j hj hji).1
      rw [hother j hji]
      exact ⟨k, hk, ((hfield k).2.2 j hji).mpr hmem⟩
  · by_cases hji : j = i
    · rw [hji, hself, hdev]
      exact hhosted
    · rw [hother j hji]
      exact h.hosted j (hnew j hj hji).1
  · rw [(hfield k).2.1]
    by_cases hji : j = i
    · rw [hji] at hj ⊢
      rw [hself, hdev]
      rw [hsupers] at hj
      split at hj
      · rename_i hk
        have hmdev : (s₀.supers m).dev = dev := by simpa using List.find?_some hm
        rw [hk, hdevs, hmdev]
      · exact absurd hfree (hsound.listed k i hj).1
    · rw [hother j hji]
      exact h.listed k j (((hfield k).2.2 j hji).mp hj)
  · by_cases hji : j = i
    · by_cases hki : k = i
      · rw [hji, hki]
      · obtain ⟨hcore, -, hlock⟩ := hnew k hk hki
        rw [hji, hlocself, hlock] at heq
        exact absurd heq.symm (habsent k hcore)
    · obtain ⟨hcorej, -, hlocj⟩ := hnew j hj hji
      by_cases hki : k = i
      · rw [hki, hlocself, hlocj] at heq
        exact absurd heq (habsent j hcorej)
      · obtain ⟨hcorek, -, hlock⟩ := hnew k hk hki
        exact h.unique j k hcorej hcorek (hlocj.symm.trans (heq.trans hlock))

/-! ## `iput` -/

/-- `iput` has given back a reference to slot `i`. -/
inductive Put (s : Fs) (i : ℕ) (s' : Fs) : Prop
  | more : (s.inodes i).count - 1 ≠ 0 → Recounted s i ((s.inodes i).count - 1) s' →
      s'.img = s.img → Put s i s'
  | last : (s.inodes i).count = 1 →
      (∀ j, s'.inodes j = if j = i then { s.inodes i with count := 0, dev := NODEV }
        else s.inodes j) →
      (∀ k, s'.supers k = { s.supers k with inodeList := (s.supers k).inodeList.erase i }) →
      s'.task = s.task → s'.img = s.img →
      (∀ b, s'.refs b = if b = (s.inodes i).buf then s.refs b - 1 else s.refs b) → Put s i s'

theorem Put.img (h : Put s i s') : s'.img = s.img := by
  cases h with
  | more _ _ himg => exact himg
  | last _ _ _ _ himg _ => exact himg

theorem Put.task (h : Put s i s') : s'.task = s.task := by
  cases h with
  | more _ hs _ => exact hs.task
  | last _ _ _ htask _ _ => exact htask

theorem Put.sound (h : Put s i s') (hsound : Sound s) (hi : InCore s i) : Sound s' ∧
    Moves s (fun j => if j = i then (s.inodes i).count - 1 else (s.inodes j).count) s' := by
  cases h with
  | more hmore hs _ => exact hsound.recount hi.1 hmore hs.inodes hs.supers hs.task hs.refs
  | last hlast hinodes hsupers htask _ hrefs =>
      rw [hlast]
      exact hsound.retire hi hinodes hsupers htask hrefs

/-- The inodes that are left are where they were. -/
theorem Put.placed (h : Put s i s') (hplaced : Placed s₀ s) (hsound : Sound s)
    (hi : InCore s i) : Placed s₀ s' ∧ ∀ j, InCore s' j → loc s' j = loc s j := by
  have hsound' := (h.sound hsound hi).1
  cases h with
  | more hmore hs himg =>
      obtain ⟨hplaced', hloc⟩ := hplaced.recount hsound hi hmore hs himg
      exact ⟨hplaced', fun j _ => hloc j⟩
  | last hlast hinodes hsupers _ himg _ =>
      have hne : ∀ j, InCore s' j → j ≠ i := by
        rintro _ hj rfl
        refine hj.1 ?_
        rw [hinodes, if_pos rfl]
      have hsame : ∀ j, InCore s' j → s'.inodes j = s.inodes j := fun j hj => by
        rw [hinodes, if_neg (hne j hj)]
      refine ⟨hplaced.mono himg (fun k => by rw [hsupers]) (fun k => by rw [hsupers])
        (fun j hj => ?_) (fun k j hj => ?_) hsound'.listed, fun j hj => ?_⟩
      · have hj' := hsame j hj
        unfold siteAt loc InCore at *
        rw [hj'] at hj ⊢
        exact ⟨hj, rfl, rfl⟩
      · rw [hsupers]
        exact List.mem_erase_of_ne (hne j hj)
      · unfold loc
        rw [hsame j hj]

/-- What `iput` insists on. -/
structure Droppable (s : Fs) (i : ℕ) : Prop where
  core : InCore s i
  lt : (s.inodes i).count < 2 ^ 32
  first : (s.inodes i).count = 1 → i ≠ 0
  super : ∃ k < SUPER_NR, i ∈ (s.supers k).inodeList
  owned : Owned [(s.inodes i).buf] s

/-- The end of `iput`, for the last reference. -/
theorem meets_putLast {Q : Unit → Fs → Prop} {s₂ : Fs} (h : Droppable s i)
    (hlast : (s.inodes i).count = 1) (h₂ : Recounted s i 0 s₂) (himg : s₂.img = s.img)
    (hQ : ∀ s', Put s i s' → Q () s') :
    Meets e (do
      brelse (some (s.inodes i).buf)
      unlinkInode i
      putFreeInode i) Q s₂ := by
  have howned : Owned [(s.inodes i).buf] s₂ := by
    unfold Owned
    rw [h₂.refs]
    exact h.owned
  obtain ⟨s₃, hrun, h₃⟩ := answers_brelse howned
  refine meets_bind (meets_of_run hrun ?_)
  have hlisted : (List.range SUPER_NR).any (fun k => i ∈ (s₃.supers k).inodeList) = true := by
    obtain ⟨k, hk, hmem⟩ := h.super
    refine List.any_eq_true.mpr ⟨k, List.mem_range.mpr hk, ?_⟩
    rw [h₃.supers, h₂.supers]
    exact decide_eq_true hmem
  unfold unlinkInode putFreeInode modifyInode
  refine meets_bind (meets_bind (meets_gets (meets_bind (meets_check hlisted (meets_modify ?_)))))
  refine meets_bind (meets_check (h.first hlast) (meets_bind (meets_gets ?_)))
  refine meets_bind (meets_check ?_ (meets_modify (hQ _ ?_)))
  · change (s₃.inodes i).count = 0
    rw [h₃.inodes, h₂.inodes, if_pos rfl]
  · refine .last hlast (fun j => ?_) (fun k => ?_) (h₃.task.trans h₂.task)
      (h₃.img.trans himg) fun b => ?_
    · change (if j = i then { s₃.inodes i with dev := NODEV } else s₃.inodes j) = _
      rw [h₃.inodes, h₂.inodes, h₂.inodes, if_pos rfl]
      split <;> rfl
    · change { s₃.supers k with inodeList := (s₃.supers k).inodeList.erase i } = _
      rw [h₃.supers, h₂.supers]
    · have hrefs := h₃.refs b
      rw [h₂.refs, List.count_singleton, List.count_nil] at hrefs
      change s₃.refs b = _
      by_cases hb : b = (s.inodes i).buf
      · rw [if_pos (by simp [hb])] at hrefs
        rw [if_pos hb]
        push_cast at hrefs
        omega
      · rw [if_neg (by simpa using Ne.symm hb)] at hrefs
        rw [if_neg hb]
        push_cast at hrefs
        omega

theorem meets_put {Q : Unit → Fs → Prop} (h : Droppable s i)
    (hQ : ∀ s', Put s i s' → Q () s') : Meets e (iput (some i)) Q s := by
  have hlt := h.lt
  have hpos := h.core.1
  -- what is left to do once the buffer is written
  have hrest : ∀ s₁ : Fs, OnlyIo s s₁ → s₁.refs = s.refs → s₁.img = s.img → Meets e (do
        decCount i
        if (← gets (·.inodes i)).count ≠ 0 then return
        brelse (some (s.inodes i).buf)
        unlinkInode i
        putFreeInode i) Q s₁ := by
    intro s₁ hio hrefs himg
    have hdec : u32 ((s.inodes i).count + 2 ^ 32 - 1) = (s.inodes i).count - 1 := by
      unfold u32
      omega
    refine meets_bind (meets_modify ?_)
    generalize hs₂ : Fs.setInode s₁ i _ = s₂
    have h₂ : Recounted s i ((s.inodes i).count - 1) s₂ := by
      rw [← hs₂]
      refine ⟨fun j => ?_, hio.supers, hio.task, hrefs⟩
      rw [← hdec, ← hio.inodes]
      rfl
    have himg₂ : s₂.img = s.img := by rw [← hs₂, ← himg]; rfl
    refine meets_bind (meets_gets (meets_ite (fun hmore => ?_) fun hlast => ?_))
    · rw [h₂.inodes, if_pos rfl] at hmore
      exact meets_pure (hQ s₂ (.more hmore h₂ himg₂))
    · rw [h₂.inodes, if_pos rfl] at hlast
      have hzero : (s.inodes i).count - 1 = 0 := not_not.mp hlast
      rw [hzero] at h₂
      exact meets_putLast h (by omega) h₂ himg₂ hQ
  unfold iput
  refine meets_bind (meets_gets ?_)
  rw [if_neg (by rw [h.core.2]; exact Bool.false_ne_true)]
  refine meets_bind (meets_gets (meets_bind (meets_gets (meets_ite (fun _ => ?_) fun _ => ?_))))
  · obtain ⟨s₁, hrun, himg, hio, hrefs⟩ := run_bwrite (s.inodes i).buf s
    exact meets_bind (meets_of_run hrun (hrest s₁ hio hrefs himg))
  · exact hrest s (.refl s) rfl rfl

end Ylos.Paths
