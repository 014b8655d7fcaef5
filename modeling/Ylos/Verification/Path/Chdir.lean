import Mathlib.Algebra.BigOperators.Group.Finset.Piecewise
import Mathlib.Algebra.Order.BigOperators.Group.Finset
import Mathlib.Algebra.Order.Group.Nat
import Ylos.Verification.Path.Trail

/-! # The string of a task names its current directory -/

namespace Ylos.Paths

open Exec Dir Refs

variable {s₀ s s' : Fs} {i : ℕ} {l m : Loc} {names : List Path} {path : Path}

/-! ## The same tree -/

/-- A slot that something besides the current directory refers to. -/
def Anchor (s : Fs) (a : ℕ) : Prop :=
  a = 0 ∨ a = s.task.iroot ∨ ∃ k, (s.supers k).dev ≠ NODEV ∧
    ((s.supers k).iroot = some a ∨ (s.supers k).imount = some a)

/-- Nothing on the devices has changed since `s₀`, and the anchors are in core. -/
structure Kept (s₀ s : Fs) : Prop where
  sound : Sound s
  placed : Placed s₀ s
  mounting : ∀ k, mounting (s.supers k) = mounting (s₀.supers k)
  mount : ∀ i, (s.inodes i).mount = (s₀.inodes i).mount
  keep : ∀ a, Anchor s₀ a → InCore s a ∧ loc s a = loc s₀ a
  kept : ∀ b, (kept s b : ℤ) ≤ s.refs b
  few : ∀ i, (s.inodes i).count < 2 ^ 31

/-- `s` is the state between two calls, like `s₀`, and nothing on the devices has changed. -/
structure Settled (s₀ s : Fs) : Prop extends Kept s₀ s where
  iroot : s.task.iroot = s₀.task.iroot
  core : InCore s s.task.ipwd
  pwd : OnTree s₀ (loc s s.task.ipwd)

/-- `s'` is `s` but for the task. -/
structure Retasked (s s' : Fs) : Prop where
  inodes : s'.inodes = s.inodes
  supers : s'.supers = s.supers
  img : s'.img = s.img
  refs : s'.refs = s.refs

theorem Retasked.trans {s'' : Fs} (h : Retasked s s') (h' : Retasked s' s'') : Retasked s s'' :=
  ⟨h'.inodes.trans h.inodes, h'.supers.trans h.supers, h'.img.trans h.img, h'.refs.trans h.refs⟩

theorem Retasked.core (h : Retasked s s') (j : ℕ) : InCore s' j ↔ InCore s j := by
  unfold InCore
  rw [h.inodes]

theorem Retasked.loc (h : Retasked s s') (j : ℕ) : loc s' j = loc s j := by
  unfold Paths.loc
  rw [h.inodes]

theorem Retasked.sound (h : Retasked s s') (hsound : Sound s) : Sound s' := by
  constructor
  · rw [h.inodes]
    exact hsound.slot
  · rw [h.inodes]
    exact hsound.free
  · rw [h.inodes]
    exact hsound.used
  · rw [h.supers]
    exact hsound.nodup
  · intro k j hj
    rw [h.supers] at hj
    exact (h.core j).mpr (hsound.listed k j hj)

theorem Retasked.placed (h : Retasked s s') (hsound : Sound s) (hplaced : Placed s₀ s) :
    Placed s₀ s' := by
  refine hplaced.mono h.img (fun k => by rw [h.supers]) (fun k => by rw [h.supers])
    (fun j hj => ⟨(h.core j).mp hj, ?_, h.loc j⟩) (fun k j _ => by rw [h.supers])
    (h.sound hsound).listed
  unfold siteAt
  rw [h.inodes]

theorem Retasked.kept (h : Retasked s s') (hkept : Kept s₀ s) : Kept s₀ s' where
  sound := h.sound hkept.sound
  placed := h.placed hkept.sound hkept.placed
  mounting k := by
    rw [h.supers]
    exact hkept.mounting k
  mount i := by
    rw [h.inodes]
    exact hkept.mount i
  keep a ha := ⟨(h.core a).mpr (hkept.keep a ha).1, (h.loc a).trans (hkept.keep a ha).2⟩
  kept b := by
    have hsame : Refs.kept s' b = Refs.kept s b := by
      unfold Refs.kept
      rw [h.inodes]
    rw [hsame, h.refs]
    exact hkept.kept b
  few i := by
    rw [h.inodes]
    exact hkept.few i

namespace Settled

theorem dev (h : Settled s₀ s) (k : ℕ) : (s.supers k).dev = (s₀.supers k).dev :=
  congrArg (·.1) (h.mounting k)

theorem superOf_eq (h : Settled s₀ s) (d : ℤ) : superOf s d = superOf s₀ d := by
  unfold superOf
  simp only [h.dev]

theorem superDesc_eq (h : Settled s₀ s) (k : ℕ) : s.superDesc k = s₀.superDesc k := by
  unfold Fs.superDesc Fs.data
  rw [h.placed.buf, h.placed.img]

theorem siteOf_eq (h : Settled s₀ s) (l : Loc) : siteOf s l = siteOf s₀ l := by
  unfold siteOf
  rw [h.superOf_eq, h.superDesc_eq]

theorem fieldOf_eq (h : Settled s₀ s) (l : Loc) (f : Field) : fieldOf s l f = fieldOf s₀ l f := by
  unfold fieldOf
  rw [h.siteOf_eq, descOf_congr h.placed.img]

theorem child_eq (h : Settled s₀ s) (l : Loc) (name : Path) : child s l name = child s₀ l name := by
  unfold child
  rw [h.siteOf_eq, slotCount_congr h.placed.img]
  simp only [slotNr_congr h.placed.img, slotByte_congr h.placed.img]
  congr 1
  funext i
  exact slotNr_congr h.placed.img _ _

theorem imount_eq (h : Settled s₀ s) {k : ℕ} (hdev : (s₀.supers k).dev ≠ NODEV) :
    (s.supers k).imount.map (loc s) = (s₀.supers k).imount.map (loc s₀) := by
  rw [show (s.supers k).imount = (s₀.supers k).imount from congrArg (·.2.2) (h.mounting k)]
  cases hi : (s₀.supers k).imount with
  | none => rfl
  | some i =>
      rw [Option.map_some, Option.map_some, (h.keep i (.inr (.inr ⟨k, hdev, .inr hi⟩))).2]

theorem mountPoint_eq (h : Settled s₀ s) {d : ℤ} (hd : d ≠ NODEV) :
    mountPoint s d = mountPoint s₀ d := by
  unfold mountPoint
  rw [h.superOf_eq]
  cases hk : superOf s₀ d with
  | none => rfl
  | some k =>
      rw [Option.bind_some, Option.bind_some, h.imount_eq (by rwa [superOf_dev hk])]

theorem crossed_eq (h : Settled s₀ s) (l : Loc) : crossed s l = crossed s₀ l := by
  have hsame : ∀ k, (decide ((s.supers k).dev ≠ NODEV ∧
      (s.supers k).imount.map (loc s) = some l)) = decide ((s₀.supers k).dev ≠ NODEV ∧
      (s₀.supers k).imount.map (loc s₀) = some l) := by
    intro k
    rw [decide_eq_decide, h.dev]
    exact and_congr_right fun hdev => by rw [h.imount_eq hdev]
  have hfind : (List.range SUPER_NR).find? (fun k => (s.supers k).dev ≠ NODEV ∧
      (s.supers k).imount.map (loc s) = some l) = (List.range SUPER_NR).find? fun k =>
      (s₀.supers k).dev ≠ NODEV ∧ (s₀.supers k).imount.map (loc s₀) = some l :=
    congrArg (List.find? · _) (funext hsame)
  unfold crossed
  rw [hfind]
  simp only [h.dev]

theorem up_eq (h : Settled s₀ s) {name : Path} (hl : l.1 ≠ NODEV) : up s l name = up s₀ l name := by
  unfold up
  rw [h.mountPoint_eq hl]

theorem step_eq (h : Settled s₀ s) {name : Path} (hl : l.1 ≠ NODEV) :
    step s l name = step s₀ l name := by
  unfold step
  rw [h.up_eq hl]
  simp only [h.child_eq, h.crossed_eq]

theorem root_eq (h : Settled s₀ s) : loc s s.task.iroot = loc s₀ s₀.task.iroot := by
  rw [h.iroot]
  exact (h.keep _ (.inr (.inl rfl))).2

theorem reachable (h : Settled s₀ s) (ht : Tree s₀) (hl : Reachable s l) : Reachable s₀ l := by
  induction hl with
  | iroot =>
      rw [h.root_eq]
      exact .iroot
  | ipwd => exact h.pwd.1
  | up _ hdir hup ih =>
      rw [h.up_eq (ht.nodev ih)] at hup
      exact ih.up (by rwa [← h.fieldOf_eq]) hup
  | down _ hdir hchild ih =>
      rw [h.child_eq] at hchild
      rw [h.crossed_eq]
      exact ih.down (by rwa [← h.fieldOf_eq]) hchild

theorem onTree (h : Settled s₀ s) (ht : Tree s₀) (hl : OnTree s l) : OnTree s₀ l :=
  ⟨h.reachable ht hl.1, by rw [← h.fieldOf_eq]; exact hl.2⟩

theorem hosted (h : Settled s₀ s) {d : ℤ} (hd : d ≠ NODEV) (hhosted : Hosted s₀ d) :
    Hosted s d := by
  obtain ⟨k, hk, ⟨r, hr, hroot⟩, m, hm⟩ := hhosted
  have hdev : (s₀.supers k).dev ≠ NODEV := by rwa [superOf_dev hk]
  refine ⟨k, by rw [h.superOf_eq, hk], ⟨r, (congrArg (·.2.1) (h.mounting k)).trans hr, ?_⟩, m,
    (congrArg (·.2.2) (h.mounting k)).trans hm⟩
  rw [(h.keep r (.inr (.inr ⟨k, hdev, .inl hr⟩))).2, hroot]

theorem tree (h : Settled s₀ s) (ht : Tree s₀) : Tree s := by
  have hdev : ∀ k, (s.supers k).dev ≠ NODEV → (s₀.supers k).dev ≠ NODEV := fun k => by
    rw [h.dev]
    exact id
  have hiroot : ∀ k, (s.supers k).iroot = (s₀.supers k).iroot := fun k =>
    congrArg (·.2.1) (h.mounting k)
  have himount : ∀ k, (s.supers k).imount = (s₀.supers k).imount := fun k =>
    congrArg (·.2.2) (h.mounting k)
  have hanchor : ∀ k a, (s₀.supers k).dev ≠ NODEV →
      (s₀.supers k).iroot = some a ∨ (s₀.supers k).imount = some a →
      InCore s a ∧ loc s a = loc s₀ a := fun k a hk ha => h.keep a (.inr (.inr ⟨k, hk, ha⟩))
  have hmounted : ∀ i, (s.inodes i).mount ≠ 0 → InCore s i ∧ Hosted s (s.inodes i).mount ∧
      ∀ k, superOf s (s.inodes i).mount = some k → (s.supers k).imount = some i := by
    intro i hi
    have hmount := h.mount i
    rw [hmount] at hi ⊢
    obtain ⟨hhosted, hall⟩ := ht.mounted i hi
    have hused : (s₀.inodes i).count ≠ 0 := fun hfree => hi (ht.free i hfree)
    have hnodev := (ht.sound.used i hused).2
    obtain ⟨k, hk, -⟩ := id hhosted
    refine ⟨(hanchor k i (by rwa [superOf_dev hk]) (.inr (hall k hk))).1,
      h.hosted hnodev hhosted, fun k hk => ?_⟩
    rw [himount]
    exact hall k (by rwa [← h.superOf_eq])
  refine ⟨⟨h.sound, fun i hi => ?_, h.few, fun k i hk hi => ?_, fun k i hk hi => ?_,
    fun k i hk hi hnr l hl => ?_, ?_, h.core⟩, ?_, ?_, h.kept, fun i hi => (hmounted i hi).2,
    fun k i hk hi => ?_, ?_, fun l hl hdir => ?_, fun k i hk hi => ?_⟩
  · by_contra hne
    exact (hmounted i hne).1.1 hi
  · exact (hanchor k i (hdev k hk) (.inl (by rwa [← hiroot]))).1
  · exact (hanchor k i (hdev k hk) (.inr (by rwa [← himount]))).1
  · obtain ⟨-, hloc⟩ := hanchor k i (hdev k hk) (.inr (by rwa [← himount]))
    rw [himount]
    refine ht.top k i (hdev k hk) (by rwa [← himount]) ?_ l ?_
    · rwa [← show (s.inodes i).nr = (s₀.inodes i).nr from congrArg Prod.snd hloc]
    · rwa [← show (s.inodes i).dev = (s₀.inodes i).dev from congrArg Prod.fst hloc, ← h.dev]
  · rw [h.iroot]
    exact (h.keep _ (.inr (.inl rfl))).1
  · exact ⟨rfl, fun _ => rfl, fun i hi => by rw [h.placed.site i hi, h.siteOf_eq],
      fun i hi => by rw [h.superOf_eq]; exact h.placed.super i hi,
      fun i hi => h.hosted (h.sound.used i hi.1).1 (h.placed.hosted i hi), h.placed.listed,
      h.placed.unique⟩
  · exact (h.keep 0 (.inl rfl)).1
  · have hmount := ht.mounts k i (hdev k hk) (by rwa [← himount])
    obtain ⟨-, hloc⟩ := hanchor k i (hdev k hk) (.inr (by rwa [← himount]))
    rwa [h.mount, h.dev, hloc]
  · rw [h.root_eq, h.fieldOf_eq, h.fieldOf_eq]
    exact ⟨ht.start.1, h.pwd.2⟩
  · rw [h.fieldOf_eq] at hdir
    intro i hi
    rw [h.siteOf_eq, slotCount_congr h.placed.img] at hi
    obtain ⟨hblock, hzone, hname, hne, hplain, hinode⟩ := ht.slots l (h.reachable ht hl) hdir i hi
    refine ⟨hblock, ?_, ?_, ?_, ?_, ?_⟩
    · rwa [h.siteOf_eq, fileZone_congr h.placed.img]
    · rwa [h.siteOf_eq, slotByte_congr h.placed.img]
    · rwa [h.siteOf_eq, slotNr_congr h.placed.img, slotByte_congr h.placed.img]
    · rwa [h.siteOf_eq, slotNr_congr h.placed.img, slotByte_congr h.placed.img]
    · rwa [h.siteOf_eq, slotNr_congr h.placed.img, h.superOf_eq, h.superDesc_eq]
  · obtain ⟨-, hloc⟩ := hanchor k i (hdev k hk) (.inr (by rwa [← himount]))
    rw [hloc, h.fieldOf_eq]
    exact ht.directory k i (hdev k hk) (by rwa [← himount])

theorem dots (h : Settled s₀ s) (ht : Tree s₀) (hd : Dots s₀) : Dots s where
  dot l hl := by
    rw [h.child_eq]
    exact hd.dot l (h.onTree ht hl)
  parent l name nr hl hdot hdots hchild := by
    rw [h.child_eq] at hchild
    rw [h.child_eq, h.fieldOf_eq]
    exact hd.parent l name nr (h.onTree ht hl) hdot hdots hchild
  root := by
    rw [h.root_eq, h.child_eq, h.mountPoint_eq (ht.nodev .iroot)]
    exact hd.root

theorem trail (h : Settled s₀ s) (ht : Tree s₀) (htrail : Trail s₀ names l) : Trail s names l := by
  induction htrail with
  | root =>
      rw [← h.root_eq]
      exact .root
  | snoc hinit hname hstep hdir ih =>
      refine ih.snoc hname ?_ ?_
      · rwa [h.step_eq (ht.nodev (hinit.onTree ht).1)]
      · rwa [h.fieldOf_eq]

end Settled

/-! ## What a call leaves -/

/-- All references to inodes in core. -/
def total (s : Fs) : ℕ := ∑ i ∈ Finset.range INODE_NR, (s.inodes i).count

/-- The current directory does not hold the only reference to an anchor. -/
def Spare (s : Fs) : Prop := ∀ a, Anchor s a → a = s.task.ipwd → 2 ≤ (s.inodes a).count

theorem total_eq {a b : ℕ} (ha : a < INODE_NR) (hb : b < INODE_NR)
    (h : ∀ j, (s'.inodes j).count + (if a = j then 1 else 0) =
      (s.inodes j).count + if b = j then 1 else 0) : total s' = total s := by
  have hsum := Finset.sum_congr (rfl : Finset.range INODE_NR = Finset.range INODE_NR)
    fun j _ => h j
  rw [Finset.sum_add_distrib, Finset.sum_add_distrib, Finset.sum_ite_eq, Finset.sum_ite_eq,
    if_pos (Finset.mem_range.mpr ha), if_pos (Finset.mem_range.mpr hb)] at hsum
  exact Nat.add_right_cancel hsum

theorem few_of_total (hsound : Sound s) (h : total s < 2 ^ 31) (i : ℕ) :
    (s.inodes i).count < 2 ^ 31 := by
  by_cases hi : (s.inodes i).count = 0
  · rw [hi]
    exact Nat.two_pow_pos 31
  · exact (Finset.single_le_sum (f := fun i => (s.inodes i).count) (fun _ _ => Nat.zero_le _)
      (Finset.mem_range.mpr (hsound.slot i hi))).trans_lt h

theorem Tree.anchor_core (h : Tree s) {a : ℕ} (ha : Anchor s a) : InCore s a := by
  rcases ha with rfl | rfl | ⟨k, hk, ha | ha⟩
  · exact h.first
  · exact h.root
  · exact h.iroot k a hk ha
  · exact h.imount k a hk ha

theorem Walk.mount_eq {held : List (ℕ × Loc)} {bufs : List BufRef} (h : Walk s₀ held bufs s)
    (i : ℕ) : (s.inodes i).mount = (s₀.inodes i).mount := by
  by_cases hi : (s₀.inodes i).count = 0
  · rw [h.ledger.new i hi, h.tree.free i hi]
  · exact congrArg (·.2.2.1) (h.ledger.ident i hi)

/-- A call that gave everything back. -/
theorem Walk.settled (h : Walk s₀ [] [] s) : Settled s₀ s where
  sound := h.ledger.sound
  placed := h.placed
  mounting := h.ledger.mounting
  mount := h.mount_eq
  keep a ha := by
    have hcore := h.tree.anchor_core ha
    exact ⟨h.ledger.inCore hcore, h.loc_start hcore.1⟩
  iroot := h.ledger.iroot
  core := by
    rw [h.ledger.ipwd]
    exact h.ledger.inCore h.tree.pwd
  pwd := by
    rw [h.ledger.ipwd, h.loc_start h.tree.pwd.1]
    exact ⟨.ipwd, h.tree.start.2⟩
  kept b := by
    have hrefs := h.ledger.refs b
    have hkept := h.tree.kept b
    simp only [List.count_nil] at hrefs
    push_cast at hrefs
    omega
  few i := by
    rw [h.ledger.count i]
    exact h.tree.few i

theorem Walk.count_eq (h : Walk s₀ [(i, l)] [] s) (j : ℕ) :
    (s.inodes j).count = (s₀.inodes j).count + if i = j then 1 else 0 := by
  rw [h.ledger.count j, List.map_singleton, List.count_singleton]
  simp only [beq_iff_eq]

/-- One directory in core has taken the place of another. -/
theorem Walk.recount (h : Walk s₀ [(i, l)] [] s) (hput : Put s s₀.task.ipwd s') (j : ℕ) :
    (s'.inodes j).count + (if s₀.task.ipwd = j then 1 else 0) =
      (s₀.inodes j).count + if i = j then 1 else 0 := by
  have hpwd := h.tree.pwd.1
  have hbefore := h.count_eq j
  obtain ⟨-, hmoves⟩ := hput.sound h.ledger.sound (h.ledger.inCore h.tree.pwd)
  have hafter := hmoves.count j
  by_cases hj : j = s₀.task.ipwd
  · rw [if_pos hj, ← hj] at hafter
    rw [← hj] at hpwd
    rw [if_pos hj.symm]
    omega
  · rw [if_neg hj] at hafter
    rw [if_neg (Ne.symm hj)]
    omega

/-- The old directory is given back, and the new one kept. -/
theorem Walk.moved (h : Walk s₀ [(i, l)] [] s) (hspare : Spare s₀) (hfew : total s₀ < 2 ^ 31)
    (hne : i ≠ s₀.task.ipwd) (hput : Put s s₀.task.ipwd s') :
    Kept s₀ s' ∧ total s' = total s₀ ∧ InCore s' i ∧ loc s' i = l ∧
      (s'.inodes i).count = (s₀.inodes i).count + 1 := by
  have hold : InCore s s₀.task.ipwd := h.ledger.inCore h.tree.pwd
  have hi : InCore s i := h.inCore List.mem_cons_self
  obtain ⟨hsound, hmoves⟩ := hput.sound h.ledger.sound hold
  obtain ⟨hplaced, hloc⟩ := hput.placed h.placed h.ledger.sound hold
  have hstay : ∀ j, (s'.inodes j).count ≠ 0 → InCore s j → InCore s' j := fun j hj hcore =>
    ⟨hj, (congrArg (·.2.2.2.2)
      (hmoves.ident j hcore.1 (by rwa [hmoves.count] at hj))).trans hcore.2⟩
  have hnew : (s'.inodes i).count = (s₀.inodes i).count + 1 := by
    have hcount := h.recount hput i
    rwa [if_neg (Ne.symm hne), if_pos rfl, Nat.add_zero] at hcount
  have hcore : InCore s' i := hstay i (by rw [hnew]; exact Nat.succ_ne_zero _) hi
  have htotal : total s' = total s₀ :=
    total_eq (h.tree.sound.slot _ h.tree.pwd.1) (h.ledger.sound.slot i hi.1) (h.recount hput)
  refine ⟨⟨hsound, hplaced, fun k => (hmoves.mounting k).trans (h.ledger.mounting k),
    fun j => (hmoves.mount j).trans (h.mount_eq j), fun a ha => ?_, fun b => ?_, ?_⟩, htotal, hcore,
    (hloc i hcore).trans (h.locs (i, l) List.mem_cons_self), hnew⟩
  · have hstart := h.tree.anchor_core ha
    have hbefore := h.ledger.inCore hstart
    have hlive : (s'.inodes a).count ≠ 0 := by
      have hcount := h.recount hput a
      have hpos := hstart.1
      by_cases hpwd : a = s₀.task.ipwd
      · have htwo := hspare a ha hpwd
        rw [if_pos hpwd.symm] at hcount
        omega
      · rw [if_neg (Ne.symm hpwd)] at hcount
        omega
    have hafter := hstay a hlive hbefore
    exact ⟨hafter, (hloc a hafter).trans (h.loc_start hstart.1)⟩
  · have hrefs := hmoves.refs b
    have hrefs₀ := h.ledger.refs b
    have hkept := h.tree.kept b
    simp only [List.count_nil] at hrefs₀
    push_cast at hrefs₀
    omega
  · rw [← htotal] at hfew
    exact few_of_total hsound hfew

/-- `iput` does not look at the task. -/
theorem Retasked.put {j : ℕ} {t : Fs} (h : Retasked s s') (hput : Put s' j t) :
    ∃ t', Put s j t' ∧ Retasked t' t := by
  refine ⟨{ t with task := s.task }, ?_, rfl, rfl, rfl, rfl⟩
  cases hput with
  | more hmore hs himg =>
      have hinodes := hs.inodes
      rw [h.inodes] at hmore hinodes
      exact .more hmore ⟨hinodes, hs.supers.trans h.supers, rfl, hs.refs.trans h.refs⟩
        (himg.trans h.img)
  | last hlast hinodes hsupers _ himg hrefs =>
      rw [h.inodes] at hlast hinodes hrefs
      rw [h.supers] at hsupers
      rw [h.refs] at hrefs
      exact .last hlast hinodes hsupers rfl (himg.trans h.img) hrefs

theorem Kept.anchor (h : Kept s₀ s) (hiroot : s.task.iroot = s₀.task.iroot) {a : ℕ}
    (ha : Anchor s a) : Anchor s₀ a := by
  rcases ha with rfl | rfl | ⟨k, hk, ha⟩
  · exact .inl rfl
  · exact .inr (.inl hiroot)
  · refine .inr (.inr ⟨k, ?_, ?_⟩)
    · rwa [← show (s.supers k).dev = (s₀.supers k).dev from congrArg (·.1) (h.mounting k)]
    · rwa [← show (s.supers k).iroot = (s₀.supers k).iroot from congrArg (·.2.1) (h.mounting k),
        ← show (s.supers k).imount = (s₀.supers k).imount from congrArg (·.2.2) (h.mounting k)]

/-! ## `sys_chdir` -/

/-- The task is where its string says. -/
structure Home (s : Fs) (names : List Path) : Prop where
  tree : Tree s
  dots : Dots s
  spare : Spare s
  few : total s < 2 ^ 31
  pwd : s.task.pwd = render names
  trail : Trail s names (loc s s.task.ipwd)

theorem Trail.plain (h : Trail s names l) : ∀ name ∈ names, Proper name := by
  induction h with
  | root => exact nofun
  | snoc _ hname _ _ ih =>
      intro name hmem
      rcases List.mem_append.mp hmem with hmem | hmem
      · exact ih name hmem
      · rw [List.mem_singleton.mp hmem]
        exact hname

/-- A call that failed. -/
theorem Home.stay (h : Home s₀ names) (hwalk : Walk s₀ [] [] s) : Home s names := by
  have hsettled := hwalk.settled
  have hcount : ∀ j, (s.inodes j).count = (s₀.inodes j).count := fun j => by
    rw [hwalk.ledger.count j]
    rfl
  refine ⟨hsettled.tree h.tree, hsettled.dots h.tree h.dots, fun a ha hpwd => ?_, ?_, ?_, ?_⟩
  · rw [hcount]
    rw [hwalk.task] at hpwd
    exact h.spare a (hsettled.anchor hsettled.iroot ha) hpwd
  · unfold total
    simp only [hcount]
    exact h.few
  · rw [hwalk.task]
    exact h.pwd
  · rw [hwalk.task, hwalk.loc_start h.tree.pwd.1]
    exact hsettled.trail h.tree h.trail

/-- A call that succeeded. -/
theorem Home.move {s₁ s₁' s₂ : Fs} {names' : List Path} (h : Home s₀ names)
    (hwalk : Walk s₀ [(i, l)] [] s₁) (hne : i ≠ s₀.task.ipwd) (htrail : Trail s₀ names' l)
    (hr : Retasked s₁ s₁') (hput : Put s₁' s₀.task.ipwd s₂) (hr' : Retasked s₂ s)
    (hiroot : s.task.iroot = s₀.task.iroot) (hipwd : s.task.ipwd = i)
    (hpwd : s.task.pwd = render names') : Home s names' := by
  obtain ⟨t, hput', hr₂⟩ := hr.put hput
  have hall := hr₂.trans hr'
  obtain ⟨hkept, htotal, hcore, hloc, hcount⟩ := hwalk.moved h.spare h.few hne hput'
  have hloc' : loc s s.task.ipwd = l := by rw [hipwd, hall.loc, hloc]
  have hsettled : Settled s₀ s := by
    refine ⟨hall.kept hkept, hiroot, ?_, ?_⟩
    · rw [hipwd]
      exact (hall.core i).mpr hcore
    · rw [hloc']
      exact htrail.onTree h.tree
  refine ⟨hsettled.tree h.tree, hsettled.dots h.tree h.dots, fun a ha hpwd => ?_, ?_, hpwd, ?_⟩
  · have hanchor := h.tree.anchor_core (hsettled.anchor hiroot ha)
    have hpos := hanchor.1
    rw [hpwd, hipwd] at hpos
    rw [hpwd, hipwd, hall.inodes, hcount]
    omega
  · have hsum : total s = total t := by
      unfold total
      rw [hall.inodes]
    rw [hsum, htotal]
    exact h.few
  · rw [hloc']
    exact hsettled.trail h.tree htrail

theorem mem_components :
    ∀ name ∈ components path, ∀ c ∈ name, c ∈ path ∧ isSeparator c = false := by
  induction hn : path.length using Nat.strong_induction_on generalizing path with
  | _ n ih =>
      by_cases h : ∃ c ∈ path, isSeparator c = true
      · rw [components_parts h]
        refine List.forall_mem_cons.mpr ⟨component_mem path, fun name hname c hc => ?_⟩
        obtain ⟨hmem, hsep⟩ := ih _ (hn ▸ afterComponent_length_lt h) rfl name hname c hc
        exact ⟨(afterComponent_suffix path).mem hmem, hsep⟩
      · simp only [not_exists, not_and, Bool.not_eq_true] at h
        rw [components_whole h]
        intro name hname c hc
        rw [List.mem_singleton.mp hname] at hc
        exact ⟨hc, h c hc⟩

/-- The walk along a path and the string follow the same components. -/
theorem Home.follow (h : Home s names) (hpath : ∀ c ∈ path, c ≠ 0) {p : Path}
    (hresolve : resolve s path = some l) (hdir : isDir (fieldOf s l .mode) = true)
    (hrun : abspath s.task.pwd path = .ok p) : ∃ names', p = render names' ∧ Trail s names' l := by
  have hplain : Plain names := fun name hname c hc =>
    ((h.trail.plain name hname).plain c hc).2
  rw [h.pwd] at hrun
  obtain ⟨⟨m, name⟩, hparent, hlast⟩ := Option.bind_eq_some_iff.mp hresolve
  rw [parent_eq] at hparent
  obtain ⟨⟨l₀, left⟩, hstart, hwalk⟩ := Option.bind_eq_some_iff.mp hparent
  obtain ⟨m', hwalk', heq⟩ := Option.map_eq_some_iff.mp hwalk
  obtain ⟨rfl, rfl⟩ := Prod.mk.inj heq
  obtain ⟨base, hbase, hbegin⟩ : ∃ base, Trail s base l₀ ∧
      (base, left) = if isSeparator (chr path) then ([], path.tail) else (names, path) := by
    cases path with
    | nil => cases hstart
    | cons c rest =>
        have hpair := Option.some_injective _ hstart
        by_cases hsep : isSeparator c = true
        · rw [if_pos hsep] at hpair
          cases hpair
          exact ⟨[], .root, (if_pos hsep).symm⟩
        · rw [if_neg hsep] at hpair
          cases hpair
          exact ⟨names, h.trail, (if_neg hsep).symm⟩
  have hleft : ∀ c ∈ left, c ≠ 0 := by
    intro c hc
    have hmem := congrArg Prod.snd hbegin
    dsimp only at hmem
    rw [hmem] at hc
    split at hc
    · exact hpath c (List.mem_of_mem_tail hc)
    · exact hpath c hc
  obtain ⟨rfl, -⟩ := abspath_render hplain hpath hbegin hrun
  refine ⟨_, rfl, ?_⟩
  have hinit := hbase.walk h.tree h.dots hwalk' fun name hname c hc =>
    ⟨hleft c (mem_components name (List.mem_of_mem_dropLast hname) c hc).1,
      (mem_components name (List.mem_of_mem_dropLast hname) c hc).2⟩
  unfold applyLast
  obtain ⟨hsuffix, hsep⟩ := last_component left
  by_cases hnil : (components left).getLastD [] = []
  · rw [if_pos hnil]
    dsimp only at hlast
    rw [if_pos hnil] at hlast
    cases hlast
    exact hinit
  · rw [if_neg hnil]
    dsimp only at hlast
    rw [if_neg hnil] at hlast
    exact hinit.step h.tree h.dots (fun c hc => ⟨hleft c (hsuffix.mem hc), hsep c hc⟩) hlast hdir

theorem meets_rollback {Q : Ret → Fs → Prop} {e : Prop} {held : List (ℕ × Loc)}
    {bufs : List BufRef} {ret : Ret} (o : Option (ℕ × Loc))
    (h : Walk s₀ (o.toList ++ held) bufs s) (hQ : ∀ s', Walk s₀ held bufs s' → Q ret s') :
    Meets e (rollback ret none [o.map Prod.fst]) Q s := by
  unfold rollback
  refine meets_bind (meets_pure (meets_bind ?_))
  cases o with
  | none => exact meets_pure (hQ s h)
  | some p => exact meets_bind (meets_iput h fun s' h' => meets_pure (hQ s' h'))

theorem Home.chdir (h : Home s names) (hpath : ∀ c ∈ path, c ≠ 0) :
    Meets False (sysChdir path) (fun _ s' => ∃ names', Home s' names') s := by
  unfold sysChdir
  refine meets_bind (meets_mono
    (meets_namei h.tree.walk hpath (fun he => he.elim) (Nat.zero_lt_succ 5)) fun r s₁ hr => ?_)
  generalize hresolve : resolve s path = target at hr
  cases hr with
  | nowhere h₁ => exact meets_rollback none h₁ fun s₂ h₂ => ⟨names, h.stay h₂⟩
  | @at_ _ i l h₁ hreach =>
      have hi : InCore s₁ i := h₁.inCore List.mem_cons_self
      have hl : loc s₁ i = l := h₁.locs (i, l) List.mem_cons_self
      refine meets_bind (meets_gets (meets_bind (meets_gets
        (meets_ite (fun _ => ?_) fun hyes => ?_))))
      · exact meets_rollback (some (i, l)) h₁ fun s₂ h₂ => ⟨names, h.stay h₂⟩
      rw [h₁.desc hi, hl, h₁.task] at hyes
      obtain ⟨hdir, hne⟩ : isDir (fieldOf s l .mode) = true ∧ i ≠ s.task.ipwd := by
        simpa using hyes
      rw [h₁.task]
      refine meets_bind ?_
      cases hrun : abspath s.task.pwd path with
      | error c => exact meets_fault not_false
      | ok p =>
          obtain ⟨names', rfl, htrail⟩ := h.follow hpath hresolve hdir hrun
          refine meets_of_run (run_lift_ok _ _) (meets_bind (meets_modify ?_))
          have hdrop : Droppable s₁ s.task.ipwd := by
            refine h₁.droppable (h₁.ledger.inCore h.tree.pwd) fun hone hzero => ?_
            have htwo := h.spare 0 (.inl rfl) hzero.symm
            have hcount := h₁.count_eq 0
            rw [hzero] at hone
            omega
          refine meets_bind (meets_put ⟨hdrop.core, hdrop.lt, hdrop.first, hdrop.super,
            hdrop.owned⟩ fun s₂ hput => meets_bind (meets_modify (meets_pure ⟨names', ?_⟩)))
          refine h.move h₁ hne htrail ?_ hput ⟨rfl, rfl, rfl, rfl⟩ ?_ rfl ?_
          · exact ⟨rfl, rfl, rfl, rfl⟩
          · change s₂.task.iroot = s.task.iroot
            rw [hput.task]
            exact (congrArg Task.iroot h₁.task : s₁.task.iroot = s.task.iroot)
          · change s₂.task.pwd = render names'
            rw [hput.task]

/-- The calls, whatever each returns. -/
def chdirs (paths : List Path) : K Unit := paths.forM fun path => do
  let _ ← sysChdir path

theorem Home.chdirs {paths : List Path} (h : Home s names)
    (hpaths : ∀ path ∈ paths, ∀ c ∈ path, c ≠ 0) :
    Meets False (Paths.chdirs paths) (fun _ s' => ∃ names', Home s' names') s := by
  induction paths generalizing s names with
  | nil => exact meets_pure ⟨names, h⟩
  | cons path paths ih =>
      refine meets_bind (meets_bind (meets_mono (h.chdir (hpaths path List.mem_cons_self)) ?_))
      rintro _ s₁ ⟨names₁, h₁⟩
      exact meets_pure (ih h₁ fun p hp => hpaths p (List.mem_cons_of_mem path hp))

/-! ## Resolving the string -/

theorem components_render (hplain : Plain names) :
    ∃ rest, render names = 47 :: rest ∧ components rest = names ++ [[]] := by
  refine ⟨_, rfl, ?_⟩
  induction names with
  | nil => exact components_whole nofun
  | cons name names ih =>
      rw [List.flatMap_cons, List.append_assoc, List.singleton_append,
        components_cons (hplain name List.mem_cons_self) rfl,
        ih fun w hw => hplain w (List.mem_cons_of_mem name hw)]
      rfl

theorem Trail.walk_root (ht : Tree s) (hgranted : ∀ l, OnTree s l → searched s l = true)
    (h : Trail s names l) : Paths.walk s (loc s s.task.iroot) names = some l := by
  induction h with
  | root => rfl
  | snoc hinit hname hstep hdir ih =>
      have hall := (hinit.snoc hname hstep hdir).onTree ht
      rw [walk_append, ih, Option.bind_some, Paths.walk, hstep, Option.bind_some,
        if_pos (hgranted _ hall)]
      rfl

/-- Where search is granted, the string of a task leads to its current directory. -/
theorem Home.named (h : Home s names) (hgranted : ∀ l, OnTree s l → searched s l = true) :
    Meets (2 ≤ (freeSlots s).card) (namei s.task.pwd) (fun r _ => r = some s.task.ipwd) s := by
  have hproper := h.trail.plain
  have hzero : ∀ c ∈ render names, c ≠ 0 := by
    refine List.forall_mem_cons.mpr ⟨by decide, fun c hc => ?_⟩
    obtain ⟨name, hname, hc⟩ := List.mem_flatMap.mp hc
    rcases List.mem_append.mp hc with hc | hc
    · exact ((hproper name hname).plain c hc).1
    · rw [List.mem_singleton.mp hc]
      decide
  have hplain : Plain names := fun name hname c hc => ((hproper name hname).plain c hc).2
  obtain ⟨rest, hrender, hparts⟩ := components_render hplain
  have hresolve : resolve s (render names) = some (loc s s.task.ipwd) := by
    have hstart : start s (render names) = some (loc s s.task.iroot, rest) := by
      rw [hrender]
      rfl
    have hparent : parent s (render names) = some (loc s s.task.ipwd, []) := by
      rw [parent_eq, hstart, Option.bind_some, parentFrom, hparts, List.dropLast_concat,
        h.trail.walk_root h.tree hgranted, Option.map_some, List.getLastD_concat]
    rw [resolve, hparent]
    rfl
  rw [h.pwd]
  refine meets_mono (meets_namei h.tree.walk hzero (fun he => he) (Nat.zero_lt_succ 5))
    fun r s₁ hr => ?_
  rw [hresolve] at hr
  cases hr with
  | @at_ _ i _ h₁ _ =>
      have hi : InCore s₁ i := h₁.inCore List.mem_cons_self
      refine congrArg some (h₁.placed.unique i _ hi (h₁.ledger.inCore h.tree.pwd) ?_)
      rw [h₁.locs _ List.mem_cons_self, h₁.loc_start h.tree.pwd.1]

/-- The state in which the task has another owner. -/
def asUser (s : Fs) (uid gid : ℕ) : Fs := { s with task := { s.task with uid := uid, gid := gid } }

theorem Home.asUser (h : Home s names) (uid gid : ℕ) : Home (asUser s uid gid) names := by
  have hr : Retasked s (Paths.asUser s uid gid) := ⟨rfl, rfl, rfl, rfl⟩
  have hsettled : Settled s (Paths.asUser s uid gid) :=
    ⟨hr.kept h.tree.walk.settled.toKept, rfl, h.tree.pwd, ⟨.ipwd, h.tree.start.2⟩⟩
  exact ⟨hsettled.tree h.tree, hsettled.dots h.tree h.dots, h.spare, h.few, h.pwd,
    hsettled.trail h.tree h.trail⟩

/-- After any calls of a task that starts at `/`, its string is made of names that lead down,
and `namei` takes the string to its current directory. -/
theorem pwd_leads_home {paths : List Path} (ht : Tree s) (hd : Dots s) (hspare : Spare s)
    (hfew : total s < 2 ^ 31) (hpwd : s.task.pwd = [47]) (hroot : s.task.ipwd = s.task.iroot)
    (hpaths : ∀ path ∈ paths, ∀ c ∈ path, c ≠ 0) :
    wp (fun _ => True) (chdirs paths) (fun _ s' =>
      (∃ names, s'.task.pwd = render names ∧ ∀ name ∈ names, Proper name) ∧
      ∀ uid gid, (∀ l, OnTree (asUser s' uid gid) l → searched (asUser s' uid gid) l = true) →
        Meets (2 ≤ (freeSlots s').card) (namei s'.task.pwd)
          (fun r _ => r = some s'.task.ipwd) (asUser s' uid gid)) s := by
  have hhome : Home s [] := ⟨ht, hd, hspare, hfew, hpwd, by rw [hroot]; exact .root⟩
  refine (meets_mono (hhome.chdirs hpaths) ?_).wp
  rintro _ s' ⟨names, h⟩
  exact ⟨⟨names, h.pwd, h.trail.plain⟩, fun uid gid hgranted => (h.asUser uid gid).named hgranted⟩

theorem grown_dots : Dots grown where
  dot l hl := by
    rcases grown_reachable hl.1 with rfl | rfl <;> decide
  parent l name nr hl hdot hdots hchild := by
    obtain ⟨i, hi, rfl⟩ := Option.map_eq_some_iff.mp hchild
    have hnamed := List.find?_some hi
    obtain ⟨-, hname⟩ := of_decide_eq_true hnamed
    have hlt := List.mem_range.mp (List.mem_of_find?_eq_some hi)
    have hall : ∀ l ∈ [((1, 1) : Loc), (1, 2)], ∀ i < slotCount grown (siteOf grown l),
        nameAt (slotByte grown (siteOf grown l) i) = [46] ∨
        nameAt (slotByte grown (siteOf grown l) i) = dotdot ∨
        slotNr grown (siteOf grown l) i = 2 ∧ l = (1, 1) := by decide
    rcases hall l (by simpa using grown_reachable hl.1) i hlt with h | h | ⟨hnr, rfl⟩
    · exact absurd (hname.symm.trans h) hdot
    · exact absurd (hname.symm.trans h) hdots
    · rw [hnr]
      exact ⟨by decide, fun _ => by decide⟩
  root := by decide

/-- After `cd d` the string is `/d/`. -/
theorem grown_chdir : ∃ s' l, (chdirs [[100]]).run grown = .ok ((), s', l) ∧
    s'.task.pwd = render [[100]] ∧ loc s' s'.task.ipwd = (1, 2) ∧
    (∃ names, s'.task.pwd = render names ∧ ∀ name ∈ names, Proper name) ∧
      ∀ uid gid, (∀ l, OnTree (asUser s' uid gid) l → searched (asUser s' uid gid) l = true) →
        Meets (2 ≤ (freeSlots s').card) (namei s'.task.pwd)
          (fun r _ => r = some s'.task.ipwd) (asUser s' uid gid) := by
  obtain ⟨_, s', l, hrun, hq⟩ := returns_of_bool (x := chdirs [[100]]) (s := grown)
    (q := fun _ s' => s'.task.pwd = render [[100]] ∧ loc s' s'.task.ipwd = (1, 2))
    (by decide)
  obtain ⟨hpwd, hloc⟩ := of_decide_eq_true hq
  have hspare : Spare grown := by
    rintro a - rfl
    decide
  exact ⟨s', l, hrun, hpwd, hloc, @pwd_leads_home grown [[100]] grown_tree grown_dots hspare
    (by decide) rfl rfl (by simp) _ s' l hrun fun _ _ => trivial⟩

end Ylos.Paths
