import Ylos.Verification.Path.Placed

/-! # Walks

A walk through a tree holds references, and each says to which inode. -/

namespace Ylos.Paths

open Exec Dir Refs

variable {α : Type} {s₀ s s' : Fs} {held : List (ℕ × Loc)} {bufs bufs' : List BufRef}
  {i n : ℕ} {l : Loc} {e : Prop}

/-- A walk from `s₀` has come to `s`, holds the inodes `held` and the buffers `bufs`. -/
structure Walk (s₀ : Fs) (held : List (ℕ × Loc)) (bufs : List BufRef) (s : Fs) : Prop where
  tree : Tree s₀
  ledger : Ledger s₀ (held.map Prod.fst) bufs s
  placed : Placed s₀ s
  task : s.task = s₀.task
  locs : ∀ p ∈ held, loc s p.1 = p.2

theorem Tree.walk (h : Tree s) : Walk s [] [] s where
  tree := h
  ledger := h.toWellFormed.ledger
  placed := h.placed
  task := rfl
  locs := nofun

theorem Walk.swap {p q : ℕ × Loc} (h : Walk s₀ (p :: q :: held) bufs s) :
    Walk s₀ (q :: p :: held) bufs s where
  tree := h.tree
  ledger := h.ledger.perm (.swap ..)
  placed := h.placed
  task := h.task
  locs r hr := h.locs r ((List.Perm.swap ..).mem_iff.mp hr)

/-! ## What stays -/

theorem Walk.dev (h : Walk s₀ held bufs s) (k : ℕ) : (s.supers k).dev = (s₀.supers k).dev :=
  congrArg (·.1) (h.ledger.mounting k)

theorem Walk.superOf (h : Walk s₀ held bufs s) (dev : ℤ) : superOf s dev = superOf s₀ dev := by
  unfold Paths.superOf
  simp only [h.dev]

theorem Walk.superDesc (h : Walk s₀ held bufs s) (k : ℕ) : s.superDesc k = s₀.superDesc k := by
  unfold Fs.superDesc Fs.data
  rw [h.placed.buf, h.placed.img]

theorem Walk.inCore (h : Walk s₀ held bufs s) {p : ℕ × Loc} (hp : p ∈ held) : InCore s p.1 :=
  h.ledger.inCore_of_mem (List.mem_map_of_mem hp)

/-- An inode that was in core at the start still is, and is the same. -/
theorem Walk.loc_start (h : Walk s₀ held bufs s) (hi : (s₀.inodes i).count ≠ 0) :
    loc s i = loc s₀ i :=
  congrArg (fun v : ℤ × ℕ × ℤ × BufRef × Bool => (v.1, v.2.1)) (h.ledger.ident i hi)

theorem Walk.desc (h : Walk s₀ held bufs s) (hi : InCore s i) (f : Field) :
    s.desc i f = fieldOf s₀ (loc s i) f := by
  unfold fieldOf
  rw [← h.placed.site i hi, ← descOf_congr h.placed.img]
  rfl

theorem Walk.owned (h : Walk s₀ held bufs s) : Owned bufs s := by
  intro b
  have hrefs := h.ledger.refs b
  have hkept := h.tree.kept b
  omega

theorem Walk.reads (h : Walk s₀ held bufs s) (hreads : Reads bufs bufs' s s') :
    Walk s₀ held bufs' s' where
  tree := h.tree
  ledger := h.ledger.quiet (.of_io hreads.inodes hreads.supers hreads.task) hreads.refs
  placed := h.placed.mono hreads.img (fun k => by rw [hreads.supers])
    (fun k => by rw [hreads.supers])
    (fun j hj => ⟨by unfold InCore at *; rwa [hreads.inodes] at hj, hreads.siteAt j,
      by unfold loc; rw [hreads.inodes]⟩)
    (fun k j _ => by rw [hreads.supers]) fun k j hj => by
      rw [hreads.supers] at hj
      unfold InCore
      rw [hreads.inodes]
      exact h.ledger.sound.listed k j hj
  task := hreads.task.trans h.task
  locs p hp := by
    unfold loc
    rw [hreads.inodes]
    exact h.locs p hp

theorem meets_answers {x : K α} {a : α} {Q : α → Fs → Prop} (h : Walk s₀ held bufs s)
    (hx : Answers bufs x s bufs' a) (hQ : ∀ s', Walk s₀ held bufs' s' → Q a s') :
    Meets e x Q s := by
  obtain ⟨s', hrun, hreads⟩ := hx
  exact meets_of_run hrun (hQ s' (h.reads hreads))

/-! ## Counts -/

theorem Walk.take (h : Walk s₀ held bufs s) (hi : InCore s i) (hfew : held.length < 8)
    (hs : Recounted s i ((s.inodes i).count + 1) s') (himg : s'.img = s.img) :
    Walk s₀ ((i, loc s i) :: held) bufs s' := by
  obtain ⟨hsound, hmoves⟩ := h.ledger.sound.recount hi.1 (Nat.succ_ne_zero _) hs.inodes hs.supers
    hs.task hs.refs
  obtain ⟨hplaced, hloc⟩ := h.placed.recount h.ledger.sound hi (Nat.succ_ne_zero _) hs himg
  refine ⟨h.tree, h.ledger.take hsound hmoves ?_ (by simpa using hfew), hplaced,
    hs.task.trans h.task, fun p hp => ?_⟩
  · rw [hs.inodes, if_pos rfl]
    exact hi.2
  · rw [hloc]
    rcases List.mem_cons.mp hp with rfl | hp
    · rfl
    · exact h.locs p hp

theorem meets_incCount {Q : Unit → Fs → Prop} (h : Walk s₀ held bufs s) (hi : InCore s i)
    (hfew : held.length < 8) (hQ : ∀ s', Walk s₀ ((i, loc s i) :: held) bufs s' → Q () s') :
    Meets e (incCount i) Q s := by
  have hlt := h.ledger.lt i
  have hinc : u32 ((s.inodes i).count + 1) = (s.inodes i).count + 1 :=
    Nat.mod_eq_of_lt (by omega)
  refine meets_modify (hQ _ (h.take hi hfew ⟨fun j => ?_, rfl, rfl, rfl⟩ rfl))
  rw [← hinc]
  rfl

/-- An inode in core holds its buffer. -/
theorem Walk.keeps_buf (h : Walk s₀ held bufs s) (hi : InCore s i) :
    1 ≤ s.refs (s.inodes i).buf := by
  have hrefs := h.ledger.refs (s.inodes i).buf
  have hkept := h.tree.kept (s.inodes i).buf
  have hpos : 1 ≤ kept s (s.inodes i).buf := by
    refine refCount_pos (Finset.mem_range.mpr (h.ledger.sound.slot i hi.1)) ?_
    unfold keeps
    rw [if_neg (by simp [hi.1, hi.2])]
  omega

/-- The root of all stays in core, and `put_free_inode` insists on that. -/
theorem Walk.ne_first (h : Walk s₀ ((i, l) :: held) bufs s) (hlast : (s.inodes i).count = 1) :
    i ≠ 0 := by
  rintro rfl
  have hcount := h.ledger.count 0
  have hfirst := h.tree.first.1
  rw [List.map_cons, List.count_cons_self] at hcount
  omega

theorem Walk.droppable (h : Walk s₀ held bufs s) (hi : InCore s i)
    (hfirst : (s.inodes i).count = 1 → i ≠ 0) : Droppable s i where
  core := hi
  lt := by
    have hlt := h.ledger.lt i
    omega
  first := hfirst
  super := by
    obtain ⟨k, hk, hmem⟩ := h.placed.super i hi
    exact ⟨k, List.mem_range.mp (List.mem_of_find?_eq_some hk), hmem⟩
  owned := by
    intro c
    have hle := h.keeps_buf hi
    have hnonneg := h.owned c
    rw [List.count_singleton]
    split
    · rename_i hc
      rw [← beq_iff_eq.mp hc]
      exact_mod_cast hle
    · push_cast
      omega

theorem Walk.put (h : Walk s₀ ((i, l) :: held) bufs s) (hput : Put s i s') :
    Walk s₀ held bufs s' := by
  have hi : InCore s i := h.inCore List.mem_cons_self
  obtain ⟨hsound, hmoves⟩ := hput.sound h.ledger.sound hi
  obtain ⟨hplaced, hloc⟩ := hput.placed h.placed h.ledger.sound hi
  have hledger : Ledger s₀ (held.map Prod.fst) bufs s' := h.ledger.put hsound hmoves
  refine ⟨h.tree, hledger, hplaced, hput.task.trans h.task, fun p hp => ?_⟩
  rw [hloc p.1 (hledger.inCore_of_mem (List.mem_map_of_mem hp))]
  exact h.locs p (List.mem_cons_of_mem _ hp)

theorem meets_iput {Q : Unit → Fs → Prop} (h : Walk s₀ ((i, l) :: held) bufs s)
    (hQ : ∀ s', Walk s₀ held bufs s' → Q () s') : Meets e (iput (some i)) Q s :=
  meets_put (h.droppable (h.inCore List.mem_cons_self) h.ne_first) fun s' hput =>
    hQ s' (h.put hput)

/-! ## Mounts -/

theorem superOf_dev {k : ℕ} {dev : ℤ} (h : superOf s dev = some k) : (s.supers k).dev = dev := by
  simpa using List.find?_some h

theorem superOf_lt {k : ℕ} {dev : ℤ} (h : superOf s dev = some k) : k < SUPER_NR :=
  List.mem_range.mp (List.mem_of_find?_eq_some h)

theorem crossed_spec (s : Fs) (l : Loc) :
    (crossed s l = l ∧ ∀ k < SUPER_NR, (s.supers k).dev ≠ NODEV →
      (s.supers k).imount.map (loc s) ≠ some l) ∨
    ∃ k i, (s.supers k).dev ≠ NODEV ∧ (s.supers k).imount = some i ∧ loc s i = l ∧
      crossed s l = ((s.supers k).dev, 1) := by
  unfold crossed
  split
  · rename_i k hfind
    have hk := List.find?_some hfind
    simp only [decide_eq_true_eq] at hk
    obtain ⟨i, himount, hloc⟩ := Option.map_eq_some_iff.mp hk.2
    exact .inr ⟨k, i, hk.1, himount, hloc, rfl⟩
  · rename_i hnone
    refine .inl ⟨rfl, fun k hk hdev himount => ?_⟩
    have hno := List.find?_eq_none.mp hnone k (List.mem_range.mpr hk)
    exact hno (decide_eq_true ⟨hdev, himount⟩)

/-- What something is mounted on is the inode in core with that name. -/
theorem Walk.mount_point (h : Walk s₀ held bufs s) {k j : ℕ} (hdev : (s₀.supers k).dev ≠ NODEV)
    (hj : (s₀.supers k).imount = some j) (hi : InCore s i) (hloc : loc s₀ j = loc s i) :
    j = i := by
  have hcore := h.tree.imount k j hdev hj
  exact h.placed.unique j i (h.ledger.inCore hcore) hi ((h.loc_start hcore.1).trans hloc)

theorem Walk.mount_start (h : Walk s₀ held bufs s) (i : ℕ) (hmount : (s.inodes i).mount ≠ 0) :
    InCore s₀ i ∧ (s.inodes i).mount = (s₀.inodes i).mount := by
  have hcount : (s₀.inodes i).count ≠ 0 := fun hfree => hmount (h.ledger.new i hfree)
  have hlabel := h.ledger.ident i hcount
  have hsame : (s.inodes i).mount = (s₀.inodes i).mount := congrArg (·.2.2.1) hlabel
  refine ⟨?_, hsame⟩
  obtain ⟨⟨k, hk, -, -⟩, hall⟩ := h.tree.mounted i (hsame ▸ hmount)
  refine h.tree.imount k i ?_ (hall k hk)
  rw [superOf_dev hk]
  exact (h.tree.sound.used i hcount).2

theorem Walk.crossed_mount (h : Walk s₀ held bufs s) (hi : InCore s i)
    (hmount : (s.inodes i).mount ≠ 0) : crossed s₀ (loc s i) = ((s.inodes i).mount, 1) := by
  obtain ⟨hcore, hsame⟩ := h.mount_start i hmount
  obtain ⟨⟨k, hk, -, -⟩, hall⟩ := h.tree.mounted i (hsame ▸ hmount)
  have hdev : (s₀.supers k).dev ≠ NODEV := by
    rw [superOf_dev hk]
    exact (h.tree.sound.used i hcore.1).2
  rcases crossed_spec s₀ (loc s i) with ⟨-, hno⟩ | ⟨k', j, hdev', hj, hloc, hcross⟩
  · refine absurd ?_ (hno k (superOf_lt hk) hdev)
    rw [hall k hk, Option.map_some, h.loc_start hcore.1]
  · obtain rfl := h.mount_point hdev' hj hi hloc
    rcases h.tree.mounts k' j hdev' hj with ⟨heq, -⟩ | ⟨hzero, -⟩
    · rw [hcross, hsame, heq]
    · exact absurd (hsame.trans hzero) hmount

theorem Walk.crossed_self (h : Walk s₀ held bufs s) (hi : InCore s i)
    (hmount : (s.inodes i).mount = 0) : crossed s₀ (loc s i) = loc s i := by
  rcases crossed_spec s₀ (loc s i) with ⟨hcross, -⟩ | ⟨k, j, hdev, hj, hloc, hcross⟩
  · exact hcross
  · obtain rfl := h.mount_point hdev hj hi hloc
    have hcore := h.tree.imount k j hdev hj
    have hsame : (s.inodes j).mount = (s₀.inodes j).mount :=
      congrArg (·.2.2.1) (h.ledger.ident j hcore.1)
    rcases h.tree.mounts k j hdev hj with ⟨-, hne⟩ | ⟨-, hself⟩
    · exact absurd (hsame.symm.trans hmount) hne
    · rw [hcross, ← hself, hloc]

/-- Nothing is mounted on an inode that is not in core. -/
theorem Walk.crossed_absent (h : Walk s₀ held bufs s) (hno : ∀ i, InCore s i → loc s i ≠ l) :
    crossed s₀ l = l := by
  rcases crossed_spec s₀ l with ⟨hcross, -⟩ | ⟨k, j, hdev, hj, hloc, -⟩
  · exact hcross
  · have hcore := h.tree.imount k j hdev hj
    exact absurd ((h.loc_start hcore.1).trans hloc) (hno j (h.ledger.inCore hcore))

end Ylos.Paths
