import Ylos.Verification.Path.Pwd
import Ylos.Verification.Path.Resolve

/-! # Trails

A trail leads from the root to a directory, by names other than `.` and `..`. -/

namespace Ylos.Paths

open Refs

variable {s : Fs} {l m : Loc} {names : List Path} {name : Path} {nr : ℕ}

/-- The entries `.` and `..` of the directories. An entry of another name leads down, so that
`..` leads back, and nothing leads down to a root. -/
structure Dots (s : Fs) : Prop where
  dot : ∀ l, OnTree s l → child s l [46] = some l.2
  parent : ∀ l name nr, OnTree s l → name ≠ [46] → name ≠ dotdot → child s l name = some nr →
    nr ≠ 1 ∧ (isDir (fieldOf s (l.1, nr) .mode) = true → child s (l.1, nr) dotdot = some l.2)
  root : (loc s s.task.iroot).2 = 1 ∧
    mountPoint s (loc s s.task.iroot).1 = some (loc s s.task.iroot) ∧
    child s (loc s s.task.iroot) dotdot = some 1

/-- A name that leads down. -/
structure Proper (name : Path) : Prop where
  nonempty : name ≠ []
  dot : name ≠ [46]
  dotdot : name ≠ dotdot
  plain : ∀ c ∈ name, c ≠ 0 ∧ isSeparator c = false

/-- The names lead from the root to a directory. -/
inductive Trail (s : Fs) : List Path → Loc → Prop
  | root : Trail s [] (loc s s.task.iroot)
  | snoc {names : List Path} {name : Path} {l m : Loc} : Trail s names l → Proper name →
      step s l name = some m → isDir (fieldOf s m .mode) = true → Trail s (names ++ [name]) m

/-! ## Mounts -/

theorem Tree.nodev (h : Tree s) (hl : Reachable s l) : l.1 ≠ NODEV := by
  have hcore : ∀ i, InCore s i → (loc s i).1 ≠ NODEV := fun i hi => (h.sound.used i hi.1).1
  induction hl with
  | iroot => exact hcore _ h.root
  | ipwd => exact hcore _ h.pwd
  | up _ _ hup ih =>
      unfold up at hup
      split at hup
      · obtain ⟨k, hk, himount⟩ := Option.bind_eq_some_iff.mp hup
        obtain ⟨m, hm, rfl⟩ := Option.map_eq_some_iff.mp himount
        exact hcore m (h.imount k m (by rwa [superOf_dev hk]) hm)
      · cases hup
        exact ih
  | @down l _ nr _ _ _ ih =>
      rcases crossed_spec s (l.1, nr) with ⟨hcross, -⟩ | ⟨k, i, hdev, -, -, hcross⟩
      · rw [hcross]
        exact ih
      · rw [hcross]
        exact hdev

/-- Where something is mounted, from both sides. -/
theorem Tree.mountPoint_crossed (h : Tree s) {k i : ℕ} (hdev : (s.supers k).dev ≠ NODEV)
    (hi : (s.supers k).imount = some i) (hnr : (s.inodes i).nr ≠ 1) :
    mountPoint s (s.supers k).dev = some (loc s i) := by
  rcases h.mounts k i hdev hi with ⟨hmount, hne⟩ | ⟨-, hroot⟩
  · obtain ⟨⟨k', hk', -, -⟩, hall⟩ := h.mounted i hne
    unfold mountPoint
    rw [← hmount, hk', Option.bind_some, hall k' hk', Option.map_some]
  · exact absurd (congrArg Prod.snd hroot) hnr

/-- A root that something is mounted on is mounted on itself. -/
theorem Tree.crossed_root (h : Tree s) {k : ℕ} (hdev : (s.supers k).dev ≠ NODEV) :
    crossed s ((s.supers k).dev, 1) = ((s.supers k).dev, 1) := by
  rcases crossed_spec s ((s.supers k).dev, 1) with ⟨hcross, -⟩ | ⟨k', i', hdev', hi', hloc, hcross⟩
  · exact hcross
  · have htop := h.top k' i' hdev' hi' (congrArg Prod.snd hloc) k (congrArg Prod.fst hloc).symm
    rw [hcross]
    rcases h.mounts k' i' hdev' hi' with ⟨hmount', hne⟩ | ⟨-, hroot⟩
    · rcases h.mounts k i' hdev htop with ⟨hmount, -⟩ | ⟨hzero, -⟩
      · rw [← hmount', hmount]
      · exact absurd hzero hne
    · rw [← hloc, hroot]

theorem Tree.crossed_crossed (h : Tree s) (l : Loc) : crossed s (crossed s l) = crossed s l := by
  rcases crossed_spec s l with ⟨hcross, -⟩ | ⟨k, i, hdev, -, -, hcross⟩
  · rw [hcross, hcross]
  · rw [hcross]
    exact h.crossed_root hdev

/-! ## Steps along a trail -/

theorem Trail.onTree (ht : Tree s) (h : Trail s names l) : OnTree s l := by
  induction h with
  | root => exact ⟨.iroot, ht.start.1⟩
  | snoc _ _ hstep hdir ih => exact ⟨ht.step_reachable ih (ht.nodev ih.1) hstep, hdir⟩

theorem Trail.crossed_self (ht : Tree s) (hd : Dots s) (h : Trail s names l) : crossed s l = l := by
  cases h with
  | root =>
      obtain ⟨hone, hmount, -⟩ := hd.root
      obtain ⟨k, hk, -⟩ := Option.bind_eq_some_iff.mp hmount
      have hdev := superOf_dev hk
      have hcross := ht.crossed_root (k := k) (by rw [hdev]; exact ht.nodev .iroot)
      rwa [hdev, show ((loc s s.task.iroot).1, 1) = loc s s.task.iroot from
        Prod.ext rfl hone.symm] at hcross
  | snoc _ _ hstep _ =>
      obtain ⟨d, -, hchild⟩ := Option.bind_eq_some_iff.mp hstep
      obtain ⟨nr, -, rfl⟩ := Option.map_eq_some_iff.mp hchild
      exact ht.crossed_crossed _

/-- `..` leads back from a directory to the one it was reached from. -/
theorem Trail.back (ht : Tree s) (hd : Dots s) (h : Trail s names l) (hname : Proper name)
    (hstep : step s l name = some m) (hdir : isDir (fieldOf s m .mode) = true) :
    step s m dotdot = some l := by
  have hstay : up s l name = some l := if_neg fun hup => hname.dotdot hup.1
  rw [step_eq hstay] at hstep
  obtain ⟨nr, hchild, rfl⟩ := Option.map_eq_some_iff.mp hstep
  obtain ⟨hne, hparent⟩ := hd.parent l name nr (h.onTree ht) hname.dot hname.dotdot hchild
  have hup : up s (crossed s (l.1, nr)) dotdot = some (l.1, nr) ∧
      isDir (fieldOf s (l.1, nr) .mode) = true := by
    rcases crossed_spec s (l.1, nr) with ⟨hcross, -⟩ | ⟨k, i, hdev, hi, hloc, hcross⟩
    · rw [hcross] at hdir ⊢
      exact ⟨if_neg fun hroot => hne hroot.2, hdir⟩
    · have hnr : (s.inodes i).nr ≠ 1 := by
        rwa [show (s.inodes i).nr = nr from congrArg Prod.snd hloc]
      rw [hcross, ← hloc]
      exact ⟨(if_pos ⟨rfl, rfl⟩).trans (ht.mountPoint_crossed hdev hi hnr),
        ht.directory k i hdev hi⟩
  rw [step_eq hup.1, hparent hup.2, Option.map_some, show (l.1, l.2) = l from rfl,
    h.crossed_self ht hd]

/-- One component moves a trail as it changes the names. -/
theorem Trail.step (ht : Tree s) (hd : Dots s) (h : Trail s names l)
    (hname : ∀ c ∈ name, c ≠ 0 ∧ isSeparator c = false) (hstep : step s l name = some m)
    (hdir : isDir (fieldOf s m .mode) = true) : Trail s (applyName names name) m := by
  unfold applyName
  by_cases hdot : name = [46]
  · rw [if_pos hdot]
    subst hdot
    have hstay : up s l [46] = some l := if_neg fun hup => absurd hup.1 (by decide)
    rw [step_eq hstay, hd.dot l (h.onTree ht), Option.map_some, show (l.1, l.2) = l from rfl,
      h.crossed_self ht hd] at hstep
    cases hstep
    exact h
  · rw [if_neg hdot]
    by_cases hdots : name = dotdot
    · rw [if_pos hdots]
      subst hdots
      cases h with
      | root =>
          obtain ⟨hone, hmount, hself⟩ := hd.root
          have hroot : (loc s s.task.iroot).1 = (loc s s.task.iroot).1 := rfl
          rw [step_eq ((if_pos ⟨rfl, hone⟩).trans hmount), hself, Option.map_some,
            show ((loc s s.task.iroot).1, 1) = loc s s.task.iroot from Prod.ext rfl hone.symm,
            (Trail.root (s := s)).crossed_self ht hd] at hstep
          cases hstep
          exact .root
      | snoc hinit hproper hlast hdir' =>
          rw [hinit.back ht hd hproper hlast hdir'] at hstep
          cases hstep
          rw [List.dropLast_concat]
          exact hinit
    · rw [if_neg hdots]
      refine h.snoc ⟨?_, hdot, hdots, hname⟩ hstep hdir
      rintro rfl
      have hstay : up s l [] = some l := if_neg fun hup => absurd hup.1 (by decide)
      rw [step_eq hstay, ht.child_nil (h.onTree ht)] at hstep
      cases hstep

theorem Trail.walk (ht : Tree s) (hd : Dots s) {path : List Path} (h : Trail s names l)
    (hwalk : walk s l path = some m)
    (hpath : ∀ name ∈ path, ∀ c ∈ name, c ≠ 0 ∧ isSeparator c = false) :
    Trail s (path.foldl applyName names) m := by
  induction path generalizing names l with
  | nil =>
      cases hwalk
      exact h
  | cons name path ih =>
      obtain ⟨t, hstep, hrest⟩ := Option.bind_eq_some_iff.mp hwalk
      split at hrest
      · rename_i hsearched
        have hdir := (Bool.and_eq_true_iff.mp hsearched).1
        exact ih (h.step ht hd (hpath name List.mem_cons_self) hstep hdir) hrest
          fun w hw => hpath w (List.mem_cons_of_mem name hw)
      · cases hrest

end Ylos.Paths
