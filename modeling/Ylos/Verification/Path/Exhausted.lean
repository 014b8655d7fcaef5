import Ylos.Verification.Alloc.Inodes
import Ylos.Verification.Index.Exhausted
import Ylos.Verification.Path.Create

/-! # Calls that find no inode or no zone left -/

namespace Ylos.Paths

open Exec Dir Index

variable {α β : Type} {s s' : Fs} {path name : Path} {flags mode i dir : ℕ}

/-! ## An entry is made -/

/-- `x` answers `a` wherever it returns. -/
def Always (a : α) (x : K α) : Prop := ∀ s, wp (fun _ => True) x (fun r _ => r = a) s

theorem always_pure (a : α) : Always a (pure a : K α) := fun _ => (wp_pure a).mpr rfl

theorem Always.after {x : K β} {f : β → K α} {a : α} (hf : ∀ b, Always a (f b)) :
    Always a (x >>= f) := fun _ => wp_rest fun b s' => hf b s'

theorem Always.ite {p : Prop} [Decidable p] {x y : K α} {a : α} (hx : Always a x)
    (hy : Always a y) : Always a (if p then x else y) := by
  split
  · exact hx
  · exact hy

theorem always_rollback (r : Ret) (b : Option BufRef) (l : List (Option ℕ)) :
    Always r (rollback r b l) :=
  .after fun _ => .after fun _ => always_pure r

/-- `sys_mkdir` and `sys_mknod` come to make an entry: the task may write the directory, and the
name is not there. -/
def Makes (path : Path) (s : Fs) : Prop :=
  ∃ dir name s₁ l₁ dir' s₂ l₂, (named path).run s = .ok (some (dir, name), s₁, l₁) ∧
    chr name ≠ 0 ∧ allowed s₁.task P_WRITE (s₁.desc dir .mode) (s₁.desc dir .nlinks)
      (s₁.desc dir .uid) (s₁.desc dir .gid) = true ∧
    (findEntry dir name).run s₁ = .ok ((dir', none), s₂, l₂)

/-- Nothing after the search makes `sys_mkdir` fail. -/
theorem wp_sysMkdir (h : Makes path s) :
    wp (fun _ => True) (sysMkdir path mode) (fun r _ => r = .ok) s := by
  obtain ⟨dir, name, s₁, l₁, dir', s₂, l₂, hnamed, hname, hallowed, hfind⟩ := h
  unfold sysMkdir
  refine wp_bind_run hnamed ?_
  dsimp only
  rw [if_neg hname]
  refine wp_bind_run (run_permission dir P_WRITE) ?_
  rw [hallowed, if_neg (by decide)]
  refine wp_bind_run hfind ?_
  dsimp only
  refine (show Always Ret.ok _ from ?_) s₂
  repeat refine Always.after fun _ => ?_
  exact always_pure _

theorem wp_sysMknod {dev : ℕ} (h : Makes path s) :
    wp (fun _ => True) (sysMknod path mode dev) (fun r _ => r = .ok) s := by
  obtain ⟨dir, name, s₁, l₁, dir', s₂, l₂, hnamed, hname, hallowed, hfind⟩ := h
  unfold sysMknod
  refine wp_bind_run hnamed ?_
  dsimp only
  rw [if_neg hname]
  refine wp_bind_run (run_permission dir P_WRITE) ?_
  rw [hallowed, if_neg (by decide)]
  refine wp_bind_run hfind ?_
  dsimp only
  refine (show Always Ret.ok _ from ?_) s₂
  repeat refine Always.after fun _ => ?_
  exact .ite (.after fun _ => always_rollback _ _ _) (always_rollback _ _ _)

/-- Where `inode_open` comes to create a file, it creates one or does not return. -/
theorem after_creates (h : Creates path flags s) :
    after (inodeOpen path flags mode) (fun _ _ l => ∃ e ∈ l, ¬Existing e) s := by
  obtain ⟨dir, name, s₁, l₁, dir', s₂, l₂, hnamed, hname, hfind, hflag, hallowed⟩ := h
  obtain rfl : l₁ = [] := (unwritten_named path).silent _ _ _ _ hnamed
  obtain rfl : l₂ = [] := (unwritten_findEntry dir name).silent _ _ _ _ hfind
  unfold inodeOpen
  refine after_bind_run hnamed ?_
  dsimp only
  rw [if_neg hname, ← truncFlags]
  refine after_bind_run hfind ?_
  dsimp only
  rw [truncFlags_creat, if_neg hflag]
  refine after_bind_run (run_permission dir' P_WRITE) ?_
  rw [hallowed, if_neg (by decide)]
  exact after_mono after_createdOpen fun _ _ _ hcreated => hcreated.2

/-! ## Nothing is left -/

/-- What may be used up. -/
inductive Resource where
  | inode
  | zone

/-- Calls that take inodes and zones. -/
inductive Taker where
  | mkdir (path : Path) (mode : ℕ)
  | mknod (path : Path) (mode dev : ℕ)
  | creat (path : Path) (flags mode : ℕ)
  | write (i : ℕ) (data : ℕ → UInt8) (len offset : ℕ)

/-- The device has no clear bit in the `k` blocks `blocks` of a bitmap; that of the zones has fewer
blocks than there may be. -/
def NoneLeft (dev : ℤ) (d : SuperDesc) (k : ℕ) (blocks : ℕ → BufRef) (vs : Set Site) (s : Fs) :
    Resource → Prop
  | .inode => InodeMap dev d k blocks s ∧ ∀ n ∈ inodeRange k, n ∈ inodeBits k blocks s
  | .zone => Volume dev d k blocks vs s ∧ Exhausted dev d k blocks s

/-- The call comes to take one. A new file takes an inode in any case, and a zone if it is a
directory or if the directory that it is in has to grow; a write takes a zone for the first block
without one. -/
def Taker.Needs (vs : Set Site) (s : Fs) : Taker → Resource → Prop
  | .mkdir path _, _ => Makes path s
  | .mknod path _ _, _ => Makes path s
  | .creat path flags _, _ => Creates path flags s
  | .write _ _ _ _, .inode => False
  | .write i _ len offset, .zone => siteAt s i ∈ vs ∧ ∃ p, offset ≤ p ∧ p < offset + len ∧
      p / BLOCK_SIZE < TOTAL_BLOCK ∧ fileZone s (siteAt s i) (p / BLOCK_SIZE) = 0

/-- The call returns, with a failure or a number of bytes, and no inode has been created. -/
def Taker.Refused (s : Fs) : Taker → Prop
  | .mkdir path mode => ∃ s' l, (sysMkdir path mode).run s = .ok (.eof, s', l)
  | .mknod path mode dev => ∃ s' l, (sysMknod path mode dev).run s = .ok (.eof, s', l)
  | .creat path flags mode => ∃ s' l, (inodeOpen path flags mode).run s = .ok (none, s', l) ∧
      ∀ e ∈ l, Existing e
  | .write i data len offset => ∃ n s' l, (inodeWrite i data len offset).run s = .ok (n, s', l)

section NoneLeft

variable {dev : ℤ} {d : SuperDesc} {k : ℕ} {blocks : ℕ → BufRef} {vs : Set Site} {r : Resource}
  {c : Taker}

/-- Where nothing is left, no call that needs something is refused. -/
theorem not_refused (hnone : NoneLeft dev d k blocks vs s r) (hneeds : c.Needs vs s r) :
    ¬c.Refused s := by
  cases c with
  | mkdir path mode =>
      intro hrefused
      obtain ⟨s', l, hrun⟩ := hrefused
      exact nomatch wp_sysMkdir hneeds _ _ _ hrun fun _ _ => trivial
  | mknod path mode dev =>
      intro hrefused
      obtain ⟨s', l, hrun⟩ := hrefused
      exact nomatch wp_sysMknod hneeds _ _ _ hrun fun _ _ => trivial
  | creat path flags mode =>
      intro hrefused
      obtain ⟨s', l, hrun, hold⟩ := hrefused
      obtain ⟨e, he, hnew⟩ := after_creates hneeds _ _ _ hrun
      exact hnew (hold e he)
  | write i data len offset =>
      intro hrefused
      obtain ⟨n, s', l, hrun⟩ := hrefused
      cases r with
      | inode => exact hneeds
      | zone =>
          obtain ⟨hvol, hfull⟩ := hnone
          obtain ⟨hv, p, hlow, hhigh, hblock, hunmapped⟩ := hneeds
          obtain ⟨e, herror⟩ : ∃ e, (inodeWrite i data len offset).run s = .error e :=
            run_inodeWrite_exhausted hvol hfull hv hlow hhigh hblock hunmapped
          rw [herror] at hrun
          cases hrun

end NoneLeft

/-! ## A small device with all its zones in use -/

/-- The file of one descriptor that `dusty` has. -/
def loneSite : Site := ⟨1, ⟨1, 4⟩, 0⟩

def crowded : Fs := (dusty []).setImg ⟨1, 3⟩ fun _ => 0xFF

theorem crowded_bit {z : ℕ} (hz : smallDesc.firstdatazone - 1 ≤ z)
    (hz' : z < smallDesc.firstdatazone - 1 + 1 * BLOCK_BITS) :
    z ∈ zoneBits smallDesc 1 (fun _ => ⟨1, 3⟩) crowded :=
  mem_usedBits.mpr ⟨hz, hz', bitAt_ones _⟩

theorem crowded_map : ZoneMap 1 smallDesc 1 (fun _ => ⟨1, 3⟩) crowded :=
  zoneMap_congr (@dusty_volume []).map rfl fun _ _ => rfl

theorem crowded_tree : SameTree (dusty []) crowded loneSite :=
  .of_data (fun _ _ _ => rfl) fun _ _ hp hne => absurd (dusty_ptr hp) hne

theorem crowded_ptr {n : ℕ} {p : Place} (hp : Level n p) : ptr crowded loneSite p = 0 :=
  (crowded_tree.ptr hp).trans (dusty_ptr hp)

theorem crowded_volume : Volume 1 smallDesc 1 (fun _ => ⟨1, 3⟩) {loneSite} crowded where
  map := crowded_map
  reserved := ⟨crowded_bit le_rfl (by decide), fun _ _ hz hz' => crowded_bit hz hz'⟩
  head := (@dusty_volume []).head
  maps := (@dusty_volume []).maps
  onDev := (@dusty_volume []).onDev
  home := (@dusty_volume []).home
  offMap := (@dusty_volume []).offMap
  offHead := (@dusty_volume []).offHead
  used v hv n p hp hne := by
    obtain rfl : v = loneSite := hv
    exact absurd (crowded_ptr hp) hne
  distinct v hv v' hv' n p n' p' hp hp' hne := by
    obtain rfl : v = loneSite := hv
    exact absurd (crowded_ptr hp) hne

theorem crowded_full :
    NoneLeft 1 smallDesc 1 (fun _ => ⟨1, 3⟩) {loneSite} crowded .zone :=
  ⟨crowded_volume, crowded_map, by decide, fun _ hz hz' => crowded_bit hz hz'⟩

theorem crowded_needs : (Taker.write 0 (fun _ => 7) 1 0).Needs {loneSite} crowded .zone := by
  have hlow : 0 < TOTAL_BLOCK := by decide
  refine ⟨rfl, 0, le_rfl, by decide, hlow, ?_⟩
  exact (fileZone_eq hlow).trans (crowded_ptr (blockPlace_level hlow))

/-- The first byte of the file cannot be written: an assertion fails. -/
theorem exists_not_refused :
    NoneLeft 1 smallDesc 1 (fun _ => ⟨1, 3⟩) {loneSite} crowded .zone ∧
      (Taker.write 0 (fun _ => 7) 1 0).Needs {loneSite} crowded .zone ∧
      (inodeWrite 0 (fun _ => 7) 1 0).run crowded = .error .assertion := by
  refine ⟨crowded_full, crowded_needs, ?_⟩
  have hzero : fileZone crowded (siteAt crowded 0) 0 = 0 :=
    (fileZone_eq (by decide)).trans (crowded_ptr (blockPlace_level (by decide)))
  have hbmap := crowded_full.2.run_bmap (i := 0) rfl (by decide) hzero
  unfold inodeWrite
  rw [run_bind _ (show (getField 0 .mode).run crowded = .ok (0o100644, crowded, []) from rfl),
    run_bind _ (run_check_pos (show isReg 0o100644 = true from rfl) crowded)]
  unfold writeLoop
  exact run_bind_error _ (run_bind_error _ hbmap)

theorem crowded_not_refused : ¬(Taker.write 0 (fun _ => 7) 1 0).Refused crowded :=
  not_refused crowded_full crowded_needs

end Ylos.Paths
