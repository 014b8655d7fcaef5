import Ylos.Verification.Dir.Slots
import Ylos.Verification.Refs.Ledger

/-! # The tree of the mounted file systems

What a path leads to, in terms of the data on the devices and of what is mounted where.
No code is looked at here. -/

namespace Ylos.Paths

open Dir

/-- A device and the number of an inode. -/
abbrev Loc := ℤ × ℕ

/-- Where an inode in core comes from. -/
def loc (s : Fs) (i : ℕ) : Loc := ((s.inodes i).dev, (s.inodes i).nr)

/-- The super block of a device. -/
def superOf (s : Fs) (dev : ℤ) : Option ℕ :=
  (List.range SUPER_NR).find? fun k => (s.supers k).dev = dev

/-- Where the descriptor of an inode is. -/
def siteOf (s : Fs) (l : Loc) : Site :=
  ⟨l.1, ⟨l.1, inodeBlock (s.superDesc ((superOf s l.1).getD 0)) l.2⟩, pred l.2 % BLOCK_INODES⟩

/-- A field of the descriptor of an inode. -/
def fieldOf (s : Fs) (l : Loc) (f : Field) : ℕ := descOf s (siteOf s l) f

/-- The number that a directory has for a name: that of the first slot in use with it. -/
def child (s : Fs) (l : Loc) (name : Path) : Option ℕ :=
  ((List.range (slotCount s (siteOf s l))).find? fun i =>
    slotNr s (siteOf s l) i ≠ 0 ∧ nameAt (slotByte s (siteOf s l) i) = name).map
      (slotNr s (siteOf s l))

/-- The directory that a device is mounted on. -/
def mountPoint (s : Fs) (dev : ℤ) : Option Loc :=
  (superOf s dev).bind fun k => (s.supers k).imount.map (loc s)

/-- A directory that something is mounted on gives way to the root of that. -/
def crossed (s : Fs) (l : Loc) : Loc :=
  match (List.range SUPER_NR).find? fun k =>
    (s.supers k).dev ≠ NODEV ∧ (s.supers k).imount.map (loc s) = some l with
  | some k => ((s.supers k).dev, 1)
  | none => l

/-- The name `..`. -/
def dotdot : Path := [46, 46]

/-- The directory to look in for a name: at a root, `..` is a name of the mount point. -/
def up (s : Fs) (l : Loc) (name : Path) : Option Loc :=
  if name = dotdot ∧ l.2 = 1 then mountPoint s l.1 else some l

/-- One step along a path. -/
def step (s : Fs) (l : Loc) (name : Path) : Option Loc :=
  (up s l name).bind fun d => (child s d name).map fun nr => crossed s (d.1, nr)

/-- What `permission` computes from the mode, the link count and the two owners. -/
def allowed (task : Task) (mask mode nlinks uid gid : ℕ) : Bool :=
  if nlinks = 0 then false
  else if task.uid = 0 then true
  else
    let mode := if task.uid = uid then mode >>> 6 else if task.gid = gid then mode >>> 3 else mode
    mode &&& mask &&& 0b111 = mask

/-- A directory that the task may search. -/
def searched (s : Fs) (l : Loc) : Bool :=
  isDir (fieldOf s l .mode) && allowed s.task P_EXEC (fieldOf s l .mode) (fieldOf s l .nlinks)
    (fieldOf s l .uid) (fieldOf s l .gid)

/-- The way along components that are followed by a separator. -/
def walk (s : Fs) : Loc → List Path → Option Loc
  | l, [] => some l
  | l, name :: names =>
    (step s l name).bind fun l => if searched s l then walk s l names else none

/-- The components of a path without its leading separator. -/
noncomputable def components (path : Path) : List Path := path.splitOnP isSeparator

/-- Where a path begins, and what follows there. -/
def start (s : Fs) : Path → Option (Loc × Path)
  | [] => none
  | c :: path =>
    some (if isSeparator c then (loc s s.task.iroot, path) else (loc s s.task.ipwd, c :: path))

/-- The directory of the last component of a path, and that component. -/
noncomputable def parent (s : Fs) (path : Path) : Option (Loc × Path) :=
  (start s path).bind fun (l, left) =>
    (walk s l (components left).dropLast).map fun l => (l, (components left).getLastD [])

/-- What a path leads to. -/
noncomputable def resolve (s : Fs) (path : Path) : Option Loc :=
  (parent s path).bind fun (l, name) => if name = [] then some l else step s l name

/-- What can be walked to from the root and from the current directory. -/
inductive Reachable (s : Fs) : Loc → Prop
  | iroot : Reachable s (loc s s.task.iroot)
  | ipwd : Reachable s (loc s s.task.ipwd)
  | up {l d : Loc} {name : Path} : Reachable s l → isDir (fieldOf s l .mode) = true →
      up s l name = some d → Reachable s d
  | down {l : Loc} {name : Path} {nr : ℕ} : Reachable s l → isDir (fieldOf s l .mode) = true →
      child s l name = some nr → Reachable s (crossed s (l.1, nr))

/-- Slot `i` of a directory has a block and a name that ends, and if it is in use, then it
names an inode by a name of 1 to 13 bytes without separators. -/
structure Slot (s : Fs) (l : Loc) (i : ℕ) : Prop where
  block : i / BLOCK_DENTRIES < TOTAL_BLOCK
  zone : fileZone s (siteOf s l) (i / BLOCK_DENTRIES) ≠ 0
  name : ∃ n ≤ 13, slotByte s (siteOf s l) i n = 0
  nonempty : slotNr s (siteOf s l) i ≠ 0 → nameAt (slotByte s (siteOf s l) i) ≠ []
  plain : slotNr s (siteOf s l) i ≠ 0 →
    ∀ c ∈ nameAt (slotByte s (siteOf s l) i), isSeparator c = false
  inode : slotNr s (siteOf s l) i ≤ (s.superDesc ((superOf s l.1).getD 0)).inodes

/-- The device has a root and is mounted somewhere. -/
def Hosted (s : Fs) (dev : ℤ) : Prop :=
  ∃ k, superOf s dev = some k ∧ (∃ r, (s.supers k).iroot = some r ∧ loc s r = (dev, 1)) ∧
    ∃ m, (s.supers k).imount = some m

/-- The inodes in core are those of the devices: each is in the list of its super block, its
descriptor is in its place, and no two are the same inode. -/
structure Placed (s₀ s : Fs) : Prop where
  img : s.img = s₀.img
  buf : ∀ k, (s.supers k).buf = (s₀.supers k).buf
  site : ∀ i, Refs.InCore s i → siteAt s i = siteOf s₀ (loc s i)
  super : ∀ i, Refs.InCore s i →
    ∃ k, superOf s₀ (s.inodes i).dev = some k ∧ i ∈ (s.supers k).inodeList
  hosted : ∀ i, Refs.InCore s i → Hosted s₀ (s.inodes i).dev
  listed : ∀ k, ∀ i ∈ (s.supers k).inodeList, (s.inodes i).dev = (s.supers k).dev
  unique : ∀ i j, Refs.InCore s i → Refs.InCore s j → loc s i = loc s j → i = j

/-- A state between two system calls, with directory trees on the mounted devices. -/
structure Tree (s : Fs) : Prop extends Refs.WellFormed s where
  placed : Placed s s
  /-- The root is the first inode in core. -/
  first : Refs.InCore s 0
  kept : ∀ b, (Refs.kept s b : ℤ) ≤ s.refs b
  /-- `mount` names the device that is mounted on the inode. -/
  mounted : ∀ i, (s.inodes i).mount ≠ 0 → Hosted s (s.inodes i).mount ∧
    ∀ k, superOf s (s.inodes i).mount = some k → (s.supers k).imount = some i
  /-- Only the root of all is mounted on itself, and then `mount` is not set. -/
  mounts : ∀ k i, (s.supers k).dev ≠ NODEV → (s.supers k).imount = some i →
    ((s.inodes i).mount = (s.supers k).dev ∧ (s.inodes i).mount ≠ 0) ∨
      ((s.inodes i).mount = 0 ∧ loc s i = ((s.supers k).dev, 1))
  start : isDir (fieldOf s (loc s s.task.iroot) .mode) = true ∧
    isDir (fieldOf s (loc s s.task.ipwd) .mode) = true
  slots : ∀ l, Reachable s l → isDir (fieldOf s l .mode) = true →
    ∀ i < slotCount s (siteOf s l), Slot s l i
  /-- What is mounted on is a directory. -/
  directory : ∀ k i, (s.supers k).dev ≠ NODEV → (s.supers k).imount = some i →
    isDir (fieldOf s (loc s i) .mode) = true

end Ylos.Paths
