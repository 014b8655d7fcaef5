import Ylos.Model.Fs.Inode

/-! # Directories and path names (`fs/namei.c`) -/

namespace Ylos

open Exec

/-- A pointer into a path name: the bytes from there to the terminating zero. -/
abbrev Path := List UInt8

/-- `*p`, the terminating zero included. -/
def chr (p : Path) : UInt8 := p.headD 0

/-- `IS_SEPARATOR`: a slash or a backslash. -/
def isSeparator (c : UInt8) : Bool := c = 47 || c = 92

/-- `strrsep`: the last separator of a string. -/
def strrsep : Path → Option Path
  | [] => none
  | c :: p =>
    match strrsep p with
    | some q => some q
    | none => if isSeparator c then some (c :: p) else none

def P_EXEC : ℕ := 1

def P_WRITE : ℕ := 2

def O_ACCMODE : ℕ := 0o3

def O_RDONLY : ℕ := 0o0

def O_RDWR : ℕ := 0o2

def O_CREAT : ℕ := 0o100

def O_TRUNC : ℕ := 0o1000

/-- `ACC_MODE`; the last entry is a `char` of value -1, widened to `u16`. -/
def accMode (flag : ℕ) : ℕ :=
  match flag &&& O_ACCMODE with
  | 0 => 4
  | 1 => 2
  | 2 => 6
  | _ => 0xFFFF

def permission (i mask : ℕ) : K Bool := do
  let mode ← getField i .mode
  if (← getField i .nlinks) = 0 then
    return false
  else
    let task ← gets (·.task)
    if task.uid = 0 then
      return true
    else
      let uid ← getField i .uid
      let gid ← getField i .gid
      let mode := if task.uid = uid then mode >>> 6 else if task.gid = gid then mode >>> 3 else mode
      return mode &&& mask &&& 0b111 = mask

/-! ## Entries -/

/-- The comparing loop of `match_name`, over the stored name that `rhs` reads. -/
def matchLoop (rhs : ℕ → K UInt8) : Path → (at_ : ℕ) → K (Path × ℕ)
  | [], k => do
    -- `*rhs` is read also here
    let _ ← rhs k
    return ([], k)
  | c :: lhs, k => do
    let r ← rhs k
    if c = r ∧ c ≠ 0 ∧ r ≠ 0 then matchLoop rhs lhs (k + 1) else return (c :: lhs, k)

/-- `match_name`: what follows the name in the path, if the names are equal. -/
def matchName (name : Path) (rhs : ℕ → K UInt8) : K (Option Path) := do
  let (lhs, k) ← matchLoop rhs name 0
  if (← rhs k) ≠ 0 then
    return none
  else if chr lhs ≠ 0 ∧ ¬isSeparator (chr lhs) then
    return none
  else
    return some (if isSeparator (chr lhs) then lhs.tail else lhs)

/-- A byte of an entry's name; the name may run past the end of the buffer. -/
def nameByte (b : BufRef) (off k : ℕ) : K UInt8 := do
  if off + 2 + k < BLOCK_SIZE then gets fun s => s.data b (off + 2 + k) else fault .wild

def dotDot (k : ℕ) : K UInt8 := pure (if k < 2 then 46 else 0)

/-- A directory entry: its buffer, its byte there, and the path after its name. -/
structure Found where
  buf : BufRef
  off : ℕ
  next : Path
  deriving DecidableEq, Repr

/-- `entry->nr`. -/
def entryNr (e : Found) : K ℕ := getU16 e.buf e.off 0

def setEntryNr (e : Found) (nr : ℕ) : K Unit := putU16 e.buf e.off 0 nr

/-- The step of the directory loops to the block of entry `i`, when `entry` is not
inside `buf`. -/
def entryBlock (dir i : ℕ) (create : Bool) (buf : Option BufRef) (off : ℕ) :
    K (BufRef × ℕ) := do
  match buf with
  | some b =>
    if off < BLOCK_SIZE then
      return (b, off)
    else
      brelse buf
      let block ← bmap dir (i / BLOCK_DENTRIES) create
      check (block ≠ 0)
      return (← bread (← gets (·.inodes dir)).dev block, 0)
  | none =>
    let block ← bmap dir (i / BLOCK_DENTRIES) create
    check (block ≠ 0)
    return (← bread (← gets (·.inodes dir)).dev block, 0)

def findLoop (dir : ℕ) (name : Path) :
    (n i : ℕ) → Option BufRef → (off : ℕ) → K (Option Found)
  | 0, _, buf, _ => do
    brelse buf
    return none
  | n + 1, i, buf, off => do
    let (buf, off) ← entryBlock dir i false buf off
    let rest ← findLoop.test buf off
    match rest with
    | some next => return some ⟨buf, off, next⟩
    | none => findLoop dir name n (i + 1) (some buf) (off + DENTRY_SIZE)
where
  test (buf : BufRef) (off : ℕ) : K (Option Path) := do
    match ← matchName name (nameByte buf off) with
    | none => return none
    | some next => if (← getU16 buf off 0) ≠ 0 then return some next else return none

/-- `find_entry`: the directory, which `..` may have changed, and the entry. -/
def findEntry (dir : ℕ) (name : Path) : K (ℕ × Option Found) := do
  check (isDir (← getField dir .mode))
  let up ← matchName name dotDot
  let dir ←
    if up.isSome ∧ (← gets (·.inodes dir)).nr = 1 then do
      let sb ← theSuper (← gets (·.inodes dir)).dev
      let mount ← deref (← gets (·.supers sb)).imount
      incCount mount
      iput (some dir)
      pure mount
    else pure dir
  let entries := (← getField dir .size) / DENTRY_SIZE
  return (dir, ← findLoop dir name entries 0 none 0)

/-- `strncpy(entry->name, name, NAME_LEN)`. -/
def copyName (e : Found) (name : Path) : K Unit :=
  setData e.buf fun m => m.copy (e.off + 2) (min (name.length + 1) NAME_LEN) fun k =>
    if k = NAME_LEN - 1 then 0 else name.getD k 0

def addLoop (dir : ℕ) (name : Path) :
    (fuel i : ℕ) → Option BufRef → (off : ℕ) → K Found
  | 0, _, _, _ => fault .assertion
  | fuel + 1, i, buf, off => do
    let (buf, off) ← entryBlock dir i true buf off
    let entry : Found := ⟨buf, off, []⟩
    if (← getField dir .size) ≤ i * DENTRY_SIZE then
      setEntryNr entry 0
      setField dir .size ((i + 1) * DENTRY_SIZE)
      dirtyInode dir
    if (← entryNr entry) ≠ 0 then
      addLoop dir name fuel (i + 1) (some buf) (off + DENTRY_SIZE)
    else
      copyName entry name
      setDirty buf
      setField dir .mtime (← gets (·.now))
      dirtyInode dir
      return entry

/-- `add_entry`. The loop ends at the latest at the first entry past `size`, so
`size / DENTRY_SIZE + 2` rounds are enough. -/
def addEntry (dir : ℕ) (name : Path) : K Found := do
  let (dir, found) ← findEntry dir name
  match found with
  | some e => return e
  | none =>
    check ((name.take NAME_LEN).all fun c => !isSeparator c)
    addLoop dir name ((← getField dir .size) / DENTRY_SIZE + 2) 0 none 0

/-! ## Paths -/

/-- The loop of `named` from `left` on; `right` is the last component. -/
def namedLoop (right : Path) : (fuel i : ℕ) → (left : Path) → Option BufRef →
    K (Option (ℕ × Path))
  | 0, _, _, _ => fault .assertion
  | fuel + 1, i, left, buf => do
    brelse buf
    let (i, found) ← findEntry i left
    match found with
    | none =>
      iput (some i)
      return none
    | some e =>
      let dev := (← gets (·.inodes i)).dev
      iput (some i)
      let i ← iget dev (← entryNr e)
      if !isDir (← getField i .mode) || !(← permission i P_EXEC) then
        brelse (some e.buf)
        iput (some i)
        return none
      else if right.length = e.next.length then
        brelse (some e.buf)
        return some (i, e.next)
      else
        namedLoop right fuel i e.next (some e.buf)

/-- `named`: the directory of the last component and that component. Each round takes
a component off the path, so its length bounds the rounds. -/
def named (pathname : Path) : K (Option (ℕ × Path)) := do
  let task ← gets (·.task)
  match pathname with
  | [] => return none
  | c :: rest =>
    let (i, left) := if isSeparator c then (task.iroot, rest) else (task.ipwd, c :: rest)
    incCount i
    if chr left = 0 then
      return some (i, left)
    else
      match strrsep left with
      | none => return some (i, left)
      | some right => namedLoop right.tail (left.length + 1) i left none

def namei (pathname : Path) : K (Option ℕ) := do
  match ← named pathname with
  | none => return none
  | some (dir, next) =>
    if chr next = 0 then
      return some dir
    else
      let (dir, found) ← findEntry dir next
      match found with
      | none =>
        iput (some dir)
        return none
      | some e =>
        let i ← iget (← gets (·.inodes dir)).dev (← entryNr e)
        iput (some dir)
        brelse (some e.buf)
        return some i

/-! ## System calls -/

/-- The common `rollback` of the calls below. -/
def rollback (ret : Ret) (buf : Option BufRef) (inodes : List (Option ℕ)) : K Ret := do
  brelse buf
  inodes.forM iput
  return ret

/-- The buffer behind the entry that a call may have found. -/
def Found.buf? (e : Option Found) : Option BufRef := e.map Found.buf

def sysMkdir (pathname : Path) (mode : ℕ) : K Ret := do
  match ← named pathname with
  | none => rollback .eof none [none]
  | some (dir, name) =>
    if chr name = 0 then
      rollback .eof none [some dir]
    else if !(← permission dir P_WRITE) then
      rollback .eof none [some dir]
    else
      let (dir, found) ← findEntry dir name
      match found with
      | some e => rollback .eof (some e.buf) [some dir]
      | none =>
        let entry ← addEntry dir name
        setDirty entry.buf
        let dev := (← gets (·.inodes dir)).dev
        setEntryNr entry (← ialloc dev)
        let task ← gets (·.task)
        let i ← newInode dev (← entryNr entry)
        setField i .mode ((mode &&& 0o777 &&& (0xFFFF ^^^ task.umask)) ||| IFDIR)
        noteInode i
        setField i .size (DENTRY_SIZE * 2)
        setField i .nlinks 2
        dirtyInode dir
        note (.links (← getField dir .nlinks))
        setField dir .nlinks ((← getField dir .nlinks) + 1)
        let zbuf ← bread (← gets (·.inodes i)).dev (← bmap i 0 true)
        setDirty zbuf
        let dot : Found := ⟨zbuf, 0, []⟩
        setData zbuf fun m => m.copy 2 2 fun k => if k = 0 then 46 else 0
        setEntryNr dot (← gets (·.inodes i)).nr
        let dotdot : Found := ⟨zbuf, DENTRY_SIZE, []⟩
        setData zbuf fun m => m.copy (DENTRY_SIZE + 2) 3 fun k => if k < 2 then 46 else 0
        setEntryNr dotdot (← gets (·.inodes dir)).nr
        iput (some i)
        iput (some dir)
        brelse (some entry.buf)
        brelse (some zbuf)
        return .ok

/-- The loop of `is_empty`: the number of entries in use. -/
def countLoop (i : ℕ) : (n k : ℕ) → Option BufRef → (off : ℕ) → (count : ℕ) → K ℕ
  | 0, _, buf, _, count => do
    brelse buf
    return count
  | n + 1, k, buf, off, count => do
    let (buf, off) ← entryBlock i k false buf off
    let nr ← getU16 buf off 0
    countLoop i n (k + 1) (some buf) (off + DENTRY_SIZE) (if nr ≠ 0 then count + 1 else count)

def isEmpty (i : ℕ) : K Bool := do
  check (isDir (← getField i .mode))
  let entries := (← getField i .size) / DENTRY_SIZE
  if entries < 2 ∨ (← getField i (.zone 0)) = 0 then
    return false
  else
    let count ← countLoop i entries 0 none 0 0
    return count = 2

def sysRmdir (pathname : Path) : K Ret := do
  match ← named pathname with
  | none => rollback .eof none [none, none]
  | some (dir, name) =>
    if chr name = 0 then
      rollback .eof none [none, some dir]
    else if !(← permission dir P_WRITE) then
      rollback .eof none [none, some dir]
    else
      let (dir, found) ← findEntry dir name
      match found with
      | none => rollback .eof none [none, some dir]
      | some e =>
        let i ← iget (← gets (·.inodes dir)).dev (← entryNr e)
        if i = dir ∨ !isDir (← getField i .mode) then
          rmdirEnd .eof i dir e
        else if (← getField dir .mode) &&& ISVTX ≠ 0 ∧
            (← gets (·.task.uid)) ≠ (← getField i .uid) then
          rmdirEnd .eof i dir e
        else if (← gets (·.inodes dir)).dev ≠ (← gets (·.inodes i)).dev ∨
            1 < (← gets (·.inodes i)).count then
          rmdirEnd .eof i dir e
        else if !(← isEmpty i) then
          rmdirEnd .eof i dir e
        else
          check ((← getField i .nlinks) = 2)
          inodeTruncate i
          ifree (← gets (·.inodes i)).dev (← gets (·.inodes i)).nr
          setField i .nlinks 0
          dirtyInode i
          modifyInode i fun inode => { inode with nr := 0 }
          setField dir .nlinks ((← getField dir .nlinks) + 255)
          setField dir .mtime (← gets (·.now))
          setAtime dir
          setCtime dir (← gets (·.now))
          dirtyInode dir
          check (0 < (← getField dir .nlinks))
          setEntryNr e 0
          setDirty e.buf
          rmdirEnd .ok i dir e
where
  rmdirEnd (ret : Ret) (i dir : ℕ) (e : Found) : K Ret := do
    iput (some i)
    iput (some dir)
    brelse (some e.buf)
    return ret

def sysLink (oldname newname : Path) : K Ret := do
  match ← namei oldname with
  | none => rollback .eof none [none, none]
  | some i =>
    if isDir (← getField i .mode) then
      rollback .eof none [some i, none]
    else
      match ← named newname with
      | none => rollback .eof none [some i, none]
      | some (dir, name) =>
        if chr name = 0 then
          rollback .eof none [some i, some dir]
        else if (← gets (·.inodes dir)).dev ≠ (← gets (·.inodes i)).dev then
          rollback .eof none [some i, some dir]
        else if !(← permission dir P_WRITE) then
          rollback .eof none [some i, some dir]
        else
          let (dir, found) ← findEntry dir name
          match found with
          | some e => rollback .eof (some e.buf) [some i, some dir]
          | none =>
            let entry ← addEntry dir name
            setEntryNr entry (← gets (·.inodes i)).nr
            setDirty entry.buf
            note (.links (← getField i .nlinks))
            setField i .nlinks ((← getField i .nlinks) + 1)
            setCtime i (← gets (·.now))
            dirtyInode i
            rollback .ok (some entry.buf) [some i, some dir]

def sysUnlink (filename : Path) : K Ret := do
  match ← named filename with
  | none => rollback .eof none [none, none]
  | some (dir, name) =>
    if chr name = 0 then
      rollback .eof none [none, some dir]
    else if !(← permission dir P_WRITE) then
      rollback .eof none [none, some dir]
    else
      let (dir, found) ← findEntry dir name
      match found with
      | none => rollback .eof none [none, some dir]
      | some e =>
        let i ← iget (← gets (·.inodes dir)).dev (← entryNr e)
        if isDir (← getField i .mode) then
          rollback .eof (some e.buf) [some i, some dir]
        else if (← getField i .mode) &&& ISVTX ≠ 0 ∧
            (← gets (·.task.uid)) ≠ (← getField i .uid) then
          rollback .eof (some e.buf) [some i, some dir]
        else
          setEntryNr e 0
          setDirty e.buf
          setField i .nlinks ((← getField i .nlinks) + 255)
          dirtyInode i
          if (← getField i .nlinks) = 0 then
            inodeTruncate i
            ifree (← gets (·.inodes i)).dev (← gets (·.inodes i)).nr
          rollback .ok (some e.buf) [some i, some dir]

def sysMknod (filename : Path) (mode dev : ℕ) : K Ret := do
  match ← named filename with
  | none => rollback .eof none [none, none]
  | some (dir, name) =>
    if chr name = 0 then
      rollback .eof none [none, some dir]
    else if !(← permission dir P_WRITE) then
      rollback .eof none [none, some dir]
    else
      let (dir, found) ← findEntry dir name
      match found with
      | some e => rollback .eof (some e.buf) [none, some dir]
      | none =>
        let entry ← addEntry dir name
        setDirty entry.buf
        setEntryNr entry (← ialloc (← gets (·.inodes dir)).dev)
        let i ← newInode (← gets (·.inodes dir)).dev (← entryNr entry)
        setField i .mode mode
        noteInode i
        if isBlk mode || isChr mode then setField i (.zone 0) dev
        rollback .ok (some entry.buf) [some i, some dir]

/-- From `makeup` on: the checks on the inode that was found or created. -/
def openMakeup (flag : ℕ) (dir i : ℕ) (e : Found) : K (Option ℕ) := do
  if !(← permission i (accMode flag)) then
    openFail
  else if isDir (← getField i .mode) ∧ flag &&& O_ACCMODE ≠ O_RDONLY then
    openFail
  else
    setAtime i
    if flag &&& O_TRUNC ≠ 0 then inodeTruncate i
    brelse (some e.buf)
    iput (some dir)
    return some i
where
  openFail : K (Option ℕ) := do
    brelse (some e.buf)
    iput (some dir)
    iput (some i)
    return none

def inodeOpen (pathname : Path) (flag mode : ℕ) : K (Option ℕ) := do
  match ← named pathname with
  | none => return none
  | some (dir, name) =>
    if chr name = 0 then
      return some dir
    else
      let flag := if flag &&& O_TRUNC ≠ 0 ∧ flag &&& O_ACCMODE = O_RDONLY
        then flag ||| O_RDWR else flag
      let (dir, found) ← findEntry dir name
      match found with
      | some e =>
        let i ← iget (← gets (·.inodes dir)).dev (← entryNr e)
        openMakeup flag dir i e
      | none =>
        if flag &&& O_CREAT = 0 then
          iput (some dir)
          return none
        else if !(← permission dir P_WRITE) then
          iput (some dir)
          return none
        else
          let e ← addEntry dir name
          setEntryNr e (← ialloc (← gets (·.inodes dir)).dev)
          let i ← newInode (← gets (·.inodes dir)).dev (← entryNr e)
          let task ← gets (·.task)
          setField i .mode ((mode &&& (0o777 &&& (0xFFFF ^^^ task.umask))) ||| IFREG)
          noteInode i
          openMakeup flag dir i e

/-! ## The current directory -/

/-- `strsep`: the first separator of a string. -/
def strsep (p : Path) : Option Path :=
  match p.dropWhile (!isSeparator ·) with
  | [] => none
  | q => some q

/-- The size of the page that holds `pwd`. -/
def PWD_SIZE : ℕ := 4096

/-- `cur = strrsep(pwd) + 1; *cur = 0`. Here and below `cur` is the end of `pwd`. -/
def cutLast (pwd : Path) : Except Fault Path :=
  match strrsep pwd with
  | none => .error .wild
  | some q => .ok (pwd.take (pwd.length - q.length + 1))

/-- Store the string at `cur`; the terminating zero has to fit. -/
def append (pwd str : Path) : Except Fault Path :=
  if pwd.length + str.length < PWD_SIZE then .ok (pwd ++ str) else .error .wild

/-- Take the last component off, unless `cur - 1` is the beginning of `pwd`. -/
def popLast (pwd : Path) : Except Fault Path :=
  if pwd.length = 1 then .ok pwd else cutLast (pwd.take (pwd.length - 1))

/-- The loop of `abspath`: the new `pwd`, and what is left of the path. Each round takes
at least one byte off. -/
def abspathLoop : (fuel : ℕ) → (pwd pathname : Path) → Except Fault (Path × Path)
  | 0, pwd, pathname => .ok (pwd, pathname)
  | fuel + 1, pwd, pathname =>
    if chr pathname = 0 then
      .ok (pwd, pathname)
    else
      match strsep pathname with
      | none => .ok (pwd, pathname)
      | some ptr => do
        let len := pathname.length - ptr.length + 1
        let pathname := pathname.set (len - 1) 47
        if pathname.take 2 = [46, 47] then
          abspathLoop fuel pwd (pathname.drop len)
        else if pathname.take 3 = [46, 46, 47] then
          abspathLoop fuel (← popLast pwd) (pathname.drop len)
        else
          abspathLoop fuel (← append pwd (pathname.take len)) (pathname.drop len)

def abspath (pwd pathname : Path) : Except Fault Path := do
  let (pwd, pathname) ←
    if isSeparator (chr pathname) then
      -- the first byte of `pwd` stays
      if pwd = [] then .error .wild else pure (pwd.take 1, pathname.tail)
    else
      pure (← cutLast pwd, pathname)
  let (pwd, pathname) ← abspathLoop pathname.length pwd pathname
  if chr pathname = 0 then
    return pwd
  else if pathname = [46] then
    return pwd
  else if pathname ≠ [46, 46] then
    append pwd (pathname ++ [47])
  else
    popLast pwd

def sysChdir (pathname : Path) : K Ret := do
  match ← namei pathname with
  | none => rollback .eof none [none]
  | some i =>
    let task ← gets (·.task)
    if !isDir (← getField i .mode) || i = task.ipwd then
      rollback .eof none [some i]
    else
      let pwd ← lift (abspath task.pwd pathname)
      modify fun s => { s with task := { s.task with pwd := pwd } }
      iput (some task.ipwd)
      modify fun s => { s with task := { s.task with ipwd := i } }
      return .ok

def sysChroot (pathname : Path) : K Ret := do
  match ← namei pathname with
  | none => rollback .eof none [none]
  | some i =>
    let task ← gets (·.task)
    if !isDir (← getField i .mode) || i = task.ipwd then
      rollback .eof none [some i]
    else
      iput (some task.iroot)
      modify fun s => { s with task := { s.task with iroot := i } }
      return .ok

/-! ## `fs/stat.c` -/

/-- `stat_t`. -/
structure Stat where
  dev : ℤ
  nr : ℕ
  mode : ℕ
  nlinks : ℕ
  uid : ℕ
  gid : ℕ
  rdev : ℕ
  size : ℕ
  atime : ℕ
  mtime : ℕ
  ctime : ℕ
  deriving DecidableEq, Repr

def copyStat (i : ℕ) : K Stat := do
  let inode ← gets (·.inodes i)
  return {
    dev := inode.dev
    nr := inode.nr
    mode := ← getField i .mode
    nlinks := ← getField i .nlinks
    uid := ← getField i .uid
    gid := ← getField i .gid
    rdev := ← getField i (.zone 0)
    size := ← getField i .size
    atime := inode.atime
    mtime := ← getField i .mtime
    ctime := inode.ctime }

/-- What the call stores at `statbuf`, or `EOF`. -/
def sysStat (filename : Path) : K (Option Stat) := do
  match ← namei filename with
  | none => return none
  | some i =>
    let stat ← copyStat i
    iput (some i)
    return some stat

end Ylos
