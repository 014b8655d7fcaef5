import Ylos.Model.Fs.Namei
import Ylos.Model.Fs.Super

/-! # Mounting, unmounting and formatting (`fs/super.c`) -/

namespace Ylos

open Exec

/-- Read `n` bitmap blocks from block `idx` on; the array has 8 entries. -/
def readBitmaps (dev : ℤ) (store : ℕ → BufRef → K Unit) : (n i idx : ℕ) → K ℕ
  | 0, _, idx => pure idx
  | n + 1, i, idx => do
    check (i < IMAP_NR)
    store i (← bread dev idx)
    readBitmaps dev store n (i + 1) (idx + 1)

def readSuper (dev : ℤ) : K ℕ := do
  match ← getSuper dev with
  | some sb =>
    modifySuper sb fun v => { v with count := u32 (v.count + 1) }
    return sb
  | none =>
    let sb ← getFreeSuper
    let buf ← bread dev 1
    modifySuper sb fun v => { v with buf := buf, dev := dev, count := 1 }
    check ((← getU16 buf 16 0) = MINIX1_MAGIC)
    modifySuper sb fun v => { v with imaps := fun _ => none, zmaps := fun _ => none }
    let desc ← gets (·.superDesc sb)
    let idx ← readBitmaps dev (fun i b => modifySuper sb fun v =>
      { v with imaps := fun j => if j = i then some b else v.imaps j }) desc.imapBlocks 0 2
    let _ ← readBitmaps dev (fun i b => modifySuper sb fun v =>
      { v with zmaps := fun j => if j = i then some b else v.zmaps j }) desc.zmapBlocks 0 idx
    return sb

/-- The label `rollback` of `sys_mount`. -/
def mountRollback (super devinode dirinode : Option ℕ) : K Ret := do
  match super with
  | none => pure ()
  | some sb => putSuper sb
  iput devinode
  iput dirinode
  return .eof

def sysMount (devname dirname : Path) : K Ret := do
  match ← namei devname with
  | none => mountRollback none none none
  | some devinode =>
    if !isBlk (← getField devinode .mode) then
      mountRollback none (some devinode) none
    else
      let dev : ℤ := ← getField devinode (.zone 0)
      match ← namei dirname with
      | none => mountRollback none (some devinode) none
      | some dirinode =>
        if !isDir (← getField dirinode .mode) then
          mountRollback none (some devinode) (some dirinode)
        else
          let dir ← gets (·.inodes dirinode)
          if dir.count ≠ 1 ∨ dir.mount ≠ 0 then
            mountRollback none (some devinode) (some dirinode)
          else
            let super ← readSuper dev
            if (← gets (·.supers super)).imount.isSome then
              mountRollback (some super) (some devinode) (some dirinode)
            else
              let iroot ← iget dev 1
              modifySuper super fun v => { v with iroot := some iroot }
              modifySuper super fun v => { v with imount := some dirinode }
              modifyInode dirinode fun inode => { inode with mount := dev }
              iput (some devinode)
              return .ok

/-- The device that `sys_umount` works on, for what its argument leads to. -/
def umountDev (s : Fs) (inode : ℕ) : ℤ :=
  if isBlk (s.desc inode .mode) then s.desc inode (.zone 0) else (s.inodes inode).dev

/-- The label `rollback` of `sys_umount`, reached on success, too. -/
def umountRollback (ret : Ret) (super : Option ℕ) (inode : ℕ) : K Ret := do
  match super with
  | none => pure ()
  | some sb => putSuper sb
  iput (some inode)
  return ret

/-- `root` is the super block of the root file system. -/
def sysUmount (root : ℕ) (target : Path) : K Ret := do
  match ← namei target with
  | none => return .eof
  | some inode =>
    if !isBlk (← getField inode .mode) ∧ (← gets (·.inodes inode)).nr ≠ 1 then
      umountRollback .eof none inode
    else if (← gets (·.supers root)).imount = some inode then
      umountRollback .eof none inode
    else
      match ← getSuper (← gets (umountDev · inode)) with
      -- the fields of the null pointer that `get_super` returns
      | none => fault .wild
      | some super =>
        match (← gets (·.supers super)).imount with
        | none => umountRollback .eof (some super) inode
        | some imount =>
          if 1 < (← gets (·.supers super)).inodeList.length then
            umountRollback .eof (some super) inode
          else
            iput (← gets (·.supers super)).iroot
            modifySuper super fun v => { v with iroot := none }
            modifyInode imount fun inode => { inode with mount := 0 }
            iput (some imount)
            modifySuper super fun v => { v with imount := none }
            umountRollback .ok (some super) inode

def sysMkfs (devname : Path) (icount : ℤ) : K Ret := do
  match ← namei devname with
  | none => return .eof
  | some inode =>
    if !isBlk (← getField inode .mode) then
      iput (some inode)
      return .eof
    else
      let dev ← getField inode (.zone 0)
      check (dev ≠ 0)
      let ret ← devmkfs dev (icount % 2 ^ 32).toNat
      iput (some inode)
      return ret

end Ylos
