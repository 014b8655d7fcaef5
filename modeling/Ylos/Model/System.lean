import Ylos.Model.File
import Ylos.Model.Fs.Mount

/-! # Tasks that share the file system

The tasks take turns, one system call at a time. The code of a call sees the file system
with the task that runs and the time at which it does. -/

namespace Ylos.System

open Exec

/-- What the file system calls read of a `task_t`, and the executable it refers to. -/
structure Proc where
  task : Task
  iexec : Option ℕ

structure Sys where
  fs : Fs
  procs : ℕ → Proc
  /-- The tables of files and descriptors, and the tasks that there are. -/
  files : Files.State
  /-- The static pointer `root`. -/
  root : ℕ

/-- The system calls that are all file system. -/
inductive FsCall where
  | mount (devname dirname : Path)
  | umount (target : Path)
  | mkfs (devname : Path) (icount : ℤ)
  | chdir (path : Path)
  | chroot (path : Path)
  | mkdir (path : Path) (mode : ℕ)
  | rmdir (path : Path)
  | link (old new : Path)
  | unlink (path : Path)
  | mknod (path : Path) (mode dev : ℕ)
  | stat (path : Path)

inductive Call where
  | fs (c : FsCall)
  | open (path : Path) (flags mode : ℕ)
  | close (fd : ℕ)

/-- A task makes a call at a time, and gets an answer. -/
structure Act where
  task : ℕ
  now : ℕ
  call : Call
  ret : Ret

namespace Sys

/-- The state that the code of a call of task `t` starts from. -/
def enter (y : Sys) (t now : ℕ) : Fs := { y.fs with task := (y.procs t).task, now := now }

/-- The code of a call of task `t` returned in `s`. -/
def leave (y : Sys) (t : ℕ) (s : Fs) : Sys :=
  { y with
    fs := s
    procs := fun u => if u = t then { y.procs t with task := s.task } else y.procs u }

end Sys

def FsCall.code (root : ℕ) : FsCall → K Ret
  | .mount devname dirname => sysMount devname dirname
  | .umount target => sysUmount root target
  | .mkfs devname icount => sysMkfs devname icount
  | .chdir path => sysChdir path
  | .chroot path => sysChroot path
  | .mkdir path mode => sysMkdir path mode
  | .rmdir path => sysRmdir path
  | .link old new => sysLink old new
  | .unlink path => sysUnlink path
  | .mknod path mode dev => sysMknod path mode dev
  | .stat path => do return if (← sysStat path).isSome then .ok else .eof

/-- `file->inode` is released by `put_file`. -/
def release : List Files.Event → K Unit
  | [] => pure ()
  | .iput _ inode :: es => do
    iput (some inode)
    release es
  | .got _ :: es => release es

/-- The answer of `inode_open`, as `sys_open` reads it. -/
def opened (s : Fs) (inode : ℕ) : Files.Opened where
  inode := inode
  mode := s.desc inode .mode
  size := s.desc inode .size

/-- What call `c` of task `t` does, and what it returns. -/
def Sys.call (y : Sys) (t now : ℕ) : Call → Except Fault (Ret × Sys)
  | .fs c => do
    let (ret, s, _) ← (c.code y.root).run (y.enter t now)
    return (ret, y.leave t s)
  | .open path flags mode => do
    let (inode, s, _) ← (inodeOpen path flags mode).run (y.enter t now)
    let (fd, files, _) ← (Files.sysOpen t (inode.map (opened s)) flags).run y.files
    return (if fd.isSome then .ok else .eof, { y.leave t s with files := files })
  | .close fd => do
    let (_, files, events) ← (Files.sysClose t fd).run y.files
    let (_, s, _) ← (release events).run (y.enter t now)
    return (.ok, { y.leave t s with files := files })

/-- A live task makes a call, and no assertion fails. -/
def Step (y : Sys) (a : Act) (y' : Sys) : Prop :=
  a.task ∈ y.files.live ∧ y.call a.task a.now a.call = .ok (a.ret, y')

end Ylos.System
