import Ylos.Lib.Exec
import Mathlib.Algebra.Group.Nat.Defs
import Mathlib.Data.Finset.Basic

/-! # The file table (`fs/file.c`, `fs/pipe.c`)

Files and in-core inodes are named by numbers. What a path leads to is up to
`inode_open`: its answer comes with the call. Every function runs in the task `t`. -/

namespace Ylos.Files

open Exec

def FILE_NR : ℕ := 128

def TASK_FILE_NR : ℕ := 16

def NR_TASKS : ℕ := 64

def O_RDONLY : ℕ := 0

def O_WRONLY : ℕ := 1

def O_APPEND : ℕ := 0o2000

/-- `file_t`. -/
structure File where
  inode : Option ℕ
  count : ℕ
  offset : ℕ
  flags : ℕ
  mode : ℕ
  deriving DecidableEq, Repr

/-- What `sys_open` reads from the inode that `inode_open` returns. -/
structure Opened where
  inode : ℕ
  mode : ℕ
  size : ℕ

structure State where
  fileTable : ℕ → File
  /-- `files` of each task. -/
  files : ℕ → ℕ → Option ℕ
  /-- The tasks that have not exited. -/
  live : Finset ℕ

inductive Event where
  /-- `get_file` returned the slot. -/
  | got (file : ℕ)
  /-- `put_file` passed the inode of the slot to `iput`. -/
  | iput (file inode : ℕ)
  deriving DecidableEq, Repr

abbrev M := Exec State Event

def State.setFile (s : State) (file : ℕ) (v : File) : State :=
  { s with fileTable := fun i => if i = file then v else s.fileTable i }

def State.setFd (s : State) (t fd : ℕ) (file : Option ℕ) : State :=
  { s with files := fun u i => if u = t ∧ i = fd then file else s.files u i }

def modifyFile (file : ℕ) (f : File → File) : M Unit :=
  modify fun s => s.setFile file (f (s.fileTable file))

def setFd (t fd : ℕ) (file : Option ℕ) : M Unit := modify fun s => s.setFd t fd file

/-- `file->count++` on a `u32`. -/
def File.retain (file : File) : File := { file with count := (file.count + 1) % 2 ^ 32 }

def getFile : M ℕ := do
  let s ← get
  match (List.range' 3 (FILE_NR - 3)).find? fun i => (s.fileTable i).count = 0 with
  | none => fault .assertion
  | some file =>
    modifyFile file File.retain
    note (.got file)
    return file

def putFile (file : ℕ) : M Unit := do
  check (0 < (← gets (·.fileTable file)).count)
  modifyFile file fun f => { f with count := f.count - 1 }
  let f ← gets (·.fileTable file)
  if f.count = 0 then
    note (.iput file (← deref f.inode))

def taskGetFd (t : ℕ) : M ℕ := do
  let s ← get
  match (List.range' 3 (TASK_FILE_NR - 3)).find? fun fd => (s.files t fd).isNone with
  | none => fault .assertion
  | some fd => return fd

def taskPutFd (t fd : ℕ) : M Unit := do
  check (fd < TASK_FILE_NR)
  setFd t fd none

/-- `sys_open`, after `inode_open`. -/
def sysOpen (t : ℕ) (inode : Option Opened) (flags : ℕ) : M (Option ℕ) := do
  match inode with
  | none => return none
  | some inode =>
    let fd ← taskGetFd t
    let file ← getFile
    check ((← gets (·.files t fd)) = none)
    setFd t fd (some file)
    modifyFile file fun _ =>
      { inode := some inode.inode
        flags := flags
        count := 1
        mode := inode.mode
        offset := if flags &&& O_APPEND ≠ 0 then inode.size else 0 }
    return some fd

def sysClose (t fd : ℕ) : M Unit := do
  check (fd < TASK_FILE_NR)
  match ← gets (·.files t fd) with
  | none => return ()
  | some file =>
    check ((← gets (·.fileTable file)).inode ≠ none)
    putFile file
    taskPutFd t fd

def dupfd (t fd arg : ℕ) : M (Option ℕ) := do
  let s ← get
  if TASK_FILE_NR ≤ fd then
    return none
  else
    match s.files t fd with
    | none => return none
    | some file =>
      match (List.range' arg (TASK_FILE_NR - arg)).find? fun i => (s.files t i).isNone with
      | none => return none
      | some arg =>
        setFd t arg (some file)
        modifyFile file File.retain
        return some arg

def sysDup (t oldfd : ℕ) : M (Option ℕ) := dupfd t oldfd 0

def sysDup2 (t oldfd newfd : ℕ) : M (Option ℕ) := do
  sysClose t newfd
  dupfd t oldfd newfd

/-- One end of `sys_pipe`: a descriptor with a file. -/
def pipeEnd (t : ℕ) : M (ℕ × ℕ) := do
  let fd ← taskGetFd t
  let file ← getFile
  setFd t fd (some file)
  return (fd, file)

/-- `sys_pipe`; `inode` is the answer of `get_pipe_inode`. -/
def sysPipe (t inode : ℕ) : M (ℕ × ℕ) := do
  let (fd0, file0) ← pipeEnd t
  let (fd1, file1) ← pipeEnd t
  modifyFile file0 fun f => { f with inode := some inode, flags := O_RDONLY }
  modifyFile file1 fun f => { f with inode := some inode, flags := O_WRONLY }
  return (fd0, fd1)

/-- The loop of `task_fork` over the files of the child. -/
def retainFiles (child : ℕ) : List ℕ → M Unit
  | [] => pure ()
  | fd :: fds => do
    match ← gets (·.files child fd) with
    | none => retainFiles child fds
    | some file =>
      modifyFile file File.retain
      retainFiles child fds

/-- `task_fork`, as far as it is about files. -/
def taskFork (t child : ℕ) : M Unit := do
  modify fun s => { s with
    files := fun u => if u = child then s.files t else s.files u
    live := insert child s.live }
  retainFiles child (List.range TASK_FILE_NR)

/-- The loop of `task_exit` over the files of the task. -/
def closeFiles (t : ℕ) : List ℕ → M Unit
  | [] => pure ()
  | fd :: fds => do
    if (← gets (·.files t fd)).isSome then
      sysClose t fd
    closeFiles t fds

def taskExit (t : ℕ) : M Unit := do
  closeFiles t (List.range TASK_FILE_NR)
  modify fun s => { s with live := s.live.erase t }

/-! ## Runs -/

inductive Action where
  | open (inode : Option Opened) (flags : ℕ)
  | close (fd : ℕ)
  | dup (oldfd : ℕ)
  | dup2 (oldfd newfd : ℕ)
  | pipe (inode : ℕ)
  | fork (child : ℕ)
  | exit

/-- Descriptors are below `TASK_FILE_NR`, and `get_free_task` finds a free slot of the
task table. -/
def Action.Possible (s : State) : Action → Prop
  | .close fd => fd < TASK_FILE_NR
  | .dup oldfd => oldfd < TASK_FILE_NR
  | .dup2 oldfd newfd => oldfd < TASK_FILE_NR ∧ newfd < TASK_FILE_NR
  | .fork child => child ∉ s.live ∧ child < NR_TASKS
  | _ => True

def Action.code (t : ℕ) : Action → M Unit
  | .open inode flags => do
    let _ ← sysOpen t inode flags
  | .close fd => sysClose t fd
  | .dup oldfd => do
    let _ ← sysDup t oldfd
  | .dup2 oldfd newfd => do
    let _ ← sysDup2 t oldfd newfd
  | .pipe inode => do
    let _ ← sysPipe t inode
  | .fork child => taskFork t child
  | .exit => taskExit t

/-- A live task runs one of the system calls, and no assertion fails. -/
def Step (s : State) (a : (ℕ × Action) × List Event) (s' : State) : Prop :=
  a.1.1 ∈ s.live ∧ a.1.2.Possible s ∧ (a.1.2.code a.1.1).run s = .ok ((), s', a.2)

end Ylos.Files
