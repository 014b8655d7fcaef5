import Ylos.Lib.Ram
import Ylos.Model.Bitmap

/-! # The line editor and the splitting of a line (`builtin/ysh.c`)

Addresses are counted from the start of the buffer, and the slots of `argv` from its start. -/

namespace Ylos.Shell

open Exec Ram

def MAX_CMD_LEN : ℕ := 256

def MAX_ARG_NR : ℕ := 16

/-- `'\n'`. -/
def LF : UInt8 := 10

/-- `'\r'`. -/
def CR : UInt8 := 13

/-- `'\b'`. -/
def BS : UInt8 := 8

/-- `'\t'`. -/
def TAB : UInt8 := 9

/-- `' '`. -/
def SPACE : UInt8 := 32

/-- `'"'`. -/
def QUOTE : UInt8 := 34

structure State where
  ram : Bytes
  /-- The pointers of `argv`, as addresses in the buffer. -/
  argv : ℕ → Option ℕ
  /-- What the calls of `read` return: a byte, or `-1`. -/
  input : ℕ → Option UInt8
  /-- How many calls there have been. -/
  taken : ℕ

instance : Ram State where
  ram := State.ram
  withRam s m := { s with ram := m }
  ram_withRam _ _ := rfl
  withRam_withRam _ _ _ := rfl
  withRam_ram _ := rfl

inductive Event where
  | mem (a : Access)
  /-- A slot of `argv` is set. -/
  | slot (i : ℕ)
  /-- A byte is written to the standard output. -/
  | echo (ch : UInt8)
  /-- The index is one less from here on. -/
  | back (idx : ℕ)
  deriving DecidableEq, Repr

abbrev M := Exec State Event

/-! ## `readline` -/

/-- How `readline` ended. -/
inductive Ending where
  | newline | eof | full
  deriving DecidableEq, Repr

/-- `read` of one byte to `ptr`; if there is none, nothing is stored. -/
def readByte (ptr : ℕ) : M Bool := do
  let s ← get
  modify fun s => { s with taken := s.taken + 1 }
  match s.input s.taken with
  | none => return false
  | some ch =>
    tag .mem (store ptr ch)
    return true

/-- The loop of `readline`, for at most `fuel` calls of `read`: `none` if that was not enough. -/
def readLoop (count : ℕ) : (fuel idx : ℕ) → M (Option Ending)
  | fuel, idx =>
    if count ≤ idx then do
      tag .mem (store idx 0)
      return some .full
    else
      match fuel with
      | 0 => return none
      | fuel + 1 => do
        if ← readByte idx then
          let ch ← tag .mem (load idx)
          if ch = LF ∨ ch = CR then
            tag .mem (store idx 0)
            note (.echo ch)
            return some .newline
          else if ch = BS then
            if (← tag .mem (load 0)) ≠ BS then
              note (.back idx)
              note (.echo BS)
              readLoop count fuel (u32 (idx + (2 ^ 32 - 1)))
            else readLoop count fuel idx
          else if ch = TAB then readLoop count fuel idx
          else
            note (.echo ch)
            readLoop count fuel (u32 (idx + 1))
        else
          tag .mem (store idx 0)
          return some .eof

def readline (count fuel : ℕ) : M (Option Ending) := readLoop count fuel 0

/-! ## `cmd_parse` -/

/-- A byte of the buffer; there is none behind it. -/
def peek (next : ℕ) : M UInt8 :=
  if next < MAX_CMD_LEN then tag .mem (load next) else fault .wild

def poke (next : ℕ) (ch : UInt8) : M Unit :=
  if next < MAX_CMD_LEN then tag .mem (store next ch) else fault .wild

/-- `argv[i] = p`. -/
def setArg (i : ℕ) (p : Option ℕ) : M Unit := do
  note (.slot i)
  modify fun s => { s with argv := fun j => if j = i then p else s.argv j }

/-- `while (p(*next)) next++`. Every round is one byte further, so that `n` rounds are enough if the
buffer ends within them. -/
def passLoop (p : UInt8 → Prop) [DecidablePred p] : (n next : ℕ) → M ℕ
  | 0, _ => fault .wild
  | n + 1, next => do
    let ch ← peek next
    if p ch then passLoop p n (next + 1) else return next

/-- The loop that passes over blanks, or in quotes over everything up to the closing one. -/
def skipLoop (quot : Bool) : (n next : ℕ) → M ℕ :=
  passLoop fun ch => ch = SPACE ∨ (quot ∧ ch ≠ QUOTE)

/-- The loop that passes over a word. -/
def wordLoop : (n next : ℕ) → M ℕ := passLoop fun ch => ch ≠ 0 ∧ ch ≠ SPACE

/-- The loop of `cmd_parse`; every round is at least one byte further. -/
def parseLoop : (n next argc : ℕ) → (quot : Bool) → M ℕ
  | 0, _, _, _ => fault .wild
  | n + 1, next, argc, quot => do
    let ch ← peek next
    if ch = 0 ∨ MAX_ARG_NR ≤ argc then return argc
    else
      let next ← skipLoop quot (MAX_CMD_LEN + 1) next
      let ch ← peek next
      if ch = 0 then return argc
      else if ch = QUOTE then
        if quot then
          poke next 0
          parseLoop n (next + 1) argc false
        else
          setArg argc (some (next + 1))
          parseLoop n (next + 1) (argc + 1) true
      else
        setArg argc (some next)
        let stop ← wordLoop (MAX_CMD_LEN + 1) next
        let ch ← peek stop
        if ch = 0 then parseLoop n stop (argc + 1) quot
        else
          poke stop 0
          parseLoop n (stop + 1) (argc + 1) quot

def cmdParse : M ℕ := do
  let argc ← parseLoop (MAX_CMD_LEN + 2) 0 0 false
  setArg argc none
  return argc

end Ylos.Shell
