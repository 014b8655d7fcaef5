import Ylos.Lib.Terminal
import Ylos.Model.Copy

/-! # The console (`kernel/console.c`)

Positions are `u32` addresses. Interrupts and the beep leave no trace here. -/

namespace Ylos.Console

open Exec Ram

def CRT_ADDR_REG : ℕ := 0x3D4

def CRT_DATA_REG : ℕ := 0x3D5

def CRT_START_ADDR_H : ℕ := 0xC

def CRT_START_ADDR_L : ℕ := 0xD

def CRT_CURSOR_H : ℕ := 0xE

def CRT_CURSOR_L : ℕ := 0xF

def MEM_BASE : ℕ := 0xB8000

def MEM_SIZE : ℕ := 0x4000

def MEM_END : ℕ := MEM_BASE + MEM_SIZE

def WIDTH : ℕ := 80

def HEIGHT : ℕ := 25

def ROW_SIZE : ℕ := WIDTH * 2

def SCR_SIZE : ℕ := ROW_SIZE * HEIGHT

def ASCII_NUL : UInt8 := 0x00

def ASCII_ENQ : UInt8 := 0x05

def ASCII_BEL : UInt8 := 0x07

def ASCII_BS : UInt8 := 0x08

def ASCII_HT : UInt8 := 0x09

def ASCII_LF : UInt8 := 0x0A

def ASCII_VT : UInt8 := 0x0B

def ASCII_FF : UInt8 := 0x0C

def ASCII_CR : UInt8 := 0x0D

def ASCII_ESC : UInt8 := 0x1B

def ASCII_DEL : UInt8 := 0x7F

/-- `attr`, which never changes. -/
def attr : UInt8 := 7

/-- `erase`, a space. -/
def erase : ℕ := 0x0720

structure State where
  ram : Bytes
  screen : ℕ
  pos : ℕ
  x : ℕ
  y : ℕ
  /-- The index register of the CRT controller, and its data registers. -/
  crtIndex : ℕ
  crt : ℕ → ℕ

instance : Ram State where
  ram := State.ram
  withRam s m := { s with ram := m }
  ram_withRam _ _ := rfl
  withRam_withRam _ _ _ := rfl
  withRam_ram _ := rfl

/-- An access to the cell of one character, or to cells in bulk. -/
inductive Event where
  | char (a : Access)
  | bulk (a : Access)
  deriving DecidableEq, Repr

abbrev M := Exec State Event

/-- `a - b` on `u32`. -/
def sub32 (a b : ℕ) : ℕ := u32 (a + (2 ^ 32 - b))

def State.outb (s : State) (port value : ℕ) : State :=
  if port = CRT_ADDR_REG then { s with crtIndex := value }
  else if port = CRT_DATA_REG then
    { s with crt := fun i => if i = s.crtIndex then value else s.crt i }
  else s

def outb (port value : ℕ) : M Unit := modify fun s => s.outb port value

/-- Both halves of a cell's number go to two registers. -/
def setScreen : M Unit := do
  outb CRT_ADDR_REG CRT_START_ADDR_H
  outb CRT_DATA_REG (sub32 (← gets (·.screen)) MEM_BASE / 2 ^ 9 % 2 ^ 8)
  outb CRT_ADDR_REG CRT_START_ADDR_L
  outb CRT_DATA_REG (sub32 (← gets (·.screen)) MEM_BASE / 2 % 2 ^ 8)

def setCursor : M Unit := do
  outb CRT_ADDR_REG CRT_CURSOR_H
  outb CRT_DATA_REG (sub32 (← gets (·.pos)) MEM_BASE / 2 ^ 9 % 2 ^ 8)
  outb CRT_ADDR_REG CRT_CURSOR_L
  outb CRT_DATA_REG (sub32 (← gets (·.pos)) MEM_BASE / 2 % 2 ^ 8)

/-- The first part of `scroll_up`: at the end of the memory the window goes back to its start. -/
def rewind : M Unit := do
  let s ← get
  if MEM_END ≤ u32 (s.screen + SCR_SIZE + ROW_SIZE) then
    tag .bulk (memcpy MEM_BASE s.screen SCR_SIZE)
    modify fun s => { s with pos := sub32 s.pos (sub32 s.screen MEM_BASE), screen := MEM_BASE }

/-- The pointer is one to `u32`. -/
def scrollUp : M Unit := do
  rewind
  let s ← get
  tag .bulk (fill 4 erase (u32 (s.screen + SCR_SIZE)) WIDTH)
  modify fun s => { s with screen := u32 (s.screen + ROW_SIZE), pos := u32 (s.pos + ROW_SIZE) }
  setScreen

def commandLf : M Unit := do
  let s ← get
  if s.y + 1 < HEIGHT then
    modify fun s => { s with y := s.y + 1, pos := u32 (s.pos + ROW_SIZE) }
  else scrollUp

def commandCr : M Unit :=
  modify fun s => { s with pos := sub32 s.pos (s.x * 2), x := 0 }

def commandBs : M Unit := do
  let s ← get
  if s.x ≠ 0 then
    modify fun s => { s with x := s.x - 1, pos := sub32 s.pos 2 }
    tag .char (storeLe 2 (← gets (·.pos)) erase)

def commandDel : M Unit := do
  tag .char (storeLe 2 (← gets (·.pos)) erase)

def consoleClear : M Unit := do
  modify fun s => { s with screen := MEM_BASE, pos := MEM_BASE, x := 0, y := 0 }
  setCursor
  setScreen
  tag .bulk (fill 2 erase MEM_BASE (MEM_SIZE / 2))

/-- What `console_write` does first for a character that it prints. -/
def wrapLine : M Unit := do
  let s ← get
  if WIDTH ≤ s.x then
    modify fun s => { s with x := s.x - WIDTH, pos := sub32 s.pos ROW_SIZE }
    commandLf

def putChar (ch : UInt8) : M Unit := do
  tag .char (store (← gets (·.pos)) ch)
  modify fun s => { s with pos := u32 (s.pos + 1) }
  tag .char (store (← gets (·.pos)) attr)
  modify fun s => { s with pos := u32 (s.pos + 1), x := s.x + 1 }

/-- The `switch` of `console_write`. -/
def writeChar (ch : UInt8) : M Unit :=
  if ch ∈ [ASCII_NUL, ASCII_ENQ, ASCII_ESC, ASCII_BEL, ASCII_HT, ASCII_VT] then pure ()
  else if ch = ASCII_BS then commandBs
  else if ch = ASCII_LF then do
    commandLf
    commandCr
  else if ch = ASCII_FF then commandLf
  else if ch = ASCII_CR then commandCr
  else if ch = ASCII_DEL then commandDel
  else do
    wrapLine
    putChar ch

/-- The loop of `console_write`; the test that ends it counts too. -/
def writeLoop : (buf : List UInt8) → (nr : ℕ) → M ℕ
  | [], nr => return u32 (nr + 1)
  | ch :: buf, nr => do
    writeChar ch
    writeLoop buf (nr + 1)

def consoleWrite (buf : List UInt8) : M ℕ := do
  let nr ← writeLoop buf 0
  setCursor
  return nr

/-- Several calls, with what each returns. -/
def writeAll : List (List UInt8) → M (List ℕ)
  | [] => return []
  | buf :: bufs => do
    let nr ← consoleWrite buf
    return nr :: (← writeAll bufs)

/-- `console_clear` and then the calls. -/
def session (bufs : List (List UInt8)) : M (List ℕ) := do
  consoleClear
  writeAll bufs

end Ylos.Console
