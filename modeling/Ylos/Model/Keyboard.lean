import Mathlib.Logic.Function.Basic
import Ylos.Model.Pipe

/-! # The keyboard (`kernel/keyboard.c`)

Interrupts are off in `keyboard_read`, so that it goes on until it blocks or returns. Of its lock
only this is taken: one task at a time has it. -/

namespace Ylos.Keyboard

open Pipes (Fifo)

/-- A character that is none. -/
def INV : Char := Char.ofNat 0

def BS : Char := Char.ofNat 8

def TAB : Char := Char.ofNat 9

def LF : Char := Char.ofNat 10

def ESC : Char := Char.ofNat 0x1b

def DEL : Char := Char.ofNat 0x7f

def DQUOTE : Char := Char.ofNat 34

def QUOTE : Char := Char.ofNat 39

def BACKSLASH : Char := Char.ofNat 92

def BACKQUOTE : Char := Char.ofNat 96

/-- The characters of each key, without and with shift. -/
def keymap : List (Char × Char) :=
  [(INV, INV), (ESC, ESC), ('1', '!'), ('2', '@'), ('3', '#'), ('4', '$'),
   ('5', '%'), ('6', '^'), ('7', '&'), ('8', '*'), ('9', '('), ('0', ')'),
   ('-', '_'), ('=', '+'), (BS, BS), (TAB, TAB), ('q', 'Q'), ('w', 'W'),
   ('e', 'E'), ('r', 'R'), ('t', 'T'), ('y', 'Y'), ('u', 'U'), ('i', 'I'),
   ('o', 'O'), ('p', 'P'), ('[', '{'), (']', '}'), (LF, LF), (INV, INV),
   ('a', 'A'), ('s', 'S'), ('d', 'D'), ('f', 'F'), ('g', 'G'), ('h', 'H'),
   ('j', 'J'), ('k', 'K'), ('l', 'L'), (';', ':'), (QUOTE, DQUOTE), (BACKQUOTE, '~'),
   (INV, INV), (BACKSLASH, '|'), ('z', 'Z'), ('x', 'X'), ('c', 'C'), ('v', 'V'),
   ('b', 'B'), ('n', 'N'), ('m', 'M'), (',', '<'), ('.', '>'), ('/', '?'),
   (INV, INV), ('*', '*'), (INV, INV), (' ', ' '), (INV, INV), (INV, INV),
   (INV, INV), (INV, INV), (INV, INV), (INV, INV), (INV, INV), (INV, INV),
   (INV, INV), (INV, INV), (INV, INV), (INV, INV), (INV, INV), ('7', INV),
   ('8', INV), ('9', INV), ('-', '-'), ('4', INV), ('5', INV), ('6', INV),
   ('+', '+'), ('1', INV), ('2', INV), ('3', INV), ('0', INV), ('.', DEL),
   (INV, INV), (INV, INV), (INV, INV), (INV, INV), (INV, INV), (INV, INV),
   (INV, INV), (INV, INV), (INV, INV), (INV, INV), (INV, INV), (INV, INV)]

def KEY_SHIFT_L : ℕ := 0x2A

def KEY_SLASH : ℕ := 0x35

def KEY_SHIFT_R : ℕ := 0x36

def KEY_CAPSLOCK : ℕ := 0x3A

def KEY_NUMLOCK : ℕ := 0x45

def KEY_SCRLOCK : ℕ := 0x46

def KEY_PRINT_SCREEN : ℕ := 0x5F

def CODE_PRINT_SCREEN_DOWN : ℕ := 0xB7

def EXTCODE : ℕ := 0xe0

structure State where
  /-- The last two columns of the table: whether a key is down, and the one of its code with a
  prefix. -/
  down : ℕ → Bool → Bool
  capslock : Bool
  scrlock : Bool
  numlock : Bool
  extcode : Bool

namespace State

/-- No key is down and no lock is on. -/
def initial : State := ⟨fun _ _ => false, false, false, false, false⟩

def setDown (s : State) (key : ℕ) (ext value : Bool) : State :=
  { s with down := fun k e => if k = key ∧ e = ext then value else s.down k e }

/-- `shift_state` -/
def shift (s : State) : Bool := s.down KEY_SHIFT_L false || s.down KEY_SHIFT_R false

/-- What `set_leds` sends to the keyboard. -/
def leds (s : State) : ℕ := s.capslock.toNat <<< 2 ||| s.numlock.toNat <<< 1 ||| s.scrlock.toNat

/-- The locks, once a key has gone down. -/
def toggle (s : State) (makecode : ℕ) : State :=
  if makecode = KEY_NUMLOCK then { s with numlock := !s.numlock }
  else if makecode = KEY_CAPSLOCK then { s with capslock := !s.capslock }
  else if makecode = KEY_SCRLOCK then { s with scrlock := !s.scrlock }
  else s

end State

def isLock (makecode : ℕ) : Bool :=
  makecode = KEY_NUMLOCK || makecode = KEY_CAPSLOCK || makecode = KEY_SCRLOCK

def plain (makecode : ℕ) : Char := (keymap.getD makecode (INV, INV)).1

def shifted (makecode : ℕ) : Char := (keymap.getD makecode (INV, INV)).2

def isLetter (makecode : ℕ) : Bool := 'a' ≤ plain makecode && plain makecode ≤ 'z'

/-- The character of a key that has gone down. -/
def character (s : State) (makecode : ℕ) (ext : Bool) : Char :=
  let shift := (s.capslock && isLetter makecode) ^^ s.shift
  if ext && makecode ≠ KEY_SLASH then shifted makecode
  else if shift then shifted makecode else plain makecode

structure Result where
  state : State
  /-- What goes into the buffer. -/
  ch : Option Char := none
  leds : Option ℕ := none

/-- A key goes down or up. -/
def keyEvent (s : State) (makecode : ℕ) (ext breakcode : Bool) : Result :=
  if KEY_PRINT_SCREEN < makecode then { state := s }
  else if breakcode then { state := s.setDown makecode ext false }
  else
    let s := (s.setDown makecode ext true).toggle makecode
    let ch := character s makecode ext
    { state := s
      ch := if ch = INV then none else some ch
      leds := if isLock makecode then some s.leds else none }

def keyboardHandler (s : State) (scancode : ℕ) : Result :=
  if scancode = EXTCODE then { state := { s with extcode := true } }
  else
    let ext := s.extcode
    let scancode := if ext then scancode ||| 0xe000 else scancode
    let makecode := scancode &&& 0x7f
    let makecode := if makecode = CODE_PRINT_SCREEN_DOWN then KEY_PRINT_SCREEN else makecode
    keyEvent { s with extcode := false } makecode ext (scancode &&& 0x80 ≠ 0)

/-- The handler for each of the codes that the keyboard sends, and the characters it puts. -/
def run (s : State) : List ℕ → State × List Char
  | [] => (s, [])
  | code :: codes =>
    let r := keyboardHandler s code
    let (s, chars) := run r.state codes
    (s, r.ch.toList ++ chars)

/-! ## Readers -/

def BUFFER_SIZE : ℕ := 64

/-- A function of `lib/fifo.c` on the buffer of the keyboard. -/
def onFifo {α : Type} (f : Pipes.M α) (fifo : Fifo) : Except Fault (α × Fifo) := do
  let (a, s, _) ← f.run ⟨fifo, none, none, fun _ => .idle⟩
  return (a, s.fifo)

inductive Phase where
  | idle
  /-- Waiting for the lock. -/
  | waiting (count : ℕ)
  /-- Blocked in `keyboard_read`, with these characters in its `buf` and so many to go. -/
  | blocked (count : ℕ) (buf : List UInt8) (left : ℕ)
  /-- Unblocked there, but not run yet. -/
  | ready (count : ℕ) (buf : List UInt8) (left : ℕ)
  deriving DecidableEq

structure Device where
  keyboard : State
  fifo : Fifo
  waiter : Option ℕ
  /-- The task that has the lock. -/
  holder : Option ℕ
  phase : ℕ → Phase
  /-- History: the codes of the interrupts. -/
  codes : List ℕ
  /-- History: whether a character was put into a full buffer. -/
  overrun : Bool
  /-- History: the calls of `keyboard_read` that have returned, with their `count` and what is in
  their `buf` then. -/
  returned : List (ℕ × ℕ × List UInt8)

namespace Device

def setPhase (d : Device) (t : ℕ) (p : Phase) : Device :=
  { d with phase := Function.update d.phase t p }

/-- `task_unblock(waiter)`: it asserts that the task is in a list of blocked tasks. -/
def unblock (d : Device) : Except Fault Device :=
  match d.waiter with
  | none => .ok d
  | some t =>
    match d.phase t with
    | .blocked count buf left => .ok { d.setPhase t (.ready count buf left) with waiter := none }
    | _ => .error .assertion

/-- The interrupt of the keyboard. -/
def interrupt (d : Device) (scancode : ℕ) : Except Fault Device :=
  let r := keyboardHandler d.keyboard scancode
  let d := { d with keyboard := r.state, codes := d.codes ++ [scancode] }
  match r.ch with
  | none => .ok d
  | some ch => do
    let (_, fifo) ← onFifo (Pipes.fifoPut ch.toUInt8) d.fifo
    { d with
      fifo := fifo
      overrun := d.overrun || d.fifo.full }.unblock

/-- The loop of `keyboard_read`, with `left` characters to go. -/
def readLoop (t count : ℕ) : (left : ℕ) → (buf : List UInt8) → Device → Except Fault Device
  | 0, buf, d => .ok { d.setPhase t .idle with
      holder := none, returned := d.returned ++ [(t, count, buf)] }
  | left + 1, buf, d =>
    if d.fifo.empty then .ok { d.setPhase t (.blocked count buf (left + 1)) with waiter := some t }
    else do
      let (byte, fifo) ← onFifo Pipes.fifoGet d.fifo
      readLoop t count left (buf ++ [byte]) { d with fifo := fifo }

end Device

inductive Action where
  | interrupt (scancode : ℕ)
  | read (t count : ℕ)
  /-- A task that waits for the lock gets it. -/
  | acquire (t : ℕ)
  /-- A task that was unblocked runs. -/
  | resume (t : ℕ)

def Action.next (d : Device) : Action → Option (Except Fault Device)
  | interrupt scancode => some (d.interrupt scancode)
  | read t count =>
    match d.phase t, d.holder with
    | .idle, none => some (Device.readLoop t count count [] { d with holder := some t })
    | .idle, some _ => some (.ok (d.setPhase t (.waiting count)))
    | _, _ => none
  | acquire t =>
    match d.phase t, d.holder with
    | .waiting count, none => some (Device.readLoop t count count [] { d with holder := some t })
    | _, _ => none
  | resume t =>
    match d.phase t with
    | .ready count buf left => some (Device.readLoop t count left buf d)
    | _ => none

def Step (d : Device) (a : Action) (d' : Device) : Prop := a.next d = some (.ok d')

/-- `keyboard_init` -/
def Initial (d : Device) : Prop :=
  d.keyboard = .initial ∧ (∃ buf, d.fifo = Pipes.fifoInit buf BUFFER_SIZE) ∧ d.waiter = none ∧
    d.holder = none ∧ (∀ t, d.phase t = .idle) ∧ d.codes = [] ∧ d.overrun = false ∧
      d.returned = []

end Ylos.Keyboard
