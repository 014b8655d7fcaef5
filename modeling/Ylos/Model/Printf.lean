import Mathlib.Algebra.Order.Ring.Int
import Ylos.Lib.Exec

/-! # Formatted output (`lib/vsprintf.c`) and `atoi` (`lib/stdlib.c`)

A string is its characters without the `EOS` at its end. The numbers of a format are unbounded
here. -/

namespace Ylos.Printf

/-- What is passed for a directive. -/
inductive Arg where
  | word (v : UInt32)
  | string (s : List Char)
  | bytes (b : ℕ → ℕ)
  | pointer (p : ℕ)

/-- A word as an `int`. -/
def toInt (v : ℕ) : ℤ := Int.bmod v (2 ^ 32)

structure Flags where
  zeropad : Bool := false
  sign : Bool := false
  plus : Bool := false
  space : Bool := false
  left : Bool := false
  special : Bool := false
  small : Bool := false
  deriving DecidableEq

def isDigit (c : Char) : Bool := '0' ≤ c && c ≤ '9'

def skipAtoi : List Char → ℤ → ℤ × List Char
  | [], i => (i, [])
  | c :: s, i => if isDigit c then skipAtoi s (i * 10 + c.toNat - '0'.toNat) else (i, c :: s)

/-! ## Numbers -/

def Flags.digits (flags : Flags) : List Char :=
  if flags.small then "0123456789abcdefghijklmnopqrstuvwxyz".toList
  else "0123456789ABCDEFGHIJKLMNOPQRSTUVWXYZ".toList

def Flags.digit (flags : Flags) (index : ℕ) : Char := flags.digits.getD index ' '

/-- The digits in `tmp`, the last one first. There is room for `room` more of them. -/
def tmpDigits (flags : Flags) (base : ℕ) : (room num : ℕ) → Except Fault (List Char)
  | 0, num => if num = 0 then .ok [] else .error .wild
  | room + 1, num =>
    if num = 0 then .ok []
    else do return flags.digit (num % base) :: (← tmpDigits flags base room (num / base))

def tmpOf (flags : Flags) (base num : ℕ) : Except Fault (List Char) :=
  if num = 0 then .ok ['0'] else tmpDigits flags base 36 num

/-- `while (size-- > 0) *str++ = c` -/
def fill (c : Char) (size : ℤ) : List Char × ℤ := (List.replicate size.toNat c, min size 0 - 1)

def Flags.negative (flags : Flags) (num : ℕ) : Bool := flags.sign && toInt num < 0

/-- `sign`, which is no character when it is 0. -/
def Flags.signOf (flags : Flags) (num : ℕ) : List Char :=
  if flags.negative num then ['-']
  else if flags.plus then ['+'] else if flags.space then [' '] else []

/-- The mark of the base. -/
def Flags.markOf (flags : Flags) (base : ℕ) : List Char :=
  if flags.special then
    if base = 8 then ['0'] else if base = 16 then ['0', flags.digit 33] else []
  else []

/-- What is put around the `i` characters of `tmp`. -/
def Flags.layout (flags : Flags) (size precision : ℤ) (sign mark tmp : List Char) : List Char :=
  let size := size - sign.length
  let size := size - mark.length
  let i : ℤ := tmp.length
  let precision := if precision < i then i else precision
  let size := size - precision
  let spaces := if !(flags.zeropad || flags.left) then fill ' ' size else ([], size)
  let pads := if !flags.left then fill (if flags.zeropad then '0' else ' ') spaces.2
    else ([], spaces.2)
  let zeros := List.replicate (precision - i).toNat '0'
  let rest := fill ' ' pads.2
  spaces.1 ++ sign ++ mark ++ pads.1 ++ zeros ++ tmp.reverse ++ rest.1

/-- What `number` appends to `str`. -/
def number (num base : ℕ) (size precision : ℤ) (flags : Flags) : Except Fault (List Char) :=
  let flags := if flags.left then { flags with zeropad := false } else flags
  -- `number` returns 0, and the next character goes there.
  if base < 2 ∨ 36 < base then .error .wild
  else do
    let sign := flags.signOf num
    let num := if flags.negative num then 2 ^ 32 - num else num
    let tmp ← tmpOf flags base num
    return flags.layout size precision sign (flags.markOf base) tmp

/-! ## Directives -/

/-- What is in `buf` up to `str`, and what `%n` has stored. -/
structure Out where
  str : List Char := []
  stores : List (ℕ × ℕ) := []

def Out.put (out : Out) (s : List Char) : Out := { out with str := out.str ++ s }

def vaInt : List Arg → Except Fault (ℤ × List Arg)
  | .word v :: args => .ok (toInt v.toNat, args)
  | _ => .error .wild

def repeatFlags : Flags → List Char → Flags × List Char
  | flags, '-' :: fmt => repeatFlags { flags with left := true } fmt
  | flags, '+' :: fmt => repeatFlags { flags with plus := true } fmt
  | flags, ' ' :: fmt => repeatFlags { flags with space := true } fmt
  | flags, '#' :: fmt => repeatFlags { flags with special := true } fmt
  | flags, '0' :: fmt => repeatFlags { flags with zeropad := true } fmt
  | flags, fmt => (flags, fmt)

/-- A number in the format, if there is one. -/
def readNumber (fmt : List Char) : ℤ × List Char :=
  if (fmt.head?.map isDigit).getD false then skipAtoi fmt 0 else (-1, fmt)

def fieldWidth (flags : Flags) (fmt : List Char) (args : List Arg) :
    Except Fault (ℤ × Flags × List Char × List Arg) :=
  match fmt with
  | '*' :: fmt => do
    let (width, args) ← vaInt args
    return if width < 0 then (-width, { flags with left := true }, fmt, args)
      else (width, flags, fmt, args)
  | fmt => .ok ((readNumber fmt).1, flags, (readNumber fmt).2, args)

def fieldPrecision (fmt : List Char) (args : List Arg) :
    Except Fault (ℤ × List Char × List Arg) :=
  match fmt with
  -- `fmt` stays at the star.
  | '.' :: '*' :: fmt => do
    let (precision, args) ← vaInt args
    return (max precision 0, '*' :: fmt, args)
  | '.' :: fmt => .ok (max (readNumber fmt).1 0, (readNumber fmt).2, args)
  | fmt => .ok (-1, fmt, args)

def skipQualifier : List Char → List Char
  | 'h' :: fmt => fmt
  | 'l' :: fmt => fmt
  | 'L' :: fmt => fmt
  | fmt => fmt

/-- What `%c` and `%s` append. -/
def aligned (s : List Char) (width : ℤ) (flags : Flags) : List Char :=
  let fill := List.replicate (width - s.length).toNat ' '
  if flags.left then s ++ fill else fill ++ s

/-- A directive for a number. -/
def putNumber (out : Out) (base : ℕ) (width precision : ℤ) (flags : Flags) :
    List Arg → Except Fault (Out × List Arg)
  | .word v :: args => do return (out.put (← number v.toNat base width precision flags), args)
  | _ => .error .wild

/-- A directive for an address, which is bytes with `sep` between them. -/
def putAddress (out : Out) (n base : ℕ) (width precision : ℤ) (sep : Char) (flags : Flags) :
    List Arg → Except Fault (Out × List Arg)
  | .bytes b :: args => do
    let parts ← (List.range n).mapM fun t => number (b t % 256) base width precision flags
    return (out.put (parts.flatMap (· ++ [sep])).dropLast, args)
  | _ => .error .wild

/-- The directives that take an argument. `%f` is not one of them here. -/
def convert (out : Out) (conv : Char) (width precision : ℤ) (flags : Flags) (args : List Arg) :
    Option (Except Fault (Out × List Arg)) :=
  match conv with
  | 'c' => some <|
    match args with
    | .word v :: args => .ok (out.put (aligned [Char.ofNat (v.toNat % 256)] width flags), args)
    | _ => .error .wild
  | 's' => some <|
    match args with
    | .string s :: args =>
      let s := if precision < 0 then s else s.take precision.toNat
      .ok (out.put (aligned s width flags), args)
    | _ => .error .wild
  | 'o' => some <| putNumber out 8 width precision flags args
  | 'p' => some <|
    if width = -1 then putNumber out 16 8 precision { flags with zeropad := true } args
    else putNumber out 16 width precision flags args
  | 'x' => some <| putNumber out 16 width precision { flags with small := true } args
  | 'X' => some <| putNumber out 16 width precision flags args
  | 'd' => some <| putNumber out 10 width precision { flags with sign := true } args
  | 'i' => some <| putNumber out 10 width precision { flags with sign := true } args
  | 'u' => some <| putNumber out 10 width precision flags args
  | 'n' => some <|
    match args with
    | .pointer p :: args => .ok ({ out with stores := out.stores ++ [(p, out.str.length)] }, args)
    | _ => .error .wild
  | 'b' => some <| putNumber out 2 width precision flags args
  | 'm' => some <|
    putAddress out 6 16 2 precision ':' { flags with small := true, zeropad := true } args
  | 'r' => some <| putAddress out 4 10 width precision '.' { flags with small := true } args
  | _ => none

/-- The switch on the conversion, with what is left of the format. -/
def dispatch (out : Out) (fmt : List Char) (width precision : ℤ) (flags : Flags)
    (args : List Arg) : Except Fault (Out × List Char × List Arg) :=
  match skipQualifier fmt with
  | [] => .ok (out.put ['%'], [], args)
  | conv :: fmt =>
    match convert out conv width precision flags args with
    | some result => do
      let (out, args) ← result
      return (out, fmt, args)
    | none => .ok (out.put (if conv = '%' then ['%'] else ['%', conv]), fmt, args)

/-- What a `%` in the format does. -/
def directive (out : Out) (fmt : List Char) (args : List Arg) :
    Except Fault (Out × List Char × List Arg) := do
  let (flags, fmt) := repeatFlags {} fmt
  let (width, flags, fmt, args) ← fieldWidth flags fmt args
  let (precision, fmt, args) ← fieldPrecision fmt args
  dispatch out fmt width precision flags args

def BUFFER_SIZE : ℕ := 1024

end Ylos.Printf
