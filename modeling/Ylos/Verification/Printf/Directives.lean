import Ylos.Verification.Printf.Numbers

/-! # The language of formats -/

namespace Ylos.Printf

open Numeral

/-! ## Syntax -/

inductive Flag where
  | left | plus | space | special | zeropad

inductive Width where
  | none
  | num (n : ℕ) (pos : 0 < n)
  | star

inductive Precision where
  | none | dot
  | num (n : ℕ)

inductive Qualifier where
  | h | l | L

inductive Conv where
  | c | s | o | p | x | X | d | i | u | n | b | m | r | percent

structure Directive where
  flags : List Flag := []
  width : Width := .none
  precision : Precision := .none
  qualifier : Option Qualifier := none
  conv : Conv

inductive Piece where
  | char (c : Char) (h : c ≠ '%')
  | directive (d : Directive)

/-! ## Text -/

def Flag.char : Flag → Char
  | left => '-'
  | plus => '+'
  | space => ' '
  | special => '#'
  | zeropad => '0'

def decimal (n : ℕ) : List Char := numeral ({} : Flags).digit 10 n

def Width.text : Width → List Char
  | none => []
  | num n _ => decimal n
  | star => ['*']

def Precision.text : Precision → List Char
  | none => []
  | dot => ['.']
  | num n => '.' :: decimal n

def Qualifier.char : Qualifier → Char
  | h => 'h'
  | l => 'l'
  | L => 'L'

def Conv.char : Conv → Char
  | c => 'c'
  | s => 's'
  | o => 'o'
  | p => 'p'
  | x => 'x'
  | X => 'X'
  | d => 'd'
  | i => 'i'
  | u => 'u'
  | n => 'n'
  | b => 'b'
  | m => 'm'
  | r => 'r'
  | percent => '%'

/-- The text of a directive behind its `%`. -/
def Directive.text (d : Directive) : List Char :=
  d.flags.map Flag.char ++ (d.width.text ++ (d.precision.text ++
    ((d.qualifier.map Qualifier.char).toList ++ [d.conv.char])))

def Piece.text : Piece → List Char
  | char c _ => [c]
  | directive d => '%' :: d.text

/-! ## Meaning -/

def Flag.raise (flags : Flags) : Flag → Flags
  | left => { flags with left := true }
  | plus => { flags with plus := true }
  | space => { flags with space := true }
  | special => { flags with special := true }
  | zeropad => { flags with zeropad := true }

/-- The width, if there is one, and the flags with it. A negative width means left. -/
def Width.meaning (flags : Flags) (args : List Arg) :
    Width → Except Fault (Option ℕ × Flags × List Arg)
  | none => .ok (.none, flags, args)
  | num n _ => .ok (some n, flags, args)
  | star =>
    match args with
    | .word v :: args =>
      .ok (some (toInt v.toNat).natAbs,
        if toInt v.toNat < 0 then { flags with left := true } else flags, args)
    | _ => .error .wild

def Precision.meaning : Precision → Option ℕ
  | none => .none
  | dot => some 0
  | num n => some n

def textField (flags : Flags) (width : Option ℕ) (s : List Char) : List Char :=
  field ' ' '0' (width.getD 0) (if flags.left then .left else .right) [] s

def numberField (flags : Flags) (width precision : Option ℕ) (base num : ℕ) : List Char :=
  field ' ' '0' (width.getD 0) flags.align (flags.signOf num ++ flags.markOf base)
    (bodyOf flags base (precision.getD 0) num)

/-- Fields with `sep` between them. -/
def addressField (flags : Flags) (width precision : Option ℕ) (n base : ℕ) (sep : Char)
    (b : ℕ → ℕ) : List Char :=
  [sep].intercalate ((List.range n).map fun t => numberField flags width precision base (b t % 256))

def Arg.word? : Arg → Option ℕ
  | word v => some v.toNat
  | _ => none

def Arg.string? : Arg → Option (List Char)
  | string s => some s
  | _ => none

def Arg.bytes? : Arg → Option (ℕ → ℕ)
  | bytes b => some b
  | _ => none

/-- What a conversion appends for its argument. -/
def Conv.show (flags : Flags) (width precision : Option ℕ) (a : Arg) : Conv → Option (List Char)
  | c => a.word?.map fun v => textField flags width [Char.ofNat (v % 256)]
  | s => a.string?.map fun str => textField flags width (precision.elim str str.take)
  | o => a.word?.map (numberField flags width precision 8)
  | p =>
    match width with
    | none => a.word?.map (numberField { flags with zeropad := true } (some 8) precision 16)
    | some width => a.word?.map (numberField flags (some width) precision 16)
  | x => a.word?.map (numberField { flags with small := true } width precision 16)
  | X => a.word?.map (numberField flags width precision 16)
  | d => a.word?.map (numberField { flags with sign := true } width precision 10)
  | i => a.word?.map (numberField { flags with sign := true } width precision 10)
  | u => a.word?.map (numberField flags width precision 10)
  | b => a.word?.map (numberField flags width precision 2)
  | m => a.bytes?.map
    (addressField { flags with small := true, zeropad := true } (some 2) precision 6 16 ':')
  | r => a.bytes?.map (addressField { flags with small := true } width precision 4 10 '.')
  | n => none
  | percent => none

/-- The text of the next argument. -/
def putText (text : Arg → Option (List Char)) (out : Out) : List Arg → Except Fault (Out × List Arg)
  | [] => .error .wild
  | arg :: args =>
    match text arg with
    | some s => .ok (out.put s, args)
    | none => .error .wild

def Conv.meaning (flags : Flags) (width precision : Option ℕ) (out : Out) (args : List Arg) :
    Conv → Except Fault (Out × List Arg)
  | percent => .ok (out.put ['%'], args)
  | n =>
    match args with
    | .pointer ip :: args => .ok ({ out with stores := out.stores ++ [(ip, out.str.length)] }, args)
    | _ => .error .wild
  | conv => putText (fun a => conv.show flags width precision a) out args

def Directive.meaning (d : Directive) (out : Out) (args : List Arg) :
    Except Fault (Out × List Arg) := do
  let (width, flags, args) ← d.width.meaning (d.flags.foldl Flag.raise {}) args
  d.conv.meaning flags width d.precision.meaning out args

/-- What a format writes: what its pieces write, one after the other, each with the arguments that
those before it have left. -/
def meaning : List Piece → Out → List Arg → Except Fault (Out × List Arg)
  | [], out, args => .ok (out, args)
  | .char c _ :: ps, out, args => meaning ps (out.put [c]) args
  | .directive d :: ps, out, args => do
    let (out, args) ← d.meaning out args
    meaning ps out args

end Ylos.Printf
