import Ylos.Verification.Printf.Directives

/-! # `vsprintf` writes what the format means -/

namespace Ylos.Printf

open Numeral

variable {fmt rest : List Char} {args : List Arg} {out : Out}

/-! ## Reading a directive -/

/-- No character of `cs` comes next in the format. -/
def Stops (cs : List Char) (fmt : List Char) : Prop := ∀ c ∈ fmt.head?, c ∉ cs

/-- A width as it is in the code, where there is none at -1. -/
def given : Option ℕ → ℤ
  | none => -1
  | some n => n

/-- The characters that a conversion or its qualifier is. -/
def letters : List Char :=
  ['h', 'l', 'L', 'c', 's', 'o', 'p', 'x', 'X', 'd', 'i', 'u', 'n', 'b', 'm', 'r', '%']

end Ylos.Printf
