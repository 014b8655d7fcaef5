import Ylos.Lib.Numeral
import Ylos.Model.Printf

/-! # What `number` writes -/

namespace Ylos.Printf

open Numeral

variable {flags : Flags} {base num : ℕ} {size precision : ℤ}

theorem length_digits (flags : Flags) : flags.digits.length = 36 := by
  unfold Flags.digits
  split
  · rfl
  · rfl

/-- The digits of a number, at least `precision` of them. -/
def bodyOf (flags : Flags) (base precision num : ℕ) : List Char :=
  let digits := numeral flags.digit base (if flags.sign then (toInt num).natAbs else num)
  List.replicate (precision - digits.length) '0' ++ digits

def Flags.align (flags : Flags) : Align :=
  if flags.left then .left else if flags.zeropad then .zeros else .right

end Ylos.Printf
