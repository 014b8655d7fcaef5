import Ylos.Verification.Printf.Formats

/-! # `atoi` reads what `vsprintf` has written -/

namespace Ylos.Printf

open Numeral

variable {s : List Char} {v : UInt32} {n : ℕ} {out : Out}

end Ylos.Printf
