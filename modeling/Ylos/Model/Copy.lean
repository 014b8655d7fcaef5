import Ylos.Lib.Ram
import Ylos.Model.Bitmap

/-! # `memcpy` and `memset` (`lib/string.c`) -/

namespace Ylos

open Ram

variable {σ : Type} [Ram σ]

def memcpy (dest src : ℕ) : (count : ℕ) → Exec σ Access Unit
  | 0 => pure ()
  | count + 1 => do
    store dest (← load src)
    memcpy (u32 (dest + 1)) (u32 (src + 1)) count

def memset (dest : ℕ) (ch : UInt8) : (count : ℕ) → Exec σ Access Unit
  | 0 => pure ()
  | count + 1 => do
    store dest ch
    memset (u32 (dest + 1)) ch count

end Ylos
