import Mathlib.Data.Nat.Digits.Lemmas

/-! # Numerals and fields of text -/

namespace Ylos.Numeral

variable {α : Type} {digit : ℕ → α} {value : α → ℕ} {b n k : ℕ}

/-- The numeral of `n`, the first digit first. -/
def numeral (digit : ℕ → α) (b n : ℕ) : List α :=
  if n = 0 then [digit 0] else ((Nat.digits b n).map digit).reverse

theorem length_numeral (hb : 1 < b) (hk : 0 < k) (hn : n < b ^ k) :
    (numeral digit b n).length ≤ k := by
  unfold numeral
  split
  · exact hk
  · rw [List.length_reverse, List.length_map]
    exact (Nat.digits_length_le_iff hb n).mpr hn

/-- What a list of digits stands for behind the digits of `start`. -/
def read (value : α → ℕ) (b : ℕ) (s : List α) (start : ℕ) : ℕ :=
  s.foldl (fun acc c => acc * b + value c) start

inductive Align where
  | left | right
  /-- Zeros between the head and the body. -/
  | zeros
  deriving DecidableEq

/-- A field of at least `width` characters. -/
def field (blank zero : α) (width : ℕ) (align : Align) (head body : List α) : List α :=
  let room := width - (head.length + body.length)
  match align with
  | .left => head ++ body ++ List.replicate room blank
  | .right => List.replicate room blank ++ (head ++ body)
  | .zeros => head ++ (List.replicate room zero ++ body)

theorem length_field (blank zero : α) (width : ℕ) (align : Align) (head body : List α) :
    (field blank zero width align head body).length = max width (head.length + body.length) := by
  cases align with
  | left => simp [field]; omega
  | right => simp [field]; omega
  | zeros => simp [field]; omega

end Ylos.Numeral
