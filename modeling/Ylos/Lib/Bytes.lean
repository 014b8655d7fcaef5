import Mathlib.Algebra.Order.Ring.Nat
import Mathlib.Tactic.Ring

/-! # Little-endian fields in byte memory -/

namespace Ylos

/-- Byte memory, addressed from the start of an object. -/
abbrev Bytes := ℕ → UInt8

namespace Bytes

/-- The little-endian number in the `w` bytes from `o` on. -/
def read (w : ℕ) (m : Bytes) (o : ℕ) : ℕ :=
  match w with
  | 0 => 0
  | w + 1 => (m o).toNat + 256 * read w m (o + 1)

/-- Store the low `w` bytes of `v` from `o` on. -/
def write (w : ℕ) (m : Bytes) (o v : ℕ) : Bytes :=
  match w with
  | 0 => m
  | w + 1 => fun i => if i = o then UInt8.ofNat v else write w m (o + 1) (v / 256) i

/-- Store `f 0`, ..., `f (w - 1)` from `o` on. -/
def copy (m : Bytes) (o w : ℕ) (f : ℕ → UInt8) : Bytes :=
  fun i => if o ≤ i ∧ i < o + w then f (i - o) else m i

theorem copy_apply_of_lt {m : Bytes} {o w i : ℕ} {f : ℕ → UInt8} (h : i < o ∨ o + w ≤ i) :
    copy m o w f i = m i := by
  unfold copy
  rw [if_neg (by omega)]

theorem write_apply_of_lt {w i : ℕ} {m : Bytes} {o v : ℕ} (h : i < o ∨ o + w ≤ i) :
    write w m o v i = m i := by
  induction w generalizing o v with
  | zero => rfl
  | succ w ih =>
      simp only [write]
      rw [if_neg (by omega)]
      exact ih (by omega)

/-- A read depends on its own bytes only. -/
theorem read_congr {w : ℕ} {m m' : Bytes} {o : ℕ}
    (h : ∀ i, o ≤ i → i < o + w → m i = m' i) : read w m o = read w m' o := by
  induction w generalizing o with
  | zero => rfl
  | succ w ih =>
      simp only [read]
      rw [h o le_rfl (by omega), ih (fun i hi hi' => h i (by omega) (by omega))]

theorem read_lt (w : ℕ) (m : Bytes) (o : ℕ) : read w m o < 256 ^ w := by
  induction w generalizing o with
  | zero => simp [read]
  | succ w ih =>
      have hbyte : (m o).toNat < 256 := (m o).toNat_lt
      have hrest := ih (o + 1)
      simp only [read]
      rw [pow_succ]
      omega

theorem read_write_same (w : ℕ) (m : Bytes) (o v : ℕ) :
    read w (write w m o v) o = v % 256 ^ w := by
  induction w generalizing o v with
  | zero => simp [read, Nat.mod_one]
  | succ w ih =>
      have htail : read w (write (w + 1) m o v) (o + 1) =
          read w (write w m (o + 1) (v / 256)) (o + 1) := by
        apply read_congr
        intro i hi _
        simp only [write]
        rw [if_neg (by omega)]
      simp only [read]
      rw [htail, ih]
      simp only [write, if_true, UInt8.toNat_ofNat']
      rw [pow_succ' 256 w, Nat.mod_mul]

theorem read_write_ne {w w' : ℕ} {m : Bytes} {o o' v : ℕ}
    (h : o + w ≤ o' ∨ o' + w' ≤ o) : read w (write w' m o' v) o = read w m o := by
  apply read_congr
  intro i hi hi'
  exact write_apply_of_lt (by omega)

theorem read_copy_ne {w w' : ℕ} {m : Bytes} {o o' : ℕ} {f : ℕ → UInt8}
    (h : o + w ≤ o' ∨ o' + w' ≤ o) : read w (copy m o' w' f) o = read w m o := by
  apply read_congr
  intro i hi hi'
  exact copy_apply_of_lt (by omega)

theorem read_eq_zero {w : ℕ} {m : Bytes} {o : ℕ} (h : ∀ i, o ≤ i → i < o + w → m i = 0) :
    read w m o = 0 := by
  induction w generalizing o with
  | zero => rfl
  | succ w ih =>
      simp only [read]
      rw [h o le_rfl (by omega), ih (fun i hi hi' => h i (by omega) (by omega))]
      rfl

end Bytes

end Ylos
