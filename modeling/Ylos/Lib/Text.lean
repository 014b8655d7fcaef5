import Ylos.Lib.Ram
import Mathlib.Data.List.Basic

/-! # Lists of bytes in memory -/

namespace Ylos.Bytes

variable {m m' : Bytes} {p q w v i j n : ℕ} {l l' rest u : List UInt8} {ch : UInt8} {vs : List ℕ}

/-- The bytes from `p` on are `l`. -/
def Shows (m : Bytes) (p : ℕ) (l : List UInt8) : Prop :=
  ∀ j < l.length, l[j]? = some (m (p + j))

instance (m : Bytes) (p : ℕ) (l : List UInt8) : Decidable (Shows m p l) :=
  inferInstanceAs (Decidable (∀ j < l.length, _))

theorem shows_nil (m : Bytes) (p : ℕ) : Shows m p [] := by simp [Shows]

theorem Shows.congr (h : Shows m p l) (heq : ∀ a, p ≤ a → a < p + l.length → m' a = m a) :
    Shows m' p l := by
  intro j hj
  rw [heq _ (by omega) (by omega)]
  exact h j hj

theorem Shows.mem (h : Shows m p l) (hj : j < l.length) : m (p + j) ∈ l :=
  List.mem_of_getElem? (h j hj)

theorem shows_append : Shows m p (l ++ l') ↔ Shows m p l ∧ Shows m (p + l.length) l' := by
  constructor
  · intro h
    constructor
    · intro j hj
      rw [← h j (by simp; omega), List.getElem?_append_left hj]
    · intro j hj
      have hbyte := h (l.length + j) (by simp; omega)
      rw [List.getElem?_append_right (by omega), Nat.add_sub_cancel_left] at hbyte
      rw [hbyte, add_assoc]
  · rintro ⟨h, h'⟩ j hj
    rw [List.length_append] at hj
    by_cases hlt : j < l.length
    · rw [List.getElem?_append_left hlt, h j hlt]
    · rw [List.getElem?_append_right (by omega), h' (j - l.length) (by omega)]
      congr 2
      omega

theorem shows_singleton : Shows m p [ch] ↔ m p = ch := by
  constructor
  · intro h
    have hbyte := h 0 (by simp)
    simpa using hbyte.symm
  · rintro rfl j hj
    have hzero : j = 0 := by simpa using hj
    simp [hzero]

theorem shows_cons : Shows m p (ch :: l) ↔ m p = ch ∧ Shows m (p + 1) l := by
  rw [← shows_singleton, ← List.singleton_append, shows_append]
  rfl

/-- What is copied is there. -/
theorem shows_copy (h : Shows m' q l) : Shows (m.copy p l.length fun k => m' (q + k)) p l := by
  intro j hj
  unfold copy
  rw [if_pos (by omega), Nat.add_sub_cancel_left]
  exact h j hj

/-! ## Strings -/

/-- The string at `p`, with a zero behind it. -/
def Str (m : Bytes) (p : ℕ) (l : List UInt8) : Prop := Shows m p l ∧ m (p + l.length) = 0

instance (m : Bytes) (p : ℕ) (l : List UInt8) : Decidable (Str m p l) :=
  inferInstanceAs (Decidable (_ ∧ _))

theorem str_iff : Str m p l ↔ Shows m p (l ++ [0]) := by
  rw [shows_append, shows_singleton]
  rfl

theorem Str.congr (h : Str m p l) (heq : ∀ a, p ≤ a → a ≤ p + l.length → m' a = m a) :
    Str m' p l := by
  constructor
  · exact h.1.congr fun a ha hlt => heq a ha hlt.le
  · rw [heq _ (by omega) le_rfl]
    exact h.2

theorem Str.append (h : Str m p (l ++ rest)) : Shows m p l ∧ Str m (p + l.length) rest := by
  rw [str_iff, List.append_assoc, shows_append, ← str_iff] at h
  exact h

theorem Str.head (h : Str m p (ch :: rest)) : m p = ch := (shows_cons.mp h.1).1

/-- A string ends where a zero is stored. -/
theorem Str.cut (h : Str m p (l ++ rest)) : Str (Function.update m (p + l.length) 0) p l := by
  constructor
  · exact h.append.1.congr fun a _ ha => Function.update_of_ne (by omega) _ _
  · exact Function.update_self _ _ _

/-! ## Numbers -/

/-- The low `w` bytes of `v`, the lowest first. -/
def le : (w v : ℕ) → List UInt8
  | 0, _ => []
  | w + 1, v => UInt8.ofNat v :: le w (v / 256)

@[simp] theorem length_le (w v : ℕ) : (le w v).length = w := by
  induction w generalizing v with
  | zero => rfl
  | succ w ih => simp [le, ih]

theorem Shows.read (h : Shows m p (le w v)) (hv : v < 256 ^ w) : Bytes.read w m p = v := by
  induction w generalizing p v with
  | zero =>
      rw [pow_zero] at hv
      rw [Bytes.read]
      omega
  | succ w ih =>
      obtain ⟨hfirst, hrest⟩ := shows_cons.mp h
      have htail := ih hrest (by rw [pow_succ] at hv; omega)
      rw [Bytes.read, hfirst, htail, UInt8.toNat_ofNat']
      omega

/-- What is stored is there. -/
theorem shows_copy_le (m : Bytes) (p w v : ℕ) :
    Shows (m.copy p w fun k => UInt8.ofNat (v / 256 ^ k)) p (le w v) := by
  induction w generalizing m p v with
  | zero => exact shows_nil _ _
  | succ w ih =>
      rw [copy_succ]
      refine shows_cons.mpr ⟨?_, ?_⟩
      · rw [copy_apply_of_lt (by omega), Function.update_self, pow_zero, Nat.div_one]
      · have hrest := ih (Function.update m p (UInt8.ofNat (v / 256 ^ 0))) (p + 1) (v / 256)
        simpa [Nat.div_div_eq_div_mul, pow_succ'] using hrest

@[simp] theorem length_flatMap_le (w : ℕ) (vs : List ℕ) :
    (vs.flatMap (le w)).length = w * vs.length := by
  induction vs with
  | nil => rfl
  | cons v vs ih =>
      rw [List.flatMap_cons, List.length_append, ih, length_le, List.length_cons, Nat.mul_succ,
        Nat.add_comm]

/-- The numbers of an array. -/
theorem Shows.read_flatMap (h : Shows m p (vs.flatMap (le w))) (hi : vs[i]? = some v)
    (hv : v < 256 ^ w) : Bytes.read w m (p + w * i) = v := by
  induction vs generalizing p i with
  | nil => cases hi
  | cons v' vs ih =>
      rw [List.flatMap_cons, shows_append, length_le] at h
      cases i with
      | zero =>
          rw [List.getElem?_cons_zero] at hi
          cases hi
          exact h.1.read hv
      | succ i =>
          rw [List.getElem?_cons_succ] at hi
          have hrest := ih h.2 hi
          rw [← hrest, Nat.mul_succ]
          congr 1
          omega

end Ylos.Bytes
