import Mathlib.Data.List.Range
import Mathlib.Data.Nat.ModEq

/-! # Ring buffers

A ring of `length` places holds the `n` values from the place `tail` on. -/

namespace Ylos.RingBuffer

variable {α : Type}

/-- The place that is `n` places after `tail`. -/
def place (length tail n : ℕ) : ℕ := (tail + n) % length

/-- The values in the ring, oldest first. -/
def window (buf : ℕ → α) (length tail n : ℕ) : List α :=
  (List.range n).map fun i => buf (place length tail i)

variable {buf : ℕ → α} {length tail n i j : ℕ}

theorem place_zero (h : tail < length) : place length tail 0 = tail := Nat.mod_eq_of_lt h

theorem place_lt (h : 0 < length) : place length tail n < length := Nat.mod_lt _ h

theorem place_place : place length (place length tail i) j = place length tail (i + j) := by
  unfold place
  rw [Nat.mod_add_mod, Nat.add_assoc]

/-- Different distances below the length lead to different places. -/
theorem place_inj (hi : i < length) (hj : j < length)
    (h : place length tail i = place length tail j) : i = j := by
  have hmod : Nat.ModEq length i j := Nat.ModEq.add_left_cancel' tail h
  exact Nat.ModEq.eq_of_lt_of_lt hmod hi hj

/-- Only after no place and after all of them a ring is back where it began. -/
theorem place_eq_tail_iff (h : tail < length) (hn : n ≤ length) :
    place length tail n = tail ↔ n = 0 ∨ n = length := by
  constructor
  · intro heq
    by_contra hne
    push Not at hne
    have hzero := place_inj (j := 0) (by omega) (Nat.zero_lt_of_lt h)
      (heq.trans (place_zero h).symm)
    exact hne.1 hzero
  · rintro (rfl | rfl)
    · exact place_zero h
    · rw [place, Nat.add_mod_right, Nat.mod_eq_of_lt h]

/-- The number of places from `tail` to a place. -/
theorem distance_place (h : tail < length) (hn : n < length) :
    (place length tail n + length - tail) % length = n := by
  unfold place
  rcases Nat.lt_or_ge (tail + n) length with hlt | hge
  · rw [Nat.mod_eq_of_lt hlt, show tail + n + length - tail = n + length by omega,
      Nat.add_mod_right, Nat.mod_eq_of_lt hn]
  · have hwrap : (tail + n) % length = tail + n - length := by
      rw [Nat.mod_eq_sub_mod hge, Nat.mod_eq_of_lt (by omega)]
    rw [hwrap, Nat.sub_add_cancel hge, Nat.add_sub_cancel_left, Nat.mod_eq_of_lt hn]

/-- As many places after `tail` a place is found again. -/
theorem place_distance (hi : i < length) (h : tail < length) :
    place length tail ((i + length - tail) % length) = i := by
  unfold place
  rw [Nat.add_mod_mod, show tail + (i + length - tail) = i + length by omega, Nat.add_mod_right,
    Nat.mod_eq_of_lt hi]

theorem length_window : (window buf length tail n).length = n := by
  unfold window
  rw [List.length_map, List.length_range]

@[simp] theorem window_zero : window buf length tail 0 = [] := rfl

/-- The oldest value goes. -/
theorem window_succ (h : tail < length) :
    window buf length tail (n + 1) = buf tail :: window buf length (place length tail 1) n := by
  unfold window
  rw [List.range_succ_eq_map, List.map_cons, place_zero h, List.map_map]
  refine congrArg _ (List.map_congr_left fun i _ => ?_)
  rw [place_place, Nat.add_comm 1]
  rfl

/-- A value comes behind the newest. -/
theorem window_push (hn : n < length) (v : α) :
    window (fun k => if k = place length tail n then v else buf k) length tail (n + 1) =
      window buf length tail n ++ [v] := by
  unfold window
  rw [List.range_succ, List.map_append, List.map_singleton]
  beta_reduce
  rw [if_pos rfl]
  refine congrArg (· ++ [v]) (List.map_congr_left fun i hi => if_neg fun h => ?_)
  have hlt := List.mem_range.mp hi
  have heq := place_inj (hlt.trans hn) hn h
  omega

end Ylos.RingBuffer
