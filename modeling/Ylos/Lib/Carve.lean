import Mathlib.Data.Nat.SuccPred
import Mathlib.Order.CompletePartialOrder
import Mathlib.Order.SuccPred.IntervalSucc

/-! # A region that is used up from both ends

Pieces of `a` addresses are taken upwards from `lo` and pieces of `b` addresses downwards
from `hi`. -/

namespace Ylos.Carve

variable {lo hi a b i j k : ℕ}

def low (lo a k : ℕ) : Set ℕ := Set.Ico (lo + k * a) (lo + (k + 1) * a)

def high (hi b k : ℕ) : Set ℕ := Set.Ico (hi - (k + 1) * b) (hi - k * b)

/-- There are places for the pieces up to the `k`-th of both kinds. -/
def Places (lo hi a b k : ℕ) : Prop := lo + (k + 1) * a ≤ hi - (k + 1) * b

theorem low_end_mono (h : i ≤ j) : lo + i * a ≤ lo + j * a :=
  Nat.add_le_add_left (Nat.mul_le_mul_right a h) lo

theorem high_start_anti (h : i ≤ j) : hi - j * b ≤ hi - i * b :=
  Nat.sub_le_sub_left (Nat.mul_le_mul_right b h) hi

theorem Places.of_le (h : Places lo hi a b k) (hj : j ≤ k) : Places lo hi a b j :=
  (low_end_mono (Nat.succ_le_succ hj)).trans (h.trans (high_start_anti (Nat.succ_le_succ hj)))

theorem low_disjoint (h : i ≠ j) : Disjoint (low lo a i) (low lo a j) :=
  Monotone.pairwise_disjoint_on_Ico_succ (f := fun k => lo + k * a) (fun _ _ => low_end_mono) h

theorem high_disjoint (h : i ≠ j) : Disjoint (high hi b i) (high hi b j) :=
  Antitone.pairwise_disjoint_on_Ico_succ (f := fun k => hi - k * b) (fun _ _ => high_start_anti) h

/-- The pieces from below end before those from above begin. -/
theorem low_high_disjoint (hi' : Places lo hi a b i) (hj : Places lo hi a b j) :
    Disjoint (low lo a i) (high hi b j) := by
  have hmeet : lo + (i + 1) * a ≤ hi - (j + 1) * b := by
    rcases le_total i j with hij | hij
    · exact (low_end_mono (Nat.succ_le_succ hij)).trans hj
    · exact hi'.trans (high_start_anti (Nat.succ_le_succ hij))
  refine Set.disjoint_left.mpr fun x hx hx' => ?_
  exact absurd (hmeet.trans hx'.1) (not_le.mpr hx.2)

theorem low_subset (h : Places lo hi a b k) : low lo a k ⊆ Set.Ico lo hi :=
  Set.Ico_subset_Ico (Nat.le_add_right _ _) (h.trans (Nat.sub_le _ _))

theorem high_subset (h : Places lo hi a b k) : high hi b k ⊆ Set.Ico lo hi :=
  Set.Ico_subset_Ico ((Nat.le_add_right _ _).trans h) (Nat.sub_le _ _)

end Ylos.Carve
