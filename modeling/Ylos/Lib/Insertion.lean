import Mathlib.Data.List.Sort
import Mathlib.Order.Defs.LinearOrder

/-! # Stable insertion

A new item comes behind all those with a key that is not greater than its own. -/

namespace Ylos.Insertion

variable {α β : Type} [LinearOrder β] (key : α → β)

/-- Before the first item with a greater key. -/
def insert (a : α) (xs : List α) : List α := xs.orderedInsert (fun x y => key x < key y) a

variable {key} {a : α} {xs : List α}

theorem insert_eq : insert key a xs =
    xs.takeWhile (fun x => decide (key x ≤ key a)) ++
      a :: xs.dropWhile (fun x => decide (key x ≤ key a)) := by
  have hnot : (fun x => decide ¬key a < key x) = fun x => decide (key x ≤ key a) := by
    funext x
    simp only [not_lt]
  unfold insert
  rw [List.orderedInsert_eq_take_drop, hnot]

/-- In a sorted list all before the new item have no greater keys, and all behind it have
greater ones. -/
theorem insert_split (h : xs.Pairwise fun x y => key x ≤ key y) :
    ∃ ys zs, xs = ys ++ zs ∧ insert key a xs = ys ++ a :: zs ∧ (∀ y ∈ ys, key y ≤ key a) ∧
      ∀ z ∈ zs, key a < key z := by
  refine ⟨_, _, List.takeWhile_append_dropWhile.symm, insert_eq, fun y hy => ?_, fun z hz => ?_⟩
  · exact of_decide_eq_true (List.all_eq_true.mp List.all_takeWhile y hy)
  · have hsorted := h.sublist (List.dropWhile_sublist fun x => decide (key x ≤ key a))
    cases hdrop : xs.dropWhile fun x => decide (key x ≤ key a) with
    | nil =>
        rw [hdrop] at hz
        cases hz
    | cons z' zs =>
        have hfirst : key a < key z' := by
          have hhead := List.head_dropWhile_not (fun x => decide (key x ≤ key a))
            (by rw [hdrop]; exact List.cons_ne_nil z' zs)
          simpa [hdrop] using hhead
        rw [hdrop] at hz hsorted
        rcases List.mem_cons.mp hz with rfl | hz
        · exact hfirst
        · exact hfirst.trans_le (List.rel_of_pairwise_cons hsorted hz)

theorem insert_sorted (h : xs.Pairwise fun x y => key x ≤ key y) :
    (insert key a xs).Pairwise fun x y => key x ≤ key y := by
  obtain ⟨ys, zs, rfl, hins, hys, hzs⟩ := insert_split (a := a) h
  obtain ⟨hy, hz, hcross⟩ := List.pairwise_append.mp h
  rw [hins, List.pairwise_append]
  refine ⟨hy, List.pairwise_cons.mpr ⟨fun z hz' => (hzs z hz').le, hz⟩, fun y hy' z hz' => ?_⟩
  rcases List.mem_cons.mp hz' with rfl | hz'
  · exact hys y hy'
  · exact hcross y hy' z hz'

end Ylos.Insertion
