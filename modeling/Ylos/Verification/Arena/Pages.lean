import Ylos.Model.Arena
import Ylos.Verification.Bitmap.Runs
import Mathlib.Data.Set.BooleanAlgebra
import Mathlib.Order.CompletePartialOrder
import Mathlib.Order.Interval.Set.Basic

/-! # Kernel pages are taken and given back in runs -/

namespace Ylos.Heap

open Exec

variable {s : State} {map : Bitmap} {used : Set ℕ} {count n q : ℕ}

/-- `kernel_map` has exactly the pages `used` marked. -/
structure Mapped (map : Bitmap) (used : Set ℕ) : Prop where
  offset : map.offset = 256
  length : map.length = 480
  size : 480 ≤ map.size
  inside : ∀ q ∈ used, 256 ≤ q ∧ q < 4096
  bits : ∀ q, 256 ≤ q → q < 4096 → (bitAt map.bits (q - 256) = true ↔ q ∈ used)

/-- There are `count` pages in a row that are not in use. -/
def Room (used : Set ℕ) (count : ℕ) : Prop :=
  0 < count ∧ ∃ q, 256 ≤ q ∧ q + count ≤ 4096 ∧ Disjoint (Set.Ico q (q + count)) used

namespace Mapped

/-- The bits of some pages change. -/
theorem change (h : Mapped map used) {bits : Bytes} {used' : Set ℕ}
    (hinside : ∀ q ∈ used', 256 ≤ q ∧ q < 4096)
    (hbits : ∀ q, 256 ≤ q → q < 4096 → (bitAt bits (q - 256) = true ↔ q ∈ used')) :
    Mapped { map with bits := bits } used' :=
  ⟨h.offset, h.length, h.size, hinside, hbits⟩

theorem clear_iff (h : Mapped map used) (hq : 256 ≤ q) (hend : q + count ≤ 4096) :
    Clear map.bits (q - 256) count ↔ Disjoint (Set.Ico q (q + count)) used := by
  rw [Set.disjoint_left]
  constructor
  · intro hclear r hr hused
    obtain ⟨hr, hr'⟩ := hr
    have hbit := (h.bits r (by omega) (by omega)).mpr hused
    rw [hclear (r - 256) (by omega) (by omega)] at hbit
    cases hbit
  · intro hdisj j hj hj'
    have hpage := h.bits (j + 256) (by omega) (by omega)
    rw [Nat.add_sub_cancel] at hpage
    cases hbit : bitAt map.bits j with
    | false => rfl
    | true => exact absurd (hpage.mp hbit) (hdisj ⟨by omega, by omega⟩)

/-- The bit of a page becomes clear. -/
theorem reset (h : Mapped map used) (hq : 256 ≤ q) :
    Mapped { map with bits := putBit map.bits (q - 256) false } (used \ {q}) := by
  refine h.change (fun r hr => h.inside r hr.1) fun r hr hr' => ?_
  rw [bitAt_putBit, Set.mem_sdiff, Set.mem_singleton_iff, ← h.bits r hr hr']
  split
  · exact ⟨fun hfalse => absurd hfalse (by simp), fun hne => absurd (by omega) hne.2⟩
  · exact ⟨fun hbit => ⟨hbit, by omega⟩, fun hbit => hbit.1⟩

end Mapped

theorem meets_allocKpage (h : Mapped s.kernelMap used) :
    Meets (Room used count) (allocKpage count) (fun addr s' => ∃ q map,
      addr = q * 4096 ∧ s' = { s with kernelMap := map } ∧ 0 < count ∧ 256 ≤ q ∧
      q + count ≤ 4096 ∧ Disjoint (Set.Ico q (q + count)) used ∧
      (∀ r, 256 ≤ r → r < q → ¬Disjoint (Set.Ico r (r + count)) used) ∧
      Mapped map (used ∪ Set.Ico q (q + count))) s := by
  unfold allocKpage scanPage
  by_cases hcount : 0 < count
  · refine meets_bind (meets_check hcount (meets_bind (meets_check hcount ?_)))
    have hlength := h.length
    have hoffset := h.offset
    have hsize := h.size
    refine meets_bind (meets_of_run (run_get s) ?_)
    rcases bitmapScan_run s.kernelMap hcount (by omega) (by omega) (by omega) with
      ⟨i, bits, hscan, hend, hclear, hfirst, hbits⟩ | ⟨hscan, hnone⟩
    · have hpages : Disjoint (Set.Ico (i + 256) (i + 256 + count)) used :=
        (h.clear_iff (by omega) (by omega)).mp (by rwa [Nat.add_sub_cancel])
      refine meets_bind (meets_of_run (by rw [hscan, run_lift_ok]) ?_)
      refine meets_bind (meets_check ?_ (meets_bind (meets_modify (meets_pure ?_))))
      · unfold EOF
        omega
      · refine ⟨i + 256, _, ?_, rfl, hcount, by omega, by omega, hpages, fun r hr hri hdisj => ?_,
          h.change ?_ ?_⟩
        · rw [hoffset, Nat.add_comm]
          exact Nat.mod_eq_of_lt (by unfold PAGE_SIZE; omega)
        · exact hfirst (r - 256) (by omega) ((h.clear_iff hr (by omega)).mpr hdisj)
        · rintro r (hr | ⟨hr, hr'⟩)
          · exact h.inside r hr
          · omega
        · intro r hr hr'
          rw [hbits, Bool.or_eq_true, decide_eq_true_iff, h.bits r hr hr', or_comm]
          refine or_congr_right ?_
          rw [Set.mem_Ico]
          omega
    · refine meets_bind (meets_of_run (by rw [hscan, run_lift_ok]) ?_)
      refine meets_bind (meets_of_error (run_check_neg (by simp) _) ?_)
      rintro ⟨-, r, hr, hend, hdisj⟩
      exact hnone (r - 256) (by omega) ((h.clear_iff hr hend).mpr hdisj)
  · exact meets_bind (meets_of_error (run_check_neg hcount _) fun hroom => hcount hroom.1)

/-- `reset_page` on pages that are in use. -/
theorem run_resetLoop (h : Mapped s.kernelMap used) (hsub : Set.Ico q (q + n) ⊆ used) :
    ∃ map, (resetLoop n q).run s = .ok ((), { s with kernelMap := map }, []) ∧
      Mapped map (used \ Set.Ico q (q + n)) := by
  induction n generalizing s used q with
  | zero =>
      refine ⟨s.kernelMap, rfl, ?_⟩
      rwa [Nat.add_zero, Set.Ico_self, Set.sdiff_empty]
  | succ n ih =>
      have hq : q ∈ used := hsub ⟨le_rfl, by omega⟩
      obtain ⟨hlow, hhigh⟩ := h.inside q hq
      have hlength := h.length
      have hsize := h.size
      obtain ⟨j, rfl⟩ : ∃ j, q = 256 + j := ⟨q - 256, by omega⟩
      have htest : bitmapTest s.kernelMap (256 + j) = .ok true := by
        have hbit := (h.bits (256 + j) hlow hhigh).mpr hq
        rw [Nat.add_sub_cancel_left] at hbit
        rw [← h.offset, bitmapTest_of_lt (by omega) (by omega), hbit]
      have hset : bitmapSet s.kernelMap (256 + j) false =
          .ok { s.kernelMap with bits := putBit s.kernelMap.bits j false } := by
        rw [← h.offset, bitmapSet_of_lt false (by omega)]
      have hclear : Mapped { s.kernelMap with bits := putBit s.kernelMap.bits j false }
          (used \ {256 + j}) := by
        have hreset := h.reset (Nat.le_add_right 256 j)
        rwa [Nat.add_sub_cancel_left] at hreset
      obtain ⟨map, hrun, hmap⟩ := ih
        (s := { s with kernelMap := { s.kernelMap with bits := putBit s.kernelMap.bits j false } })
        (q := 256 + j + 1) hclear (by
          rintro r ⟨hr, hr'⟩
          refine ⟨hsub ⟨by omega, by omega⟩, ?_⟩
          rw [Set.mem_singleton_iff]
          omega)
      refine ⟨map, ?_, ?_⟩
      · unfold resetLoop
        rw [run_bind _ (run_get s), run_bind _ (by rw [htest, run_lift_ok]),
          run_bind _ (run_check_pos rfl s), run_bind _ (run_get s),
          run_bind _ (by rw [hset, run_lift_ok]), run_bind _ (run_modify _ s), u32,
          Nat.mod_eq_of_lt (by omega)]
        exact hrun
      · convert hmap using 1
        ext r
        simp only [Set.mem_sdiff, Set.mem_Ico, Set.mem_singleton_iff, and_assoc]
        refine and_congr_right fun _ => ?_
        omega

/-- `free_kpage` on pages that are in use. -/
theorem run_freeKpage (h : Mapped s.kernelMap used) (hn : 0 < n)
    (hsub : Set.Ico q (q + n) ⊆ used) :
    ∃ map, (freeKpage (q * 4096) n).run s = .ok ((), { s with kernelMap := map }, []) ∧
      Mapped map (used \ Set.Ico q (q + n)) := by
  obtain ⟨map, hrun, hmap⟩ := run_resetLoop h hsub
  have haligned : q * 4096 % PAGE_SIZE = 0 := Nat.mul_mod_left q 4096
  have hindex : q * 4096 / PAGE_SIZE = q := Nat.mul_div_cancel q (by norm_num)
  refine ⟨map, ?_, hmap⟩
  unfold freeKpage resetPage
  rw [run_bind _ (run_check_pos haligned s), run_bind _ (run_check_pos hn s),
    run_bind _ (run_check_pos haligned s), run_bind _ (run_check_pos hn s), hindex]
  exact hrun

end Ylos.Heap
