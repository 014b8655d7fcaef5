import Ylos.Lib.Calendar
import Ylos.Model.Time
import Mathlib.Tactic.IntervalCases
import Mathlib.Tactic.Ring

/-! # `mktime` on the dates from 1970 to 2099 -/

namespace Ylos.Time

open Calendar

variable {m m' : Moment} {t t' : Tm} {y n : ℕ} {d : ℤ}

/-! ## Arithmetic modulo `2 ^ 32` -/

@[simp] theorem time32_add (a b : ℤ) : time32 (time32 a + b) = time32 (a + b) := by
  unfold time32
  rw [Int.toNat_of_nonneg (Int.emod_nonneg _ (by decide)), Int.emod_add_emod]

@[simp] theorem time32_sub (a b : ℤ) : time32 (time32 a - b) = time32 (a - b) := by
  unfold time32
  rw [Int.toNat_of_nonneg (Int.emod_nonneg _ (by decide)), Int.emod_sub_emod]

theorem time32_cast (n : ℕ) : time32 n = n % 2 ^ 32 := by
  unfold time32
  omega

/-! ## What `mktime` computes -/

/-- The year from 1970 on that `tm_year` stands for. -/
def yearOf (t : Tm) : ℤ := if 70 ≤ t.tm_year then t.tm_year - 70 else t.tm_year - 70 + 100

/-- The days before the date, with `d` days before the month. -/
def daysOf (t : Tm) (d : ℤ) : ℤ :=
  365 * yearOf t + (yearOf t + 1).tdiv 4 + d -
    (if 2 < t.tm_mon ∧ (yearOf t + 2).tmod 4 ≠ 0 then 1 else 0) + (t.tm_mday - 1)

theorem mktime_eq (h : month t.tm_mon = .ok d) :
    mktime t = .ok (time32 (86400 * daysOf t d + 3600 * t.tm_hour + 60 * t.tm_min + t.tm_sec)) := by
  have hbind : ∀ {α : Type} (f : ℤ → Except Fault α), (month t.tm_mon >>= f) = f d := by
    intro α f
    rw [h]
    rfl
  have hyear : (if 70 ≤ t.tm_year then t.tm_year - 70 else t.tm_year - 70 + 100) = yearOf t := rfl
  unfold mktime
  simp only [hbind, time32_add, hyear]
  change Except.ok _ = Except.ok _
  congr 1
  unfold daysOf
  split
  · simp only [add_assoc, time32_add, time32_sub]
    congr 1
    unfold YEAR DAY HOUR MINUTE
    ring
  · simp only [add_assoc, time32_add]
    congr 1
    unfold YEAR DAY HOUR MINUTE
    ring

/-! ## Leap years from 1970 on -/

/-- Up to 2100 every fourth year is a leap year. -/
theorem isLeap_iff (h : 1970 ≤ y) (hlt : y < 2100) : IsLeap y ↔ y % 4 = 0 := by
  unfold IsLeap
  omega

theorem leaps_eq (h : 1970 ≤ y) (hle : y ≤ 2100) : leaps 1970 y = (y - 1969) / 4 := by
  induction y, h using Nat.le_induction with
  | base => exact leaps_self 1970
  | succ y h ih =>
      simp only [leaps_succ h, ih (by omega), isLeap_iff h (by omega)]
      split <;> omega

/-- The table counts 29 days for February. -/
theorem month_eq (y : ℕ) (hpos : 1 ≤ n) (hle : n ≤ 12) :
    month n = .ok (monthStart y n + if 2 < n ∧ ¬IsLeap y then 1 else 0) := by
  interval_cases n <;> by_cases hleap : IsLeap y <;>
    simp [month, monthTable, monthStart, start, Finset.sum_Ico_succ_top, monthDays, hleap]

/-! ## Dates -/

/-- The fields say this moment; a year from 2000 to 2069 may have two digits. -/
structure Says (t : Tm) (m : Moment) : Prop where
  year : t.tm_year = m.year - 1900 ∨ 2000 ≤ m.year ∧ m.year < 2070 ∧ t.tm_year = m.year - 2000
  mon : t.tm_mon = m.month
  mday : t.tm_mday = m.day
  hour : t.tm_hour = m.hour
  min : t.tm_min = m.minute
  sec : t.tm_sec = m.second

theorem Says.yearOf (h : Says t m) (hlo : 1970 ≤ m.year) : yearOf t = (m.year : ℤ) - 1970 := by
  have hyear := h.year
  unfold Time.yearOf
  split <;> omega

/-- `mktime` is exact modulo `2 ^ 32`. -/
theorem says_mktime (h : Says t m) (hlo : 1970 ≤ m.year) (hhi : m.year < 2100) :
    mktime t = .ok (m.seconds 1970 % 2 ^ 32) := by
  have hmonth := month_eq m.year m.month_pos m.month_le
  rw [← h.mon] at hmonth
  rw [mktime_eq hmonth, ← time32_cast]
  congr 2
  have hleap := isLeap_iff hlo hhi
  have hdays :
      daysOf t (monthStart m.year m.month + if 2 < m.month ∧ ¬IsLeap m.year then 1 else 0) =
      m.dayNumber 1970 := by
    have hpos := m.day_pos
    unfold daysOf Date.dayNumber Date.yday
    rw [yearStart_eq hlo, leaps_eq hlo hhi.le, h.yearOf hlo, h.mon, h.mday,
      Int.tdiv_eq_ediv_of_nonneg (by omega), Int.tmod_eq_emod_of_nonneg (by omega)]
    simp only [hleap]
    split <;> split <;> omega
  rw [hdays, h.hour, h.min, h.sec]
  unfold Moment.seconds Moment.clock
  push_cast
  ring

/-- All of them fit into 32 bits. -/
theorem seconds_small (hlo : 1970 ≤ m.year) (hhi : m.year < 2100) :
    m.seconds 1970 < 4102444800 := by
  have hstop : yearStart 1970 2100 = 47482 := by
    rw [yearStart_eq (by omega), leaps_eq (by omega) le_rfl]
  have hlt := Moment.seconds_lt hlo hhi
  omega

/-- `mktime` is exact, and increases in the order of the calendar. -/
theorem mktime_exact (h : Says t m) (hlo : 1970 ≤ m.year) (hhi : m.year < 2100) :
    mktime t = .ok (m.seconds 1970 % 2 ^ 32) ∧
      ∀ t' m', Says t' m' → m'.year < 2100 → m.Before m' →
        ∃ r r', mktime t = .ok r ∧ mktime t' = .ok r' ∧ r < r' := by
  refine ⟨says_mktime h hlo hhi, fun t' m' h' hhi' hbefore => ?_⟩
  have hlo' : 1970 ≤ m'.year := by
    rcases hbefore with (hyear | ⟨hyear, -⟩) | ⟨hday, -⟩
    · omega
    · omega
    · rwa [← hday]
  have hlt := hbefore.seconds_lt hlo
  have hsmall := seconds_small hlo hhi
  have hsmall' := seconds_small hlo' hhi'
  refine ⟨_, _, says_mktime h hlo hhi, says_mktime h' hlo' hhi', ?_⟩
  omega

/-- The first second of 1970. -/
def firstMoment : Moment :=
  ⟨⟨1970, 1, 1, by decide, by decide, by decide, by decide⟩, 0, 0, 0, by decide, by decide,
    by decide⟩

/-- The last second of 2099. -/
def lastMoment : Moment :=
  ⟨⟨2099, 12, 31, by decide, by decide, by decide, by decide⟩, 23, 59, 59, by decide, by decide,
    by decide⟩

theorem mktime_exact_ends : ∃ r r', mktime ⟨0, 0, 0, 1, 1, 70, 4, 0, 0⟩ = .ok r ∧
    mktime ⟨59, 59, 23, 31, 12, 199, 4, 364, 0⟩ = .ok r' ∧ r < r' := by
  have hfirst : Says ⟨0, 0, 0, 1, 1, 70, 4, 0, 0⟩ firstMoment := by
    constructor <;> simp [firstMoment]
  have hlast : Says ⟨59, 59, 23, 31, 12, 199, 4, 364, 0⟩ lastMoment := by
    constructor <;> simp [lastMoment]
  exact (mktime_exact hfirst (by simp [firstMoment]) (by simp [firstMoment])).2 _ _ hlast
    (by simp [lastMoment]) (.inl (.inl (by simp [firstMoment, lastMoment])))

end Ylos.Time
