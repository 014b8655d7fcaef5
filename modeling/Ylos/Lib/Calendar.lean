import Mathlib.Algebra.BigOperators.Intervals
import Mathlib.Algebra.Order.BigOperators.Group.Finset

/-! # The Gregorian calendar -/

namespace Ylos.Calendar

open Finset

/-! ## Lengths laid end to end -/

/-- Where item `k` begins, if the items from `a` on have the lengths `len`. -/
def start (len : ℕ → ℕ) (a k : ℕ) : ℕ := ∑ i ∈ Ico a k, len i

section Start

variable {len : ℕ → ℕ} {a b k l n : ℕ}

@[simp] theorem start_self (len : ℕ → ℕ) (a : ℕ) : start len a a = 0 := by
  simp [start]

theorem start_succ (h : a ≤ k) : start len a (k + 1) = start len a k + len k :=
  sum_Ico_succ_top h len

theorem start_mono (h : k ≤ l) : start len a k ≤ start len a l :=
  sum_le_sum_of_subset (Ico_subset_Ico_right h)

/-- A later item begins after an earlier one has ended. -/
theorem start_add_le (h : a ≤ k) (hkl : k < l) : start len a k + len k ≤ start len a l := by
  rw [← start_succ h]
  exact start_mono hkl

/-- Every number before the end lies in an item. -/
theorem exists_item (h : a ≤ b) (hn : n < start len a b) :
    ∃ k, a ≤ k ∧ k < b ∧ start len a k ≤ n ∧ n < start len a k + len k := by
  induction b, h using Nat.le_induction with
  | base => simp at hn
  | succ b hab ih =>
      rcases lt_or_ge n (start len a b) with hlt | hge
      · obtain ⟨k, hak, hkb, hlo, hhi⟩ := ih hlt
        exact ⟨k, hak, hkb.trans (Nat.lt_succ_self b), hlo, hhi⟩
      · rw [start_succ hab] at hn
        exact ⟨b, hab, Nat.lt_succ_self b, hge, hn⟩

end Start

/-! ## Years, months and days -/

/-- A year of 366 days. -/
def IsLeap (y : ℕ) : Prop := y % 4 = 0 ∧ (y % 100 = 0 → y % 400 = 0)

instance : DecidablePred IsLeap := fun _ => inferInstanceAs (Decidable (_ ∧ _))

def yearDays (y : ℕ) : ℕ := if IsLeap y then 366 else 365

/-- The days of month `m`, which is 1 to 12. -/
def monthDays (y : ℕ) : (m : ℕ) → ℕ
  | 2 => if IsLeap y then 29 else 28
  | 4 | 6 | 9 | 11 => 30
  | _ => 31

/-- The days of a year before month `m`. -/
def monthStart (y m : ℕ) : ℕ := start (monthDays y) 1 m

/-- The days of the other years from `origin` on before year `y`. -/
def yearStart (origin y : ℕ) : ℕ := start yearDays origin y

theorem yearDays_pos (y : ℕ) : 365 ≤ yearDays y := by
  unfold yearDays
  split <;> omega

theorem monthDays_pos (y m : ℕ) : 28 ≤ monthDays y m := by
  unfold monthDays
  split
  · split <;> omega
  all_goals omega

/-- The months make up the year. -/
theorem monthStart_end (y : ℕ) : monthStart y 13 = yearDays y := by
  unfold monthStart start yearDays
  by_cases h : IsLeap y <;> simp [Finset.sum_Ico_succ_top, monthDays, h]

/-- The leap years from `origin` on before year `y`. -/
def leaps (origin y : ℕ) : ℕ := ((Ico origin y).filter IsLeap).card

@[simp] theorem leaps_self (origin : ℕ) : leaps origin origin = 0 := by
  simp [leaps]

theorem leaps_succ {origin y : ℕ} (h : origin ≤ y) :
    leaps origin (y + 1) = leaps origin y + if IsLeap y then 1 else 0 := by
  unfold leaps
  rw [← insert_Ico_right_eq_Ico_add_one h, filter_insert]
  split
  · rw [card_insert_of_notMem (by simp)]
  · rfl

/-- Every leap year has a day more. -/
theorem yearStart_eq {origin y : ℕ} (h : origin ≤ y) :
    yearStart origin y = 365 * (y - origin) + leaps origin y := by
  induction y, h using Nat.le_induction with
  | base => simp [yearStart]
  | succ y h ih =>
      have hsucc : yearStart origin (y + 1) = yearStart origin y + yearDays y := start_succ h
      rw [hsucc, ih, leaps_succ h, yearDays]
      split <;> omega

/-- A day of the calendar. -/
@[ext] structure Date where
  year : ℕ
  month : ℕ
  day : ℕ
  month_pos : 1 ≤ month
  month_le : month ≤ 12
  day_pos : 1 ≤ day
  day_le : day ≤ monthDays year month

namespace Date

variable {d e : Date} {origin n : ℕ}

/-- The days of the year before this one. -/
def yday (d : Date) : ℕ := monthStart d.year d.month + (d.day - 1)

/-- The days since the beginning of the year `origin`. -/
def dayNumber (origin : ℕ) (d : Date) : ℕ := yearStart origin d.year + d.yday

/-- The order of the calendar. -/
def Before (d e : Date) : Prop :=
  d.year < e.year ∨ d.year = e.year ∧ (d.month < e.month ∨ d.month = e.month ∧ d.day < e.day)

theorem yday_lt (d : Date) : d.yday < yearDays d.year := by
  have hmonth : start (monthDays d.year) 1 d.month + monthDays d.year d.month ≤
      start (monthDays d.year) 1 13 := start_add_le d.month_pos (Nat.lt_succ_of_le d.month_le)
  have hend := monthStart_end d.year
  have hpos := d.day_pos
  have hle := d.day_le
  unfold yday
  unfold monthStart at hend ⊢
  omega

/-- Every day of a year has a date. -/
theorem exists_yday (y : ℕ) (hn : n < yearDays y) : ∃ d : Date, d.year = y ∧ d.yday = n := by
  rw [← monthStart_end] at hn
  obtain ⟨m, hlo, hhi, hle, hlt⟩ := exists_item (by decide) hn
  refine ⟨⟨y, m, n - monthStart y m + 1, hlo, by omega, by omega, ?_⟩, rfl, ?_⟩
  · change n - start (monthDays y) 1 m + 1 ≤ monthDays y m
    omega
  · change monthStart y m + (n - monthStart y m + 1 - 1) = n
    have hle' : monthStart y m ≤ n := hle
    omega

/-- Every day from the beginning of `origin` on has a date. -/
theorem exists_dayNumber {stop : ℕ} (h : origin ≤ stop) (hn : n < yearStart origin stop) :
    ∃ d : Date, origin ≤ d.year ∧ d.year < stop ∧ d.dayNumber origin = n := by
  obtain ⟨y, hlo, hhi, hle, hlt⟩ := exists_item h hn
  obtain ⟨d, rfl, hday⟩ := exists_yday y (n := n - yearStart origin y) (by
    have hle' : yearStart origin y ≤ n := hle
    have hlt' : n < yearStart origin y + yearDays y := hlt
    omega)
  refine ⟨d, hlo, hhi, ?_⟩
  have hle' : yearStart origin d.year ≤ n := hle
  unfold dayNumber
  omega

theorem dayNumber_lt {stop : ℕ} (h : origin ≤ d.year) (hstop : d.year < stop) :
    d.dayNumber origin < yearStart origin stop := by
  have hyear : start yearDays origin d.year + yearDays d.year ≤ start yearDays origin stop :=
    start_add_le h hstop
  have hday := d.yday_lt
  unfold dayNumber
  unfold yearStart at hyear ⊢
  omega

theorem Before.yday_lt (h : d.month < e.month ∨ d.month = e.month ∧ d.day < e.day)
    (hyear : d.year = e.year) : d.yday < e.yday := by
  have hpos := d.day_pos
  have hle := d.day_le
  unfold yday
  rw [← hyear]
  rcases h with hmonth | ⟨hmonth, hday⟩
  · have hstart : start (monthDays d.year) 1 d.month + monthDays d.year d.month ≤
        start (monthDays d.year) 1 e.month := start_add_le d.month_pos hmonth
    unfold monthStart
    omega
  · rw [← hmonth]
    omega

/-- Later days have greater numbers. -/
theorem Before.dayNumber_lt (h : d.Before e) (horigin : origin ≤ d.year) :
    d.dayNumber origin < e.dayNumber origin := by
  rcases h with hyear | ⟨hyear, hrest⟩
  · have hbefore := Date.dayNumber_lt horigin hyear
    unfold dayNumber at hbefore ⊢
    omega
  · have hyday := Before.yday_lt hrest hyear
    unfold dayNumber
    rw [← hyear]
    omega

end Date

/-! ## Times -/

/-- A second of the calendar. -/
@[ext] structure Moment extends Date where
  hour : ℕ
  minute : ℕ
  second : ℕ
  hour_lt : hour < 24
  minute_lt : minute < 60
  second_lt : second < 60

namespace Moment

variable {m m' : Moment} {origin n : ℕ}

/-- The seconds of the day before this one. -/
def clock (m : Moment) : ℕ := 3600 * m.hour + 60 * m.minute + m.second

/-- The seconds since the beginning of the year `origin`. -/
def seconds (origin : ℕ) (m : Moment) : ℕ := 86400 * m.dayNumber origin + m.clock

/-- The order of the calendar, and of the clock on one day. -/
def Before (m m' : Moment) : Prop :=
  m.toDate.Before m'.toDate ∨ m.toDate = m'.toDate ∧
    (m.hour < m'.hour ∨ m.hour = m'.hour ∧
      (m.minute < m'.minute ∨ m.minute = m'.minute ∧ m.second < m'.second))

theorem clock_lt (m : Moment) : m.clock < 86400 := by
  have hhour := m.hour_lt
  have hminute := m.minute_lt
  have hsecond := m.second_lt
  unfold clock
  omega

theorem Before.seconds_lt (h : m.Before m') (horigin : origin ≤ m.year) :
    m.seconds origin < m'.seconds origin := by
  have hclock := m.clock_lt
  unfold seconds
  rcases h with hday | ⟨hday, htime⟩
  · have hlt := hday.dayNumber_lt horigin
    omega
  · have hminute := m.minute_lt
    have hsecond := m.second_lt
    rw [hday]
    unfold clock
    omega

/-- Every number of seconds belongs to a moment. -/
theorem exists_seconds {stop : ℕ} (h : origin ≤ stop) (hn : n < 86400 * yearStart origin stop) :
    ∃ m : Moment, origin ≤ m.year ∧ m.year < stop ∧ m.seconds origin = n := by
  obtain ⟨d, hlo, hhi, hday⟩ := Date.exists_dayNumber h (n := n / 86400) (by omega)
  refine ⟨⟨d, n / 3600 % 24, n / 60 % 60, n % 60, by omega, by omega, by omega⟩, hlo, hhi, ?_⟩
  unfold seconds
  rw [hday]
  change 86400 * (n / 86400) + (3600 * (n / 3600 % 24) + 60 * (n / 60 % 60) + n % 60) = n
  omega

theorem seconds_lt {stop : ℕ} (h : origin ≤ m.year) (hstop : m.year < stop) :
    m.seconds origin < 86400 * yearStart origin stop := by
  have hday := Date.dayNumber_lt h hstop
  have hclock := m.clock_lt
  unfold seconds
  omega

end Moment

end Ylos.Calendar
