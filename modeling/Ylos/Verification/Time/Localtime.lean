import Ylos.Verification.Time.Mktime

/-! # `localtime` and back -/

namespace Ylos.Time

open Calendar

variable {m : Moment} {t time : Tm} {stamp days : ℕ}

/-! ## The loop over the months -/

/-- What comes of day `yday`: a month, and with `offset` 1 the right one of a year of 365 days from
March on only. -/
def splits (offset yday : ℕ) : Bool :=
  match monthLoop offset yday 12 1 with
  | .error _ => false
  | .ok mon =>
    match month (mon - 1) with
    | .error _ => false
    | .ok d => 1 ≤ mon - 1 ∧ mon - 1 ≤ 12 ∧ (offset = 1 → (2 < mon - 1 ↔ 59 ≤ yday)) ∧
        (2 < mon - 1 → d ≤ yday + offset ∧ yday + offset - d < monthDays 1 (mon - 1).toNat)

theorem splits_all : ∀ offset < 2, ∀ yday < 366 - offset, splits offset yday = true := by
  decide +kernel

structure Split (offset yday : ℕ) (mon d : ℤ) : Prop where
  loop : monthLoop offset yday 12 1 = .ok (mon + 1)
  month : Time.month mon = .ok d
  pos : 1 ≤ mon
  le : mon ≤ 12
  march : offset = 1 → (2 < mon ↔ 59 ≤ yday)
  day : 2 < mon → d ≤ yday + offset ∧ yday + offset - d < monthDays 1 mon.toNat

theorem exists_split {offset yday : ℕ} (hoffset : offset < 2) (hyday : yday < 366 - offset) :
    ∃ mon d, Split offset yday mon d := by
  have h := splits_all offset hoffset yday hyday
  unfold splits at h
  split at h
  · cases h
  · rename_i mon hloop
    split at h
    · cases h
    · rename_i d hmonth
      obtain ⟨hpos, hle, hmarch, hday⟩ := of_decide_eq_true h
      exact ⟨mon - 1, d, by rw [hloop, sub_add_cancel], hmonth, hpos, hle, hmarch, hday⟩

/-! ## What `localtime` computes -/

/-- The estimate of the year, from 1970 on. -/
def guess (days : ℕ) : ℕ := days / 365

/-- The fourth years before the estimate. -/
def fourths (days : ℕ) : ℕ := (guess days + 1) / 4

/-- 1 for a year of 365 days. -/
def short (days : ℕ) : ℕ := if isLeapYear (guess days + 70) then 0 else 1

/-- The day of the year. -/
def ydayOf (days : ℕ) : ℕ := (days - fourths days) % (366 - short days)

theorem short_lt (days : ℕ) : short days < 2 := by
  unfold short
  split <;> decide

theorem ydayOf_lt (days : ℕ) : ydayOf days < 366 - short days := by
  have hshort := short_lt days
  exact Nat.mod_lt _ (by omega)

theorem elapsedLeapYears_eq (h : days < 47482) :
    elapsedLeapYears (guess days + 70) = fourths days := by
  unfold elapsedLeapYears fourths guess
  rw [Int.tdiv_eq_ediv_of_nonneg (by omega), Int.tdiv_eq_ediv_of_nonneg (by omega),
    Int.tdiv_eq_ediv_of_nonneg (by omega)]
  omega

theorem isLeapYear_iff (h : days < 47482) :
    isLeapYear (guess days + 70) = true ↔ IsLeap (guess days + 1970) := by
  unfold isLeapYear IsLeap guess
  rw [decide_eq_true_iff, Int.tmod_eq_emod_of_nonneg (by omega),
    Int.tmod_eq_emod_of_nonneg (by omega), Int.tmod_eq_emod_of_nonneg (by omega)]
  omega

/-- What `localtime` fills in, with `d` days before month `mon`. -/
def fields (stamp : ℕ) (time : Tm) (mon d : ℤ) : Tm :=
  { time with
    tm_sec := (stamp % 60 : ℕ)
    tm_min := (stamp / 60 % 60 : ℕ)
    tm_hour := (stamp / 3600 % 24 : ℕ)
    tm_wday := ((stamp / 86400 + 4) % 7 : ℕ)
    tm_year := guess (stamp / 86400) + 70
    tm_yday := ydayOf (stamp / 86400)
    tm_mon := mon
    tm_mday := ydayOf (stamp / 86400) - d + short (stamp / 86400) + 1 }

theorem localtime_eq {mon d : ℤ} (h : stamp < 4102444800)
    (hsplit : Split (short (stamp / 86400)) (ydayOf (stamp / 86400)) mon d) :
    localtime stamp time = .ok (fields stamp time mon d) := by
  have hsmall : stamp / 86400 < 47482 := by omega
  have hfourths := elapsedLeapYears_eq hsmall
  have hdays : stamp / 60 / 60 / 24 = stamp / 86400 := by omega
  have hhour : stamp / 60 / 60 % 24 = stamp / 3600 % 24 := by omega
  have hyears : ((stamp / 86400 / 365 : ℕ) : ℤ) + 70 = guess (stamp / 86400) + 70 := rfl
  have hoffset : (if isLeapYear (guess (stamp / 86400) + 70) then 0 else 1 : ℤ) =
      (short (stamp / 86400) : ℕ) := by
    unfold short
    split <;> rfl
  have hshort := short_lt (stamp / 86400)
  have hle : fourths (stamp / 86400) ≤ stamp / 86400 := by
    unfold fourths guess
    omega
  have hyday : (time32 ((stamp / 86400 : ℕ) - (fourths (stamp / 86400) : ℕ)) : ℤ) %
      (366 - (short (stamp / 86400) : ℕ)) = (ydayOf (stamp / 86400) : ℕ) := by
    rw [← Nat.cast_sub hle, time32_cast, Nat.mod_eq_of_lt (by omega)]
    unfold ydayOf
    rw [Int.natCast_mod]
    congr 1
    omega
  unfold localtime
  simp only [hdays, hhour, hyears, hoffset, hfourths, hyday]
  rw [hsplit.loop]
  change (Time.month (mon + 1 - 1) >>= fun d => _) = _
  rw [add_sub_cancel_right, hsplit.month]
  rfl

/-! ## There and back -/

/-- The fields for `stamp` are a date and a time, and `mktime` gives `stamp` for them. -/
def RoundTrip (stamp : ℕ) (time : Tm) : Prop :=
  ∃ t, localtime stamp time = .ok t ∧ mktime t = .ok stamp ∧ ∃ m, Says t m

/-- The day that `mktime` finds for the fields. -/
def foundDay (days : ℕ) (mon : ℤ) : ℤ :=
  365 * guess days + fourths days + ydayOf days + short days -
    if 2 < mon ∧ (guess days + 2) % 4 ≠ 0 then 1 else 0

theorem mktime_fields {mon d : ℤ} (hmonth : month mon = .ok d) :
    mktime (fields stamp time mon d) =
      .ok (time32 (86400 * foundDay (stamp / 86400) mon + (stamp % 86400 : ℕ))) := by
  rw [mktime_eq hmonth]
  have hyear : (fields stamp time mon d).tm_year = guess (stamp / 86400) + 70 := rfl
  have hyearOf : yearOf (fields stamp time mon d) = guess (stamp / 86400) := by
    unfold yearOf
    split <;> omega
  have hmday : (fields stamp time mon d).tm_mday =
      ydayOf (stamp / 86400) - d + short (stamp / 86400) + 1 := rfl
  have hmon : (fields stamp time mon d).tm_mon = mon := rfl
  have hdays : daysOf (fields stamp time mon d) d = foundDay (stamp / 86400) mon := by
    unfold daysOf foundDay fourths
    rw [hyearOf, hmon, hmday, Int.tdiv_eq_ediv_of_nonneg (by omega),
      Int.tmod_eq_emod_of_nonneg (by omega)]
    split <;> split <;> omega
  have hclock : 3600 * (fields stamp time mon d).tm_hour + 60 * (fields stamp time mon d).tm_min +
      (fields stamp time mon d).tm_sec = (stamp % 86400 : ℕ) := by
    change 3600 * ((stamp / 3600 % 24 : ℕ) : ℤ) + 60 * (stamp / 60 % 60 : ℕ) + (stamp % 60 : ℕ) = _
    omega
  rw [hdays, add_assoc, add_assoc, ← add_assoc (3600 * _), hclock]

/-- The day of a year that begins `f` days late. -/
theorem sub_mod_year {f r g : ℕ} (hdays : days = 365 * g + r) (hr : r < 365) (hf : f ≤ g)
    (hlt : f < 365) : (days - f) % 365 = if f ≤ r then r - f else 365 + r - f := by
  split
  · have h : days - f = 365 * g + (r - f) := by omega
    rw [h, Nat.mul_add_mod, Nat.mod_eq_of_lt (by omega)]
  · have h : days - f = 365 * (g - 1) + (365 + r - f) := by omega
    rw [h, Nat.mul_add_mod, Nat.mod_eq_of_lt (by omega)]

/-- The estimate is the year, and the day of the year is right after February of a year of 365
days. -/
theorem foundDay_eq_iff {mon d : ℤ} (h : days < 47482)
    (hsplit : Split (short days) (ydayOf days) mon d) :
    foundDay days mon = days ↔
      ¬IsLeap (guess days + 1970) ∧ fourths days + 59 ≤ days % 365 := by
  have hleap := isLeapYear_iff h
  have hmarch := hsplit.march
  have hfourths : fourths days = (guess days + 1) / 4 := rfl
  have hsmall : guess days ≤ 130 := by
    unfold guess
    omega
  have hdays : days = 365 * guess days + days % 365 := (Nat.div_add_mod days 365).symm
  have hlt := Nat.mod_lt days (show 0 < 365 by decide)
  have hmod := sub_mod_year hdays hlt (f := fourths days) (by omega) (by omega)
  rw [← hleap]
  unfold foundDay ydayOf
  unfold ydayOf at hmarch
  by_cases hlong : isLeapYear (guess days + 70) = true
  · have hshort : short days = 0 := if_pos hlong
    have hfour : (guess days + 2) % 4 = 0 := by
      have hyear := hleap.mp hlong
      unfold IsLeap at hyear
      omega
    rw [hshort]
    simp only [hlong, hfour, ne_eq, not_true_eq_false, and_false, if_false, false_and, iff_false]
    -- 366 would divide the years since 1970
    intro heq
    have hturn := Nat.div_add_mod (days - fourths days) 366
    have hle : fourths days ≤ days := by omega
    simp only [Nat.sub_zero, Nat.cast_zero, add_zero, sub_zero] at heq
    clear hmod hdays hfourths
    generalize (days - fourths days) % 366 = k at *
    generalize (days - fourths days) / 366 = q at *
    generalize guess days = g at *
    have hmult : 365 * g = 366 * q := by omega
    clear hturn heq
    omega
  · have hshort : short days = 1 := if_neg hlong
    rw [hshort] at hmarch ⊢
    simp only [hlong, Bool.false_eq_true, not_false_eq_true, true_and]
    have hiff := hmarch rfl
    -- 2100 is the one fourth year that is not a leap year
    have hyear : (guess days + 2) % 4 = 0 → guess days = 130 := by
      have hnot := mt hleap.mpr hlong
      unfold IsLeap at hnot
      unfold guess at hnot ⊢
      omega
    rw [hmod] at hiff ⊢
    generalize days % 365 = r at *
    generalize fourths days = f at *
    generalize guess days = g at *
    subst hdays
    split <;> split <;> omega

theorem foundDay_near (h : days < 47482) (mon : ℤ) :
    -1 ≤ foundDay days mon ∧ foundDay days mon < 49000 := by
  have hyday := ydayOf_lt days
  have hshort := short_lt days
  have hfourths : fourths days = (days / 365 + 1) / 4 := rfl
  have hguess : guess days = days / 365 := rfl
  unfold foundDay
  split <;> omega

/-- The date is in a year of 365 days, not before March, and the leap years since 1970 do not yet
carry the estimate of the year on. -/
def Exact (m : Moment) : Prop :=
  ¬IsLeap m.year ∧ 3 ≤ m.month ∧ m.yday + leaps 1970 m.year < 365

theorem monthDays_common {y y' n : ℕ} (h : ¬IsLeap y) (h' : ¬IsLeap y') :
    monthDays y n = monthDays y' n := by
  unfold monthDays
  simp [h, h']

theorem march_iff {e : Date} (h : ¬IsLeap e.year) : 3 ≤ e.month ↔ 59 ≤ e.yday := by
  have hmarch : monthStart e.year 3 = 59 := by
    simp [monthStart, start, Finset.sum_Ico_succ_top, monthDays, h]
  have hpos := e.day_pos
  have hle := e.day_le
  unfold Date.yday
  constructor
  · intro hmonth
    have hmono : monthStart e.year 3 ≤ monthStart e.year e.month := start_mono hmonth
    omega
  · intro hyday
    by_contra hmonth
    have hnext : monthStart e.year e.month + monthDays e.year e.month ≤ monthStart e.year 3 :=
      start_add_le e.month_pos (not_le.mp hmonth)
    omega

theorem exact_iff (hlo : 1970 ≤ m.year) (hhi : m.year < 2100) (hdays : m.dayNumber 1970 = days) :
    ¬IsLeap (guess days + 1970) ∧ fourths days + 59 ≤ days % 365 ↔ Exact m := by
  have hyday := m.yday_lt
  have hleaps := leaps_eq hlo hhi.le
  unfold Date.dayNumber at hdays
  rw [yearStart_eq hlo, hleaps] at hdays
  unfold Exact
  rw [hleaps]
  have hlong : yearDays m.year ≤ 366 := by
    unfold yearDays
    split <;> omega
  constructor
  · rintro ⟨hleap, hrest⟩
    have hsum : 365 * guess days + days % 365 = days := Nat.div_add_mod days 365
    have hfloor : m.year - 1970 ≤ guess days := by
      unfold guess
      omega
    -- the remainder is past the leap days of both years, so the estimate is no year ahead
    have hguess : guess days + 1970 = m.year := by
      have hfourths : fourths days = (guess days + 1) / 4 := rfl
      clear hleaps
      generalize days % 365 = r at *
      generalize guess days = g at *
      omega
    rw [hguess] at hleap
    refine ⟨hleap, (march_iff hleap).mpr ?_, ?_⟩
    · unfold fourths at hrest
      unfold guess at *
      omega
    · unfold guess at hguess
      omega
  · rintro ⟨hleap, hmonth, hrest⟩
    have hmarch := (march_iff hleap).mp hmonth
    have hguess : guess days + 1970 = m.year := by
      unfold guess
      omega
    rw [hguess]
    refine ⟨hleap, ?_⟩
    unfold fourths
    unfold guess at *
    omega

/-- The fields of an exact day are its date. -/
theorem says_fields {mon d : ℤ} (h : stamp < 4102444800)
    (hsplit : Split (short (stamp / 86400)) (ydayOf (stamp / 86400)) mon d)
    (hleap : ¬IsLeap (guess (stamp / 86400) + 1970))
    (hrest : fourths (stamp / 86400) + 59 ≤ stamp / 86400 % 365) :
    ∃ m, Says (fields stamp time mon d) m := by
  have hpos := hsplit.pos
  have hle := hsplit.le
  have hshort : short (stamp / 86400) = 1 :=
    if_neg fun hlong => hleap ((isLeapYear_iff (by omega)).mp hlong)
  have hyday : ydayOf (stamp / 86400) = stamp / 86400 % 365 - fourths (stamp / 86400) := by
    unfold ydayOf
    rw [hshort]
    omega
  have hmarch : 2 < mon := (hsplit.march hshort).mpr (by omega)
  obtain ⟨hlo, hhi⟩ := hsplit.day hmarch
  have hcommon : monthDays 1 mon.toNat = monthDays (guess (stamp / 86400) + 1970) mon.toNat :=
    monthDays_common (by decide) hleap
  rw [hcommon] at hhi
  have hmday : (fields stamp time mon d).tm_mday = ydayOf (stamp / 86400) - d + 1 + 1 := by
    rw [fields, hshort]
    rfl
  refine ⟨⟨⟨guess (stamp / 86400) + 1970, mon.toNat, (ydayOf (stamp / 86400) - d + 2).toNat,
    by omega, by omega, by omega, by omega⟩, stamp / 3600 % 24, stamp / 60 % 60, stamp % 60,
    by omega, by omega, by omega⟩, ?_, ?_, ?_, rfl, rfl, rfl⟩
  · left
    change (guess (stamp / 86400) : ℤ) + 70 = ((guess (stamp / 86400) + 1970 : ℕ) : ℤ) - 1900
    omega
  · change mon = (mon.toNat : ℤ)
    omega
  · rw [hmday]
    change _ = ((ydayOf (stamp / 86400) - d + 2).toNat : ℤ)
    omega

/-- No second of the day before 1970 is taken for one before 2100. -/
theorem eq_of_time32 {s : ℤ} (hlo : -86400 ≤ s) (hhi : s < 2 ^ 32) (h : stamp < 4102444800)
    (heq : stamp = time32 s) : s = stamp := by
  unfold time32 at heq
  rcases lt_or_ge s 0 with hneg | hpos
  · have hwrap : s % 2 ^ 32 = s + 2 ^ 32 := by omega
    omega
  · have hsame : s % 2 ^ 32 = s := Int.emod_eq_of_lt hpos hhi
    omega

theorem roundTrip_iff (hlo : 1970 ≤ m.year) (hhi : m.year < 2100) :
    RoundTrip (m.seconds 1970) time ↔ Exact m := by
  have hsmall := seconds_small hlo hhi
  have hclock := m.clock_lt
  have hdays : m.dayNumber 1970 = m.seconds 1970 / 86400 := by
    unfold Moment.seconds
    omega
  generalize hstamp : m.seconds 1970 = stamp at *
  have hbound : stamp / 86400 < 47482 := by omega
  obtain ⟨mon, d, hsplit⟩ := exists_split (short_lt (stamp / 86400)) (ydayOf_lt (stamp / 86400))
  have hlocal : localtime stamp time = .ok (fields stamp time mon d) := localtime_eq hsmall hsplit
  have hfound := foundDay_eq_iff hbound hsplit
  rw [← exact_iff hlo hhi hdays]
  constructor
  · rintro ⟨t, ht, hback, -⟩
    cases hlocal.symm.trans ht
    rw [← hfound]
    have heq : stamp = _ := Except.ok.inj (hback.symm.trans (mktime_fields hsplit.month))
    obtain ⟨hnear, hfar⟩ := foundDay_near hbound mon
    have hsame := eq_of_time32 (by omega) (by omega) hsmall heq
    omega
  · rintro ⟨hleap, hrest⟩
    refine ⟨_, hlocal, ?_, says_fields hsmall hsplit hleap hrest⟩
    rw [mktime_fields hsplit.month, hfound.mpr ⟨hleap, hrest⟩]
    congr 1
    unfold time32
    omega

/-- Every stamp before 2100 is a moment, and there and back it is the same one on the exact days
only. -/
theorem roundTrip_exact (h : stamp < 4102444800) (time : Tm) :
    ∃ m : Moment, 1970 ≤ m.year ∧ m.year < 2100 ∧ m.seconds 1970 = stamp ∧
      (RoundTrip stamp time ↔ Exact m) := by
  have hstop : yearStart 1970 2100 = 47482 := by
    rw [yearStart_eq (by omega), leaps_eq (by omega) le_rfl]
  obtain ⟨m, hlo, hhi, rfl⟩ := Moment.exists_seconds (show 1970 ≤ 2100 by omega)
    (n := stamp) (by omega)
  exact ⟨m, hlo, hhi, rfl, roundTrip_iff hlo hhi⟩

theorem roundTrip_exact_zero : ∃ m : Moment, 1970 ≤ m.year ∧ m.year < 2100 ∧ m.seconds 1970 = 0 ∧
    (RoundTrip 0 ⟨0, 0, 0, 0, 0, 0, 0, 0, 0⟩ ↔ Exact m) :=
  roundTrip_exact (by decide) _

/-- Stamp 0 gives 2 January 1970. -/
theorem not_roundTrip : ¬∀ stamp < 4102444800, ∀ time, RoundTrip stamp time := by
  intro h
  obtain ⟨t, ht, hback, -⟩ := h 0 (by decide) ⟨0, 0, 0, 0, 0, 0, 0, 0, 0⟩
  have hlocal : localtime 0 ⟨0, 0, 0, 0, 0, 0, 0, 0, 0⟩ = .ok ⟨0, 0, 0, 2, 1, 70, 4, 0, 0⟩ := by
    decide
  cases hlocal.symm.trans ht
  revert hback
  decide

end Ylos.Time
