import Ylos.Lib.Exec
import Mathlib.Algebra.Ring.Int.Defs

/-! # Calendar time (`kernel/time.c`, `lib/time.c`)

Arithmetic of `int` wraps around, so that what is stored in a `time_t` is exact modulo
`2 ^ 32`. `localtime` is the same in both files. -/

namespace Ylos.Time

/-- A number as the `u32` that it is stored in. -/
def time32 (n : ℤ) : ℕ := (n % 2 ^ 32).toNat

def MINUTE : ℤ := 60

def HOUR : ℤ := 60 * MINUTE

def DAY : ℤ := 24 * HOUR

/-- A year of 365 days. -/
def YEAR : ℤ := 365 * DAY

/-- The days before each month, from month 1 on, if February has 29. -/
def monthTable : List ℤ :=
  [0, 0, 31, 31 + 29, 31 + 29 + 31, 31 + 29 + 31 + 30, 31 + 29 + 31 + 30 + 31,
    31 + 29 + 31 + 30 + 31 + 30, 31 + 29 + 31 + 30 + 31 + 30 + 31,
    31 + 29 + 31 + 30 + 31 + 30 + 31 + 31, 31 + 29 + 31 + 30 + 31 + 30 + 31 + 31 + 30,
    31 + 29 + 31 + 30 + 31 + 30 + 31 + 31 + 30 + 31,
    31 + 29 + 31 + 30 + 31 + 30 + 31 + 31 + 30 + 31 + 30]

/-- `month[i]`. -/
def month (i : ℤ) : Except Fault ℤ :=
  if i < 0 then .error .wild
  else
    match monthTable[i.toNat]? with
    | none => .error .wild
    | some days => .ok days

/-- `tm`. -/
structure Tm where
  tm_sec : ℤ
  tm_min : ℤ
  tm_hour : ℤ
  tm_mday : ℤ
  tm_mon : ℤ
  tm_year : ℤ
  tm_wday : ℤ
  tm_yday : ℤ
  tm_isdst : ℤ
  deriving DecidableEq, Repr

def elapsedLeapYears (year : ℤ) : ℤ :=
  (year - 1).tdiv 4 - (year - 1).tdiv 100 + (year + 299).tdiv 400 - (1970 - 1900) / 4

def isLeapYear (year : ℤ) : Bool :=
  (year.tmod 4 = 0 ∧ year.tmod 100 ≠ 0) ∨ (year + 1900).tmod 400 = 0

/-- The loop of `localtime`: the first `mon` from the given one on, in `n` rounds, that begins
after the day. -/
def monthLoop (offset yday : ℤ) : (n : ℕ) → (mon : ℤ) → Except Fault ℤ
  | 0, mon => .ok mon
  | n + 1, mon => do
    if yday < (← month mon) - offset then return mon
    else monthLoop offset yday n (mon + 1)

/-- The fields that are not set stay as they are in `time`. -/
def localtime (stamp : ℕ) (time : Tm) : Except Fault Tm := do
  let remain := stamp / 60
  let days := remain / 60 / 24
  let years : ℤ := (days / 365 : ℕ) + 70
  let offset : ℤ := if isLeapYear years then 0 else 1
  let rest := time32 (days - elapsedLeapYears years)
  let yday : ℤ := rest % (366 - offset)
  let mon ← monthLoop offset yday 12 1
  return { time with
    tm_sec := (stamp % 60 : ℕ)
    tm_min := (remain % 60 : ℕ)
    tm_hour := (remain / 60 % 24 : ℕ)
    tm_wday := ((days + 4) % 7 : ℕ)
    tm_year := years
    tm_yday := yday
    tm_mon := mon - 1
    tm_mday := yday - (← month (mon - 1)) + offset + 1 }

def mktime (time : Tm) : Except Fault ℕ := do
  let year := if 70 ≤ time.tm_year then time.tm_year - 70 else time.tm_year - 70 + 100
  let res := time32 (YEAR * year)
  let res := time32 (res + DAY * (year + 1).tdiv 4)
  let res := time32 (res + (← month time.tm_mon) * DAY)
  let res := if 2 < time.tm_mon ∧ (year + 2).tmod 4 ≠ 0 then time32 (res - DAY) else res
  let res := time32 (res + DAY * (time.tm_mday - 1))
  let res := time32 (res + HOUR * time.tm_hour)
  let res := time32 (res + MINUTE * time.tm_min)
  return time32 (res + time.tm_sec)

end Ylos.Time
