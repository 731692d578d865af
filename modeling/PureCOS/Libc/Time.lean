import PureCOS.Lib.Calendar

/-!
# Broken-down time of the C library

`mktime` and `localtime` of `src/libc/time.c`.  `long` has 64 bits and never overflows here;
`unsigned` has 32, and conversions to it are reduced.  The sums `month + 1` and `day - 1` of type
`int` are those of integers; the C language leaves them undefined for the greatest month and the
least day.

`mktime` finds the day with a formula that is made for months of one year.  It is given whatever
month the caller has, and days before the era of the month become large positive ones, so fields are
carried for some values only.
-/

namespace PureCOS.Libc

open Calendar

/-! ## The code -/

structure Tm where
  sec : Int
  min : Int
  hour : Int
  mday : Int
  mon : Int
  year : Int
  wday : Int
  yday : Int
  isdst : Int
deriving DecidableEq

def timeIsLeap (year : Int) : Bool :=
  (year.tmod 4 == 0 && year.tmod 100 != 0) || year.tmod 400 == 0

def timeMonthDays (month year : Int) : Int :=
  if month == 1 && timeIsLeap year then 29
  else [31, 28, 31, 30, 31, 30, 31, 31, 30, 31, 30, 31].getD month.toNat 0

def timeDaysFromCivil (year month day : Int) : Int :=
  let m1 := month + 1
  let year := year - if m1 ≤ 2 then 1 else 0
  let era := (if 0 ≤ year then year else year - (400 - 1)).tdiv 400
  let yoe := (year - era * 400) % 2 ^ 32
  let mp := (m1 + if m1 > 2 then -3 else 9) % 2 ^ 32
  let doy := ((153 * mp + 2) % 2 ^ 32 / 5 + (day - 1) % 2 ^ 32) % 2 ^ 32
  let doe := (yoe * 365 + yoe / 4 - yoe / 100 + doy) % 2 ^ 32
  era * 146097 + doe - 719468

/-- `time_civil_from_days`: year, month and day -/
def timeCivilFromDays (days : Int) : Int × Int × Int :=
  let z := days + 719468
  let era := (if 0 ≤ z then z else z - (146097 - 1)).tdiv 146097
  let doe := (z - era * 146097) % 2 ^ 32
  let yoe := (doe - doe / 1460 + doe / 36524 - doe / 146096) / 365
  let y := yoe + era * 400
  let doy := doe - (365 * yoe + yoe / 4 - yoe / 100)
  let mp := (5 * doy + 2) / 153
  let d := doy - (153 * mp + 2) / 5 + 1
  let m := if mp < 10 then mp + 3 else mp - 9
  (y + (if m ≤ 2 then 1 else 0), m - 1, d)

/-- The loop of `time_fill` that adds the first months -/
def addMonths (year : Int) : Nat → Int → Int
  | 0, yday => yday
  | n + 1, yday => addMonths year n yday + timeMonthDays n year

def timeFill (value : Int) : Tm :=
  let days := if 0 ≤ value then value.tdiv 86400 else -((-value + (86400 - 1)).tdiv 86400)
  let secondOfDay := value - days * 86400
  let (year, month, day) := timeCivilFromDays days
  { sec := secondOfDay.tmod 60
    min := (secondOfDay.tmod 3600).tdiv 60
    hour := secondOfDay.tdiv 3600
    mday := day
    mon := month
    year := (year - 1900 + 2 ^ 31) % 2 ^ 32 - 2 ^ 31
    wday := (days.tmod 7 + 7 + 4).tmod 7
    yday := addMonths year month.toNat (day - 1)
    isdst := 0 }

/-- `time_zone_seconds`; the zone of the kernel is in minutes, and `none` if it cannot be read. -/
def timeZoneSeconds : Option Int → Int
  | none => 0
  | some minutes => minutes * 60

def localtime (zone : Option Int) (value : Int) : Tm := timeFill (value + timeZoneSeconds zone)

/-- `mktime`: the result and what it stores in `*parts` -/
def mktime (zone : Option Int) (parts : Tm) : Int × Tm :=
  let days := timeDaysFromCivil (parts.year + 1900) parts.mon parts.mday
  let seconds := days * 86400 + parts.hour * 3600 + parts.min * 60 + parts.sec
  let result := seconds - timeZoneSeconds zone
  (result, localtime zone result)

/-! ## What is meant -/

/-- A moment with all fields. -/
def tmOf (t : Moment) : Tm where
  sec := t.second
  min := t.minute
  hour := t.hour
  mday := t.day
  mon := t.month - 1
  year := t.year - 1900
  wday := t.toDate.weekday
  yday := t.toDate.yearday
  isdst := 0

namespace Tm

variable (p : Tm)

/-- The day, after whole years are carried out of the month. -/
def dayNumber : Int := number (p.year + 1900 + p.mon / 12) (p.mon % 12 + 1) p.mday

/-- The local time that the fields mean. -/
def localSeconds : Int := p.dayNumber * 86400 + p.hour * 3600 + p.min * 60 + p.sec

/-- First year of the era of the month; eras start in March. -/
def eraYear : Int := (p.year + 1900 - if p.mon ≤ 1 then 1 else 0) / 400 * 400

/--
The fields that `mktime` can carry: months of three years, and no day before the era of the month.
-/
structure Carried : Prop where
  month : -10 ≤ p.mon ∧ p.mon ≤ 13
  day : number p.eraYear 3 1 ≤ p.dayNumber

/-- The fields are of type `int`, the year not too far away. -/
structure InRange : Prop where
  sec : -2 ^ 31 ≤ p.sec ∧ p.sec < 2 ^ 31
  min : -2 ^ 31 ≤ p.min ∧ p.min < 2 ^ 31
  hour : -2 ^ 31 ≤ p.hour ∧ p.hour < 2 ^ 31
  mday : -2 ^ 31 ≤ p.mday ∧ p.mday < 2 ^ 31
  mon : -2 ^ 31 ≤ p.mon ∧ p.mon < 2 ^ 31
  year : -1001900 ≤ p.year ∧ p.year ≤ 1001900

end Tm

/-! ## Days -/

section Days

variable {p : Tm}

/-- Year from March on, as the formula has it. -/
def formulaYear (p : Tm) : Int := p.year + 1900 - if p.mon ≤ 1 then 1 else 0

/-- Month from March on, as the formula has it. -/
def formulaMonth (p : Tm) : Int := p.mon + 1 + if p.mon + 1 > 2 then -3 else 9

/-- The right number has the months of the formula carried. -/
theorem dayNumber_eq (p : Tm) : p.dayNumber = marchStart (formulaYear p + formulaMonth p / 12) +
    (153 * (formulaMonth p % 12) + 2) / 5 + p.mday - 1 - 719468 := by
  have hyear : marchYear (p.year + 1900 + p.mon / 12) (p.mon % 12 + 1) =
      formulaYear p + formulaMonth p / 12 := by
    unfold marchYear formulaYear formulaMonth
    split <;> split <;> split <;> omega
  have hmonth : marchMonth (p.mon % 12 + 1) = formulaMonth p % 12 := by
    unfold marchMonth formulaMonth
    split <;> split <;> omega
  rw [Tm.dayNumber, number_march ⟨by omega, by omega⟩, hyear, hmonth]

theorem eraYear_number (p : Tm) : number p.eraYear 3 1 = formulaYear p / 400 * 146097 - 719468 := by
  rw [number_march ⟨by omega, by omega⟩]
  simp only [marchYear, marchMonth, marchStart, Tm.eraYear, formulaYear]
  rw [if_neg (show ¬(3 : Int) ≤ 2 by omega), if_pos (show (3 : Int) > 2 by omega)]
  omega

/-- Days of the formula before its month. -/
def formulaDays (mp : Int) : Int := (153 * (mp % 2 ^ 32) + 2) % 2 ^ 32 / 5

/-- Day of the era, as the formula has it. -/
def formulaDay (p : Tm) : Int :=
  marchStart (formulaYear p) - formulaYear p / 400 * 146097 + formulaDays
    (formulaMonth p) + p.mday - 1

theorem timeDaysFromCivil_eq (p : Tm) :
    timeDaysFromCivil (p.year + 1900) p.mon p.mday =
      formulaYear p / 400 * 146097 + formulaDay p % 2 ^ 32 - 719468 := by
  have hyear : (p.year + 1900 - if p.mon + 1 ≤ 2 then 1 else 0) = formulaYear p := by
    unfold formulaYear
    split <;> split <;> omega
  have hera :=
    marchStart_era (show 0 ≤ formulaYear p % 400 ∧ formulaYear p % 400 ≤ 399 by omega)
      (formulaYear p / 400)
  rw [show formulaYear p % 400 + formulaYear p / 400 * 400 = formulaYear p by omega] at hera
  have hyoe : (formulaYear p - formulaYear p / 400 * 400) % 2 ^ 32 = formulaYear p % 400 := by omega
  rw [timeDaysFromCivil]
  simp only [hyear, tdiv_shifted (show (0 : Int) < 400 by decide), hyoe]
  change _ + (_ + (formulaDays (formulaMonth p) + (p.mday - 1) % 2 ^ 32) % 2 ^ 32) %
    2 ^ 32 - 719468 = _
  unfold formulaDay
  rw [hera]
  omega

/-- Years have 365 or 366 days. -/
theorem marchStart_years (y k : Int) : 0 ≤ k ∧ 365 * k ≤ marchStart (y + k) - marchStart y ∧
    marchStart (y + k) - marchStart y ≤ 366 * k ∨ k ≤ 0 ∧
    366 * k ≤ marchStart (y + k) - marchStart y ∧ marchStart (y + k) - marchStart y ≤ 365 * k := by
  unfold marchStart
  omega

theorem formulaDays_bounds (mp : Int) : ∃ j, 5 * formulaDays mp ≤ 153 * mp + 2 - j * 2 ^ 32 ∧
    153 * mp + 2 - j * 2 ^ 32 < 5 * formulaDays mp + 5 := by
  refine ⟨(153 * mp + 2) / 2 ^ 32, ?_⟩
  have hmod : (153 * (mp % 2 ^ 32) + 2) % 2 ^ 32 = (153 * mp + 2) % 2 ^ 32 := by omega
  rw [formulaDays, hmod]
  omega

/-- The formula is right in the months of one year only: a year of it has 367 days or more. -/
theorem formulaDays_only
    {y k r : Int} (hr : 0 ≤ r ∧ r ≤ 11) (hrange : -2 ^ 31 ≤ 12 * k + r ∧ 12 * k + r < 2 ^ 31 + 10)
    (h : (formulaDays (12 * k + r) - (marchStart (y + k) - marchStart y + (153 * r + 2) / 5)) %
      2 ^ 32 = 0) : k = 0 := by
  obtain ⟨j, hlow, hhigh⟩ := formulaDays_bounds (12 * k + r)
  have hyears := marchStart_years y k
  generalize marchStart (y + k) - marchStart y = days at h hyears
  generalize formulaDays (12 * k + r) = found at h hlow hhigh
  obtain ⟨n, hn⟩ : ∃ n, found - (days + (153 * r + 2) / 5) = n * 2 ^ 32 :=
    ⟨(found - (days + (153 * r + 2) / 5)) / 2 ^ 32, by omega⟩
  -- the words that were lost would have to make up for the days that are too many
  have hlost : -4 ≤ 1836 * k - 5 * days - (j + 5 * n) * 2 ^ 32 ∧
      1836 * k - 5 * days - (j + 5 * n) * 2 ^ 32 ≤ 4 := by
    omega
  have hnone : j + 5 * n = 0 := by omega
  omega

theorem formulaDays_eq {mp : Int} (h : 0 ≤ mp ∧ mp ≤ 11) : formulaDays mp = (153 * mp + 2) / 5 := by
  unfold formulaDays
  omega

/-- `mktime` finds the right day just in fields that it can carry. -/
theorem timeDaysFromCivil_iff (hrange : p.InRange) :
    timeDaysFromCivil (p.year + 1900) p.mon p.mday = p.dayNumber ↔ p.Carried := by
  have hmonth : formulaMonth p = p.mon - 2 ∧ 2 ≤ p.mon ∨ formulaMonth p = p.mon + 10 ∧
      p.mon ≤ 1 := by
    unfold formulaMonth
    split <;> omega
  have hmon := hrange.mon
  have hmday := hrange.mday
  rw [timeDaysFromCivil_eq]
  constructor
  · intro h
    have hday : number p.eraYear 3 1 ≤ p.dayNumber := by
      rw [eraYear_number, ← h]
      omega
    rw [dayNumber_eq] at h
    have hone :=
      formulaDays_only (y := formulaYear p) (k := formulaMonth p / 12) (r := formulaMonth p % 12)
        (by omega) (by omega) (by
        rw [show 12 * (formulaMonth p / 12) + formulaMonth p % 12 = formulaMonth p by omega]
        unfold formulaDay at h
        omega)
    exact ⟨by omega, hday⟩
  rintro ⟨hcarried, hday⟩
  have hin : 0 ≤ formulaMonth p ∧ formulaMonth p ≤ 11 := by omega
  rw [eraYear_number] at hday
  rw [dayNumber_eq] at hday ⊢
  rw [show formulaMonth p / 12 = 0 by omega, show formulaMonth p % 12 = formulaMonth p by omega,
    Int.add_zero] at hday ⊢
  unfold formulaDay
  rw [formulaDays_eq hin]
  have hera : marchStart (formulaYear p) - formulaYear p / 400 * 146097 ≤ 146097 := by
    unfold marchStart
    omega
  rw [Int.emod_eq_of_lt (by omega) (by omega)]
  omega

end Days

/-! ## Broken-down time -/

theorem timeMonthDays_eq {n : Nat} (hn : n < 12) (year : Int) :
    timeMonthDays n year = monthLength year (n + 1) := by
  have hleap : timeIsLeap year = decide (Leap year) := by
    rw [Bool.eq_iff_iff, decide_eq_true_iff]
    simp [timeIsLeap, Leap, Int.dvd_iff_tmod_eq_zero]
  unfold timeMonthDays monthLength
  rw [hleap]
  by_cases h : Leap year
  · interval_cases n <;> simp [h]
  · interval_cases n <;> simp [h]

theorem addMonths_eq (year : Int) {n : Nat} (hn : n ≤ 12) (yday : Int) :
    addMonths year n yday = firstMonths year n + yday := by
  induction n with
  | zero => simp [addMonths, firstMonths]
  | succ n ih =>
    rw [addMonths, ih (by omega), timeMonthDays_eq (by omega), firstMonths]
    omega

theorem timeCivilFromDays_eq (n : Int) :
    timeCivilFromDays n = ((ofNumber n).year, (ofNumber n).month - 1, (ofNumber n).day) := by
  have hera : (n + 719468 - (n + 719468) / 146097 * 146097) % 2 ^ 32 = (n + 719468) % 146097 := by
    omega
  rw [timeCivilFromDays]
  simp only [tdiv_shifted (show (0 : Int) < 146097 by decide), hera]
  rfl

/-- If the year fits, `time_fill` finds the moment. -/
theorem timeFill_eq {s : Int}
    (hyear : -2 ^ 31 ≤ (ofSeconds s).year - 1900 ∧ (ofSeconds s).year - 1900 < 2 ^ 31) :
    timeFill s = tmOf (ofSeconds s) := by
  have hmonth := (ofSeconds s).month_mem
  have hsecond : s - s / 86400 * 86400 = s % 86400 := by omega
  rw [timeFill]
  simp only [neg_tdiv_shifted (show (0 : Int) < 86400 by decide), hsecond, tmod_seven,
    timeCivilFromDays_eq]
  change Tm.mk _ _ _ _ _ (((ofSeconds s).year - 1900 + 2 ^ 31) % 2 ^ 32 - 2 ^ 31) _
    (addMonths (ofSeconds s).year ((ofSeconds s).month - 1).toNat ((ofSeconds s).day - 1)) 0 = _
  rw [addMonths_eq _ (by omega), Int.tmod_eq_emod_of_nonneg (by omega),
    Int.tmod_eq_emod_of_nonneg (by omega), Int.tdiv_eq_ediv_of_nonneg (by omega),
    Int.tdiv_eq_ediv_of_nonneg (by omega), tmOf, Tm.mk.injEq]
  refine ⟨rfl, rfl, rfl, rfl, rfl, by omega, ?_, ?_, rfl⟩
  · rw [Date.weekday, number_ofSeconds]
  · unfold Date.yearday
    omega

/-- The day that the formula finds is not far away. -/
theorem timeDaysFromCivil_mem {p : Tm} (hrange : p.InRange) :
    -6 * 10 ^ 11 ≤ timeDaysFromCivil (p.year + 1900) p.mon p.mday ∧
      timeDaysFromCivil (p.year + 1900) p.mon p.mday ≤ 6 * 10 ^ 11 := by
  have hyear := hrange.year
  have hformula : formulaYear p = p.year + 1900 ∨ formulaYear p = p.year + 1899 := by
    unfold formulaYear
    split <;> omega
  rw [timeDaysFromCivil_eq]
  constructor <;> omega

theorem normal_inRange {t : Moment} (hyear : -1000000 ≤ t.year ∧ t.year ≤ 1000000) :
    (tmOf t).InRange := by
  have hmonth := t.month_mem
  have hday := t.day_mem
  have hlen := monthLength_le t.year t.month
  have hhour := t.hour_mem
  have hminute := t.minute_mem
  have hsecond := t.second_mem
  constructor <;> simp only [tmOf] <;> omega

theorem normal_localSeconds (t : Moment) : (tmOf t).localSeconds = t.seconds := by
  have hmonth := t.month_mem
  have hnum : (tmOf t).dayNumber = t.toDate.number := by
    simp only [Tm.dayNumber, tmOf, Date.number]
    rw [show t.year - 1900 + 1900 + (t.month - 1) / 12 = t.year by omega,
      show (t.month - 1) % 12 + 1 = t.month by omega]
  rw [Tm.localSeconds, hnum, Moment.seconds, Moment.secondOfDay]
  simp only [tmOf]
  omega

/-- Normal fields have nothing to be carried. -/
theorem normal_carried (t : Moment) : (tmOf t).Carried := by
  have hmonth := t.month_mem
  have hday := t.day_mem
  refine ⟨by simp only [tmOf]; omega, ?_⟩
  rw [eraYear_number, dayNumber_eq]
  have hin : 0 ≤ formulaMonth (tmOf t) ∧ formulaMonth (tmOf t) ≤ 11 := by
    have hsame : (tmOf t).mon = t.month - 1 := rfl
    unfold formulaMonth
    split <;> omega
  have hera : formulaYear (tmOf t) / 400 * 146097 ≤ marchStart (formulaYear (tmOf t)) := by
    unfold marchStart
    omega
  rw [show formulaMonth (tmOf t) / 12 = 0 by omega, Int.add_zero]
  simp only [tmOf] at hera ⊢
  omega

/--
Normalisation.  For all fields of type `int` and years up to a million, `mktime` returns the time
that is found by carrying whole years out of the month and adding the rest exactly if the month is
between -10 and 13 and the day is not before the era of 400 years that the month is in.  What it
stores back is always a moment of the calendar, with weekday and day of the year.  On normal fields
`mktime` and `localtime` are inverse to each other.
-/
theorem mktime_normalises_iff
    {p : Tm}
    (zone : Option Int)
    (hrange : p.InRange) :
    ((mktime zone p).1 = p.localSeconds - timeZoneSeconds zone ↔ p.Carried) ∧
    (∃ t : Moment, (mktime zone p).2 = tmOf t ∧
      t.seconds = (mktime zone p).1 + timeZoneSeconds zone) ∧
    ∀ t : Moment, -1000000 ≤ t.year ∧ t.year ≤ 1000000 →
      mktime zone (tmOf t) = (t.seconds - timeZoneSeconds zone, tmOf t) ∧
      localtime zone (t.seconds - timeZoneSeconds zone) = tmOf t := by
  have hback : ∀ q : Tm, q.InRange →
      (mktime zone q).2 = tmOf (ofSeconds ((mktime zone q).1 + timeZoneSeconds zone)) := by
    intro q hq
    have hday := timeDaysFromCivil_mem hq
    obtain ⟨hsec, hmin, hhour, -, -, -⟩ := hq
    change timeFill ((mktime zone q).1 + timeZoneSeconds zone) = _
    have hyear : -2 * 10 ^ 9 ≤ (ofSeconds ((mktime zone q).1 + timeZoneSeconds zone)).year ∧
        (ofSeconds ((mktime zone q).1 + timeZoneSeconds zone)).year ≤ 2 * 10 ^ 9 := by
      refine year_ofSeconds ?_
      simp only [mktime]
      constructor <;> omega
    exact timeFill_eq ⟨by omega, by omega⟩
  have hiff : ∀ q : Tm, q.InRange →
      ((mktime zone q).1 = q.localSeconds - timeZoneSeconds zone ↔ q.Carried) := by
    intro q hq
    rw [← timeDaysFromCivil_iff hq]
    simp only [mktime, Tm.localSeconds]
    constructor <;> intro h <;> omega
  refine ⟨hiff p hrange, ⟨_, hback p hrange, seconds_ofSeconds _⟩, fun t hyear => ?_⟩
  have hnormal := normal_inRange hyear
  have hres := (hiff _ hnormal).mpr (normal_carried t)
  have hstored := hback _ hnormal
  rw [normal_localSeconds] at hres
  rw [hres, Int.sub_add_cancel, ofSeconds_seconds] at hstored
  refine ⟨Prod.ext hres hstored, ?_⟩
  rw [← hres]
  exact hstored

/-- Noon of 14 January 2024 and half a minute, given as the 45th of the month before. -/
theorem mktime_normalises_iff_january :
    let p : Tm := ⟨30, 0, 12, 45, -1, 124, 0, 0, 0⟩
    p.InRange ∧ p.Carried ∧ (mktime (some 60) p).1 = p.localSeconds - 3600 := by
  have hrange : Tm.InRange ⟨30, 0, 12, 45, -1, 124, 0, 0, 0⟩ := by constructor <;> decide
  have hcarried : Tm.Carried ⟨30, 0, 12, 45, -1, 124, 0, 0, 0⟩ := by constructor <;> decide
  exact ⟨hrange, hcarried, (mktime_normalises_iff (some 60) hrange).1.mpr hcarried⟩

/-- Two fields that are not carried: March of the next year, and the day before 1 March 2000. -/
theorem mktime_loses_days :
    let march : Tm := ⟨0, 0, 0, 1, 14, 124, 0, 0, 0⟩
    let eve : Tm := ⟨0, 0, 0, 0, 2, 100, 0, 0, 0⟩
    (mktime none march).1 = march.localSeconds + 2 * 86400 ∧
    (mktime none eve).1 = eve.localSeconds + 2 ^ 32 * 86400 := by
  decide

end PureCOS.Libc
