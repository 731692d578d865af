import PureCOS.Lib.Calendar

/-!
# Civil time of the kernel

`src/kernel/time/civil.c`.  The machine integers of the source are integers here, reduced where a
conversion or a sum could leave the type.  Seconds are of type `int64_t`, and stay far inside it for
all years of type `int32_t`.
-/

namespace PureCOS.Civil

open Calendar

/-! ## The code -/

structure CivilTime where
  year : Int
  month : Int
  day : Int
  hour : Int
  minute : Int
  second : Int
  weekday : Int
  yearday : Int
deriving DecidableEq

/-- Conversion to `int32_t` -/
def int32 (x : Int) : Int := (x + 2 ^ 31) % 2 ^ 32 - 2 ^ 31

variable (t : Moment) (year month day : Int)

def leapYear : Bool :=
  (year.tmod 4 == 0 && year.tmod 100 != 0) || year.tmod 400 == 0

def days : List Int := [31, 28, 31, 30, 31, 30, 31, 31, 30, 31, 30, 31]

/-- `month_length` -/
def monthDays : Int :=
  if month == 2 && leapYear year then 29 else days.getD (month - 1).toNat 0

def civilValid (hour minute second : Int) : Bool :=
  if year < 1970 ∨ 2105 < year ∨ month < 1 ∨ 12 < month ∨ day < 1 then false
  else if monthDays year month < day then false
  else decide (hour < 24) && decide (minute < 60) && decide (second < 60)

def daysFromCivil : Int :=
  let y := year - if month ≤ 2 then 1 else 0
  let era := (if 0 ≤ y then y else y - (400 - 1)).tdiv 400
  let yoe := (y - era * 400) % 2 ^ 32
  let mp := if month > 2 then month - 3 else month + 9
  let doy := ((153 * mp + 2) % 2 ^ 32 / 5 + day - 1) % 2 ^ 32
  let doe := (yoe * 365 + yoe / 4 - yoe / 100 + doy) % 2 ^ 32
  era * 146097 + doe - 719468

def civilToUnix (hour minute second : Int) : Int :=
  daysFromCivil year month day * 86400 + hour * 3600 + minute * 60 + second

/-- The loop of `unix_to_civil` that adds the first months -/
def addMonths (year : Int) : Nat → Int → Int
  | 0, yday => yday
  | n + 1, yday => (addMonths year n yday + monthDays year (n + 1)) % 2 ^ 16

def unixToCivil (seconds : Int) : CivilTime :=
  let days := if 0 ≤ seconds then seconds.tdiv 86400 else -((-seconds + (86400 - 1)).tdiv 86400)
  let rest := seconds - days * 86400
  let z := days + 719468
  let era := (if 0 ≤ z then z else z - (146097 - 1)).tdiv 146097
  let doe := (z - era * 146097) % 2 ^ 32
  let yoe := (doe - doe / 1460 + doe / 36524 - doe / 146096) / 365
  let y := yoe + era * 400
  let doy := doe - (365 * yoe + yoe / 4 - yoe / 100)
  let mp := (5 * doy + 2) / 153
  let d := doy - (153 * mp + 2) / 5 + 1
  let m := if mp < 10 then mp + 3 else mp - 9
  let year := int32 (y + if m ≤ 2 then 1 else 0)
  { year := year
    month := m % 2 ^ 8
    day := d % 2 ^ 8
    hour := rest.tdiv 3600 % 2 ^ 8
    minute := (rest.tmod 3600).tdiv 60 % 2 ^ 8
    second := rest.tmod 60 % 2 ^ 8
    weekday := (days.tmod 7 + 7 + 4).tmod 7 % 2 ^ 8
    yearday := addMonths year (m - 1).toNat ((d - 1) % 2 ^ 16) }

/-- A moment as a `struct civil_time`. -/
def civilTime : CivilTime where
  year := t.year
  month := t.month
  day := t.day
  hour := t.hour
  minute := t.minute
  second := t.second
  weekday := t.toDate.weekday
  yearday := t.toDate.yearday

def unix : Int := civilToUnix t.year t.month t.day t.hour t.minute t.second

/-! ## Numbers of days -/

theorem leapYear_eq : leapYear year = decide (Leap year) := by
  rw [Bool.eq_iff_iff, decide_eq_true_iff]
  simp [leapYear, Leap, Int.dvd_iff_tmod_eq_zero]

theorem monthDays_eq {month : Int} (hm : 1 ≤ month ∧ month ≤ 12) (year : Int) :
    monthDays year month = monthLength year month := by
  obtain ⟨hlow, hhigh⟩ := hm
  unfold monthDays monthLength
  rw [leapYear_eq]
  by_cases hleap : Leap year
  · interval_cases month <;> simp [days, hleap]
  · interval_cases month <;> simp [days, hleap]

theorem daysFromCivil_eq {month day : Int} (hm : 1 ≤ month ∧ month ≤ 12) (hd : 1 ≤ day ∧ day ≤ 31)
    (year : Int) : daysFromCivil year month day = number year month day := by
  have hyear : (year - if month ≤ 2 then 1 else 0) = marchYear year month := by
    unfold marchYear
    split <;> omega
  have hmonth : 0 ≤ marchMonth month ∧ marchMonth month ≤ 11 := by
    unfold marchMonth
    split <;> omega
  have hera :=
    marchStart_era (show 0 ≤ marchYear year month % 400 ∧ marchYear year month % 400 ≤ 399 by omega)
      (marchYear year month / 400)
  rw [show marchYear year month % 400 + marchYear year month / 400 * 400 =
    marchYear year month by omega] at hera
  rw [number_march hm, hera, daysFromCivil]
  simp only [hyear, tdiv_shifted (show (0 : Int) < 400 by decide)]
  change _ + (_ + ((153 * marchMonth month + 2) % 2 ^ 32 / 5 + day - 1) % 2 ^ 32) %
    2 ^ 32 - 719468 = _
  have hyoe : (marchYear year month - marchYear year month / 400 * 400) % 2 ^ 32 =
      marchYear year month % 400 := by
    omega
  have hfirst : (153 * marchMonth month + 2) % 2 ^ 32 = 153 * marchMonth month + 2 :=
    Int.emod_eq_of_lt (by omega) (by omega)
  have hdoy : ((153 * marchMonth month + 2) / 5 + day - 1) % 2 ^ 32 =
      (153 * marchMonth month + 2) / 5 + day - 1 :=
    Int.emod_eq_of_lt (by omega) (by omega)
  rw [hyoe, hfirst, hdoy, Int.emod_eq_of_lt (by omega) (by omega)]
  omega

/-! ## There and back -/

theorem addMonths_eq {n : Nat} (hn : n ≤ 12) (yday : Int) :
    addMonths year n (yday % 2 ^ 16) = (firstMonths year n + yday) % 2 ^ 16 := by
  induction n with
  | zero => simp [addMonths, firstMonths]
  | succ n ih =>
    rw [addMonths, ih (by omega), monthDays_eq ⟨by omega, by omega⟩, firstMonths]
    omega

/-- If the year is an `int32_t`, the code finds the moment. -/
theorem unixToCivil_eq {s : Int}
    (hyear : -2 ^ 31 ≤ (ofSeconds s).year ∧ (ofSeconds s).year < 2 ^ 31) :
    unixToCivil s = civilTime (ofSeconds s) := by
  have hdoe := dayOfEra_mem (s / 86400)
  have hmonth := (ofSeconds s).month_mem
  have hday := (ofSeconds s).day_mem
  have hlen := monthLength_le (ofSeconds s).year (ofSeconds s).month
  have hyearday := (ofSeconds s).toDate.yearday_mem
  have hwhole := firstMonths_year_le (ofSeconds s).year
  have hsecond : s - s / 86400 * 86400 = s % 86400 := by omega
  have hera : (s / 86400 + 719468 - (s / 86400 + 719468) / 146097 * 146097) % 2 ^ 32 =
      (s / 86400 + 719468) % 146097 := by omega
  rw [unixToCivil]
  simp only [neg_tdiv_shifted (show (0 : Int) < 86400 by decide),
    tdiv_shifted (show (0 : Int) < 146097 by decide), hera, hsecond, tmod_seven]
  change CivilTime.mk (int32 (ofSeconds s).year) ((ofSeconds s).month % 2 ^ 8)
    ((ofSeconds s).day % 2 ^ 8) ((s % 86400).tdiv 3600 % 2 ^ 8)
    (((s % 86400).tmod 3600).tdiv 60 % 2 ^ 8) ((s % 86400).tmod 60 % 2 ^ 8)
    ((s / 86400 + 4) % 7 % 2 ^ 8) (addMonths (int32 (ofSeconds s).year)
      ((ofSeconds s).month - 1).toNat (((ofSeconds s).day - 1) % 2 ^ 16)) = _
  have hsame : int32 (ofSeconds s).year = (ofSeconds s).year := by
    unfold int32
    omega
  have hweekday : (ofSeconds s).toDate.weekday = (s / 86400 + 4) % 7 := by
    rw [Date.weekday, number_ofSeconds]
  rw [hsame, addMonths_eq _ (by omega), Int.tmod_eq_emod_of_nonneg (by omega),
    Int.tdiv_eq_ediv_of_nonneg (by omega), Int.tdiv_eq_ediv_of_nonneg (by omega),
    Int.tmod_eq_emod_of_nonneg (by omega), civilTime, hweekday, CivilTime.mk.injEq]
  refine ⟨rfl, by omega, by omega, ?_, ?_, ?_, by omega, ?_⟩
  · change _ = s % 86400 / 3600
    omega
  · change _ = s % 86400 % 3600 / 60
    omega
  · change _ = s % 86400 % 60
    omega
  · unfold Date.yearday at hyearday ⊢
    omega

/-- `civil_to_unix` counts days and seconds. -/
theorem unix_eq : unix t = t.seconds := by
  have hday := t.day_mem
  have hlen := monthLength_le t.year t.month
  rw [unix, civilToUnix, daysFromCivil_eq t.month_mem ⟨hday.1, by omega⟩, Moment.seconds,
    Moment.secondOfDay]
  change t.toDate.number * 86400 + _ + _ + _ = _
  omega

/--
Calendar conversion.  From every moment with a year between -2·10⁹ and 2·10⁹ the code goes to
seconds and back, with the right weekday and day of the year; from every number of seconds up to
6·10¹⁶ it goes to a moment of the calendar and back; and later moments have more seconds.
-/
theorem civil_conversion_bijective :
    (∀ t : Moment, -2 * 10 ^ 9 ≤ t.year ∧ t.year ≤ 2 * 10 ^ 9 →
      unixToCivil (unix t) = civilTime t) ∧
    (∀ s : Int, -6 * 10 ^ 16 ≤ s ∧ s ≤ 6 * 10 ^ 16 →
      ∃ t : Moment, unixToCivil s = civilTime t ∧ unix t = s) ∧
    ∀ t u : Moment, t.Before u → unix t < unix u := by
  refine ⟨fun t hyear => ?_, fun s hs => ⟨ofSeconds s, ?_, ?_⟩, fun t u hbefore => ?_⟩
  · have h := unixToCivil_eq (s := t.seconds)
    rw [ofSeconds_seconds] at h
    rw [unix_eq]
    exact h ⟨by omega, by omega⟩
  · have hyear := year_ofSeconds hs
    exact unixToCivil_eq ⟨by omega, by omega⟩
  · rw [unix_eq, seconds_ofSeconds]
  · rw [unix_eq, unix_eq]
    exact Moment.seconds_lt hbefore

/-- The last second before 1 March 2024. -/
example : unixToCivil 1709251199 = ⟨2024, 2, 29, 23, 59, 59, 4, 59⟩ := by decide

/-! ## Accepted times -/

/-- The call of `civil_valid` in `wallclock_set` -/
def CivilTime.valid (t : CivilTime) : Bool :=
  civilValid t.year t.month t.day t.hour t.minute t.second

theorem valid_civilTime : (civilTime t).valid = true ↔ 1970 ≤ t.year ∧ t.year ≤ 2105 := by
  have hmonth := t.month_mem
  have hday := t.day_mem
  simp only [CivilTime.valid, civilTime, civilValid, monthDays_eq t.month_mem, t.hour_mem.2,
    t.minute_mem.2, t.second_mem.2]
  grind

/-- The seconds of the years from 1970 to 2105. -/
theorem seconds_mem_iff :
    (0 ≤ t.seconds ∧ t.seconds < 4291747200) ↔ 1970 ≤ t.year ∧ t.year ≤ 2105 := by
  have hday := t.toDate.yearday_mem
  have hsecond := t.secondOfDay_mem
  have hnext := yearStart_succ t.year
  have hend : yearStart 2106 = yearStart 1970 + 49673 := rfl
  rw [Moment.seconds, Date.number_eq]
  rcases lt_or_ge t.year 1970 with hyear | hyear
  · have hmono := yearStart_mono (show t.year + 1 ≤ 1970 from hyear)
    omega
  have hfirst := yearStart_mono hyear
  rcases lt_or_ge t.year 2106 with hlast | hlast
  · have hmono := yearStart_mono (show t.year + 1 ≤ 2106 from hlast)
    omega
  · have hmono := yearStart_mono hlast
    omega

/--
`wallclock_set` accepts the seconds of the years from 1970 to 2105 and, up to 6·10¹⁶, no others.
Fields that `rtc_decode` accepts have such seconds, and come back from them.
-/
theorem accepted_seconds :
    (∀ s : Int, -6 * 10 ^ 16 ≤ s ∧ s ≤ 6 * 10 ^ 16 →
      ((unixToCivil s).valid = true ↔ 0 ≤ s ∧ s < 4291747200)) ∧
    ∀ year month day hour minute second : Int, 0 ≤ hour → 0 ≤ minute → 0 ≤ second →
      civilValid year month day hour minute second = true →
      ∃ s, civilToUnix year month day hour minute second = s ∧ (0 ≤ s ∧ s < 4291747200) ∧
        ∃ weekday yearday,
          unixToCivil s = ⟨year, month, day, hour, minute, second, weekday, yearday⟩ := by
  refine ⟨fun s hs => ?_, fun year month day hour minute second hhour hminute hsecond h => ?_⟩
  · have hyear := year_ofSeconds hs
    rw [unixToCivil_eq ⟨by omega, by omega⟩, valid_civilTime, ← seconds_mem_iff, seconds_ofSeconds]
  have hfields := h
  unfold civilValid at hfields
  split at hfields
  · cases hfields
  next hrange =>
  rw [monthDays_eq ⟨by omega, by omega⟩] at hfields
  split at hfields
  · cases hfields
  simp only [Bool.and_eq_true, decide_eq_true_eq] at hfields
  let t : Moment :=
    ⟨⟨year, month, day, ⟨by omega, by omega⟩, ⟨by omega, by omega⟩⟩, hour, minute, second,
      ⟨hhour, hfields.1.1⟩, ⟨hminute, hfields.1.2⟩, ⟨hsecond, hfields.2⟩⟩
  have hyear := (valid_civilTime t).mp h
  have hback := unixToCivil_eq (s := t.seconds)
  rw [ofSeconds_seconds] at hback
  exact ⟨t.seconds, unix_eq t, (seconds_mem_iff t).mpr hyear, _, _, hback ⟨by omega, by omega⟩⟩

end PureCOS.Civil
