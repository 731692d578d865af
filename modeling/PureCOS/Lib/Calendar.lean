import Mathlib.Tactic.IntervalCases

/-!
# The Gregorian calendar

Dates of the Gregorian calendar, continued without end to both sides, and their numbers: the days
from 1 January 1970 on.  A number is found from a date, and a date from a number, as programs do it:
years are taken to begin on 1 March, so that the day that leap years have in addition is the last
one, and are counted in eras of 400 years, which all have 146097 days.
-/

namespace PureCOS.Calendar

/-! ## Dates and their numbers -/

def Leap (y : Int) : Prop := 4 ∣ y ∧ ¬100 ∣ y ∨ 400 ∣ y

instance (y : Int) : Decidable (Leap y) := inferInstanceAs (Decidable (_ ∨ _))

/-- Days of a month, from 1 to 12. -/
def monthLength (y m : Int) : Int :=
  if m = 2 then
    if Leap y then 29 else 28
  else if m = 4 ∨ m = 6 ∨ m = 9 ∨ m = 11 then 30
  else 31

/-- Days of the first months of a year. -/
def firstMonths (y : Int) : Nat → Int
  | 0 => 0
  | n + 1 => firstMonths y n + monthLength y (n + 1)

/-- Days from 1 January of year 1 to that of year `y`. -/
def yearStart (y : Int) : Int := 365 * (y - 1) + (y - 1) / 4 - (y - 1) / 100 + (y - 1) / 400

/-- Number of the `d`th day from the start of a month on; the month need not have so many. -/
def number (y m d : Int) : Int := yearStart y + firstMonths y (m - 1).toNat + d - 1 - yearStart 1970

/-- A day of the calendar. -/
structure Date where
  year : Int
  month : Int
  day : Int
  month_mem : 1 ≤ month ∧ month ≤ 12
  day_mem : 1 ≤ day ∧ day ≤ monthLength year month

namespace Date

def number (d : Date) : Int := Calendar.number d.year d.month d.day

/-- Days of the year before this one. -/
def yearday (d : Date) : Int := firstMonths d.year (d.month - 1).toNat + d.day - 1

/-- Sunday is 0.  1 January 1970 was a Thursday. -/
def weekday (d : Date) : Int := (d.number + 4) % 7

def Before (d e : Date) : Prop :=
  d.year < e.year ∨ d.year = e.year ∧ (d.month < e.month ∨ d.month = e.month ∧ d.day < e.day)

end Date

theorem monthLength_pos (y m : Int) : 28 ≤ monthLength y m := by
  unfold monthLength
  split
  · split <;> omega
  · split <;> omega

theorem monthLength_le (y m : Int) : monthLength y m ≤ 31 := by
  unfold monthLength
  split
  · split <;> omega
  · split <;> omega

theorem firstMonths_year_le (y : Int) : firstMonths y 12 ≤ 366 := by
  simp [firstMonths, monthLength]
  split <;> omega

/-- A year is the sum of its months. -/
theorem yearStart_succ (y : Int) : yearStart (y + 1) = yearStart y + firstMonths y 12 := by
  simp [firstMonths, monthLength, yearStart]
  split
  next hleap =>
    unfold Leap at hleap
    omega
  next hleap =>
    unfold Leap at hleap
    omega

theorem firstMonths_mono (y : Int) {m n : Nat} (h : m ≤ n) : firstMonths y m ≤ firstMonths y n := by
  induction h with
  | refl => exact Int.le_refl _
  | @step n _ ih =>
    rw [firstMonths]
    have hpos := monthLength_pos y (n + 1)
    omega

theorem yearStart_mono {x y : Int} (h : x ≤ y) : yearStart x ≤ yearStart y := by
  unfold yearStart
  omega

namespace Date

variable {d e : Date}

/-- A date is in its year. -/
theorem yearday_mem (d : Date) : 0 ≤ d.yearday ∧ d.yearday < firstMonths d.year 12 := by
  obtain ⟨hm, hm'⟩ := d.month_mem
  obtain ⟨hd, hd'⟩ := d.day_mem
  have hlow := firstMonths_mono d.year (Nat.zero_le (d.month - 1).toNat)
  have hhigh := firstMonths_mono d.year (show (d.month - 1).toNat + 1 ≤ 12 by omega)
  have hmonth : (((d.month - 1).toNat : Int) + 1) = d.month := by omega
  rw [firstMonths, hmonth] at hhigh
  simp only [firstMonths] at hlow
  unfold yearday
  constructor <;> omega

theorem number_eq (d : Date) : d.number = yearStart d.year + d.yearday - yearStart 1970 := by
  unfold number Calendar.number yearday
  omega

/-- Later dates have greater numbers. -/
theorem number_lt (h : d.Before e) : d.number < e.number := by
  have hd := d.yearday_mem
  have he := e.yearday_mem
  rcases h with hyear | ⟨hyear, h⟩
  · have hnext := yearStart_mono (show d.year + 1 ≤ e.year by omega)
    rw [yearStart_succ] at hnext
    rw [number_eq, number_eq]
    omega
  rw [number_eq, number_eq, ← hyear]
  have hlt : d.yearday < e.yearday := by
    unfold yearday
    rw [← hyear]
    have hday := d.day_mem
    have hday' := e.day_mem
    rcases h with hmonth | ⟨hmonth, hlt⟩
    · have hlow := d.month_mem
      have hnext :=
        firstMonths_mono d.year (show (d.month - 1).toNat + 1 ≤ (e.month - 1).toNat by omega)
      have hsame : (((d.month - 1).toNat : Int) + 1) = d.month := by omega
      rw [firstMonths, hsame] at hnext
      omega
    · rw [hmonth]
      omega
  omega

theorem ext_fields (hyear : d.year = e.year) (hmonth : d.month = e.month) (hday : d.day = e.day) :
    d = e := by
  cases d
  cases e
  cases hyear
  cases hmonth
  cases hday
  rfl

/-- A number belongs to one date. -/
theorem number_injective (h : d.number = e.number) : d = e := by
  by_contra hne
  have horder : d.Before e ∨ e.Before d := by
    unfold Before
    by_contra hnot
    exact hne (ext_fields (by omega) (by omega) (by omega))
  rcases horder with hlt | hlt
  · have := number_lt hlt
    omega
  · have := number_lt hlt
    omega

end Date

/-! ## Years from March on -/

/-- Days from 1 March of year 0 to that of year `y`. -/
def marchStart (y : Int) : Int := 365 * y + y / 4 - y / 100 + y / 400

/-- The year from March on that a month belongs to. -/
def marchYear (y m : Int) : Int := if m ≤ 2 then y - 1 else y

/-- The months from March on, from 0 to 11. -/
def marchMonth (m : Int) : Int := if m > 2 then m - 3 else m + 9

/-- Lengths of the months from March on repeat every five months. -/
theorem firstMonths_march {m : Int} (hm : 3 ≤ m ∧ m ≤ 12) (y : Int) :
    firstMonths y (m - 1).toNat = (153 * (m - 3) + 2) / 5 + 59 + if Leap y then 1 else 0 := by
  obtain ⟨hlow, hhigh⟩ := hm
  by_cases hleap : Leap y
  · interval_cases m <;> simp [firstMonths, monthLength, hleap]
  · interval_cases m <;> simp [firstMonths, monthLength, hleap]

theorem number_march {m : Int} (hm : 1 ≤ m ∧ m ≤ 12) (y d : Int) :
    number y m d = marchStart (marchYear y m) + (153 * marchMonth m + 2) / 5 + d - 1 - 719468 := by
  unfold number marchStart marchYear marchMonth
  by_cases hmarch : m ≤ 2
  · rw [if_pos hmarch, if_neg (show ¬m > 2 by omega)]
    have hfirst : firstMonths y (m - 1).toNat = 31 * (m - 1) := by
      obtain rfl | rfl : m = 1 ∨ m = 2 := by omega
      · rfl
      · rfl
    simp only [hfirst, yearStart]
    omega
  rw [if_neg hmarch, if_pos (show m > 2 by omega), firstMonths_march ⟨by omega, hm.2⟩]
  simp only [yearStart]
  split
  next hleap =>
    unfold Leap at hleap
    omega
  next hleap =>
    unfold Leap at hleap
    omega

/-- Years of an era. -/
theorem marchStart_era {yoe : Int} (hyoe : 0 ≤ yoe ∧ yoe ≤ 399) (era : Int) :
    marchStart (yoe + era * 400) = era * 146097 + (yoe * 365 + yoe / 4 - yoe / 100) := by
  unfold marchStart
  omega

/-- Year of the era that has this day of the era. -/
def yearOfEra (doe : Int) : Int := (doe - doe / 1460 + doe / 36524 - doe / 146096) / 365

/-- A day in the years of its era: `c` centuries, `q` times four years, `j` years and `doy` days. -/
structure Placed (doe c q j doy : Int) : Prop where
  century : 0 ≤ c ∧ c ≤ 3
  four : 0 ≤ q ∧ q ≤ 24
  year : 0 ≤ j ∧ j ≤ 3
  day : 0 ≤ doy
  last : doy ≤ 364 ∨ doy = 365 ∧ j = 3 ∧ (q < 24 ∨ c = 3)
  sum : doe = 36524 * c + 1461 * q + 365 * j + doy

theorem exists_placed {doe : Int} (h : 0 ≤ doe ∧ doe < 146097) :
    ∃ c q j doy, Placed doe c q j doy := by
  obtain ⟨c, r, hc, hr, hdoe⟩ : ∃ c r : Int, (0 ≤ c ∧ c ≤ 3) ∧
    (0 ≤ r ∧ (r < 36524 ∨ r = 36524 ∧ c = 3)) ∧ doe = 36524 * c + r :=
    ⟨min (doe / 36524) 3, doe - 36524 * min (doe / 36524) 3, by omega⟩
  obtain ⟨j, s, hj, hs, hrest⟩ : ∃ j s : Int, (0 ≤ j ∧ j ≤ 3) ∧
    (0 ≤ s ∧ (s ≤ 364 ∨ s = 365 ∧ j = 3)) ∧ r % 1461 = 365 * j + s :=
    ⟨min (r % 1461 / 365) 3, r % 1461 - 365 * min (r % 1461 / 365) 3, by omega⟩
  exact ⟨c, r / 1461, j, s, hc, by omega, hj, hs.1, by omega, by omega⟩

theorem Placed.yearOfEra {doe c q j doy : Int} (h : Placed doe c q j doy) :
    yearOfEra doe = 100 * c + 4 * q + j := by
  obtain ⟨hc, hq, hj, hday, hlast, hsum⟩ := h
  unfold Calendar.yearOfEra
  by_cases hend : doe = 146096
  · omega
  -- the two corrections for centuries are right on all days but the last
  have hera : doe / 146096 = 0 := by omega
  have hcentury : doe / 36524 = c := by omega
  obtain ⟨e, he⟩ : ∃ e, e = doe / 1460 - 25 * c - q := ⟨_, rfl⟩
  have hcases : e = 0 ∨ e = 1 := by omega
  rw [hera, hcentury]
  rcases hcases with hzero | hone
  · omega
  · omega

/-- Day of the year, from March on, of a day of the era. -/
def dayOfYear (doe : Int) : Int :=
  doe - (365 * yearOfEra doe + yearOfEra doe / 4 - yearOfEra doe / 100)

theorem yearOfEra_mem {doe : Int} (h : 0 ≤ doe ∧ doe < 146097) :
    0 ≤ yearOfEra doe ∧ yearOfEra doe ≤ 399 := by
  obtain ⟨c, q, j, doy, hplaced⟩ := exists_placed h
  rw [hplaced.yearOfEra]
  obtain ⟨hc, hq, hj, -, -, -⟩ := hplaced
  omega

/-- Only years before a leap day have 366 days. -/
theorem dayOfYear_mem {doe : Int} (h : 0 ≤ doe ∧ doe < 146097) (era : Int) : 0 ≤ dayOfYear doe ∧
    (dayOfYear doe ≤ 364 ∨ dayOfYear doe = 365 ∧ Leap (yearOfEra doe + era * 400 + 1)) := by
  obtain ⟨c, q, j, doy, hplaced⟩ := exists_placed h
  unfold dayOfYear Leap
  rw [hplaced.yearOfEra]
  obtain ⟨hc, hq, hj, hday, hlast, hsum⟩ := hplaced
  have hcentury : (100 * c + 4 * q + j) / 100 = c := by omega
  have hfour : (100 * c + 4 * q + j) / 4 = 25 * c + q := by omega
  rw [hcentury, hfour]
  refine ⟨by omega, ?_⟩
  rcases hlast with hlast | ⟨hlast, rfl, hq'⟩
  · left
    omega
  · right
    omega

/-- Month from March on of a day of the year. -/
def monthOfDay (doy : Int) : Int := (5 * doy + 2) / 153

/-- The month of a month from March on. -/
def monthOfMarch (mp : Int) : Int := if mp < 10 then mp + 3 else mp - 9

section March

variable {y doy : Int}

theorem monthOfDay_mem (hlow : 0 ≤ doy) (hhigh : doy ≤ 365) :
    0 ≤ monthOfDay doy ∧ monthOfDay doy ≤ 11 := by
  unfold monthOfDay
  omega

theorem marchMonth_monthOfMarch {mp : Int} (hmp : 0 ≤ mp ∧ mp ≤ 11) :
    marchMonth (monthOfMarch mp) = mp := by
  unfold marchMonth monthOfMarch
  split <;> split <;> omega

theorem marchYear_add (y m : Int) : marchYear (y + if m ≤ 2 then 1 else 0) m = y := by
  unfold marchYear
  split <;> omega

/-- The date of a day of a year from March on. -/
def ofMarch
    (y doy : Int)
    (hlow : 0 ≤ doy)
    (hhigh : doy ≤ 364 ∨ doy = 365 ∧ Leap (y + 1)) : Date where
  year := y + if monthOfMarch (monthOfDay doy) ≤ 2 then 1 else 0
  month := monthOfMarch (monthOfDay doy)
  day := doy - (153 * monthOfDay doy + 2) / 5 + 1
  month_mem := by
    obtain ⟨hmlow, hmhigh⟩ := monthOfDay_mem hlow (by omega)
    unfold monthOfMarch
    split <;> omega
  day_mem := by
    obtain ⟨hmlow, hmhigh⟩ := monthOfDay_mem hlow (by omega)
    have hmonth : monthOfDay doy = (5 * doy + 2) / 153 := rfl
    generalize monthOfDay doy = mp at *
    by_cases hleap : Leap (y + 1)
    · interval_cases mp <;> simp [monthOfMarch, monthLength, hleap] <;> omega
    · have hhigh : doy ≤ 364 := hhigh.resolve_right fun h => hleap h.2
      interval_cases mp <;> simp [monthOfMarch, monthLength, hleap] <;> omega

theorem number_ofMarch (hlow : 0 ≤ doy) (hhigh : doy ≤ 364 ∨ doy = 365 ∧ Leap (y + 1)) :
    (ofMarch y doy hlow hhigh).number = marchStart y + doy - 719468 := by
  have hmp := monthOfDay_mem hlow (hhigh.elim (by omega) fun h => by omega)
  have hmonth : (ofMarch y doy hlow hhigh).month = monthOfMarch (monthOfDay doy) := rfl
  have hyear : marchYear (ofMarch y doy hlow hhigh).year (ofMarch y doy hlow hhigh).month = y :=
    marchYear_add y _
  have hday : (ofMarch y doy hlow hhigh).day = doy - (153 * monthOfDay doy + 2) / 5 + 1 := rfl
  rw [Date.number, number_march (ofMarch y doy hlow hhigh).month_mem, hyear, hmonth, hday,
    marchMonth_monthOfMarch hmp]
  omega

end March

/-! ## The date of a number -/

theorem dayOfEra_mem (n : Int) : 0 ≤ (n + 719468) % 146097 ∧ (n + 719468) % 146097 < 146097 := by
  omega

/-- The date with this number. -/
def ofNumber (n : Int) : Date :=
  ofMarch (yearOfEra ((n + 719468) % 146097) + (n + 719468) / 146097 * 400)
    (dayOfYear ((n + 719468) % 146097)) (dayOfYear_mem (dayOfEra_mem n) 0).1
    (dayOfYear_mem (dayOfEra_mem n) _).2

theorem number_ofNumber (n : Int) : (ofNumber n).number = n := by
  rw [ofNumber, number_ofMarch, marchStart_era (yearOfEra_mem (dayOfEra_mem n)), dayOfYear]
  omega

theorem ofNumber_number (d : Date) : ofNumber d.number = d :=
  Date.number_injective (number_ofNumber d.number)

/-! ## Moments -/

/-- A second of the calendar. -/
structure Moment extends Date where
  hour : Int
  minute : Int
  second : Int
  hour_mem : 0 ≤ hour ∧ hour < 24
  minute_mem : 0 ≤ minute ∧ minute < 60
  second_mem : 0 ≤ second ∧ second < 60

namespace Moment

/-- Second of its day. -/
def secondOfDay (t : Moment) : Int := t.hour * 3600 + t.minute * 60 + t.second

/-- Seconds from the start of 1970 on. -/
def seconds (t : Moment) : Int := t.toDate.number * 86400 + t.secondOfDay

def Before (t u : Moment) : Prop :=
  t.toDate.Before u.toDate ∨ t.toDate = u.toDate ∧ (t.hour < u.hour ∨ t.hour = u.hour ∧
    (t.minute < u.minute ∨ t.minute = u.minute ∧ t.second < u.second))

theorem secondOfDay_mem (t : Moment) : 0 ≤ t.secondOfDay ∧ t.secondOfDay < 86400 := by
  have hhour := t.hour_mem
  have hminute := t.minute_mem
  have hsecond := t.second_mem
  unfold secondOfDay
  constructor <;> omega

theorem ext_fields {t u : Moment} (hdate : t.toDate = u.toDate) (hhour : t.hour = u.hour)
    (hminute : t.minute = u.minute) (hsecond : t.second = u.second) :
    t = u := by
  cases t
  cases u
  cases hdate
  cases hhour
  cases hminute
  cases hsecond
  rfl

theorem seconds_lt {t u : Moment} (h : t.Before u) : t.seconds < u.seconds := by
  have ht := t.secondOfDay_mem
  have hu := u.secondOfDay_mem
  unfold seconds
  rcases h with hdate | ⟨hdate, h⟩
  · have hlt := Date.number_lt hdate
    omega
  have hminute := t.minute_mem
  have hsecond := t.second_mem
  have hminute' := u.minute_mem
  have hsecond' := u.second_mem
  rw [hdate]
  unfold secondOfDay
  omega

end Moment

/-- The moment that many seconds after the start of 1970. -/
def ofSeconds (s : Int) : Moment where
  toDate := ofNumber (s / 86400)
  hour := s % 86400 / 3600
  minute := s % 86400 % 3600 / 60
  second := s % 86400 % 60
  hour_mem := by omega
  minute_mem := by omega
  second_mem := by omega

theorem number_ofSeconds (s : Int) : (ofSeconds s).toDate.number = s / 86400 := number_ofNumber _

theorem ofSeconds_seconds (t : Moment) : ofSeconds t.seconds = t := by
  have hhour := t.hour_mem
  have hminute := t.minute_mem
  have hsecond := t.second_mem
  have hrest := t.secondOfDay_mem
  have hdiv : (t.toDate.number * 86400 + t.secondOfDay) / 86400 = t.toDate.number := by omega
  refine Moment.ext_fields ?_ ?_ ?_ ?_
  · simp only [ofSeconds, Moment.seconds, hdiv]
    exact ofNumber_number _
  · simp only [ofSeconds, Moment.seconds, Moment.secondOfDay]
    omega
  · simp only [ofSeconds, Moment.seconds, Moment.secondOfDay]
    omega
  · simp only [ofSeconds, Moment.seconds, Moment.secondOfDay]
    omega

theorem seconds_ofSeconds (s : Int) : (ofSeconds s).seconds = s := by
  rw [Moment.seconds, number_ofSeconds]
  simp only [Moment.secondOfDay, ofSeconds]
  omega

/-- Years of the seconds up to 6·10¹⁶. -/
theorem year_ofSeconds {s : Int} (h : -6 * 10 ^ 16 ≤ s ∧ s ≤ 6 * 10 ^ 16) :
    -2 * 10 ^ 9 ≤ (ofSeconds s).year ∧ (ofSeconds s).year ≤ 2 * 10 ^ 9 := by
  have hnum := number_ofSeconds s
  have hyearday := (ofSeconds s).toDate.yearday_mem
  have hwhole := firstMonths_year_le (ofSeconds s).year
  rw [Date.number_eq] at hnum
  unfold yearStart at hnum
  constructor <;> omega

/-! ## Division that rounds towards zero

Programs have to round down by hand.
-/

section Rounding

variable {n : Int}

theorem tdiv_shifted (hn : 0 < n) (x : Int) :
    (if 0 ≤ x then x else x - (n - 1)).tdiv n = x / n := by
  split
  next h => exact Int.tdiv_eq_ediv_of_nonneg h
  next h =>
  rw [show x - (n - 1) = -(n - 1 - x) by omega, Int.neg_tdiv, Int.tdiv_eq_ediv_of_nonneg (by omega),
    eq_comm, Int.ediv_eq_iff_of_pos hn, Int.neg_mul]
  have hlow := Int.ediv_mul_le (n - 1 - x) (show n ≠ 0 by omega)
  have hhigh := Int.lt_ediv_add_one_mul_self (n - 1 - x) hn
  rw [Int.add_mul, Int.one_mul] at hhigh
  omega

theorem neg_tdiv_shifted (hn : 0 < n) (x : Int) :
    (if 0 ≤ x then x.tdiv n else -((-x + (n - 1)).tdiv n)) = x / n := by
  rw [← tdiv_shifted hn]
  split
  next h => rfl
  next h => rw [← Int.neg_tdiv, show -(-x + (n - 1)) = x - (n - 1) by omega]

/-- The weekday of a number, Thursday being 4. -/
theorem tmod_seven (x : Int) : (x.tmod 7 + 7 + 4).tmod 7 = (x + 4) % 7 := by
  have hlow := Int.lt_tmod_of_pos x (show 0 < 7 by decide)
  rw [Int.tmod_eq_emod_of_nonneg (by omega), Int.add_assoc, Int.add_emod, Int.tmod_eq_emod]
  split
  · omega
  · simp only [Int.natAbs]
    omega

end Rounding

end PureCOS.Calendar
