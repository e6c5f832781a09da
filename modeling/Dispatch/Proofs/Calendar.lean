import Dispatch.Proofs.Gregorian
import Mathlib.Tactic.IntervalCases

/-!
# Dates of instants

The date of a day is found by division, in a calendar whose years begin in March.
`DateTime.dayNumber_ofDay` says that this is the date which the Gregorian calendar counts for
the day, and `DateTime.isValid_ofDay` that its fields are in their ranges.
-/

namespace Dispatch

namespace DateTime

/-! ## Years of a cycle -/

/--
A day of a cycle by its century, its group of four years, its year and its place there.  Only
the last year of a group has a day more, and the last group of a century only in the last
century.
-/
structure CycleDay where
  century : Nat
  quad : Nat
  year : Nat
  rest : Nat
  century_le : century ≤ 3
  quad_le : quad ≤ 24
  year_le : year ≤ 3
  rest_le : rest ≤ 364 ∨ rest = 365 ∧ year = 3 ∧ (quad < 24 ∨ century = 3)

namespace CycleDay

/-- The days of the cycle before a day. -/
def number (d : CycleDay) : Nat :=
  36524 * d.century + 1461 * d.quad + 365 * d.year + d.rest

/-- The years of the cycle before that of a day. -/
def yearNumber (d : CycleDay) : Nat :=
  100 * d.century + 4 * d.quad + d.year

theorem exists_number_eq {day : Nat} (h : day < 146097) : ∃ d : CycleDay, d.number = day := by
  let century := min (day / 36524) 3
  let quad := (day - 36524 * century) / 1461
  let year := min ((day - 36524 * century - 1461 * quad) / 365) 3
  let rest := day - 36524 * century - 1461 * quad - 365 * year
  have hcentury : century ≤ 3 := by omega
  have hquad : quad ≤ 24 := by omega
  have hyear : year ≤ 3 := by omega
  have hrest : rest ≤ 364 ∨ rest = 365 ∧ year = 3 ∧ (quad < 24 ∨ century = 3) := by omega
  refine ⟨⟨century, quad, year, rest, hcentury, hquad, hyear, hrest⟩, ?_⟩
  change 36524 * century + 1461 * quad + 365 * year + rest = day
  omega

variable (d : CycleDay)

theorem daysBeforeYear_yearNumber : daysBeforeYear d.yearNumber + d.rest = d.number := by
  have hcentury := d.century_le
  have hquad := d.quad_le
  have hyear := d.year_le
  rw [daysBeforeYear, yearNumber, number]
  omega

/-- Without the leap days before it, a day is found in years of 365 days. -/
theorem yearOfCycle_number : yearOfCycle d.number = d.yearNumber := by
  have hcentury := d.century_le
  have hquad := d.quad_le
  have hyear := d.year_le
  have hrest := d.rest_le
  have hday : d.number = 36524 * d.century + 1461 * d.quad + 365 * d.year + d.rest := rfl
  -- Only the last day of a cycle lies behind four centuries of 36524 days.
  have hlast : 1461 * d.quad + 365 * d.year + d.rest < 36524 ∨ d.number = 146096 := by omega
  have hcenturies : d.number / 36524 = d.century + d.number / 146096 := by omega
  -- A group has one day more than 1460, so its last days may count as one group more.
  have hquads : d.number / 1460 = 25 * d.century + d.quad ∨
      d.number / 1460 = 25 * d.century + d.quad + 1 := by omega
  rw [yearOfCycle, yearNumber]
  rcases hquads with hquads | hquads
  · omega
  · omega

theorem yearNumber_lt : d.yearNumber < 400 := by
  have hcentury := d.century_le
  have hquad := d.quad_le
  have hyear := d.year_le
  rw [yearNumber]
  omega

/-- The place of a day in its year fits, with the leap day as the last one. -/
theorem rest_le_of_isLeap (cycle : Int) :
    (d.rest : Int) ≤ 364 + (Gregorian.isLeap (d.yearNumber + cycle * 400 + 1)).toNat := by
  rcases d.rest_le with h | ⟨hrest, hyear, hgroup⟩
  · omega
  · have hquad := d.quad_le
    have hnumber : d.yearNumber = 100 * d.century + 4 * d.quad + d.year := rfl
    have hleap : Gregorian.isLeap (d.yearNumber + cycle * 400 + 1) = true :=
      decide_eq_true (by omega)
    rw [hleap, hrest]
    decide

end CycleDay

/-! ## Months of a year -/

theorem monthOfYear_le {day : Nat} (h : day ≤ 365) : monthOfYear day ≤ 11 := by
  rw [monthOfYear]
  omega

theorem daysBeforeMonth_monthOfYear (day : Nat) :
    daysBeforeMonth (monthOfYear day) ≤ day ∧ day < daysBeforeMonth (monthOfYear day + 1) := by
  rw [daysBeforeMonth, daysBeforeMonth, monthOfYear]
  omega

section

variable (year : Int) {month : Nat}

/-- March to December come after the leap day of their year. -/
theorem daysBeforeMonth_of_lt_ten (h : month < 10) :
    Gregorian.daysBeforeMonth year (month + 3) =
      59 + (Gregorian.isLeap year).toNat + daysBeforeMonth month := by
  interval_cases month <;>
    simp [Gregorian.daysBeforeMonth, List.range', Gregorian.monthDays, daysBeforeMonth] <;> omega

theorem daysBeforeMonth_succ_of_lt_ten (h : month < 10) :
    daysBeforeMonth (month + 1) =
      daysBeforeMonth month + Gregorian.monthDays year (month + 3) := by
  interval_cases month <;> simp [Gregorian.monthDays, daysBeforeMonth]

/-- January and February end the year that began in March. -/
theorem daysBeforeMonth_of_ten_le (h : 10 ≤ month) (hle : month ≤ 11) :
    Gregorian.daysBeforeMonth year (month - 9) + 306 = daysBeforeMonth month := by
  interval_cases month <;>
    simp [Gregorian.daysBeforeMonth, Gregorian.monthDays, daysBeforeMonth]

end

/-! ## Years that begin in March -/

/-- The first of March of a year, counted from the start of 1970. -/
def marchDay (year : Int) : Int :=
  Gregorian.daysBefore year + 59 + (Gregorian.isLeap year).toNat

/-- The years of a cycle begin in March where their days are counted from. -/
theorem marchDay_eq {year : Nat} (h : year < 400) (cycle : Int) :
    marchDay (year + cycle * 400) = daysBeforeYear year + (cycleDays * cycle - epochDays) := by
  have hquads : ((year : Int) + cycle * 400) / 4 = year / 4 + 100 * cycle := by omega
  have hcenturies : ((year : Int) + cycle * 400) / 100 = year / 100 + 4 * cycle := by omega
  have hcycles : ((year : Int) + cycle * 400) / 400 = cycle := by omega
  rw [marchDay, Gregorian.toNat_isLeap, Gregorian.daysBefore, hquads, hcenturies, hcycles,
    daysBeforeYear, cycleDays, epochDays]
  omega

/-- The date of a day of the year that begins in March, at a time of day. -/
def ofMarchYear (year : Int) (day millis : Nat) : DateTime where
  year := year + (if monthOfYear day < 10 then 0 else 1)
  month := if monthOfYear day < 10 then monthOfYear day + 3 else monthOfYear day - 9
  day := day - daysBeforeMonth (monthOfYear day) + 1
  hour := millis / 3600000
  minute := millis / 60000 % 60
  second := millis / 1000 % 60
  milli := millis % 1000

/-- Division finds the year that begins in March and the place of a day in it. -/
theorem exists_ofDay_eq (days : Int) (millis : Nat) :
    ∃ (year : Int) (day : Nat), (day : Int) ≤ 364 + (Gregorian.isLeap (year + 1)).toNat ∧
      days = marchDay year + day ∧ ofDay days millis = ofMarchYear year day millis := by
  have hcycle := Int.fmod_add_mul_fdiv (days + epochDays) cycleDays
  have hnonneg : 0 ≤ (days + epochDays).fmod cycleDays := Int.fmod_nonneg_of_pos _ (by decide)
  have hlt : (days + epochDays).fmod cycleDays < 146097 := Int.fmod_lt_of_pos _ (by decide)
  have hday : ((days + epochDays).fmod cycleDays).toNat < 146097 := by omega
  obtain ⟨d, hd⟩ := CycleDay.exists_number_eq hday
  have hyears := d.daysBeforeYear_yearNumber
  refine ⟨d.yearNumber + (days + epochDays).fdiv cycleDays * 400, d.rest,
    d.rest_le_of_isLeap _, ?_, ?_⟩
  · rw [marchDay_eq d.yearNumber_lt]
    omega
  · have hplace : d.number - daysBeforeYear d.yearNumber = d.rest := by omega
    rw [ofDay, ← hd, d.yearOfCycle_number, hplace]
    rfl

section

variable (year : Int) {day : Nat} (millis : Nat)

theorem le_365_of_isLeap (h : (day : Int) ≤ 364 + (Gregorian.isLeap (year + 1)).toNat) :
    day ≤ 365 := by
  have hleap := Bool.toNat_le (Gregorian.isLeap (year + 1))
  omega

/-- A day of a year that begins in March is counted by the months from January. -/
theorem dayNumber_ofMarchYear (h : day ≤ 365) :
    (ofMarchYear year day millis).dayNumber = marchDay year + day := by
  have hmonth := daysBeforeMonth_monthOfYear day
  have hle := monthOfYear_le h
  rw [dayNumber, Gregorian.daysBeforeYear_eq, marchDay]
  by_cases hearly : monthOfYear day < 10
  · have hdays := daysBeforeMonth_of_lt_ten year hearly
    simp only [ofMarchYear, if_pos hearly, add_zero]
    omega
  · have hdays := daysBeforeMonth_of_ten_le (year + 1) (by omega) hle
    have hstep := Gregorian.daysBefore_succ year
    rw [Gregorian.yearDays_eq] at hstep
    simp only [ofMarchYear, if_neg hearly]
    omega

/-- A day comes before the end of its month. -/
theorem day_ofMarchYear_le (h : (day : Int) ≤ 364 + (Gregorian.isLeap (year + 1)).toNat) :
    (ofMarchYear year day millis).day ≤ Gregorian.monthDays
      (ofMarchYear year day millis).year (ofMarchYear year day millis).month := by
  have hmonth := daysBeforeMonth_monthOfYear day
  by_cases hearly : monthOfYear day < 10
  · have hnext := daysBeforeMonth_succ_of_lt_ten year hearly
    simp only [ofMarchYear, if_pos hearly, add_zero]
    omega
  · have hle := monthOfYear_le (le_365_of_isLeap year h)
    simp only [ofMarchYear, if_neg hearly]
    have hlast : monthOfYear day = 10 ∨ monthOfYear day = 11 := by omega
    rcases hlast with hlast | hlast
    · rw [hlast] at hmonth ⊢
      simp only [daysBeforeMonth, Gregorian.monthDays] at hmonth ⊢
      omega
    · rw [hlast] at hmonth ⊢
      simp only [daysBeforeMonth, Gregorian.monthDays] at hmonth ⊢
      omega

theorem isValid_ofMarchYear (h : (day : Int) ≤ 364 + (Gregorian.isLeap (year + 1)).toNat)
    {millis : Nat} (hmillis : millis < 86400000) : (ofMarchYear year day millis).IsValid := by
  have hle := monthOfYear_le (le_365_of_isLeap year h)
  have hmonth : 1 ≤ (ofMarchYear year day millis).month ∧
      (ofMarchYear year day millis).month ≤ 12 := by
    simp only [ofMarchYear]
    split_ifs <;> omega
  exact {
    month_pos := hmonth.1
    month_le := hmonth.2
    day_pos := Nat.le_add_left 1 _
    day_le := day_ofMarchYear_le year millis h
    hour := Nat.div_lt_of_lt_mul hmillis
    minute := Nat.mod_lt _ (by decide)
    second := Nat.mod_lt _ (by decide) }

end

theorem dayNumber_ofDay (days : Int) (millis : Nat) : (ofDay days millis).dayNumber = days := by
  obtain ⟨year, day, hday, hdays, hdate⟩ := exists_ofDay_eq days millis
  rw [hdate, dayNumber_ofMarchYear year millis (le_365_of_isLeap year hday), hdays]

theorem isValid_ofDay (days : Int) {millis : Nat} (h : millis < 86400000) :
    (ofDay days millis).IsValid := by
  obtain ⟨year, day, hday, -, hdate⟩ := exists_ofDay_eq days millis
  rw [hdate]
  exact isValid_ofMarchYear year hday h

end DateTime

namespace Instant

variable (instant : Instant)

theorem isValid_dateTime : instant.dateTime.IsValid := by
  have hlt : instant.millis.fmod dayMillis < 86400000 := Int.fmod_lt_of_pos _ (by decide)
  exact DateTime.isValid_ofDay _ (by omega)

/-- The date of an instant is that of the second in which it lies. -/
theorem seconds_dateTime : instant.dateTime.seconds = instant.millis.fdiv 1000 := by
  have hday := DateTime.dayNumber_ofDay (instant.millis.fdiv dayMillis)
    (instant.millis.fmod dayMillis).toNat
  have hmillis := Int.fmod_add_mul_fdiv instant.millis dayMillis
  have hnonneg : 0 ≤ instant.millis.fmod dayMillis := Int.fmod_nonneg_of_pos _ (by decide)
  have hfloor := Int.fdiv_eq_ediv_of_nonneg instant.millis (by decide : (0 : Int) ≤ 1000)
  rw [DateTime.seconds, dateTime, hday, hfloor]
  simp only [DateTime.ofDay]
  rw [dayMillis] at *
  omega

end Instant

end Dispatch
