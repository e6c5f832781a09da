import Dispatch.Calendar
import Mathlib.Algebra.Order.Ring.Int
import Mathlib.Tactic.Common

/-!
# The proleptic Gregorian calendar

Days are numbered by counting the days of all months and years between them and the start of
1970.  Dates are numbered in the order of their fields, so each second has one date.
-/

namespace Dispatch

namespace Gregorian

/-- Every fourth year is a leap year, but of the full centuries only every fourth. -/
def isLeap (year : Int) : Bool :=
  decide (year % 4 = 0 ∧ (year % 100 ≠ 0 ∨ year % 400 = 0))

/-- The days of a month; January is the first one. -/
def monthDays (year : Int) : Nat → Nat
  | 2 => 28 + (isLeap year).toNat
  | 4 | 6 | 9 | 11 => 30
  | _ => 31

theorem monthDays_le (year : Int) (month : Nat) : monthDays year month ≤ 31 := by
  have hleap := Bool.toNat_le (isLeap year)
  unfold monthDays
  split <;> omega

/-- The days of a year before one of its months. -/
def daysBeforeMonth (year : Int) (month : Nat) : Nat :=
  ((List.range' 1 (month - 1)).map (monthDays year)).sum

/-- The days of all twelve months. -/
def yearDays (year : Int) : Nat :=
  daysBeforeMonth year 13

/-- The days from the start of 1970 to the start of a year, less than none for years before. -/
def daysBeforeYear (year : Int) : Int :=
  ((List.range (year - 1970).toNat).map fun (n : Nat) => (yearDays (1970 + n) : Int)).sum -
    ((List.range (1970 - year).toNat).map fun (n : Nat) => (yearDays (1969 - n) : Int)).sum

/-! ## Months and years -/

section

variable (year : Int)

theorem daysBeforeMonth_succ {month : Nat} (h : 1 ≤ month) :
    daysBeforeMonth year (month + 1) = daysBeforeMonth year month + monthDays year month := by
  obtain ⟨month, rfl⟩ := Nat.exists_eq_add_of_le' h
  simp [daysBeforeMonth, List.range'_1_concat, Nat.add_comm]

/-- A month is over before a later one begins. -/
theorem daysBeforeMonth_le {month later : Nat} (hpos : 1 ≤ month) (h : month < later) :
    daysBeforeMonth year month + monthDays year month ≤ daysBeforeMonth year later := by
  induction later, h using Nat.le_induction with
  | base => rw [daysBeforeMonth_succ year hpos]
  | succ later hlater ih =>
      rw [daysBeforeMonth_succ year (by omega)]
      omega

theorem yearDays_eq : yearDays year = 365 + (isLeap year).toNat := by
  simp [yearDays, daysBeforeMonth, List.range', monthDays]
  omega

/-- The leap days up to a year are those of the fourth years, without full centuries. -/
theorem toNat_isLeap :
    ((isLeap year).toNat : Int) = (year / 4 - (year - 1) / 4) -
      (year / 100 - (year - 1) / 100) + (year / 400 - (year - 1) / 400) := by
  by_cases h : year % 4 = 0 ∧ (year % 100 ≠ 0 ∨ year % 400 = 0)
  · rw [isLeap, decide_eq_true h, Bool.toNat_true]
    omega
  · rw [isLeap, decide_eq_false h, Bool.toNat_false]
    omega

/-- The days from the start of 1970 to the start of a year, without counting. -/
def daysBefore : Int :=
  365 * (year - 1) + (year - 1) / 4 - (year - 1) / 100 + (year - 1) / 400 - 719162

theorem daysBefore_succ : daysBefore (year + 1) = daysBefore year + yearDays year := by
  have hleap := toNat_isLeap year
  rw [yearDays_eq, daysBefore, daysBefore, Int.add_sub_cancel]
  omega

/-- A year is over before a later one begins. -/
theorem daysBefore_le {later : Int} (h : year < later) :
    daysBefore year + yearDays year ≤ daysBefore later := by
  rw [← daysBefore_succ]
  induction later, h using Int.leInduction with
  | base => exact Int.le_refl _
  | succ later hlater ih =>
      have hstep := daysBefore_succ later
      omega

theorem sum_yearDays_after (n : Nat) :
    ((List.range n).map fun (k : Nat) => (yearDays (1970 + k) : Int)).sum =
      daysBefore (1970 + n) := by
  induction n with
  | zero => rfl
  | succ n ih =>
      have hstep := daysBefore_succ (1970 + n)
      rw [List.range_succ, List.map_append, List.sum_append, ih]
      simp only [List.map_cons, List.map_nil, List.sum_singleton, ← hstep]
      congr 1

theorem sum_yearDays_before (n : Nat) :
    ((List.range n).map fun (k : Nat) => (yearDays (1969 - k) : Int)).sum =
      -daysBefore (1970 - n) := by
  induction n with
  | zero => rfl
  | succ n ih =>
      have hstep := daysBefore_succ (1969 - n)
      have hyear : (1970 : Int) - (n + 1 : Nat) = 1969 - n := by omega
      have hnext : (1969 : Int) - n + 1 = 1970 - n := by omega
      rw [hnext] at hstep
      rw [List.range_succ, List.map_append, List.sum_append, ih, hyear]
      simp only [List.map_cons, List.map_nil, List.sum_singleton]
      omega

theorem daysBeforeYear_eq : daysBeforeYear year = daysBefore year := by
  rw [daysBeforeYear, sum_yearDays_after, sum_yearDays_before]
  rcases Int.le_total 1970 year with h | h
  · have hafter : (1970 : Int) + (year - 1970).toNat = year := by omega
    have hbefore : (1970 : Int) - (1970 - year).toNat = 1970 := by omega
    rw [hafter, hbefore, show daysBefore 1970 = 0 from rfl]
    omega
  · have hafter : (1970 : Int) + (year - 1970).toNat = 1970 := by omega
    have hbefore : (1970 : Int) - (1970 - year).toNat = year := by omega
    rw [hafter, hbefore, show daysBefore 1970 = 0 from rfl]
    omega

end

end Gregorian

namespace DateTime

/-! ## Numbers of days -/

/-- The day of a date, counted from the start of 1970. -/
def dayNumber (t : DateTime) : Int :=
  Gregorian.daysBeforeYear t.year + Gregorian.daysBeforeMonth t.year t.month + t.day - 1

/-- The fields of a date and a time of day are in their ranges. -/
structure IsValid (t : DateTime) : Prop where
  month_pos : 1 ≤ t.month
  month_le : t.month ≤ 12
  day_pos : 1 ≤ t.day
  day_le : t.day ≤ Gregorian.monthDays t.year t.month
  hour : t.hour < 24
  minute : t.minute < 60
  second : t.second < 60

theorem IsValid.day_le_31 {t : DateTime} (h : t.IsValid) : t.day ≤ 31 :=
  Nat.le_trans h.day_le (Gregorian.monthDays_le t.year t.month)

/-- The seconds from the start of 1970 to a date and time of day. -/
def seconds (t : DateTime) : Int :=
  ((t.dayNumber * 24 + t.hour) * 60 + t.minute) * 60 + t.second

/-! ## The order of dates -/

/-- The digits of year, month and day as one number. -/
def dateKey (t : DateTime) : Int :=
  (t.year * 100 + t.month) * 100 + t.day

/-- The digits of hour, minute and second as one number. -/
def timeKey (t : DateTime) : Nat :=
  (t.hour * 100 + t.minute) * 100 + t.second

section

variable {t t' : DateTime} (h : t.IsValid) (h' : t'.IsValid)

include h h'

/-- Of two dates the one with the smaller digits is the earlier one. -/
theorem dayNumber_lt_of_dateKey_lt (hlt : t.dateKey < t'.dateKey) :
    t.dayNumber < t'.dayNumber := by
  have hmost := h.day_le_31
  have hmost' := h'.day_le_31
  obtain ⟨hpos, hle, hday, hdays, -⟩ := h
  obtain ⟨hpos', hle', hday', hdays', -⟩ := h'
  rw [dateKey, dateKey] at hlt
  have hcases : t.year < t'.year ∨ t.year = t'.year ∧
      (t.month < t'.month ∨ t.month = t'.month ∧ t.day < t'.day) := by omega
  rw [dayNumber, dayNumber, Gregorian.daysBeforeYear_eq, Gregorian.daysBeforeYear_eq]
  rcases hcases with hyear | ⟨hyear, hmonth | ⟨hmonth, hday⟩⟩
  · have hyears := Gregorian.daysBefore_le t.year hyear
    have hmonths := Gregorian.daysBeforeMonth_le t.year hpos (by omega : t.month < 13)
    rw [Gregorian.yearDays] at hyears
    omega
  · have hmonths := Gregorian.daysBeforeMonth_le t.year hpos hmonth
    rw [← hyear]
    omega
  · rw [← hyear, ← hmonth]
    omega

theorem eq_of_dateKey_eq (heq : t.dateKey = t'.dateKey) :
    t.year = t'.year ∧ t.month = t'.month ∧ t.day = t'.day := by
  have hle := h.month_le
  have hle' := h'.month_le
  have hdays := h.day_le_31
  have hdays' := h'.day_le_31
  rw [dateKey, dateKey] at heq
  omega

theorem dayNumber_lt_iff : t.dayNumber < t'.dayNumber ↔ t.dateKey < t'.dateKey := by
  refine ⟨fun hlt => ?_, dayNumber_lt_of_dateKey_lt h h'⟩
  rcases Int.lt_trichotomy t.dateKey t'.dateKey with hkey | hkey | hkey
  · exact hkey
  · obtain ⟨hyear, hmonth, hday⟩ := eq_of_dateKey_eq h h' hkey
    rw [dayNumber, dayNumber, hyear, hmonth, hday] at hlt
    omega
  · have hback := dayNumber_lt_of_dateKey_lt h' h hkey
    omega

/-- Seconds are counted in the order of their digits. -/
theorem seconds_lt_iff : t.seconds < t'.seconds ↔
      t.dateKey < t'.dateKey ∨ t.dateKey = t'.dateKey ∧ t.timeKey < t'.timeKey := by
  have hdate := dayNumber_lt_iff h h'
  have hdate' := dayNumber_lt_iff h' h
  obtain ⟨-, -, -, -, hhour, hminute, hsecond⟩ := h
  obtain ⟨-, -, -, -, hhour', hminute', hsecond'⟩ := h'
  rw [seconds, seconds, timeKey, timeKey]
  omega

/-- A second has one date. -/
theorem eq_of_seconds_eq (heq : t.seconds = t'.seconds) :
    { t with milli := 0 } = { t' with milli := 0 } := by
  have hlt := seconds_lt_iff h h'
  have hgt := seconds_lt_iff h' h
  obtain ⟨hyear, hmonth, hday⟩ := eq_of_dateKey_eq h h' (by omega)
  have htime : t.timeKey = t'.timeKey := by omega
  obtain ⟨-, -, -, -, -, hminute, hsecond⟩ := h
  obtain ⟨-, -, -, -, -, hminute', hsecond'⟩ := h'
  rw [timeKey, timeKey] at htime
  rw [DateTime.mk.injEq]
  exact ⟨hyear, hmonth, hday, by omega, by omega, by omega, rfl⟩

end

end DateTime

end Dispatch
