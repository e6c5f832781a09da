import Dispatch.Proofs.Calendar
import Dispatch.Proofs.Text.Digits

/-!
# Timestamps read back

A timestamp is a year of any length and ten digits of fixed places behind it, so it is read
from its end.  What is read is the date of the second in which the instant lies, and instants
of the same second, but no others, have the same timestamp.

Years of four digits have timestamps of one length, which are ordered as the instants are.
-/

namespace Dispatch

/-! ## Reading -/

/-- The number that is written in digits. -/
def readDigits? (chars : List Char) : Option Nat :=
  if chars ≠ [] ∧ chars.all Char.isDigit = true then some (Nat.ofDigitChars 10 chars 0) else none

/-- A year with a sign if it is less than zero. -/
def readYear? (chars : List Char) : Option Int :=
  if chars.head? = some '-' then (readDigits? chars.tail).map fun (n : Nat) => -(n : Int)
  else (readDigits? chars).map fun (n : Nat) => (n : Int)

/-- The date in a timestamp; the characters before the last eleven make its year. -/
def readStamp? (text : String) : Option DateTime :=
  match text.toList.reverse with
  | s :: s' :: m :: m' :: h :: h' :: '-' :: d :: d' :: n :: n' :: year => do
    return {
      year := ← readYear? year.reverse
      month := ← readDigits? [n', n]
      day := ← readDigits? [d', d]
      hour := ← readDigits? [h', h]
      minute := ← readDigits? [m', m]
      second := ← readDigits? [s', s]
      milli := 0 }
  | _ => none

theorem readDigits?_of_isDigit {chars : List Char} (hne : chars ≠ [])
    (h : ∀ c ∈ chars, c.isDigit = true) :
    readDigits? chars = some (Nat.ofDigitChars 10 chars 0) :=
  if_pos ⟨hne, List.all_eq_true.mpr h⟩

theorem readDigits?_toDigits (n : Nat) : readDigits? (Nat.toDigits 10 n) = some n := by
  have hdigits : ∀ c ∈ Nat.toDigits 10 n, c.isDigit = true :=
    fun c hc => Nat.isDigit_of_mem_toDigits (by omega) (by omega) hc
  rw [readDigits?_of_isDigit Nat.toDigits_ne_nil hdigits, Nat.ofDigitChars_ten_toDigits]

theorem readDigits?_twoDigits {n : Nat} (h : n < 100) : readDigits? (twoDigits n) = some n := by
  have hne : twoDigits n ≠ [] := List.cons_ne_nil _ _
  rw [readDigits?_of_isDigit hne (isDigit_of_mem_twoDigits h), ofDigitChars_twoDigits h]

theorem readYear?_yearChars (year : Int) : readYear? (DateTime.yearChars year) = some year := by
  rw [readYear?, DateTime.yearChars]
  by_cases hnegative : year < 0
  · have habs : -(year.natAbs : Int) = year := by omega
    rw [if_pos hnegative, if_pos List.head?_cons, List.tail_cons, readDigits?_toDigits,
      Option.map_some, habs]
  · have habs : (year.natAbs : Int) = year := by omega
    have hhead : (Nat.toDigits 10 year.natAbs).head? ≠ some '-' := by
      intro hdash
      have hdigit := Nat.isDigit_of_mem_toDigits (b := 10) (by omega) (by omega)
        (List.mem_of_mem_head? hdash)
      cases hdigit
    rw [if_neg hnegative, if_neg hhead, readDigits?_toDigits, Option.map_some, habs]

namespace DateTime

/-- A year that is written in four digits. -/
def HasFourDigitYear (t : DateTime) : Prop :=
  1000 ≤ t.year ∧ t.year ≤ 9999

/-- The characters of a date in a stamp. -/
def dateChars (t : DateTime) : List Char :=
  yearChars t.year ++ twoDigits t.month ++ twoDigits t.day

/-- The characters of a time of day in a stamp. -/
def timeChars (t : DateTime) : List Char :=
  twoDigits t.hour ++ twoDigits t.minute ++ twoDigits t.second

/-- A year is written as numbers are everywhere. -/
theorem ofList_yearChars (year : Int) : String.ofList (yearChars year) = toString year := by
  cases year with
  | ofNat n =>
      rw [yearChars, if_neg (by simp)]
      exact Nat.repr_eq_ofList_toDigits.symm
  | negSucc n =>
      rw [yearChars, if_pos (Int.negSucc_lt_zero n)]
      have hrepr : toString (Int.negSucc n) = "-" ++ (n + 1).repr := rfl
      rw [hrepr, Nat.repr_eq_ofList_toDigits, String.ofList_cons]
      rfl

section

variable {t : DateTime} (h : t.IsValid)

include h

/-- All fields but the year fit into two digits. -/
theorem IsValid.lt_hundred :
    t.month < 100 ∧ t.day < 100 ∧ t.hour < 100 ∧ t.minute < 100 ∧ t.second < 100 := by
  have hmonth := h.month_le
  have hday := h.day_le_31
  have hhour := h.hour
  have hminute := h.minute
  have hsecond := h.second
  omega

theorem IsValid.stampChars_eq : t.stampChars = t.dateChars ++ '-' :: t.timeChars := by
  obtain ⟨hmonth, hday, hhour, hminute, hsecond⟩ := h.lt_hundred
  rw [stampChars, padDigits_two hmonth, padDigits_two hday, padDigits_two hhour,
    padDigits_two hminute, padDigits_two hsecond, dateChars, timeChars]
  simp [List.append_assoc]

/-- The fields of a date are read back from its stamp. -/
theorem IsValid.readStamp?_stampChars :
    readStamp? (.ofList t.stampChars) = some { t with milli := 0 } := by
  obtain ⟨hmonth, hday, hhour, hminute, hsecond⟩ := h.lt_hundred
  have hmonth := readDigits?_twoDigits hmonth
  have hday := readDigits?_twoDigits hday
  have hhour := readDigits?_twoDigits hhour
  have hminute := readDigits?_twoDigits hminute
  have hsecond := readDigits?_twoDigits hsecond
  simp only [twoDigits] at hmonth hday hhour hminute hsecond
  rw [readStamp?, String.toList_ofList, h.stampChars_eq]
  simp [dateChars, timeChars, twoDigits, readYear?_yearChars, hmonth, hday, hhour, hminute,
    hsecond]

/-! ## Order -/

theorem IsValid.isDigit_timeChars : ∀ c ∈ t.timeChars, c.isDigit = true := by
  obtain ⟨-, -, hhour, hminute, hsecond⟩ := h.lt_hundred
  simp only [timeChars, List.forall_mem_append]
  exact ⟨⟨isDigit_of_mem_twoDigits hhour, isDigit_of_mem_twoDigits hminute⟩,
    isDigit_of_mem_twoDigits hsecond⟩

theorem IsValid.ofDigitChars_timeChars : Nat.ofDigitChars 10 t.timeChars 0 = t.timeKey := by
  obtain ⟨-, -, hhour, hminute, hsecond⟩ := h.lt_hundred
  rw [timeChars, ofDigitChars_append_twoDigits hsecond, ofDigitChars_append_twoDigits hminute,
    ofDigitChars_twoDigits hhour, timeKey]

section

variable (hyear : t.HasFourDigitYear)

include hyear

theorem IsValid.isDigit_dateChars : ∀ c ∈ t.dateChars, c.isDigit = true := by
  obtain ⟨hleast, -⟩ := hyear
  obtain ⟨hmonth, hday, -⟩ := h.lt_hundred
  simp only [dateChars, yearChars, if_neg (by omega : ¬t.year < 0), List.forall_mem_append]
  exact ⟨⟨fun c hc => Nat.isDigit_of_mem_toDigits (by omega) (by omega) hc,
    isDigit_of_mem_twoDigits hmonth⟩, isDigit_of_mem_twoDigits hday⟩

theorem IsValid.ofDigitChars_dateChars :
    (Nat.ofDigitChars 10 t.dateChars 0 : Int) = t.dateKey := by
  obtain ⟨hleast, -⟩ := hyear
  obtain ⟨hmonth, hday, -⟩ := h.lt_hundred
  rw [dateChars, yearChars, if_neg (by omega : ¬t.year < 0), ofDigitChars_append_twoDigits hday,
    ofDigitChars_append_twoDigits hmonth, Nat.ofDigitChars_ten_toDigits, dateKey]
  omega

omit h in
/-- Years of four digits make dates of eight. -/
theorem length_dateChars : t.dateChars.length = 8 := by
  obtain ⟨hthousand, hten⟩ := hyear
  have hmost : (Nat.toDigits 10 t.year.natAbs).length ≤ 4 :=
    (Nat.length_toDigits_le_iff (by omega) (by omega)).mpr (by omega)
  have hleast : ¬(Nat.toDigits 10 t.year.natAbs).length ≤ 3 := by
    rw [Nat.length_toDigits_le_iff (by omega) (by omega)]
    omega
  rw [dateChars, yearChars, if_neg (by omega : ¬t.year < 0)]
  simp only [List.length_append, twoDigits, List.length_cons, List.length_nil]
  omega

/-- Stamps with years of four digits have the order of their seconds. -/
theorem IsValid.stampChars_lt_iff {t' : DateTime} (h' : t'.IsValid)
    (hyear' : t'.HasFourDigitYear) :
    t.stampChars < t'.stampChars ↔ t.seconds < t'.seconds := by
  have hlength : t.dateChars.length = t'.dateChars.length :=
    (length_dateChars hyear).trans (length_dateChars hyear').symm
  have hdate := h.ofDigitChars_dateChars hyear
  have hdate' := h'.ofDigitChars_dateChars hyear'
  have hlt : t.dateChars < t'.dateChars ↔ t.dateKey < t'.dateKey := by
    rw [lt_iff_ofDigitChars_lt (h.isDigit_dateChars hyear) (h'.isDigit_dateChars hyear') hlength]
    omega
  have heq : t.dateChars = t'.dateChars ↔ t.dateKey = t'.dateKey := by
    constructor
    · intro hchars
      rw [← hdate, hchars, hdate']
    · intro hkey
      obtain ⟨hyears, hmonths, hdays⟩ := eq_of_dateKey_eq h h' hkey
      rw [dateChars, hyears, hmonths, hdays, dateChars]
  have htime : t.timeChars < t'.timeChars ↔ t.timeKey < t'.timeKey := by
    rw [lt_iff_ofDigitChars_lt h.isDigit_timeChars h'.isDigit_timeChars rfl,
      h.ofDigitChars_timeChars, h'.ofDigitChars_timeChars]
  rw [h.stampChars_eq, h'.stampChars_eq, append_lt_append_iff hlength, hlt, heq,
    List.cons_lt_cons_iff, htime, seconds_lt_iff h h']
  simp

end

end

end DateTime

namespace Instant

variable (instant : Instant)

/-- What is read from a timestamp is the date without its milliseconds. -/
theorem readStamp?_timestamp :
    readStamp? (timestamp (some instant)) = some { instant.dateTime with milli := 0 } :=
  instant.isValid_dateTime.readStamp?_stampChars

theorem timestamp_lt_iff {instant other : Instant} (hyear : instant.dateTime.HasFourDigitYear)
    (hyear' : other.dateTime.HasFourDigitYear) :
    timestamp (some instant) < timestamp (some other) ↔
      instant.millis.fdiv 1000 < other.millis.fdiv 1000 := by
  rw [← instant.seconds_dateTime, ← other.seconds_dateTime, String.lt_iff, timestamp,
    timestamp, String.toList_ofList, String.toList_ofList]
  exact instant.isValid_dateTime.stampChars_lt_iff hyear other.isValid_dateTime hyear'

/--
A timestamp is a year without padding, two digits each for month and day, a dash, and two
digits each for hour, minute and second.  These are the fields of a date, and its seconds are
the whole seconds of the instant.  So two timestamps are the same exactly if their instants lie
in the same second, and with years of four digits they are ordered as the instants are.
-/
theorem timestamp_is_read_back :
    (∃ date : DateTime, readStamp? (timestamp (some instant)) = some date ∧ date.IsValid ∧
      date.seconds = instant.millis.fdiv 1000 ∧
      timestamp (some instant) = toString date.year ++ .ofList (twoDigits date.month) ++
        .ofList (twoDigits date.day) ++ "-" ++ .ofList (twoDigits date.hour) ++
        .ofList (twoDigits date.minute) ++ .ofList (twoDigits date.second)) ∧
    (∀ other : Instant, timestamp (some instant) = timestamp (some other) ↔
      instant.millis.fdiv 1000 = other.millis.fdiv 1000) ∧
    ∀ other : Instant, instant.dateTime.HasFourDigitYear → other.dateTime.HasFourDigitYear →
      (timestamp (some instant) < timestamp (some other) ↔
        instant.millis.fdiv 1000 < other.millis.fdiv 1000) ∧
      (instant.millis ≤ other.millis → timestamp (some instant) ≤ timestamp (some other)) := by
  have hvalid := instant.isValid_dateTime
  refine ⟨⟨{ instant.dateTime with milli := 0 }, instant.readStamp?_timestamp, ?_, ?_, ?_⟩,
    fun other => ⟨fun htext => ?_, fun hseconds => ?_⟩, fun other hyear hyear' => ?_⟩
  · exact ⟨hvalid.month_pos, hvalid.month_le, hvalid.day_pos, hvalid.day_le, hvalid.hour,
      hvalid.minute, hvalid.second⟩
  · exact instant.seconds_dateTime
  · rw [timestamp, hvalid.stampChars_eq]
    simp [DateTime.dateChars, DateTime.timeChars, DateTime.ofList_yearChars, String.append_assoc]
  · have hread := instant.readStamp?_timestamp
    rw [htext, other.readStamp?_timestamp, Option.some.injEq] at hread
    rw [← instant.seconds_dateTime, ← other.seconds_dateTime]
    exact (congrArg DateTime.seconds hread).symm
  · rw [← instant.seconds_dateTime, ← other.seconds_dateTime] at hseconds
    have hdate := DateTime.eq_of_seconds_eq hvalid other.isValid_dateTime hseconds
    have hchars := congrArg DateTime.stampChars hdate
    exact congrArg String.ofList hchars
  · refine ⟨timestamp_lt_iff hyear hyear', fun hmillis hlt => ?_⟩
    have hless := (timestamp_lt_iff hyear' hyear).mp hlt
    rw [Int.fdiv_eq_ediv_of_nonneg _ (by decide), Int.fdiv_eq_ediv_of_nonneg _ (by decide)] at hless
    omega

/-- The last millisecond before 1970 and the first one of it. -/
theorem timestamp_is_read_back_before_epoch :
    (∃ date, readStamp? "19691231-235959" = some date ∧ date.IsValid ∧ date.seconds = -1) ∧
      (⟨-1, by decide⟩ : Instant).dateTime.HasFourDigitYear ∧
      (⟨0, by decide⟩ : Instant).dateTime.HasFourDigitYear ∧
      "19691231-235959" < timestamp (some ⟨0, by decide⟩) := by
  have hbefore : timestamp (some ⟨-1, by decide⟩) = "19691231-235959" := by decide +kernel
  have hyear : (⟨-1, by decide⟩ : Instant).dateTime.HasFourDigitYear := by
    constructor <;> decide +kernel
  have hyear' : (⟨0, by decide⟩ : Instant).dateTime.HasFourDigitYear := by
    constructor <;> decide +kernel
  obtain ⟨⟨date, hread, hvalid, hseconds, -⟩, -, horder⟩ :=
    timestamp_is_read_back ⟨-1, by decide⟩
  rw [hbefore] at hread horder
  exact ⟨⟨date, hread, hvalid, hseconds⟩, hyear, hyear',
    (horder _ hyear hyear').1.mpr (by decide)⟩

example : timestamp (some ⟨-62198755200001, by decide⟩) = "-21231-235959" := by
  decide +kernel

end Instant

end Dispatch
