import Dispatch.Number.Basic

/-!
# Instants and their UTC dates

An instant is a whole number of milliseconds since the start of 1970, at most a
hundred million days away from it.  Its date is taken from the proleptic
Gregorian calendar, whose cycle of 400 years has 146097 days; years are counted
from March inside a cycle, so that the leap day comes last.

A clock may also be read without success.  Such a reading is `none`; it has a
timestamp of its own but no date.
-/

namespace Dispatch

/-- A point in time, in milliseconds since the start of 1970. -/
structure Instant where
  millis : Int
  inRange : millis.natAbs ≤ 8640000000000000
deriving DecidableEq

/-- The fields of a UTC date and time of day. -/
structure DateTime where
  year : Int
  month : Nat
  day : Nat
  hour : Nat
  minute : Nat
  second : Nat
  milli : Nat
deriving DecidableEq

/-- The instant so many milliseconds after 1970, if it is in range; fractions are cut off. -/
def Instant.ofNumber? (millis : Number) : Option Instant :=
  match millis.truncate? with
  | some n => if h : n.natAbs ≤ 8640000000000000 then some ⟨n, h⟩ else none
  | none => none

namespace DateTime

/-- The days from the first of March of the year 0 to the start of 1970. -/
def epochDays : Int :=
  719468

/-- The days in 400 years. -/
def cycleDays : Int :=
  146097

/-- The year inside its cycle, counted from March, of a day of the cycle. -/
def yearOfCycle (day : Nat) : Nat :=
  (day - day / 1460 + day / 36524 - day / 146096) / 365

/-- The days of a cycle before one of its years. -/
def daysBeforeYear (year : Nat) : Nat :=
  365 * year + year / 4 - year / 100

/-- The month, counted from March, of a day of the year. -/
def monthOfYear (day : Nat) : Nat :=
  (5 * day + 2) / 153

/-- The days of a year before one of its months. -/
def daysBeforeMonth (month : Nat) : Nat :=
  (153 * month + 2) / 5

/-- The date of a day since the start of 1970, at a time of day in milliseconds. -/
def ofDay (days : Int) (millis : Nat) : DateTime :=
  let shifted := days + epochDays
  let cycle := shifted.fdiv cycleDays
  let dayOfCycle := (shifted.fmod cycleDays).toNat
  let year := yearOfCycle dayOfCycle
  let dayOfYear := dayOfCycle - daysBeforeYear year
  let month := monthOfYear dayOfYear
  { year := year + cycle * 400 + (if month < 10 then 0 else 1)
    month := if month < 10 then month + 3 else month - 9
    day := dayOfYear - daysBeforeMonth month + 1
    hour := millis / 3600000
    minute := millis / 60000 % 60
    second := millis / 1000 % 60
    milli := millis % 1000 }

end DateTime

namespace Instant

/-- The milliseconds of a day. -/
def dayMillis : Int :=
  86400000

/-- The UTC date and time of day. -/
def dateTime (instant : Instant) : DateTime :=
  .ofDay (instant.millis.fdiv dayMillis) (instant.millis.fmod dayMillis).toNat

end Instant

/-- Digits with zeros in front up to a width. -/
def padDigits (width : Nat) (n : Nat) : List Char :=
  let digits := Nat.toDigits 10 n
  List.replicate (width - digits.length) '0' ++ digits

namespace DateTime

/-- A year without padding. -/
def yearChars (year : Int) : List Char :=
  if year < 0 then '-' :: Nat.toDigits 10 year.natAbs else Nat.toDigits 10 year.natAbs

/-- Date and time to the second, without separators inside them. -/
def stampChars (t : DateTime) : List Char :=
  yearChars t.year ++ padDigits 2 t.month ++ padDigits 2 t.day ++
    '-' :: padDigits 2 t.hour ++ padDigits 2 t.minute ++ padDigits 2 t.second

/-- A year of four digits, or of six with a sign when it does not fit. -/
def isoYearChars (year : Int) : List Char :=
  if 0 ≤ year ∧ year ≤ 9999 then padDigits 4 year.natAbs
  else (if year < 0 then '-' else '+') :: padDigits 6 year.natAbs

/-- Date and time to the millisecond, in the extended format of ISO 8601. -/
def isoChars (t : DateTime) : List Char :=
  isoYearChars t.year ++ '-' :: padDigits 2 t.month ++ '-' :: padDigits 2 t.day ++
    'T' :: padDigits 2 t.hour ++ ':' :: padDigits 2 t.minute ++ ':' :: padDigits 2 t.second ++
    '.' :: padDigits 3 t.milli ++ ['Z']

end DateTime

/-- A clock reading as the first part of a file name. -/
def timestamp (reading : Option Instant) : String :=
  match reading with
  | some instant => .ofList instant.dateTime.stampChars
  | none => "NaNNaNNaN-NaNNaNNaN"

/-- An instant as records keep it. -/
def Instant.isoText (instant : Instant) : String :=
  .ofList instant.dateTime.isoChars

end Dispatch
