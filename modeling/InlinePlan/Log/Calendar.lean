set_option autoImplicit false

/-! # Dates

The Gregorian calendar, extended to all years, in universal time. Days are counted from the first of
January 1970. The year is taken to start in March, which puts the leap day at its end and makes the
months a regular sequence. -/

namespace InlinePlan.Log

/-- A point in time: seconds since the start of 1970, and nanoseconds. -/
structure Instant where
  seconds : Int
  nanoseconds : Nat := 0
  deriving Repr, DecidableEq

/-- The point in time at some seconds and any number of nanoseconds since the start of 1970. -/
def Instant.ofUnix (seconds nanoseconds : Int) : Instant :=
  { seconds := seconds + nanoseconds.fdiv 1000000000
    nanoseconds := (nanoseconds.fmod 1000000000).toNat }

/-- A day of the calendar. -/
structure Date where
  year : Int
  month : Nat
  day : Nat
  deriving Repr, DecidableEq

/-- The days from the first of March in year 0 to the first of January 1970. -/
def epochOffset : Int := 719468

/-- The days of four centuries. -/
def cycleDays : Int := 146097

/-- The date of a day. -/
def Date.ofDays (days : Int) : Date :=
  let shifted := days + epochOffset
  let cycle := shifted.fdiv cycleDays
  let dayOfCycle := (shifted.fmod cycleDays).toNat
  let yearOfCycle :=
    (dayOfCycle - dayOfCycle / 1460 + dayOfCycle / 36524 - dayOfCycle / 146096) / 365
  let dayOfYear := dayOfCycle - (365 * yearOfCycle + yearOfCycle / 4 - yearOfCycle / 100)
  let marchMonth := (5 * dayOfYear + 2) / 153
  let day := dayOfYear - (153 * marchMonth + 2) / 5 + 1
  let month := if marchMonth < 10 then marchMonth + 3 else marchMonth - 9
  { year := yearOfCycle + cycle * 400 + (if month ≤ 2 then 1 else 0), month, day }

def isLeapYear (year : Int) : Bool :=
  year.fmod 4 == 0 && (year.fmod 100 != 0 || year.fmod 400 == 0)

/-- The days before each month of a common year. -/
def daysBefore : List Nat := [0, 31, 59, 90, 120, 151, 181, 212, 243, 273, 304, 334]

/-- The number of a day in its year, from one. -/
def Date.dayOfYear (d : Date) : Nat :=
  daysBefore.getD (d.month - 1) 0 + d.day + (if isLeapYear d.year && 2 < d.month then 1 else 0)

namespace Instant

/-- The first second of the calendar, at the start of the year -292277022399. -/
def calendarStart : Int := -9223372028715321600

/-- The second that the calendar shows. It has 2^64 of them, and what lies before its start is shown
    at its end. -/
def shown (t : Instant) : Int :=
  if t.seconds < calendarStart then t.seconds + Nat.pow 2 64 else t.seconds

def days (t : Instant) : Int := t.shown.fdiv 86400

def secondOfDay (t : Instant) : Nat := (t.shown.fmod 86400).toNat

def date (t : Instant) : Date := Date.ofDays t.days

def hour (t : Instant) : Nat := t.secondOfDay / 3600

def minute (t : Instant) : Nat := t.secondOfDay / 60 % 60

def second (t : Instant) : Nat := t.secondOfDay % 60

/-- The day of the week, Sunday being 0. The first day of 1970 was a Thursday. -/
def weekday (t : Instant) : Nat := ((t.days + 4).fmod 7).toNat

end Instant

end InlinePlan.Log
