import InlinePlan.Log.Calendar

set_option autoImplicit false

/-! # Points in time

A date is a year of four digits, a month and a day. A time of the day may follow: with a zone after
a letter, or without one after spaces. Numbers other than the year and the zone may have one digit
or two. -/

namespace InlinePlan.Yaml

/-- A number of one digit or two, and what follows it. -/
def readShort? : List Char → Option (Nat × List Char)
  | [] => none
  | a :: cs =>
    if !a.isDigit then none
    else match cs with
      | b :: rest =>
        if b.isDigit then some (10 * (a.toNat - 48) + (b.toNat - 48), rest)
        else some (a.toNat - 48, cs)
      | [] => some (a.toNat - 48, [])

/-- A number of exactly `n` digits, and what follows it. -/
def readExact? (n : Nat) (cs : List Char) : Option (Nat × List Char) :=
  let ds := cs.take n
  if ds.length = n ∧ ds.all Char.isDigit then
    some (ds.foldl (fun k c => 10 * k + (c.toNat - 48)) 0, cs.drop n)
  else none

/-- Passes over one given character. -/
def expect? (c : Char) : List Char → Option (List Char)
  | [] => none
  | d :: cs => if d = c then some cs else none

/-- The number of days of a month. -/
def daysIn (year month : Nat) : Nat :=
  if month = 2 then (if Log.isLeapYear year then 29 else 28)
  else if [4, 6, 9, 11].contains month then 30
  else 31

/-- Reads a date of the calendar. -/
def readDate? (cs : List Char) : Option (List Char) := do
  let (year, cs) ← readExact? 4 cs
  let (month, cs) ← readShort? (← expect? '-' cs)
  let (day, cs) ← readShort? (← expect? '-' cs)
  if 1 ≤ month ∧ month ≤ 12 ∧ 1 ≤ day ∧ day ≤ daysIn year month then return cs else none

/-- Passes over a fraction of a second, if one follows. -/
def skipFraction : List Char → List Char
  | c :: d :: cs =>
    if (c = '.' || c = ',') && d.isDigit then (d :: cs).dropWhile Char.isDigit else c :: d :: cs
  | cs => cs

/-- Reads a time of the day. -/
def readClock? (cs : List Char) : Option (List Char) := do
  let (hour, cs) ← readShort? cs
  let (minute, cs) ← readShort? (← expect? ':' cs)
  let (second, cs) ← readShort? (← expect? ':' cs)
  if hour < 24 ∧ minute < 60 ∧ second < 60 then return skipFraction cs else none

/-- Reads a zone: a letter for universal time, or a signed distance from it. -/
def readZone? : List Char → Option (List Char)
  | [] => none
  | c :: cs =>
    if c = 'Z' then some cs
    else if c = '+' || c = '-' then do
      let (hours, cs) ← readExact? 2 cs
      let (minutes, cs) ← readExact? 2 (← expect? ':' cs)
      if hours ≤ 24 ∧ minutes ≤ 60 then return cs else none
    else none

/-- Whether a text is a date, with or without a time. -/
def isTimestamp (cs : List Char) : Bool :=
  match readDate? cs with
  | none => false
  | some [] => true
  | some (c :: cs) =>
    if c = 'T' || c = 't' then (readClock? cs).bind readZone? = some []
    else if c = ' ' then readClock? (cs.dropWhile (· = ' ')) = some []
    else false

end InlinePlan.Yaml
