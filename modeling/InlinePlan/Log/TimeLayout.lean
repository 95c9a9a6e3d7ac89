import InlinePlan.Log.Calendar

set_option autoImplicit false

/-! # Time layouts

A layout is a text in which a percent sign and a letter stand for a part of the time. Between them
may stand a width, and signs that say how the part is filled up and in which case it is written.
What has no meaning is kept as it is. -/

namespace InlinePlan.Log

def monthNames : List String :=
  ["January", "February", "March", "April", "May", "June", "July", "August", "September", "October",
    "November", "December"]

def weekdayNames : List String :=
  ["Sunday", "Monday", "Tuesday", "Wednesday", "Thursday", "Friday", "Saturday"]

/-- The first three letters. -/
def abbreviate (name : String) : String := String.ofList (name.toList.take 3)

/-- The hour on a clock face. -/
def faceHour (hour : Nat) : Nat := if hour % 12 = 0 then 12 else hour % 12

/-! ## How a part is written -/

/-- What a part is filled up with: what is usual for it, nothing, zeros or spaces. -/
inductive Padding where
  | usual
  | nothing
  | zeros
  | spaces
  deriving Repr, DecidableEq

/-- The character that fills up a part for which `usual` is usual. -/
def Padding.fill (usual : Char) : Padding → Char
  | .zeros => '0'
  | .spaces => ' '
  | _ => usual

/-- How a part is written. A width of zero means that none is given. `swapped` turns capitals into
    small letters and everything else into capitals. -/
structure PartStyle where
  width : Nat := 0
  padding : Padding := .usual
  capitals : Bool := false
  swapped : Bool := false
  deriving Repr, DecidableEq

def padLeft (fill : Char) (width : Nat) (cs : List Char) : List Char :=
  List.replicate (width - cs.length) fill ++ cs

/-- The last digit of a number below ten. A negative number has none; its low byte stands for it,
    with the bits of the digit zero set. -/
def lastDigit (n : Int) : Char :=
  let byte := (n % 256).toNat ||| 0x30
  if byte < 0x80 then Char.ofNat byte else '\ufffd'

namespace PartStyle

/-- A number of a given width. Two and four digits are written digit by digit. -/
def number (s : PartStyle) (usual : Char) (width : Nat) (n : Int) : List Char :=
  let fill := s.padding.fill usual
  if s.padding = .nothing then (if n < 10 then [lastDigit n] else (toString n).toList)
  else if (width = 2 || width = 4) && n < 10 then List.replicate (width - 1) fill ++ [lastDigit n]
  else padLeft fill width (toString n).toList

/-- A number that is at least `least` wide. -/
def atLeast (s : PartStyle) (usual : Char) (least : Nat) (n : Int) : List Char :=
  s.number usual (max s.width least) n

/-- A number that is `least` wide unless a width is given. -/
def unlessGiven (s : PartStyle) (least : Nat) (n : Int) : List Char :=
  s.number '0' (if s.width = 0 then least else s.width) n

/-- A text filled up on the left. -/
def filled (s : PartStyle) (cs : List Char) : List Char :=
  if s.padding = .nothing then cs else padLeft (s.padding.fill ' ') s.width cs

/-- A name in the case that is asked for; its second letter tells which one it has. -/
def cased (s : PartStyle) (name : String) : List Char :=
  let cs := name.toList
  if s.swapped && (cs[1]?).any (· < 'a') then cs.map Char.toLower
  else if s.swapped || s.capitals then cs.map Char.toUpper
  else cs

def name (s : PartStyle) (text : String) : List Char := s.filled (s.cased text)

/-- The distance from universal time, which is none, with colons between its parts: hours, minutes
    from no colons to two, and seconds at two. A sign comes before zeros and after spaces. -/
def zone (s : PartStyle) (colons : Nat) : List Char :=
  let hours := match s.padding with
    | .nothing => "+0"
    | .spaces => " +0"
    | _ => "+00"
  let minutes := match colons with
    | 0 => "00"
    | 1 => ":00"
    | 2 => ":00:00"
    | _ => ""
  let text := (hours ++ minutes).toList
  match s.padding with
  | .nothing => text
  | .spaces => padLeft ' ' s.width text
  | _ => '+' :: padLeft '0' (s.width - 1) (text.drop 1)

end PartStyle

/-! ## The parts of a time -/

/-- The year and the number of the week that a day belongs to. Weeks start on Monday, and belong to
    the year of their Thursday. -/
def weekOfYear (days : Int) (weekday : Nat) : Int × Nat :=
  let thursday := Date.ofDays (days + 3 - ((weekday + 6) % 7 : Nat))
  (thursday.year, (thursday.dayOfYear - 1) / 7 + 1)

namespace Instant

/-- The half of the day. -/
def halfOfDay (t : Instant) : String := if t.hour < 12 then "AM" else "PM"

/-- The part of the time that a letter stands for. -/
def part? (t : Instant) (s : PartStyle) : Char → Option (List Char)
  | 'Y' => some (s.unlessGiven 4 t.date.year)
  | 'C' => some (s.atLeast '0' 2 (t.date.year.tdiv 100))
  | 'y' => some (s.atLeast '0' 2 (t.date.year.tmod 100))
  | 'G' => some (s.unlessGiven 4 (weekOfYear t.days t.weekday).1)
  | 'g' => some (s.atLeast '0' 2 ((weekOfYear t.days t.weekday).1.tmod 100))
  | 'V' => some (s.atLeast '0' 2 (weekOfYear t.days t.weekday).2)
  | 'U' => some (s.atLeast '0' 2 ((t.date.dayOfYear + 6 - t.weekday) / 7 : Nat))
  | 'W' => some (s.atLeast '0' 2 ((t.date.dayOfYear + 6 - (t.weekday + 6) % 7) / 7 : Nat))
  | 'm' => some (s.atLeast '0' 2 t.date.month)
  | 'B' => some (s.name (monthNames.getD (t.date.month - 1) ""))
  | 'b' | 'h' => some (s.name (abbreviate (monthNames.getD (t.date.month - 1) "")))
  | 'A' => some (s.name (weekdayNames.getD t.weekday ""))
  | 'a' => some (s.name (abbreviate (weekdayNames.getD t.weekday "")))
  | 'w' => some (s.atLeast '0' 1 t.weekday)
  | 'u' => some (s.atLeast '0' 1 (if t.weekday = 0 then 7 else t.weekday : Nat))
  | 'd' => some (s.atLeast '0' 2 t.date.day)
  | 'e' => some (s.atLeast ' ' 2 t.date.day)
  | 'j' => some (s.atLeast '0' 3 t.date.dayOfYear)
  | 'H' => some (s.atLeast '0' 2 t.hour)
  | 'k' => some (s.atLeast ' ' 2 t.hour)
  | 'I' => some (s.atLeast '0' 2 (faceHour t.hour))
  | 'l' => some (s.atLeast ' ' 2 (faceHour t.hour))
  | 'M' => some (s.atLeast '0' 2 t.minute)
  | 'S' => some (s.atLeast '0' 2 t.second)
  | 'f' => some (s.unlessGiven 6 (t.nanoseconds / 1000 : Nat))
  | 's' => some (s.number ' ' s.width t.seconds)
  | 'p' => some (s.name t.halfOfDay)
  | 'P' => some ({ s with swapped := !(s.capitals || s.swapped) }.name t.halfOfDay)
  | 'z' => some (s.zone 0)
  | 'Z' => some (s.name "UTC")
  | 'n' => some (s.filled ['\n'])
  | 't' => some (s.filled ['\t'])
  | '%' => some (s.filled ['%'])
  | _ => none

/-- The parts that a letter abbreviates, with what stands between them. -/
def composition? : Char → Option String
  | 'F' => some "Y-m-d"
  | 'T' | 'X' => some "H:M:S"
  | 'R' => some "H:M"
  | 'r' => some "I:M:S p"
  | 'D' | 'x' => some "m/d/y"
  | 'v' => some "e-b-Y"
  | 'c' => some "a b e H:M:S Y"
  | '+' => some "a b e H:M:S Z Y"
  | _ => none

/-- What a letter stands for: one part, or several. Of a style, several parts keep only the
    capitals. -/
def letter? (t : Instant) (s : PartStyle) (c : Char) : Option (List Char) :=
  match t.part? s c with
  | some text => some text
  | none => (composition? c).map fun parts =>
      parts.toList.flatMap fun c => (t.part? { capitals := s.capitals } c).getD [c]

/-! ## Layouts -/

/-- What has been read of a part since its percent sign, which is in `read` with all that followed,
    in reverse. `inWidth` says that the last character was a digit of the width. -/
structure OpenPart where
  style : PartStyle := {}
  colons : Nat := 0
  inWidth : Bool := false
  read : List Char := ['%']

/-- The greatest width. -/
def maxWidth : Nat := 1024

/-- What stands in a layout as it is. -/
def OpenPart.literal (p : OpenPart) : List Char := p.style.filled p.read.reverse

/-- A sign or a digit of the width adds to an open part. -/
def OpenPart.add? (p : OpenPart) (c : Char) : Option OpenPart :=
  let styled (style : PartStyle) : Option OpenPart :=
    some { p with style, inWidth := false, read := c :: p.read }
  let s := p.style
  if c.isDigit && (p.inWidth || c ≠ '0') then
    let before := if p.inWidth then s.width else 0
    let width := min maxWidth (10 * before + (c.toNat - '0'.toNat))
    let padding := if s.padding = .nothing then .spaces else s.padding
    some { p with style := { s with width, padding }, inWidth := true, read := c :: p.read }
  else match c with
    | '0' => styled { s with padding := .zeros }
    | '-' => styled { s with padding := .nothing }
    | '_' => styled { s with padding := .spaces }
    | '^' => styled { s with capitals := true }
    | '#' => styled { s with swapped := true }
    | _ => none

/-- Fills in a layout. Colons may only stand before the letter of the zone, and no more than
    three. -/
def fill (t : Instant) : List Char → Option OpenPart → List Char
  | [], none => []
  | [], some p => p.literal
  | c :: cs, none => if c = '%' then fill t cs (some {}) else c :: fill t cs none
  | c :: cs, some p =>
    let p' := { p with read := c :: p.read }
    if c = ':' then fill t cs (some { p' with colons := p.colons + 1, inWidth := false })
    else if 0 < p.colons then
      if c = 'z' then
        (if p.colons ≤ 3 then p.style.zone p.colons else p'.literal) ++ fill t cs none
      else p.literal ++ (if c = '%' then fill t cs (some {}) else c :: fill t cs none)
    else match p.add? c with
      | some p => fill t cs (some p)
      | none =>
        match t.letter? p.style c with
        | some text => text ++ fill t cs none
        | none =>
          { p with style := { p.style with width := p.style.width - 1 } }.literal
            ++ c :: fill t cs none

/-- The time in a layout. -/
def format (t : Instant) (layout : String) : String := String.ofList (fill t layout.toList none)

end Instant

end InlinePlan.Log
