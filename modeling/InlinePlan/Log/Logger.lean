import InlinePlan.Log.TimeLayout
import InlinePlan.Text.CaseFold
import InlinePlan.Text.Quoted

set_option autoImplicit false

/-! # Log lines

A line has a level, a time, a message and named fields. Fields are written in the order of their
names. A logger holds the fields that all of its lines share and drops lines above its level. -/

namespace InlinePlan.Log

/-- How serious a line is. -/
inductive Level where
  | error
  | warn
  | info
  | debug
  deriving Repr, DecidableEq

namespace Level

/-- All levels, by code. -/
def all : List Level := [.error, .warn, .info, .debug]

def name : Level → String
  | .error => "ERROR"
  | .warn => "WARN"
  | .info => "INFO"
  | .debug => "DEBUG"

/-- The more detailed a level, the higher its rank. -/
def rank : Level → Nat
  | .error => 0
  | .warn => 1
  | .info => 2
  | .debug => 3

/-- The level with a name in any case; a name that is not known means warnings. -/
def ofName (name : String) : Level :=
  match Text.capitals name with
  | "ERROR" => .error
  | "INFO" => .info
  | "DEBUG" => .debug
  | _ => .warn

/-- The colour of a level, as a terminal's colour code. -/
def color : Level → Nat
  | .error => 31
  | .warn => 33
  | .info => 36
  | .debug => 90

end Level

/-- The value of a field. A text is quoted if it has blanks or control characters; everything else
    is written as it is. -/
inductive FieldValue where
  | text (s : String)
  | verbatim (s : String)
  deriving Repr, DecidableEq

namespace FieldValue

def int (n : Int) : FieldValue := .verbatim (toString n)

def bool (b : Bool) : FieldValue := .verbatim (if b then "true" else "false")

def null : FieldValue := .verbatim "<nil>"

def written : FieldValue → String
  | .text s => if s.toList.any (· ≤ ' ') then Text.quote s else s
  | .verbatim s => s

end FieldValue

/-- Named values, by increasing name. -/
abbrev Fields := List (String × FieldValue)

namespace Fields

/-- Sets a field. -/
def set (name : String) (value : FieldValue) : Fields → Fields
  | [] => [(name, value)]
  | (n, v) :: fs =>
    if name < n then (name, value) :: (n, v) :: fs
    else if name = n then (name, value) :: fs
    else (n, v) :: set name value fs

/-- Sets several fields. -/
def setAll (fs : Fields) (more : List (String × FieldValue)) : Fields :=
  more.foldl (fun acc (n, v) => acc.set n v) fs

def text (fs : Fields) : String :=
  String.join (fs.map fun (n, v) => " " ++ n ++ "=" ++ v.written)

end Fields

/-- What a line says. -/
structure Entry where
  level : Level
  message : String
  fields : List (String × FieldValue) := []
  deriving Repr, DecidableEq

/-- How lines look. An empty layout leaves the time out. -/
structure LineStyle where
  layout : String := "%Y-%m-%dT%H:%M:%S.%f%z"
  colored : Bool := false
  deriving Repr, DecidableEq

/-- The level in brackets. -/
def LineStyle.tag (style : LineStyle) (level : Level) : String :=
  let tag := "[" ++ level.name ++ "]"
  if style.colored then "\x1b[" ++ toString level.color ++ "m" ++ tag ++ "\x1b[0m" else tag

/-- A logger. One without a threshold writes nothing. -/
structure Logger where
  threshold : Option Level
  style : LineStyle := {}
  fields : Fields := []

namespace Logger

/-- A logger for a level name; without a name it writes nothing. -/
def ofLevelName (name : String) : Logger :=
  { threshold := if name = "" then none else some (Level.ofName name) }

/-- A logger whose lines have more fields. -/
def withFields (l : Logger) (fields : List (String × FieldValue)) : Logger :=
  { l with fields := l.fields.setAll fields }

/-- The line of an entry at a time, or nothing. -/
def line (l : Logger) (now : Instant) (e : Entry) : String :=
  if l.threshold.any fun t => e.level.rank ≤ t.rank then
    l.style.tag e.level ++ " "
      ++ (if l.style.layout = "" then "" else now.format l.style.layout ++ " ")
      ++ e.message ++ (l.fields.setAll e.fields).text ++ "\n"
  else ""

end Logger

end InlinePlan.Log
