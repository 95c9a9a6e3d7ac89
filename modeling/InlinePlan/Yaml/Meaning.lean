import InlinePlan.Decimal.Read
import InlinePlan.Text.Base64
import InlinePlan.Text.Utf8
import InlinePlan.Yaml.Node
import InlinePlan.Yaml.Timestamp

set_option autoImplicit false

/-! # What scalars mean

A plain scalar is null, a truth value, a number or a text; a quoted one is a text. A tag says which
of these a scalar has to be, quoted or not. -/

namespace InlinePlan.Yaml

inductive Meaning where
  | null
  | bool (b : Bool)
  | int (n : Int)
  | float (x : Float)
  | text (cs : List Char)
  deriving BEq

/-! ## Plain scalars -/

/-- An integer, signed or up to 64 bits without a sign. -/
def resolveInt? (cs : List Char) : Option Int :=
  match Decimal.readMarkedInt 64 cs with
  | .ok n => some n
  | .error _ =>
    match Decimal.readMarkedMagnitude (Nat.pow 2 64) cs cs with
    | .ok n => some n
    | .error _ => none

/-- An integer whose sign stands behind the marker of base two or eight. -/
def resolveInnerSign? : List Char → Option Int
  | '0' :: m :: cs =>
    if m = 'b' || m = 'o' then
      let (negative, digits) := Decimal.splitSign cs
      if digits.isEmpty then none
      else
        let read := Decimal.readMagnitude (if m = 'b' then 2 else 8) (Nat.pow 2 64) false digits 0
        (read.bind (Decimal.signed 64 negative)).toOption
    else none
  | _ => none

/-- A floating-point number that does not overflow. -/
def resolveReal? (cs : List Char) : Option Float :=
  (Decimal.readReal? cs).bind fun r =>
    if r.overflows Decimal.binary64 then none else some r.toFloat

/-- A decimal floating-point number. -/
def resolveFloat? (cs : List Char) : Option Float :=
  if cs.all fun c => c.isDigit || "+-.eE".toList.contains c then resolveReal? cs else none

/-- The words with a meaning of their own. -/
def resolveWord? (word : String) : Option Meaning :=
  if ["", "~", "null", "Null", "NULL"].contains word then some .null
  else if ["true", "True", "TRUE"].contains word then some (.bool true)
  else if ["false", "False", "FALSE"].contains word then some (.bool false)
  else if [".nan", ".NaN", ".NAN"].contains word then some (.float (0.0 / 0.0))
  else if [".inf", ".Inf", ".INF", "+.inf", "+.Inf", "+.INF"].contains word then
    some (.float (1.0 / 0.0))
  else if ["-.inf", "-.Inf", "-.INF"].contains word then some (.float (-(1.0 / 0.0)))
  else none

/-- A number that starts with a digit or a sign; underscores are dropped. -/
def resolveNumber? (cs : List Char) : Option Meaning :=
  let digits := cs.filter (· ≠ '_')
  (resolveInt? digits).map .int <|> (resolveFloat? digits).map .float
    <|> (resolveInnerSign? digits).map .int

/-- The meaning of a plain scalar. -/
def resolve (cs : List Char) : Meaning :=
  match resolveWord? (String.ofList cs) with
  | some found => found
  | none =>
    let first := cs.head?
    if first = some '.' then ((resolveReal? cs).map .float).getD (.text cs)
    else if first.any fun c => c.isDigit || c = '+' || c = '-' then
      (resolveNumber? cs).getD (.text cs)
    else .text cs

/-! ## Tags -/

/-- The text that bytes encode; a byte that belongs to no character becomes the replacement
    character. -/
def textOfBytes (bs : List UInt8) : List Char :=
  (Text.pieces bs).map fun
    | .char c => c
    | .stray _ => '\ufffd'

/-- The integers of 64 bits go up to here. -/
def maxInt : Int := 9223372036854775807

/-- The floating-point number nearest to an integer. -/
def floatOfInt (n : Int) : Float := Decimal.Real.toFloat (.finite (n < 0) n.natAbs 10 0)

/-- The meaning of a scalar under a tag; `none` if it is not what the tag says. -/
def Tag.read? (tag : Tag) (cs : List Char) : Option Meaning :=
  match tag with
  | .text | .merge | .other => some (.text cs)
  | .bytes => (Text.readBase64? cs).map fun bs => .text (textOfBytes bs)
  | .timestamp => if isTimestamp cs then some (.text cs) else none
  | .null =>
    match resolve cs with
    | .null => some .null
    | _ => none
  | .bool =>
    match resolve cs with
    | .bool b => some (.bool b)
    | _ => none
  | .int =>
    match resolve cs with
    | .int n => some (.int n)
    | _ => none
  | .float =>
    match resolve cs with
    | .float x => some (.float x)
    | .int n => if n ≤ maxInt then some (.float (floatOfInt n)) else none
    | _ => none

/-- The meaning of a scalar; `none` if it does not fit its tag. -/
def meaning? (cs : List Char) (quoted : Bool) (tag : Option Tag) : Option Meaning :=
  match tag with
  | some t => t.read? cs
  | none => some (if quoted then .text cs else resolve cs)

end InlinePlan.Yaml
