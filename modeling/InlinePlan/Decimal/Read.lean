import InlinePlan.Decimal.Integer

set_option autoImplicit false

/-! # Reading floating-point numbers

A floating-point text is a decimal number with an optional exponent, a hexadecimal one with a
binary exponent, an infinity or a NaN. Underscores may stand between digits. Reading keeps the exact
value as a mantissa and a power of two or ten; whether it overflows a binary format is decided in
exact arithmetic. -/

namespace InlinePlan.Decimal

/-- The exact meaning of a floating-point text. A `finite` one is `± mantissa * base ^ exponent`. -/
inductive Real where
  | nan
  | infinite (negative : Bool)
  | finite (negative : Bool) (mantissa base : Nat) (exponent : Int)
  deriving Repr, DecidableEq

/-- The digits of a mantissa so far. -/
structure Mantissa where
  value : Nat := 0
  fraction : Nat := 0
  dot : Bool := false
  digits : Bool := false
  deriving Repr

/-- Reads the digits and the point of a mantissa in base 10 or 16. -/
def readMantissa (base : Nat) : List Char → Mantissa → Mantissa × List Char
  | [], m => (m, [])
  | c :: cs, m =>
    if c = '_' then readMantissa base cs m
    else if c = '.' then
      if m.dot then (m, c :: cs) else readMantissa base cs { m with dot := true }
    else match digitValue? c with
      | some d =>
        if d < base then
          readMantissa base cs
            { m with value := m.value * base + d, digits := true,
                     fraction := if m.dot then m.fraction + 1 else m.fraction }
        else (m, c :: cs)
      | none => (m, c :: cs)

/-- Reads the digits of an exponent, which saturates once it has five digits. -/
def readExponent : List Char → (acc : Nat) → Nat × List Char
  | [], acc => (acc, [])
  | c :: cs, acc =>
    if c = '_' then readExponent cs acc
    else match digitValue? c with
      | some d =>
        if d < 10 then readExponent cs (if acc < 10000 then acc * 10 + d else acc)
        else (acc, c :: cs)
      | none => (acc, c :: cs)

/-- The exponent after its mark: a sign and at least one digit; it must end the text. -/
def readExponentPart? (cs : List Char) : Option Int :=
  match splitSign cs with
  | (negative, d :: ds) =>
    if d.isDigit then
      match readExponent (d :: ds) 0 with
      | (e, []) => some (if negative then -(e : Int) else e)
      | _ => none
    else none
  | _ => none

/-- The infinities and NaN, in any case of letters. -/
def readSpecial? (cs : List Char) : Option Real :=
  let (negative, rest) := splitSign cs
  let word := String.ofList (rest.map lowerAscii)
  if word = "inf" ∨ word = "infinity" then some (.infinite negative)
  else if String.ofList (cs.map lowerAscii) = "nan" then some .nan
  else none

/-- Reads a number with mantissa digits in `base` and an exponent that counts powers of `radix`. -/
def readFinite? (negative : Bool) (base radix perDigit : Nat) (mark : Char) (needsMark : Bool)
    (cs : List Char) : Option Real :=
  let (m, rest) := readMantissa base cs {}
  let shift : Int := -((m.fraction * perDigit : Nat) : Int)
  if !m.digits then none
  else match rest with
    | [] => if needsMark then none else some (.finite negative m.value radix shift)
    | c :: cs =>
      if lowerAscii c = mark then
        (readExponentPart? cs).map fun e => .finite negative m.value radix (shift + e)
      else none

/-- Reads a floating-point text. -/
def readReal? (cs : List Char) : Option Real :=
  match readSpecial? cs with
  | some r => some r
  | none =>
    if cs.contains '_' && !wellSpaced cs then none
    else match splitSign cs with
      | (negative, '0' :: x :: c :: rest) =>
        if lowerAscii x = 'x' then readFinite? negative 16 2 4 'p' true (c :: rest)
        else readFinite? negative 10 10 1 'e' false ('0' :: x :: c :: rest)
      | (negative, rest) => readFinite? negative 10 10 1 'e' false rest

/-! ## Binary formats -/

/-- A binary floating-point format by its precision and its largest exponent. -/
structure BinaryFormat where
  precision : Nat
  maxExponent : Nat

def binary32 : BinaryFormat := ⟨24, 128⟩

def binary64 : BinaryFormat := ⟨53, 1024⟩

/-- The least magnitude that rounds to infinity: half a unit above the largest finite number. -/
def BinaryFormat.overflowBound (f : BinaryFormat) : Nat :=
  Nat.pow 2 f.maxExponent - Nat.pow 2 (f.maxExponent - f.precision - 1)

/-- Whether a number rounds to an infinity although its text is finite. -/
def Real.overflows (f : BinaryFormat) : Real → Bool
  | .finite _ m base e =>
    if 0 ≤ e then f.overflowBound ≤ m * Nat.pow base e.toNat
    else f.overflowBound * Nat.pow base (-e).toNat ≤ m
  | _ => false

/-- The number nearest to a real. -/
def Real.toFloat : Real → Float
  | .nan => 0.0 / 0.0
  | .infinite negative => if negative then -(1.0 / 0.0) else 1.0 / 0.0
  | .finite negative m base e =>
    let x :=
      if base = 10 then Float.ofScientific m (e < 0) e.natAbs
      else Float.scaleB (Float.ofNat m) e
    if negative then -x else x

/-- Whether a text is a number of the format: well formed and not too large. -/
def isNumber (f : BinaryFormat) (cs : List Char) : Bool :=
  match readReal? cs with
  | some r => !r.overflows f
  | none => false

end InlinePlan.Decimal
