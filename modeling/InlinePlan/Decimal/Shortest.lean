import InlinePlan.Decimal.Fixed

set_option autoImplicit false

/-! # Shortest decimals

The shortest text of a binary floating-point number has the fewest digits that still read back as
that number, and among those it is the nearest. The reals that read back as `m * 2 ^ q` lie between
the midpoints to its two neighbours; a midpoint itself reads back iff `m` is even. For each number
of digits only the two grid points around the value need to be tried. -/

namespace InlinePlan.Decimal

/-- The reals that read back as one number: `low / den` to `high / den`, with its value
    `value / den` between them. -/
structure Cell where
  low : Nat
  value : Nat
  high : Nat
  den : Nat
  closed : Bool
  deriving Repr

/-- The cell of `m * 2 ^ q`. Below a power of two the neighbour is only half as far away. -/
def Cell.of (m : Nat) (q : Int) : Cell :=
  let near := m = Nat.pow 2 52 ∧ -1074 < q
  let (unit, den) := fraction 1 2 (q - 2)
  { low := (4 * m - (if near then 1 else 2)) * unit
    value := 4 * m * unit
    high := (4 * m + 2) * unit
    den
    closed := m % 2 = 0 }

/-- Whether `n / d` lies in a cell. -/
def Cell.contains (c : Cell) (n d : Nat) : Bool :=
  if c.closed then c.low * d ≤ n * c.den && n * c.den ≤ c.high * d
  else c.low * d < n * c.den && n * c.den < c.high * d

/-- The number of zeros between the point and the first digit of `n / d`, a positive number below
    one, up to a bound. -/
def leadingZeros (n d : Nat) : (bound : Nat) → Nat
  | 0 => 0
  | bound + 1 => if d ≤ 10 * n then 0 else leadingZeros (10 * n) d bound + 1

/-- The `p` with `10 ^ (p - 1) ≤ n / d < 10 ^ p`. -/
def pointOf (n d : Nat) : Int :=
  if d ≤ n then (toString (n / d)).length else -(leadingZeros n d 400 : Int)

/-- The number `coefficient * 10 ^ exponent`. -/
structure Scientific where
  coefficient : Nat
  exponent : Int
  deriving Repr, DecidableEq

/-- Moves zeros at the end of the coefficient to the exponent. -/
def Scientific.trim : (bound : Nat) → Scientific → Scientific
  | 0, s => s
  | bound + 1, s =>
    if s.coefficient ≠ 0 ∧ s.coefficient % 10 = 0 then
      trim bound { coefficient := s.coefficient / 10, exponent := s.exponent + 1 }
    else s

/-- The point of a cell on the grid of multiples of `10 ^ e` that is nearest to its value, if the
    cell has one next to its value. -/
def Cell.onGrid? (c : Cell) (e : Int) : Option Scientific :=
  let (unit, den) := fraction 1 10 e
  let below := c.value * den / (c.den * unit)
  let isIn (k : Nat) : Bool := c.contains (k * unit) den
  let nearest := roundDiv (c.value * den) (c.den * unit)
  if isIn nearest then some ⟨nearest, e⟩
  else if isIn below then some ⟨below, e⟩
  else if isIn (below + 1) then some ⟨below + 1, e⟩
  else none

/-- The first grid from `digits` digits on that has a point in the cell. -/
def Cell.shortestFrom (c : Cell) (point : Int) : (digits more : Nat) → Scientific
  | digits, 0 => (c.onGrid? (point - digits)).getD ⟨roundDiv c.value c.den, 0⟩
  | digits, more + 1 =>
    match c.onGrid? (point - digits) with
    | some s => s
    | none => c.shortestFrom point (digits + 1) more

/-- The shortest decimal that reads back as `m * 2 ^ q`. Seventeen digits always suffice. -/
def shortest (m : Nat) (q : Int) : Scientific :=
  if m = 0 then ⟨0, 0⟩
  else
    let c := Cell.of m q
    (c.shortestFrom (pointOf c.value c.den) 1 16).trim 20

/-! ## Texts -/

/-- How floating-point numbers are written: from which decimal exponents on with a power of ten, and
    the words for the numbers that have no digits. -/
structure FloatStyle where
  least : Int := -4
  most : Int := 6
  nan : String := "NaN"
  positiveInfinity : String := "+Inf"
  negativeInfinity : String := "-Inf"

/-- A decimal exponent with its sign and at least two digits. -/
def exponentText (e : Int) : String :=
  let digits := toString e.natAbs
  (if e < 0 then "-" else "+") ++ (if digits.length < 2 then "0" else "") ++ digits

/-- One digit, the others behind the point, and the exponent. -/
def Scientific.exponential (s : Scientific) : String :=
  let digits := (toString s.coefficient).toList
  let e := s.exponent + digits.length - 1
  String.ofList (digits.take 1)
    ++ (if digits.length ≤ 1 then "" else "." ++ String.ofList (digits.drop 1))
    ++ "e" ++ exponentText e

/-- All digits, with zeros where the point is not among them. -/
def Scientific.positional (s : Scientific) : String :=
  if 0 ≤ s.exponent then toString (s.coefficient * Nat.pow 10 s.exponent.toNat)
  else placePoint (-s.exponent).toNat s.coefficient

/-- The decimal exponent of the first digit. -/
def Scientific.magnitude (s : Scientific) : Int :=
  s.exponent + (toString s.coefficient).length - 1

def Scientific.text (style : FloatStyle) (s : Scientific) : String :=
  if s.coefficient ≠ 0 ∧ (s.magnitude < style.least ∨ style.most ≤ s.magnitude) then s.exponential
  else s.positional

/-- The shortest text of a floating-point number. -/
def floatText (style : FloatStyle) (x : Float) : String :=
  match Real.ofFloat x with
  | .nan => style.nan
  | .infinite negative => if negative then style.negativeInfinity else style.positiveInfinity
  | .finite negative m _ q => (if negative then "-" else "") ++ (shortest m q).text style

end InlinePlan.Decimal
