import InlinePlan.Decimal.Read

set_option autoImplicit false

/-! # Fixed decimal places

A binary floating-point number is exactly `± m * 2 ^ q`. Writing it with a fixed number of places
rounds that exact value, so the only question is the tie: a half goes to the even neighbour. -/

namespace InlinePlan.Decimal

/-- The exact value of a floating-point number. -/
def Real.ofFloat (x : Float) : Real :=
  let bits := x.toBits.toNat
  let negative := bits / Nat.pow 2 63 == 1
  let exponent : Nat := bits / Nat.pow 2 52 % Nat.pow 2 11
  let fraction := bits % Nat.pow 2 52
  if exponent = 2047 then if fraction = 0 then .infinite negative else .nan
  else if exponent = 0 then .finite negative fraction 2 (-1074)
  else .finite negative (Nat.pow 2 52 + fraction) 2 ((exponent : Int) - 1075)

/-- The integer nearest to `n / d`, the even one if two are. -/
def roundDiv (n d : Nat) : Nat :=
  let q := n / d
  let r := n % d
  if 2 * r < d then q else if d < 2 * r then q + 1 else if q % 2 = 0 then q else q + 1

/-- Numerator and denominator of `m * base ^ e`. -/
def fraction (m base : Nat) (e : Int) : Nat × Nat :=
  if 0 ≤ e then (m * Nat.pow base e.toNat, 1) else (m, Nat.pow base (-e).toNat)

/-- A count of units of `10 ^ (-places)` with a decimal point. -/
def placePoint (places units : Nat) : String :=
  let digits := (toString units).toList
  let padded := List.replicate (places + 1 - digits.length) '0' ++ digits
  let whole := padded.length - places
  String.ofList (padded.take whole)
    ++ (if places = 0 then "" else "." ++ String.ofList (padded.drop whole))

/-- A number with a fixed number of places. Zero keeps its sign. -/
def Real.fixed (places : Nat) : Real → String
  | .nan => "NaN"
  | .infinite negative => if negative then "-Inf" else "+Inf"
  | .finite negative m base e =>
    let (n, d) := fraction m base e
    (if negative then "-" else "") ++ placePoint places (roundDiv (n * Nat.pow 10 places) d)

/-! ## The nearest integer -/

/-- Rounding moves a quotient by at most half a unit. -/
theorem roundDiv_near (n d : Nat) (hd : 0 < d) :
    2 * (roundDiv n d * d) ≤ 2 * n + d ∧ 2 * n ≤ 2 * (roundDiv n d * d) + d := by
  have hn : n / d * d + n % d = n := Nat.div_add_mod' n d
  have hr : n % d < d := Nat.mod_lt n hd
  have hs : (n / d + 1) * d = n / d * d + d := by rw [Nat.add_mul, Nat.one_mul]
  unfold roundDiv
  dsimp only
  split
  · omega
  · split
    · rw [hs]; omega
    · split
      · omega
      · rw [hs]; omega

end InlinePlan.Decimal
