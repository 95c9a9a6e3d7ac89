set_option autoImplicit false

/-! # Ratios and benefits

Call ratios and benefits are floating-point numbers when the program runs. What is chosen from them
needs only a few operations, which exact rationals have too, so trees and plans are built over any
type that has these. -/

namespace InlinePlan

/-- Numbers that ratios and benefits can be. -/
class Scale (R : Type) where
  zero : R
  one : R
  add : R → R → R
  mul : R → R → R
  ofInt : Int → R
  lt : R → R → Bool
  same : R → R → Bool

instance : Scale Float where
  zero := 0
  one := 1
  add := (· + ·)
  mul := (· * ·)
  ofInt := Float.ofInt
  lt x y := x < y
  same := (· == ·)

instance : Scale Rat where
  zero := 0
  one := 1
  add := (· + ·)
  mul := (· * ·)
  ofInt := Rat.ofInt
  lt x y := x < y
  same := (· == ·)

end InlinePlan
