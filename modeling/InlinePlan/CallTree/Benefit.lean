import InlinePlan.Analysis.Arithmetic
import InlinePlan.Analysis.Summary

set_option autoImplicit false

/-! # Static benefit of a call -/

namespace InlinePlan

/-- The predicates of a summary that hold for the arguments of a call. One on an argument that the
    call does not have never holds. -/
def Summary.satisfied (oracle : Option SubtypeOracle) (s : Summary) (args : List Value) :
    List Predicate :=
  s.predicates.filter fun p =>
    0 ≤ p.param && (args[p.param.toNat]?).any fun arg => p.holds oracle arg

/-- The weight of one predicate times the number of those that hold, as a 64-bit integer. -/
def staticBenefit (oracle : Option SubtypeOracle) (weight : Int) (s : Option Summary)
    (args : List Value) : Int :=
  match s with
  | none => 0
  | some s => wrap 64 (weight * (s.satisfied oracle args).length)

end InlinePlan
