set_option autoImplicit false

/-! # Ranges of characters -/

namespace InlinePlan.Text

/-- Ranges of code points, both ends included. -/
abbrev Ranges := List (Nat × Nat)

def Ranges.contains (rs : Ranges) (n : Nat) : Bool := rs.any fun (lo, hi) => lo ≤ n && n ≤ hi

end InlinePlan.Text
