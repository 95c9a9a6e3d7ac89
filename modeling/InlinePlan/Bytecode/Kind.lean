set_option autoImplicit false

/-! # Kinds of slots

A local variable or an operand takes one slot, or two for the 64-bit types. `Category` is the
category of a declared type; `Kind` is what a slot can hold. -/

namespace InlinePlan

/-- The computational category of a declared type. -/
inductive Category where
  | void
  | int
  | long
  | float
  | double
  | ref
  deriving Repr, DecidableEq

namespace Category

def ofCode? : Nat → Option Category
  | 0 => some .void
  | 1 => some .int
  | 2 => some .long
  | 3 => some .float
  | 4 => some .double
  | 5 => some .ref
  | _ => none

def name : Category → String
  | .void => "void"
  | .int => "int"
  | .long => "long"
  | .float => "float"
  | .double => "double"
  | .ref => "ref"

/-- The number of slots a value of this category takes. -/
def slots : Category → Nat
  | .void => 0
  | .long | .double => 2
  | .int | .float | .ref => 1

end Category

/-- The primitive kind of a slot. An `untyped` slot is the second word of a 64-bit value or a local
    that cannot be read. -/
inductive Kind where
  | untyped
  | int
  | long
  | float
  | double
  | ref
  deriving Repr, DecidableEq, Inhabited

namespace Kind

def ofCode? : Nat → Option Kind
  | 0 => some .untyped
  | 1 => some .int
  | 2 => some .long
  | 3 => some .float
  | 4 => some .double
  | 5 => some .ref
  | _ => none

def name : Kind → String
  | .untyped => "untyped"
  | .int => "int"
  | .long => "long"
  | .float => "float"
  | .double => "double"
  | .ref => "ref"

/-- Whether a value of this kind takes two slots. -/
def wide : Kind → Bool
  | .long | .double => true
  | .untyped | .int | .float | .ref => false

end Kind

/-- The kind of slot that holds a value of this category. -/
def Category.kind : Category → Kind
  | .void => .untyped
  | .int => .int
  | .long => .long
  | .float => .float
  | .double => .double
  | .ref => .ref

/-- The answer to a question that the known classes may leave open. -/
inductive Tristate where
  | maybe
  | yes
  | no
  deriving Repr, DecidableEq

namespace Tristate

def ofCode? : Nat → Option Tristate
  | 0 => some .maybe
  | 1 => some .yes
  | 2 => some .no
  | _ => none

def name : Tristate → String
  | .maybe => "maybe"
  | .yes => "yes"
  | .no => "no"

end Tristate

end InlinePlan
