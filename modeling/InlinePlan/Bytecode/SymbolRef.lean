import InlinePlan.Text.Quoted

set_option autoImplicit false

/-! # Symbolic operands

What an instruction refers to by name: a class, a field, a method, or a constant that can be
loaded. -/

namespace InlinePlan

/-- The kind of a constant pool entry. -/
inductive RefKind where
  | cls
  | field
  | method
  | string
  | int
  | long
  | float
  | double
  | unknown
  deriving Repr, DecidableEq

namespace RefKind

def ofCode? : Nat → Option RefKind
  | 1 => some .cls
  | 2 => some .field
  | 3 => some .method
  | 4 => some .string
  | 5 => some .int
  | 6 => some .long
  | 7 => some .float
  | 8 => some .double
  | _ => none

def name : RefKind → String
  | .cls => "class"
  | .field => "field"
  | .method => "method"
  | .string => "string"
  | .int => "int"
  | .long => "long"
  | .float => "float"
  | .double => "double"
  | .unknown => "unknown"

/-- The kind with the given name; any other name is an unknown kind. -/
def ofName (name : String) : RefKind :=
  match name with
  | "class" => .cls
  | "field" => .field
  | "method" => .method
  | "string" => .string
  | "int" => .int
  | "long" => .long
  | "float" => .float
  | "double" => .double
  | _ => .unknown

end RefKind

/-- A constant pool entry. Of an `unresolved` one only what the pool itself says may be used. -/
structure SymbolRef where
  kind : RefKind
  cls : String := ""
  name : String := ""
  descriptor : String := ""
  str : List UInt8 := []
  unresolved : Bool := false
  deriving Repr, DecidableEq

namespace SymbolRef

/-- The text of a reference as instructions and messages show it. -/
def text (r : SymbolRef) : String :=
  match r.kind with
  | .field => r.cls ++ "." ++ r.name ++ ":" ++ r.descriptor
  | .method => r.cls ++ "." ++ r.name ++ r.descriptor
  | .string => String.ofList (Text.quoteBytes r.str)
  | .cls => r.cls
  | k => k.name

/-- The text of a reference that may be missing. -/
def textOf : Option SymbolRef → String
  | some r => r.text
  | none => "<nil>"

end SymbolRef

end InlinePlan
