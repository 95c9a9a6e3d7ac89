import InlinePlan.Text.Quoted

set_option autoImplicit false

/-! # Facts

A fact narrows the set of values that a slot can hold: an integer interval, the null reference, an
instance of a class, an array with a bounded length, or a constant string. No fact at all (`none`)
means any value. Joining two facts forgets what they do not share. -/

namespace InlinePlan

/-- What a fact speaks about. An `unknown` kind has no meaning here and joins only with itself. -/
inductive FactKind where
  | range
  | null
  | object
  | array
  | string
  | unknown (code : Nat)
  deriving Repr, DecidableEq

namespace FactKind

def ofCode : Nat → FactKind
  | 1 => .range
  | 2 => .null
  | 3 => .object
  | 4 => .array
  | 5 => .string
  | n => .unknown n

def name : FactKind → String
  | .range => "range"
  | .null => "null"
  | .object => "object"
  | .array => "array"
  | .string => "string"
  | .unknown _ => "unknown"

end FactKind

/-- The class of constant strings. -/
def stringClass : String := "java/lang/String"

/-- The class of class constants. -/
def classClass : String := "java/lang/Class"

/-- The root of the class hierarchy. -/
def objectClass : String := "java/lang/Object"

def minInt32 : Int := -2147483648

def maxInt32 : Int := 2147483647

/-- A fact. `lo` and `hi` bound an integer or the length of an array; `cls` names the class or the
    array type, `exact` excludes its subclasses, `nonNull` excludes null; `str` is the constant. The
    constructors below set the fields that the kind uses and leave the others empty. -/
structure Fact where
  kind : FactKind
  lo : Int := 0
  hi : Int := 0
  cls : String := ""
  exact : Bool := false
  nonNull : Bool := false
  str : List UInt8 := []
  deriving Repr, DecidableEq

namespace Fact

/-! ## Construction -/

/-- One integer. -/
def const (v : Int) : Fact := { kind := .range, lo := v, hi := v }

/-- The integers between two bounds, given in any order. -/
def range (a b : Int) : Fact := { kind := .range, lo := min a b, hi := max a b }

/-- The null reference. -/
def null : Fact := { kind := .null }

/-- A non-null instance of a class; of any class if the name is empty. -/
def nonNullObject (cls : String) : Fact := { kind := .object, cls, nonNull := true }

/-- A non-null instance of exactly this class. -/
def exactObject (cls : String) : Fact := { kind := .object, cls, exact := true, nonNull := true }

/-- An instance of a class, or null unless `nonNull`. -/
def object (cls : String) (nonNull : Bool) : Fact := { kind := .object, cls, nonNull }

/-- A non-null array whose length lies between two bounds, clamped to the lengths arrays have. -/
def array (desc : String) (lo hi : Int) : Fact :=
  let least := min (max lo 0) maxInt32
  { kind := .array, cls := desc, lo := least, hi := min (max hi least) maxInt32, nonNull := true }

/-- A constant string. -/
def string (s : List UInt8) : Fact :=
  { kind := .string, cls := stringClass, str := s, exact := true, nonNull := true }

/-! ## Questions -/

/-- The integer, if the fact leaves only one. -/
def const? (f : Fact) : Option Int :=
  if f.kind = .range ∧ f.lo = f.hi then some f.lo else none

/-- Whether the fact excludes null. -/
def isNonNull (f : Fact) : Bool :=
  f.kind ≠ .null && f.kind ≠ .range && f.nonNull

/-- Whether every integer of `g` is one of `f`. -/
def contains (f g : Fact) : Bool :=
  f.kind = .range && g.kind = .range && f.lo ≤ g.lo && g.hi ≤ f.hi

/-! ## Join -/

/-- A constant string seen as an object of its class. -/
def asObject (f : Fact) : Fact :=
  if f.kind = .string then exactObject stringClass else f

/-- The join of two different facts that are no strings. -/
def joinPlain (f g : Fact) : Option Fact :=
  if f.kind ≠ g.kind then none
  else match f.kind with
    | .range => some (range (min f.lo g.lo) (max f.hi g.hi))
    | .null => some f
    | .object =>
      if f.cls ≠ g.cls ∨ f.nonNull ≠ g.nonNull then none
      else if f.exact = g.exact then some f
      else some (object f.cls f.nonNull)
    | .array =>
      if f.cls ≠ g.cls then none
      else some (array f.cls (min f.lo g.lo) (max f.hi g.hi))
    | .string | .unknown _ => none

/-- The least fact that both imply, if there is one. -/
def join (f g : Fact) : Option Fact :=
  if f = g then some f
  else if f.kind = .string ∧ g.kind = .string then some (exactObject stringClass)
  else joinPlain f.asObject g.asObject

/-- Joins facts that may be missing. -/
def join? : Option Fact → Option Fact → Option Fact
  | some f, some g => join f g
  | _, _ => none

/-! ## Text -/

def text (f : Fact) : String :=
  match f.kind with
  | .range =>
    if f.lo = f.hi then "const(" ++ toString f.lo ++ ")"
    else "range[" ++ toString f.lo ++ "," ++ toString f.hi ++ "]"
  | .null => "null"
  | .object =>
    "object" ++ (if f.cls = "" then "" else "(" ++ f.cls ++ ")")
      ++ (if f.exact then "!exact" else "") ++ (if f.nonNull then "!nonnull" else "")
  | .array =>
    "array(" ++ f.cls ++ ",len[" ++ toString f.lo ++ "," ++ toString f.hi ++ "])"
  | .string => "string(" ++ String.ofList (Text.quoteBytes f.str) ++ ")"
  | .unknown _ => "?"

/-- The text of a fact that may be missing. -/
def textOf : Option Fact → String
  | some f => f.text
  | none => "top"

end Fact

end InlinePlan
