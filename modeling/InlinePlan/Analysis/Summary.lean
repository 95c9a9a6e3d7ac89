import InlinePlan.Analysis.Value
import InlinePlan.Bytecode.Method
import InlinePlan.Bytecode.Opcode

set_option autoImplicit false

/-! # Summaries

A predicate says: the named operation on an argument of the method would fold if the argument were
known to satisfy a fact. The summary of a method lists its predicates in the order in which the
analysis met them. -/

namespace InlinePlan

/-- Answers whether the first class is assignable to the second. -/
abbrev SubtypeOracle := String → String → Tristate

/-- The operation that a predicate could fold away. -/
inductive FoldKind where
  | zero (c : Cond)
  | null (isNull : Bool)
  | nullCheck
  | instanceOf
  | checkCast
  deriving Repr, DecidableEq

namespace FoldKind

/-- All kinds, by code. -/
def all : List FoldKind :=
  [.zero .eq, .zero .ne, .zero .ge, .zero .gt, .zero .le, .zero .lt, .null true, .null false,
    .nullCheck, .instanceOf, .checkCast]

def name : FoldKind → String
  | .zero .eq => "ifeq"
  | .zero .ne => "ifne"
  | .zero .ge => "ifge"
  | .zero .gt => "ifgt"
  | .zero .le => "ifle"
  | .zero .lt => "iflt"
  | .null true => "ifnull"
  | .null false => "ifnonnull"
  | .nullCheck => "nullcheck"
  | .instanceOf => "instanceof"
  | .checkCast => "checkcast"

def ofName? (name : String) : Option FoldKind := all.find? (·.name = name)

/-- Whether the operation compares an integer with zero. -/
def isOrdering : FoldKind → Bool
  | .zero _ => true
  | _ => false

end FoldKind

/-- The operation `fold` on argument `param` folds if the argument satisfies `required`. -/
structure Predicate where
  param : Int
  fold : FoldKind
  required : Option Fact
  deriving Repr, DecidableEq

namespace Predicate

def text (p : Predicate) : String :=
  "arg" ++ toString p.param ++ " " ++ p.fold.name ++ " " ++ Fact.textOf p.required

/-- Whether an argument with fact `f` decides a type test that requires fact `r`. -/
def typeTestHolds (oracle : Option SubtypeOracle) (r f : Fact) : Bool :=
  if !f.isNonNull then false
  else if r.cls = "" ∨ r.cls = f.cls then true
  else match oracle with
    | none => false
    | some isSubtype => f.cls ≠ "" && isSubtype f.cls r.cls == .yes

/-- Whether an argument makes the operation fold. Of an argument without a fact nothing folds. -/
def holds (oracle : Option SubtypeOracle) (p : Predicate) (arg : Value) : Bool :=
  match arg.fact, p.required with
  | some f, some r =>
    if p.fold.isOrdering then r.contains f
    else if r.kind = .null then f.kind = .null
    else match p.fold with
      | .instanceOf | .checkCast => typeTestHolds oracle r f
      | _ => r.nonNull && f.isNonNull
  | _, _ => false

/-! ## What the analysis records -/

/-- The outcomes of comparing argument `k` with zero: each range decides the branch. -/
def branch (k : Nat) (c : Cond) : List Predicate :=
  let ranges : List Fact :=
    match c with
    | .eq | .ne => [.const 0, .range minInt32 (-1), .range 1 maxInt32]
    | .lt | .ge => [.range minInt32 (-1), .range 0 maxInt32]
    | .gt | .le => [.range minInt32 0, .range 1 maxInt32]
  ranges.map fun f => ⟨k, .zero c, some f⟩

/-- Both outcomes of comparing argument `k` with null. -/
def nullTest (k : Nat) (isNull : Bool) : List Predicate :=
  [⟨k, .null isNull, some .null⟩, ⟨k, .null isNull, some (.nonNullObject "")⟩]

/-- The implicit null check of argument `k`. -/
def nullCheck (k : Nat) : List Predicate := [⟨k, .nullCheck, some (.nonNullObject "")⟩]

/-- A type test of argument `k`: an instance of the class decides it, and so does null. -/
def typeTest (k : Nat) (fold : FoldKind) (cls : String) : List Predicate :=
  [⟨k, fold, some (.nonNullObject cls)⟩, ⟨k, fold, some .null⟩]

end Predicate

/-- The predicates of one method. -/
structure Summary where
  method : MethodId
  predicates : List Predicate
  deriving Repr, DecidableEq

namespace Summary

def length (s : Summary) : Nat := s.predicates.length

/-- The predicates on one argument. -/
def forParam (s : Summary) (k : Int) : List Predicate := s.predicates.filter (·.param = k)

def text (s : Summary) : String :=
  s.method ++ ":" ++ String.join (s.predicates.map fun p => "\n  " ++ p.text)

/-- The text of a summary that may be missing. -/
def textOf : Option Summary → String
  | some s => s.text
  | none => "<no summary>"

end Summary

end InlinePlan
