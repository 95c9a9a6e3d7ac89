import InlinePlan.Analysis.Fact
import InlinePlan.Bytecode.Kind

set_option autoImplicit false

/-! # Abstract values

One slot of a frame: the padding after a 64-bit value, or a value of some kind with an optional fact
and an optional mark that says which argument of the method it is. -/

namespace InlinePlan

/-- The content of one slot. -/
inductive Value where
  | pad
  | slot (kind : Kind) (fact : Option Fact) (param : Option Nat)
  deriving Repr, DecidableEq, Inhabited

/-- Two slots that cannot be joined. -/
inductive Mismatch where
  | depths (a b : Nat)
  | kinds (a b : Kind)
  | padding (other : Value)
  deriving Repr, DecidableEq

namespace Value

/-! ## Construction -/

/-- Any value of a kind. -/
def top (k : Kind) : Value := .slot k none none

/-- A value of a kind with a fact. -/
def known (k : Kind) (f : Fact) : Value := .slot k (some f) none

def intConst (v : Int) : Value := known .int (.const v)

def longConst (v : Int) : Value := known .long (.const v)

def nullRef : Value := known .ref .null

/-- What a local holds that cannot be read. -/
def unusable : Value := .slot .untyped none none

/-- Marks a value as the argument at a position. -/
def withParam (v : Value) (position : Nat) : Value :=
  match v with
  | .pad => .pad
  | .slot k f _ => .slot k f (some position)

/-- Drops the argument mark. -/
def unmarked : Value → Value
  | .pad => .pad
  | .slot k f _ => .slot k f none

/-! ## Parts -/

def kind : Value → Kind
  | .pad => .untyped
  | .slot k _ _ => k

def fact : Value → Option Fact
  | .pad => none
  | .slot _ f _ => f

def param : Value → Option Nat
  | .pad => none
  | .slot _ _ p => p

def isPad : Value → Bool
  | .pad => true
  | .slot .. => false

/-- Whether the value is the first slot of a 64-bit value. -/
def isWide (v : Value) : Bool := v.kind.wide

/-- Whether an instruction may load the value. -/
def isReadable (v : Value) : Bool := !v.isPad && v.kind ≠ .untyped

/-- The integer constant, if the fact is one. -/
def const? (v : Value) : Option Int := v.fact.bind Fact.const?

/-! ## Join -/

/-- The join of two slots: the facts joined, and the mark kept if both have it. -/
def join : Value → Value → Except Mismatch Value
  | .pad, .pad => .ok .pad
  | .slot k f p, .slot k' f' p' =>
    if k ≠ k' then .error (.kinds k k')
    else .ok (.slot k (Fact.join? f f') (if p = p' then p else none))
  | a, b =>
    if a.kind ≠ b.kind then .error (.kinds a.kind b.kind) else .error (.padding b)

/-! ## Text -/

def text : Value → String
  | .pad => "pad"
  | .slot k f p =>
    k.name ++ ":" ++ Fact.textOf f ++ (match p with
      | some i => "@arg" ++ toString i
      | none => "")

end Value

def Mismatch.message : Mismatch → String
  | .depths a b => "type mismatch in merge: stack depth " ++ toString a ++ " with " ++ toString b
  | .kinds a b => "type mismatch in merge: " ++ a.name ++ " with " ++ b.name
  | .padding other => "type mismatch in merge: padding slot with " ++ other.text

end InlinePlan
