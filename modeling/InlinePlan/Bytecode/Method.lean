import InlinePlan.Bytecode.Descriptor

set_option autoImplicit false

/-! # Methods -/

namespace InlinePlan

/-- The identity of a method: `Class.name(params)result`. -/
abbrev MethodId := String

def MethodId.of (cls name descriptor : String) : MethodId := cls ++ "." ++ name ++ descriptor

/-- A method. `size` is the number of bytes of its code, which is what inlining it costs. -/
structure Method where
  id : MethodId
  cls : String := ""
  name : String := ""
  descriptor : String := ""
  isStatic : Bool := false
  isAbstract : Bool := false
  size : Int := 0
  maxLocals : Int := 0
  signature : Signature := ⟨[], ⟨.void, ""⟩⟩
  deriving Repr, DecidableEq

/-- A method cannot be declared because of its descriptor. -/
structure MethodFault where
  cls : String
  name : String
  descriptor : String
  fault : DescriptorFault
  deriving Repr, DecidableEq

def MethodFault.message (e : MethodFault) : String :=
  "method " ++ e.cls ++ "." ++ e.name ++ ": " ++ e.fault.message e.descriptor

namespace Method

/-- One for the receiver of an instance method. -/
def receivers (m : Method) : Nat := if m.isStatic then 0 else 1

/-- The number of local slots that the receiver and the parameters take. -/
def paramSlots (m : Method) : Nat := m.signature.argSlots + m.receivers

/-- The number of arguments, the receiver included. -/
def numArgs (m : Method) : Nat := m.signature.params.length + m.receivers

/-- Declares a method; its locals have room for the arguments. -/
def declare (cls name descriptor : String) (isStatic : Bool) (size : Int) :
    Except MethodFault Method :=
  match Signature.parse descriptor with
  | .error fault => .error ⟨cls, name, descriptor, fault⟩
  | .ok signature =>
    let m : Method :=
      { id := MethodId.of cls name descriptor, cls, name, descriptor, isStatic, size, signature }
    .ok { m with maxLocals := m.paramSlots }

end Method

end InlinePlan
