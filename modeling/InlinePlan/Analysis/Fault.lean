import InlinePlan.Analysis.Value
import InlinePlan.Bytecode.Descriptor
import InlinePlan.Bytecode.Opcode
import InlinePlan.Bytecode.SymbolRef

set_option autoImplicit false

/-! # Faults

Why an instruction cannot be applied to a frame. A fault belongs to one of four classes: the code
does not verify, a symbol is not resolved, the instruction is not supported, or the instruction asks
for a slot that no frame has, or for more slots than a frame can have, which aborts the analysis
itself. -/

namespace InlinePlan

inductive FaultClass where
  | verify
  | unresolved
  | unsupported
  | crash
  deriving Repr, DecidableEq

inductive Fault where
  | underflow
  | wrongKind (want : Kind) (found : Value)
  | unloadable (want : Kind) (slot : Int) (found : Value)
  | lostSecondWord (slot : Int)
  | splitsPair (op : Opcode)
  | noConstant (op : Opcode)
  | constantKind (op : Opcode) (kind : RefKind)
  | noMethodRef (op : Opcode)
  | noFieldRef (op : Opcode)
  | noClassRef (op : Opcode)
  | descriptor (desc : String) (fault : DescriptorFault)
  | typeCode (code : Int)
  | dimensions (count : Int)
  | undefinedOpcode (op : Opcode)
  | widePrefix
  | tooDeep (depth : Nat) (limit : Int)
  | unresolvedRef (ref : SymbolRef)
  | dynamicCall
  | subroutine (op : Opcode)
  | negativeSlot (slot : Int)
  | noSuchOperand (depth : Int)
  | noReceiver
  | noRoom (count : Int)
  deriving Repr, DecidableEq

namespace Fault

def faultClass : Fault → FaultClass
  | .unresolvedRef _ | .dynamicCall => .unresolved
  | .subroutine _ => .unsupported
  | .negativeSlot _ | .noSuchOperand _ | .noReceiver | .noRoom _ => .crash
  | _ => .verify

/-- The message without its class. -/
def detail : Fault → String
  | .underflow => "stack underflow"
  | .wrongKind want found => "expected " ++ want.name ++ ", found " ++ found.text
  | .unloadable want slot found =>
    "load " ++ want.name ++ " from local " ++ toString slot ++ " holding " ++ found.text
  | .lostSecondWord slot => "local " ++ toString slot ++ " lost its second word"
  | .splitsPair op => op.mnemonic ++ " splits a 64-bit value"
  | .noConstant op => op.mnemonic ++ " without constant"
  | .constantKind op kind => op.mnemonic ++ " of " ++ kind.name ++ " constant"
  | .noMethodRef op => op.mnemonic ++ " without method reference"
  | .noFieldRef op => op.mnemonic ++ " without field reference"
  | .noClassRef op => op.mnemonic ++ " without class reference"
  | .descriptor desc fault => fault.message desc
  | .typeCode code => "newarray type code " ++ toString code
  | .dimensions count => "multianewarray with " ++ toString count ++ " dimensions"
  | .undefinedOpcode op => "unknown opcode " ++ op.mnemonic
  | .widePrefix => "undecoded wide prefix"
  | .tooDeep depth limit => "stack depth " ++ toString depth ++ " exceeds " ++ toString limit
  | .unresolvedRef ref => ref.text
  | .dynamicCall => "invokedynamic call site"
  | .subroutine op => op.mnemonic
  | .negativeSlot slot => "store to local " ++ toString slot
  | .noSuchOperand depth => "operand at " ++ toString depth
  | .noReceiver => "call without receiver"
  | .noRoom count => "no room for " ++ toString count ++ " entries"

def message (f : Fault) : String :=
  match f.faultClass with
  | .verify => "abstract verification failed: " ++ f.detail
  | .unresolved => "unresolved symbol: " ++ f.detail
  | .unsupported => "unsupported opcode: " ++ f.detail
  | .crash => f.detail

end Fault

end InlinePlan
