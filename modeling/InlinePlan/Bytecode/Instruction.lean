import InlinePlan.Bytecode.Opcode
import InlinePlan.Bytecode.SymbolRef

set_option autoImplicit false

/-! # Instructions

A decoded instruction has its offset, its opcode, and those of the operands that the opcode uses. -/

namespace InlinePlan

/-- One instruction. `index` is a local slot; `imm` an immediate: a pushed value, the step of an
    increment, a constant, an array type code or a number of dimensions; `target` a branch target or
    the default target of a switch, whose other targets are `cases`. -/
structure Instruction where
  bci : Int
  op : Opcode
  index : Int := 0
  imm : Int := 0
  target : Int := 0
  cases : List Int := []
  ref : Option SymbolRef := none
  deriving Repr, DecidableEq

namespace Instruction

/-- The local slot of a load or store, which the short forms imply. -/
def slot (ins : Instruction) : Int :=
  match ins.op.operation? with
  | some (.load _ (some n)) => n
  | some (.store _ (some n)) => n
  | _ => ins.index

/-- The symbolic operand as an instruction shows it; integer constants show their value. -/
def refText (ins : Instruction) (r : SymbolRef) : String :=
  match r.kind with
  | .int | .long => toString ins.imm
  | _ => r.text

/-- The operands as text, each after a blank. -/
def operandText (ins : Instruction) : String :=
  match ins.op.operation? with
  | some .pushImmediate | some .newPrimitiveArray => " " ++ toString ins.imm
  | some .increment => " " ++ toString ins.index ++ " " ++ toString ins.imm
  | some (.load _ none) | some (.store _ none) | some .returnSubroutine =>
    " " ++ toString ins.index
  | some .switch =>
    " default=" ++ toString ins.target ++ " cases=["
      ++ String.intercalate " " (ins.cases.map toString) ++ "]"
  | some o =>
    if o.isBranch then " " ++ toString ins.target
    else match ins.ref with
      | none => ""
      | some r =>
        let count := if o = .newMultiArray then " " ++ toString ins.imm else ""
        " " ++ ins.refText r ++ count
  | none =>
    match ins.ref with
    | none => ""
    | some r => " " ++ ins.refText r

/-- The instruction as one line: offset, mnemonic and operands. -/
def text (ins : Instruction) : String :=
  toString ins.bci ++ ": " ++ ins.op.mnemonic ++ ins.operandText

end Instruction

end InlinePlan
