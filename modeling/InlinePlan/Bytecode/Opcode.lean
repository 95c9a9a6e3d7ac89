import InlinePlan.Bytecode.Kind
import InlinePlan.Text.Quoted

set_option autoImplicit false

/-! # Opcodes

An opcode is a byte. The 202 defined ones are listed in one table, by code, with the mnemonic, the
encoded length and the operation. Instructions that do the same work share an `Operation`, so a
definition by cases on operations covers all opcodes at once. -/

namespace InlinePlan

/-! ## Operations -/

/-- Integer arithmetic of 32 or 64 bits. -/
inductive Arith where
  | add
  | sub
  | mul
  | div
  | rem
  | and
  | or
  | xor
  deriving Repr, DecidableEq

/-- Shifts by a masked count. -/
inductive Shift where
  | left
  | right
  | unsignedRight
  deriving Repr, DecidableEq

/-- Comparisons against zero, or of two operands. -/
inductive Cond where
  | eq
  | ne
  | lt
  | ge
  | gt
  | le
  deriving Repr, DecidableEq

/-- The width of integer arithmetic. -/
inductive Width where
  | int
  | long
  deriving Repr, DecidableEq

namespace Width

def bits : Width → Nat
  | .int => 32
  | .long => 64

def kind : Width → Kind
  | .int => .int
  | .long => .long

end Width

/-- The element type of an array load. -/
inductive Element where
  | int
  | long
  | float
  | double
  | ref
  | byte
  | char
  | short
  deriving Repr, DecidableEq

/-- Conversions between primitive kinds. The named ones are exact on integers; a `lossy` one forgets
    the value. -/
inductive Conversion where
  | intToLong
  | longToInt
  | intToByte
  | intToChar
  | intToShort
  | lossy (source target : Kind)
  deriving Repr, DecidableEq

/-- Reorderings of the topmost slots. -/
inductive Shuffle where
  | pop2
  | dupX1
  | dupX2
  | dup2
  | dup2X1
  | dup2X2
  | swap
  deriving Repr, DecidableEq

/-- How a call finds its callee. -/
inductive InvokeKind where
  | virtualCall
  | specialCall
  | staticCall
  | interfaceCall
  | dynamicCall
  deriving Repr, DecidableEq

namespace InvokeKind

def ofCode? : Nat → Option InvokeKind
  | 0 => some .virtualCall
  | 1 => some .specialCall
  | 2 => some .staticCall
  | 3 => some .interfaceCall
  | 4 => some .dynamicCall
  | _ => none

def name : InvokeKind → String
  | .virtualCall => "virtual"
  | .specialCall => "special"
  | .staticCall => "static"
  | .interfaceCall => "interface"
  | .dynamicCall => "dynamic"

/-- Whether a call of this kind passes an implicit receiver. -/
def hasReceiver : InvokeKind → Bool
  | .staticCall | .dynamicCall => false
  | .virtualCall | .specialCall | .interfaceCall => true

end InvokeKind

/-- What an instruction does. A `load` or `store` without a slot takes it from its operand. -/
inductive Operation where
  | nop
  | constNull
  | constInt (v : Int)
  | constLong (v : Int)
  | constFloating (k : Kind)
  | pushImmediate
  | loadConstant
  | load (k : Kind) (slot : Option Nat)
  | store (k : Kind) (slot : Option Nat)
  | arrayLoad (e : Element)
  | arrayStore (k : Kind)
  | pop
  | dup
  | shuffle (s : Shuffle)
  | arith (w : Width) (f : Arith)
  | shift (w : Width) (f : Shift)
  | negate (w : Width)
  | floatArith (k : Kind)
  | increment
  | convert (c : Conversion)
  | compareLong
  | compareFloating (k : Kind)
  | testZero (c : Cond)
  | testInts (c : Cond)
  | testRefs (c : Cond)
  | testNull (isNull : Bool)
  | jump
  | callSubroutine
  | returnSubroutine
  | switch
  | returnValue (k : Kind)
  | returnVoid
  | readField (ofObject : Bool)
  | writeField (ofObject : Bool)
  | invoke (k : InvokeKind)
  | newObject
  | newPrimitiveArray
  | newObjectArray
  | newMultiArray
  | arrayLength
  | throwObject
  | checkCast
  | instanceOf
  | monitor
  | widePrefix
  deriving Repr, DecidableEq

namespace Operation

/-- Whether the operation transfers control to its target. -/
def isBranch : Operation → Bool
  | .testZero _ | .testInts _ | .testRefs _ | .testNull _ | .jump | .callSubroutine => true
  | _ => false

/-- The dispatch of a call. -/
def invokeKind? : Operation → Option InvokeKind
  | .invoke k => some k
  | _ => none

/-- Whether the operation leaves the method. -/
def isReturn : Operation → Bool
  | .returnValue _ | .returnVoid => true
  | _ => false

end Operation

/-! ## The table -/

/-- A defined opcode. The length is in bytes; zero marks the forms whose length depends on their
    operands. -/
structure OpcodeEntry where
  mnemonic : String
  length : Nat
  operation : Operation
  deriving Repr

/-- The defined opcodes, by code. -/
def opcodeTable : List OpcodeEntry :=
  [
    ⟨"nop", 1, .nop⟩,
    ⟨"aconst_null", 1, .constNull⟩,
    ⟨"iconst_m1", 1, .constInt (-1)⟩,
    ⟨"iconst_0", 1, .constInt 0⟩,
    ⟨"iconst_1", 1, .constInt 1⟩,
    ⟨"iconst_2", 1, .constInt 2⟩,
    ⟨"iconst_3", 1, .constInt 3⟩,
    ⟨"iconst_4", 1, .constInt 4⟩,
    ⟨"iconst_5", 1, .constInt 5⟩,
    ⟨"lconst_0", 1, .constLong 0⟩,
    ⟨"lconst_1", 1, .constLong 1⟩,
    ⟨"fconst_0", 1, .constFloating .float⟩,
    ⟨"fconst_1", 1, .constFloating .float⟩,
    ⟨"fconst_2", 1, .constFloating .float⟩,
    ⟨"dconst_0", 1, .constFloating .double⟩,
    ⟨"dconst_1", 1, .constFloating .double⟩,
    ⟨"bipush", 2, .pushImmediate⟩,
    ⟨"sipush", 3, .pushImmediate⟩,
    ⟨"ldc", 2, .loadConstant⟩,
    ⟨"ldc_w", 3, .loadConstant⟩,
    ⟨"ldc2_w", 3, .loadConstant⟩,
    ⟨"iload", 2, .load .int none⟩,
    ⟨"lload", 2, .load .long none⟩,
    ⟨"fload", 2, .load .float none⟩,
    ⟨"dload", 2, .load .double none⟩,
    ⟨"aload", 2, .load .ref none⟩,
    ⟨"iload_0", 1, .load .int (some 0)⟩,
    ⟨"iload_1", 1, .load .int (some 1)⟩,
    ⟨"iload_2", 1, .load .int (some 2)⟩,
    ⟨"iload_3", 1, .load .int (some 3)⟩,
    ⟨"lload_0", 1, .load .long (some 0)⟩,
    ⟨"lload_1", 1, .load .long (some 1)⟩,
    ⟨"lload_2", 1, .load .long (some 2)⟩,
    ⟨"lload_3", 1, .load .long (some 3)⟩,
    ⟨"fload_0", 1, .load .float (some 0)⟩,
    ⟨"fload_1", 1, .load .float (some 1)⟩,
    ⟨"fload_2", 1, .load .float (some 2)⟩,
    ⟨"fload_3", 1, .load .float (some 3)⟩,
    ⟨"dload_0", 1, .load .double (some 0)⟩,
    ⟨"dload_1", 1, .load .double (some 1)⟩,
    ⟨"dload_2", 1, .load .double (some 2)⟩,
    ⟨"dload_3", 1, .load .double (some 3)⟩,
    ⟨"aload_0", 1, .load .ref (some 0)⟩,
    ⟨"aload_1", 1, .load .ref (some 1)⟩,
    ⟨"aload_2", 1, .load .ref (some 2)⟩,
    ⟨"aload_3", 1, .load .ref (some 3)⟩,
    ⟨"iaload", 1, .arrayLoad .int⟩,
    ⟨"laload", 1, .arrayLoad .long⟩,
    ⟨"faload", 1, .arrayLoad .float⟩,
    ⟨"daload", 1, .arrayLoad .double⟩,
    ⟨"aaload", 1, .arrayLoad .ref⟩,
    ⟨"baload", 1, .arrayLoad .byte⟩,
    ⟨"caload", 1, .arrayLoad .char⟩,
    ⟨"saload", 1, .arrayLoad .short⟩,
    ⟨"istore", 2, .store .int none⟩,
    ⟨"lstore", 2, .store .long none⟩,
    ⟨"fstore", 2, .store .float none⟩,
    ⟨"dstore", 2, .store .double none⟩,
    ⟨"astore", 2, .store .ref none⟩,
    ⟨"istore_0", 1, .store .int (some 0)⟩,
    ⟨"istore_1", 1, .store .int (some 1)⟩,
    ⟨"istore_2", 1, .store .int (some 2)⟩,
    ⟨"istore_3", 1, .store .int (some 3)⟩,
    ⟨"lstore_0", 1, .store .long (some 0)⟩,
    ⟨"lstore_1", 1, .store .long (some 1)⟩,
    ⟨"lstore_2", 1, .store .long (some 2)⟩,
    ⟨"lstore_3", 1, .store .long (some 3)⟩,
    ⟨"fstore_0", 1, .store .float (some 0)⟩,
    ⟨"fstore_1", 1, .store .float (some 1)⟩,
    ⟨"fstore_2", 1, .store .float (some 2)⟩,
    ⟨"fstore_3", 1, .store .float (some 3)⟩,
    ⟨"dstore_0", 1, .store .double (some 0)⟩,
    ⟨"dstore_1", 1, .store .double (some 1)⟩,
    ⟨"dstore_2", 1, .store .double (some 2)⟩,
    ⟨"dstore_3", 1, .store .double (some 3)⟩,
    ⟨"astore_0", 1, .store .ref (some 0)⟩,
    ⟨"astore_1", 1, .store .ref (some 1)⟩,
    ⟨"astore_2", 1, .store .ref (some 2)⟩,
    ⟨"astore_3", 1, .store .ref (some 3)⟩,
    ⟨"iastore", 1, .arrayStore .int⟩,
    ⟨"lastore", 1, .arrayStore .long⟩,
    ⟨"fastore", 1, .arrayStore .float⟩,
    ⟨"dastore", 1, .arrayStore .double⟩,
    ⟨"aastore", 1, .arrayStore .ref⟩,
    ⟨"bastore", 1, .arrayStore .int⟩,
    ⟨"castore", 1, .arrayStore .int⟩,
    ⟨"sastore", 1, .arrayStore .int⟩,
    ⟨"pop", 1, .pop⟩,
    ⟨"pop2", 1, .shuffle .pop2⟩,
    ⟨"dup", 1, .dup⟩,
    ⟨"dup_x1", 1, .shuffle .dupX1⟩,
    ⟨"dup_x2", 1, .shuffle .dupX2⟩,
    ⟨"dup2", 1, .shuffle .dup2⟩,
    ⟨"dup2_x1", 1, .shuffle .dup2X1⟩,
    ⟨"dup2_x2", 1, .shuffle .dup2X2⟩,
    ⟨"swap", 1, .shuffle .swap⟩,
    ⟨"iadd", 1, .arith .int .add⟩,
    ⟨"ladd", 1, .arith .long .add⟩,
    ⟨"fadd", 1, .floatArith .float⟩,
    ⟨"dadd", 1, .floatArith .double⟩,
    ⟨"isub", 1, .arith .int .sub⟩,
    ⟨"lsub", 1, .arith .long .sub⟩,
    ⟨"fsub", 1, .floatArith .float⟩,
    ⟨"dsub", 1, .floatArith .double⟩,
    ⟨"imul", 1, .arith .int .mul⟩,
    ⟨"lmul", 1, .arith .long .mul⟩,
    ⟨"fmul", 1, .floatArith .float⟩,
    ⟨"dmul", 1, .floatArith .double⟩,
    ⟨"idiv", 1, .arith .int .div⟩,
    ⟨"ldiv", 1, .arith .long .div⟩,
    ⟨"fdiv", 1, .floatArith .float⟩,
    ⟨"ddiv", 1, .floatArith .double⟩,
    ⟨"irem", 1, .arith .int .rem⟩,
    ⟨"lrem", 1, .arith .long .rem⟩,
    ⟨"frem", 1, .floatArith .float⟩,
    ⟨"drem", 1, .floatArith .double⟩,
    ⟨"ineg", 1, .negate .int⟩,
    ⟨"lneg", 1, .negate .long⟩,
    ⟨"fneg", 1, .convert (.lossy .float .float)⟩,
    ⟨"dneg", 1, .convert (.lossy .double .double)⟩,
    ⟨"ishl", 1, .shift .int .left⟩,
    ⟨"lshl", 1, .shift .long .left⟩,
    ⟨"ishr", 1, .shift .int .right⟩,
    ⟨"lshr", 1, .shift .long .right⟩,
    ⟨"iushr", 1, .shift .int .unsignedRight⟩,
    ⟨"lushr", 1, .shift .long .unsignedRight⟩,
    ⟨"iand", 1, .arith .int .and⟩,
    ⟨"land", 1, .arith .long .and⟩,
    ⟨"ior", 1, .arith .int .or⟩,
    ⟨"lor", 1, .arith .long .or⟩,
    ⟨"ixor", 1, .arith .int .xor⟩,
    ⟨"lxor", 1, .arith .long .xor⟩,
    ⟨"iinc", 3, .increment⟩,
    ⟨"i2l", 1, .convert .intToLong⟩,
    ⟨"i2f", 1, .convert (.lossy .int .float)⟩,
    ⟨"i2d", 1, .convert (.lossy .int .double)⟩,
    ⟨"l2i", 1, .convert .longToInt⟩,
    ⟨"l2f", 1, .convert (.lossy .long .float)⟩,
    ⟨"l2d", 1, .convert (.lossy .long .double)⟩,
    ⟨"f2i", 1, .convert (.lossy .float .int)⟩,
    ⟨"f2l", 1, .convert (.lossy .float .long)⟩,
    ⟨"f2d", 1, .convert (.lossy .float .double)⟩,
    ⟨"d2i", 1, .convert (.lossy .double .int)⟩,
    ⟨"d2l", 1, .convert (.lossy .double .long)⟩,
    ⟨"d2f", 1, .convert (.lossy .double .float)⟩,
    ⟨"i2b", 1, .convert .intToByte⟩,
    ⟨"i2c", 1, .convert .intToChar⟩,
    ⟨"i2s", 1, .convert .intToShort⟩,
    ⟨"lcmp", 1, .compareLong⟩,
    ⟨"fcmpl", 1, .compareFloating .float⟩,
    ⟨"fcmpg", 1, .compareFloating .float⟩,
    ⟨"dcmpl", 1, .compareFloating .double⟩,
    ⟨"dcmpg", 1, .compareFloating .double⟩,
    ⟨"ifeq", 3, .testZero .eq⟩,
    ⟨"ifne", 3, .testZero .ne⟩,
    ⟨"iflt", 3, .testZero .lt⟩,
    ⟨"ifge", 3, .testZero .ge⟩,
    ⟨"ifgt", 3, .testZero .gt⟩,
    ⟨"ifle", 3, .testZero .le⟩,
    ⟨"if_icmpeq", 3, .testInts .eq⟩,
    ⟨"if_icmpne", 3, .testInts .ne⟩,
    ⟨"if_icmplt", 3, .testInts .lt⟩,
    ⟨"if_icmpge", 3, .testInts .ge⟩,
    ⟨"if_icmpgt", 3, .testInts .gt⟩,
    ⟨"if_icmple", 3, .testInts .le⟩,
    ⟨"if_acmpeq", 3, .testRefs .eq⟩,
    ⟨"if_acmpne", 3, .testRefs .ne⟩,
    ⟨"goto", 3, .jump⟩,
    ⟨"jsr", 3, .callSubroutine⟩,
    ⟨"ret", 2, .returnSubroutine⟩,
    ⟨"tableswitch", 0, .switch⟩,
    ⟨"lookupswitch", 0, .switch⟩,
    ⟨"ireturn", 1, .returnValue .int⟩,
    ⟨"lreturn", 1, .returnValue .long⟩,
    ⟨"freturn", 1, .returnValue .float⟩,
    ⟨"dreturn", 1, .returnValue .double⟩,
    ⟨"areturn", 1, .returnValue .ref⟩,
    ⟨"return", 1, .returnVoid⟩,
    ⟨"getstatic", 3, .readField false⟩,
    ⟨"putstatic", 3, .writeField false⟩,
    ⟨"getfield", 3, .readField true⟩,
    ⟨"putfield", 3, .writeField true⟩,
    ⟨"invokevirtual", 3, .invoke .virtualCall⟩,
    ⟨"invokespecial", 3, .invoke .specialCall⟩,
    ⟨"invokestatic", 3, .invoke .staticCall⟩,
    ⟨"invokeinterface", 5, .invoke .interfaceCall⟩,
    ⟨"invokedynamic", 5, .invoke .dynamicCall⟩,
    ⟨"new", 3, .newObject⟩,
    ⟨"newarray", 2, .newPrimitiveArray⟩,
    ⟨"anewarray", 3, .newObjectArray⟩,
    ⟨"arraylength", 1, .arrayLength⟩,
    ⟨"athrow", 1, .throwObject⟩,
    ⟨"checkcast", 3, .checkCast⟩,
    ⟨"instanceof", 3, .instanceOf⟩,
    ⟨"monitorenter", 1, .monitor⟩,
    ⟨"monitorexit", 1, .monitor⟩,
    ⟨"wide", 0, .widePrefix⟩,
    ⟨"multianewarray", 4, .newMultiArray⟩,
    ⟨"ifnull", 3, .testNull true⟩,
    ⟨"ifnonnull", 3, .testNull false⟩,
    ⟨"goto_w", 5, .jump⟩,
    ⟨"jsr_w", 5, .callSubroutine⟩
  ]

/-- An operation code as class files hold it. -/
structure Opcode where
  code : UInt8
  deriving Repr, DecidableEq, Inhabited

namespace Opcode

/-- The table row of a defined opcode. -/
def row? (op : Opcode) : Option OpcodeEntry := opcodeTable[op.code.toNat]?

def operation? (op : Opcode) : Option Operation := op.row?.map (·.operation)

def isDefined (op : Opcode) : Bool := op.row?.isSome

/-- The mnemonic; an undefined opcode shows its code. -/
def mnemonic (op : Opcode) : String :=
  match op.row? with
  | some e => e.mnemonic
  | none => "opcode(0x" ++ String.ofList (Text.hexDigits 2 op.code.toNat) ++ ")"

/-- The encoded length in bytes, zero where it is not fixed. -/
def length (op : Opcode) : Nat := op.row?.elim 0 (·.length)

def isBranch (op : Opcode) : Bool := op.operation?.any (·.isBranch)

def invokeKind? (op : Opcode) : Option InvokeKind := op.operation?.bind (·.invokeKind?)

def isInvoke (op : Opcode) : Bool := op.invokeKind?.isSome

def isReturn (op : Opcode) : Bool := op.operation?.any (·.isReturn)

/-- The opcode with the given mnemonic. -/
def ofMnemonic? (name : String) : Option Opcode :=
  (opcodeTable.findIdx? (·.mnemonic == name)).map fun i => ⟨UInt8.ofNat i⟩

end Opcode

end InlinePlan
