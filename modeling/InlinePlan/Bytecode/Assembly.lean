import InlinePlan.Bytecode.Descriptor
import InlinePlan.Bytecode.Instruction
import InlinePlan.Decimal.Read

set_option autoImplicit false

/-! # Instructions as text

One line of code is an offset, a colon, a mnemonic and operands. A symbolic operand marked with a
question mark is unresolved. -/

namespace InlinePlan

/-! ## Faults -/

/-- Why the operands of an instruction cannot be read. Texts are kept as they were given. -/
inductive OperandFault where
  | integerCount (want got : Nat)
  | integer (text : String)
  | elementCount (text : String)
  | element (text : String)
  | noDefaultTarget
  | target (text : String)
  | classCount (text : String)
  | arrayCount (text : String)
  | dimensions (text : String)
  | noMethodDescriptor (text : String)
  | noFieldDescriptor (text : String)
  | descriptor (desc : String) (fault : DescriptorFault)
  | noClassAndName (text : String)
  | noConstant
  | stringConstant (text : String)
  | longConstant (text : String)
  | floatConstant (text : String)
  | doubleConstant (text : String)
  | intConstant (text : String)
  | unexpected (text : String)
  deriving Repr, DecidableEq

def OperandFault.message : OperandFault → String
  | .integerCount want got =>
    "want " ++ toString want ++ " integer operands, got " ++ toString got
  | .integer t => "invalid integer " ++ Text.quote t
  | .elementCount t => "want element type, got " ++ Text.quote t
  | .element t => "invalid element type " ++ Text.quote t
  | .noDefaultTarget => "missing default target"
  | .target t => "invalid target " ++ Text.quote t
  | .classCount t => "want class name, got " ++ Text.quote t
  | .arrayCount t => "want descriptor and dimensions, got " ++ Text.quote t
  | .dimensions t => "invalid dimensions " ++ Text.quote t
  | .noMethodDescriptor t => "method reference " ++ Text.quote t ++ " has no descriptor"
  | .noFieldDescriptor t => "field reference " ++ Text.quote t ++ " has no descriptor"
  | .descriptor desc fault => fault.message desc
  | .noClassAndName t => "reference " ++ Text.quote t ++ " needs Class.name"
  | .noConstant => "missing constant"
  | .stringConstant t => "invalid string constant " ++ t ++ ": invalid syntax"
  | .longConstant t => "invalid long constant " ++ Text.quote t
  | .floatConstant t => "invalid float constant " ++ Text.quote t
  | .doubleConstant t => "invalid double constant " ++ Text.quote t
  | .intConstant t => "invalid int constant " ++ Text.quote t
  | .unexpected t => "unexpected operand " ++ Text.quote t

/-- Why a line is no instruction. -/
inductive LineFault where
  | noOffset (line : String)
  | offset (line text : String) (fault : Decimal.NumberFault)
  | unknownMnemonic (name : String) (bci : Int)
  | operands (bci : Int) (mnemonic : String) (fault : OperandFault)
  deriving Repr, DecidableEq

def LineFault.message : LineFault → String
  | .noOffset line => "missing bci in " ++ Text.quote line
  | .offset line text fault =>
    "invalid bci in " ++ Text.quote line ++ ": strconv.Atoi: parsing " ++ Text.quote text ++ ": "
      ++ fault.message
  | .unknownMnemonic name bci =>
    "unknown mnemonic " ++ Text.quote name ++ " at bci " ++ toString bci
  | .operands bci mnemonic fault =>
    "bci " ++ toString bci ++ " " ++ mnemonic ++ ": " ++ fault.message

/-! ## Integers and names -/

/-- One integer operand. -/
def readOperandInt (word : List Char) : Except OperandFault Int :=
  match Decimal.readInt 64 word with
  | .ok n => .ok n
  | .error _ => .error (.integer (String.ofList word))

/-- Reads the integers in order; the first fault counts. -/
def readOperandInts : List (List Char) → Except OperandFault (List Int)
  | [] => .ok []
  | w :: ws => (readOperandInt w).bind fun n => (readOperandInts ws).map (n :: ·)

/-- Exactly one integer operand. -/
def oneInt (words : List (List Char)) : Except OperandFault Int :=
  match words with
  | [w] => readOperandInt w
  | _ => .error (.integerCount 1 words.length)

/-- Exactly two integer operands. -/
def twoInts (words : List (List Char)) : Except OperandFault (Int × Int) :=
  match words with
  | [v, w] => (readOperandInt v).bind fun m => (readOperandInt w).map (m, ·)
  | _ => .error (.integerCount 2 words.length)

/-- The targets of a switch. -/
def readTargets : List (List Char) → Except OperandFault (List Int)
  | [] => .ok []
  | w :: ws =>
    match Decimal.readInt 64 w with
    | .error _ => .error (.target (String.ofList w))
    | .ok n => (readTargets ws).map (n :: ·)

/-- Splits off the mark of an unresolved reference. -/
def splitUnresolved : List Char → List Char × Bool
  | '?' :: cs => (cs, true)
  | cs => (cs, false)

/-- A class reference. -/
def classRef (word : List Char) : SymbolRef :=
  let (name, unresolved) := splitUnresolved word
  { kind := .cls, cls := String.ofList name, unresolved }

/-- Splits an owner at its last point into class and member; both must be there. -/
def splitMember? (owner : List Char) : Option (List Char × List Char) :=
  match Text.cutLast? '.' owner with
  | some (c :: cs, n :: ns) => some (c :: cs, n :: ns)
  | _ => none

/-- Builds a member reference from its parts once the descriptor is known to be good. -/
def memberRef (kind : RefKind) (whole owner desc : List Char) (unresolved : Bool) :
    Except OperandFault SymbolRef :=
  match splitMember? owner with
  | none => .error (.noClassAndName (String.ofList whole))
  | some (cls, name) =>
    .ok { kind, cls := String.ofList cls, name := String.ofList name,
          descriptor := String.ofList desc, unresolved }

/-- A method reference `Class.name(params)result`. -/
def readMethodRef (operand : List Char) : Except OperandFault SymbolRef :=
  let (cs, unresolved) := splitUnresolved operand
  match Text.cut? '(' cs with
  | none => .error (.noMethodDescriptor (String.ofList cs))
  | some (owner, rest) =>
    match readSignature ('(' :: rest) with
    | .error e => .error (.descriptor (String.ofList ('(' :: rest)) e)
    | .ok _ => memberRef .method cs owner ('(' :: rest) unresolved

/-- A field reference `Class.name:type`. -/
def readFieldRef (operand : List Char) : Except OperandFault SymbolRef :=
  let (cs, unresolved) := splitUnresolved operand
  match Text.cut? ':' cs with
  | none => .error (.noFieldDescriptor (String.ofList cs))
  | some (owner, desc) =>
    match readFieldType desc with
    | .error e => .error (.descriptor (String.ofList desc) e)
    | .ok _ => memberRef .field cs owner desc unresolved

/-! ## Constants -/

/-- Drops the double suffixes at the end. -/
def dropDoubleSuffix (cs : List Char) : List Char :=
  (cs.reverse.dropWhile fun c => c = 'd' ∨ c = 'D').reverse

/-- A numeric constant by its suffix: `L` for long, `f` for float, `d` or a fraction or exponent for
    double, none of these for int. -/
def readNumber (ins : Instruction) (cs : List Char) : Except OperandFault Instruction :=
  let text := String.ofList cs
  let last := cs.getLast?
  if last = some 'L' ∨ last = some 'l' then
    match Decimal.readInt 64 cs.dropLast with
    | .ok v => .ok { ins with imm := v, ref := some { kind := .long } }
    | .error _ => .error (.longConstant text)
  else if last = some 'f' ∨ last = some 'F' then
    if Decimal.isNumber Decimal.binary32 cs.dropLast then
      .ok { ins with ref := some { kind := .float } }
    else .error (.floatConstant text)
  else if last = some 'd' ∨ last = some 'D' ∨ cs.any (fun c => c = '.' ∨ c = 'e' ∨ c = 'E') then
    if Decimal.isNumber Decimal.binary64 (dropDoubleSuffix cs) then
      .ok { ins with ref := some { kind := .double } }
    else .error (.doubleConstant text)
  else
    match Decimal.readInt 32 cs with
    | .ok v => .ok { ins with imm := v, ref := some { kind := .int } }
    | .error _ => .error (.intConstant text)

/-- A constant: a quoted string, a number, or a class. -/
def readConstant (ins : Instruction) (cs : List Char) : Except OperandFault Instruction :=
  match cs with
  | [] => .error .noConstant
  | c :: _ =>
    if c = '\x22' then
      match Text.unquote? cs with
      | some str => .ok { ins with ref := some { kind := .string, str } }
      | none => .error (.stringConstant (String.ofList cs))
    else if c = '-' ∨ c.isDigit then readNumber ins cs
    else .ok { ins with ref := some (classRef cs) }

/-! ## Lines -/

/-- Reads the operands that the operation wants. -/
def readOperands (ins : Instruction) (o : Operation) (operand : List Char) :
    Except OperandFault Instruction :=
  let words := Text.words operand
  match o with
  | .load _ none | .store _ none | .returnSubroutine =>
    (oneInt words).map fun n => { ins with index := n }
  | .increment => (twoInts words).map fun (n, d) => { ins with index := n, imm := d }
  | .pushImmediate => (oneInt words).map fun n => { ins with imm := n }
  | .newPrimitiveArray =>
    match words with
    | [w] =>
      match primitiveArrayCode? (String.ofList w) with
      | some code => .ok { ins with imm := code }
      | none =>
        match Decimal.readInt 64 w with
        | .ok code => .ok { ins with imm := code }
        | .error _ => .error (.element (String.ofList w))
    | _ => .error (.elementCount (String.ofList operand))
  | .switch =>
    match readTargets words with
    | .error e => .error e
    | .ok [] => .error .noDefaultTarget
    | .ok (t :: ts) => .ok { ins with target := t, cases := ts }
  | .testZero _ | .testInts _ | .testRefs _ | .testNull _ | .jump | .callSubroutine =>
    (oneInt words).map fun n => { ins with target := n }
  | .loadConstant => readConstant ins operand
  | .readField _ | .writeField _ => (readFieldRef operand).map fun r => { ins with ref := some r }
  | .invoke _ => (readMethodRef operand).map fun r => { ins with ref := some r }
  | .newObject | .newObjectArray | .checkCast | .instanceOf =>
    match words with
    | [w] => .ok { ins with ref := some (classRef w) }
    | _ => .error (.classCount (String.ofList operand))
  | .newMultiArray =>
    match words with
    | [w, n] =>
      match Decimal.readInt 64 n with
      | .ok dims => .ok { ins with ref := some (classRef w), imm := dims }
      | .error _ => .error (.dimensions (String.ofList n))
    | _ => .error (.arrayCount (String.ofList operand))
  | _ => if operand.isEmpty then .ok ins else .error (.unexpected (String.ofList operand))

/-- Splits the mnemonic from the operands at the first space. -/
def splitMnemonic (cs : List Char) : List Char × List Char :=
  match Text.cut? ' ' cs with
  | some (m, rest) => (m, Text.trim rest)
  | none => (cs, [])

/-- Reads one line of code. -/
def Instruction.read (line : List Char) : Except LineFault Instruction :=
  match Text.cut? ':' line with
  | none => .error (.noOffset (String.ofList line))
  | some (pos, rest) =>
    match Decimal.readInt 64 (Text.trim pos) with
    | .error e => .error (.offset (String.ofList line) (String.ofList (Text.trim pos)) e)
    | .ok bci =>
      let (mnemonic, operand) := splitMnemonic (Text.trim rest)
      let name := String.ofList mnemonic
      match Opcode.ofMnemonic? name with
      | none => .error (.unknownMnemonic name bci)
      | some op =>
        match op.operation? with
        | none => .error (.unknownMnemonic name bci)
        | some o =>
          match readOperands { bci, op } o operand with
          | .ok ins => .ok ins
          | .error e => .error (.operands bci name e)

def Instruction.parse (line : String) : Except LineFault Instruction :=
  Instruction.read line.toList

end InlinePlan
