import InlinePlan.Analysis.Arithmetic
import InlinePlan.Analysis.Machine

set_option autoImplicit false

/-! # Transfer functions

What each operation does to the frame, and what it records. Operands are taken top first; a value
keeps its argument mark only while it is moved around unchanged. -/

namespace InlinePlan

namespace Shuffle

/-- The number of slots that are taken. -/
def count : Shuffle → Nat
  | .pop2 | .dupX1 | .dup2 | .swap => 2
  | .dupX2 | .dup2X1 => 3
  | .dup2X2 => 4

/-- The deepest slots of the operands, counted from the top; none of them may be padding. -/
def bottoms : Shuffle → List Nat
  | .pop2 => [1]
  | .dupX1 => [0, 1]
  | .dupX2 => [0, 2]
  | .dup2 => [1]
  | .dup2X1 => [1, 2]
  | .dup2X2 => [1, 3]
  | .swap => [0, 1]

/-- The slots that are pushed back, in this order. -/
def pattern : Shuffle → List Nat
  | .pop2 => []
  | .dupX1 => [0, 1, 0]
  | .dupX2 => [0, 2, 1, 0]
  | .dup2 => [1, 0, 1, 0]
  | .dup2X1 => [1, 0, 2, 1, 0]
  | .dup2X2 => [1, 0, 3, 2, 1, 0]
  | .swap => [0, 1]

end Shuffle

namespace Element

/-- What loading an element of an array yields. -/
def value : Element → Value
  | .int => .top .int
  | .long => .top .long
  | .float => .top .float
  | .double => .top .double
  | .ref => .top .ref
  | .byte => .known .int (.range (-128) 127)
  | .char => .known .int (.range 0 65535)
  | .short => .known .int (.range (-32768) 32767)

end Element

namespace Frame

/-! ## Operands and locals -/

/-- Takes slots; the first one taken comes first. -/
def popSlots : (count : Nat) → FrameM (List Value)
  | 0 => return []
  | count + 1 => do
    let v ← popSlot
    let vs ← popSlots count
    return v :: vs

/-- Pushes slots one after another. -/
def pushSlots : List Value → FrameM Unit
  | [] => return ()
  | v :: vs => do
    pushSlot v
    pushSlots vs

/-- Reorders the topmost slots. Padding moves with its value. -/
def shuffle (op : Opcode) (s : Shuffle) : FrameM Unit := do
  let taken ← popSlots s.count
  if s.bottoms.any fun i => (taken[i]?).any Value.isPad then throw (.splitsPair op)
  pushSlots (s.pattern.filterMap (taken[·]?))

/-- Takes one slot that is no padding. -/
def popSingle (op : Opcode) : FrameM Value := do
  let v ← popSlot
  if v.isPad then throw (.splitsPair op)
  return v

/-- Takes a value of each kind, the last kind first. -/
def popKinds : List Kind → FrameM Unit
  | [] => return ()
  | k :: ks => do
    popKinds ks
    discard (pop k)

/-! ## Arithmetic -/

/-- A value of a kind that is constant if the result is known. -/
def constOrTop (k : Kind) : Option Int → Value
  | some c => .known k (.const c)
  | none => .top k

/-- Adds a step to an integer local. -/
def increment (slot step : Int) : FrameM Unit := do
  let v ← load slot .int
  store slot (constOrTop .int (v.const?.map fun c => wrap 32 (c + step)))

def arithResult (w : Width) (f : Arith) (a b : Value) : Value :=
  constOrTop w.kind (a.const?.bind fun x => b.const?.bind fun y => f.eval w x y)

def arith (w : Width) (f : Arith) : FrameM Unit := do
  let b ← pop w.kind
  let a ← pop w.kind
  push (arithResult w f a b)

def shiftResult (w : Width) (f : Shift) (a n : Value) : Value :=
  constOrTop w.kind (a.const?.bind fun x => n.const?.map fun y => f.eval w x y)

def shift (w : Width) (f : Shift) : FrameM Unit := do
  let n ← pop .int
  let a ← pop w.kind
  push (shiftResult w f a n)

def negateResult (w : Width) (a : Value) : Value :=
  constOrTop w.kind (a.const?.map (InlinePlan.negate w))

def negate (w : Width) : FrameM Unit := do
  let a ← pop w.kind
  push (negateResult w a)

def convertResult (c : Conversion) (a : Value) : Value :=
  constOrTop c.target (a.const?.bind c.eval?)

def convert (c : Conversion) : FrameM Unit := do
  let a ← pop c.source
  push (convertResult c a)

/-- The result of a comparison of which nothing is known. -/
def anyOrder : Value := .known .int (.range (-1) 1)

def compareResult (a b : Value) : Value :=
  (a.const?.bind fun x => b.const?.map fun y => .intConst (compareInts x y)).getD anyOrder

def compareLong : FrameM Unit := do
  let b ← pop .long
  let a ← pop .long
  push (compareResult a b)

/-- Takes two operands of a kind and pushes a result that says nothing about them. -/
def combine (k : Kind) (result : Value) : FrameM Unit := do
  let _ ← pop k
  let _ ← pop k
  push result

/-! ## Arrays -/

def arrayLoad (e : Element) : FrameM Unit := do
  let _ ← pop .int
  let _ ← pop .ref
  push e.value

def arrayStore (k : Kind) : FrameM Unit := do
  discard (pop k)
  discard (pop .int)
  discard (pop .ref)

/-- An array whose length is bounded by a count; a count that is always negative bounds nothing. -/
def arrayOf (desc : String) (count : Value) : Value :=
  .known .ref (match count.fact with
    | some f => if f.kind = .range ∧ 0 ≤ f.hi then .array desc f.lo f.hi
                else .array desc 0 maxInt32
    | none => .array desc 0 maxInt32)

def newPrimitiveArray (code : Int) : FrameM Unit := do
  match primitiveArrayDescriptor? code with
  | none => throw (.typeCode code)
  | some desc =>
    let count ← pop .int
    push (arrayOf desc count)

/-- Takes one count for each dimension; the deepest bounds the length of the result. -/
def newMultiArray (cls : String) (dimensions : Int) : FrameM Unit := do
  if dimensions < 1 then throw (.dimensions dimensions)
  let counts ← popArray .int dimensions
  push (arrayOf cls (counts.headD .unusable))

end Frame

namespace Step

open InlinePlan.Frame

/-! ## References -/

/-- The class reference that an instruction needs. -/
def classRef (ins : Instruction) : Step SymbolRef :=
  match ins.ref with
  | some r => if r.kind = .cls then return r else throw (.noClassRef ins.op)
  | none => throw (.noClassRef ins.op)

/-- Meets an unresolved reference if it is one. -/
def checkResolved (s : Subject) (ins : Instruction) (r : SymbolRef) : Step Unit :=
  if r.unresolved then unresolved s.options ins r else return ()

/-- What loading a constant yields; nothing for a symbol that is no constant. -/
def constantValue? (ins : Instruction) (r : SymbolRef) : Option Value :=
  match r.kind with
  | .int => some (.intConst (wrap 32 ins.imm))
  | .long => some (.longConst (wrap 64 ins.imm))
  | .float => some (.top .float)
  | .double => some (.top .double)
  | .string => some (.known .ref (.string r.str))
  | .cls => some (if r.unresolved then .top .ref else .known .ref (.exactObject classClass))
  | _ => none

def loadConstant (s : Subject) (ins : Instruction) : Step Unit := do
  match ins.ref with
  | none => throw (.noConstant ins.op)
  | some r =>
    match constantValue? ins r with
    | none => throw (.constantKind ins.op r.kind)
    | some v =>
      if r.kind = .cls then checkResolved s ins r
      push v

/-- Reads or writes a field; the contents of fields are not tracked. -/
def fieldAccess (s : Subject) (ins : Instruction) (ofObject isWrite : Bool) : Step Unit := do
  match ins.ref with
  | none => throw (.noFieldRef ins.op)
  | some r =>
    if r.kind ≠ .field then throw (.noFieldRef ins.op)
    match JavaType.parse r.descriptor with
    | .error e => throw (.descriptor r.descriptor e)
    | .ok t =>
      checkResolved s ins r
      if isWrite then discard (pop t.kind)
      if ofObject then
        let obj ← pop .ref
        noteParam obj Predicate.nullCheck
      if !isWrite then push (.top t.kind)

/-- An object of the class that a reference names. -/
def newValue (r : SymbolRef) : Value :=
  if r.unresolved then .top .ref else .known .ref (.exactObject r.cls)

def newObject (s : Subject) (ins : Instruction) : Step Unit := do
  let r ← classRef ins
  checkResolved s ins r
  push (newValue r)

def newObjectArray (ins : Instruction) : Step Unit := do
  let r ← classRef ins
  let count ← pop .int
  push (arrayOf (arrayDescriptor r.cls) count)

def newMultiArray (ins : Instruction) : Step Unit := do
  let r ← classRef ins
  Frame.newMultiArray r.cls ins.imm

/-- The length of a value. -/
def lengthValue (arr : Value) : Value :=
  .known .int (match arr.fact with
    | some f => if f.kind = .array then .range f.lo f.hi else .range 0 maxInt32
    | none => .range 0 maxInt32)

def arrayLength : Step Unit := do
  let arr ← pop .ref
  noteParam arr Predicate.nullCheck
  push (lengthValue arr)

/-! ## Type tests -/

/-- Whether a value with this fact is an instance of a class; null is never decided here. -/
def isInstance (oracle : Option SubtypeOracle) (f : Option Fact) (cls : String) : Tristate :=
  match f with
  | none => .maybe
  | some f =>
    if !f.isNonNull then .maybe
    else if f.cls = cls ∨ cls = objectClass then .yes
    else match oracle with
      | none => .maybe
      | some isSubtype =>
        if f.cls = "" then .maybe
        else match isSubtype f.cls cls with
          | .yes => .yes
          | .no => if f.exact then .no else .maybe
          | .maybe => .maybe

/-- Whether the fact is the null reference. -/
def isNullFact (f : Option Fact) : Bool := f.any (·.kind = .null)

/-- What a cast leaves of a value. -/
def castResult (oracle : Option SubtypeOracle) (r : SymbolRef) (v : Value) : Value :=
  if isNullFact v.fact then v.unmarked
  else if isInstance oracle v.fact r.cls = .yes then v.unmarked
  else if r.unresolved then .top .ref
  else .known .ref (.object r.cls (v.fact.any Fact.isNonNull))

def checkCast (s : Subject) (ins : Instruction) : Step Unit := do
  let r ← classRef ins
  checkResolved s ins r
  let v ← pop .ref
  noteParam v fun k => Predicate.typeTest k .checkCast r.cls
  push (castResult s.oracle r v)

/-- The truth value of a type test. -/
def testResult (oracle : Option SubtypeOracle) (cls : String) (f : Option Fact) : Value :=
  if isNullFact f then .intConst 0
  else match isInstance oracle f cls with
    | .yes => .intConst 1
    | .no => .intConst 0
    | .maybe => .known .int (.range 0 1)

def instanceOf (s : Subject) (ins : Instruction) : Step Unit := do
  let r ← classRef ins
  checkResolved s ins r
  let v ← pop .ref
  noteParam v fun k => Predicate.typeTest k .instanceOf r.cls
  push (testResult s.oracle r.cls v.fact)

/-! ## Calls -/

/-- Takes the arguments of a call, the last one first, and returns them in order. -/
def popArgs : List JavaType → FrameM (List Value)
  | [] => return []
  | t :: ts => do
    let rest ← popArgs ts
    let v ← pop t.kind
    return v :: rest

/-- Takes the receiver, if the call has one; it is null-checked. -/
def popReceiver (kind : InvokeKind) : Step (List Value) :=
  if kind.hasReceiver then do
    let v ← pop .ref
    noteParam v Predicate.nullCheck
    return [v]
  else return []

/-- Whether a call asks for the length of a string. -/
def isStringLength (r : SymbolRef) : Bool :=
  r.cls = stringClass && r.name = "length" && r.descriptor = "()I"

/-- Whether a call asks for the class of its receiver. -/
def isGetClass (kind : InvokeKind) (r : SymbolRef) : Bool :=
  r.name = "getClass" && r.descriptor = "()Ljava/lang/Class;" && kind.hasReceiver

/-- The length of a value that is known to be a constant string. -/
def stringLength? (v : Value) : Option Value :=
  v.fact.bind fun f =>
    if f.kind = .string then some (.intConst (wrap 32 (Text.units16 f.str))) else none

/-- The result of a library call that the arguments alone determine. -/
def intrinsic (site : CallSite) : Step (Option Value) :=
  if isStringLength site.ref then
    match site.args with
    | [] => throw .noReceiver
    | v :: _ => return stringLength? v
  else if isGetClass site.kind site.ref then
    return some (.known .ref (.exactObject classClass))
  else return none

/-- The value that a call returns. -/
def callResult (s : Subject) (ins : Instruction) (site : CallSite) : Step Value := do
  if site.ref.unresolved then
    unresolved s.options ins site.ref
    return site.anyResult
  else
    let answer ← visit s.visitor site
    let known ← intrinsic site
    return known.getD answer

/-- Whether a value can be the result of a call with a declared type. -/
def fitsResult (t : JavaType) (v : Value) : Bool := v.kind = t.kind && !v.isPad

/-- Pushes the result of a call, which must be of the declared kind. -/
def pushResult (s : Subject) (ins : Instruction) (t : JavaType) (v : Value) : Step Unit := do
  if t.category = .void then return ()
  if !fitsResult t v then
    warn s.options ("bci " ++ toString ins.bci ++ ": visitor returned " ++ v.text ++ " for "
      ++ t.text ++ ", using top")
  push (if fitsResult t v then v.unmarked else .top t.kind)

def invoke (s : Subject) (block : Nat) (frequency : Int) (ins : Instruction) (kind : InvokeKind) :
    Step Unit := do
  if kind = .dynamicCall then throw .dynamicCall
  match ins.ref with
  | none => throw (.noMethodRef ins.op)
  | some r =>
    if r.kind ≠ .method then throw (.noMethodRef ins.op)
    match Signature.parse r.descriptor with
    | .error e => throw (.descriptor r.descriptor e)
    | .ok sig =>
      let params ← popArgs sig.params
      let receiver ← popReceiver kind
      let site : CallSite :=
        { caller := s.method, block, frequency, bci := ins.bci, kind, ref := r,
          args := receiver ++ params, result := sig.result }
      let answer ← callResult s ins site
      pushResult s ins sig.result answer

/-! ## All operations -/

/-- Applies an operation in the given block. -/
def transfer (s : Subject) (block : Nat) (frequency : Int) (ins : Instruction) :
    Operation → Step Unit
  | .nop | .jump | .returnVoid => return ()
  | .constNull => push .nullRef
  | .constInt v => push (.intConst v)
  | .constLong v => push (.longConst v)
  | .constFloating k => push (.top k)
  | .pushImmediate => push (.intConst (wrap 32 ins.imm))
  | .loadConstant => loadConstant s ins
  | .load k _ => do
    let v ← Frame.load ins.slot k
    push v
  | .store k _ => do
    let v ← pop k
    Frame.store ins.slot v
  | .arrayLoad e => Frame.arrayLoad e
  | .arrayStore k => Frame.arrayStore k
  | .pop => discard (popSingle ins.op : FrameM Value)
  | .dup => do
    let v ← popSingle ins.op
    pushSlot v
    pushSlot v
  | .shuffle p => Frame.shuffle ins.op p
  | .arith w f => Frame.arith w f
  | .shift w f => Frame.shift w f
  | .negate w => Frame.negate w
  | .floatArith k => combine k (.top k)
  | .increment => Frame.increment ins.index ins.imm
  | .convert c => Frame.convert c
  | .compareLong => Frame.compareLong
  | .compareFloating k => combine k anyOrder
  | .testZero c => do
    let v ← pop .int
    noteParam v fun k => Predicate.branch k c
  | .testInts _ => popKinds [.int, .int]
  | .testRefs _ => popKinds [.ref, .ref]
  | .testNull isNull => do
    let v ← pop .ref
    noteParam v fun k => Predicate.nullTest k isNull
  | .callSubroutine | .returnSubroutine => throw (.subroutine ins.op)
  | .switch => popKinds [.int]
  | .returnValue k => popKinds [k]
  | .readField ofObject => fieldAccess s ins ofObject false
  | .writeField ofObject => fieldAccess s ins ofObject true
  | .invoke kind => invoke s block frequency ins kind
  | .newObject => newObject s ins
  | .newPrimitiveArray => Frame.newPrimitiveArray ins.imm
  | .newObjectArray => newObjectArray ins
  | .newMultiArray => newMultiArray ins
  | .arrayLength => arrayLength
  | .throwObject => do
    discard (pop .ref : FrameM Value)
    clear
  | .checkCast => checkCast s ins
  | .instanceOf => instanceOf s ins
  | .monitor => popKinds [.ref]
  | .widePrefix => throw .widePrefix

/-- Applies one instruction and checks the depth of the stack afterwards. -/
def step (s : Subject) (block : Nat) (frequency : Int) (ins : Instruction) : Step Unit := do
  match ins.op.operation? with
  | none => throw (.undefinedOpcode ins.op)
  | some o =>
    transfer s block frequency ins o
    let depth := (← get).frame.depth
    if 0 < s.options.maxStackDepth ∧ s.options.maxStackDepth < depth then
      throw (.tooDeep depth s.options.maxStackDepth)

end Step

end InlinePlan
