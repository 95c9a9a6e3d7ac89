import InlinePlan.Analysis.Transfer

set_option autoImplicit false

/-! # The executing machine

What instructions do to the locals and operands of a running method. Integers are words of their
width, a reference has the class or array type it was created with, and a 64-bit value takes two
slots. Results that depend on the heap, on floating-point arithmetic or on other methods may be any
value of their kind. An instruction that throws has no result. -/

namespace InlinePlan

/-! ## Slots -/

/-- The content of one slot while a method runs. -/
inductive Datum where
  | int (v : BitVec 32)
  | long (v : BitVec 64)
  | float (bits : BitVec 32)
  | double (bits : BitVec 64)
  | null
  | object (cls : String)
  | array (desc : String) (length : Fin 2147483648)
  | string (bytes : List UInt8)
  | second
  deriving Repr, DecidableEq

namespace Datum

/-- The kind of a slot; the second word of a 64-bit value has none. -/
def kind : Datum → Kind
  | .int _ => .int
  | .long _ => .long
  | .float _ => .float
  | .double _ => .double
  | .null | .object _ | .array .. | .string _ => .ref
  | .second => .untyped

/-- The integer that a slot holds. -/
def int? : Datum → Option Int
  | .int v => some v.toInt
  | .long v => some v.toInt
  | _ => none

/-- The class or array type of a reference that is not null. -/
def cls? : Datum → Option String
  | .object cls => some cls
  | .array desc _ => some desc
  | .string _ => some stringClass
  | _ => none

/-- The slots that a value takes on the stack, the topmost first. -/
def cells (d : Datum) : List Datum := if d.kind.wide then [.second, d] else [d]

@[simp] theorem kind_int (v : BitVec 32) : (Datum.int v).kind = .int := rfl

@[simp] theorem kind_long (v : BitVec 64) : (Datum.long v).kind = .long := rfl

@[simp] theorem kind_array (desc : String) (n : Fin 2147483648) :
    (Datum.array desc n).kind = .ref := rfl

end Datum

/-- The integer values of a width. -/
def Width.datum : (w : Width) → BitVec w.bits → Datum
  | .int, v => .int v
  | .long, v => .long v

/-- Which classes and array types are assignable to which. -/
structure ClassRelation where
  sub : String → String → Prop
  refl : ∀ c, sub c c
  trans : ∀ c d e, sub c d → sub d e → sub c e
  root : ∀ c, sub c objectClass

/-- An oracle that only gives answers that are right. -/
def ClassRelation.Supports (C : ClassRelation) (oracle : SubtypeOracle) : Prop :=
  ∀ c d, (oracle c d = .yes → C.sub c d) ∧ (oracle c d = .no → ¬C.sub c d)

/-- A reference to an instance of a class. -/
def Datum.InstanceOf (C : ClassRelation) (d : Datum) (cls : String) : Prop :=
  ∃ c ∈ d.cls?, C.sub c cls

/-! ## Integer arithmetic -/

/-- The word that an operation yields: the exact result cut to the width. Division rounds to zero. -/
def Arith.Yields {bits : Nat} (f : Arith) (a b r : BitVec bits) : Prop :=
  match f with
  | .add => r = BitVec.ofInt bits (a.toInt + b.toInt)
  | .sub => r = BitVec.ofInt bits (a.toInt - b.toInt)
  | .mul => r = BitVec.ofInt bits (a.toInt * b.toInt)
  | .div => b.toInt ≠ 0 ∧ r = BitVec.ofInt bits (a.toInt.tdiv b.toInt)
  | .rem => b.toInt ≠ 0 ∧ r = BitVec.ofInt bits (a.toInt.tmod b.toInt)
  | .and => r = a &&& b
  | .or => r = a ||| b
  | .xor => r = a ^^^ b

/-- The word that a shift by `count` places yields. -/
def Shift.Yields {bits : Nat} (f : Shift) (a : BitVec bits) (count : Nat) (r : BitVec bits) :
    Prop :=
  match f with
  | .left => r = BitVec.ofInt bits (a.toInt * (Nat.pow 2 count : Nat))
  | .right => r = BitVec.ofInt bits (a.toInt / (Nat.pow 2 count : Nat))
  | .unsignedRight => r = BitVec.ofNat bits (a.toNat / Nat.pow 2 count)

/-- The value that a conversion yields. -/
def Conversion.Yields (c : Conversion) (a r : Datum) : Prop :=
  match c with
  | .intToLong => ∃ v, a = .int v ∧ r = .long (BitVec.ofInt 64 v.toInt)
  | .longToInt => ∃ v, a = .long v ∧ r = .int (BitVec.ofInt 32 v.toInt)
  | .intToByte => ∃ v, a = .int v ∧ r = .int (BitVec.ofInt 32 (v.toInt.bmod 256))
  | .intToChar => ∃ v, a = .int v ∧ r = .int (BitVec.ofInt 32 (v.toInt % 65536))
  | .intToShort => ∃ v, a = .int v ∧ r = .int (BitVec.ofInt 32 (v.toInt.bmod 65536))
  | .lossy s t => a.kind = s ∧ r.kind = t

/-! ## Constants, elements and calls -/

/-- The value that loading a constant yields. -/
def Instruction.Loads (ins : Instruction) (r : SymbolRef) (d : Datum) : Prop :=
  match r.kind with
  | .int => d = .int (BitVec.ofInt 32 ins.imm)
  | .long => d = .long (BitVec.ofInt 64 ins.imm)
  | .float => d.kind = .float
  | .double => d.kind = .double
  | .string => d = .string r.str
  | .cls => d = .object classClass
  | _ => False

/-- An integer between two bounds. -/
def Datum.Between (d : Datum) (lo hi : Int) : Prop := ∃ v, d = .int v ∧ lo ≤ v.toInt ∧ v.toInt ≤ hi

/-- The values that an element of an array can have. -/
def Element.Holds (e : Element) (d : Datum) : Prop :=
  match e with
  | .int => d.kind = .int
  | .long => d.kind = .long
  | .float => d.kind = .float
  | .double => d.kind = .double
  | .ref => d.kind = .ref
  | .byte => d.Between (-128) 127
  | .char => d.Between 0 65535
  | .short => d.Between (-32768) 32767

/-- The object that an access takes: none, or one that is not null. -/
def IsReceiver (present : Bool) (ds : List Datum) : Prop :=
  if present then ∃ d, ds = [d] ∧ d.kind = .ref ∧ d ≠ .null else ds = []

/-- What a call may return. The length of a constant string and the class of an object are known. -/
structure Returns (kind : InvokeKind) (r : SymbolRef) (receiver : List Datum) (result : Datum) :
    Prop where
  length : Step.isStringLength r = true → ∀ bytes, receiver = [.string bytes] →
    result = .int (BitVec.ofInt 32 (Text.units16 bytes))
  getClass : Step.isGetClass kind r = true → result = .object classClass

/-! ## Operations that take values and push results -/

/-- An operation takes the values `args`, the topmost first, and pushes `results`. -/
inductive Computes (C : ClassRelation) (ins : Instruction) :
    Operation → (args results : List Datum) → Prop where
  | nop : Computes C ins .nop [] []
  | jump : Computes C ins .jump [] []
  | returnVoid : Computes C ins .returnVoid [] []
  | constNull : Computes C ins .constNull [] [.null]
  | constInt (v : Int) : Computes C ins (.constInt v) [] [.int (BitVec.ofInt 32 v)]
  | constLong (v : Int) : Computes C ins (.constLong v) [] [.long (BitVec.ofInt 64 v)]
  | constFloating (k : Kind) (d : Datum) (hd : d.kind = k) :
      Computes C ins (.constFloating k) [] [d]
  | pushImmediate : Computes C ins .pushImmediate [] [.int (BitVec.ofInt 32 ins.imm)]
  | loadConstant (r : SymbolRef) (d : Datum) (hr : ins.ref = some r) (hd : ins.Loads r d) :
      Computes C ins .loadConstant [] [d]
  | arrayLoad (e : Element) (i : BitVec 32) (desc : String) (n : Fin 2147483648) (d : Datum)
      (hi : 0 ≤ i.toInt ∧ i.toInt < (n : Nat)) (hd : e.Holds d) :
      Computes C ins (.arrayLoad e) [.int i, .array desc n] [d]
  | arrayStore (k : Kind) (d : Datum) (i : BitVec 32) (desc : String) (n : Fin 2147483648)
      (hi : 0 ≤ i.toInt ∧ i.toInt < (n : Nat)) (hd : d.kind = k) :
      Computes C ins (.arrayStore k) [d, .int i, .array desc n] []
  | arith (w : Width) (f : Arith) (a b r : BitVec w.bits) (hr : f.Yields a b r) :
      Computes C ins (.arith w f) [w.datum b, w.datum a] [w.datum r]
  | shift (w : Width) (f : Shift) (a r : BitVec w.bits) (n : BitVec 32)
      (hr : f.Yields a (n.toNat % w.bits) r) :
      Computes C ins (.shift w f) [.int n, w.datum a] [w.datum r]
  | negate (w : Width) (a : BitVec w.bits) :
      Computes C ins (.negate w) [w.datum a] [w.datum (BitVec.ofInt w.bits (-a.toInt))]
  | floatArith (k : Kind) (a b r : Datum) (ha : a.kind = k) (hb : b.kind = k) (hr : r.kind = k) :
      Computes C ins (.floatArith k) [b, a] [r]
  | convert (c : Conversion) (a r : Datum) (hr : c.Yields a r) :
      Computes C ins (.convert c) [a] [r]
  | compareLong (a b : BitVec 64) :
      Computes C ins .compareLong [.long b, .long a]
        [.int (BitVec.ofInt 32 (a.toInt - b.toInt).sign)]
  | compareFloating (k : Kind) (a b r : Datum) (ha : a.kind = k) (hb : b.kind = k)
      (hr : r.Between (-1) 1) : Computes C ins (.compareFloating k) [b, a] [r]
  | testZero (c : Cond) (v : BitVec 32) : Computes C ins (.testZero c) [.int v] []
  | testInts (c : Cond) (a b : BitVec 32) : Computes C ins (.testInts c) [.int b, .int a] []
  | testRefs (c : Cond) (a b : Datum) (ha : a.kind = .ref) (hb : b.kind = .ref) :
      Computes C ins (.testRefs c) [b, a] []
  | testNull (isNull : Bool) (a : Datum) (ha : a.kind = .ref) :
      Computes C ins (.testNull isNull) [a] []
  | switch (v : BitVec 32) : Computes C ins .switch [.int v] []
  | returnValue (k : Kind) (d : Datum) (hd : d.kind = k) : Computes C ins (.returnValue k) [d] []
  | readField (ofObject : Bool) (r : SymbolRef) (t : JavaType) (receiver : List Datum) (d : Datum)
      (hr : ins.ref = some r) (ht : JavaType.parse r.descriptor = .ok t)
      (ho : IsReceiver ofObject receiver) (hd : d.kind = t.kind) :
      Computes C ins (.readField ofObject) receiver [d]
  | writeField (ofObject : Bool) (r : SymbolRef) (t : JavaType) (receiver : List Datum) (d : Datum)
      (hr : ins.ref = some r) (ht : JavaType.parse r.descriptor = .ok t)
      (ho : IsReceiver ofObject receiver) (hd : d.kind = t.kind) :
      Computes C ins (.writeField ofObject) (d :: receiver) []
  | invoke (kind : InvokeKind) (r : SymbolRef) (sig : Signature) (receiver params : List Datum)
      (d : Datum) (hr : ins.ref = some r) (hs : Signature.parse r.descriptor = .ok sig)
      (ho : IsReceiver kind.hasReceiver receiver)
      (hp : params.map Datum.kind = sig.params.map JavaType.kind)
      (hd : d.kind = sig.result.kind) (hres : Returns kind r receiver d) :
      Computes C ins (.invoke kind) (params.reverse ++ receiver)
        (if sig.result.category = .void then [] else [d])
  | newObject (r : SymbolRef) (hr : ins.ref = some r) :
      Computes C ins .newObject [] [.object r.cls]
  | newPrimitiveArray (desc : String) (n : BitVec 32) (length : Fin 2147483648)
      (hd : primitiveArrayDescriptor? ins.imm = some desc) (hn : n.toInt = (length : Nat)) :
      Computes C ins .newPrimitiveArray [.int n] [.array desc length]
  | newObjectArray (r : SymbolRef) (n : BitVec 32) (length : Fin 2147483648)
      (hr : ins.ref = some r) (hn : n.toInt = (length : Nat)) :
      Computes C ins .newObjectArray [.int n] [.array (arrayDescriptor r.cls) length]
  | newMultiArray (r : SymbolRef) (counts : List (BitVec 32)) (n : BitVec 32)
      (length : Fin 2147483648) (hr : ins.ref = some r) (hc : counts.length = ins.imm.toNat)
      (hpos : ∀ c ∈ counts, 0 ≤ c.toInt) (hlast : counts.getLast? = some n)
      (hn : n.toInt = (length : Nat)) :
      Computes C ins .newMultiArray (counts.map Datum.int) [.array r.cls length]
  | arrayLength (desc : String) (n : Fin 2147483648) :
      Computes C ins .arrayLength [.array desc n] [.int (BitVec.ofInt 32 (n : Nat))]
  | checkCast (r : SymbolRef) (d : Datum) (hr : ins.ref = some r)
      (hd : d = .null ∨ d.InstanceOf C r.cls) : Computes C ins .checkCast [d] [d]
  | instanceOf (r : SymbolRef) (d : Datum) (hr : ins.ref = some r)
      (hd : d.InstanceOf C r.cls) : Computes C ins .instanceOf [d] [.int 1]
  | notInstanceOf (r : SymbolRef) (d : Datum) (hr : ins.ref = some r) (hk : d.kind = .ref)
      (hd : ¬d.InstanceOf C r.cls) : Computes C ins .instanceOf [d] [.int 0]
  | monitor (d : Datum) (hd : d.kind = .ref ∧ d ≠ .null) : Computes C ins .monitor [d] []

/-! ## All operations -/

/-- The locals and the operands of a running method; the top of the stack comes first. -/
structure Activation where
  locals : Nat → Datum
  stack : List Datum

/-- The locals after a value is written to local `n`. -/
def writeLocal (locals : Nat → Datum) (n : Nat) (d : Datum) : Nat → Datum := fun i =>
  if i = n then d else if d.kind.wide ∧ i = n + 1 then .second else locals i

/-- What a shuffle does to the topmost slots, the topmost first. -/
inductive Reorders : Shuffle → List Datum → List Datum → Prop where
  | pop2 (a b : Datum) : Reorders .pop2 [a, b] []
  | dupX1 (a b : Datum) : Reorders .dupX1 [a, b] [a, b, a]
  | dupX2 (a b c : Datum) : Reorders .dupX2 [a, b, c] [a, b, c, a]
  | dup2 (a b : Datum) : Reorders .dup2 [a, b] [a, b, a, b]
  | dup2X1 (a b c : Datum) : Reorders .dup2X1 [a, b, c] [a, b, c, a, b]
  | dup2X2 (a b c d : Datum) : Reorders .dup2X2 [a, b, c, d] [a, b, c, d, a, b]
  | swap (a b : Datum) : Reorders .swap [a, b] [b, a]

/-- An operation leads from one activation to another. -/
inductive Executes (C : ClassRelation) (ins : Instruction) :
    Operation → Activation → Activation → Prop where
  | computes (o : Operation) (locals : Nat → Datum) (args results rest : List Datum)
      (h : Computes C ins o args results) :
      Executes C ins o ⟨locals, args.flatMap Datum.cells ++ rest⟩
        ⟨locals, results.flatMap Datum.cells ++ rest⟩
  | load (k : Kind) (slot : Option Nat) (locals : Nat → Datum) (stack : List Datum) (n : Nat)
      (hn : ins.slot = n) (hk : (locals n).kind = k) :
      Executes C ins (.load k slot) ⟨locals, stack⟩ ⟨locals, (locals n).cells ++ stack⟩
  | store (k : Kind) (slot : Option Nat) (locals : Nat → Datum) (stack : List Datum) (n : Nat)
      (d : Datum) (hn : ins.slot = n) (hk : d.kind = k) :
      Executes C ins (.store k slot) ⟨locals, d.cells ++ stack⟩ ⟨writeLocal locals n d, stack⟩
  | increment (locals : Nat → Datum) (stack : List Datum) (n : Nat) (v : BitVec 32)
      (hn : ins.index = n) (hv : locals n = .int v) :
      Executes C ins .increment ⟨locals, stack⟩
        ⟨writeLocal locals n (.int (BitVec.ofInt 32 (v.toInt + ins.imm))), stack⟩
  | pop (locals : Nat → Datum) (d : Datum) (stack : List Datum) :
      Executes C ins .pop ⟨locals, d :: stack⟩ ⟨locals, stack⟩
  | dup (locals : Nat → Datum) (d : Datum) (stack : List Datum) :
      Executes C ins .dup ⟨locals, d :: stack⟩ ⟨locals, d :: d :: stack⟩
  | shuffle (p : Shuffle) (locals : Nat → Datum) (before after rest : List Datum)
      (h : Reorders p before after) :
      Executes C ins (.shuffle p) ⟨locals, before ++ rest⟩ ⟨locals, after ++ rest⟩

/-- An instruction leads from one activation to another. -/
def Instruction.Executes (ins : Instruction) (C : ClassRelation) (a a' : Activation) : Prop :=
  ∃ o, ins.op.operation? = some o ∧ InlinePlan.Executes C ins o a a'

end InlinePlan
