import InlinePlan.Analysis.Arithmetic
import InlinePlan.Analysis.Fault
import InlinePlan.Bytecode.Method

set_option autoImplicit false

/-! # Frames

The abstract state of a method at one point: its local variables and its operand stack. A 64-bit
value takes two slots, itself and a padding slot after it. Operations that can fail run in `FrameM`,
so that a failed one still shows the slots it had already taken. -/

namespace InlinePlan

/-- Local variables and operands; the top of the stack comes first. -/
structure Frame where
  locals : List Value
  stack : List Value
  deriving Repr, DecidableEq, Inhabited

/-- Operations on a frame. -/
abbrev FrameM := EStateM Fault Frame

namespace Frame

/-- How many slots an array of slots can have at most; each takes 16 bytes. -/
def maxSlots : Nat := maxEntries 16

/-! ## Construction -/

/-- A frame with unusable locals and no operands. -/
def blank (maxLocals : Nat) : Frame := ⟨List.replicate maxLocals .unusable, []⟩

/-- The slots of a value: itself, and padding after a 64-bit one. -/
def slotsOf (v : Value) : List Value := if v.isWide then [v, .pad] else [v]

/-- The slots of the parameters, marked by position from `position` on. -/
def paramSlots : (position : Nat) → List JavaType → List Value
  | _, [] => []
  | position, t :: ts =>
    slotsOf ((Value.top t.kind).withParam position) ++ paramSlots (position + 1) ts

/-- The slots of all arguments, the receiver first. -/
def argSlots (m : Method) : List Value :=
  if m.isStatic then paramSlots 0 m.signature.params
  else (Value.known .ref (.nonNullObject m.cls)).withParam 0 :: paramSlots 1 m.signature.params

/-- How many locals a method starts with. -/
def entrySize (m : Method) : Nat := max m.maxLocals.toNat m.paramSlots

/-- The frame on entry to a method: its arguments and then unusable locals. A run that would start
    with more than `maxSlots` locals does not get this far. -/
def entry (m : Method) : Frame :=
  let args := argSlots m
  ⟨args ++ List.replicate (entrySize m - args.length) .unusable, []⟩

/-! ## Parts -/

def depth (s : Frame) : Nat := s.stack.length

/-- The content of a local; a slot outside the frame is unusable. -/
def localAt (s : Frame) (i : Int) : Value :=
  if i < 0 then .unusable else s.locals.getD i.toNat .unusable

/-! ## Widening -/

/-- Forgets the fact of a slot, and its mark unless `keepMark`. -/
def forget (keepMark : Bool) : Value → Value
  | .pad => .pad
  | .slot k _ p => .slot k none (if keepMark then p else none)

/-- Forgets every fact. Only the locals that no instruction writes keep their mark. -/
def widen (s : Frame) (written : List Bool) : Frame :=
  ⟨s.locals.mapIdx fun i v => forget (!(written.getD i false)) v, s.stack.map (forget false)⟩

/-! ## Merging -/

/-- The merge of two locals; those of different kinds become unusable. -/
def mergeLocal (a b : Value) : Value :=
  match a.join b with
  | .ok v => v
  | .error _ => .unusable

/-- Merges locals slot by slot; a missing slot is unusable. -/
def mergeLocals : List Value → List Value → List Value
  | [], [] => []
  | a :: as, [] => mergeLocal a .unusable :: mergeLocals as []
  | [], b :: bs => mergeLocal .unusable b :: mergeLocals [] bs
  | a :: as, b :: bs => mergeLocal a b :: mergeLocals as bs

/-- Makes 64-bit locals unusable that have lost their padding. -/
def dropLoneValues : List Value → List Value
  | [] => []
  | [v] => [if v.isWide then .unusable else v]
  | v :: w :: vs => (if v.isWide && !w.isPad then .unusable else v) :: dropLoneValues (w :: vs)

/-- Makes padding unusable that follows no 64-bit value; `afterWide` speaks of the slot before. -/
def dropLonePads : (afterWide : Bool) → List Value → List Value
  | _, [] => []
  | afterWide, v :: vs =>
    (if v.isPad && !afterWide then .unusable else v) :: dropLonePads v.isWide vs

/-- Makes locals unusable whose pair is broken. -/
def dropBrokenPairs (locals : List Value) : List Value := dropLonePads false (dropLoneValues locals)

/-- Merges operands, bottom first. A mismatch comes with the operands merged so far. -/
def mergeOperands : List Value → List Value → Except (Mismatch × List Value) (List Value)
  | a :: as, b :: bs =>
    match a.join b with
    | .error e => .error (e, a :: as)
    | .ok c =>
      match mergeOperands as bs with
      | .error (e, rest) => .error (e, c :: rest)
      | .ok rest => .ok (c :: rest)
  | as, _ => .ok as

/-- Merges a second frame into the first. The stacks must agree in depth and in kinds; a mismatch
    comes with the frame as far as it was merged. -/
def mergeOrLeave (s o : Frame) : Except (Mismatch × Frame) Frame :=
  if s.depth ≠ o.depth then .error (.depths s.depth o.depth, s)
  else
    let locals := mergeLocals s.locals o.locals
    match mergeOperands s.stack.reverse o.stack.reverse with
    | .error (e, stack) => .error (e, ⟨locals, stack.reverse⟩)
    | .ok stack => .ok ⟨dropBrokenPairs locals, stack.reverse⟩

/-- Merges two frames, if their stacks agree. -/
def merge (s o : Frame) : Except Mismatch Frame := (s.mergeOrLeave o).mapError (·.1)

/-! ## Operands -/

/-- Pushes one slot. -/
def pushSlot (v : Value) : FrameM Unit := modify fun s => { s with stack := v :: s.stack }

/-- Pushes a value, with its padding if it is a 64-bit one. -/
def push (v : Value) : FrameM Unit :=
  modify fun s => { s with stack := (slotsOf v).reverse ++ s.stack }

/-- Takes one slot. -/
def popSlot : FrameM Value := fun s =>
  match s.stack with
  | [] => .error .underflow s
  | v :: vs => .ok v { s with stack := vs }

/-- Takes a value of a kind, with its padding if it is a 64-bit one. -/
def pop (k : Kind) : FrameM Value := do
  if k.wide then
    let p ← popSlot
    if !p.isPad then throw (.wrongKind k p)
  let v ← popSlot
  if v.isPad || v.kind ≠ k then throw (.wrongKind k v)
  return v

/-- Takes values of a kind and returns them bottom first, followed by `above`. -/
def popMany (k : Kind) : (count : Nat) → (above : List Value) → FrameM (List Value)
  | 0, above => return above
  | count + 1, above => do
    let v ← pop k
    popMany k count (v :: above)

/-- Takes `count` values of a kind into an array that is made before the first one is taken. -/
def popArray (k : Kind) (count : Int) : FrameM (List Value) := do
  if count < 0 ∨ maxSlots < count then throw (.noRoom count)
  popMany k count.toNat []

/-- The operand at a depth counted from the bottom. -/
def operandAt (i : Int) : FrameM Value := do
  let s ← get
  if i < 0 then throw (.noSuchOperand i)
  match s.stack.reverse[i.toNat]? with
  | some v => return v
  | none => throw (.noSuchOperand i)

/-- Drops all operands. -/
def clear : FrameM Unit := modify fun s => { s with stack := [] }

/-! ## Locals -/

/-- Reads a value of a kind from a local. -/
def load (i : Int) (k : Kind) : FrameM Value := do
  let s ← get
  let v := s.localAt i
  if !v.isReadable || v.kind ≠ k then throw (.unloadable k i v)
  if k.wide && !(s.localAt (i + 1)).isPad then throw (.lostSecondWord i)
  return v

/-- Adds unusable slots up to a length. -/
def grow (length : Nat) (locals : List Value) : List Value :=
  locals ++ List.replicate (length - locals.length) .unusable

/-- Makes slot `i` unusable if `p` holds of it. -/
def spoil (p : Value → Bool) (i : Int) (locals : List Value) : List Value :=
  if i < 0 then locals else locals.modify i.toNat fun v => if p v then .unusable else v

/-- The locals with room for `width` slots at `i`, and with the halves of 64-bit values spoilt that
    a store there cuts off. -/
def makeRoom (i : Int) (width : Nat) (locals : List Value) : List Value :=
  spoil Value.isPad (i + width) (spoil Value.isWide (i - 1) (grow (i + width).toNat locals))

/-- Puts slots into the locals from position `i` on. -/
def writeSlots : (i : Nat) → List Value → List Value → List Value
  | _, [], locals => locals
  | i, v :: vs, locals => writeSlots (i + 1) vs (locals.set i v)

/-- Writes a value to a local. -/
def store (i : Int) (v : Value) : FrameM Unit := do
  let s ← get
  let count : Int := i + (slotsOf v).length
  if s.locals.length < count ∧ maxSlots < count then throw (.noRoom count)
  modify fun s => { s with locals := makeRoom i (slotsOf v).length s.locals }
  if i < 0 then throw (.negativeSlot i)
  modify fun s => { s with locals := writeSlots i.toNat (slotsOf v) s.locals }

/-! ## Text -/

def text (s : Frame) : String :=
  "locals[" ++ String.intercalate " " (s.locals.map Value.text) ++ "] stack["
    ++ String.intercalate " " (s.stack.reverse.map Value.text) ++ "]"

end Frame

end InlinePlan
