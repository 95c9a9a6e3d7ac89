import InlinePlan.Bytecode.Opcode

set_option autoImplicit false

/-! # Integer arithmetic

What the integer instructions compute on constants. Operands and results are integers in the range
of their width; between them the words of that width do the work, so results wrap around. -/

namespace InlinePlan

/-- The integer that the lowest `bits` bits stand for in two's complement. -/
def wrap (bits : Nat) (v : Int) : Int := (BitVec.ofInt bits v).toInt

/-- How many entries of a size in bytes an array can have at most: addresses have 48 bits. How much
    memory there is in fact, and how much of it is set aside for entries to come, does not matter
    here. -/
def maxEntries (size : Nat) : Nat := 0x1000000000000 / size

namespace Arith

/-- The word that an operation yields; nothing for a division by zero. -/
def word {bits : Nat} (f : Arith) (a b : BitVec bits) : Option (BitVec bits) :=
  match f with
  | .add => some (a + b)
  | .sub => some (a - b)
  | .mul => some (a * b)
  | .div => if b = 0 then none else some (a.sdiv b)
  | .rem => if b = 0 then none else some (a.srem b)
  | .and => some (a &&& b)
  | .or => some (a ||| b)
  | .xor => some (a ^^^ b)

/-- The result of an operation at a width. -/
def eval (f : Arith) (w : Width) (a b : Int) : Option Int :=
  (f.word (BitVec.ofInt w.bits a) (BitVec.ofInt w.bits b)).map BitVec.toInt

end Arith

namespace Shift

def word {bits : Nat} (f : Shift) (a : BitVec bits) (count : Nat) : BitVec bits :=
  match f with
  | .left => a <<< count
  | .right => a.sshiftRight count
  | .unsignedRight => a >>> count

/-- Shifts by the lowest five or six bits of the count. -/
def eval (f : Shift) (w : Width) (a count : Int) : Int :=
  (f.word (BitVec.ofInt w.bits a) ((BitVec.ofInt 32 count).toNat % w.bits)).toInt

end Shift

/-- The negation at a width. -/
def negate (w : Width) (a : Int) : Int := (-BitVec.ofInt w.bits a).toInt

namespace Conversion

def source : Conversion → Kind
  | .longToInt => .long
  | .lossy s _ => s
  | _ => .int

def target : Conversion → Kind
  | .intToLong => .long
  | .lossy _ t => t
  | _ => .int

/-- The converted integer, for the exact conversions. -/
def eval? (c : Conversion) (v : Int) : Option Int :=
  match c with
  | .intToLong => some v
  | .longToInt => some (wrap 32 v)
  | .intToByte => some (wrap 8 v)
  | .intToChar => some (BitVec.ofInt 16 v).toNat
  | .intToShort => some (wrap 16 v)
  | .lossy _ _ => none

end Conversion

/-- The three-way comparison of two longs. -/
def compareInts (a b : Int) : Int := if a < b then -1 else if b < a then 1 else 0

end InlinePlan
