set_option autoImplicit false

/-! # Byte strings read as text

A string constant is a sequence of bytes and need not be valid UTF-8. Reading it yields characters,
and one stray byte for each byte that starts no valid sequence. -/

namespace InlinePlan.Text

/-- A piece of a byte string: a character, or a byte that belongs to none. -/
inductive Piece where
  | char (c : Char)
  | stray (b : UInt8)
  deriving Repr, DecidableEq

/-- A byte of the form `10xxxxxx`. -/
def isContinuation (b : UInt8) : Bool := 0x80 ≤ b && b ≤ 0xBF

/-- The low six bits of a continuation byte. -/
def payload (b : UInt8) : Nat := b.toNat % 0x40

/-- The character that starts a byte string, with the number of bytes it takes: the shortest form
    only, and no surrogates. -/
def decodeHead? : List UInt8 → Option (Char × Nat)
  | [] => none
  | b :: rest =>
    if b < 0x80 then some (Char.ofNat b.toNat, 1)
    else match rest with
      | c :: rest =>
        if 0xC2 ≤ b && b ≤ 0xDF && isContinuation c then
          some (Char.ofNat (b.toNat % 0x20 * 0x40 + payload c), 2)
        else match rest with
          | d :: rest =>
            let n := b.toNat % 0x10 * 0x1000 + payload c * 0x40 + payload d
            if 0xE0 ≤ b && b ≤ 0xEF && isContinuation c && isContinuation d && 0x800 ≤ n
                && !(0xD800 ≤ n && n ≤ 0xDFFF) then
              some (Char.ofNat n, 3)
            else match rest with
              | e :: _ =>
                let n :=
                  b.toNat % 0x08 * 0x40000 + payload c * 0x1000 + payload d * 0x40 + payload e
                if 0xF0 ≤ b && b ≤ 0xF4 && isContinuation c && isContinuation d && isContinuation e
                    && 0x10000 ≤ n && n ≤ 0x10FFFF then
                  some (Char.ofNat n, 4)
                else none
              | [] => none
          | [] => none
      | [] => none

/-- Reads a byte string; `skip` counts the bytes of the current character still to pass over. -/
def piecesFrom : Nat → List UInt8 → List Piece
  | _, [] => []
  | skip + 1, _ :: bs => piecesFrom skip bs
  | 0, b :: bs =>
    match decodeHead? (b :: bs) with
    | some (c, n) => .char c :: piecesFrom (n - 1) bs
    | none => .stray b :: piecesFrom 0 bs

/-- The characters and stray bytes of a byte string, in order. -/
def pieces (bs : List UInt8) : List Piece := piecesFrom 0 bs

/-- The bytes of a text. -/
def bytesOf (cs : List Char) : List UInt8 := cs.flatMap String.utf8EncodeChar

/-- The text a byte string encodes, if it is valid. -/
def decode? (bs : List UInt8) : Option (List Char) :=
  (pieces bs).mapM fun
    | .char c => some c
    | .stray _ => none

/-- The number of UTF-16 units of a byte string; a stray byte counts as one. -/
def units16 (bs : List UInt8) : Nat :=
  ((pieces bs).map fun
    | .char c => if c.toNat < 0x10000 then 1 else 2
    | .stray _ => 1).foldr (· + ·) 0

end InlinePlan.Text
