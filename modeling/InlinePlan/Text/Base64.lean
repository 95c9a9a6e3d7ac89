set_option autoImplicit false

/-! # Bytes in base 64

Four letters of an alphabet of 64 stand for three bytes. Equal signs fill up the last four letters
when there is only one byte or two. -/

namespace InlinePlan.Text

/-- The six bits that a letter stands for. -/
def base64Value? (c : Char) : Option Nat :=
  if 'A' ≤ c ∧ c ≤ 'Z' then some (c.toNat - 65)
  else if 'a' ≤ c ∧ c ≤ 'z' then some (c.toNat - 71)
  else if c.isDigit then some (c.toNat + 4)
  else if c = '+' then some 62
  else if c = '/' then some 63
  else none

/-- The value of some letters, taken together. -/
def base64Group? (cs : List Char) : Option Nat :=
  (cs.mapM base64Value?).map (·.foldl (fun n v => n * 64 + v) 0)

/-- Reads groups of four letters. Bits that fill up the last byte are ignored. -/
def base64Groups? : List Char → Option (List UInt8)
  | [] => some []
  | [a, b, '=', '='] => (base64Group? [a, b]).map fun n => [UInt8.ofNat (n / 16)]
  | [a, b, c, '='] =>
    (base64Group? [a, b, c]).map fun n => [UInt8.ofNat (n / 1024), UInt8.ofNat (n / 4)]
  | a :: b :: c :: d :: rest =>
    (base64Group? [a, b, c, d]).bind fun n =>
      (base64Groups? rest).map fun bs =>
        UInt8.ofNat (n / 65536) :: UInt8.ofNat (n / 256) :: UInt8.ofNat n :: bs
  | _ => none

/-- The bytes of a text in base 64, in which line ends are ignored. -/
def readBase64? (cs : List Char) : Option (List UInt8) :=
  base64Groups? (cs.filter fun c => c ≠ '\n' && c ≠ '\r')

end InlinePlan.Text
