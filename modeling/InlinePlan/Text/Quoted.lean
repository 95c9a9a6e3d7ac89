import InlinePlan.Text.Printable
import InlinePlan.Text.Utf8

set_option autoImplicit false

/-! # Quoted text

Text between double quotes with backslash escapes, as messages show it and as string constants are
written. Writing keeps printable characters, uses the one-letter escapes where there is one, two hex
digits below U+0080 and for stray bytes, four or eight otherwise. Reading accepts every such form,
and also octal escapes and hex digits in upper case. -/

namespace InlinePlan.Text

/-! ## Writing -/

/-- The digits of `n` in base 16, lower case, at least `width` of them. -/
def hexDigits (width n : Nat) : List Char :=
  let ds := Nat.toDigits 16 n
  List.replicate (width - ds.length) '0' ++ ds

/-- The letter of the one-letter escape of a control character. -/
def escapeLetter? (c : Char) : Option Char :=
  match c.toNat with
  | 7 => some 'a'
  | 8 => some 'b'
  | 9 => some 't'
  | 10 => some 'n'
  | 11 => some 'v'
  | 12 => some 'f'
  | 13 => some 'r'
  | _ => none

/-- One character inside quotes of the given kind. -/
def escapeChar (quote c : Char) : List Char :=
  if c = quote ∨ c = '\\' then ['\\', c]
  else if isPrintable c then [c]
  else match escapeLetter? c with
    | some l => ['\\', l]
    | none =>
      let n := c.toNat
      if n < 0x20 ∨ n = 0x7F then '\\' :: 'x' :: hexDigits 2 n
      else if n < 0x10000 then '\\' :: 'u' :: hexDigits 4 n
      else '\\' :: 'U' :: hexDigits 8 n

/-- One piece of a byte string inside double quotes. -/
def escapePiece : Piece → List Char
  | .char c => escapeChar '\x22' c
  | .stray b => '\\' :: 'x' :: hexDigits 2 b.toNat

/-- A byte string between double quotes. -/
def quoteBytes (bs : List UInt8) : List Char :=
  '\x22' :: (pieces bs).flatMap escapePiece ++ ['\x22']

/-- A text between double quotes. -/
def quote (s : String) : String :=
  String.ofList ('\x22' :: s.toList.flatMap (escapeChar '\x22') ++ ['\x22'])

/-- A character between single quotes. -/
def quoteChar (c : Char) : String :=
  String.ofList ('\x27' :: escapeChar '\x27' c ++ ['\x27'])

/-! ## Reading -/

/-- The value of a hexadecimal digit in either case. -/
def hexValue? (c : Char) : Option Nat :=
  let n := c.toNat
  if 48 ≤ n ∧ n ≤ 57 then some (n - 48)
  else if 97 ≤ n ∧ n ≤ 102 then some (n - 87)
  else if 65 ≤ n ∧ n ≤ 70 then some (n - 55)
  else none

/-- The value of an octal digit. -/
def octalValue? (c : Char) : Option Nat :=
  let n := c.toNat
  if 48 ≤ n ∧ n ≤ 55 then some (n - 48) else none

/-- Reads a number of exactly `count` digits in the given base. -/
def readDigits? (base : Nat) (value? : Char → Option Nat) :
    (count : Nat) → (acc : Nat) → List Char → Option (Nat × List Char)
  | 0, acc, cs => some (acc, cs)
  | _ + 1, _, [] => none
  | count + 1, acc, c :: cs =>
    (value? c).bind fun d => readDigits? base value? count (acc * base + d) cs

/-- The bytes of the character with code `n`, unless there is none. -/
def scalarBytes? (n : Nat) : Option (List UInt8) :=
  if n.isValidChar then some (String.utf8EncodeChar (Char.ofNat n)) else none

/-- What follows a backslash: the bytes it stands for and the rest. -/
def unescape? : List Char → Option (List UInt8 × List Char)
  | [] => none
  | c :: cs =>
    match c with
    | 'a' => some ([7], cs)
    | 'b' => some ([8], cs)
    | 'f' => some ([12], cs)
    | 'n' => some ([10], cs)
    | 'r' => some ([13], cs)
    | 't' => some ([9], cs)
    | 'v' => some ([11], cs)
    | '\\' => some ([92], cs)
    | '\x22' => some ([34], cs)
    | 'x' => (readDigits? 16 hexValue? 2 0 cs).map fun (n, cs) => ([UInt8.ofNat n], cs)
    | 'u' => (readDigits? 16 hexValue? 4 0 cs).bind fun (n, cs) =>
        (scalarBytes? n).map fun bs => (bs, cs)
    | 'U' => (readDigits? 16 hexValue? 8 0 cs).bind fun (n, cs) =>
        (scalarBytes? n).map fun bs => (bs, cs)
    | _ =>
      (readDigits? 8 octalValue? 3 0 (c :: cs)).bind fun (n, cs) =>
        if n ≤ 255 then some ([UInt8.ofNat n], cs) else none

/-- Reads up to the closing quote, which must end the text. The fuel bounds the number of
    characters read. -/
def unquoteBody? : (fuel : Nat) → List Char → Option (List UInt8)
  | 0, _ => none
  | _ + 1, [] => none
  | fuel + 1, c :: cs =>
    if c = '\x22' then (if cs.isEmpty then some [] else none)
    else if c = '\n' then none
    else if c = '\\' then
      (unescape? cs).bind fun (bs, rest) => (unquoteBody? fuel rest).map (bs ++ ·)
    else (unquoteBody? fuel cs).map (String.utf8EncodeChar c ++ ·)

/-- The bytes that a text between double quotes stands for. -/
def unquote? : List Char → Option (List UInt8)
  | '\x22' :: cs => unquoteBody? (cs.length + 1) cs
  | _ => none

end InlinePlan.Text
