set_option autoImplicit false

/-! # Reading integers

Integers of a bounded width with an optional sign, in base ten or with a base marker (`0x`, `0o`,
`0b`, or a leading zero for base eight). Reading stops at the first fault: a character that is no
digit, or a digit that takes the magnitude out of the unsigned range of the width. -/

namespace InlinePlan.Decimal

/-- Why a text is no number. -/
inductive NumberFault where
  | malformed
  | range
  deriving Repr, DecidableEq

def NumberFault.message : NumberFault → String
  | .malformed => "invalid syntax"
  | .range => "value out of range"

/-- The lower-case form of an ASCII letter. -/
def lowerAscii (c : Char) : Char :=
  if 65 ≤ c.toNat ∧ c.toNat ≤ 90 then Char.ofNat (c.toNat + 32) else c

/-- The value of a digit of any base up to 36. -/
def digitValue? (c : Char) : Option Nat :=
  let n := (lowerAscii c).toNat
  if 48 ≤ n ∧ n ≤ 57 then some (n - 48)
  else if 97 ≤ n ∧ n ≤ 122 then some (n - 87)
  else none

/-- Reads digits onto `acc`; the magnitude must stay below `limit`. Underscores are passed over when
    `spaced` says so. -/
def readMagnitude (base limit : Nat) (spaced : Bool) :
    List Char → (acc : Nat) → Except NumberFault Nat
  | [], acc => .ok acc
  | c :: cs, acc =>
    if spaced && c == '_' then readMagnitude base limit spaced cs acc
    else match digitValue? c with
      | none => .error .malformed
      | some d =>
        if base ≤ d then .error .malformed
        else if limit ≤ acc * base + d then .error .range
        else readMagnitude base limit spaced cs (acc * base + d)

/-- A sign and the rest. -/
def splitSign : List Char → Bool × List Char
  | '+' :: cs => (false, cs)
  | '-' :: cs => (true, cs)
  | cs => (false, cs)

/-- Applies a sign to a magnitude and checks the signed range of `bits` bits. -/
def signed (bits : Nat) (negative : Bool) (n : Nat) : Except NumberFault Int :=
  if negative then (if n ≤ Nat.pow 2 (bits - 1) then .ok (-n) else .error .range)
  else (if n < Nat.pow 2 (bits - 1) then .ok n else .error .range)

/-- Reads a decimal integer of `bits` bits: an optional sign and at least one digit. -/
def readInt (bits : Nat) (cs : List Char) : Except NumberFault Int :=
  let (negative, ds) := splitSign cs
  if ds.isEmpty then .error .malformed
  else (readMagnitude 10 (Nat.pow 2 bits) false ds 0).bind (signed bits negative)

/-! ## Base markers -/

/-- What the last character was while the underscores of a number are checked. -/
inductive Spacing where
  | start
  | digit
  | underscore
  | other
  deriving Repr, DecidableEq

/-- Underscores stand between digits only; a base marker counts as a digit. -/
def spacingFrom (hex : Bool) : List Char → Spacing → Bool
  | [], last => last ≠ .underscore
  | c :: cs, last =>
    let isDigit := c.isDigit || (hex && 97 ≤ (lowerAscii c).toNat && (lowerAscii c).toNat ≤ 102)
    if isDigit then spacingFrom hex cs .digit
    else if c = '_' then (if last = .digit then spacingFrom hex cs .underscore else false)
    else if last = .underscore then false
    else spacingFrom hex cs .other

/-- Whether the underscores of a signed number with an optional base marker are well placed. -/
def wellSpaced (cs : List Char) : Bool :=
  match (splitSign cs).2 with
  | '0' :: m :: rest =>
    let m' := lowerAscii m
    if m' = 'x' then spacingFrom true rest .digit
    else if m' = 'b' ∨ m' = 'o' then spacingFrom false rest .digit
    else spacingFrom false ('0' :: m :: rest) .start
  | rest => spacingFrom false rest .start

/-- The base that the start of an unsigned number selects, and its digits. -/
def splitBase : List Char → Nat × List Char
  | '0' :: m :: c :: cs =>
    match lowerAscii m with
    | 'b' => (2, c :: cs)
    | 'o' => (8, c :: cs)
    | 'x' => (16, c :: cs)
    | _ => (8, m :: c :: cs)
  | '0' :: cs => (8, cs)
  | cs => (10, cs)

/-- The magnitude of a number that may carry a base marker and underscores. -/
def readMarkedMagnitude (limit : Nat) (whole digits : List Char) : Except NumberFault Nat :=
  if digits.isEmpty then .error .malformed
  else
    let (base, ds) := splitBase digits
    (readMagnitude base limit true ds 0).bind fun n =>
      if ds.contains '_' && !wellSpaced whole then .error .malformed else .ok n

/-- Reads an integer of `bits` bits that may carry a base marker and underscores. -/
def readMarkedInt (bits : Nat) (cs : List Char) : Except NumberFault Int :=
  let (negative, ds) := splitSign cs
  (readMarkedMagnitude (Nat.pow 2 bits) cs ds).bind (signed bits negative)

end InlinePlan.Decimal
