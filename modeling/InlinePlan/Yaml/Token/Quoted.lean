import InlinePlan.Text.Quoted
import InlinePlan.Yaml.Cursor

set_option autoImplicit false

/-! # Quoted scalars

Between single quotes only the quote itself is special and is written twice. Between double quotes a
backslash starts an escape, and one before a line end joins two lines. In both a gap is folded, and
a document marker at the start of a line is a fault. -/

namespace InlinePlan.Yaml

/-- Reads up to a closing single quote. `read` is what was read so far, in reverse. -/
def singleFrom : List Char → Mark → Gap → (read : List Char) → Option (List Char × Cursor)
  | [], _, _, _ => none
  | c :: cs, m, gap, read =>
    if isBlank c then singleFrom cs (m.past c) (gap.addBlank c) read
    else if isBreak c then singleFrom cs (m.past c) (gap.addBreak c) read
    else if gap.isOpen && atDocumentMark (c :: cs) m then none
    else
      let read := gap.text.reverse ++ read
      if c = '\x27' then
        match cs with
        | '\x27' :: cs => singleFrom cs ((m.past c).past c) {} ('\x27' :: read)
        | cs => some (read.reverse, ⟨cs, m.past c⟩)
      else singleFrom cs (m.past c) {} (c :: read)

/-- The character of a one-letter escape. -/
def escaped? : Char → Option Char
  | '0' => some '\x00'
  | 'a' => some '\x07'
  | 'b' => some '\x08'
  | 't' => some '\t'
  | '\t' => some '\t'
  | 'n' => some '\n'
  | 'v' => some '\x0b'
  | 'f' => some '\x0c'
  | 'r' => some '\r'
  | 'e' => some '\x1b'
  | ' ' => some ' '
  | '\x22' => some '\x22'
  | '\x27' => some '\x27'
  | '\\' => some '\\'
  | 'N' => some '\u0085'
  | '_' => some '\u00a0'
  | 'L' => some '\u2028'
  | 'P' => some '\u2029'
  | _ => none

/-- The number of hex digits of a numeric escape. -/
def escapeWidth? : Char → Option Nat
  | 'x' => some 2
  | 'u' => some 4
  | 'U' => some 8
  | _ => none

/-- The character that the letter after a backslash and what follows it stand for, and the number of
    digits that belong to it. -/
def readEscape? (letter : Char) (cs : List Char) : Option (Char × Nat) :=
  match escaped? letter with
  | some c => some (c, 0)
  | none =>
    (escapeWidth? letter).bind fun width =>
      (Text.readDigits? 16 Text.hexValue? width 0 cs).bind fun (n, _) =>
        if n.isValidChar then some (Char.ofNat n, width) else none

/-- Reads up to a closing double quote. The next `digits` characters belong to an escape that was
    read already. -/
def doubleFrom : List Char → Mark → (digits : Nat) → Gap → (read : List Char) →
    Option (List Char × Cursor)
  | [], _, _, _, _ => none
  | c :: cs, m, digits + 1, gap, read => doubleFrom cs (m.past c) digits gap read
  | c :: cs, m, 0, gap, read =>
    if isBlank c then doubleFrom cs (m.past c) 0 (gap.addBlank c) read
    else if isBreak c then doubleFrom cs (m.past c) 0 (gap.addBreak c) read
    else if gap.isOpen && atDocumentMark (c :: cs) m then none
    else
      let read := gap.text.reverse ++ read
      if c = '\x22' then some (read.reverse, ⟨cs, m.past c⟩)
      else if c = '\\' then
        match cs with
        | [] => none
        | d :: ds =>
          let m := (m.past c).past d
          if isBreak d then doubleFrom ds m 0 { broken := true } read
          else match readEscape? d ds with
            | some (e, width) => doubleFrom ds m width {} (e :: read)
            | none => none
      else doubleFrom cs (m.past c) 0 {} (c :: read)

/-- Reads a scalar from its opening quote on. -/
def readQuoted? (cur : Cursor) : Option (List Char × Cursor) :=
  match cur.rest with
  | '\x27' :: cs => singleFrom cs (cur.mark.past '\x27') {} []
  | '\x22' :: cs => doubleFrom cs (cur.mark.past '\x22') 0 {} []
  | _ => none

end InlinePlan.Yaml
