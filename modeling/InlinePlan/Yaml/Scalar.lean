import InlinePlan.Text.Quoted

set_option autoImplicit false

/-! # Writing YAML scalars

A text is written plain if that is allowed: if it cannot be taken for markup, has one line only and
no blank at its ends. Otherwise it stands in single quotes, or in double quotes if it has characters
that must be escaped. A text with line feeds is written as a block, one line under the other. -/

namespace InlinePlan.Yaml

/-- Characters that have to be escaped. -/
def isSpecial (c : Char) : Bool :=
  let n := c.toNat
  !(n == 0x0A || (0x20 ≤ n && n ≤ 0x7E) || (0xA0 ≤ n && n ≤ 0xFFFD && n != 0xFEFF))

/-- The separators of lines and of paragraphs. -/
def isSeparator (c : Char) : Bool := c = '\u2028' || c = '\u2029'

/-- The line ends that need no escape: the line feed and the two separators. -/
def endsLine (c : Char) : Bool := c = '\n' || isSeparator c

/-! ## Which form -/

/-- Whether a blank or the end follows. -/
def endsHere : List Char → Bool
  | [] => true
  | c :: _ => c = ' ' || c = '\t'

/-- Whether the start of a text could be taken for markup. -/
def startsMarkup : List Char → Bool
  | [] => true
  | c :: cs =>
    "#,[]\x7b\x7d&*!|>\x27\x22%@\x60".toList.contains c
      || ((c = '-' || c = '?' || c = ':') && endsHere cs)

/-- Whether markup could be seen after the start: a colon before a blank or a hash after one. -/
def hasMarkup : List Char → Bool
  | [] => false
  | ' ' :: '#' :: _ => true
  | ':' :: cs => endsHere cs || hasMarkup cs
  | _ :: cs => hasMarkup cs

/-- Whether a text starts with the characters of a document marker. -/
def startsDocument (cs : List Char) : Bool :=
  cs.take 3 = "---".toList || cs.take 3 = "...".toList

/-- Whether a text may be written plain. -/
def isPlain (cs : List Char) : Bool :=
  !(startsMarkup cs || hasMarkup (cs.drop 1) || startsDocument cs || cs.head? = some ' '
    || cs.getLast? = some ' ' || cs.any endsLine)

/-- Whether two characters with given properties stand next to each other. -/
def adjacent (p q : Char → Bool) (cs : List Char) : Bool :=
  (cs.zip (cs.drop 1)).any fun (a, b) => p a && q b

/-- Whether a space stands right before a line end. -/
def spaceBeforeEnd (cs : List Char) : Bool := adjacent (· = ' ') endsLine cs

/-- Whether a line other than the first starts with a space. -/
def spaceAfterEnd (cs : List Char) : Bool := adjacent endsLine (· = ' ') cs

/-! ## The forms -/

/-- Puts `indent` spaces before each line that is not empty; `fresh` says that one starts here. -/
def indentLines (indent : Nat) : (fresh : Bool) → List Char → List Char
  | _, [] => []
  | fresh, c :: cs =>
    if endsLine c then c :: indentLines indent true cs
    else
      (if fresh then List.replicate indent ' ' else []) ++ c :: indentLines indent false cs

/-- A text in single quotes, which are doubled inside. -/
def singleQuoted (indent : Nat) (cs : List Char) : String :=
  let doubled := cs.flatMap fun c => if c = '\x27' then [c, c] else [c]
  "\x27" ++ String.ofList (indentLines indent false doubled) ++ "\x27"

/-- The letters that escape a character on their own. -/
def shortEscapes : List (Nat × Char) :=
  [(0x00, '0'), (0x07, 'a'), (0x08, 'b'), (0x09, 't'), (0x0A, 'n'), (0x0B, 'v'), (0x0C, 'f'),
    (0x0D, 'r'), (0x1B, 'e'), (0x22, '\x22'), (0x5C, '\\'), (0x85, 'N'), (0xA0, '_'),
    (0x2028, 'L'), (0x2029, 'P')]

def escaped (c : Char) : List Char :=
  let n := c.toNat
  let hex (width : Nat) : List Char := (Text.hexDigits width n).map Char.toUpper
  match shortEscapes.lookup n with
  | some letter => ['\\', letter]
  | none =>
    if n ≤ 0xFF then '\\' :: 'x' :: hex 2
    else if n ≤ 0xFFFF then '\\' :: 'u' :: hex 4
    else '\\' :: 'U' :: hex 8

/-- A text in double quotes. Behind a byte order mark at the start, every character is escaped. -/
def doubleQuoted (cs : List Char) : String :=
  let marked := cs.head? = some '\ufeff'
  let body := cs.flatMap fun c =>
    if marked || isSpecial c || endsLine c || c = '\x22' || c = '\\' then escaped c else [c]
  "\x22" ++ String.ofList body ++ "\x22"

/-- Whether the last line ends, and whether an empty one precedes the end. -/
def chomping (cs : List Char) : String :=
  match cs.reverse with
  | [] => "-"
  | [c] => if endsLine c then "+" else "-"
  | c :: d :: _ => if !endsLine c then "-" else if endsLine d then "+" else ""

/-- A text of several lines, each after `indent` spaces. A line end at its start ends the line of
    the bar; the line feed at its end is left out. -/
def block (indent : Nat) (cs : List Char) : String :=
  let hint := if cs.head?.any fun c => c = ' ' || endsLine c then "4" else ""
  let lines := indentLines indent true cs
  let body := if cs.head?.any endsLine then lines else '\n' :: lines
  let kept := if body.getLast? = some '\n' then body.dropLast else body
  "|" ++ hint ++ chomping cs ++ String.ofList kept

/-- A text as a scalar; the lines of a block stand after `indent` spaces. -/
def scalarText (indent : Nat) (text : String) : String :=
  let cs := text.toList
  let special := cs.any fun c => c ≠ '\t' && isSpecial c
  if cs.contains '\n' then
    if special || spaceBeforeEnd cs || cs.getLast? = some ' ' then doubleQuoted cs
    else block indent cs
  else if special || cs.contains '\t' || spaceBeforeEnd cs || spaceAfterEnd cs then doubleQuoted cs
  else if isPlain cs then text
  else singleQuoted indent cs

/-- Ends the line of a scalar. One that itself ends in a separator has ended its line. -/
def closeLine (scalar : String) : String :=
  if scalar.toList.getLast?.any isSeparator then scalar else scalar ++ "\n"

end InlinePlan.Yaml
