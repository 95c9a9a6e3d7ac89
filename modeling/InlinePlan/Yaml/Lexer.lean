import InlinePlan.Yaml.Token
import InlinePlan.Yaml.Token.Block
import InlinePlan.Yaml.Token.Plain
import InlinePlan.Yaml.Token.Property
import InlinePlan.Yaml.Token.Quoted

set_option autoImplicit false

/-! # From text to tokens

Tokens are produced on demand and wait in a queue. That a scalar, a bracket or an anchor was the key
of a mapping shows only at the colon after it, which must stand on the same line and at most 1024
characters further on; a token for the key is then put into the queue before it. So each level of
brackets remembers the last place where a key could have started. In block context the column of a
token closes the collections that are indented further, and a key or a dash that is indented further
than the collection around it opens a new one.

The queue is kept at three tokens at least, and is filled up as long as its first token may turn out
to be a key. A fault anywhere in what is filled in is a fault of the text, even past the end of the
first document. -/

namespace InlinePlan.Yaml

/-- A place where a key may have started: the number of its token, and whether a colon has to
    follow. While it is `watched`, the queue is filled up for it. -/
structure KeyPlace where
  possible : Bool := false
  required : Bool := false
  watched : Bool := false
  number : Nat := 0
  mark : Mark := {}
  deriving Repr

/-- The state of reading tokens. `key` belongs to the innermost level of brackets and `outerKeys` to
    those around it; there is one level without brackets. `taken` counts the tokens that have left
    the queue, and `most` bounds how many a text can have. A text whose first character is a byte
    order mark is `skewed`: it loses one character at the start of each line. -/
structure Lexer where
  cursor : Cursor
  most : Nat
  skewed : Bool := false
  indent : Int := -1
  indents : List Int := []
  key : KeyPlace := {}
  outerKeys : List KeyPlace := []
  keyAllowed : Bool := true
  queue : List Token := []
  taken : Nat := 0

/-! ## Between tokens -/

/-- Where the characters between two tokens belong. -/
inductive Filler where
  | blank
  | comment
  | beforeComment
  deriving Repr, DecidableEq

/-- Whether the next thing after blanks and empty lines is a comment. -/
def commentAhead (cs : List Char) : Bool :=
  (cs.dropWhile fun c => isBlank c || c = '\n').head? = some '#'

/-- Passes over blanks, breaks and comments, and says whether a key may start after them. Outside of
    brackets a tab is no blank where a key may start, unless it stands between two comments. -/
def skipFiller (inFlow skewed : Bool) :
    List Char → Mark → (keyAllowed : Bool) → Filler → Cursor × Bool
  | [], m, keyAllowed, _ => (⟨[], m⟩, keyAllowed)
  | c :: cs, m, keyAllowed, filler =>
    let next := skipFiller inFlow skewed cs (m.past c)
    let allowed := keyAllowed || (isBreak c && !inFlow)
    match filler with
    | .comment =>
      if isBreak c then
        next allowed (if c = '\n' && commentAhead cs then .beforeComment else .blank)
      else next keyAllowed .comment
    | .beforeComment => next allowed (if c = '#' then .comment else .beforeComment)
    | .blank =>
      if skewed && m.column = 0 then skipFiller inFlow skewed cs (m.pastAny c) keyAllowed .blank
      else if c = ' ' || (c = '\t' && (inFlow || !keyAllowed)) then next keyAllowed .blank
      else if c = '#' then next keyAllowed .comment
      else if isBreak c then next allowed .blank
      else (⟨c :: cs, m⟩, keyAllowed)

namespace Lexer

def inFlow (l : Lexer) : Bool := !l.outerKeys.isEmpty

/-- Moves to the next token. -/
def skipToToken (l : Lexer) : Lexer :=
  let (cursor, keyAllowed) :=
    skipFiller l.inFlow l.skewed l.cursor.rest l.cursor.mark l.keyAllowed .blank
  { l with cursor, keyAllowed }

/-! ## The queue -/

def push (l : Lexer) (t : Token) : Lexer := { l with queue := l.queue ++ [t] }

/-- Puts a token before the one with a number, or at the end if that one is gone. -/
def insertAt (l : Lexer) (number : Nat) (t : Token) : Lexer :=
  if number < l.taken then l.push t
  else
    let (before, after) := l.queue.splitAt (number - l.taken)
    { l with queue := before ++ t :: after }

/-- The number that the next token will have. -/
def nextNumber (l : Lexer) : Nat := l.taken + l.queue.length

/-! ## Keys -/

/-- How far from its start the colon of a key may be. -/
def keyReach : Nat := 1024

/-- Whether a place can still turn out to be a key; `none` if it had to and cannot. -/
def keyHolds? (l : Lexer) (k : KeyPlace) : Option Bool :=
  if !k.possible then some false
  else if k.mark.line < l.cursor.mark.line || k.mark.index + keyReach < l.cursor.mark.index then
    (if k.required then none else some false)
  else some true

/-- Gives up the place of a key on the innermost level; `none` if a key had to be there. -/
def dropKey? (l : Lexer) : Option Lexer :=
  if l.key.possible && l.key.required then none
  else some { l with key := { l.key with possible := false, watched := false } }

/-- Remembers this place as one of a key, if a key may start here. -/
def saveKey? (l : Lexer) : Option Lexer :=
  if !l.keyAllowed then some l
  else
    let required := !l.inFlow && l.indent = l.cursor.mark.column
    l.dropKey?.map fun l' =>
      { l' with key := { possible := true, required, watched := true, number := l.nextNumber,
                         mark := l.cursor.mark } }

/-- Enters brackets. -/
def openLevel (l : Lexer) : Lexer :=
  { l with outerKeys := l.key :: l.outerKeys
           key := { number := l.nextNumber, mark := l.cursor.mark } }

/-- Leaves brackets; without any open, nothing happens. Empty brackets are no longer watched. -/
def closeLevel (l : Lexer) : Lexer :=
  match l.outerKeys with
  | [] => l
  | k :: ks =>
    { l with key := { k with watched := k.watched && k.number ≠ l.key.number }, outerKeys := ks }

/-! ## Indentation -/

/-- Opens a block collection if the column lies further than the one around it. Its token goes
    before that of a key, or to the end. -/
def openBlock (l : Lexer) (column : Nat) (number : Option Nat) (t : Token) : Lexer :=
  if l.inFlow || (column : Int) ≤ l.indent then l
  else
    let l := { l with indents := l.indent :: l.indents, indent := column }
    match number with
    | some n => l.insertAt n t
    | none => l.push t

/-- The indentation that is left when the levels beyond a column are closed, and how many are. -/
def unwind (column : Int) : Int → List Int → Int × List Int × Nat
  | indent, [] => (indent, [], 0)
  | indent, outer :: rest =>
    if column < indent then
      let (indent, rest, n) := unwind column outer rest
      (indent, rest, n + 1)
    else (indent, outer :: rest, 0)

/-- Closes the block collections that are indented beyond a column. -/
def closeBlocks (l : Lexer) (column : Int) : Lexer :=
  if l.inFlow then l
  else
    let (indent, indents, n) := unwind column l.indent l.indents
    { l with indent, indents, queue := l.queue ++ List.replicate n .blockEnd }

/-! ## Single tokens -/

/-- Passes over `n` characters that make up a token. -/
def take (l : Lexer) (n : Nat) (t : Token) : Lexer :=
  { l.push t with cursor := l.cursor.advance n }

/-- The end of the text, which counts as the start of a line. -/
def streamEnd? (l : Lexer) : Option Lexer :=
  let m := l.cursor.mark
  let mark := if m.column = 0 then m else { m with line := m.line + 1, column := 0 }
  let l := { l with cursor := { l.cursor with mark } }
  (l.closeBlocks (-1)).dropKey?.map fun l => { l.push .streamEnd with keyAllowed := false }

def directive? (l : Lexer) : Option Lexer :=
  (l.closeBlocks (-1)).dropKey?.bind fun l =>
    (readDirective? l.cursor).map fun (d, cursor) =>
      { l.push (.directive d) with cursor, keyAllowed := false }

def documentMark? (l : Lexer) (t : Token) : Option Lexer :=
  (l.closeBlocks (-1)).dropKey?.map fun l => { l.take 3 t with keyAllowed := false }

def openFlow? (l : Lexer) (t : Token) : Option Lexer :=
  l.saveKey?.map fun l => { l.openLevel.take 1 t with keyAllowed := true }

def closeFlow? (l : Lexer) (t : Token) : Option Lexer :=
  l.dropKey?.map fun l => { l.closeLevel.take 1 t with keyAllowed := false }

def flowEntry? (l : Lexer) : Option Lexer :=
  l.dropKey?.map fun l => { l.take 1 .flowEntry with keyAllowed := true }

/-- A dash. Outside of brackets it needs a place where a key could stand. -/
def blockEntry? (l : Lexer) : Option Lexer :=
  if !l.inFlow && !l.keyAllowed then none
  else
    (l.openBlock l.cursor.mark.column none .blockSequenceStart).dropKey?.map fun l =>
      { l.take 1 .blockEntry with keyAllowed := true }

/-- A question mark. -/
def explicitKey? (l : Lexer) : Option Lexer :=
  if !l.inFlow && !l.keyAllowed then none
  else
    (l.openBlock l.cursor.mark.column none .blockMappingStart).dropKey?.map fun l =>
      { l.take 1 .key with keyAllowed := !l.inFlow }

/-- A colon: after the place of a key it makes that a key, else it belongs to an explicit one. -/
def value? (l : Lexer) : Option Lexer :=
  (l.keyHolds? l.key).bind fun holds =>
    if holds then
      let k := l.key
      let l := l.insertAt k.number .key
      let l := l.openBlock k.mark.column (some k.number) .blockMappingStart
      some { l.take 1 .value with
        key := { k with possible := false, watched := false }, keyAllowed := false }
    else if !l.inFlow && !l.keyAllowed then none
    else
      let l := l.openBlock l.cursor.mark.column none .blockMappingStart
      some { l.take 1 .value with
        key := { l.key with possible := false }, keyAllowed := !l.inFlow }

/-- A token that may be a key and after which none can start. -/
def content? (l : Lexer) (read : Cursor → Option (Token × Cursor)) : Option Lexer :=
  l.saveKey?.bind fun l =>
    (read l.cursor).map fun (t, cursor) => { l.push t with cursor, keyAllowed := false }

def blockScalar? (l : Lexer) : Option Lexer :=
  l.dropKey?.bind fun l =>
    (readBlock? l.indent l.cursor).map fun (text, cursor) =>
      { l.push (.scalar text true) with cursor, keyAllowed := true }

/-- A plain scalar. If its gap goes over a line end, a key may start after it. -/
def plainScalar? (l : Lexer) : Option Lexer :=
  l.saveKey?.bind fun l =>
    (readPlain? l.inFlow (l.indent + 1) l.cursor).map fun s =>
      { l.push (.scalar s.text false) with cursor := s.cursor, keyAllowed := s.gap.broken }

/-- A token of a document's content, told by its first character. -/
def body? (l : Lexer) (c : Char) (cs : List Char) : Option Lexer :=
  match c with
  | '[' => l.openFlow? .flowSequenceStart
  | '\x7b' => l.openFlow? .flowMappingStart
  | ']' => l.closeFlow? .flowSequenceEnd
  | '\x7d' => l.closeFlow? .flowMappingEnd
  | ',' => l.flowEntry?
  | '*' => l.content? fun cur => (readAnchor? cur).map fun (name, cur) => (.reference name, cur)
  | '&' => l.content? fun cur => (readAnchor? cur).map fun (name, cur) => (.anchor name, cur)
  | '!' => l.content? fun cur => (readTag? cur).map fun (h, s, cur) => (.tag h s, cur)
  | '\x27' | '\x22' =>
    l.content? fun cur => (readQuoted? cur).map fun (text, cur) => (.scalar text true, cur)
  | _ =>
    if c = '-' && atSpace cs then l.blockEntry?
    else if c = '?' && (l.inFlow || atSpace cs) then l.explicitKey?
    else if c = ':' && (l.inFlow || atSpace cs) then l.value?
    else if (c = '|' || c = '>') && !l.inFlow then l.blockScalar?
    else if startsPlain l.inFlow (c :: cs) then l.plainScalar?
    else none

/-- Passes over a comment behind the last token, unless that was a dash. -/
def skipTrailingComment (l : Lexer) : Lexer :=
  if l.queue.getLast? = some .blockEntry then l else { l with cursor := l.cursor.skipComment }

/-- Produces the next token, together with those that belong before it; `none` if there is none. -/
def fetch? (l : Lexer) : Option Lexer :=
  let l := l.skipToToken
  let l := l.closeBlocks l.cursor.mark.column
  match l.cursor.rest with
  | [] => l.streamEnd?
  | c :: cs =>
    if l.cursor.mark.column = 0 && c = '%' then l.directive?
    else if atMarker '-' (c :: cs) l.cursor.mark then l.documentMark? .documentStart
    else if atMarker '.' (c :: cs) l.cursor.mark then l.documentMark? .documentEnd
    else (l.body? c cs).map skipTrailingComment

/-! ## Reading tokens -/

/-- Whether the first token of the queue may still turn out to be a key. -/
def headMayBeKey? (l : Lexer) : Option Bool :=
  match (l.key :: l.outerKeys).find? fun k => k.watched && k.number = l.taken with
  | some k => l.keyHolds? k
  | none => some false

/-- Fills up the queue. The fuel bounds the number of tokens. -/
def fill? : (fuel : Nat) → Lexer → Option Lexer
  | 0, _ => none
  | fuel + 1, l =>
    if l.queue.length < 3 then l.fetch?.bind (fill? fuel)
    else l.headMayBeKey?.bind fun more => if more then l.fetch?.bind (fill? fuel) else some l

/-- The next token, which stays in the queue. -/
def peek? (l : Lexer) : Option (Token × Lexer) :=
  (fill? l.most l).bind fun l => l.queue.head?.map fun t => (t, l)

/-- Takes the next token out of the queue. -/
def skip (l : Lexer) : Lexer := { l with queue := l.queue.tail, taken := l.taken + 1 }

/-- Starts at the beginning of a text. -/
def start (text : List Char) : Lexer :=
  let cs := normalizeBreaks text
  { cursor := { rest := cs }, most := cs.length + 8, skewed := cs.head? = some '\ufeff' }

end Lexer

end InlinePlan.Yaml
