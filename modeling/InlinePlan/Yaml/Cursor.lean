set_option autoImplicit false

/-! # Places in a YAML text

A cursor is the rest of a text with the place where it starts. Blanks are spaces and tabs; lines end
at a line feed, a next-line character or one of the two separators. A carriage return, alone or
before a line feed, counts as a line feed and is written as one before a text is read. -/

namespace InlinePlan.Yaml

/-! ## Characters -/

def isBlank (c : Char) : Bool := c == ' ' || c == '\t'

def isBreak (c : Char) : Bool := c == '\n' || c == '\u0085' || c == '\u2028' || c == '\u2029'

/-- A blank or a break. -/
def isSpace (c : Char) : Bool := isBlank c || isBreak c

/-- Whether a blank, a break or the end comes next. -/
def atSpace : List Char → Bool
  | [] => true
  | c :: _ => isSpace c

/-- Whether a break or the end comes next. -/
def atLineEnd : List Char → Bool
  | [] => true
  | c :: _ => isBreak c

/-- What a break stands for: the separators stand for themselves, the others for a line feed. -/
def breakText (c : Char) : Char := if c = '\u0085' then '\n' else c

/-- Writes carriage returns as line feeds, together with a line feed that follows. -/
def normalizeBreaks : List Char → List Char
  | [] => []
  | '\r' :: '\n' :: cs => '\n' :: normalizeBreaks cs
  | '\r' :: cs => '\n' :: normalizeBreaks cs
  | c :: cs => c :: normalizeBreaks cs

/-- The letters, digits and marks of which the names of anchors and tags consist. -/
def isNameChar (c : Char) : Bool := c.isAlphanum || c == '_' || c == '-'

/-! ## Marks and cursors -/

/-- A place in a text. `afterBreak` says that nothing but blanks stands between the last break and
    this place. -/
structure Mark where
  index : Nat := 0
  line : Nat := 0
  column : Nat := 0
  afterBreak : Bool := false
  deriving Repr, DecidableEq

/-- The place after a character that ends no line, whatever it is. -/
def Mark.pastAny (m : Mark) (c : Char) : Mark :=
  { m with index := m.index + 1, column := m.column + 1, afterBreak := m.afterBreak && isBlank c }

/-- The place after a character. -/
def Mark.past (m : Mark) (c : Char) : Mark :=
  if isBreak c then
    { index := m.index + 1, line := m.line + 1, column := 0, afterBreak := true }
  else m.pastAny c

/-- The rest of a text and where it starts. -/
structure Cursor where
  rest : List Char
  mark : Mark := {}
  deriving Repr

namespace Cursor

/-- Passes over the characters at the front that have a property. -/
def skipFrom (p : Char → Bool) : List Char → Mark → Cursor
  | [], m => ⟨[], m⟩
  | c :: cs, m => if p c then skipFrom p cs (m.past c) else ⟨c :: cs, m⟩

def skipWhile (cur : Cursor) (p : Char → Bool) : Cursor := skipFrom p cur.rest cur.mark

/-- Passes over blanks. -/
def skipBlanks (cur : Cursor) : Cursor := cur.skipWhile isBlank

/-- Passes over the rest of the line, but not over its end. -/
def skipLine (cur : Cursor) : Cursor := cur.skipWhile (!isBreak ·)

/-- Passes over `n` characters. -/
def advance : Nat → Cursor → Cursor
  | 0, cur => cur
  | n + 1, cur =>
    match cur.rest with
    | [] => cur
    | c :: cs => advance n ⟨cs, cur.mark.past c⟩

/-- Passes over a break, if one comes next. -/
def skipBreak (cur : Cursor) : Cursor :=
  match cur.rest with
  | c :: cs => if isBreak c then ⟨cs, cur.mark.past c⟩ else cur
  | [] => cur

/-- The characters at the front that have a property, and what follows them. -/
def takeWhile (cur : Cursor) (p : Char → Bool) : List Char × Cursor :=
  (cur.rest.takeWhile p, cur.skipWhile p)

/-- Passes over a comment that follows on the same line, with the blanks before it. -/
def skipComment (cur : Cursor) : Cursor :=
  if cur.mark.afterBreak then cur
  else match cur.skipBlanks.rest with
    | '#' :: _ => cur.skipLine
    | _ => cur

end Cursor

/-- Whether a document marker comes next: three equal characters at the start of a line, and a space
    or the end after them. -/
def atMarker (mark : Char) (cs : List Char) (m : Mark) : Bool :=
  m.column == 0 && cs.take 3 == [mark, mark, mark] && atSpace (cs.drop 3)

/-- Whether a line starts with either document marker. -/
def atDocumentMark (cs : List Char) (m : Mark) : Bool := atMarker '-' cs m || atMarker '.' cs m

/-! ## Gaps inside scalars -/

/-- A run of blanks and breaks inside a scalar: the blanks before the first break, that break, and
    the breaks after it, each in the order of reading. A gap that starts with an escaped break is
    broken but has no first break. -/
structure Gap where
  blanks : List Char := []
  broken : Bool := false
  first : List Char := []
  others : List Char := []
  deriving Repr, DecidableEq

namespace Gap

/-- Whether anything was passed over. -/
def isOpen (g : Gap) : Bool := g.broken || !g.blanks.isEmpty

/-- Adds a blank; after a break it has no effect. -/
def addBlank (g : Gap) (c : Char) : Gap :=
  if g.broken then g else { g with blanks := g.blanks ++ [c] }

def addBreak (g : Gap) (c : Char) : Gap :=
  if g.broken then { g with others := g.others ++ [breakText c] }
  else { g with broken := true, first := [breakText c] }

/-- What a gap stands for. One line feed is a space, and the first of several is dropped; a
    separator is kept. -/
def text (g : Gap) : List Char :=
  if !g.broken then g.blanks
  else if g.first = ['\n'] then (if g.others.isEmpty then [' '] else g.others)
  else g.first ++ g.others

end Gap

end InlinePlan.Yaml
