import InlinePlan.Yaml.Cursor

set_option autoImplicit false

/-! # Plain scalars

A scalar without quotes goes on until a colon before a space, a comment, a document marker, a line
that is not indented enough, or, between brackets, a character that has a meaning there. -/

namespace InlinePlan.Yaml

/-- Whether a plain scalar can start here. Between brackets a question mark or a colon is never part
    of the start of one. -/
def startsPlain (inFlow : Bool) : List Char → Bool
  | [] => false
  | c :: cs =>
    if c = '-' then !atSpace cs
    else if c = '?' || c = ':' then !inFlow && !atSpace cs
    else !isSpace c && !(",[]\x7b\x7d#&*!|>\x27\x22%@\x60".toList.contains c)

/-- Whether a character ends a plain scalar. -/
def endsPlain (inFlow : Bool) (c : Char) (cs : List Char) : Bool :=
  (c = ':' && atSpace cs) || (inFlow && ",?[]\x7b\x7d".toList.contains c)

/-- A plain scalar that was read, the gap after it, and what follows the gap. -/
structure PlainScalar where
  text : List Char
  gap : Gap
  cursor : Cursor

/-- Reads a plain scalar; `none` if a tab stands where a line has to be indented. `read` is what was
    read so far, in reverse. -/
def plainFrom (inFlow : Bool) (indent : Int) :
    List Char → Mark → Gap → (read : List Char) → Option PlainScalar
  | [], m, gap, read => some ⟨read.reverse, gap, ⟨[], m⟩⟩
  | c :: cs, m, gap, read =>
    if isBlank c then
      if gap.broken && c = '\t' && m.column < indent then none
      else plainFrom inFlow indent cs (m.past c) (gap.addBlank c) read
    else if isBreak c then plainFrom inFlow indent cs (m.past c) (gap.addBreak c) read
    else if gap.isOpen && ((!inFlow && m.column < indent) || c = '#' || atDocumentMark (c :: cs) m)
    then some ⟨read.reverse, gap, ⟨c :: cs, m⟩⟩
    else if endsPlain inFlow c cs then some ⟨read.reverse, gap, ⟨c :: cs, m⟩⟩
    else plainFrom inFlow indent cs (m.past c) {} (c :: gap.text.reverse ++ read)

/-- Reads a plain scalar whose further lines are indented by at least `indent`. -/
def readPlain? (inFlow : Bool) (indent : Int) (cur : Cursor) : Option PlainScalar :=
  plainFrom inFlow indent cur.rest cur.mark {} []

end InlinePlan.Yaml
