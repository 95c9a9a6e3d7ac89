import InlinePlan.Yaml.Cursor

set_option autoImplicit false

/-! # Block scalars

A bar or a right angle starts a scalar that consists of the indented lines below it. After a bar the
lines are kept as they are; after an angle they are folded. A sign says whether the breaks at the
end are kept or dropped, a digit how far the lines are indented. -/

namespace InlinePlan.Yaml

/-- What becomes of the breaks at the end: all are dropped, one is kept, or all are kept. -/
inductive Chomping where
  | strip
  | clip
  | keep
  deriving Repr, DecidableEq

/-- The signs and the digit after the indicator. An `indent` of zero means that none is given. -/
structure BlockHead where
  chomping : Chomping := .clip
  indent : Nat := 0
  deriving Repr, DecidableEq

def chomping? : Char → Option Chomping
  | '+' => some .keep
  | '-' => some .strip
  | _ => none

/-- Reads the sign and the digit, in either order; `none` if the digit is zero. -/
def readBlockHead? (cs : List Char) : Option (BlockHead × Nat) :=
  let digit (c : Char) : Option Nat :=
    if c.isDigit then some (c.toNat - '0'.toNat) else none
  let checked (h : BlockHead) (taken : Nat) (d : Nat) : Option (BlockHead × Nat) :=
    if d = 0 then none else some ({ h with indent := d }, taken)
  match cs with
  | [] => some ({}, 0)
  | a :: rest =>
    match chomping? a with
    | some chomping =>
      match rest.head?.bind digit with
      | some d => checked { chomping } 2 d
      | none => some ({ chomping }, 1)
    | none =>
      match digit a with
      | none => some ({}, 0)
      | some d =>
        match rest.head?.bind chomping? with
        | some chomping => checked { chomping } 2 d
        | none => checked {} 1 d

/-- Passes over indentation and empty lines. Yields the breaks, the widest indentation seen and what
    follows; `none` if a tab stands where a line has to be indented. -/
def blockBreaks (indent : Nat) :
    List Char → Mark → (breaks : List Char) → (widest : Nat) → Option (List Char × Nat × Cursor)
  | [], m, breaks, widest => some (breaks.reverse, max widest m.column, ⟨[], m⟩)
  | c :: cs, m, breaks, widest =>
    let indenting := indent = 0 || m.column < indent
    if indenting && c = ' ' then blockBreaks indent cs (m.past c) breaks widest
    else if indenting && c = '\t' then none
    else if isBreak c then
      blockBreaks indent cs (m.past c) (breakText c :: breaks) (max widest m.column)
    else some (breaks.reverse, max widest m.column, ⟨c :: cs, m⟩)

/-- What was read of a block scalar: its text, the break after the last line and those after it, and
    whether the last line started with a blank. -/
structure BlockText where
  text : List Char := []
  first : List Char := []
  others : List Char := []
  indented : Bool := false

/-- Adds a line. Two lines of a folded scalar are joined by a space unless one of them starts with a
    blank. -/
def BlockText.addLine (b : BlockText) (literal : Bool) (line : List Char) : BlockText :=
  let indented := line.head?.any isBlank
  let joined :=
    if !literal && !b.indented && !indented && b.first = ['\n'] then
      (if b.others.isEmpty then [' '] else [])
    else b.first
  { text := b.text ++ joined ++ b.others ++ line, indented }

/-- The text with its end as the head of the scalar asks for. -/
def BlockText.chomped (b : BlockText) : Chomping → List Char
  | .strip => b.text
  | .clip => b.text ++ b.first
  | .keep => b.text ++ b.first ++ b.others

/-- Reads the lines that are indented by `indent`. The fuel bounds their number. -/
def blockLines (literal : Bool) (indent : Nat) :
    (fuel : Nat) → Cursor → BlockText → Option (BlockText × Cursor)
  | 0, _, _ => none
  | fuel + 1, cur, b =>
    if cur.rest.isEmpty || cur.mark.column ≠ indent then some (b, cur)
    else
      let (line, stop) := cur.takeWhile (!isBreak ·)
      let b := b.addLine literal line
      let b := { b with first := (stop.rest.take 1).map breakText }
      let stop := stop.skipBreak
      (blockBreaks indent stop.rest stop.mark [] 0).bind fun (others, _, next) =>
        blockLines literal indent fuel next { b with others }

/-- Reads a block scalar from its indicator on; `outer` is the indentation around it. -/
def readBlock? (outer : Int) (cur : Cursor) : Option (List Char × Cursor) :=
  let literal := cur.rest.head? = some '|'
  (readBlockHead? (cur.rest.drop 1)).bind fun (head, taken) =>
    let cur := (cur.advance (1 + taken)).skipBlanks
    let cur := if cur.rest.head? = some '#' then cur.skipLine else cur
    if !atLineEnd cur.rest then none
    else
      let cur := cur.skipBreak
      let given := if head.indent = 0 then 0 else (max outer 0).toNat + head.indent
      (blockBreaks given cur.rest cur.mark [] 0).bind fun (others, widest, cur) =>
        let indent := if given = 0 then max (max widest (outer + 1).toNat) 1 else given
        (blockLines literal indent (cur.rest.length + 1) cur { others }).map fun (b, cur) =>
          (b.chomped head.chomping, cur)

end InlinePlan.Yaml
