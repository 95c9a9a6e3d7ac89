import InlinePlan.Text.Quoted
import InlinePlan.Text.Utf8
import InlinePlan.Yaml.Cursor
import InlinePlan.Yaml.Token

set_option autoImplicit false

/-! # Anchors, tags and directives -/

namespace InlinePlan.Yaml

/-! ## Anchors -/

/-- Whether the name of an anchor may end here. -/
def endsAnchor (cs : List Char) : Bool :=
  atSpace cs || cs.head?.any ("?:,]\x7d%@\x60".toList.contains ·)

/-- Reads the name of an anchor after its indicator. -/
def readAnchor? (cur : Cursor) : Option (List Char × Cursor) :=
  let (name, next) := (cur.advance 1).takeWhile isNameChar
  if name.isEmpty || !endsAnchor next.rest then none else some (name, next)

/-! ## Tags -/

/-- The characters of a tag. -/
def isTagChar (c : Char) : Bool :=
  isNameChar c || ";/?:@&=+$,.!~*\x27()[]%".toList.contains c

/-- The bytes of percent escapes, which together must be one character, and what follows. -/
def readPercents : (count : Nat) → List Char → Option (List UInt8 × List Char)
  | 0, cs => some ([], cs)
  | count + 1, '%' :: a :: b :: cs =>
    (Text.readDigits? 16 Text.hexValue? 2 0 [a, b]).bind fun (n, _) =>
      (readPercents count cs).map fun (bs, rest) => (UInt8.ofNat n :: bs, rest)
  | _, _ => none

/-- The number of bytes of a character that starts with a byte. -/
def sequenceLength (b : Nat) : Nat :=
  if b < 0x80 then 1 else if b < 0xC0 then 0 else if b < 0xE0 then 2 else if b < 0xF0 then 3
  else if b < 0xF8 then 4 else 0

/-- Reads the character of percent escapes. -/
def readPercentChar? (cs : List Char) : Option (List Char × Nat) :=
  (readPercents 1 cs).bind fun (first, _) =>
    let count := sequenceLength ((first.head?.map UInt8.toNat).getD 0)
    if count = 0 then none
    else (readPercents count cs).bind fun (bs, _) =>
      (Text.decode? bs).map fun text => (text, 3 * count)

/-- Reads the characters of a tag. The next `digits` of them belong to an escape that was read
    already. -/
def tagFrom : List Char → Mark → (digits : Nat) → (read : List Char) → Option (List Char × Cursor)
  | [], m, _, read => some (read.reverse, ⟨[], m⟩)
  | c :: cs, m, digits + 1, read => tagFrom cs (m.past c) digits read
  | c :: cs, m, 0, read =>
    if c = '%' then
      match readPercentChar? (c :: cs) with
      | some (text, taken) => tagFrom cs (m.past c) (taken - 1) (text.reverse ++ read)
      | none => none
    else if isTagChar c then tagFrom cs (m.past c) 0 (c :: read)
    else some (read.reverse, ⟨c :: cs, m⟩)

/-- Reads a handle: an exclamation mark, a name, and perhaps a second mark. -/
def readHandle (cur : Cursor) : List Char × Cursor :=
  let (name, next) := (cur.advance 1).takeWhile isNameChar
  match next.rest with
  | '!' :: _ => ('!' :: name ++ ['!'], next.advance 1)
  | _ => ('!' :: name, next)

/-- Reads a tag from its exclamation mark on: in angle brackets, with a handle, or alone. -/
def readTag? (cur : Cursor) : Option (List Char × List Char × Cursor) :=
  let found : Option (List Char × List Char × Cursor) :=
    if cur.rest[1]? = some '<' then
      let start := cur.advance 2
      (tagFrom start.rest start.mark 0 []).bind fun (suffix, next) =>
        if suffix.isEmpty || next.rest.head? ≠ some '>' then none
        else some ([], suffix, next.advance 1)
    else
      let (handle, next) := readHandle cur
      if 1 < handle.length && handle.getLast? = some '!' then
        (tagFrom next.rest next.mark 0 []).bind fun (suffix, next) =>
          if suffix.isEmpty then none else some (handle, suffix, next)
      else
        (tagFrom next.rest next.mark 0 (handle.drop 1).reverse).map fun (suffix, next) =>
          if suffix.isEmpty then ([], ['!'], next) else (['!'], suffix, next)
  found.bind fun (handle, suffix, next) =>
    if atSpace next.rest then some (handle, suffix, next) else none

/-! ## Directives -/

/-- Reads a part of a version: one or two digits. -/
def readVersionPart? (cur : Cursor) : Option (Nat × Cursor) :=
  let (digits, next) := cur.takeWhile Char.isDigit
  if digits.isEmpty || 2 < digits.length then none
  else some (digits.foldl (fun n c => 10 * n + (c.toNat - '0'.toNat)) 0, next)

def readVersion? (cur : Cursor) : Option (Directive × Cursor) :=
  (readVersionPart? cur.skipBlanks).bind fun (major, next) =>
    if next.rest.head? ≠ some '.' then none
    else (readVersionPart? (next.advance 1)).map fun (minor, next) => (.version major minor, next)

def readHandleExpansion? (cur : Cursor) : Option (Directive × Cursor) :=
  let cur := cur.skipBlanks
  if cur.rest.head? ≠ some '!' then none
  else
    let (name, next) := readHandle cur
    if name ≠ ['!'] && name.getLast? ≠ some '!' then none
    else if !(next.rest.head?.any isBlank) then none
    else
      let next := next.skipBlanks
      (tagFrom next.rest next.mark 0 []).bind fun (expansion, next) =>
        if expansion.isEmpty || !atSpace next.rest then none
        else some (.handle name expansion, next)

/-- Reads a directive with its line. -/
def readDirective? (cur : Cursor) : Option (Directive × Cursor) :=
  let (name, next) := (cur.advance 1).takeWhile isNameChar
  let found :=
    if name.isEmpty || !atSpace next.rest then none
    else if name = "YAML".toList then readVersion? next
    else if name = "TAG".toList then readHandleExpansion? next
    else none
  found.bind fun (d, next) =>
    let next := next.skipBlanks
    let next := if next.rest.head? = some '#' then next.skipLine else next
    if atLineEnd next.rest then some (d, next.skipBreak) else none

end InlinePlan.Yaml
