import InlinePlan.Yaml.Lexer
import InlinePlan.Yaml.Node

set_option autoImplicit false

/-! # From tokens to nodes

A document is the node that its tokens spell. Only the first document of a text is read, but the
tokens that stand right behind it have to be well formed as well. A text without any content and
without a document marker holds no document. -/

namespace InlinePlan.Yaml

/-- What a text holds. -/
inductive Document where
  | absent
  | present (root : Node)
  deriving Repr

/-- The state of reading a document. Anchors are listed latest first, those of unfinished nodes
    without a node; `handles` says what the handles of tags stand for. -/
structure Reading where
  lexer : Lexer
  anchors : List (List Char × Option Node) := []
  handles : List (List Char × List Char) := []

abbrev ReadM := StateT Reading Option

namespace ReadM

/-- The next token. -/
def peek : ReadM Token := fun s => s.lexer.peek?.map fun (t, lexer) => (t, { s with lexer })

/-- Passes over the token that was seen. -/
def skip : ReadM Unit := modify fun s => { s with lexer := s.lexer.skip }

/-! ## Properties of nodes -/

/-- The anchor and the tag of a node. -/
structure Properties where
  anchor : Option (List Char) := none
  tag : List Char := []

/-- What a tag is when its handle is written out. -/
def expandTag (handle suffix : List Char) : ReadM (List Char) := do
  if handle.isEmpty then return suffix
  match (← get).handles.lookup handle with
  | some expansion => return expansion ++ suffix
  | none => failure

/-- Reads a tag, if one comes next. -/
def readTag : ReadM (List Char) := do
  match ← peek with
  | .tag handle suffix =>
    skip
    expandTag handle suffix
  | _ => return []

/-- Reads an anchor, if one comes next. -/
def readAnchor : ReadM (Option (List Char)) := do
  match ← peek with
  | .anchor name =>
    skip
    return some name
  | _ => return none

/-- Reads an anchor and a tag in either order. -/
def properties : ReadM Properties := do
  match ← readAnchor with
  | some name => return { anchor := some name, tag := ← readTag }
  | none =>
    let tag ← readTag
    if tag.isEmpty then return {} else return { anchor := ← readAnchor, tag }

/-- The node that a name refers to. -/
def refer (name : List Char) : ReadM Node := do
  match (← get).anchors.lookup name with
  | some (some n) => return .reference name n
  | some none => return .cycle name
  | none => failure

/-- Reads a node under an anchor. Inside of it, the anchor stands for an unfinished node. -/
def anchored (anchor : Option (List Char)) (read : ReadM Node) : ReadM Node := do
  match anchor with
  | none => read
  | some name =>
    let depth := (← get).anchors.length
    modify fun s => { s with anchors := (name, none) :: s.anchors }
    let n ← read
    modify fun s =>
      let later := s.anchors.take (s.anchors.length - depth - 1)
      { s with anchors := later ++ (name, some n) :: s.anchors.drop (s.anchors.length - depth) }
    return n

/-! ## Nodes -/

mutual

/-- Reads a node. A `block` collection may be asked for; if `dashes` says so, it may be a sequence
    that is not indented further than the mapping around it. -/
def readNode : (fuel : Nat) → (block dashes : Bool) → ReadM Node
  | 0, _, _ => failure
  | fuel + 1, block, dashes => do
    match ← peek with
    | .reference name =>
      skip
      refer name
    | _ =>
      let props ← properties
      let t ← peek
      if dashes && t = .blockEntry then
        anchored props.anchor (.sequence <$> dashItems fuel)
      else match t with
        | .scalar text quoted =>
          skip
          anchored props.anchor (pure (.scalar text quoted (Tag.ofText? props.tag)))
        | .flowSequenceStart =>
          skip
          anchored props.anchor (.sequence <$> flowItems fuel true)
        | .flowMappingStart =>
          skip
          anchored props.anchor (.mapping <$> flowEntries fuel true)
        | _ =>
          if block && t = .blockSequenceStart then
            skip
            anchored props.anchor (.sequence <$> blockItems fuel)
          else if block && t = .blockMappingStart then
            skip
            anchored props.anchor (.mapping <$> blockEntries fuel)
          else if props.anchor.isSome || !props.tag.isEmpty then
            anchored props.anchor (pure (.scalar [] false (Tag.ofText? props.tag)))
          else failure

/-- The items of a block sequence up to its end. -/
def blockItems : (fuel : Nat) → ReadM (List Node)
  | 0 => failure
  | fuel + 1 => do
    match ← peek with
    | .blockEntry =>
      skip
      let t ← peek
      let item ←
        if t = .blockEntry || t = .blockEnd then pure .empty else readNode fuel true false
      return item :: (← blockItems fuel)
    | .blockEnd =>
      skip
      return []
    | _ => failure

/-- The items of a sequence that is not indented; it ends where no dash follows. -/
def dashItems : (fuel : Nat) → ReadM (List Node)
  | 0 => failure
  | fuel + 1 => do
    match ← peek with
    | .blockEntry =>
      skip
      let t ← peek
      let item ←
        if t = .blockEntry || t = .key || t = .value || t = .blockEnd then pure .empty
        else readNode fuel true false
      return item :: (← dashItems fuel)
    | _ => return []

/-- The entries of a block mapping up to its end. -/
def blockEntries : (fuel : Nat) → ReadM (List (Node × Node))
  | 0 => failure
  | fuel + 1 => do
    match ← peek with
    | .key =>
      skip
      let key ← blockPart fuel
      let value ← match ← peek with
        | .value =>
          skip
          blockPart fuel
        | _ => pure .empty
      return (key, value) :: (← blockEntries fuel)
    | .blockEnd =>
      skip
      return []
    | _ => failure

/-- The key or the value of an entry of a block mapping, which may be left out. -/
def blockPart : (fuel : Nat) → ReadM Node
  | 0 => failure
  | fuel + 1 => do
    let t ← peek
    if t = .key || t = .value || t = .blockEnd then return .empty else readNode fuel true true

/-- The items of a flow sequence up to its bracket. A pair without braces is a mapping of one
    entry. -/
def flowItems : (fuel : Nat) → (first : Bool) → ReadM (List Node)
  | 0, _ => failure
  | fuel + 1, first => do
    let t ← peek
    if t = .flowSequenceEnd then
      skip
      return []
    unless first do
      if t = .flowEntry then skip else failure
    match ← peek with
    | .flowSequenceEnd =>
      skip
      return []
    | .key =>
      skip
      let pair ← flowPair fuel
      return .mapping [pair] :: (← flowItems fuel false)
    | _ =>
      let item ← readNode fuel false false
      return item :: (← flowItems fuel false)

/-- A pair inside a flow sequence. If its key is left out, so is the token that shows it. -/
def flowPair : (fuel : Nat) → ReadM (Node × Node)
  | 0 => failure
  | fuel + 1 => do
    let t ← peek
    let key ←
      if t = .value || t = .flowEntry || t = .flowSequenceEnd then
        skip
        pure .empty
      else readNode fuel false false
    match ← peek with
    | .value =>
      skip
      let t ← peek
      if t = .flowEntry || t = .flowSequenceEnd then return (key, .empty)
      else return (key, ← readNode fuel false false)
    | _ => return (key, .empty)

/-- The entries of a flow mapping up to its brace. A node that is no key has no value. -/
def flowEntries : (fuel : Nat) → (first : Bool) → ReadM (List (Node × Node))
  | 0, _ => failure
  | fuel + 1, first => do
    let t ← peek
    if t = .flowMappingEnd then
      skip
      return []
    unless first do
      if t = .flowEntry then skip else failure
    match ← peek with
    | .flowMappingEnd =>
      skip
      return []
    | .key =>
      skip
      let key ← flowPart fuel
      let value ← match ← peek with
        | .value =>
          skip
          let t ← peek
          if t = .flowEntry || t = .flowMappingEnd then pure .empty else readNode fuel false false
        | _ => pure .empty
      return (key, value) :: (← flowEntries fuel false)
    | _ =>
      let key ← readNode fuel false false
      return (key, .empty) :: (← flowEntries fuel false)

/-- The key of an entry of a flow mapping, which may be left out. -/
def flowPart : (fuel : Nat) → ReadM Node
  | 0 => failure
  | fuel + 1 => do
    let t ← peek
    if t = .value || t = .flowEntry || t = .flowMappingEnd then return .empty
    else readNode fuel false false

end

/-! ## Documents -/

/-- What the handles of tags stand for unless a directive says otherwise. -/
def defaultHandles : List (List Char × List Char) :=
  [(['!'], ['!']), (['!', '!'], standardTags)]

/-- Reads directives. There may be one version, which must be 1.1, and one meaning for a handle. -/
def directives : (fuel : Nat) → (versioned : Bool) → (handles : List (List Char × List Char)) →
    ReadM Unit
  | 0, _, _ => failure
  | fuel + 1, versioned, handles => do
    match ← peek with
    | .directive (.version major minor) =>
      if versioned || major ≠ 1 || minor ≠ 1 then failure
      skip
      directives fuel true handles
    | .directive (.handle name expansion) =>
      if (handles.lookup name).isSome then failure
      skip
      directives fuel versioned (handles ++ [(name, expansion)])
    | _ => modify fun s => { s with handles := handles ++ defaultHandles }

/-- Reads the content of a document behind its marker. -/
def content (fuel : Nat) : ReadM Node := do
  match ← peek with
  | .directive _ | .documentStart | .documentEnd | .streamEnd => return .empty
  | _ => readNode fuel true false

/-- Reads the first document. -/
def document (fuel : Nat) : ReadM Document := do
  match ← peek with
  | .streamEnd => return .absent
  | .directive _ | .documentStart =>
    directives fuel false []
    if (← peek) ≠ .documentStart then failure
    skip
    let root ← content fuel
    let _ ← peek
    return .present root
  | _ =>
    modify fun s => { s with handles := defaultHandles }
    let root ← readNode fuel true false
    let _ ← peek
    return .present root

end ReadM

/-! ## Texts -/

/-- The characters that a text may hold. -/
def isAllowed (c : Char) : Bool :=
  let n := c.toNat
  n == 9 || n == 10 || n == 13 || (0x20 ≤ n && n ≤ 0x7E) || n == 0x85
    || (0xA0 ≤ n && n ≤ 0xFFFD) || 0x10000 ≤ n

/-- The bytes of a piece. A text is read piece by piece, as far as it is needed. -/
def pieceBytes : Nat := 512

/-- The beginning of a text that has been read once `needed` characters are: whole pieces, of which
    the current one has `room` for so many bytes. -/
def piecesRead : (needed room : Nat) → List Char → List Char
  | _, _, [] => []
  | needed, room, c :: cs =>
    if c.utf8Size ≤ room then c :: piecesRead (needed - 1) (room - c.utf8Size) cs
    else if needed = 0 then []
    else c :: piecesRead (needed - 1) (pieceBytes - c.utf8Size) cs

/-- How many characters are looked at beyond the last token. -/
def lookAhead : Nat := 4

/-- Reads the first document of a text; `none` if it is malformed, or if what was read of the text
    holds a character that is not allowed. A byte order mark at its start is passed over. -/
def Document.parse? (text : List Char) : Option Document :=
  let text := if text.head? = some '\ufeff' then text.drop 1 else text
  let lexer := Lexer.start text
  ((ReadM.document (4 * text.length + 16)).run { lexer }).bind fun (document, s) =>
    let seen := piecesRead (s.lexer.cursor.mark.index + lookAhead) pieceBytes lexer.cursor.rest
    if seen.all isAllowed then some document else none

end InlinePlan.Yaml
