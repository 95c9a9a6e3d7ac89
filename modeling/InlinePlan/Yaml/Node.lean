set_option autoImplicit false

/-! # YAML nodes

The content of a document: scalars as text, sequences, mappings, and references to nodes that stand
elsewhere. Whether a scalar was quoted matters, since only a plain one can be a number, a truth
value or null; a tag can say what it is. -/

namespace InlinePlan.Yaml

/-- What a tag says of a scalar. -/
inductive Tag where
  | null
  | bool
  | int
  | float
  | text
  | bytes
  | timestamp
  | merge
  | other
  deriving Repr, DecidableEq

/-- What the tags of the standard start with when they are written out. -/
def standardTags : List Char := "tag:yaml.org,2002:".toList

/-- The meaning of a tag that is written out; none for a lone exclamation mark. -/
def Tag.ofText? (tag : List Char) : Option Tag :=
  if tag = [] || tag = ['!'] then none
  else if !standardTags.isPrefixOf tag then some .other
  else some (match String.ofList (tag.drop standardTags.length) with
    | "null" => .null
    | "bool" => .bool
    | "int" => .int
    | "float" => .float
    | "str" => .text
    | "binary" => .bytes
    | "timestamp" => .timestamp
    | "merge" => .merge
    | _ => .other)

/-- A node of a document. A `cycle` refers to a node that it is part of. -/
inductive Node where
  | scalar (text : List Char) (quoted : Bool) (tag : Option Tag)
  | sequence (items : List Node)
  | mapping (entries : List (Node × Node))
  | reference (name : List Char) (target : Node)
  | cycle (name : List Char)
  deriving Repr, Inhabited

namespace Node

/-- The node that stands where nothing is written. -/
def empty : Node := .scalar [] false none

/-- What tells the keys of a mapping apart: what kind of node a key is, and its text or name. -/
def label : Node → Nat × List Char
  | .scalar text _ _ => (0, text)
  | .sequence _ => (1, [])
  | .mapping _ => (2, [])
  | .reference name _ => (3, name)
  | .cycle name => (3, name)

/-- Whether a key asks for the entries of another mapping. -/
def isMerge : Node → Bool
  | .scalar text quoted tag =>
    text = ['<', '<'] && ((tag = none && !quoted) || tag = some .merge)
  | _ => false

end Node

end InlinePlan.Yaml
