set_option autoImplicit false

/-! # YAML tokens

The units of which documents are made. Where a block collection starts or ends, and where the key of
a mapping starts, is shown by layout alone in a text and by a token of its own here. -/

namespace InlinePlan.Yaml

/-- A line that starts with a percent sign: a version, or what a tag handle stands for. -/
inductive Directive where
  | version (major minor : Nat)
  | handle (name expansion : List Char)
  deriving Repr, DecidableEq

inductive Token where
  | streamEnd
  | directive (d : Directive)
  | documentStart
  | documentEnd
  | blockSequenceStart
  | blockMappingStart
  | blockEnd
  | flowSequenceStart
  | flowSequenceEnd
  | flowMappingStart
  | flowMappingEnd
  | blockEntry
  | flowEntry
  | key
  | value
  | reference (name : List Char)
  | anchor (name : List Char)
  | tag (handle suffix : List Char)
  | scalar (text : List Char) (quoted : Bool)
  deriving Repr, DecidableEq

end InlinePlan.Yaml
