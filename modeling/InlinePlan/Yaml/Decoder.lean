import InlinePlan.Yaml.Meaning

set_option autoImplicit false

/-! # Decoders of YAML nodes

A decoder turns a node into a value of some type. Null stands for "not given". A node of another
type is a fault that is noted: decoding goes on behind it, but nothing comes of it in the end. A
scalar that does not fit its tag stops decoding at once. -/

namespace InlinePlan.Yaml

/-- What nothing can be decoded from: content of another form than asked for, or a collection as a
    key in a mapping whose keys have to be compared. -/
inductive DecodeFault where
  | malformed
  | collectionKey
  deriving Repr, DecidableEq

/-- What is said of a collection that cannot be a key. -/
def collectionKeyText : String := "a mapping that takes over others has a collection as a key"

/-- How far decoding has come: whether a fault was noted, how many nodes have been read, how many of
    them behind a reference, and how many references the current node is behind. A node counts each
    time that it is read, and the document itself counts for one. -/
structure Progress where
  faulty : Bool := false
  nodes : Nat := 1
  referred : Nat := 0
  depth : Nat := 0

/-- A step of decoding. -/
abbrev DecodeM := StateT Progress (Except DecodeFault)

/-- Notes a fault and goes on. -/
def noteFault : DecodeM Unit := modify fun p => { p with faulty := true }

/-- The outcome of decoding: a fault that was noted on the way counts in the end. -/
def DecodeM.outcome {α : Type} (step : DecodeM α) : Except DecodeFault α :=
  (step.run {}).bind fun (a, p) => if p.faulty then .error .malformed else .ok a

/-- Reads a node as a value; `none` if it is null, or if a fault was noted. -/
abbrev Decoder (α : Type) := Node → DecodeM (Option α)

/-! ## References

A few references can blow a short document up to any length. So the share of nodes that are read
behind references is bounded, more tightly the longer the document gets. -/

/-- The share that is allowed among some nodes. -/
def allowedShare (nodes : Nat) : Float :=
  if nodes ≤ 400000 then 0.99
  else if 4000000 ≤ nodes then 0.10
  else 0.99 - 0.89 * (Float.ofNat (nodes - 400000) / 3600000.0)

/-- Whether too many nodes have been read behind references. -/
def Progress.isBlownUp (p : Progress) : Bool :=
  100 < p.referred && 1000 < p.nodes
    && allowedShare p.nodes < Float.ofNat p.referred / Float.ofNat p.nodes

/-- Counts a node. -/
def countNode : DecodeM Unit := do
  let p ← get
  let p := { p with nodes := p.nodes + 1, referred := p.referred + min 1 p.depth }
  if p.isBlownUp then throw .malformed else set p

/-- Reads what a reference leads to. -/
def behindReference {α : Type} (step : DecodeM α) : DecodeM α := do
  modify fun p => { p with depth := p.depth + 1 }
  let a ← step
  modify fun p => { p with depth := p.depth - 1 }
  return a

/-- Reads a node, or what it refers to. -/
def follow {α : Type} (step : Node → DecodeM α) : Node → DecodeM α
  | .reference _ n => do
    countNode
    behindReference (follow step n)
  | n => do
    countNode
    step n

/-! ## Scalars -/

/-- Reads a scalar by its text and its meaning, unless it is null. -/
def readScalar {α : Type} (read : List Char → Meaning → Option α) : Decoder α
  | .scalar cs quoted tag =>
    match meaning? cs quoted tag with
    | none => throw .malformed
    | some .null => pure none
    | some m =>
      match read cs m with
      | some a => pure (some a)
      | none => do
        noteFault
        return none
  | _ => do
    noteFault
    return none

/-- A scalar, or a reference to one. -/
def decodeScalar {α : Type} (read : List Char → Meaning → Option α) : Decoder α :=
  follow (readScalar read)

/-- Any scalar as it is written. -/
def decodeText : Decoder String :=
  decodeScalar fun cs m => some (String.ofList (match m with
    | .text s => s
    | _ => cs))

/-- The integer part of a number, if it fits 64 bits; a number below that range is taken for its
    lower end. -/
def truncate? (x : Float) : Option Int :=
  if x ≤ 9223372036854775808.0 then
    some (if x < 9223372036854775808.0 then x.toInt64.toInt else -9223372036854775808)
  else none

/-- An integer; a floating-point number is cut. -/
def decodeInt : Decoder Int :=
  decodeScalar fun _ m => match m with
    | .int n => if n ≤ maxInt then some n else none
    | .float x => truncate? x
    | _ => none

/-- A floating-point number, or an integer as one. -/
def decodeFloat : Decoder Float :=
  decodeScalar fun _ m => match m with
    | .int n => some (floatOfInt n)
    | .float x => some x
    | _ => none

/-- A truth value; some words count as one even though they are texts. -/
def decodeBool : Decoder Bool :=
  decodeScalar fun _ m => match m with
    | .bool b => some b
    | .text cs =>
      let word := String.ofList cs
      if ["y", "Y", "yes", "Yes", "YES", "on", "On", "ON"].contains word then some true
      else if ["n", "N", "no", "No", "NO", "off", "Off", "OFF"].contains word then some false
      else none
    | _ => none

/-! ## Sequences -/

/-- Reads a scalar that can only be null. -/
def readNull {α : Type} : Decoder α := readScalar fun _ _ => none

/-- A sequence; its null items are dropped. -/
def decodeList {α : Type} (item : Decoder α) : Decoder (List α) :=
  follow fun
    | .sequence items => do return some ((← items.mapM item).filterMap id)
    | n => readNull n

end InlinePlan.Yaml
