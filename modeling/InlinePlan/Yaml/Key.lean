import InlinePlan.Yaml.Decoder

set_option autoImplicit false

/-! # Keys of mappings

A mapping can take over the entries of others. Its own entries come first, and what a key has given
already is not taken over. So all keys of a mapping that takes over others are read, whatever their
type; they are told apart by what they mean, which a collection does not let them. -/

namespace InlinePlan.Yaml

/-- Whether no key is repeated. -/
def distinctKeys : List (Node × Node) → Bool
  | [] => true
  | (k, _) :: es => !(es.any fun e => e.1.label == k.label) && distinctKeys es

/-- Whether a mapping takes over the entries of others. -/
def takesOver (es : List (Node × Node)) : Bool := es.any (·.1.isMerge)

namespace Node

/-- Whether a node is a mapping, or a reference to one. -/
def isMapping : Node → Bool
  | .mapping _ => true
  | .reference _ n => n.isMapping
  | _ => false

/-- Whether a key can only be a text. -/
def isText : Node → Bool
  | .scalar _ _ (some tag) => tag = .text || tag = .merge
  | .scalar cs quoted none =>
    quoted || match resolve cs with
      | .text _ => !isTimestamp cs
      | _ => false
  | .reference _ n => n.isText
  | _ => false

end Node

/-- What a node of any type is as a key. -/
inductive Key where
  | scalar (m : Meaning)
  | collection

/-- The keys that have given a value already; `none` outside of mappings that are taken over, where
    every key counts. -/
abbrev Given := Option (List Meaning)

/-- Whether a key has given a value already. -/
def Given.has (given : Given) (m : Meaning) : Bool := given.any (·.contains m)

def Given.add (given : Given) (m : Meaning) : Given := given.map (m :: ·)

/-- Reads a key that is a text, whatever else it could mean. -/
def textKey (n : Node) : DecodeM (Option Key) := do
  return (← decodeText n).map fun key => .scalar (.text key.toList)

mutual

/-- Reads a node of any type, with all it holds. The keys of a mapping are texts if `texts` says so,
    or else if all of them can only be texts. -/
def readAny (texts : Option Bool) (given : Given) : Node → DecodeM (Option Key × Given)
  | .scalar cs quoted tag => do
    countNode
    match meaning? cs quoted tag with
    | some m => return (some (.scalar m), given)
    | none => throw .malformed
  | .sequence items => do
    countNode
    return (some .collection, ← readItems given items)
  | .mapping es => do
    countNode
    if distinctKeys es then
      let texts := texts.getD (es.all (·.1.isText))
      let after ← readEntries texts given es
      if takesOver es then
        let own ← if after.isSome then pure after else readKeys [] es
        let all ← readTakenOver texts own es
        return (some .collection, if after.isSome then all else none)
      else return (some .collection, after)
    else
      noteFault
      return (none, given)
  | .reference _ n => do
    countNode
    behindReference (readAny texts given n)
  | .cycle _ => throw .malformed

def readItems (given : Given) : List Node → DecodeM Given
  | [] => pure given
  | n :: ns => do
    let (_, given) ← readAny none given n
    readItems given ns

/-- Reads the entries of a mapping, except for what it takes over. What a key has given already is
    passed over. -/
def readEntries (texts : Bool) (given : Given) : List (Node × Node) → DecodeM Given
  | [] => pure given
  | (k, v) :: es =>
    if k.isMerge then readEntries texts given es
    else do
      let key ← if texts then textKey k else (·.1) <$> readAny none none k
      match key with
      | none => readEntries texts given es
      | some .collection => throw (if given.isSome then .collectionKey else .malformed)
      | some (.scalar m) =>
        if given.has m then readEntries texts given es
        else do
          let _ ← readAny none none v
          readEntries texts (given.add m) es

/-- The keys of a mapping itself. -/
def readKeys (found : List Meaning) : List (Node × Node) → DecodeM Given
  | [] => pure (some found)
  | (k, _) :: es => do
    match (← readAny none (some found) k).1 with
    | none => readKeys found es
    | some .collection => throw .collectionKey
    | some (.scalar m) => readKeys (m :: found) es

/-- Reads what a mapping takes over: one mapping, or several. -/
def readTakenOver (texts : Bool) (given : Given) : List (Node × Node) → DecodeM Given
  | [] => pure given
  | (k, .sequence items) :: es =>
    if k.isMerge then readLayers texts given items else readTakenOver texts given es
  | (k, v) :: es =>
    if k.isMerge then
      if v.isMapping then (·.2) <$> readAny (some texts) given v else throw .malformed
    else readTakenOver texts given es

def readLayers (texts : Bool) (given : Given) : List Node → DecodeM Given
  | [] => pure given
  | n :: ns =>
    if n.isMapping then do
      let (_, given) ← readAny (some texts) given n
      readLayers texts given ns
    else throw .malformed

end

end InlinePlan.Yaml
