import InlinePlan.Yaml.Key

set_option autoImplicit false

/-! # Records in YAML documents

A mapping is read as a record, field by field. A key that the record does not have and a repeated
key are faults. -/

namespace InlinePlan.Yaml

variable {α β : Type}

/-- A field of a record: its key, and how its node changes the record. -/
structure RecordField (α : Type) where
  key : String
  update : Node → α → DecodeM α

/-- A field that is set from the decoded value and kept on null. -/
def field (key : String) (value : Decoder β) (set : β → α → α) : RecordField α :=
  { key, update := fun n a => do return (← value n).elim a fun b => set b a }

/-- Updates a record by the entries of a mapping, in order, except for what it takes over. A null
    key is passed over, and so is one that has given a value already. `done` are the fields that
    this mapping has set. -/
def updateEntries (fields : List (RecordField α)) :
    List (Node × Node) → Given → (done : List String) → α → DecodeM (Given × α)
  | [], given, _, a => pure (given, a)
  | (k, v) :: es, given, done, a =>
    if k.isMerge then updateEntries fields es given done a
    else do
      match ← decodeText k with
      | none => updateEntries fields es given done a
      | some key =>
        let m : Meaning := .text key.toList
        if given.has m then updateEntries fields es given done a
        else
          match if done.contains key then none else fields.find? (·.key = key) with
          | none => do
            noteFault
            updateEntries fields es (given.add m) done a
          | some f => do
            let a ← f.update v a
            updateEntries fields es (given.add m) (key :: done) a

mutual

/-- Updates a record by a mapping, and behind it by those that the mapping takes over. -/
def updateMapping (fields : List (RecordField α)) : Node → Given → α → DecodeM (Given × α)
  | .mapping es, given, a => do
    countNode
    if distinctKeys es then
      let (after, a) ← updateEntries fields es given [] a
      if takesOver es then
        let own ← if after.isSome then pure after else readKeys [] es
        updateTakenOver fields es own a
      else return (after, a)
    else
      noteFault
      return (given, a)
  | .reference _ n, given, a => do
    countNode
    behindReference (updateMapping fields n given a)
  | _, _, _ => throw .malformed

def updateTakenOver (fields : List (RecordField α)) :
    List (Node × Node) → Given → α → DecodeM (Given × α)
  | [], given, a => pure (given, a)
  | (k, .sequence items) :: es, given, a =>
    if k.isMerge then updateLayers fields items given a else updateTakenOver fields es given a
  | (k, v) :: es, given, a =>
    if k.isMerge then updateMapping fields v given a else updateTakenOver fields es given a

def updateLayers (fields : List (RecordField α)) : List Node → Given → α → DecodeM (Given × α)
  | [], given, a => pure (given, a)
  | n :: ns, given, a => do
    let (given, a) ← updateMapping fields n given a
    updateLayers fields ns given a

end

/-- A record on top of given values. -/
def decodeRecord (fields : List (RecordField α)) (start : α) : Decoder α := fun n =>
  if n.isMapping then do return some (← updateMapping fields n none start).2
  else follow readNull n

/-- A record inside a record, on top of the values it has there. -/
def nested (key : String) (fields : List (RecordField β)) (get : α → β) (set : β → α → α) :
    RecordField α :=
  { key, update := fun n a => do
      return (← decodeRecord fields (get a) n).elim a fun b => set b a }

/-- Reads the root of a document as a record on top of given values. -/
def decodeRoot (fields : List (RecordField α)) (start : α) (root : Node) :
    Except DecodeFault α :=
  (decodeRecord fields start root).outcome.map (·.getD start)

end InlinePlan.Yaml
