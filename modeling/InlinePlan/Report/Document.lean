import InlinePlan.Decimal.Shortest
import InlinePlan.Report.Content
import InlinePlan.Yaml.Scalar

set_option autoImplicit false

/-! # Reports as YAML

Four spaces for each level; sequences are indented below their key. Lists that are empty are left
out, except for that of the nodes and of what was selected. -/

namespace InlinePlan

/-- Numbers in a document. -/
def documentFloat : Decimal.FloatStyle :=
  { nan := ".nan", positiveInfinity := ".inf", negativeInfinity := "-.inf" }

/-- A line of a mapping. -/
def keyLine (indent : Nat) (key value : String) : String :=
  String.ofList (List.replicate indent ' ') ++ key ++ ": " ++ Yaml.closeLine value

/-- The items of a sequence below a key, each at `indent` spaces. -/
def sequenceLines (indent : Nat) (items : List String) : String :=
  String.join (items.map fun item =>
    String.ofList (List.replicate indent ' ') ++ "- " ++ Yaml.closeLine item)

/-- A sequence of texts below a key that stands after `indent` spaces; nothing if it is empty. -/
def textSequence (indent items : Nat) (key : String) (texts : List String) : String :=
  if texts.isEmpty then ""
  else String.ofList (List.replicate indent ' ') ++ key ++ ":\n"
    ++ sequenceLines items (texts.map (Yaml.scalarText (items + 2)))

def boolText (b : Bool) : String := if b then "true" else "false"

/-- A node as an item of the sequence of nodes. -/
def ReportNode.item (n : ReportNode) : String :=
  let c := n.node
  "    - id: " ++ toString c.id ++ "\n"
    ++ keyLine 6 "parent" (toString c.parent)
    ++ keyLine 6 "depth" (toString n.depth)
    ++ keyLine 6 "method" (Yaml.scalarText 8 c.method.id)
    ++ keyLine 6 "bci" (toString c.callSite)
    ++ keyLine 6 "size" (toString c.method.size)
    ++ keyLine 6 "budget" (toString c.budget)
    ++ keyLine 6 "call_ratio" (Decimal.floatText documentFloat c.callRatio)
    ++ keyLine 6 "root_call_ratio" (Decimal.floatText documentFloat c.rootCallRatio)
    ++ keyLine 6 "static_benefit" (toString c.staticBenefit)
    ++ keyLine 6 "status" c.status.name
    ++ textSequence 6 8 "predicates" n.predicates
    ++ keyLine 6 "selected" (boolText n.selected)

namespace Report

/-- The counts of pruned calls; nothing if there are none. -/
def prunedLines (r : Report) : String :=
  if r.pruned.isEmpty then ""
  else "pruned:\n" ++ String.join (r.pruned.map fun (reason, n) =>
    "    - reason: " ++ reason.name ++ "\n" ++ keyLine 6 "count" (toString n))

/-- A sequence that is written even if it is empty. -/
def fullSequence (key items : String) : String :=
  key ++ (if items = "" then ": []\n" else ":\n" ++ items)

def yaml (r : Report) : String :=
  keyLine 0 "compilation" (Yaml.scalarText 4 r.compilation)
    ++ keyLine 0 "root" (Yaml.scalarText 4 r.root)
    ++ keyLine 0 "budget" (toString r.budget)
    ++ keyLine 0 "cost" (toString r.cost)
    ++ keyLine 0 "benefit" (Decimal.floatText documentFloat r.benefit)
    ++ fullSequence "selected" (sequenceLines 4 (r.selected.map toString))
    ++ fullSequence "nodes" (String.join (r.nodes.map ReportNode.item))
    ++ r.prunedLines
    ++ textSequence 0 4 "warnings" r.warnings

end Report

end InlinePlan
