import InlinePlan.CallTree.Build
import InlinePlan.Plan.Proposal

set_option autoImplicit false

/-! # Reports

What is told about a finished build: the tree in preorder, the proposal chosen from it, what was
pruned, and the warnings. -/

namespace InlinePlan

/-- One node of a report. -/
structure ReportNode where
  depth : Nat
  node : Node Float
  selected : Bool

/-- The predicates found for the method of a node. -/
def ReportNode.predicates (n : ReportNode) : List String :=
  n.node.summary.elim [] fun s => s.predicates.map Predicate.text

/-- A report. Only reasons for which something was pruned are listed. -/
structure Report where
  compilation : String
  root : MethodId
  budget : Int
  cost : Int
  benefit : Float
  selected : List NodeId
  nodes : List ReportNode
  pruned : List (PruneReason × Nat) := []
  warnings : List String := []

/-- The reasons for which calls were pruned, with their number. -/
def BuildState.pruneCounts (s : BuildState) : List (PruneReason × Nat) :=
  (PruneReason.all.map fun r => (r, s.prunedFor r)).filter fun (_, n) => 0 < n

/-- The report on a tree and a proposal chosen from it for a budget. -/
def Report.of (compilation : String) (t : Tree Float) (p : Proposal Float) (budget : Int)
    (s : BuildState) : Report where
  compilation := compilation
  root := (t.node? 0).elim "" (·.method.id)
  budget := budget
  cost := p.cost
  benefit := p.benefit
  selected := p.ids
  nodes := t.outline.map fun (depth, node) => { depth, node, selected := p.contains node.id }
  pruned := s.pruneCounts
  warnings := s.warnings

end InlinePlan
