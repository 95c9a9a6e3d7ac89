import InlinePlan.Analysis.Summary
import InlinePlan.CallTree.Scale
import InlinePlan.Decimal.Fixed

set_option autoImplicit false

/-! # Call trees

The nodes of a call tree are the calls below one method that could be inlined; the root stands for
the method itself. Nodes are numbered in the order in which they are added, and each holds links to
its parent and its children. The links are plain numbers, so that a damaged tree can be represented
and `Tree.check` can find the damage. -/

namespace InlinePlan

/-- The number of a node in its tree. -/
abbrev NodeId := Int

/-- The parent of the root. -/
def noNode : NodeId := -1

/-- How far the method of a node was analysed. -/
inductive Status where
  | unvisited
  | interpreting
  | summarized
  | failed
  | noGraph
  deriving Repr, DecidableEq

namespace Status

/-- All states, by code. -/
def all : List Status := [.unvisited, .interpreting, .summarized, .failed, .noGraph]

def name : Status → String
  | .unvisited => "unvisited"
  | .interpreting => "interpreting"
  | .summarized => "summarized"
  | .failed => "failed"
  | .noGraph => "no-graph"

end Status

/-- A call that could be inlined. `budget` is what is left for calls below it, `callRatio` counts
    its executions per execution of the parent and `rootCallRatio` per execution of the root.
    `origin` is the node whose analysis found the summary. -/
structure Call (R : Type) where
  method : Method
  budget : Int := 0
  callSite : Int := -1
  callRatio : R
  rootCallRatio : R
  staticBenefit : Int := 0
  summary : Option Summary := none
  origin : Option NodeId := none
  args : List Value := []
  status : Status := .unvisited

/-- A call with its place in the tree. -/
structure Node (R : Type) extends Call R where
  id : NodeId
  parent : NodeId
  children : List NodeId := []

namespace Node

variable {R : Type}

def isRoot (n : Node R) : Bool := n.parent == noNode

/-- The bytes that inlining adds. The root is compiled anyway. -/
def cost (n : Node R) : Int := if n.isRoot then 0 else n.method.size

/-- The static benefit, weighted by how often the call runs per execution of the root. -/
def benefit [Scale R] (n : Node R) : R := Scale.mul (Scale.ofInt n.staticBenefit) n.rootCallRatio

/-- One line about a node. -/
def text (n : Node Float) : String :=
  "#" ++ toString n.id ++ " " ++ n.method.id ++ "@" ++ toString n.callSite
    ++ " budget=" ++ toString n.budget
    ++ " ratio=" ++ (Decimal.Real.ofFloat n.rootCallRatio).fixed 4
    ++ " benefit=" ++ toString n.staticBenefit

end Node

/-- What is wrong with a tree, or with an addition to it. -/
inductive TreeFault where
  | secondRoot (method : MethodId)
  | noParent (parent : NodeId) (method : MethodId)
  | empty
  | misnumbered (position : Nat) (id : NodeId)
  | rootWithParent (parent : NodeId)
  | badParent (id parent : NodeId)
  | notAChild (id parent : NodeId)
  deriving Repr, DecidableEq

/-- What is wrong, without the class of the fault. -/
def TreeFault.detail : TreeFault → String
  | .secondRoot method => "second root " ++ method
  | .noParent parent method => "parent " ++ toString parent ++ " of " ++ method ++ " does not exist"
  | .empty => "empty tree"
  | .misnumbered position id => "node at " ++ toString position ++ " has id " ++ toString id
  | .rootWithParent parent => "node 0 has parent " ++ toString parent
  | .badParent id parent => "node " ++ toString id ++ " has parent " ++ toString parent
  | .notAChild id parent =>
    "node " ++ toString id ++ " missing from children of " ++ toString parent

/-- A message about a damaged tree. -/
def malformedTree (detail : String) : String := "malformed call tree: " ++ detail

def TreeFault.message (e : TreeFault) : String := malformedTree e.detail

/-- The nodes of a tree. -/
structure Tree (R : Type) where
  nodes : Array (Node R) := #[]

namespace Tree

variable {R : Type}

/-- The number of nodes. -/
def size (t : Tree R) : Nat := t.nodes.size

/-- The node with a number. -/
def node? (t : Tree R) (id : NodeId) : Option (Node R) :=
  if id < 0 then none else t.nodes[id.toNat]?

/-- Changes the node with a number, if there is one. -/
def modify (t : Tree R) (id : NodeId) (f : Node R → Node R) : Tree R :=
  if id < 0 then t else { nodes := t.nodes.modify id.toNat f }

/-- Adds a call below `parent`, or as the root of an empty tree. -/
def add (t : Tree R) (parent : NodeId) (call : Call R) : Except TreeFault (Tree R) :=
  let id : NodeId := t.size
  let node : Node R := { call with id, parent }
  if parent = noNode then
    if t.size = 0 then .ok { nodes := t.nodes.push node } else .error (.secondRoot call.method.id)
  else if parent < 0 ∨ t.size ≤ parent then .error (.noParent parent call.method.id)
  else
    let linked := t.modify parent fun p => { p with children := p.children ++ [id] }
    .ok { nodes := linked.nodes.push node }

/-! ## Walks -/

/-- The nodes below `id` in preorder, itself first, if none is deeper than `fuel`. Below a node that
    `descend` refuses nothing is visited. -/
def walkWithin (t : Tree R) (descend : NodeId → Bool) : (fuel : Nat) → NodeId → Option (List NodeId)
  | 0, _ => none
  | fuel + 1, id => do
    let n ← t.node? id
    if descend n.id then
      let below ← n.children.mapM (t.walkWithin descend fuel)
      return n.id :: below.flatten
    else return [n.id]

/-- All nodes in preorder, children in the order in which they were added. A tree whose links lead
    nowhere or in a circle has no such order. -/
def walk (t : Tree R) (descend : NodeId → Bool) : Option (List NodeId) :=
  if t.size = 0 then some [] else t.walkWithin descend t.size 0

/-- The number of steps from a node up to the root, if there are no more than `fuel`. -/
def depthWithin (t : Tree R) : (fuel : Nat) → NodeId → Option Nat
  | 0, _ => none
  | fuel + 1, id => do
    let n ← t.node? id
    if n.isRoot then return 0
    else return (← t.depthWithin fuel n.parent) + 1

/-- The number of edges between the root and a node. -/
def depth (t : Tree R) (id : NodeId) : Option Nat := t.depthWithin t.size id

/-- The nodes in preorder with their depths. -/
def outline (t : Tree R) : List (Nat × Node R) :=
  ((t.walk fun _ => true).getD []).filterMap fun id =>
    (t.node? id).map fun n => ((t.depth id).getD 0, n)

/-- A line for each node, indented by its depth. -/
def text (t : Tree Float) : String :=
  String.join (t.outline.map fun (depth, n) =>
    String.join (List.replicate depth "  ") ++ n.text ++ "\n")

/-! ## Checking -/

/-- Checks the number and the links of the node at a position. -/
def checkNode (t : Tree R) (position : Nat) (n : Node R) : Except TreeFault Unit :=
  if n.id ≠ position then .error (.misnumbered position n.id)
  else if position = 0 then if n.isRoot then .ok () else .error (.rootWithParent n.parent)
  else if n.parent < 0 ∨ n.id ≤ n.parent then .error (.badParent n.id n.parent)
  else if (t.node? n.parent).any (·.children.contains n.id) then .ok ()
  else .error (.notAChild n.id n.parent)

/-- Checks nodes in order, the first at `position`. -/
def checkFrom (t : Tree R) : (position : Nat) → List (Node R) → Except TreeFault Unit
  | _, [] => .ok ()
  | position, n :: ns =>
    match t.checkNode position n with
    | .error e => .error e
    | .ok () => t.checkFrom (position + 1) ns

/-- Checks that the tree has nodes, that they are numbered, and that each but the root is a child of
    a parent that was added before it. -/
def check (t : Tree R) : Except TreeFault Unit :=
  if t.size = 0 then .error .empty else t.checkFrom 0 t.nodes.toList

end Tree

end InlinePlan
