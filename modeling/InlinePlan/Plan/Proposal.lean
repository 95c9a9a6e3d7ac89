import InlinePlan.Analysis.Arithmetic
import InlinePlan.CallTree.Tree

set_option autoImplicit false

/-! # Proposals

A proposal is a set of nodes to inline. It keeps the total cost and the total benefit of its nodes
up to date. Benefits are added in the order in which the nodes came, which matters for
floating-point numbers. -/

namespace InlinePlan

/-- A set of nodes with its totals. `ids` is increasing. -/
structure Proposal (R : Type) where
  ids : List NodeId := []
  cost : Int := 0
  benefit : R

/-- Puts a number into an increasing list that does not have it. -/
def insertSorted (id : NodeId) : List NodeId → List NodeId
  | [] => [id]
  | i :: is => if id < i then id :: i :: is else i :: insertSorted id is

theorem mem_insertSorted {x id : NodeId} {is : List NodeId} :
    x ∈ insertSorted id is ↔ x = id ∨ x ∈ is := by
  induction is with
  | nil => simp [insertSorted]
  | cons i is ih =>
    rw [insertSorted]
    split
    · simp only [List.mem_cons]
    · simp only [List.mem_cons, ih]
      exact or_left_comm

/-- A new number keeps the list strictly increasing. -/
theorem pairwise_insertSorted {id : NodeId} {is : List NodeId} (hs : is.Pairwise (· < ·))
    (hid : id ∉ is) : (insertSorted id is).Pairwise (· < ·) := by
  induction is with
  | nil => simp [insertSorted]
  | cons i is ih =>
    rw [List.pairwise_cons] at hs
    rw [List.mem_cons, not_or] at hid
    rw [insertSorted]
    split
    case isTrue hlt =>
      refine List.pairwise_cons.2 ⟨?_, List.pairwise_cons.2 hs⟩
      intro x hx
      rcases List.mem_cons.1 hx with rfl | hx
      · exact hlt
      · exact Int.lt_trans hlt (hs.1 x hx)
    case isFalse hlt =>
      refine List.pairwise_cons.2 ⟨?_, ih hs.2 hid.2⟩
      intro x hx
      rcases mem_insertSorted.1 hx with rfl | hx
      · exact Int.lt_iff_le_and_ne.2 ⟨Int.not_lt.1 hlt, Ne.symm hid.1⟩
      · exact hs.1 x hx

/-- A node to be added is not in the tree. -/
structure MissingNode where
  id : NodeId
  deriving Repr, DecidableEq

/-- What is wrong with a proposal. -/
inductive ProposalFault where
  | noRoot
  | unknownNode (id : NodeId) (size : Nat)
  | missingNode (id : NodeId)
  | orphan (id parent : NodeId)
  | overBudget (cost budget : Int)
  deriving Repr, DecidableEq

def ProposalFault.message : ProposalFault → String
  | .noRoot => malformedTree "proposal without root"
  | .unknownNode id size =>
    malformedTree ("proposal names node " ++ toString id ++ " of " ++ toString size)
  | .missingNode id => "node " ++ toString id
  | .orphan id parent =>
    "node " ++ toString id ++ " selected without its parent " ++ toString parent
  | .overBudget cost budget =>
    "proposal cost " ++ toString cost ++ " exceeds budget " ++ toString budget

namespace Proposal

variable {R : Type} [Scale R]

/-- The empty proposal. -/
def empty : Proposal R := { benefit := Scale.zero }

/-- Whether a node is selected. -/
def contains (p : Proposal R) (id : NodeId) : Bool := 0 ≤ id && p.ids.contains id

/-- Puts a node into the set and, if the tree has it, into the totals. -/
def insert (t : Tree R) (p : Proposal R) (id : NodeId) : Proposal R :=
  if p.ids.contains id then p
  else
    let ids := insertSorted id p.ids
    match t.node? id with
    | none => { p with ids }
    | some n =>
      { ids, cost := wrap 64 (p.cost + n.cost), benefit := Scale.add p.benefit n.benefit }

/-- Puts several nodes into the set, in order. -/
def insertAll (t : Tree R) (p : Proposal R) (ids : List NodeId) : Proposal R :=
  ids.foldl (insert t) p

/-- Adds a node. One that the tree does not have is reported; it stays in the set but counts
    nothing, and adding it again is not reported. -/
def add (t : Tree R) (id : NodeId) : EStateM MissingNode (Proposal R) Unit := fun p =>
  if p.ids.contains id || (t.node? id).isSome then .ok () (p.insert t id)
  else .error ⟨id⟩ (p.insert t id)

/-- Adds the nodes of another proposal in increasing order, up to the first that the tree does not
    have. -/
def union (t : Tree R) (o : Proposal R) : EStateM MissingNode (Proposal R) Unit :=
  o.ids.forM (add t)

/-- Whether two proposals share a node. -/
def overlaps (p o : Proposal R) : Bool := p.ids.any o.ids.contains

/-- Checks that each selected node is in the tree and selected with its parent. -/
def checkNodes (t : Tree R) (p : Proposal R) : List NodeId → Except ProposalFault Unit
  | [] => .ok ()
  | id :: ids =>
    if t.size ≤ id then .error (.unknownNode id t.size)
    else match t.node? id with
      | none => .error (.missingNode id)
      | some n =>
        if !n.isRoot && !p.contains n.parent then .error (.orphan id n.parent)
        else p.checkNodes t ids

/-- Checks that the root is selected if anything is, that every selected node's parent is selected,
    and that the cost is within the budget. -/
def check (t : Tree R) (p : Proposal R) (budget : Int) : Except ProposalFault Unit :=
  if !p.ids.isEmpty && !p.contains 0 then .error .noRoot
  else match p.checkNodes t p.ids with
    | .error e => .error e
    | .ok () => if budget < p.cost then .error (.overBudget p.cost budget) else .ok ()

/-- The nodes and the totals in one line. -/
def text (p : Proposal Float) : String :=
  "\x7b" ++ String.intercalate "," (p.ids.map toString) ++ "\x7d cost=" ++ toString p.cost
    ++ " benefit=" ++ (Decimal.Real.ofFloat p.benefit).fixed 3

end Proposal

end InlinePlan
