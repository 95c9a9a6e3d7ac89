import InlinePlan.Plan.Proposal
import InlinePlan.Plan.Queue

set_option autoImplicit false

/-! # Choosing what to inline

The nodes to inline are chosen by a table. Its rows follow the nodes in an order in which parents
come first and expensive nodes early; its columns are the budgets from zero up. A cell holds the
best proposal found for its budget among the nodes up to its row: that of the row before, or one
that extends an earlier cell by the row's node and those of its ancestors that are missing. -/

namespace InlinePlan

variable {R : Type} [Scale R]

/-! ## Priority -/

/-- Whether node `a` is taken before node `b`: for its cost, then its benefit, then its number. -/
def Node.precedes (a b : Node R) : Bool :=
  if a.cost ≠ b.cost then b.cost < a.cost
  else if !Scale.same a.benefit b.benefit then Scale.lt b.benefit a.benefit
  else a.id < b.id

namespace Tree

/-- Whether the node numbered `a` is taken before the one numbered `b`. -/
def takes (t : Tree R) (a b : NodeId) : Bool :=
  match t.node? a, t.node? b with
  | some x, some y => x.precedes y
  | _, _ => false

/-- Takes the first of the open nodes, which puts its children into the queue, until none is left.
    Benefits that are not numbers compare with none. What comes first is up to the queue then. -/
def orderFrom (t : Tree R) : (fuel : Nat) → (frontier : List NodeId) → List NodeId
  | 0, _ => []
  | fuel + 1, frontier =>
    match Queue.pop? t.takes frontier with
    | none => []
    | some (next, others) =>
      let children := (t.node? next).elim [] (·.children)
      next :: t.orderFrom fuel (children.foldl (Queue.push t.takes) others)

/-- The nodes in the order of the table's rows: every node follows its parent, and among those whose
    parent is placed the first one is taken. -/
def priorityOrder (t : Tree R) : List NodeId := t.orderFrom t.size [0]

end Tree

/-! ## The table -/

/-- The proposals of one row, by budget. -/
abbrev Row (R : Type) := Array (Proposal R)

/-- The cell for a budget; `none` outside the table. -/
def Row.cell? (row : Row R) (budget : Int) : Option (Proposal R) :=
  if budget < 0 then none else row[budget.toNat]?

/-- A node with the ancestors that have to come with it. `anchor` is the parent of the topmost. -/
structure Chain (R : Type) where
  nodes : Proposal R
  anchor : NodeId

/-- What became of a look-up in the table. -/
inductive Found (α : Type) where
  | outside
  | nothing
  | found (a : α)

namespace Tree

/-- Climbs from `top` until the previous row's cell for what is left of the budget has the parent.
    There is nothing if the chain does not fit. -/
def climb (t : Tree R) (previous : Row R) (budget : Int) :
    (fuel : Nat) → (chain : Proposal R) → (top : Node R) → Found (Chain R)
  | 0, _, _ => .outside
  | fuel + 1, chain, top =>
    if budget < chain.cost then .nothing
    else match previous.cell? (budget - chain.cost) with
      | none => .outside
      | some cell =>
        if cell.contains top.parent then .found ⟨chain, top.parent⟩
        else match t.node? top.parent with
          | none => .outside
          | some parent => t.climb previous budget fuel (chain.insert t parent.id) parent

/-- Looks through rows, newest first, for a cell that has the anchor of a chain and none of its
    nodes, and joins the two if the result fits. -/
def attach (t : Tree R) (budget : Int) (chain : Chain R) : List (Row R) → Found (Proposal R)
  | [] => .nothing
  | row :: rows =>
    match row.cell? (budget - chain.nodes.cost) with
    | none => .outside
    | some cell =>
      if cell.overlaps chain.nodes || !cell.contains chain.anchor then t.attach budget chain rows
      else
        let joined := cell.insertAll t chain.nodes.ids
        if budget < joined.cost then .nothing else .found joined

/-- The best proposal found with node `v` for a budget. -/
def extend (t : Tree R) (rows : List (Row R)) (v : NodeId) (budget : Int) : Found (Proposal R) :=
  match rows, t.node? v with
  | previous :: _, some n =>
    match t.climb previous budget t.size (Proposal.empty.insert t v) n with
    | .outside => .outside
    | .nothing => .nothing
    | .found chain => t.attach budget chain rows
  | _, _ => .outside

/-- The cell of node `v` for a budget: the cell above it, unless a proposal with `v` is better. -/
def cellFor (t : Tree R) (rows : List (Row R)) (v : NodeId) (above : Proposal R) (budget : Nat) :
    Option (Proposal R) :=
  match t.extend rows v budget with
  | .outside => none
  | .nothing => some above
  | .found p => some (if Scale.lt above.benefit p.benefit then p else above)

/-- The row of node `v`. -/
def rowFor (t : Tree R) (rows : List (Row R)) (v : NodeId) (previous : Row R) : Option (Row R) :=
  (previous.toList.zipIdx.mapM fun (above, budget) => t.cellFor rows v above budget).map
    List.toArray

/-- Adds a row for each node. The rows are listed newest first. -/
def fill (t : Tree R) : List NodeId → List (Row R) → Option (List (Row R))
  | [], rows => some rows
  | v :: vs, rows =>
    match rows with
    | [] => none
    | previous :: _ =>
      match t.rowFor rows v previous with
      | none => none
      | some row => t.fill vs (row :: rows)

/-- Chooses the nodes to inline within a budget; a negative budget counts as zero. There is no
    answer if a row, whose cells have 8 bytes each, cannot be as long as the budget asks for, or if
    the table is left, which negative sizes can bring about. -/
def select (t : Tree R) (budget : Int) : Option (Proposal R) :=
  let width := budget.toNat + 1
  if maxEntries 8 < width then none
  else
    let rootOnly : Proposal R := Proposal.empty.insert t 0
    match t.fill (t.priorityOrder.drop 1) [Array.replicate width rootOnly] with
    | some (last :: _) => last.cell? budget.toNat
    | _ => none

end Tree

end InlinePlan
