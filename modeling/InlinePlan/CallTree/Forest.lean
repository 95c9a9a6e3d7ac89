import InlinePlan.CallTree.Tree

set_option autoImplicit false

/-! # Forests

While a call tree grows it is a forest: the calls below a method in order, each with the calls below
itself. A forest has no numbers in it; numbering its calls in preorder makes it a tree. -/

namespace InlinePlan

/-- A list of calls, each with the forest below it. -/
inductive Forest (R : Type) where
  | empty
  | grow (call : Call R) (below rest : Forest R)

namespace Forest

variable {R : Type}

/-- The number of calls. -/
def size : Forest R → Nat
  | .empty => 0
  | .grow _ below rest => 1 + below.size + rest.size

/-- Two forests side by side. -/
def append : Forest R → Forest R → Forest R
  | .empty, f => f
  | .grow call below rest, f => .grow call below (rest.append f)

/-- The numbers of the topmost calls if the first call has number `next`. -/
def roots : (next : Nat) → Forest R → List NodeId
  | _, .empty => []
  | next, .grow _ below rest => (next : Int) :: rest.roots (next + 1 + below.size)

/-- The nodes below `parent` in preorder, numbered from `next` on. -/
def nodes : (parent : NodeId) → (next : Nat) → Forest R → List (Node R)
  | _, _, .empty => []
  | parent, next, .grow call below rest =>
    { call with id := next, parent, children := below.roots (next + 1) }
      :: below.nodes next (next + 1) ++ rest.nodes parent (next + 1 + below.size)

@[simp]
theorem length_nodes (parent : NodeId) (next : Nat) (f : Forest R) :
    (f.nodes parent next).length = f.size := by
  induction f generalizing parent next with
  | empty => rfl
  | grow call below rest ihb ihr => simp [nodes, size, ihb, ihr]; omega

theorem size_append (f g : Forest R) : (f.append g).size = f.size + g.size := by
  induction f with
  | empty => simp [append, size]
  | grow call below rest _ ih => simp [append, size, ih]; omega

end Forest

/-- The tree of a root and the forest below it. -/
def Tree.ofForest {R : Type} (root : Call R) (below : Forest R) : Tree R :=
  { nodes := ((Forest.grow root below .empty).nodes noNode 0).toArray }

end InlinePlan
