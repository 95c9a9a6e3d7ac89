import InlinePlan.CallTree.Forest
import InlinePlan.Proofs.CallTree.Arena

set_option autoImplicit false

/-! # Trees of forests

Numbering a forest in preorder makes a tree whose links agree (`linked_ofForest`), and a tree whose
links agree passes its check (`Linked.check_eq`). The nodes from a node up to the root are its line;
its length is the depth of the node. -/

namespace InlinePlan

namespace Forest

variable {R : Type} {f : Forest R} {parent : NodeId} {next : Nat} {n : Node R} {c : NodeId}

/-! ## Numbers -/

theorem map_id_nodes (parent : NodeId) (next : Nat) (f : Forest R) :
    (f.nodes parent next).map (·.id) = (List.range' next f.size).map fun (i : Nat) => (i : Int) := by
  induction f generalizing parent next with
  | empty => rfl
  | grow call below rest ihb ihr =>
    have hrange : List.range' next (1 + below.size + rest.size)
        = next :: (List.range' (next + 1) below.size
          ++ List.range' (next + 1 + below.size) rest.size) := by
      rw [List.range'_append_1, Nat.add_assoc, Nat.add_comm 1, List.range'_succ]
    rw [nodes, size, hrange]
    simp only [List.cons_append, List.map_cons, List.map_append, ihb, ihr]

theorem mem_nodes_grow {call : Call R} {below rest : Forest R} :
    n ∈ (grow call below rest).nodes parent next ↔
      n = { call with id := next, parent, children := below.roots (next + 1) }
      ∨ n ∈ below.nodes next (next + 1) ∨ n ∈ rest.nodes parent (next + 1 + below.size) := by
  simp [nodes]

theorem id_bounds (h : n ∈ f.nodes parent next) : next ≤ n.id ∧ n.id < next + f.size := by
  have hid : n.id ∈ (f.nodes parent next).map (·.id) := List.mem_map_of_mem h
  rw [map_id_nodes, List.mem_map] at hid
  obtain ⟨i, hi, heq⟩ := hid
  rw [List.mem_range'_1] at hi
  grind

theorem roots_bounds (h : c ∈ f.roots next) : next ≤ c ∧ c < next + f.size := by
  induction f generalizing next with
  | empty => cases h
  | grow call below rest _ ihr =>
    rw [roots, List.mem_cons] at h
    rw [size]
    rcases h with rfl | h
    · grind
    · have := ihr h
      grind

theorem roots_increasing (next : Nat) (f : Forest R) : (f.roots next).Pairwise (· < ·) := by
  induction f generalizing next with
  | empty => exact .nil
  | grow call below rest _ ihr =>
    refine List.pairwise_cons.2 ⟨fun c hc => ?_, ihr _⟩
    have := roots_bounds hc
    grind

/-! ## Links -/

theorem parent_cases (h : n ∈ f.nodes parent next) :
    n.parent = parent ∨ (next : Int) ≤ n.parent ∧ n.parent < n.id := by
  induction f generalizing parent next with
  | empty => cases h
  | grow call below rest ihb ihr =>
    rcases mem_nodes_grow.1 h with rfl | h | h
    · exact .inl rfl
    · have hid := id_bounds h
      rcases ihb h with hpar | hpar <;> grind
    · rcases ihr h with hpar | hpar
      · exact .inl hpar
      · grind

/-- The topmost nodes are those whose parent is that of the forest. -/
theorem mem_roots_iff (hlt : parent < next) :
    c ∈ f.roots next ↔ ∃ n ∈ f.nodes parent next, n.id = c ∧ n.parent = parent := by
  induction f generalizing next with
  | empty => simp [roots, nodes]
  | grow call below rest _ ihr =>
    rw [roots, List.mem_cons, ihr (by grind)]
    constructor
    · rintro (rfl | ⟨n, hn, hid, hpar⟩)
      · exact ⟨_, mem_nodes_grow.2 (.inl rfl), rfl, rfl⟩
      · exact ⟨n, mem_nodes_grow.2 (.inr (.inr hn)), hid, hpar⟩
    · rintro ⟨n, hn, hid, hpar⟩
      rcases mem_nodes_grow.1 hn with rfl | hn | hn
      · exact .inl hid.symm
      · -- below the first call every parent is a node of the forest
        rcases parent_cases hn with h | h <;> grind
      · exact .inr ⟨n, hn, hid, hpar⟩

/-- The children of a node are those nodes of the forest whose parent it is. -/
theorem mem_children_iff (hlt : parent < next) (h : n ∈ f.nodes parent next) :
    c ∈ n.children ↔ ∃ m ∈ f.nodes parent next, m.id = c ∧ m.parent = n.id := by
  induction f generalizing parent next with
  | empty => cases h
  | grow call below rest ihb ihr =>
    -- the head, what is below it and the rest have numbers from three intervals
    have hhead : (next : Int) < ((next + 1 : Nat) : Int) := by grind
    have hrest : parent < ((next + 1 + below.size : Nat) : Int) := by grind
    rcases mem_nodes_grow.1 h with rfl | h | h
    · constructor
      · intro hc
        obtain ⟨m, hm, hid, hpar⟩ := (mem_roots_iff hhead).1 hc
        exact ⟨m, mem_nodes_grow.2 (.inr (.inl hm)), hid, hpar⟩
      · rintro ⟨m, hm, hid, hpar⟩
        rcases mem_nodes_grow.1 hm with rfl | hm | hm
        · grind
        · exact (mem_roots_iff hhead).2 ⟨m, hm, hid, hpar⟩
        · have := parent_cases hm
          grind
    · have hb := id_bounds h
      rw [ihb hhead h]
      constructor
      · rintro ⟨m, hm, hid, hpar⟩
        exact ⟨m, mem_nodes_grow.2 (.inr (.inl hm)), hid, hpar⟩
      · rintro ⟨m, hm, hid, hpar⟩
        rcases mem_nodes_grow.1 hm with rfl | hm | hm
        · grind
        · exact ⟨m, hm, hid, hpar⟩
        · have := parent_cases hm
          grind
    · have hb := id_bounds h
      rw [ihr hrest h]
      constructor
      · rintro ⟨m, hm, hid, hpar⟩
        exact ⟨m, mem_nodes_grow.2 (.inr (.inr hm)), hid, hpar⟩
      · rintro ⟨m, hm, hid, hpar⟩
        rcases mem_nodes_grow.1 hm with rfl | hm | hm
        · grind
        · have := parent_cases hm
          have := id_bounds hm
          grind
        · exact ⟨m, hm, hid, hpar⟩

theorem children_increasing (h : n ∈ f.nodes parent next) : n.children.Pairwise (· < ·) := by
  induction f generalizing parent next with
  | empty => cases h
  | grow call below rest ihb ihr =>
    rcases mem_nodes_grow.1 h with rfl | h | h
    · exact roots_increasing _ _
    · exact ihb h
    · exact ihr h

end Forest

namespace Tree

variable {R : Type} {t : Tree R} {root : Call R} {below : Forest R} {i : NodeId} {n : Node R}

/-! ## The tree of a forest -/

theorem node?_ofForest : (ofForest root below).node? i = some n ↔
    n ∈ (Forest.grow root below .empty).nodes noNode 0 ∧ n.id = i := by
  generalize hf : Forest.grow root below .empty = f
  have hids := f.map_id_nodes noNode 0
  rw [node?_eq_some_iff, ofForest, hf]
  dsimp only
  rw [List.getElem?_toArray]
  -- nodes are listed in the order of their numbers
  have hget : ∀ (k : Nat) (m : Node R), (f.nodes noNode 0)[k]? = some m → m.id = k := by
    intro k m hk
    have h := congrArg (·[k]?) hids
    simp only [List.getElem?_map, hk, Option.map_some] at h
    obtain ⟨j, hj, heq⟩ := Option.map_eq_some_iff.1 h.symm
    obtain ⟨hlt, hj⟩ := List.getElem?_eq_some_iff.1 hj
    rw [List.getElem_range'] at hj
    grind
  constructor
  · rintro ⟨h0, h⟩
    refine ⟨List.mem_of_getElem? h, ?_⟩
    rw [hget _ _ h]
    grind
  · rintro ⟨h, rfl⟩
    obtain ⟨k, hk⟩ := List.mem_iff_getElem?.1 h
    have hid := hget k n hk
    refine ⟨by grind, ?_⟩
    rw [hid, Int.toNat_natCast]
    exact hk

theorem size_ofForest : (ofForest root below).size = below.size + 1 := by
  simp [size, ofForest, Forest.size, Nat.add_comm]

/-- The links of the tree of a forest agree. -/
theorem linked_ofForest (root : Call R) (below : Forest R) : (ofForest root below).Linked := by
  have hlt : noNode < ((0 : Nat) : Int) := by decide
  constructor
  case id_eq => exact fun h => (node?_ofForest.1 h).2
  case parent_root =>
    intro n hn
    obtain ⟨hmem, hid⟩ := node?_ofForest.1 hn
    have := Forest.parent_cases hmem
    grind
  case parent_lt =>
    intro i n hn hne
    obtain ⟨hmem, rfl⟩ := node?_ofForest.1 hn
    rcases Forest.mem_nodes_grow.1 hmem with rfl | h | h
    · exact absurd rfl hne
    · have := Forest.parent_cases h
      have := Forest.id_bounds h
      grind
    · cases h
  case mem_children =>
    intro i c n hn
    obtain ⟨hmem, rfl⟩ := node?_ofForest.1 hn
    rw [Forest.mem_children_iff hlt hmem]
    constructor
    · rintro ⟨m, hm, hid, hpar⟩
      exact ⟨m, node?_ofForest.2 ⟨hm, hid⟩, hpar⟩
    · rintro ⟨m, hm, hpar⟩
      obtain ⟨hm, hid⟩ := node?_ofForest.1 hm
      exact ⟨m, hm, hid, hpar⟩
  case increasing => exact fun h => Forest.children_increasing (node?_ofForest.1 h).1

/-! ## Checks -/

theorem Linked.checkNode_eq (hl : t.Linked) {k : Nat} (hn : t.nodes[k]? = some n) :
    t.checkNode k n = .ok () := by
  have hnode : t.node? (k : NodeId) = some n := node?_eq_some_iff.2 ⟨by grind, by simpa using hn⟩
  have hid := hl.id_eq hnode
  unfold checkNode
  rw [if_neg (by simp [hid])]
  split
  · rename_i hk
    subst hk
    rw [if_pos (by simp [Node.isRoot, hl.parent_root hnode])]
  · rename_i hk
    have hpar := hl.parent_lt hnode (by grind)
    obtain ⟨m, hm⟩ : ∃ m, t.node? n.parent = some m :=
      exists_node? hpar.1 (by have := node?_bounds hnode; grind)
    have hmem : n.id ∈ m.children := (hl.mem_children hm).2 ⟨n, hid ▸ hnode, rfl⟩
    rw [if_neg (by grind), hm, if_pos (by simpa using hmem)]

theorem Linked.checkFrom_eq (hl : t.Linked) (k : Nat) (ns : List (Node R))
    (h : t.nodes.toList.drop k = ns) : t.checkFrom k ns = .ok () := by
  induction ns generalizing k with
  | nil => rfl
  | cons n ns ih =>
    have hn : t.nodes.toList[k]? = some n := by
      rw [← List.head?_drop, h, List.head?_cons]
    rw [checkFrom, hl.checkNode_eq (by simpa using hn)]
    refine ih (k + 1) ?_
    rw [← List.drop_drop, h, List.drop_one, List.tail_cons]

/-- A tree with nodes whose links agree passes its check. -/
theorem Linked.check_eq (hl : t.Linked) (hsize : 0 < t.size) : t.check = .ok () := by
  rw [check, if_neg (by omega)]
  exact hl.checkFrom_eq 0 _ List.drop_zero

/-! ## Lines -/

/-- The nodes from a node up to the root. -/
inductive Line (t : Tree R) : NodeId → List (Node R) → Prop where
  | root (i : NodeId) (n : Node R) : t.node? i = some n → n.isRoot = true → Line t i [n]
  | step (i : NodeId) (n : Node R) (ns : List (Node R)) :
      t.node? i = some n → n.isRoot = false → Line t n.parent ns → Line t i (n :: ns)

theorem Line.node {ns : List (Node R)} (h : t.Line i (n :: ns)) : t.node? i = some n := by
  cases h <;> assumption

theorem Line.unique {ns ms : List (Node R)} (h : t.Line i ns) (h' : t.Line i ms) : ns = ms := by
  induction h generalizing ms with
  | root i n hn hroot =>
    cases h' with
    | root _ m hm _ => rw [Option.some.inj (hn.symm.trans hm)]
    | step _ m ms hm hinner _ =>
      rw [← Option.some.inj (hn.symm.trans hm), hroot] at hinner
      cases hinner
  | step i n ns hn hinner _ ih =>
    cases h' with
    | root _ m hm hroot =>
      rw [← Option.some.inj (hn.symm.trans hm), hinner] at hroot
      cases hroot
    | step _ m ms hm _ hline =>
      obtain rfl := Option.some.inj (hn.symm.trans hm)
      rw [ih hline]

theorem Linked.length_line (hl : t.Linked) {ns : List (Node R)} (h : t.Line i ns) :
    1 ≤ ns.length ∧ ns.length ≤ i + 1 := by
  induction h with
  | root i n hn _ =>
    have := node?_bounds hn
    simp only [List.length_singleton]
    grind
  | step i n ns hn hroot _ ih =>
    have hne : i ≠ 0 := by
      rintro rfl
      simp [Node.isRoot, hl.parent_root hn] at hroot
    have := hl.parent_lt hn hne
    rw [List.length_cons]
    grind

theorem depthWithin_of_line {ns : List (Node R)} (h : t.Line i ns) {fuel : Nat}
    (hfuel : ns.length ≤ fuel) : t.depthWithin fuel i = some (ns.length - 1) := by
  induction h generalizing fuel with
  | root i n hn hroot =>
    obtain ⟨k, rfl⟩ : ∃ k, fuel = k + 1 := ⟨fuel - 1, by simp at hfuel; omega⟩
    simp [depthWithin, hn, hroot]
  | step i n ns hn hroot hline ih =>
    rw [List.length_cons] at hfuel
    obtain ⟨k, rfl⟩ : ∃ k, fuel = k + 1 := ⟨fuel - 1, by omega⟩
    have hpos : 0 < ns.length := by cases hline <;> simp
    simp [depthWithin, hn, hroot, ih (Nat.le_of_succ_le_succ hfuel)]
    omega

/-- The depth of a node is the number of nodes above it. -/
theorem Linked.depth_of_line (hl : t.Linked) {ns : List (Node R)} (h : t.Line i ns) :
    t.depth i = some (ns.length - 1) := by
  refine depthWithin_of_line h ?_
  obtain ⟨n, hn⟩ : ∃ n, t.node? i = some n := by cases h <;> exact ⟨_, ‹_›⟩
  have := hl.length_line h
  have := node?_bounds hn
  grind

end Tree

end InlinePlan
