import InlinePlan.Proofs.CallTree.Additions

set_option autoImplicit false

/-! # Forests put into trees

Putting a forest below a node (`Tree.graft`) gives its calls the next numbers in preorder. That is what
comes about when the first call of the forest is added, then all that is below it, and then the rest
(`Tree.graft_grow`). What is below a node of a grafted forest has consecutive numbers, and a walk
visits it in their order (`Tree.visits_roots`). -/

namespace InlinePlan

variable {R : Type}

namespace Forest

theorem roots_append (next : Nat) (f g : Forest R) :
    (f.append g).roots next = f.roots next ++ g.roots (next + f.size) := by
  induction f generalizing next with
  | empty => rfl
  | grow call below rest _ ihr =>
    rw [append, roots, roots, ihr, size, List.cons_append, Nat.add_assoc next 1 below.size,
      Nat.add_assoc next]

theorem nodes_append (parent : NodeId) (next : Nat) (f g : Forest R) :
    (f.append g).nodes parent next = f.nodes parent next ++ g.nodes parent (next + f.size) := by
  induction f generalizing next with
  | empty => rfl
  | grow call below rest _ ihr =>
    rw [append, nodes, nodes, ihr, size, List.append_assoc, Nat.add_assoc next 1 below.size,
      Nat.add_assoc next]

end Forest

namespace Tree

variable {t : Tree R} {i : NodeId} {n : Node R} {call : Call R} {f : Forest R} {k : Nat}

theorem node?_natCast (t : Tree R) (k : Nat) : t.node? k = t.nodes[k]? :=
  if_neg (Int.not_lt.2 (Int.natCast_nonneg k))

/-- Trees with the same nodes are the same. -/
theorem ext_node? {t' : Tree R} (h : ∀ k : Nat, t.node? k = t'.node? k) : t = t' := by
  obtain ⟨nodes⟩ := t
  obtain ⟨nodes'⟩ := t'
  congr 1
  refine Array.ext_getElem? fun k => ?_
  have hk := h k
  rwa [node?_natCast, node?_natCast] at hk

theorem node?_of_size_le (h : t.size ≤ k) : t.node? k = none := by
  rw [node?_natCast, Array.getElem?_eq_none h]

/-! ## Changes of calls -/

/-- Changes the call of a node. -/
def amend (t : Tree R) (i : NodeId) (h : Call R → Call R) : Tree R :=
  t.modify i fun n => { n with toCall := h n.toCall }

/-- What a change of the call of node `i` makes of node `j`. -/
def amended (h : Call R → Call R) (i j : NodeId) (n : Node R) : Node R :=
  if j = i then { n with toCall := h n.toCall } else n

theorem size_amend (t : Tree R) (i : NodeId) (h : Call R → Call R) : (t.amend i h).size = t.size :=
  t.size_modify i _

theorem node?_amend (t : Tree R) (i : NodeId) (h : Call R → Call R) (j : NodeId) :
    (t.amend i h).node? j = (t.node? j).map (amended h i j) := by
  rw [amend, node?_modify]
  unfold amended
  split
  · rfl
  · exact Option.map_id'.symm

theorem node?_amend_of_ne {j : NodeId} (hn : t.node? j = some n) (hne : j ≠ i)
    (h : Call R → Call R) : (t.amend i h).node? j = some n := by
  rw [node?_amend, hn, Option.map_some, amended, if_neg hne]

theorem node?_amend_self (hn : t.node? i = some n) (h : Call R → Call R) :
    (t.amend i h).node? i = some { n with toCall := h n.toCall } := by
  rw [node?_amend, hn, Option.map_some, amended, if_pos rfl]

/-! ## Grafts -/

/-- What putting children below node `i` makes of node `j`. -/
def joined (children : List NodeId) (i j : NodeId) (n : Node R) : Node R :=
  if j = i then { n with children := n.children ++ children } else n

/-- Puts a forest below a node, behind the children that the node has. -/
def graft (t : Tree R) (i : NodeId) (f : Forest R) : Tree R where
  nodes := (t.modify i fun n => { n with children := n.children ++ f.roots t.size }).nodes
    ++ (f.nodes i t.size).toArray

theorem size_graft (t : Tree R) (i : NodeId) (f : Forest R) :
    (t.graft i f).size = t.size + f.size := by
  have hsize := t.size_modify i fun n => { n with children := n.children ++ f.roots t.size }
  rw [size] at hsize
  rw [size, graft, Array.size_append, hsize, List.size_toArray, Forest.length_nodes]

theorem lt_size_graft (hi : i < t.size) (j : NodeId) (f : Forest R) : i < (t.graft j f).size := by
  rw [size_graft]
  exact Int.lt_of_lt_of_le hi (Int.ofNat_le.2 (Nat.le_add_right _ _))

/-- A call that is put below a node is the last node. -/
theorem size_lt_graft_leaf (t : Tree R) (i : NodeId) (call : Call R) :
    (t.size : NodeId) < (t.graft i (.grow call .empty .empty)).size := by
  rw [size_graft]
  exact Int.ofNat_lt.2 (Nat.lt_succ_self _)

/-- The nodes that were there. -/
theorem node?_graft_of_lt (hk : k < t.size) :
    (t.graft i f).node? k = (t.node? k).map (joined (f.roots t.size) i k) := by
  have hsize := t.size_modify i fun n => { n with children := n.children ++ f.roots t.size }
  have hmod := t.node?_modify i (fun n => { n with children := n.children ++ f.roots t.size }) k
  rw [size] at hsize
  rw [node?_natCast] at hmod
  rw [node?_natCast, graft, Array.getElem?_append, hsize, if_pos hk, hmod]
  unfold joined
  split
  · rfl
  · exact Option.map_id'.symm

/-- The nodes of the forest. -/
theorem node?_graft_of_le (hk : t.size ≤ k) :
    (t.graft i f).node? k = (f.nodes i t.size)[k - t.size]? := by
  have hsize := t.size_modify i fun n => { n with children := n.children ++ f.roots t.size }
  rw [size] at hsize
  rw [node?_natCast, graft, Array.getElem?_append, hsize, if_neg (Nat.not_lt.2 hk),
    List.getElem?_toArray]

theorem node?_graft_of_mem (hn : n ∈ f.nodes i t.size) : (t.graft i f).node? n.id = some n := by
  obtain ⟨k, hk⟩ := List.mem_iff_getElem?.1 hn
  -- nodes are listed in the order of their numbers
  have hid : n.id = ((t.size + k : Nat) : NodeId) := by
    obtain ⟨hlt, rfl⟩ := List.getElem?_eq_some_iff.1 hk
    have hids : ((f.nodes i t.size).map (·.id))[k]? = _ := congrArg (·[k]?) (f.map_id_nodes i t.size)
    rw [Forest.length_nodes] at hlt
    simpa [hk, hlt] using hids
  rw [hid, node?_graft_of_le (Nat.le_add_right _ _), Nat.add_sub_cancel_left, hk]

theorem node?_graft_of_ne {j : NodeId} (hn : t.node? j = some n) (hne : j ≠ i) :
    (t.graft i f).node? j = some n := by
  obtain ⟨h0, hlt⟩ := node?_bounds hn
  obtain ⟨k, rfl⟩ := Int.eq_ofNat_of_zero_le h0
  rw [node?_graft_of_lt (Int.ofNat_lt.1 hlt), hn, Option.map_some, joined, if_neg hne]

theorem node?_graft_self (hn : t.node? i = some n) :
    (t.graft i f).node? i = some { n with children := n.children ++ f.roots t.size } := by
  obtain ⟨h0, hlt⟩ := node?_bounds hn
  obtain ⟨k, rfl⟩ := Int.eq_ofNat_of_zero_le h0
  rw [node?_graft_of_lt (Int.ofNat_lt.1 hlt), hn, Option.map_some, joined, if_pos rfl]

/-! ## Growing step by step -/

theorem joined_nil (i j : NodeId) : joined (R := R) [] i j = id := by
  funext n
  unfold joined
  split
  · exact congrArg (fun children => { n with children }) (List.append_nil _)
  · rfl

theorem joined_comp (is js : List NodeId) (i j : NodeId) :
    joined (R := R) js i j ∘ joined is i j = joined (is ++ js) i j := by
  funext n
  rw [Function.comp_apply]
  unfold joined
  split
  · exact congrArg (fun children => { n with children }) (List.append_assoc _ _ _)
  · rfl

@[simp]
theorem graft_empty (t : Tree R) (i : NodeId) : t.graft i .empty = t := by
  refine ext_node? fun k => ?_
  rcases Nat.lt_or_ge k t.size with hk | hk
  · rw [node?_graft_of_lt hk, Forest.roots, joined_nil, Option.map_id, id]
  · rw [node?_graft_of_le hk, node?_of_size_le hk]
    rfl

/-- Forests that are put below a node one after the other are put there as one. -/
theorem graft_graft (hi : i < t.size) (f g : Forest R) :
    (t.graft i f).graft i g = t.graft i (f.append g) := by
  refine ext_node? fun k => ?_
  rcases Nat.lt_or_ge k t.size with hk | hk
  · have hk' : k < (t.graft i f).size := by rw [size_graft]; omega
    rw [node?_graft_of_lt hk', node?_graft_of_lt hk, node?_graft_of_lt hk, Option.map_map,
      joined_comp, Forest.roots_append, size_graft]
  · rw [node?_graft_of_le hk, Forest.nodes_append, List.getElem?_append, Forest.length_nodes]
    have hne : (k : NodeId) ≠ i := by
      rintro rfl
      exact Nat.not_lt.2 hk (Int.ofNat_lt.1 hi)
    split
    · have hk' : k < (t.graft i f).size := by rw [size_graft]; omega
      rw [node?_graft_of_lt hk', node?_graft_of_le hk]
      have hsame : joined ((g.roots (t.graft i f).size)) i k = (id : Node R → Node R) := by
        funext n
        exact if_neg hne
      rw [hsame, Option.map_id, id]
    · have hk' : (t.graft i f).size ≤ k := by rw [size_graft]; omega
      rw [node?_graft_of_le hk', size_graft, Nat.sub_add_eq]

/-- A call and what is below it are put below a node one after the other. -/
theorem graft_leaf_graft (t : Tree R) (i : NodeId) (call : Call R) (below : Forest R) :
    (t.graft i (.grow call .empty .empty)).graft t.size below
      = t.graft i (.grow call below .empty) := by
  have hsize : (t.graft i (.grow call .empty .empty)).size = t.size + 1 := size_graft _ _ _
  refine ext_node? fun k => ?_
  rcases Nat.lt_trichotomy k t.size with hk | rfl | hk
  · have hne : (k : NodeId) ≠ t.size := fun h => Nat.ne_of_lt hk (Int.ofNat.inj h)
    rw [node?_graft_of_lt (by omega), node?_graft_of_lt hk, node?_graft_of_lt hk, Option.map_map]
    congr 1
    funext n
    exact if_neg hne
  · rw [node?_graft_of_lt (by omega), node?_graft_of_le (Nat.le_refl _),
      node?_graft_of_le (Nat.le_refl _), Nat.sub_self, hsize]
    exact congrArg some (if_pos rfl)
  · obtain ⟨j, rfl⟩ : ∃ j, k = t.size + 1 + j := ⟨k - (t.size + 1), by omega⟩
    rw [node?_graft_of_le (by omega), node?_graft_of_le (by omega), hsize,
      Nat.add_sub_cancel_left, Nat.add_assoc, Nat.add_sub_cancel_left, Nat.add_comm 1 j]
    rw [Forest.nodes, List.cons_append, List.getElem?_cons_succ, Forest.nodes, List.append_nil]

/-- A call is added, then all that is below it, and then the rest. -/
theorem graft_grow (hi : i < t.size) (call : Call R) (below rest : Forest R) :
    ((t.graft i (.grow call .empty .empty)).graft t.size below).graft i rest
      = t.graft i (.grow call below rest) := by
  rw [graft_leaf_graft, graft_graft hi]
  rfl

/-- An addition puts a single call below a node. -/
theorem add_eq_graft (h0 : 0 ≤ i) (hi : i < t.size) (call : Call R) :
    t.add i call = .ok (t.graft i (.grow call .empty .empty)) := by
  have hroot : i ≠ noNode := by
    rintro rfl
    exact absurd h0 (by decide)
  rw [add, if_neg hroot, if_neg (not_or.2 ⟨Int.not_lt.2 h0, Int.not_le.2 hi⟩)]
  rfl

/-- The call of a node can be changed before something is put below a node, or after it. -/
theorem amend_graft (hi : i < t.size) (j : NodeId) (f : Forest R) (h : Call R → Call R) :
    (t.graft j f).amend i h = (t.amend i h).graft j f := by
  refine ext_node? fun k => ?_
  rw [node?_amend]
  rcases Nat.lt_or_ge k t.size with hk | hk
  · rw [node?_graft_of_lt hk, node?_graft_of_lt (by rwa [size_amend]), node?_amend, Option.map_map,
      Option.map_map, size_amend]
    congr 1
    funext n
    rw [Function.comp_apply, Function.comp_apply]
    unfold amended joined
    split <;> split <;> rfl
  · have hne : (k : NodeId) ≠ i := by
      rintro rfl
      exact Nat.not_lt.2 hk (Int.ofNat_lt.1 hi)
    have hsame : amended h i k = id := by
      funext n
      exact if_neg hne
    rw [node?_graft_of_le hk, node?_graft_of_le (by rwa [size_amend]), size_amend, hsame,
      Option.map_id, id]

theorem amend_leaf (call : Call R) (h : Call R → Call R) :
    (t.graft i (.grow call .empty .empty)).amend t.size h
      = t.graft i (.grow (h call) .empty .empty) := by
  refine ext_node? fun k => ?_
  rw [node?_amend]
  rcases Nat.lt_trichotomy k t.size with hk | rfl | hk
  · have hne : (k : NodeId) ≠ t.size := fun h => Nat.ne_of_lt hk (Int.ofNat.inj h)
    have hsame : amended h t.size k = id := by
      funext n
      exact if_neg hne
    rw [node?_graft_of_lt hk, node?_graft_of_lt hk, hsame, Option.map_id, id]
    rfl
  · rw [node?_graft_of_le (Nat.le_refl _), node?_graft_of_le (Nat.le_refl _), Nat.sub_self]
    exact congrArg some (if_pos rfl)
  · rw [node?_of_size_le (by rw [size_graft]; exact hk), node?_of_size_le (by rw [size_graft]; exact hk)]
    rfl

/-! ## Trees of forests -/

theorem add_root (call : Call R) : add {} noNode call = .ok (ofForest call .empty) := rfl

theorem amend_ofForest (call : Call R) (h : Call R → Call R) :
    (ofForest call .empty).amend 0 h = ofForest (h call) .empty := rfl

theorem graft_ofForest (call : Call R) (f : Forest R) :
    (ofForest call .empty).graft 0 f = ofForest call f := by
  have hsize : (ofForest call .empty : Tree R).size = 1 := rfl
  have hroot : (ofForest call .empty : Tree R).modify 0
      (fun n => { n with children := n.children ++ f.roots 1 })
        = { nodes := #[{ call with id := 0, parent := noNode, children := f.roots 1 }] } := rfl
  rw [graft, hsize, hroot, ofForest, Forest.nodes, Forest.nodes, List.append_nil]
  simp

/-! ## Walks -/

/-- Consecutive numbers, from `next` on. -/
def numbers (next count : Nat) : List NodeId := (List.range' next count).map fun (k : Nat) => (k : Int)

/-- The nodes of a forest that stands in a tree have consecutive numbers and are visited in the order
    of their numbers. -/
theorem visits_roots {parent : NodeId} {next : Nat}
    (h : ∀ n ∈ f.nodes parent next, t.node? n.id = some n) :
    t.Visits (f.roots next) (numbers next f.size) := by
  rw [numbers, ← f.map_id_nodes parent]
  induction f generalizing parent next with
  | empty => exact .nil
  | grow call below rest ihb ihr =>
    have hhead := h _ (Forest.mem_nodes_grow.2 (.inl rfl))
    rw [Forest.nodes, List.cons_append, List.map_cons, List.map_append]
    exact .cons hhead (ihb fun n hn => h n (Forest.mem_nodes_grow.2 (.inr (.inl hn))))
      (ihr fun n hn => h n (Forest.mem_nodes_grow.2 (.inr (.inr hn))))

end Tree

/-- Below a node of a forest a forest stands that has the next numbers. -/
theorem Forest.exists_below {f : Forest R} {parent : NodeId} {next : Nat} {n : Node R}
    (hn : n ∈ f.nodes parent next) : ∃ (k : Nat) (below : Forest R), n.id = k
      ∧ n.children = below.roots (k + 1) ∧ ∀ m ∈ below.nodes k (k + 1), m ∈ f.nodes parent next := by
  induction f generalizing parent next with
  | empty => cases hn
  | grow call below rest ihb ihr =>
    rcases mem_nodes_grow.1 hn with rfl | hn | hn
    · exact ⟨next, below, rfl, rfl, fun m hm => mem_nodes_grow.2 (.inr (.inl hm))⟩
    · obtain ⟨k, f, hid, hchildren, hf⟩ := ihb hn
      exact ⟨k, f, hid, hchildren, fun m hm => mem_nodes_grow.2 (.inr (.inl (hf m hm)))⟩
    · obtain ⟨k, f, hid, hchildren, hf⟩ := ihr hn
      exact ⟨k, f, hid, hchildren, fun m hm => mem_nodes_grow.2 (.inr (.inr (hf m hm)))⟩

namespace Tree

variable {root : Call R} {f : Forest R} {i : NodeId} {n : Node R}

/-- What a walk visits from a node on has consecutive numbers, and the first is that of the node. -/
theorem visits_node (hn : (ofForest root f).node? i = some n) :
    ∃ k count : Nat, i = k ∧ (ofForest root f).Visits [i] (numbers k (count + 1)) := by
  obtain ⟨hmem, rfl⟩ := node?_ofForest.1 hn
  obtain ⟨k, below, hid, hchildren, hbelow⟩ := Forest.exists_below hmem
  refine ⟨k, below.size, hid, ?_⟩
  have hvisits := visits_roots fun m hm => node?_ofForest.2 ⟨hbelow m hm, rfl⟩
  rw [← hchildren] at hvisits
  have hnumbers : numbers k (below.size + 1) = n.id :: (numbers (k + 1) below.size ++ []) := by
    rw [List.append_nil, hid]
    rfl
  rw [hnumbers]
  exact .cons hn hvisits .nil

/-- A walk visits the nodes in the order of their numbers. -/
theorem walk_ofForest (root : Call R) (f : Forest R) :
    (ofForest root f).walk (fun _ => true) = some (ofForest root f).allIds := by
  have hsize : 0 < (ofForest root f).size := by
    rw [size_ofForest]
    exact Nat.succ_pos _
  obtain ⟨l, hwalk, hperm, hvisits⟩ := (linked_ofForest root f).exists_visits hsize
  obtain ⟨n, hn⟩ := exists_root hsize
  obtain ⟨k, count, hk, hnumbers⟩ := visits_node hn
  obtain rfl : k = 0 := Int.ofNat.inj hk.symm
  rw [hvisits.unique hnumbers] at hwalk hperm
  have hcount := hperm.length_eq
  rw [numbers, List.length_map, List.length_range', length_allIds] at hcount
  rw [hwalk, hcount, numbers, allIds, List.range_eq_range']

end Tree

end InlinePlan
