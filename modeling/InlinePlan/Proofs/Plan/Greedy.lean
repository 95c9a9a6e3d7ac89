import InlinePlan.Proofs.CallTree.Links
import InlinePlan.Proofs.Plan.Priority

set_option autoImplicit false

/-! # The greedy order

The order of the table's rows is greedy: of the nodes whose parent is placed the largest comes next.
That is shown for all numbers that benefits can be, as long as the benefits in the tree are totally
ordered (`Tree.Comparable`). Only their order matters: if each benefit is replaced by the number of
smaller ones in the tree, the order of the rows stays the same (`Tree.priorityOrder_graded`), and so
everything that is known about rational benefits carries over. -/

namespace InlinePlan

variable {R : Type} [Scale R]

/-! ## Comparing nodes -/

/-- Node `a` is larger than node `b`: it costs more, or as much and has more benefit, or as much of
    both and has the smaller number. -/
def Node.Outranks (a b : Node R) : Prop :=
  b.cost < a.cost ∨ b.cost = a.cost ∧ (Scale.lt b.benefit a.benefit = true
    ∨ Scale.same b.benefit a.benefit = true ∧ a.id < b.id)

namespace Tree

/-- The benefits of the nodes, in order. -/
def benefits (t : Tree R) : List R := t.nodes.toList.map Node.benefit

/-- The benefits in a tree are totally ordered: none is both smaller and larger than another one, a
    third one between two is on one of the two sides, and those are the same of which none is
    smaller. Floating-point numbers are if none is undefined. -/
structure Comparable (t : Tree R) : Prop where
  asymm : ∀ x ∈ t.benefits, ∀ y ∈ t.benefits, Scale.lt x y = true → Scale.lt y x = false
  between : ∀ x ∈ t.benefits, ∀ y ∈ t.benefits, ∀ z ∈ t.benefits,
    Scale.lt x z = true → Scale.lt x y = true ∨ Scale.lt y z = true
  same_iff : ∀ x ∈ t.benefits, ∀ y ∈ t.benefits,
    Scale.same x y = true ↔ Scale.lt x y = false ∧ Scale.lt y x = false

/-- A node that can be placed next: it is not placed, and it is the root or its parent is placed. -/
structure Available (t : Tree R) (placed : List NodeId) (v : NodeId) : Prop where
  inTree : ∃ n, t.node? v = some n
  notMem : v ∉ placed
  parent_mem : v = 0 ∨ t.parentOf v ∈ placed

/-- Node `v` is larger than node `w`. -/
def Outranks (t : Tree R) (v w : NodeId) : Prop :=
  ∃ a b, t.node? v = some a ∧ t.node? w = some b ∧ a.Outranks b

variable {t : Tree R} {v w i : NodeId} {n m : Node R}

theorem benefit_mem (hn : t.node? i = some n) : n.benefit ∈ t.benefits :=
  List.mem_map_of_mem (Array.mem_toList_iff.2 (Array.mem_of_getElem? (node?_eq_some_iff.1 hn).2))

theorem Comparable.lt_irrefl (h : t.Comparable) {x : R} (hx : x ∈ t.benefits) :
    Scale.lt x x = false := by
  by_contra hlt
  exact hlt (h.asymm x hx x hx (by simpa using hlt))

/-- The queue takes nodes as they outrank each other. -/
theorem Comparable.precedes_iff (h : t.Comparable) (hn : t.node? v = some n)
    (hm : t.node? w = some m) : n.precedes m = true ↔ n.Outranks m := by
  have hx := benefit_mem hn
  have hy := benefit_mem hm
  have hcomm : Scale.same n.benefit m.benefit = Scale.same m.benefit n.benefit := by
    rw [Bool.eq_iff_iff, h.same_iff _ hx _ hy, h.same_iff _ hy _ hx, and_comm]
  have hsame := h.same_iff _ hy _ hx
  unfold Node.precedes Node.Outranks
  rw [hcomm]
  by_cases hcost : n.cost = m.cost
  · cases hs : Scale.same m.benefit n.benefit with
    | true =>
      have hnot := (hsame.1 hs).1
      simp [hcost, hnot]
    | false => simp [hcost]
  · simp [hcost, Ne.symm hcost]

/-! ## Benefits by number -/

/-- How many benefits in the tree are smaller. -/
def level (t : Tree R) (x : R) : Nat := t.benefits.countP (Scale.lt · x)

theorem Comparable.level_lt (h : t.Comparable) {x y : R} (hx : x ∈ t.benefits)
    (hy : y ∈ t.benefits) : t.level x < t.level y ↔ Scale.lt x y = true := by
  constructor
  · intro hlevel
    by_contra hnot
    refine absurd hlevel (not_lt.2 (List.countP_mono_left fun z hz hlt => ?_))
    exact (h.between z hz x hx y hy hlt).resolve_right hnot
  · intro hlt
    -- whatever is below `x` is below `y`, and `x` itself is
    have hsub : ∀ z ∈ t.benefits, Scale.lt z x = true → Scale.lt z y = true := by
      intro z hz hzx
      refine (h.between z hz y hy x hx hzx).resolve_right fun hyx => ?_
      rw [h.asymm x hx y hy hlt] at hyx
      exact Bool.false_ne_true hyx
    obtain ⟨before, after, hsplit⟩ := List.append_of_mem hx
    unfold level
    rw [hsplit, List.forall_mem_append, List.forall_mem_cons] at hsub
    rw [hsplit, List.countP_append, List.countP_append, List.countP_cons, List.countP_cons,
      h.lt_irrefl hx, hlt]
    have hbefore := List.countP_mono_left hsub.1
    have hafter := List.countP_mono_left hsub.2.2
    simp only [Bool.false_eq_true, if_false, if_true]
    omega

theorem Comparable.level_eq (h : t.Comparable) {x y : R} (hx : x ∈ t.benefits)
    (hy : y ∈ t.benefits) : t.level x = t.level y ↔ Scale.same x y = true := by
  rw [h.same_iff x hx y hy, ← Bool.not_eq_true, ← Bool.not_eq_true, ← h.level_lt hx hy,
    ← h.level_lt hy hx]
  omega

end Tree

/-- The node with a rational benefit in place of its own. -/
def Node.graded (level : R → Nat) (n : Node R) : Node Rat :=
  { n with callRatio := 1, rootCallRatio := 1, staticBenefit := level n.benefit }

@[simp]
theorem Node.benefit_graded (level : R → Nat) (n : Node R) :
    (n.graded level).benefit = level n.benefit := by
  show Rat.ofInt (level n.benefit : Int) * 1 = _
  rw [mul_one]
  rfl

@[simp]
theorem Node.cost_graded (level : R → Nat) (n : Node R) : (n.graded level).cost = n.cost := rfl

namespace Tree

variable {t : Tree R} {v w i : NodeId} {n m : Node R}

/-- The tree with the number of smaller benefits in place of each benefit. -/
def graded (t : Tree R) : Tree Rat := { nodes := t.nodes.map (Node.graded t.level) }

@[simp]
theorem size_graded (t : Tree R) : t.graded.size = t.size := by
  simp [graded, size]

theorem node?_graded (t : Tree R) (i : NodeId) :
    t.graded.node? i = (t.node? i).map (Node.graded t.level) := by
  unfold node? graded
  split
  · rfl
  · exact Array.getElem?_map

theorem node?_graded_eq_some_iff {k : Node Rat} :
    t.graded.node? i = some k ↔ ∃ n, t.node? i = some n ∧ n.graded t.level = k := by
  rw [node?_graded, Option.map_eq_some_iff]

theorem parentOf_graded (t : Tree R) (i : NodeId) : t.graded.parentOf i = t.parentOf i := by
  unfold parentOf
  rw [node?_graded]
  cases t.node? i <;> rfl

theorem exists_node?_graded : (∃ k, t.graded.node? i = some k) ↔ ∃ n, t.node? i = some n := by
  simp [node?_graded]

theorem Linked.graded (hl : t.Linked) : t.graded.Linked := by
  have hnode := @node?_graded_eq_some_iff _ _ t
  constructor
  case id_eq =>
    intro i k hk
    obtain ⟨n, hn, rfl⟩ := hnode.1 hk
    exact hl.id_eq hn
  case parent_root =>
    intro k hk
    obtain ⟨n, hn, rfl⟩ := hnode.1 hk
    exact hl.parent_root hn
  case parent_lt =>
    intro i k hk
    obtain ⟨n, hn, rfl⟩ := hnode.1 hk
    exact hl.parent_lt hn
  case mem_children =>
    intro i c k hk
    obtain ⟨n, hn, rfl⟩ := hnode.1 hk
    show c ∈ n.children ↔ _
    rw [hl.mem_children hn]
    constructor
    · rintro ⟨m, hm, hpar⟩
      exact ⟨_, hnode.2 ⟨m, hm, rfl⟩, hpar⟩
    · rintro ⟨_, hm', hpar⟩
      obtain ⟨m, hm, rfl⟩ := hnode.1 hm'
      exact ⟨m, hm, hpar⟩
  case increasing =>
    intro i k hk
    obtain ⟨n, hn, rfl⟩ := hnode.1 hk
    exact hl.increasing hn

theorem Comparable.precedes_graded (h : t.Comparable) (hn : t.node? v = some n)
    (hm : t.node? w = some m) :
    (n.graded t.level).precedes (m.graded t.level) = n.precedes m := by
  have hx := benefit_mem hn
  have hy := benefit_mem hm
  have hsame : Scale.same ((t.level n.benefit : Rat)) (t.level m.benefit)
      = Scale.same n.benefit m.benefit := by
    rw [Bool.eq_iff_iff, ← h.level_eq hx hy]
    show ((t.level n.benefit : Rat) == t.level m.benefit) = true ↔ _
    rw [beq_iff_eq, Nat.cast_inj]
  have hlt : Scale.lt ((t.level m.benefit : Rat)) (t.level n.benefit)
      = Scale.lt m.benefit n.benefit := by
    rw [Bool.eq_iff_iff, ← h.level_lt hy hx, scale_lt_iff, Nat.cast_lt]
  unfold Node.precedes
  rw [Node.cost_graded, Node.cost_graded, Node.benefit_graded, Node.benefit_graded, hsame, hlt]
  rfl

theorem Comparable.takes_graded (h : t.Comparable) : t.graded.takes = t.takes := by
  funext v w
  rw [takes, takes, node?_graded, node?_graded]
  cases hn : t.node? v with
  | none => rfl
  | some n =>
    cases hm : t.node? w with
    | none => rfl
    | some m => exact h.precedes_graded hn hm

theorem Comparable.orderFrom_graded (h : t.Comparable) (fuel : Nat) (queue : List NodeId) :
    t.graded.orderFrom fuel queue = t.orderFrom fuel queue := by
  induction fuel generalizing queue with
  | zero => rfl
  | succ fuel ih =>
    rw [orderFrom, orderFrom, h.takes_graded]
    cases Queue.pop? t.takes queue with
    | none => rfl
    | some popped =>
      simp only [node?_graded, ih]
      cases t.node? popped.1 <;> rfl

/-- The order of the rows depends on the order of the benefits only. -/
theorem Comparable.priorityOrder_graded (h : t.Comparable) :
    t.graded.priorityOrder = t.priorityOrder := by
  rw [priorityOrder, priorityOrder, size_graded, h.orderFrom_graded]

theorem Comparable.drains_graded (h : t.Comparable) {queue order : List NodeId} :
    t.graded.Drains queue order ↔ t.Drains queue order := by
  constructor
  · intro hd
    induction hd with
    | nil => exact .nil
    | take queue rest order v k hperm hk hfirst _ ih =>
      obtain ⟨n, hn, rfl⟩ := node?_graded_eq_some_iff.1 hk
      refine .take queue rest order v n hperm hn (fun w hw m hm => ?_) ih
      rw [← h.precedes_graded hm hn]
      exact hfirst w hw _ (node?_graded_eq_some_iff.2 ⟨m, hm, rfl⟩)
  · intro hd
    induction hd with
    | nil => exact .nil
    | take queue rest order v n hperm hn hfirst _ ih =>
      refine .take queue rest order v (n.graded t.level) hperm
        (node?_graded_eq_some_iff.2 ⟨n, hn, rfl⟩) (fun w hw k hk => ?_) ih
      obtain ⟨m, hm, rfl⟩ := node?_graded_eq_some_iff.1 hk
      rw [h.precedes_graded hm hn]
      exact hfirst w hw m hm

/-! ## Orders from the root on -/

/-- A queue that starts with the root goes on with its children. -/
theorem drains_root_iff {root : Node R} (hroot : t.node? 0 = some root) {order : List NodeId} :
    t.Drains [0] order ↔ ∃ rest, order = 0 :: rest ∧ t.Drains root.children rest := by
  constructor
  · intro hd
    cases hd with
    | take _ rest order v n hperm hn _ hrest =>
      obtain ⟨rfl, rfl⟩ := List.cons.inj (List.perm_singleton.1 hperm.symm)
      obtain rfl := Option.some.inj (hroot.symm.trans hn)
      exact ⟨order, rfl, hrest⟩
  · rintro ⟨rest, rfl, hd⟩
    exact .take [0] [] rest 0 root (List.Perm.refl _) hroot (fun w hw => absurd hw List.not_mem_nil) hd

/-- There is only one order in which the queue can be emptied. -/
theorem Linked.drains_iff {t : Tree Rat} (hl : t.Linked) (hne : 0 < t.size)
    {order : List NodeId} : t.Drains [0] order ↔ order = t.priorityOrder := by
  obtain ⟨root, hroot⟩ := exists_root hne
  have hqueued := hl.queued_root hroot
  rw [drains_root_iff hroot]
  constructor
  · rintro ⟨rest, rfl, hd⟩
    obtain ⟨hplaced, hall⟩ := hd.placed hl hqueued
    obtain ⟨hplaced', hall'⟩ := hl.placed_priorityOrder hne
    rw [← List.reverse_inj, List.reverse_cons]
    exact hplaced.eq_of_all_mem hplaced' hall hall'
  · rintro rfl
    exact ⟨_, priorityOrder_eq hroot, hl.drains_priorityOrder hroot⟩

theorem Linked.perm_priorityOrder (hl : t.Linked) (hne : 0 < t.size) (hcomp : t.Comparable) :
    t.priorityOrder.Perm t.allIds := by
  rw [← hcomp.priorityOrder_graded]
  obtain ⟨hplaced, hall⟩ := hl.graded.placed_priorityOrder (t.size_graded ▸ hne)
  have hnodup := List.nodup_reverse.1 hplaced.nodup
  refine (List.perm_ext_iff_of_nodup hnodup t.nodup_allIds).2 fun v => ?_
  rw [mem_allIds_iff, ← exists_node?_graded, ← List.mem_reverse]
  refine ⟨fun hv => ?_, hall v⟩
  by_cases hzero : v = 0
  · rw [hzero, exists_node?_graded]
    exact exists_root hne
  · exact (hplaced.isInner hv hzero).2

/-- The node at each place of the order is larger than all others that could be there. -/
theorem Linked.greatest_of_priorityOrder (hl : t.Linked) (hne : 0 < t.size) (hcomp : t.Comparable)
    {before after : List NodeId} (hsplit : t.priorityOrder = before ++ v :: after) :
    t.Available before v ∧ ∀ w, t.Available before w → w ≠ v → t.Outranks v w := by
  obtain ⟨root, hroot⟩ := exists_root hne
  rcases List.eq_nil_or_concat before with rfl | hbefore
  · -- only the root can be the first
    rw [priorityOrder_eq hroot, List.nil_append] at hsplit
    obtain rfl := (List.cons.inj hsplit).1
    refine ⟨⟨⟨root, hroot⟩, List.not_mem_nil, .inl rfl⟩, fun w hw hne => ?_⟩
    rcases hw.parent_mem with hzero | hmem
    · exact absurd hzero hne
    · exact absurd hmem List.not_mem_nil
  · have hnil : before.reverse ≠ [] := by
      obtain ⟨_, _, rfl⟩ := hbefore
      simp
    obtain ⟨hplaced, -⟩ := hl.graded.placed_priorityOrder (t.size_graded ▸ hne)
    rw [hcomp.priorityOrder_graded, hsplit, List.reverse_append, List.reverse_cons,
      List.append_assoc, List.singleton_append] at hplaced
    obtain ⟨hplaced, hopen, hfirst⟩ := hplaced.of_append hnil
    obtain ⟨n, hn⟩ := exists_node?_graded.1 hopen.isInner.2
    refine ⟨⟨⟨n, hn⟩, by simpa using hopen.notMem, .inr ?_⟩, fun w hw hne => ?_⟩
    · simpa [parentOf_graded] using hopen.parent_mem
    · obtain ⟨m, hm⟩ := hw.inTree
      have hzero : w ≠ 0 := by
        rintro rfl
        exact hw.notMem (List.mem_reverse.1 hplaced.zero_mem)
      have hw' : t.graded.Open before.reverse w := by
        refine ⟨⟨hzero, exists_node?_graded.2 ⟨m, hm⟩⟩, by simpa using hw.notMem, ?_⟩
        rw [parentOf_graded, List.mem_reverse]
        exact hw.parent_mem.resolve_left hzero
      have hlt := lt_of_le_of_ne (hfirst w hw') fun heq => hne (rank_inj.1 heq).symm
      rw [← hl.graded.precedes_iff (node?_graded_eq_some_iff.2 ⟨n, hn, rfl⟩)
        (node?_graded_eq_some_iff.2 ⟨m, hm, rfl⟩), hcomp.precedes_graded hn hm,
        hcomp.precedes_iff hn hm] at hlt
      exact ⟨n, m, hn, hm, hlt⟩

end Tree

/-! ## The order of the rows -/

/-- The order of the rows is greedy. It has every node once and starts with the root, and each node
    in it comes after its parent and is the largest of all nodes that are not placed before it but
    whose parent is. It does not depend on how the open nodes are kept, as long as one is taken that
    no other one precedes. -/
theorem priorityOrder_greedy {t : Tree R} (hbuilt : t.Built) (hne : 0 < t.size)
    (hcomp : t.Comparable) :
    t.priorityOrder.Perm t.allIds ∧ t.priorityOrder.head? = some 0
    ∧ (∀ before v after, t.priorityOrder = before ++ v :: after →
        t.Available before v ∧ ∀ w, t.Available before w → w ≠ v → t.Outranks v w)
    ∧ ∀ order, t.Drains [0] order ↔ order = t.priorityOrder := by
  have hl := hbuilt.linked
  refine ⟨hl.perm_priorityOrder hne hcomp, ?_, fun before v after hsplit =>
    hl.greatest_of_priorityOrder hne hcomp hsplit, fun order => ?_⟩
  · obtain ⟨root, hroot⟩ := Tree.exists_root hne
    rw [Tree.priorityOrder_eq hroot, List.head?_cons]
  · rw [← hcomp.drains_graded, ← hcomp.priorityOrder_graded]
    exact hl.graded.drains_iff (t.size_graded ▸ hne)

/-- Rational benefits are totally ordered. -/
theorem Tree.comparable_rat (t : Tree Rat) : t.Comparable where
  asymm := by
    intro x _ y _ h
    rw [← Bool.not_eq_true, scale_lt_iff]
    exact not_lt_of_gt (scale_lt_iff.1 h)
  between := by
    intro x _ y _ z _ h
    rw [scale_lt_iff, scale_lt_iff]
    exact (lt_or_ge x y).imp_right (lt_of_le_of_lt · (scale_lt_iff.1 h))
  same_iff := by
    intro x _ y _
    rw [← Bool.not_eq_true, ← Bool.not_eq_true, scale_lt_iff, scale_lt_iff, not_lt, not_lt]
    show (x == y) = true ↔ _
    rw [beq_iff_eq, and_comm]
    exact le_antisymm_iff

/-- Calls of the root that tie in cost or in cost and benefit, and a large one that has to wait for a
    small one. -/
def rivalCalls : List (NodeId × Call Rat) :=
  [(noNode, plainCall 50 0), (0, plainCall 5 0), (1, plainCall 20 0), (0, plainCall 8 0),
    (0, plainCall 8 3), (0, plainCall 8 3)]

def rivals : Tree Rat := (Tree.addAll {} rivalCalls).toOption.getD {}

theorem priorityOrder_greedy_rivals :
    rivals.Built ∧ 0 < rivals.size ∧ rivals.Comparable
    ∧ rivals.priorityOrder = [0, 4, 5, 3, 1, 2]
    ∧ rivals.priorityOrder.Perm rivals.allIds ∧ rivals.priorityOrder.head? = some 0
    ∧ (∀ before v after, rivals.priorityOrder = before ++ v :: after →
        rivals.Available before v
          ∧ ∀ w, rivals.Available before w → w ≠ v → rivals.Outranks v w)
    ∧ ∀ order, rivals.Drains [0] order ↔ order = rivals.priorityOrder := by
  have hbuilt : rivals.Built := Tree.Built.empty.addAll rivalCalls (by rfl)
  have hsize : 0 < rivals.size := by decide
  have hcomp := rivals.comparable_rat
  exact ⟨hbuilt, hsize, hcomp, by decide +kernel, priorityOrder_greedy hbuilt hsize hcomp⟩

end InlinePlan
