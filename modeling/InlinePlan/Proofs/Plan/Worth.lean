import InlinePlan.Proofs.Plan.Feasible
import Mathlib.Algebra.BigOperators.Group.Finset.Basic
import Mathlib.Algebra.Order.BigOperators.Group.Finset
import Mathlib.Algebra.Order.Ring.Rat
import Mathlib.Logic.Relation

set_option autoImplicit false

/-! # What sets of nodes are worth

A closed set has the root and with every other node its parent. Sets of nodes are compared by their
summed benefits, taken as exact rationals. -/

namespace InlinePlan

open Finset

namespace Tree

/-! ## Parents -/

section Parents

variable {R : Type} {t : Tree R} {i : NodeId} {n : Node R}

/-- The parent of a node. -/
def parentOf (t : Tree R) (i : NodeId) : NodeId := (t.node? i).elim noNode Node.parent

theorem parentOf_eq (h : t.node? i = some n) : t.parentOf i = n.parent := by
  rw [parentOf, h, Option.elim_some]

theorem Linked.parentOf_lt (hl : t.Linked) (hi : t.IsInner i) :
    0 ≤ t.parentOf i ∧ t.parentOf i < i := by
  obtain ⟨hne, n, hn⟩ := hi
  rw [parentOf_eq hn]
  exact hl.parent_lt hn hne

theorem Linked.exists_parent (hl : t.Linked) (hi : t.IsInner i) :
    ∃ n, t.node? (t.parentOf i) = some n := by
  obtain ⟨h0, hlt⟩ := hl.parentOf_lt hi
  obtain ⟨-, n, hn⟩ := hi
  have hbound := (node?_bounds hn).2
  exact exists_node? h0 (by grind)

/-- A parent is the root or has a parent itself. -/
theorem Linked.parentOf_cases (hl : t.Linked) (hi : t.IsInner i) :
    t.parentOf i = 0 ∨ t.IsInner (t.parentOf i) := by
  by_cases hzero : t.parentOf i = 0
  · exact .inl hzero
  · exact .inr ⟨hzero, hl.exists_parent hi⟩

/-- A set of nodes with the root and, with every other node, its parent. -/
structure Closed (t : Tree R) (S : Finset NodeId) : Prop where
  root_mem : 0 ∈ S
  inTree : ∀ i ∈ S, ∃ n, t.node? i = some n
  parent_mem : ∀ i ∈ S, i ≠ 0 → t.parentOf i ∈ S

theorem Closed.isInner {S : Finset NodeId} (hS : t.Closed S) (hi : i ∈ S) (hne : i ≠ 0) :
    t.IsInner i := ⟨hne, hS.inTree i hi⟩

/-- Without a node that has no child in it, a closed set is still closed. -/
theorem Closed.erase {S : Finset NodeId} {v : NodeId} (hS : t.Closed S) (hv : v ≠ 0)
    (hleaf : ∀ i ∈ S, i ≠ 0 → t.parentOf i ≠ v) : t.Closed (S.erase v) where
  root_mem := mem_erase.2 ⟨hv.symm, hS.root_mem⟩
  inTree := fun i hi => hS.inTree i (mem_of_mem_erase hi)
  parent_mem := by
    intro i hi hne
    have hi := mem_of_mem_erase hi
    exact mem_erase.2 ⟨hleaf i hi hne, hS.parent_mem i hi hne⟩

theorem Closed.inter {S T : Finset NodeId} (hS : t.Closed S) (hT : t.Closed T) :
    t.Closed (S ∩ T) where
  root_mem := mem_inter.2 ⟨hS.root_mem, hT.root_mem⟩
  inTree := fun i hi => hS.inTree i (mem_inter.1 hi).1
  parent_mem := by
    intro i hi hne
    obtain ⟨hi, hi'⟩ := mem_inter.1 hi
    exact mem_inter.2 ⟨hS.parent_mem i hi hne, hT.parent_mem i hi' hne⟩

/-- Node `a` is `v` or one of its ancestors. -/
def Above (t : Tree R) (a v : NodeId) : Prop :=
  Relation.ReflTransGen (fun i j => t.IsInner i ∧ t.parentOf i = j) v a

theorem Above.refl (t : Tree R) (v : NodeId) : t.Above v v := Relation.ReflTransGen.refl

theorem Above.trans {a b c : NodeId} (hab : t.Above a b) (hbc : t.Above b c) : t.Above a c :=
  Relation.ReflTransGen.trans hbc hab

theorem above_parentOf (hi : t.IsInner i) : t.Above (t.parentOf i) i := .single ⟨hi, rfl⟩

/-- What is above a node is the node or above its parent. -/
theorem Above.cases_parent {a v : NodeId} (h : t.Above a v) :
    a = v ∨ t.IsInner v ∧ t.Above a (t.parentOf v) := by
  rcases Relation.ReflTransGen.cases_head h with rfl | ⟨u, ⟨hinner, rfl⟩, hu⟩
  · exact .inl rfl
  · exact .inr ⟨hinner, hu⟩

/-- Below a proper ancestor of a node there is a child of it on the way to the node. -/
theorem Above.exists_child {a v : NodeId} (h : t.Above a v) (hne : a ≠ v) :
    ∃ c, t.IsInner c ∧ t.parentOf c = a ∧ t.Above c v := by
  rcases Relation.ReflTransGen.cases_tail h with rfl | ⟨c, hc, hinner, hpar⟩
  · exact absurd rfl hne
  · exact ⟨c, hinner, hpar, hc⟩

/-- Two nodes above the same node are one above the other. -/
theorem Above.total {a b v : NodeId} (ha : t.Above a v) (hb : t.Above b v) :
    t.Above b a ∨ t.Above a b :=
  Relation.ReflTransGen.total_of_right_unique (fun _ _ _ h h' => h.2.symm.trans h'.2) ha hb

theorem Closed.mem_of_above {S : Finset NodeId} {a v : NodeId} (hS : t.Closed S) (hv : v ∈ S)
    (h : t.Above a v) : a ∈ S := by
  induction h with
  | refl => exact hv
  | tail _ hstep ih =>
    obtain ⟨hinner, rfl⟩ := hstep
    exact hS.parent_mem _ ih hinner.1

theorem Linked.le_of_above (hl : t.Linked) {a v : NodeId} (h : t.Above a v) : a ≤ v := by
  induction h with
  | refl => exact le_refl _
  | tail _ hstep ih =>
    obtain ⟨hinner, rfl⟩ := hstep
    exact le_trans (le_of_lt (hl.parentOf_lt hinner).2) ih

theorem Linked.inTree_of_above (hl : t.Linked) {a v : NodeId} (h : t.Above a v)
    (hv : ∃ n, t.node? v = some n) : ∃ n, t.node? a = some n := by
  induction h with
  | refl => exact hv
  | tail _ hstep =>
    obtain ⟨hinner, rfl⟩ := hstep
    exact hl.exists_parent hinner

/-- The root is above every node. -/
theorem Linked.above_zero (hl : t.Linked) {v : NodeId} (hv : t.IsInner v) : t.Above 0 v := by
  have hbelow : ∀ (k : Nat) (v : NodeId), v < k → t.IsInner v → t.Above 0 v := by
    intro k
    induction k with
    | zero =>
      rintro v hv ⟨-, n, hn⟩
      have := node?_bounds hn
      grind
    | succ k ih =>
      intro v hv hinner
      have hlt := (hl.parentOf_lt hinner).2
      rcases hl.parentOf_cases hinner with hzero | hp
      · exact hzero ▸ above_parentOf hinner
      · exact (ih _ (by grind) hp).trans (above_parentOf hinner)
  obtain ⟨n, hn⟩ := hv.2
  exact hbelow t.size v (node?_bounds hn).2 hv

end Parents

/-! ## Costs -/

/-- The summed cost of a set of nodes. -/
def costs {R : Type} (t : Tree R) (S : Finset NodeId) : Int := ∑ i ∈ S, t.costOf i

theorem Sized.costs_mono {R : Type} {t : Tree R} (hs : t.Sized) {S T : Finset NodeId} (h : S ⊆ T) :
    t.costs S ≤ t.costs T :=
  sum_le_sum_of_subset_of_nonneg h fun i _ _ => hs.costOf_nonneg i

theorem costs_erase {R : Type} {t : Tree R} {S : Finset NodeId} {v : NodeId} (hv : v ∈ S) :
    t.costs (S.erase v) = t.costs S - t.costOf v := by
  have h := Finset.add_sum_erase S t.costOf hv
  unfold costs
  omega

/-! ## Benefits -/

theorem scale_lt_iff {x y : Rat} : Scale.lt x y = true ↔ x < y := by
  show decide (x < y) = true ↔ x < y
  exact decide_eq_true_iff

variable {t : Tree Rat}

/-- The benefit of a node; nothing for a number that the tree does not have. -/
def benefitOf (t : Tree Rat) (i : NodeId) : Rat := (t.node? i).elim 0 Node.benefit

/-- The summed benefit of a set of nodes. -/
def worth (t : Tree Rat) (S : Finset NodeId) : Rat := ∑ i ∈ S, t.benefitOf i

/-- No static benefit and no ratio is negative. -/
structure Beneficial (t : Tree Rat) : Prop where
  benefit_nonneg : ∀ n ∈ t.nodes.toList, 0 ≤ n.staticBenefit
  ratio_nonneg : ∀ n ∈ t.nodes.toList, 0 ≤ n.rootCallRatio

theorem benefitOf_eq {i : NodeId} {n : Node Rat} (h : t.node? i = some n) :
    t.benefitOf i = n.benefit := by
  rw [benefitOf, h, Option.elim_some]

theorem worth_erase {S : Finset NodeId} {v : NodeId} (hv : v ∈ S) :
    t.worth S = t.worth (S.erase v) + t.benefitOf v := by
  rw [worth, worth, Finset.sum_erase_add _ _ hv]

theorem Beneficial.benefitOf_nonneg (hb : t.Beneficial) (i : NodeId) : 0 ≤ t.benefitOf i := by
  unfold benefitOf
  cases hn : t.node? i with
  | none => exact le_refl _
  | some n =>
    have hmem : n ∈ t.nodes.toList :=
      Array.mem_toList_iff.2 (Array.mem_of_getElem? (node?_eq_some_iff.1 hn).2)
    show 0 ≤ (n.staticBenefit : Rat) * n.rootCallRatio
    exact mul_nonneg (Int.cast_nonneg (hb.benefit_nonneg n hmem)) (hb.ratio_nonneg n hmem)

theorem Beneficial.worth_mono (hb : t.Beneficial) {S T : Finset NodeId} (h : S ⊆ T) :
    t.worth S ≤ t.worth T :=
  sum_le_sum_of_subset_of_nonneg h fun i _ _ => hb.benefitOf_nonneg i

end Tree

/-! ## Proposals -/

namespace Proposal

/-- The nodes of a proposal as a set. -/
def nodes {R : Type} (p : Proposal R) : Finset NodeId := p.ids.toFinset

@[simp] theorem mem_nodes {R : Type} {p : Proposal R} {i : NodeId} : i ∈ p.nodes ↔ i ∈ p.ids :=
  List.mem_toFinset

variable {t : Tree Rat} {p : Proposal Rat}

/-- The proposal stores what its nodes are worth. -/
def Weighed (t : Tree Rat) (p : Proposal Rat) : Prop := p.benefit = t.worth p.nodes

theorem Counted.cost_eq_costs {R : Type} {t : Tree R} {p : Proposal R} (h : p.Counted t) :
    p.cost = t.costs p.nodes := by
  rw [h.cost_eq, Tree.costSum, Tree.costs, nodes, List.sum_toFinset _ h.nodup]

theorem Feasible.closed_nodes {R : Type} {t : Tree R} {p : Proposal R} {b : Int}
    (h : p.Feasible t b) : t.Closed p.nodes where
  root_mem := mem_nodes.2 h.root_mem
  inTree := fun i hi => h.inTree i (mem_nodes.1 hi)
  parent_mem := by
    intro i hi hne
    obtain ⟨n, hn⟩ := h.inTree i (mem_nodes.1 hi)
    rw [Tree.parentOf_eq hn]
    exact mem_nodes.2 (h.closed (mem_nodes.1 hi) hn hne)

theorem Weighed.empty (t : Tree Rat) : (Proposal.empty : Proposal Rat).Weighed t := rfl

/-- A new node of the tree adds its benefit. -/
theorem benefit_insert {id : NodeId} {n : Node Rat} (hn : t.node? id = some n)
    (hid : id ∉ p.ids) : (p.insert t id).benefit = p.benefit + n.benefit := by
  rw [Proposal.insert, if_neg (by simpa using hid), hn]
  rfl

theorem Weighed.insert {id : NodeId} {n : Node Rat} (h : p.Weighed t) (hn : t.node? id = some n) :
    (p.insert t id).Weighed t := by
  by_cases hid : id ∈ p.ids
  · rwa [insert_of_mem hid]
  · have hnodes : (p.insert t id).nodes = Insert.insert id p.nodes := by
      ext x
      simp [mem_insert]
    rw [Weighed, hnodes, benefit_insert hn hid, Tree.worth, Finset.sum_insert (by simpa using hid),
      Tree.benefitOf_eq hn, add_comm, h, Tree.worth]

theorem Weighed.insertAll {ids : List NodeId} (h : p.Weighed t)
    (hids : ∀ i ∈ ids, ∃ n, t.node? i = some n) : (p.insertAll t ids).Weighed t := by
  unfold Proposal.insertAll
  induction ids generalizing p with
  | nil => exact h
  | cons i ids ih =>
    obtain ⟨n, hn⟩ := hids i List.mem_cons_self
    exact ih (h.insert hn) fun j hj => hids j (List.mem_cons_of_mem _ hj)

theorem nodes_insertAll (t : Tree Rat) (p : Proposal Rat) (ids : List NodeId) :
    (p.insertAll t ids).nodes = p.nodes ∪ ids.toFinset := by
  ext x
  simp [mem_insertAll, or_comm]

end Proposal

end InlinePlan
