import InlinePlan.Plan.Select
import InlinePlan.Proofs.CallTree.Arena
import InlinePlan.Proofs.Plan.Queue

set_option autoImplicit false

/-! # The order of the table's rows

The rows start with the root, and every node takes its place from the list of open nodes: those that
were not placed and whose parent was. -/

namespace InlinePlan

namespace Tree

variable {R : Type} [Scale R]

/-- A node of the tree below the root. -/
def IsInner (t : Tree R) (v : NodeId) : Prop := v ≠ 0 ∧ ∃ n, t.node? v = some n

omit [Scale R] in
theorem Linked.isInner_of_mem_children {t : Tree R} (hl : t.Linked) {i c : NodeId} {n : Node R}
    (hn : t.node? i = some n) (hc : c ∈ n.children) : t.IsInner c := by
  obtain ⟨m, hm, hpar⟩ := (hl.mem_children hn).1 hc
  refine ⟨?_, m, hm⟩
  rintro rfl
  have hroot := hl.parent_root hm
  have hbounds := node?_bounds hn
  grind [noNode]

theorem Linked.isInner_of_mem_orderFrom {t : Tree R} (hl : t.Linked) {fuel : Nat}
    {frontier : List NodeId} (hf : ∀ v ∈ frontier, t.IsInner v) :
    ∀ v ∈ t.orderFrom fuel frontier, t.IsInner v := by
  induction fuel generalizing frontier with
  | zero => intro v hv; simp [orderFrom] at hv
  | succ fuel ih =>
    rw [orderFrom]
    split
    · intro v hv
      exact absurd hv List.not_mem_nil
    · rename_i next others hpop
      have hperm := Queue.perm_of_pop? hpop
      obtain ⟨hne, n, hn⟩ := hf next (hperm.mem_iff.2 List.mem_cons_self)
      intro v hv
      rcases List.mem_cons.1 hv with rfl | hv
      · exact ⟨hne, n, hn⟩
      · refine ih ?_ v hv
        intro w hw
        rw [(Queue.perm_foldl_push _ _).mem_iff, hn] at hw
        rcases List.mem_append.1 hw with hw | hw
        · exact hf w (hperm.mem_iff.2 (List.mem_cons_of_mem _ hw))
        · exact hl.isInner_of_mem_children hn hw

/-- The order starts with the root and goes on with the nodes opened by it. -/
theorem priorityOrder_eq {t : Tree R} {root : Node R} (h : t.node? 0 = some root) :
    t.priorityOrder
      = 0 :: t.orderFrom (t.size - 1) (root.children.foldl (Queue.push t.takes) []) := by
  have hsize : t.size = t.size - 1 + 1 := by
    have := node?_bounds h
    grind
  unfold priorityOrder
  rw [hsize, orderFrom]
  simp [Queue.pop?, Queue.down, h]

end Tree

end InlinePlan
