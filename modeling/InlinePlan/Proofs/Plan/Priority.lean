import InlinePlan.Proofs.Plan.Worth
import Mathlib.Data.Prod.Lex

set_option autoImplicit false

/-! # Rows by priority

The rows of the table follow the nodes one by one: a node is open once its parent is placed, and the
first of the open nodes is placed next. There is only one such order, and it has every node. It comes
from a queue of the open nodes (`Queued`), in whatever way the queue is kept (`Drains`). -/

namespace InlinePlan

open OrderDual

namespace Tree

variable {t : Tree Rat} {done : List NodeId} {v w : NodeId}

/-! ## Ranks -/

/-- The rank of a node: the first has the largest cost, then the largest benefit, then the smallest
    number. -/
def rank (t : Tree Rat) (i : NodeId) : Lex (Intᵒᵈ × Lex (Ratᵒᵈ × Int)) :=
  toLex (toDual (t.costOf i), toLex (toDual (t.benefitOf i), i))

theorem rank_inj : t.rank v = t.rank w ↔ v = w := by
  constructor
  · intro h
    simp only [rank, EmbeddingLike.apply_eq_iff_eq, Prod.mk.injEq] at h
    exact h.2.2
  · rintro rfl
    rfl

theorem costOf_le_of_rank_le (h : t.rank v ≤ t.rank w) : t.costOf w ≤ t.costOf v := by
  rcases Prod.Lex.le_iff.1 h with h | h
  · exact le_of_lt h
  · exact le_of_eq (congrArg ofDual h.1).symm

theorem Linked.precedes_iff {n m : Node Rat} (hl : t.Linked) (hv : t.node? v = some n)
    (hw : t.node? w = some m) : n.precedes m = true ↔ t.rank v < t.rank w := by
  unfold Node.precedes rank
  rw [Prod.Lex.toLex_lt_toLex, Prod.Lex.toLex_lt_toLex, costOf_eq hv, costOf_eq hw,
    benefitOf_eq hv, benefitOf_eq hw, hl.id_eq hv, hl.id_eq hw]
  simp only [toDual_lt_toDual, toDual_inj]
  by_cases hc : n.cost = m.cost
  · simp only [hc, ne_eq, not_true, if_false, lt_irrefl, false_or, true_and]
    by_cases hb : n.benefit = m.benefit
    · simp [hb, Scale.same]
    · simp [hb, Scale.same, scale_lt_iff]
  · simp [hc]

/-- The queue keeps nodes by their ranks. -/
theorem Linked.ranks_takes (hl : t.Linked) {queue : List NodeId}
    (hnodes : ∀ i ∈ queue, ∃ n, t.node? i = some n) : Queue.Ranks t.takes t.rank queue := by
  intro v hv w hw
  obtain ⟨n, hn⟩ := hnodes v hv
  obtain ⟨m, hm⟩ := hnodes w hw
  rw [takes, hn, hm]
  exact hl.precedes_iff hn hm

/-! ## Placing nodes -/

/-- A node that is not placed, but its parent is. -/
structure Open (t : Tree Rat) (done : List NodeId) (v : NodeId) : Prop where
  isInner : t.IsInner v
  notMem : v ∉ done
  parent_mem : t.parentOf v ∈ done

/-- The nodes placed so far, the newest first. -/
inductive Placed (t : Tree Rat) : List NodeId → Prop where
  | root : Placed t [0]
  | next (done : List NodeId) (v : NodeId) (h : Placed t done) (hv : t.Open done v)
      (hfirst : ∀ w, t.Open done w → t.rank v ≤ t.rank w) : Placed t (v :: done)

namespace Placed

theorem zero_mem (h : t.Placed done) : 0 ∈ done := by
  induction h with
  | root => simp
  | next done v h hv hfirst ih => exact List.mem_cons_of_mem _ ih

theorem nodup (h : t.Placed done) : done.Nodup := by
  induction h with
  | root => simp
  | next done v h hv hfirst ih => exact List.nodup_cons.2 ⟨hv.notMem, ih⟩

theorem isInner (h : t.Placed done) (hv : v ∈ done) (hne : v ≠ 0) : t.IsInner v := by
  induction h with
  | root => exact absurd (List.mem_singleton.1 hv) hne
  | next done w h hw hfirst ih =>
    rcases List.mem_cons.1 hv with rfl | hv
    · exact hw.isInner
    · exact ih hv

theorem parent_mem (h : t.Placed done) (hv : v ∈ done) (hne : v ≠ 0) : t.parentOf v ∈ done := by
  induction h with
  | root => exact absurd (List.mem_singleton.1 hv) hne
  | next done w h hw hfirst ih =>
    rcases List.mem_cons.1 hv with rfl | hv
    · exact List.mem_cons_of_mem _ hw.parent_mem
    · exact List.mem_cons_of_mem _ (ih hv)

theorem mem_of_above (h : t.Placed done) (hv : v ∈ done) (hw : t.Above w v) : w ∈ done := by
  induction hw with
  | refl => exact hv
  | tail _ hstep ih =>
    obtain ⟨hinner, rfl⟩ := hstep
    exact h.parent_mem ih hinner.1

/-- Every node of the order but the root was the first of the open ones when its turn came. -/
theorem of_append {newer older : List NodeId} (h : t.Placed (newer ++ v :: older))
    (hne : older ≠ []) :
    t.Placed older ∧ t.Open older v ∧ ∀ w, t.Open older w → t.rank v ≤ t.rank w := by
  induction newer with
  | nil =>
    cases h with
    | root => exact absurd rfl hne
    | next _ _ h hv hfirst => exact ⟨h, hv, hfirst⟩
  | cons w newer ih =>
    cases hrest : newer ++ v :: older with
    | nil => simp at hrest
    | cons x xs =>
      rw [List.cons_append, hrest] at h
      cases h with
      | next _ _ h => exact ih (hrest ▸ h)

/-- Every order places the same node next. -/
theorem eq_of_length_eq {done' : List NodeId} (h : t.Placed done) (h' : t.Placed done')
    (hlen : done.length = done'.length) : done = done' := by
  induction h generalizing done' with
  | root =>
    cases h' with
    | root => rfl
    | next done v h' => cases h' <;> simp at hlen
  | next done v h hv hfirst ih =>
    cases h' with
    | root => cases h <;> simp at hlen
    | next done' v' h' hv' hfirst' =>
      obtain rfl := ih h' (by simpa using hlen)
      rw [rank_inj.1 (le_antisymm (hfirst v' hv') (hfirst' v hv))]

/-- There is only one order of all nodes. -/
theorem eq_of_all_mem {done' : List NodeId} (h : t.Placed done) (h' : t.Placed done')
    (hall : ∀ v, (∃ n, t.node? v = some n) → v ∈ done)
    (hall' : ∀ v, (∃ n, t.node? v = some n) → v ∈ done') : done = done' := by
  have hperm : done.Perm done' := by
    refine (List.perm_ext_iff_of_nodup h.nodup h'.nodup).2 fun v => ?_
    by_cases hne : v = 0
    · rw [hne]
      exact iff_of_true h.zero_mem h'.zero_mem
    · constructor
      · exact fun hv => hall' v (h.isInner hv hne).2
      · exact fun hv => hall v (h'.isInner hv hne).2
  exact h.eq_of_length_eq h' hperm.length_eq

/-- If no node is open, every node is placed. -/
theorem mem_of_not_open (hl : t.Linked) (h : t.Placed done) (hopen : ∀ w, ¬t.Open done w) :
    ∀ (k : Nat) (v : NodeId), v < k → (∃ n, t.node? v = some n) → v ∈ done := by
  intro k
  induction k with
  | zero =>
    rintro v hv ⟨n, hn⟩
    have := node?_bounds hn
    grind
  | succ k ih =>
    intro v hv hn
    by_cases hne : v = 0
    · exact hne ▸ h.zero_mem
    · by_contra hnot
      have hinner : t.IsInner v := ⟨hne, hn⟩
      have hlt := hl.parentOf_lt hinner
      exact hopen v ⟨hinner, hnot, ih _ (by grind) (hl.exists_parent hinner)⟩

end Placed

theorem Linked.mem_children_iff (hl : t.Linked) {n : Node Rat} (hn : t.node? v = some n) :
    w ∈ n.children ↔ t.IsInner w ∧ t.parentOf w = v := by
  constructor
  · intro hw
    obtain ⟨m, hm, hpar⟩ := (hl.mem_children hn).1 hw
    exact ⟨hl.isInner_of_mem_children hn hw, by rw [parentOf_eq hm, hpar]⟩
  · rintro ⟨⟨-, m, hm⟩, hpar⟩
    exact (hl.mem_children hn).2 ⟨m, hm, by rw [← parentOf_eq hm, hpar]⟩

/-! ## Emptying the queue -/

/-- A queue of open nodes is emptied: whatever way it is kept in, it hands out a node that no other
    one in it precedes, and the children of that node come in. -/
inductive Drains {R : Type} [Scale R] (t : Tree R) : List NodeId → List NodeId → Prop where
  | nil : Drains t [] []
  | take (queue rest order : List NodeId) (v : NodeId) (n : Node R) :
      queue.Perm (v :: rest) → t.node? v = some n →
      (∀ w ∈ rest, ∀ m, t.node? w = some m → m.precedes n = false) →
      Drains t (rest ++ n.children) order → Drains t queue (v :: order)

/-- How the queue is kept does not matter. -/
theorem Drains.perm {R : Type} [Scale R] {t : Tree R} {queue queue' order : List NodeId}
    (h : t.Drains queue order) (hperm : queue.Perm queue') : t.Drains queue' order := by
  cases h with
  | nil =>
    rw [List.nil_perm.1 hperm]
    exact .nil
  | take _ rest order v n hq hn hfirst hrest =>
    exact .take queue' rest order v n (hperm.symm.trans hq) hn hfirst hrest

/-- The queue has the open nodes, each once. -/
structure Queued (t : Tree Rat) (done queue : List NodeId) : Prop where
  placed : t.Placed done
  mem_iff : ∀ w, w ∈ queue ↔ t.Open done w
  nodup : queue.Nodup

theorem Queued.inTree {queue : List NodeId} (h : t.Queued done queue) :
    ∀ i ∈ queue, ∃ n, t.node? i = some n :=
  fun i hi => ((h.mem_iff i).1 hi).isInner.2

theorem Queued.perm {queue queue' : List NodeId} (h : t.Queued done queue)
    (hperm : queue.Perm queue') : t.Queued done queue' :=
  ⟨h.placed, fun w => by rw [← hperm.mem_iff, h.mem_iff], hperm.nodup_iff.1 h.nodup⟩

/-- A node that no other one in the queue precedes is the first of the open ones, and placing it
    makes its children open. -/
theorem Queued.take (hl : t.Linked) {queue rest : List NodeId} (h : t.Queued done queue)
    (hperm : queue.Perm (v :: rest)) {n : Node Rat} (hn : t.node? v = some n)
    (hfirst : ∀ w ∈ rest, t.rank v ≤ t.rank w) :
    t.Queued (v :: done) (rest ++ n.children) := by
  have hv : t.Open done v := (h.mem_iff v).1 (hperm.mem_iff.2 List.mem_cons_self)
  obtain ⟨hnotMem, hnodup⟩ := List.nodup_cons.1 (hperm.nodup_iff.1 h.nodup)
  have hchildren (w : NodeId) := hl.mem_children_iff (w := w) hn
  have hrest (w : NodeId) : w ∈ rest ↔ t.Open done w ∧ w ≠ v := by
    rw [← h.mem_iff, hperm.mem_iff, List.mem_cons]
    constructor
    · intro hw
      exact ⟨.inr hw, fun heq => hnotMem (heq ▸ hw)⟩
    · rintro ⟨rfl | hw, hne⟩
      · exact absurd rfl hne
      · exact hw
  have hnew : ∀ w ∈ n.children, w ∉ done := by
    intro w hw hmem
    obtain ⟨hinner, hpar⟩ := (hchildren w).1 hw
    exact hv.notMem (hpar ▸ h.placed.parent_mem hmem hinner.1)
  constructor
  case placed =>
    refine h.placed.next done v hv fun w hw => ?_
    by_cases heq : w = v
    · exact le_of_eq (congrArg t.rank heq.symm)
    · exact hfirst w ((hrest w).2 ⟨hw, heq⟩)
  case mem_iff =>
    intro w
    rw [List.mem_append, hrest, hchildren]
    constructor
    · rintro (⟨hw, hne⟩ | ⟨hinner, hpar⟩)
      · exact ⟨hw.isInner, by simp [hne, hw.notMem], List.mem_cons_of_mem _ hw.parent_mem⟩
      · refine ⟨hinner, ?_, by simp [hpar]⟩
        have hlt := (hl.parentOf_lt hinner).2
        simp only [List.mem_cons, not_or]
        exact ⟨by grind, hnew w ((hchildren w).2 ⟨hinner, hpar⟩)⟩
    · rintro ⟨hinner, hnot, hpar⟩
      simp only [List.mem_cons, not_or] at hnot hpar
      rcases hpar with hpar | hpar
      · exact .inr ⟨hinner, hpar⟩
      · exact .inl ⟨⟨hinner, hnot.2, hpar⟩, hnot.1⟩
  case nodup =>
    refine List.nodup_append.2 ⟨hnodup, (hl.increasing hn).imp fun h => ne_of_lt h, ?_⟩
    rintro w hw _ hw' rfl
    have hpar := ((hrest w).1 hw).1.parent_mem
    rw [((hchildren w).1 hw').2] at hpar
    exact hv.notMem hpar

/-- When the queue is empty, every node is placed. -/
theorem Queued.all_mem (hl : t.Linked) (h : t.Queued done []) :
    ∀ v, (∃ n, t.node? v = some n) → v ∈ done := by
  rintro v ⟨n, hn⟩
  have hopen : ∀ w, ¬t.Open done w := fun w hw => List.not_mem_nil ((h.mem_iff w).2 hw)
  exact h.placed.mem_of_not_open hl hopen t.size v (node?_bounds hn).2 ⟨n, hn⟩

/-- The root's place is taken first. -/
theorem Linked.queued_root (hl : t.Linked) {root : Node Rat} (hroot : t.node? 0 = some root) :
    t.Queued [0] root.children := by
  refine ⟨.root, fun w => ?_, (hl.increasing hroot).imp fun h => ne_of_lt h⟩
  rw [hl.mem_children_iff hroot]
  constructor
  · rintro ⟨hinner, hpar⟩
    exact ⟨hinner, by simpa using hinner.1, by simp [hpar]⟩
  · rintro ⟨hinner, -, hpar⟩
    exact ⟨hinner, List.mem_singleton.1 hpar⟩

/-- However the queue is emptied, each node is placed when it is the first of the open ones. -/
theorem Drains.placed (hl : t.Linked) {queue order : List NodeId} (hd : t.Drains queue order)
    (h : t.Queued done queue) : t.Placed (order.reverse ++ done)
      ∧ ∀ v, (∃ n, t.node? v = some n) → v ∈ order.reverse ++ done := by
  induction hd generalizing done with
  | nil => exact ⟨h.placed, h.all_mem hl⟩
  | take queue rest order v n hperm hn hfirst _ ih =>
    rw [List.reverse_cons, List.append_assoc, List.singleton_append]
    refine ih (h.take hl hperm hn fun w hw => ?_)
    have hw' : w ∈ queue := hperm.mem_iff.2 (List.mem_cons_of_mem _ hw)
    obtain ⟨m, hm⟩ := ((h.mem_iff w).1 hw').isInner.2
    refine not_lt.1 fun hlt => Bool.false_ne_true ?_
    rw [← hfirst w hw m hm, hl.precedes_iff hm hn]
    exact hlt

/-- The order of the rows empties the queue, which stays a heap. The fuel counts the nodes that are
    not placed. -/
theorem Linked.drains_orderFrom (hl : t.Linked) {fuel : Nat} {queue : List NodeId}
    (h : t.Queued done queue) (hheap : Queue.IsHeap t.rank queue) (hfuel : fuel + done.length = t.size) :
    t.Drains queue (t.orderFrom fuel queue) := by
  induction fuel generalizing queue done with
  | zero =>
    -- all nodes are placed, so none is open
    have hsub : done ⊆ t.allIds := by
      intro w hw
      by_cases hne : w = 0
      · rw [hne, mem_allIds]
        have := List.length_pos_of_mem hw
        exact ⟨le_refl _, by grind⟩
      · obtain ⟨-, m, hm⟩ := h.placed.isInner hw hne
        exact mem_allIds.2 (node?_bounds hm)
    have hperm : done.Perm t.allIds := by
      refine (List.subperm_of_subset h.placed.nodup hsub).perm_of_length_le ?_
      rw [length_allIds]
      omega
    have hempty : queue = [] := by
      refine List.eq_nil_iff_forall_not_mem.2 fun w hw => ?_
      obtain ⟨⟨-, m, hm⟩, hnot, -⟩ := (h.mem_iff w).1 hw
      exact hnot (hperm.mem_iff.2 (mem_allIds.2 (node?_bounds hm)))
    rw [hempty, orderFrom]
    exact .nil
  | succ fuel ih =>
    rw [orderFrom]
    cases hpop : Queue.pop? t.takes queue with
    | none =>
      rw [Queue.pop?_eq_none_iff.1 hpop]
      exact .nil
    | some popped =>
      obtain ⟨next, others⟩ := popped
      have hperm := Queue.perm_of_pop? hpop
      obtain ⟨hfirst, hrest⟩ := hheap.pop? (hl.ranks_takes h.inTree) hpop
      obtain ⟨n, hn⟩ := h.inTree next (hperm.mem_iff.2 List.mem_cons_self)
      simp only [hn, Option.elim_some]
      have hnext := h.take hl hperm hn hfirst
      have hpushed : (n.children.foldl (Queue.push t.takes) others).Perm (others ++ n.children) :=
        Queue.perm_foldl_push n.children others
      have hfuel' : fuel + (next :: done).length = t.size := by
        rw [List.length_cons]
        omega
      have hdrains := ih (hnext.perm hpushed.symm)
        (hrest.foldl_push (hl.ranks_takes hnext.inTree)) hfuel'
      refine .take _ _ _ next n hperm hn (fun w hw m hm => Bool.eq_false_iff.2 fun hprec => ?_)
        (hdrains.perm hpushed)
      exact not_lt.2 (hfirst w hw) ((hl.precedes_iff hm hn).1 hprec)

/-- After the root the order of the rows empties the queue of its children. -/
theorem Linked.drains_priorityOrder (hl : t.Linked) {root : Node Rat}
    (hroot : t.node? 0 = some root) : t.Drains root.children
      (t.orderFrom (t.size - 1) (root.children.foldl (Queue.push t.takes) [])) := by
  have hqueued := hl.queued_root hroot
  have hpushed : (root.children.foldl (Queue.push t.takes) []).Perm ([] ++ root.children) :=
    Queue.perm_foldl_push root.children []
  have hfuel : t.size - 1 + [(0 : NodeId)].length = t.size := by
    have hsize := node?_bounds hroot
    rw [List.length_singleton]
    grind
  have hdrains := hl.drains_orderFrom (hqueued.perm hpushed.symm)
    (Queue.isHeap_nil.foldl_push (hl.ranks_takes hqueued.inTree)) hfuel
  exact hdrains.perm hpushed

/-- The order of the rows places every node. -/
theorem Linked.placed_priorityOrder (hl : t.Linked) (hne : 0 < t.size) :
    t.Placed t.priorityOrder.reverse
      ∧ ∀ v, (∃ n, t.node? v = some n) → v ∈ t.priorityOrder.reverse := by
  obtain ⟨root, hroot⟩ := exists_root hne
  have hqueued := hl.queued_root hroot
  rw [priorityOrder_eq hroot, List.reverse_cons]
  exact (hl.drains_priorityOrder hroot).placed hl hqueued

/-- What holds of the first row and is kept when the first of the open nodes gets its row holds of
    the whole table. -/
theorem Linked.fill_priorityOrder (hl : t.Linked) (hne : 0 < t.size) (width : Nat)
    (J : List NodeId → List (Row Rat) → Prop)
    (hstep : ∀ {done : List NodeId} {previous : Row Rat} {rows : List (Row Rat)} {v : NodeId},
      t.Placed done → t.Open done v → (∀ w, t.Open done w → t.rank v ≤ t.rank w) →
      J done (previous :: rows) →
      ∃ row, t.rowFor (previous :: rows) v previous = some row ∧
        J (v :: done) (row :: previous :: rows))
    (hfirst : J [0] [Array.replicate width (Proposal.empty.insert t 0)]) :
    ∃ last rows, t.fill (t.priorityOrder.drop 1)
        [Array.replicate width (Proposal.empty.insert t 0)] = some (last :: rows) ∧
      J t.priorityOrder.reverse (last :: rows) := by
  obtain ⟨root, hroot⟩ := exists_root hne
  obtain ⟨hplaced, -⟩ := hl.placed_priorityOrder hne
  rw [priorityOrder_eq hroot, List.reverse_cons] at hplaced ⊢
  refine fill_invariant
    (fun done v => t.Placed done ∧ t.Open done v ∧ ∀ w, t.Open done w → t.rank v ≤ t.rank w) J
    (fun ⟨h, hv, hfirst⟩ hJ => hstep h hv hfirst hJ) _ [0] _ [] (fun pre v post hsplit => ?_) hfirst
  rw [List.drop_one, List.tail_cons] at hsplit
  rw [hsplit, List.reverse_append, List.reverse_cons, List.append_assoc,
    List.append_assoc] at hplaced
  exact hplaced.of_append (by simp)

end Tree

end InlinePlan
