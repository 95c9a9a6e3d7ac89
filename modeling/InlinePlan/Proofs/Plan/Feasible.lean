import InlinePlan.Proofs.Plan.Order
import InlinePlan.Proofs.Plan.Table

set_option autoImplicit false

/-! # Plans are feasible

Every cell of the table holds a proposal that contains the root, is closed under parents and costs
no more than the budget of its column (`Proposal.Feasible`). The root in every cell is what stops a
climb inside the tree; the bound on the cost is what keeps every look-up inside the table. Nothing
here depends on the benefits, so nothing is asked of the numbers that they are. -/

namespace InlinePlan

variable {R : Type}

/-- A set of nodes that can be inlined within a budget: with the root, and with the parent of every
    other node in it. The stored cost is the cost of its nodes. -/
structure Proposal.Feasible (t : Tree R) (budget : Int) (p : Proposal R) : Prop
    extends Proposal.Counted t p where
  root_mem : 0 ∈ p.ids
  closed : ∀ {id : NodeId} {n : Node R}, id ∈ p.ids → t.node? id = some n → id ≠ 0 →
    n.parent ∈ p.ids
  cost_le : p.cost ≤ budget

/-- A node with some of its ancestors, up to a child of the anchor. -/
structure Proposal.Branch (t : Tree R) (p : Proposal R) (anchor : NodeId) : Prop
    extends Proposal.Counted t p where
  closed : ∀ {id : NodeId} {n : Node R}, id ∈ p.ids → t.node? id = some n →
    n.parent ∈ p.ids ∨ n.parent = anchor

variable [Scale R]

namespace Tree

/-! ## One cell -/

theorem branch_single {t : Tree R} {v : NodeId} {n : Node R} (hn : t.node? v = some n)
    (hcounted : (Proposal.empty.insert t v).Counted t) :
    (Proposal.empty.insert t v).Branch t n.parent where
  toCounted := hcounted
  closed := by
    intro id m hid hm
    rcases Proposal.mem_insert.1 hid with rfl | hid
    · rw [hn] at hm
      exact Or.inr (by rw [Option.some.inj hm])
    · exact absurd hid (by simp [Proposal.empty])

/-- One step up: the parent joins the branch and its own parent becomes the anchor. -/
theorem branch_insert {t : Tree R} {chain : Proposal R} {anchor : NodeId} {parent : Node R}
    (hb : chain.Branch t anchor) (hp : t.node? anchor = some parent)
    (hcounted : (chain.insert t anchor).Counted t) :
    (chain.insert t anchor).Branch t parent.parent where
  toCounted := hcounted
  closed := by
    intro id n hid hn
    rcases Proposal.mem_insert.1 hid with rfl | hid
    · rw [hp] at hn
      exact Or.inr (by rw [Option.some.inj hn])
    · rcases hb.closed hid hn with hmem | hanchor
      · exact Or.inl (Proposal.mem_insert.2 (Or.inr hmem))
      · exact Or.inl (Proposal.mem_insert.2 (Or.inl hanchor))

/-- A branch attached to a feasible proposal that has its anchor, and none of its nodes, is feasible
    for both costs together. -/
theorem feasible_attach {t : Tree R} (chain : Chain R) {cell : Proposal R} {budget : Int}
    (hb : chain.nodes.Branch t chain.anchor) (hc : cell.Feasible t (budget - chain.nodes.cost))
    (hjoin : (cell.insertAll t chain.nodes.ids).Counted t) (hacc : ¬ Refuses chain cell) :
    (cell.insertAll t chain.nodes.ids).Feasible t budget := by
  unfold Refuses at hacc
  rw [not_or, not_not] at hacc
  obtain ⟨hdisjoint, hanchor⟩ := hacc
  have hcost : (cell.insertAll t chain.nodes.ids).cost = cell.cost + chain.nodes.cost :=
    hc.toCounted.cost_insertAll hb.toCounted hjoin fun x hx hxc => hdisjoint ⟨x, hx, hxc⟩
  have hle := hc.cost_le
  refine ⟨hjoin, ?_, ?_, by omega⟩
  · exact Proposal.mem_insertAll.2 (Or.inr hc.root_mem)
  · intro id n hid hn hne
    rw [Proposal.mem_insertAll] at hid ⊢
    rcases hid with hid | hid
    · rcases hb.closed hid hn with hmem | heq
      · exact Or.inl hmem
      · exact Or.inr (heq ▸ hanchor)
    · exact Or.inr (hc.closed hid hn hne)

/-- The outcome of extending the table by a node: nothing, or a feasible proposal. -/
theorem extend_feasible {t : Tree R} (hl : t.Linked) (hs : t.Sized) {previous : Row R}
    {rows : List (Row R)} {width : Nat} {v : NodeId} (budget : Int)
    (hrows : ∀ row ∈ previous :: rows, Row.Holds width (Proposal.Feasible t) row)
    (hv : t.IsInner v) (hwidth : budget < width) :
    t.extend (previous :: rows) v budget = .nothing ∨
    ∃ p, t.extend (previous :: rows) v budget = .found p ∧ p.Feasible t budget := by
  obtain ⟨hne, n, hn⟩ := hv
  have hprev := hrows previous List.mem_cons_self
  have hid : n.id = v := hl.id_eq hn
  have hextend := extend_spec hl (fun row hrow => (hrows row hrow).size_eq) hwidth
    (fun chain top => chain.Branch t top.parent ∧ t.node? top.id = some top ∧ top.id ≠ 0)
    (fun hI => by rw [hI.1.cost_eq]; exact hs.costSum_nonneg _)
    (fun hI => hI.2)
    (fun {chain top parent cell} hI _ hcell hmem hparent => by
      have hpid : parent.id = top.parent := hl.id_eq hparent
      refine ⟨?_, by rw [hpid]; exact hparent, ?_⟩
      · rw [hpid]; exact branch_insert hI.1 hparent (hI.1.toCounted.insert hs hparent)
      · intro hzero
        exact hmem (by rw [← hpid, hzero]; exact (hprev.cell hcell).root_mem))
    hn
    ⟨branch_single hn ((Proposal.Counted.empty t).insert hs hn), by rw [hid]; exact hn,
      by rw [hid]; exact hne⟩
  rcases hextend with hnothing | ⟨chain, top, ⟨hbranch, -, -⟩, -, row, hrow, cell, hcell, hacc, heq⟩
  · exact Or.inl hnothing
  · have hcellf := (hrows row hrow).cell hcell
    have hfeas := feasible_attach ⟨chain, top.parent⟩ hbranch hcellf
      (hcellf.toCounted.insertAll hs hbranch.inTree) hacc
    have hfit := hfeas.cost_le
    rw [heq, if_neg (by dsimp only at hfit ⊢; omega)]
    exact Or.inr ⟨_, rfl, hfeas⟩

/-! ## The whole table -/

/-- A cell of the new row: the feasible one above it, or a feasible extension. -/
theorem cellFor_feasible {t : Tree R} (hl : t.Linked) (hs : t.Sized) {previous : Row R}
    {rows : List (Row R)} {width : Nat} {v : NodeId} {above : Proposal R} {budget : Nat}
    (hrows : ∀ row ∈ previous :: rows, Row.Holds width (Proposal.Feasible t) row)
    (hv : t.IsInner v) (hwidth : budget < width) (habove : above.Feasible t budget) :
    ∃ p, t.cellFor (previous :: rows) v above budget = some p ∧ p.Feasible t budget := by
  unfold cellFor
  rcases extend_feasible hl hs budget hrows hv (by omega) with h | ⟨p, h, hp⟩
  · rw [h]
    exact ⟨above, rfl, habove⟩
  · rw [h]
    refine ⟨_, rfl, ?_⟩
    split
    · exact hp
    · exact habove

theorem rowFor_feasible {t : Tree R} (hl : t.Linked) (hs : t.Sized) {previous : Row R}
    {rows : List (Row R)} {width : Nat} {v : NodeId}
    (hrows : ∀ row ∈ previous :: rows, Row.Holds width (Proposal.Feasible t) row)
    (hv : t.IsInner v) :
    ∃ row, t.rowFor (previous :: rows) v previous = some row ∧
      Row.Holds width (Proposal.Feasible t) row := by
  have hprev := hrows previous List.mem_cons_self
  refine rowFor_holds hprev.size_eq fun b above hlt habove => ?_
  exact cellFor_feasible hl hs hrows hv hlt (hprev.cell habove)

/-- The proposal of the root alone, which fills the first row. -/
theorem Linked.feasible_root {t : Tree R} (hl : t.Linked) {root : Node R}
    (hroot : t.node? 0 = some root) {budget : Int} (hb : 0 ≤ budget) :
    (Proposal.empty.insert t 0).Feasible t budget := by
  have hcost : root.cost = 0 := by simp [Node.cost, Node.isRoot, hl.parent_root hroot]
  have hcounted : (Proposal.empty.insert t 0).Counted t :=
    (Proposal.Counted.empty t).insert_of_lt hroot fun _ => by simp [hcost, Proposal.empty]
  have hids : (Proposal.empty.insert t 0).ids = [0] := Proposal.ids_single hroot
  refine ⟨hcounted, by rw [hids]; exact List.mem_singleton.2 rfl, ?_, ?_⟩
  · intro id n hid _ hne
    rw [hids] at hid
    exact absurd (List.mem_singleton.1 hid) hne
  · rw [hcounted.cost_eq, hids, costSum_cons, costSum_nil, costOf_eq hroot, hcost]
    simpa using hb

/-- The table can be filled, and every cell of its last row is feasible. -/
theorem select_table {t : Tree R} (hl : t.Linked) (hs : t.Sized) (hne : 0 < t.size)
    (width : Nat) :
    ∃ last rows, t.fill (t.priorityOrder.drop 1)
        [Array.replicate width (Proposal.empty.insert t 0)] = some (last :: rows) ∧
      Row.Holds width (Proposal.Feasible t) last := by
  obtain ⟨root, hroot⟩ := exists_root hne
  have hfirst : Row.Holds width (Proposal.Feasible t)
      (Array.replicate width (Proposal.empty.insert t 0)) := by
    refine ⟨Array.size_replicate, ?_⟩
    intro b p hp
    rw [Row.cell?_replicate hp]
    exact hl.feasible_root hroot (Row.cell?_bounds hp).1
  have hinner : ∀ v ∈ t.priorityOrder.drop 1, t.IsInner v := by
    rw [priorityOrder_eq hroot]
    refine hl.isInner_of_mem_orderFrom fun v hv => hl.isInner_of_mem_children hroot ?_
    rwa [(Queue.perm_foldl_push _ _).mem_iff, List.nil_append] at hv
  obtain ⟨last, rows, hfill, hall⟩ := fill_invariant (t := t) (fun _ v => t.IsInner v)
    (fun _ rows => ∀ row ∈ rows, Row.Holds width (Proposal.Feasible t) row)
    (fun {done previous rows v} hv hrows => by
      obtain ⟨row, hrow, hholds⟩ := rowFor_feasible hl hs hrows hv
      refine ⟨row, hrow, ?_⟩
      intro r hr
      rcases List.mem_cons.1 hr with rfl | hr
      · exact hholds
      · exact hrows r hr)
    (t.priorityOrder.drop 1) [] _ []
    (fun pre v post hsplit => hinner v (by rw [hsplit]; simp))
    fun row hrow => List.mem_singleton.1 hrow ▸ hfirst
  exact ⟨last, rows, hfill, hall last List.mem_cons_self⟩

/-- There is a plan for every budget that rows have room for, and it is feasible. -/
theorem exists_feasible_select {t : Tree R} (hl : t.Linked) (hs : t.Sized) (hne : 0 < t.size)
    {budget : Int} (hroom : budget < 2 ^ 45) :
    ∃ p, t.select budget = some p ∧ p.Feasible t (max budget 0) := by
  obtain ⟨last, rows, hfill, hlast⟩ := select_table hl hs hne (budget.toNat + 1)
  obtain ⟨p, hp⟩ := last.exists_cell? (b := (budget.toNat : Int)) (by omega)
    (by rw [hlast.size_eq]; omega)
  refine ⟨p, by rw [select_of_fill hroom hfill, hp], ?_⟩
  have hfeas := hlast.cell hp
  rwa [Int.ofNat_toNat] at hfeas

end Tree

/-! ## Checking a plan -/

omit [Scale R] in
theorem Proposal.Feasible.checkNodes {t : Tree R} {p : Proposal R} {budget : Int} (hl : t.Linked)
    (hp : p.Feasible t budget) {ids : List NodeId} (hids : ∀ id ∈ ids, id ∈ p.ids) :
    p.checkNodes t ids = .ok () := by
  induction ids with
  | nil => rfl
  | cons id ids ih =>
    obtain ⟨n, hn⟩ := hp.inTree id (hids id List.mem_cons_self)
    have hbounds := Tree.node?_bounds hn
    rw [Proposal.checkNodes, if_neg (not_le.2 hbounds.2), hn]
    dsimp only
    rw [if_neg, ih fun i hi => hids i (List.mem_cons_of_mem _ hi)]
    intro horphan
    rw [Bool.and_eq_true, Bool.not_eq_true', Bool.not_eq_true'] at horphan
    have hne : id ≠ 0 := by
      rintro rfl
      have hroot : n.isRoot = true := by simp [Node.isRoot, hl.parent_root hn]
      rw [hroot] at horphan
      exact absurd horphan.1 (by decide)
    have hmem := hp.closed (hids id List.mem_cons_self) hn hne
    have hcontains := Proposal.contains_iff.2 ⟨(hl.parent_lt hn hne).1, hmem⟩
    rw [hcontains] at horphan
    exact absurd horphan.2 (by decide)

omit [Scale R] in
theorem Proposal.Feasible.check {t : Tree R} {p : Proposal R} {budget : Int} (hl : t.Linked)
    (hp : p.Feasible t budget) : p.check t budget = .ok () := by
  unfold Proposal.check
  rw [if_neg, hp.checkNodes hl fun _ h => h]
  · dsimp only
    rw [if_neg (not_lt.2 hp.cost_le)]
  · rw [Bool.and_eq_true, Bool.not_eq_true', Bool.not_eq_true']
    rintro ⟨-, hroot⟩
    rw [Proposal.contains_iff.2 ⟨le_refl _, hp.root_mem⟩] at hroot
    exact absurd hroot (by decide)

/-! ## The plan -/

/-- Whatever the benefits are, the plan for a budget exists as long as a row has room for its cells.
    It has the root, nodes of the tree only, and with each of them its parent; it stores the cost of
    its nodes, which is at most the budget, and it passes its own check. -/
theorem select_feasible {t : Tree R} (hbuilt : t.Built) (hne : 0 < t.size) (hs : t.Sized)
    (budget : Int) :
    (budget < 2 ^ 45 →
      ∃ p, t.select budget = some p ∧ p.contains 0 = true ∧ p.ids.Pairwise (· < ·) ∧
        (∀ id ∈ p.ids, ∃ n, t.node? id = some n ∧
          (n.isRoot = true ∨ p.contains n.parent = true)) ∧
        p.cost = (p.ids.map fun id => (t.node? id).elim 0 Node.cost).sum ∧
        p.cost ≤ max budget 0 ∧ p.check t (max budget 0) = .ok ()) ∧
    (2 ^ 45 ≤ budget → t.select budget = none) := by
  have hl := hbuilt.linked
  refine ⟨fun hroom => ?_, Tree.select_eq_none⟩
  obtain ⟨p, hselect, hp⟩ := Tree.exists_feasible_select hl hs hne hroom
  refine ⟨p, hselect, Proposal.contains_iff.2 ⟨le_refl _, hp.root_mem⟩, hp.increasing, ?_,
    hp.cost_eq, hp.cost_le, hp.check hl⟩
  intro id hid
  obtain ⟨n, hn⟩ := hp.inTree id hid
  refine ⟨n, hn, ?_⟩
  by_cases hzero : id = 0
  · subst hzero
    exact Or.inl (by simp [Node.isRoot, hl.parent_root hn])
  · exact Or.inr (Proposal.contains_iff.2 ⟨(hl.parent_lt hn hzero).1, hp.closed hid hn hzero⟩)

/-- A call of a method with a size and a benefit, made once for each execution of the root. -/
def plainCall (size benefit : Int) : Call Rat :=
  { method := { id := "m", size }, callRatio := 1, rootCallRatio := 1, staticBenefit := benefit }

/-- A root with a leaf and, below a call without benefit, a second call. -/
def chainAndLeafCalls : List (NodeId × Call Rat) :=
  [(noNode, plainCall 40 0), (0, plainCall 5 0), (1, plainCall 5 10), (0, plainCall 8 4)]

def chainAndLeaf : Tree Rat := (Tree.addAll {} chainAndLeafCalls).toOption.getD {}

theorem select_feasible_chainAndLeaf :
    chainAndLeaf.Built ∧ 0 < chainAndLeaf.size ∧ chainAndLeaf.Sized ∧
    (∃ p, chainAndLeaf.select 10 = some p ∧ p.contains 0 = true ∧ p.ids.Pairwise (· < ·) ∧
      (∀ id ∈ p.ids, ∃ n, chainAndLeaf.node? id = some n ∧
        (n.isRoot = true ∨ p.contains n.parent = true)) ∧
      p.cost = (p.ids.map fun id => (chainAndLeaf.node? id).elim 0 Node.cost).sum ∧
      p.cost ≤ max 10 0 ∧ p.check chainAndLeaf (max 10 0) = .ok ()) ∧
    chainAndLeaf.select (2 ^ 45) = none := by
  have hbuilt : chainAndLeaf.Built := Tree.Built.empty.addAll chainAndLeafCalls (by rfl)
  have hsize : 0 < chainAndLeaf.size := by decide
  have hs : chainAndLeaf.Sized := ⟨by decide, by decide⟩
  exact ⟨hbuilt, hsize, hs, (select_feasible hbuilt hsize hs 10).1 (by decide),
    (select_feasible hbuilt hsize hs (2 ^ 45)).2 (le_refl _)⟩

/-- A root alone. -/
def loneRoot : Tree Rat := (Tree.addAll {} [(noNode, plainCall 1 0)]).toOption.getD {}

/-- The largest budget has no plan, even if there is nothing to plan. -/
theorem select_without_room :
    loneRoot.Built ∧ 0 < loneRoot.size ∧ loneRoot.Sized ∧
    ¬∃ p, loneRoot.select (2 ^ 63 - 1) = some p := by
  refine ⟨Tree.Built.empty.addAll [(noNode, plainCall 1 0)] (by rfl), by decide,
    ⟨by decide, by decide⟩, ?_⟩
  rintro ⟨p, hp⟩
  rw [Tree.select_eq_none (by decide)] at hp
  cases hp

end InlinePlan
