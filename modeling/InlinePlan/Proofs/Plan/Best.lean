import InlinePlan.Proofs.Plan.Priority
import InlinePlan.Proofs.Plan.Worth

set_option autoImplicit false

/-! # Best proposals, row by row

A cell is best if no closed set of the nodes placed so far is worth more within its budget, and if
every smaller closed set is worth less than it. A new row has best cells again if its node can be
added to a best cell, together with the ancestors that are missing, in a way that loses nothing
(`Tree.Covers`). -/

namespace InlinePlan

open Finset

/-- The best proposal for a budget among placed nodes; what it has, it needs. -/
structure Proposal.Best (t : Tree Rat) (done : List NodeId) (b : Int) (p : Proposal Rat) : Prop
    extends Proposal.Feasible t b p where
  weighed : p.Weighed t
  within : ∀ i ∈ p.ids, i ∈ done
  best : ∀ S, t.Closed S → (∀ i ∈ S, i ∈ done) → t.costs S ≤ b → t.worth S ≤ p.benefit
  minimal : ∀ S, t.Closed S → S ⊂ p.nodes → t.worth S < p.benefit

namespace Tree

/-- The rows of the table with their nodes: each row is best for the nodes up to its own. -/
def Filled (t : Tree Rat) (width : Nat) : List NodeId → List (Row Rat) → Prop
  | [], [] => True
  | v :: done, row :: rows =>
    Row.Holds width (Proposal.Best t (v :: done)) row ∧ t.Filled width done rows
  | _, _ => False

variable {t : Tree Rat} {done : List NodeId} {v : NodeId} {width : Nat} {previous : Row Rat}
  {rows : List (Row Rat)} {b : Int}

/-! ## Climbing -/

/-- How far a climb from `v` has come: `top` is the topmost node of the chain. If the chain has more
    than `v`, the previous row lacked the parent of `v` and then every node up to `top`. -/
structure Climbed (t : Tree Rat) (previous : Row Rat) (b : Int) (v : NodeId)
    (chain : Proposal Rat) (top : Node Rat) : Prop extends chain.Branch t top.parent where
  node : t.node? top.id = some top
  isInner : t.IsInner top.id
  mem : v ∈ chain.ids
  above : ∀ i ∈ chain.ids, t.Above i v
  below : ∀ i ∈ chain.ids, t.Above top.id i
  missed : (chain.ids = [v] ∧ top.id = v) ∨
    t.Above top.id (t.parentOf v)
      ∧ (∃ cell, previous.cell? (b - t.costOf v) = some cell ∧ t.parentOf v ∉ cell.ids)
      ∧ ∃ cell, previous.cell? (b - chain.cost + t.costOf top.id) = some cell
          ∧ top.id ∉ cell.ids

theorem climbed_start (hl : t.Linked) {n : Node Rat} (hv : t.IsInner v)
    (hn : t.node? v = some n) (hcounted : (Proposal.empty.insert t v).Counted t) :
    Climbed t previous b v (Proposal.empty.insert t v) n := by
  have hid : n.id = v := hl.id_eq hn
  have hids : (Proposal.empty.insert t v).ids = [v] := Proposal.ids_single hn
  refine ⟨branch_single hn hcounted, by rw [hid, hn], by rwa [hid], by simp [hids], ?_, ?_, ?_⟩
  · intro i hi
    rw [hids, List.mem_singleton] at hi
    exact hi ▸ Above.refl t v
  · intro i hi
    rw [hids, List.mem_singleton] at hi
    rw [hi, hid]
    exact Above.refl t v
  · exact .inl ⟨hids, hid⟩

/-- The parent of the topmost node is new to the chain. -/
theorem Climbed.parent_notMem (hl : t.Linked) {chain : Proposal Rat} {top : Node Rat}
    (h : Climbed t previous b v chain top) : top.parent ∉ chain.ids := by
  intro hmem
  have hle := hl.le_of_above (h.below _ hmem)
  have hlt := (hl.parentOf_lt h.isInner).2
  rw [parentOf_eq h.node] at hlt
  grind

/-- One step up, to a parent that the previous row lacks. -/
theorem Climbed.step (hl : t.Linked) {chain cell : Proposal Rat} {top parent : Node Rat}
    (h : Climbed t previous b v chain top)
    (hcell : previous.cell? (b - chain.cost) = some cell) (hmiss : top.parent ∉ cell.ids)
    (hne : top.parent ≠ 0) (hparent : t.node? top.parent = some parent)
    (hcounted : (chain.insert t top.parent).Counted t) :
    Climbed t previous b v (chain.insert t parent.id) parent := by
  have hid : parent.id = top.parent := hl.id_eq hparent
  have hpar : t.parentOf top.id = parent.id := by rw [parentOf_eq h.node, hid]
  have habove : t.Above parent.id top.id := hpar ▸ above_parentOf h.isInner
  have hbelow : ∀ i ∈ chain.ids, t.Above parent.id i := fun i hi => habove.trans (h.below i hi)
  have hmem {i : NodeId} : i ∈ (chain.insert t parent.id).ids ↔ i = parent.id ∨ i ∈ chain.ids :=
    Proposal.mem_insert
  have hcost : (chain.insert t parent.id).cost = chain.cost + t.costOf parent.id := by
    rw [hid]
    exact h.toCounted.cost_insert hcounted (h.parent_notMem hl)
  refine ⟨?_, by rw [hid, hparent], ⟨by rwa [hid], parent, by rw [hid, hparent]⟩,
    hmem.2 (.inr h.mem), ?_, ?_, .inr ⟨?_, ?_, ?_⟩⟩
  · rw [hid]
    exact branch_insert h.toBranch hparent hcounted
  · intro i hi
    rcases hmem.1 hi with rfl | hi
    · exact habove.trans (h.below v h.mem)
    · exact h.above i hi
  · intro i hi
    rcases hmem.1 hi with rfl | hi
    · exact Above.refl t _
    · exact hbelow i hi
  · rcases h.missed with ⟨-, htop⟩ | ⟨htop, -, -⟩
    · rw [← htop, hpar]
      exact Above.refl t _
    · exact habove.trans htop
  · rcases h.missed with ⟨hids, htop⟩ | ⟨-, hfirst, -⟩
    · refine ⟨cell, ?_, by rw [← htop, hpar, hid]; exact hmiss⟩
      have hcv : chain.cost = t.costOf v := by
        rw [h.toCounted.cost_eq, hids]
        simp
      rw [← hcv, hcell]
    · exact hfirst
  · refine ⟨cell, ?_, by rwa [hid]⟩
    rw [hcost, ← hcell]
    congr 1
    ring

/-! ## Rows -/

theorem Filled.head (h : t.Filled width done (previous :: rows)) :
    Row.Holds width (Proposal.Best t done) previous := by
  cases done with
  | nil => exact absurd h (by simp [Filled])
  | cons v done => exact h.1

theorem Filled.exists_best (h : t.Filled width done rows) {row : Row Rat} (hrow : row ∈ rows) :
    ∃ older, older <:+ done ∧ Row.Holds width (Proposal.Best t older) row := by
  induction rows generalizing done with
  | nil => cases hrow
  | cons r rows ih =>
    cases done with
    | nil => exact absurd h (by simp [Filled])
    | cons v done =>
      rcases List.mem_cons.1 hrow with rfl | hrow
      · exact ⟨v :: done, List.suffix_refl _, h.1⟩
      · obtain ⟨older, hsuffix, hbest⟩ := ih h.2 hrow
        exact ⟨older, hsuffix.trans (List.suffix_cons v done), hbest⟩

/-- The root alone is the best that there is of it. -/
theorem Linked.best_root (hl : t.Linked) {root : Node Rat}
    (hroot : t.node? 0 = some root) (hb : 0 ≤ b) :
    (Proposal.empty.insert t 0).Best t [0] b := by
  have hnodes : (Proposal.empty.insert t 0 : Proposal Rat).nodes = {0} := by
    ext i
    simp [Proposal.mem_insert, Proposal.empty]
  have hweighed := (Proposal.Weighed.empty t).insert hroot
  refine ⟨hl.feasible_root hroot hb, hweighed, ?_, ?_, ?_⟩
  · intro i hi
    simpa [hnodes] using Proposal.mem_nodes.2 hi
  · intro S hS hsub _
    have heq : S = {0} := by
      refine Finset.eq_singleton_iff_unique_mem.2 ⟨hS.root_mem, fun i hi => ?_⟩
      simpa using hsub i hi
    rw [hweighed, hnodes, heq]
  · intro S hS hsub
    rw [hnodes] at hsub
    refine absurd hsub.2 (not_not.2 ?_)
    exact Finset.singleton_subset_iff.2 hS.root_mem

/-- The first row. -/
theorem Linked.filled_root (hl : t.Linked) {root : Node Rat}
    (hroot : t.node? 0 = some root) :
    t.Filled width [0] [Array.replicate width (Proposal.empty.insert t 0)] := by
  refine ⟨⟨Array.size_replicate, fun {c p} hp => ?_⟩, trivial⟩
  rw [Row.cell?_replicate hp]
  exact hl.best_root hroot (Row.cell?_bounds hp).1

/-- Extending the table by a node: its chain does not fit, or it is to be attached to a cell. -/
theorem extend_cases (hl : t.Linked) (hs : t.Sized)
    (hrows : t.Filled width done (previous :: rows)) (hv : t.IsInner v) (hb : b < width) :
    (∃ chain top, Climbed t previous b v chain top ∧ b < chain.cost
      ∧ t.extend (previous :: rows) v b = .nothing) ∨
    ∃ chain top cell, Climbed t previous b v chain top ∧ chain.cost ≤ b
      ∧ previous.cell? (b - chain.cost) = some cell ∧ top.parent ∈ cell.ids
      ∧ t.extend (previous :: rows) v b
        = t.attach b ⟨chain, top.parent⟩ (previous :: rows) := by
  obtain ⟨n, hn⟩ := hv.2
  have hprev := hrows.head
  have hid : n.id = v := hl.id_eq hn
  have hclimb := climb_spec previous b hl (by rw [hprev.size_eq]; exact hb)
    (Climbed t previous b v)
    (fun h => by rw [h.cost_eq]; exact hs.costSum_nonneg _)
    (fun h => ⟨h.node, h.isInner.1⟩)
    (fun h _ hcell hmiss hparent => h.step hl hcell hmiss
      (fun hzero => hmiss (hzero ▸ (hprev.cell hcell).root_mem)) hparent
      (h.toCounted.insert hs hparent))
    t.size (climbed_start hl hv hn ((Proposal.Counted.empty t).insert hs hn))
    (by rw [hid]; exact (node?_bounds hn).2)
  rcases hclimb with ⟨hnothing, chain, top, h, hcost⟩ | ⟨chain, top, cell, hfound, h, hle, hcell, hmem⟩
  · exact .inl ⟨chain, top, h, hcost, extend_of_nothing hn hnothing⟩
  · exact .inr ⟨chain, top, cell, h, hle, hcell, hmem, extend_of_found hn hfound⟩

/-! ## Candidates -/

/-- A proposal with the new node that could take the place of the cell above it. -/
structure Candidate (t : Tree Rat) (done : List NodeId) (v : NodeId) (b : Int)
    (p : Proposal Rat) : Prop extends p.Feasible t b where
  weighed : p.Weighed t
  within : ∀ i ∈ p.ids, i ∈ v :: done
  mem : v ∈ p.ids
  minimal : ∀ S, t.Closed S → v ∈ S → S ⊂ p.nodes → t.worth S < p.benefit

theorem mem_of_above (h : t.Placed done) (hv : t.Open done v) {i : NodeId} (hi : t.Above i v) :
    i = v ∨ i ∈ done := by
  rcases hi.cases_parent with rfl | ⟨-, hup⟩
  · exact .inl rfl
  · exact .inr (h.mem_of_above hv.parent_mem hup)

/-- A chain attached to a best cell is a candidate. -/
theorem Climbed.candidate (hs : t.Sized) (h : t.Placed done) (hv : t.Open done v)
    {chain cell : Proposal Rat} {top : Node Rat} {older : List NodeId}
    (hc : Climbed t previous b v chain top) (hbest : cell.Best t older (b - chain.cost))
    (holder : older <:+ done) (hacc : ¬Refuses ⟨chain, top.parent⟩ cell) :
    t.Candidate done v b (cell.insertAll t chain.ids)
      ∧ (cell.insertAll t chain.ids).benefit = cell.benefit + t.worth chain.nodes := by
  have hfeas := feasible_attach ⟨chain, top.parent⟩ hc.toBranch hbest.toFeasible
    (hbest.toCounted.insertAll hs hc.inTree) hacc
  have hweighed : (cell.insertAll t chain.ids).Weighed t := hbest.weighed.insertAll hc.inTree
  have hnodes : (cell.insertAll t chain.ids).nodes = cell.nodes ∪ chain.nodes :=
    Proposal.nodes_insertAll t cell chain.ids
  have hdisjoint : Disjoint cell.nodes chain.nodes := by
    refine Finset.disjoint_left.2 fun i hi hi' => hacc (.inl ⟨i, ?_, ?_⟩)
    · exact Proposal.mem_nodes.1 hi
    · exact Proposal.mem_nodes.1 hi'
  have hbenefit : (cell.insertAll t chain.ids).benefit = cell.benefit + t.worth chain.nodes := by
    rw [hweighed, hnodes, worth, Finset.sum_union hdisjoint, hbest.weighed]
    rfl
  refine ⟨⟨hfeas, hweighed, ?_, Proposal.mem_insertAll.2 (.inl hc.mem), ?_⟩, hbenefit⟩
  · intro i hi
    rcases Proposal.mem_insertAll.1 hi with hi | hi
    · exact List.mem_cons.2 (mem_of_above h hv (hc.above i hi))
    · exact List.mem_cons_of_mem _ (holder.subset (hbest.within i hi))
  · intro S hS hvS hsub
    have hchain : chain.nodes ⊆ S := by
      intro i hi
      exact hS.mem_of_above hvS (hc.above i (Proposal.mem_nodes.1 hi))
    have hsplit : S = (S ∩ cell.nodes) ∪ chain.nodes := by
      ext i
      have hi : i ∈ S → i ∈ cell.nodes ∪ chain.nodes := fun h => hnodes ▸ hsub.1 h
      rw [Finset.mem_union] at hi
      simp only [Finset.mem_union, Finset.mem_inter]
      constructor
      · intro hiS
        exact (hi hiS).imp (fun hc => ⟨hiS, hc⟩) id
      · rintro (⟨hiS, -⟩ | hi)
        · exact hiS
        · exact hchain hi
    -- what is left of the cell is a smaller closed set
    have hlost : S ∩ cell.nodes ⊂ cell.nodes := by
      refine Finset.ssubset_iff_subset_ne.2 ⟨Finset.inter_subset_right, fun heq => hsub.2 ?_⟩
      rw [hnodes, hsplit, heq]
    have hless := hbest.minimal _ (hS.inter hbest.toFeasible.closed_nodes) hlost
    have hworth : t.worth S = t.worth (S ∩ cell.nodes) + t.worth chain.nodes := by
      conv_lhs => rw [hsplit]
      exact Finset.sum_union (hdisjoint.mono_left Finset.inter_subset_right)
    rw [hworth, hbenefit]
    exact add_lt_add_left hless _

/-- Extending the table by a node yields nothing or a candidate. -/
theorem extend_candidate (hl : t.Linked) (hs : t.Sized) (h : t.Placed done) (hv : t.Open done v)
    (hrows : t.Filled width done (previous :: rows)) (hb : b < width) :
    t.extend (previous :: rows) v b = .nothing ∨
    ∃ p, t.extend (previous :: rows) v b = .found p ∧ t.Candidate done v b p := by
  rcases extend_cases hl hs hrows hv.isInner hb with ⟨-, -, -, -, hnothing⟩ |
    ⟨chain, top, cell, hc, hle, -, -, hattach⟩
  · exact .inl hnothing
  · have hcost : 0 ≤ chain.cost := by rw [hc.cost_eq]; exact hs.costSum_nonneg _
    have hanchor : 0 ≤ top.parent := (hl.parent_lt hc.node hc.isInner.1).1
    have hspec := attach_spec t b ⟨chain, top.parent⟩ (previous :: rows) hanchor fun row hrow => by
      obtain ⟨older, -, hbest⟩ := hrows.exists_best hrow
      exact row.exists_cell? (by dsimp only; omega) (by rw [hbest.size_eq]; dsimp only; omega)
    rw [hattach]
    rcases hspec with hnothing | ⟨row, hrow, cell', hcell', hacc, heq⟩
    · exact .inl hnothing
    -- a cell of an older row is best among fewer nodes, which is enough for a candidate
    · obtain ⟨older, holder, hbest⟩ := hrows.exists_best hrow
      have hcand := (hc.candidate hs h hv (hbest.cell hcell') holder hacc).1
      have hfit := hcand.cost_le
      rw [heq, if_neg (by dsimp only; omega)]
      exact .inr ⟨_, rfl, hcand⟩

/-! ## New cells -/

/-- No set with the new node is worth more than what the extension found. -/
def Covers (t : Tree Rat) (done : List NodeId) (v : NodeId) (b : Int)
    (found : Found (Proposal Rat)) : Prop :=
  ∀ S, t.Closed S → (∀ i ∈ S, i ∈ v :: done) → v ∈ S → t.costs S ≤ b →
    ∃ p, found = .found p ∧ t.worth S ≤ p.benefit

theorem mem_done_of_notMem {S : Finset NodeId} (hS : ∀ i ∈ S, i ∈ v :: done) (hv : v ∉ S) :
    ∀ i ∈ S, i ∈ done := by
  intro i hi
  rcases List.mem_cons.1 (hS i hi) with rfl | hdone
  · exact absurd hi hv
  · exact hdone

theorem cellFor_best (hs : t.Sized) {above : Proposal Rat} {budget : Nat}
    (habove : above.Best t done budget)
    (hext : t.extend (previous :: rows) v budget = .nothing ∨
      ∃ p, t.extend (previous :: rows) v budget = .found p ∧ t.Candidate done v budget p)
    (hcov : t.Covers done v budget (t.extend (previous :: rows) v budget)) :
    ∃ p, t.cellFor (previous :: rows) v above budget = some p
      ∧ p.Best t (v :: done) budget := by
  unfold cellFor
  have hkeep (hother : ∀ S, t.Closed S → (∀ i ∈ S, i ∈ v :: done) → v ∈ S →
      t.costs S ≤ budget → t.worth S ≤ above.benefit) : above.Best t (v :: done) budget := by
    refine ⟨habove.toFeasible, habove.weighed, ?_, ?_, habove.minimal⟩
    · exact fun i hi => List.mem_cons_of_mem _ (habove.within i hi)
    · intro S hS hsub hcost
      by_cases hvS : v ∈ S
      · exact hother S hS hsub hvS hcost
      · exact habove.best S hS (mem_done_of_notMem hsub hvS) hcost
  rcases hext with h | ⟨p, h, hcand⟩
  · rw [h] at hcov ⊢
    refine ⟨above, rfl, hkeep fun S hS hsub hvS hcost => ?_⟩
    obtain ⟨q, hq, -⟩ := hcov S hS hsub hvS hcost
    cases hq
  · rw [h] at hcov ⊢
    refine ⟨_, rfl, ?_⟩
    have hcov' : ∀ S, t.Closed S → (∀ i ∈ S, i ∈ v :: done) → v ∈ S → t.costs S ≤ budget →
        t.worth S ≤ p.benefit := by
      intro S hS hsub hvS hcost
      obtain ⟨q, hq, hle⟩ := hcov S hS hsub hvS hcost
      cases hq
      exact hle
    by_cases hlt : above.benefit < p.benefit
    · rw [if_pos (scale_lt_iff.2 hlt)]
      -- sets without the new node are no better than the cell above
      have hother : ∀ S, t.Closed S → (∀ i ∈ S, i ∈ v :: done) → v ∉ S → t.costs S ≤ budget →
          t.worth S < p.benefit := by
        intro S hS hsub hvS hcost
        exact lt_of_le_of_lt (habove.best S hS (mem_done_of_notMem hsub hvS) hcost) hlt
      refine ⟨hcand.toFeasible, hcand.weighed, hcand.within, ?_, ?_⟩
      · intro S hS hsub hcost
        by_cases hvS : v ∈ S
        · exact hcov' S hS hsub hvS hcost
        · exact le_of_lt (hother S hS hsub hvS hcost)
      · intro S hS hsub
        by_cases hvS : v ∈ S
        · exact hcand.minimal S hS hvS hsub
        · refine hother S hS (fun i hi => ?_) hvS ?_
          · exact hcand.within i (Proposal.mem_nodes.1 (hsub.1 hi))
          · have hcost := hcand.cost_le
            rw [hcand.cost_eq_costs] at hcost
            exact le_trans (hs.costs_mono hsub.1) hcost
    · rw [if_neg fun hp => hlt (scale_lt_iff.1 hp)]
      exact hkeep fun S hS hsub hvS hcost =>
        le_trans (hcov' S hS hsub hvS hcost) (not_lt.1 hlt)

/-- If the extensions lose nothing, the new row is best. -/
theorem rowFor_best (hl : t.Linked) (hs : t.Sized) (h : t.Placed done) (hv : t.Open done v)
    (hrows : t.Filled width done (previous :: rows))
    (hcov : ∀ b : Nat, b < width → t.Covers done v b (t.extend (previous :: rows) v b)) :
    ∃ row, t.rowFor (previous :: rows) v previous = some row
      ∧ t.Filled width (v :: done) (row :: previous :: rows) := by
  have hprev := hrows.head
  have hcell : ∀ (b : Nat) (above : Proposal Rat), b < width → previous.cell? b = some above →
      ∃ p, t.cellFor (previous :: rows) v above b = some p ∧ p.Best t (v :: done) b := by
    intro b above hlt habove
    exact cellFor_best hs (hprev.cell habove)
      (extend_candidate hl hs h hv hrows (by omega)) (hcov b hlt)
  obtain ⟨row, hrow, hholds⟩ := rowFor_holds hprev.size_eq hcell
  exact ⟨row, hrow, hholds, hrows⟩

end Tree

end InlinePlan
