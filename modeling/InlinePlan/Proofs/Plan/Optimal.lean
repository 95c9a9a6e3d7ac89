import InlinePlan.Proofs.Plan.Best

set_option autoImplicit false

/-! # Trees with optimal plans

In two kinds of trees the table loses nothing, so that the plan is optimal whatever the sizes, the
benefits and the budget are: in trees of which all nodes that have siblings are leaves, and in trees
with at most four nodes. -/

namespace InlinePlan

open Finset

namespace Tree

variable {t : Tree Rat} {done : List NodeId} {v : NodeId} {width : Nat} {previous : Row Rat}
  {rows : List (Row Rat)} {b : Int} {S : Finset NodeId}

/-! ## One node more -/

/-- A closed set with the new node, without it. -/
theorem Placed.erase_closed (hl : t.Linked) (h : t.Placed done) (hv : t.Open done v)
    (hS : t.Closed S) (hsub : ∀ i ∈ S, i ∈ v :: done) :
    t.Closed (S.erase v) ∧ ∀ i ∈ S.erase v, i ∈ done := by
  constructor
  · refine hS.erase hv.isInner.1 fun i hi hne hpar => ?_
    rcases List.mem_cons.1 (hsub i hi) with rfl | hdone
    · have := (hl.parentOf_lt hv.isInner).2
      grind
    · exact hv.notMem (hpar ▸ h.parent_mem hdone hne)
  · intro i hi
    obtain ⟨hne, hi⟩ := mem_erase.1 hi
    exact (List.mem_cons.1 (hsub i hi)).resolve_left hne

theorem Climbed.subset {chain : Proposal Rat} {top : Node Rat}
    (hc : Climbed t previous b v chain top) (hS : t.Closed S) (hv : v ∈ S) : chain.nodes ⊆ S :=
  fun i hi => hS.mem_of_above hv (hc.above i (Proposal.mem_nodes.1 hi))

/-- If the previous row's cell does not refuse the chain, the chain is attached to it. -/
theorem Climbed.extend_eq (rows : List (Row Rat)) (hl : t.Linked) (hs : t.Sized) (h : t.Placed done)
    (hv : t.Open done v) {chain cell : Proposal Rat} {top : Node Rat} {row : Row Rat} {older : List NodeId}
    (hc : Climbed t previous b v chain top) (hcell : row.cell? (b - chain.cost) = some cell)
    (hbest : cell.Best t older (b - chain.cost)) (holder : older <:+ done)
    (hacc : ¬Refuses ⟨chain, top.parent⟩ cell) :
    t.attach b ⟨chain, top.parent⟩ (row :: rows) = .found (cell.insertAll t chain.ids)
      ∧ (cell.insertAll t chain.ids).benefit = cell.benefit + t.worth chain.nodes := by
  have hanchor : 0 ≤ top.parent := (hl.parent_lt hc.node hc.isInner.1).1
  obtain ⟨hcand, hbenefit⟩ := hc.candidate hs h hv hbest holder hacc
  have hfit := hcand.cost_le
  have hjoin : t.attach b ⟨chain, top.parent⟩ (row :: rows)
      = if b < (cell.insertAll t chain.ids).cost then .nothing
        else .found (cell.insertAll t chain.ids) := attach_of_accepts hanchor hcell hacc
  rw [hjoin]
  exact ⟨if_neg (by omega), hbenefit⟩

/-- A chain that has ancestors of `v`. The previous row's cell for what is left of the budget has the
    chain's anchor; `first` and `last` are the cells that lacked the parent of `v` and the topmost
    node of the chain. -/
structure LongChain (t : Tree Rat) (done : List NodeId) (previous : Row Rat) (b : Int) (v : NodeId)
    (chain : Proposal Rat) (top : Node Rat) (cell first last : Proposal Rat) : Prop
    extends Climbed t previous b v chain top where
  above_parent : t.Above top.id (t.parentOf v)
  cell_eq : previous.cell? (b - chain.cost) = some cell
  cell_best : cell.Best t done (b - chain.cost)
  anchor_mem : top.parent ∈ cell.ids
  first_best : first.Best t done (b - t.costOf v)
  first_miss : t.parentOf v ∉ first.ids
  last_best : last.Best t done (b - chain.cost + t.costOf top.id)
  last_miss : top.id ∉ last.ids

/-- A node that can be added alone loses nothing, and neither does one whose chain is too expensive;
    what remains are the chains with ancestors. -/
theorem covers_of_longChain (hl : t.Linked) (hs : t.Sized) (h : t.Placed done) (hv : t.Open done v)
    (hrows : t.Filled width done (previous :: rows)) (hb : b < width)
    (hlong : ∀ chain top cell first last, t.LongChain done previous b v chain top cell first last →
      t.Covers done v b (t.attach b ⟨chain, top.parent⟩ (previous :: rows))) :
    t.Covers done v b (t.extend (previous :: rows) v b) := by
  have hprev := hrows.head
  rcases extend_cases hl hs hrows hv.isInner hb with ⟨chain, top, hc, hcost, -⟩ |
    ⟨chain, top, cell, hc, hle, hcell, hmem, hext⟩
  · -- every set with the node has the whole chain
    intro S hS _ hvS hfit
    have hsub := hs.costs_mono (hc.subset hS hvS)
    rw [← hc.cost_eq_costs] at hsub
    omega
  · have hbest := hprev.cell hcell
    rw [hext]
    rcases hc.missed with ⟨hids, htop⟩ | ⟨habove, ⟨first, hfirst, hmiss⟩, last, hlast, hmiss'⟩
    · have hacc : ¬Refuses ⟨chain, top.parent⟩ cell := by
        rintro (⟨i, hi, hi'⟩ | hno)
        · dsimp only at hi'
          rw [hids, List.mem_singleton] at hi'
          exact hv.notMem (hi' ▸ hbest.within i hi)
        · exact hno hmem
      have hcost : chain.cost = t.costOf v := by rw [hc.cost_eq, hids]; simp
      have hworth : t.worth chain.nodes = t.benefitOf v := by
        rw [worth, Proposal.nodes, hids]
        simp
      obtain ⟨hattach, hbenefit⟩ :=
        hc.extend_eq rows hl hs h hv hcell hbest (List.suffix_refl _) hacc
      intro S hS hsub hvS hfit
      refine ⟨_, hattach, ?_⟩
      obtain ⟨hclosed, hdone⟩ := h.erase_closed hl hv hS hsub
      rw [worth_erase hvS, hbenefit, hworth]
      have hle := hbest.best _ hclosed hdone (by rw [costs_erase hvS]; omega)
      linarith
    · exact hlong chain top cell first last ⟨hc, habove, hcell, hbest, hmem,
        hprev.cell hfirst, hmiss, hprev.cell hlast, hmiss'⟩

/-! ## Ancestors and siblings only -/

/-- Every placed node is above the new one or a sibling of it. -/
def Lineal (t : Tree Rat) (done : List NodeId) (v : NodeId) : Prop :=
  ∀ w ∈ done, t.Above w v ∨ t.parentOf w = t.parentOf v

/-- A set that lacks an ancestor of the parent has no siblings. -/
theorem Lineal.above_of_mem {x w : NodeId} (hlin : t.Lineal done v) (hS : t.Closed S)
    (hdone : ∀ i ∈ S, i ∈ done) (hx : t.Above x (t.parentOf v)) (hxS : x ∉ S) (hw : w ∈ S) :
    w = 0 ∨ t.Above w v := by
  by_cases hne : w = 0
  · exact .inl hne
  · rcases hlin w (hdone w hw) with habove | hpar
    · exact .inr habove
    · have hmem := hS.parent_mem w hw hne
      rw [hpar] at hmem
      exact absurd (hS.mem_of_above hmem hx) hxS

theorem LongChain.top_mem_of_refuses {chain cell first last : Proposal Rat} {top : Node Rat}
    (hc : t.LongChain done previous b v chain top cell first last)
    (href : Refuses ⟨chain, top.parent⟩ cell) : top.id ∈ cell.nodes := by
  rcases href with ⟨i, hi, hi'⟩ | hno
  · exact hc.cell_best.closed_nodes.mem_of_above (Proposal.mem_nodes.2 hi) (hc.below i hi')
  · exact absurd hc.anchor_mem hno

/-- The last cell is at least as good as that for what is left of the budget. -/
theorem LongChain.benefit_le {chain cell first last : Proposal Rat} {top : Node Rat}
    (hs : t.Sized) (hc : t.LongChain done previous b v chain top cell first last) :
    cell.benefit ≤ last.benefit := by
  have hcost := hc.cell_best.cost_le
  have htop := hs.costOf_nonneg top.id
  rw [hc.cell_best.cost_eq_costs] at hcost
  rw [hc.cell_best.weighed]
  refine hc.last_best.best _ hc.cell_best.closed_nodes (fun i hi => ?_) (by omega)
  exact hc.cell_best.within i (Proposal.mem_nodes.1 hi)

/-- The last cell is not part of that for what is left of the budget, if this has the top. -/
theorem LongChain.not_subset {chain cell first last : Proposal Rat} {top : Node Rat}
    (hs : t.Sized) (hc : t.LongChain done previous b v chain top cell first last)
    (htop : top.id ∈ cell.nodes) : ¬last.nodes ⊆ cell.nodes := by
  intro hsub
  have hss : last.nodes ⊂ cell.nodes := by
    refine Finset.ssubset_iff_subset_ne.2 ⟨hsub, fun heq => hc.last_miss ?_⟩
    exact Proposal.mem_nodes.1 (heq ▸ htop)
  have hless := hc.cell_best.minimal _ hc.last_best.closed_nodes hss
  rw [← hc.last_best.weighed] at hless
  exact absurd (hc.benefit_le hs) (not_le.2 hless)

theorem LongChain.covers_of_lineal (hl : t.Linked) (hs : t.Sized) (hben : t.Beneficial)
    (h : t.Placed done) (hv : t.Open done v) (hlin : t.Lineal done v)
    {chain cell first last : Proposal Rat} {top : Node Rat}
    (hc : t.LongChain done previous b v chain top cell first last) :
    t.Covers done v b (t.attach b ⟨chain, top.parent⟩ (previous :: rows)) := by
  have hacc : ¬Refuses ⟨chain, top.parent⟩ cell := by
    intro href
    have htop := hc.top_mem_of_refuses href
    refine hc.not_subset hs htop fun w hw => ?_
    have hlast := hc.last_best.closed_nodes
    have hmiss : top.id ∉ last.nodes := fun hmem => hc.last_miss (Proposal.mem_nodes.1 hmem)
    rcases hlin.above_of_mem hlast (fun i hi => hc.last_best.within i (Proposal.mem_nodes.1 hi))
      hc.above_parent hmiss hw with rfl | habove
    · exact hc.cell_best.closed_nodes.root_mem
    · rcases habove.total (hc.below v hc.mem) with hup | hup
      · exact absurd (hlast.mem_of_above hw hup) hmiss
      · exact hc.cell_best.closed_nodes.mem_of_above htop hup
  obtain ⟨hattach, -⟩ :=
    hc.extend_eq rows hl hs h hv hc.cell_eq hc.cell_best (List.suffix_refl _) hacc
  obtain ⟨hcand, -⟩ := hc.candidate hs h hv hc.cell_best (List.suffix_refl _) hacc
  generalize cell.insertAll t chain.ids = p at hattach hcand
  intro S hS hsub hvS hfit
  refine ⟨p, hattach, ?_⟩
  -- whatever else is in the set adds nothing to the first cell, which lies above the node
  have hfirst : insert v first.nodes ⊆ p.nodes := by
    have hmiss : t.parentOf v ∉ first.nodes := fun hmem => hc.first_miss (Proposal.mem_nodes.1 hmem)
    intro w hw
    rcases Finset.mem_insert.1 hw with rfl | hw
    · exact Proposal.mem_nodes.2 hcand.mem
    · rcases hlin.above_of_mem hc.first_best.closed_nodes
        (fun i hi => hc.first_best.within i (Proposal.mem_nodes.1 hi)) (Above.refl t _) hmiss hw
        with rfl | habove
      · exact hcand.closed_nodes.root_mem
      · exact hcand.closed_nodes.mem_of_above (Proposal.mem_nodes.2 hcand.mem) habove
  have hnot : v ∉ first.nodes := fun hmem =>
    hv.notMem (hc.first_best.within v (Proposal.mem_nodes.1 hmem))
  obtain ⟨hclosed, hdone⟩ := h.erase_closed hl hv hS hsub
  calc t.worth S = t.worth (S.erase v) + t.benefitOf v := worth_erase hvS
    _ ≤ first.benefit + t.benefitOf v := by
        have := hc.first_best.best _ hclosed hdone (by rw [costs_erase hvS]; omega)
        linarith
    _ = t.worth (insert v first.nodes) := by
        rw [hc.first_best.weighed, worth, worth, Finset.sum_insert hnot, add_comm]
    _ ≤ t.worth p.nodes := hben.worth_mono hfirst
    _ = p.benefit := hcand.weighed.symm

/-! ## Four nodes -/

/-- The only other case among four nodes: below the root are the parent `u` of the new node and a
    node `w`, in one of the two orders. -/
structure Forked (t : Tree Rat) (done : List NodeId) (v u w : NodeId) : Prop where
  parent_eq : t.parentOf v = u
  inner_u : t.IsInner u
  inner_w : t.IsInner w
  ne : u ≠ w
  root_u : t.parentOf u = 0
  root_w : t.parentOf w = 0
  order : done = [u, w, 0] ∨ done = [w, u, 0]

theorem forked_of_not_lineal (hl : t.Linked) (hsize : t.size ≤ 4) (h : t.Placed done)
    (hv : t.Open done v) (hp : t.parentOf v ≠ 0) (hlin : ¬t.Lineal done v) :
    ∃ w, t.Forked done v (t.parentOf v) w := by
  unfold Lineal at hlin
  push Not at hlin
  obtain ⟨w, hw, habove, hsibling⟩ := hlin
  have hbound : ∀ x, t.IsInner x → 0 < x ∧ x < 4 := by
    rintro x ⟨hne, n, hn⟩
    have := node?_bounds hn
    grind
  have hu := hv.parent_mem
  have hui : t.IsInner (t.parentOf v) := h.isInner hu hp
  have hw0 : w ≠ 0 := by
    rintro rfl
    exact habove (hl.above_zero hv.isInner)
  have hwi : t.IsInner w := h.isInner hw hw0
  have hwu : t.parentOf v ≠ w := by
    rintro rfl
    exact habove (above_parentOf hv.isInner)
  have hwv : w ≠ v := fun heq => hv.notMem (heq ▸ hw)
  have huv : t.parentOf v ≠ v := fun heq => hv.notMem (heq ▸ hu)
  have hvb := hbound v hv.isInner
  have hub := hbound _ hui
  have hwb := hbound w hwi
  -- there is no fifth number
  have hall : ∀ x ∈ done, x = 0 ∨ x = t.parentOf v ∨ x = w := by
    intro x hx
    have hxv : x ≠ v := fun heq => hv.notMem (heq ▸ hx)
    by_cases hx0 : x = 0
    · exact .inl hx0
    · have := hbound x (h.isInner hx hx0)
      grind
  refine ⟨w, rfl, hui, hwi, hwu, ?_, ?_, ?_⟩
  · have hlt := (hl.parentOf_lt hui).2
    rcases hall _ (h.parent_mem hu hp) with heq | heq | heq
    · exact heq
    · grind
    · exact absurd ((heq ▸ above_parentOf hui).trans (above_parentOf hv.isInner)) habove
  · have hlt := (hl.parentOf_lt hwi).2
    rcases hall _ (h.parent_mem hw hw0) with heq | heq | heq
    · exact heq
    · exact absurd heq hsibling
    · grind
  · have hnodup := h.nodup
    cases h with
    | root => simp_all
    | next d₁ x h₁ hx₁ =>
      cases h₁ with
      | root => grind
      | next d₂ y h₂ hy₂ =>
        cases h₂ with
        | root => grind [Open.isInner]
        | next d₃ z h₃ hz₃ =>
          -- three placed nodes below the root are too many
          have hx := (hall x (by simp)).resolve_left hx₁.isInner.1
          have hy := (hall y (by simp)).resolve_left hy₂.isInner.1
          have hz := (hall z (by simp)).resolve_left hz₃.isInner.1
          simp only [List.nodup_cons, List.mem_cons, not_or] at hnodup
          grind

theorem Forked.mem_cases {u w i : NodeId} (hf : t.Forked done v u w) (hi : i ∈ done) :
    i = u ∨ i = w ∨ i = 0 := by
  rcases hf.order with rfl | rfl <;> simp at hi <;> tauto

/-- Below the root both nodes of a fork can be taken or left. -/
theorem Forked.closed {u w : NodeId} (hl : t.Linked) (hf : t.Forked done v u w) (h0 : 0 ∈ S)
    (hS : ∀ i ∈ S, i ∈ done) : t.Closed S := by
  have hroot := hl.exists_parent hf.inner_u
  rw [hf.root_u] at hroot
  refine ⟨h0, fun i hi => ?_, fun i hi hne => ?_⟩
  · rcases hf.mem_cases (hS i hi) with rfl | rfl | rfl
    · exact hf.inner_u.2
    · exact hf.inner_w.2
    · exact hroot
  · rcases hf.mem_cases (hS i hi) with rfl | rfl | rfl
    · rwa [hf.root_u]
    · rwa [hf.root_w]
    · exact absurd rfl hne

namespace LongChain

variable {chain cell first last : Proposal Rat} {top : Node Rat} {u w : NodeId}

/-- The chain of a fork: the new node and its parent. -/
theorem chain_of_forked (hl : t.Linked) (hf : t.Forked done v u w)
    (hc : t.LongChain done previous b v chain top cell first last) (hv : t.IsInner v) :
    top.id = u ∧ top.parent = 0 ∧ chain.nodes = {u, v} := by
  have hpos : 0 < top.id := by
    have := node?_bounds hc.node
    have := hc.isInner.1
    grind
  have hzero : ∀ {x : NodeId}, t.Above x 0 → x ≤ 0 := fun hx => hl.le_of_above hx
  have htop : top.id = u := by
    have habove := hc.above_parent
    rw [hf.parent_eq] at habove
    rcases habove.cases_parent with heq | ⟨-, hup⟩
    · exact heq
    · rw [hf.root_u] at hup
      have := hzero hup
      grind
  have hparent : top.parent = 0 := by rw [← parentOf_eq hc.node, htop, hf.root_u]
  refine ⟨htop, hparent, ?_⟩
  ext i
  rw [Proposal.mem_nodes, Finset.mem_insert, Finset.mem_singleton]
  constructor
  · intro hi
    rcases (hc.above i hi).cases_parent with heq | ⟨-, hup⟩
    · exact .inr heq
    · rw [hf.parent_eq] at hup
      rcases hup.cases_parent with heq | ⟨-, hup⟩
      · exact .inl heq
      · rw [hf.root_u] at hup
        have := hzero hup
        have := hl.le_of_above (hc.below i hi)
        grind
  · rintro (rfl | rfl)
    · obtain ⟨n, hn⟩ := hv.2
      rcases hc.toBranch.closed hc.mem hn with hmem | hanchor
      · rwa [← parentOf_eq hn, hf.parent_eq] at hmem
      · rw [← parentOf_eq hn, hf.parent_eq, hparent] at hanchor
        exact absurd hanchor hf.inner_u.1
    · exact hc.mem

/-- A cell for what is left of the budget that accepts the chain of a fork loses nothing. -/
theorem covers_of_accepts (hl : t.Linked) (hs : t.Sized) (h : t.Placed done) (hv : t.Open done v)
    (hf : t.Forked done v u w) (hc : t.LongChain done previous b v chain top cell first last)
    {row : Row Rat} {cell' : Proposal Rat} {older : List NodeId}
    (hcell : row.cell? (b - chain.cost) = some cell') (hbest : cell'.Best t older (b - chain.cost))
    (holder : older <:+ done) (hzero : 0 ∈ older) (hw : w ∈ older)
    (hacc : ¬Refuses ⟨chain, top.parent⟩ cell') :
    t.Covers done v b (t.attach b ⟨chain, top.parent⟩ (row :: rows)) := by
  obtain ⟨-, -, hnodes⟩ := hc.chain_of_forked hl hf hv.isInner
  obtain ⟨hattach, hbenefit⟩ := hc.extend_eq rows hl hs h hv hcell hbest holder hacc
  have huv : u ≠ v := by
    rintro rfl
    have := (hl.parentOf_lt hv.isInner).2
    have := hf.parent_eq
    grind
  have hworth : t.worth chain.nodes = t.benefitOf u + t.benefitOf v := by
    rw [hnodes, worth, Finset.sum_pair huv]
  have hcost : chain.cost = t.costOf u + t.costOf v := by
    rw [hc.cost_eq_costs, hnodes, costs, Finset.sum_pair huv]
  intro S hS hsub hvS hfit
  refine ⟨_, hattach, ?_⟩
  -- without the chain the set is closed, and none of its nodes comes after `w`
  obtain ⟨hclosed, hdone⟩ := h.erase_closed hl hv hS hsub
  have huS : u ∈ S.erase v := by
    refine mem_erase.2 ⟨huv, ?_⟩
    rw [← hf.parent_eq]
    exact hS.parent_mem v hvS hv.isInner.1
  have hrest : t.Closed ((S.erase v).erase u) :=
    hf.closed hl (mem_erase.2 ⟨hf.inner_u.1.symm, hclosed.root_mem⟩)
      fun i hi => hdone i (mem_of_mem_erase hi)
  have hle := hbest.best _ hrest (fun i hi => by
    obtain ⟨hne, hi⟩ := mem_erase.1 hi
    rcases hf.mem_cases (hdone i hi) with rfl | rfl | rfl
    · exact absurd rfl hne
    · exact hw
    · exact hzero) (by rw [costs_erase huS, costs_erase hvS]; omega)
  rw [worth_erase hvS, worth_erase huS, hbenefit, hworth]
  linarith

/-- Of three nodes, those of a set that has the root and one of the others but not both. -/
theorem nodes_eq_pair {nodes : Finset NodeId} {x y : NodeId}
    (hcases : ∀ i ∈ nodes, i = x ∨ i = y ∨ i = 0) (hroot : 0 ∈ nodes) (hx : x ∈ nodes)
    (hy : y ∉ nodes) : nodes = {0, x} := by
  ext i
  rw [Finset.mem_insert, Finset.mem_singleton]
  constructor
  · intro hi
    rcases hcases i hi with rfl | rfl | rfl
    · exact .inr rfl
    · exact absurd hi hy
    · exact .inl rfl
  · rintro (rfl | rfl)
    · exact hroot
    · exact hx

/-- If the cell for what is left of the budget has the parent `u`, then `w` costs more than `u`. -/
theorem costOf_lt_of_refuses (hl : t.Linked) (hs : t.Sized) (hf : t.Forked done v u w)
    (hc : t.LongChain done previous b v chain top cell first last) (hv : t.Open done v)
    (href : Refuses ⟨chain, top.parent⟩ cell) : t.costOf u < t.costOf w := by
  obtain ⟨htop, -, -⟩ := hc.chain_of_forked hl hf hv.isInner
  have hu : u ∈ cell.nodes := htop ▸ hc.top_mem_of_refuses href
  have hroot := hc.cell_best.closed_nodes.root_mem
  have hlastu : u ∉ last.nodes := fun hmem => hc.last_miss (Proposal.mem_nodes.1 (htop ▸ hmem))
  obtain ⟨x, hx, hxcell⟩ := Finset.not_subset.1 (hc.not_subset hs (htop ▸ hu))
  obtain rfl : x = w := by
    rcases hf.mem_cases (hc.last_best.within x (Proposal.mem_nodes.1 hx)) with rfl | rfl | rfl
    · exact absurd hx hlastu
    · rfl
    · exact absurd hroot hxcell
  have hcell : cell.nodes = {0, u} := nodes_eq_pair
    (fun i hi => hf.mem_cases (hc.cell_best.within i (Proposal.mem_nodes.1 hi))) hroot hu hxcell
  have hlast : last.nodes = {0, x} := nodes_eq_pair
    (fun i hi => or_left_comm.1 (hf.mem_cases (hc.last_best.within i (Proposal.mem_nodes.1 hi))))
    hc.last_best.closed_nodes.root_mem hx hlastu
  have hdone : ∀ i ∈ ({0, u, x} : Finset NodeId), i ∈ done := by
    intro i hi
    simp only [Finset.mem_insert, Finset.mem_singleton] at hi
    rcases hf.order with rfl | rfl <;> simp <;> tauto
  have h0u : (0 : NodeId) ≠ u := hf.inner_u.1.symm
  have h0x : (0 : NodeId) ≠ x := hf.inner_w.1.symm
  have hroot_cost := hs.costOf_nonneg 0
  -- the cell needs `u`
  have hgain : 0 < t.benefitOf u := by
    have hclosed : t.Closed {0} := hf.closed hl (by simp) fun i hi => hdone i (by simp at hi; simp [hi])
    have hless := hc.cell_best.minimal {0} hclosed (by rw [hcell]; grind)
    rw [hc.cell_best.weighed, hcell, worth, worth, Finset.sum_pair h0u, Finset.sum_singleton] at hless
    linarith
  have hcost : t.costOf 0 + t.costOf u ≤ b - chain.cost := by
    have hle := hc.cell_best.cost_le
    rwa [hc.cell_best.cost_eq_costs, hcell, costs, Finset.sum_pair h0u] at hle
  have hcost' : t.costOf 0 + t.costOf x ≤ b - chain.cost + t.costOf u := by
    have hle := hc.last_best.cost_le
    rwa [hc.last_best.cost_eq_costs, hlast, costs, Finset.sum_pair h0x, htop] at hle
  -- so the last cell had no room for both
  by_contra hle
  have hboth := hc.last_best.best {0, u, x} (hf.closed hl (by simp) hdone) hdone (by
    rw [costs, Finset.sum_insert (by simp [h0u, h0x]), Finset.sum_pair hf.ne, htop]
    omega)
  rw [hc.last_best.weighed, hlast, worth, worth, Finset.sum_insert (by simp [h0u, h0x]),
    Finset.sum_pair hf.ne, Finset.sum_pair h0x] at hboth
  linarith

/-- If that cell refuses the chain, the parent `u` was placed right before the new node, and the cell
    of the row before accepts the chain. -/
theorem covers_of_forked (hl : t.Linked) (hs : t.Sized) (h : t.Placed done) (hv : t.Open done v)
    (hrows : t.Filled width done (previous :: rows)) (hf : t.Forked done v u w)
    (hc : t.LongChain done previous b v chain top cell first last) :
    t.Covers done v b (t.attach b ⟨chain, top.parent⟩ (previous :: rows)) := by
  by_cases href : Refuses ⟨chain, top.parent⟩ cell
  · have hlt := hc.costOf_lt_of_refuses hl hs hf hv href
    obtain ⟨-, hanchor, hnodes⟩ := hc.chain_of_forked hl hf hv.isInner
    have hstep : t.attach b ⟨chain, top.parent⟩ (previous :: rows)
        = t.attach b ⟨chain, top.parent⟩ rows :=
      attach_of_refuses (le_of_eq hanchor.symm) hc.cell_eq href
    rw [hstep]
    have hsize := hrows.head.size_eq
    rcases hf.order with rfl | rfl
    · obtain ⟨-, hrest⟩ := hrows
      cases rows with
      | nil => exact absurd hrest (by simp [Filled])
      | cons row rows =>
        have hbounds := Row.cell?_bounds hc.cell_eq
        rw [hsize, ← hrest.1.size_eq] at hbounds
        obtain ⟨cell', hcell'⟩ := row.exists_cell? hbounds.1 hbounds.2
        have hbest := hrest.1.cell hcell'
        refine hc.covers_of_accepts hl hs h hv hf hcell' hbest (List.suffix_cons u _) (by simp)
          (by simp) ?_
        rintro (⟨i, hi, hi'⟩ | hno)
        · have hold := hbest.within i hi
          have hnew : i ∈ chain.nodes := Proposal.mem_nodes.2 hi'
          rw [hnodes, Finset.mem_insert, Finset.mem_singleton] at hnew
          rcases hnew with rfl | rfl
          · exact (List.nodup_cons.1 h.nodup).1 hold
          · exact hv.notMem (List.mem_cons_of_mem _ hold)
        · rw [hanchor] at hno
          exact hno hbest.root_mem
    · -- the more expensive of the two would have been placed first
      have hfirst : t.rank u ≤ t.rank w := by
        cases h with
        | next _ _ h₁ hw hfirst =>
          cases h₁ with
          | next _ _ h₂ hu hfirst => exact hfirst w ⟨hf.inner_w, by simpa using hf.inner_w.1,
              by simp [hf.root_w]⟩
      have := costOf_le_of_rank_le hfirst
      omega
  · exact hc.covers_of_accepts hl hs h hv hf hc.cell_eq hc.cell_best (List.suffix_refl _) h.zero_mem
      (by rcases hf.order with rfl | rfl <;> simp) href

end LongChain

/-! ## Brooms -/

/-- Every node that has a sibling is a leaf. -/
def Broom (t : Tree Rat) : Prop :=
  ∀ i j c, t.IsInner i → t.IsInner j → i ≠ j → t.parentOf i = t.parentOf j → t.IsInner c →
    t.parentOf c ≠ i

/-- Two nodes of a broom are one above the other, or siblings. -/
theorem Broom.above_or_sibling (hl : t.Linked) (hbroom : t.Broom) (hv : t.IsInner v) {w : NodeId}
    (hw : t.Above 0 w) : t.Above w v ∨ t.Above v w ∨ t.parentOf w = t.parentOf v := by
  induction hw using Relation.ReflTransGen.head_induction_on with
  | refl => exact .inl (hl.above_zero hv)
  | @head w p hstep _ ih =>
    obtain ⟨hw, rfl⟩ := hstep
    have hcases : t.Above (t.parentOf w) v ∨ t.Above v (t.parentOf w) ∨
        t.IsInner (t.parentOf w) ∧ t.parentOf (t.parentOf w) = t.parentOf v := by
      rcases hl.parentOf_cases hw with hzero | hp
      · exact .inl (hzero ▸ hl.above_zero hv)
      · exact ih.imp_right fun h => h.imp_right fun h => ⟨hp, h⟩
    rcases hcases with hup | hup | ⟨hp, hsibling⟩
    · by_cases hne : t.parentOf w = v
      · exact .inr (.inl (hne ▸ above_parentOf hw))
      · obtain ⟨c, hc, hpar, hcv⟩ := hup.exists_child hne
        by_cases hcw : c = w
        · exact .inl (hcw ▸ hcv)
        · -- the siblings are leaves, so the way down to `v` ends at once
          by_cases hend : c = v
          · exact .inr (.inr (hend ▸ hpar.symm))
          · obtain ⟨d, hd, hdc, -⟩ := hcv.exists_child hend
            exact absurd hdc (hbroom c w d hc hw hcw hpar hd)
    · exact .inr (.inl (hup.trans (above_parentOf hw)))
    · by_cases hpv : t.parentOf w = v
      · exact .inr (.inl (hpv ▸ above_parentOf hw))
      · exact absurd rfl (hbroom _ v w hp hv hpv hsibling hw)

/-- In a broom, the placed nodes that are not above a new node are siblings of it. -/
theorem Broom.lineal (hl : t.Linked) (hbroom : t.Broom) (h : t.Placed done) (hv : t.Open done v) :
    t.Lineal done v := by
  intro w hw
  have hzero : t.Above 0 w := by
    by_cases hne : w = 0
    · exact hne ▸ Above.refl t 0
    · exact hl.above_zero (h.isInner hw hne)
  rcases hbroom.above_or_sibling hl hv.isInner hzero with habove | hbelow | hsibling
  · exact .inl habove
  · exact absurd (h.mem_of_above hw hbelow) hv.notMem
  · exact .inr hsibling

/-! ## The whole table -/

/-- In both kinds of trees a new node loses nothing. -/
theorem covers_of_shape (hl : t.Linked) (hs : t.Sized) (hben : t.Beneficial)
    (hshape : t.Broom ∨ t.size ≤ 4) (h : t.Placed done) (hv : t.Open done v)
    (hrows : t.Filled width done (previous :: rows)) (hb : b < width) :
    t.Covers done v b (t.extend (previous :: rows) v b) := by
  refine covers_of_longChain hl hs h hv hrows hb fun chain top cell first last hc => ?_
  by_cases hlin : t.Lineal done v
  · exact hc.covers_of_lineal hl hs hben h hv hlin
  · rcases hshape with hbroom | hsize
    · exact absurd (hbroom.lineal hl h hv) hlin
    · have hp : t.parentOf v ≠ 0 := by
        intro hzero
        have hle := hl.le_of_above hc.above_parent
        have := node?_bounds hc.node
        have := hc.isInner.1
        grind
      obtain ⟨w, hf⟩ := forked_of_not_lineal hl hsize h hv hp hlin
      exact hc.covers_of_forked hl hs h hv hrows hf

theorem exists_best_select (hl : t.Linked) (hs : t.Sized) (hben : t.Beneficial) (hne : 0 < t.size)
    (hshape : t.Broom ∨ t.size ≤ 4) (hb : 0 ≤ b) (hroom : b < 2 ^ 45) :
    ∃ p, t.select b = some p ∧ p.Best t t.priorityOrder.reverse b := by
  obtain ⟨root, hroot⟩ := exists_root hne
  obtain ⟨last, rows, hfill, hrows⟩ := hl.fill_priorityOrder hne (b.toNat + 1)
    (t.Filled (b.toNat + 1))
    (fun h hv _ hrows => rowFor_best hl hs h hv hrows fun c hc =>
      covers_of_shape hl hs hben hshape h hv hrows (by exact_mod_cast hc))
    (hl.filled_root hroot)
  have hlast := hrows.head
  obtain ⟨p, hp⟩ := last.exists_cell? (b := (b.toNat : Int)) (by omega)
    (by rw [hlast.size_eq]; omega)
  refine ⟨p, by rw [select_of_fill hroom hfill, hp], ?_⟩
  have hbest := hlast.cell hp
  rwa [Int.toNat_of_nonneg hb] at hbest

end Tree

end InlinePlan
