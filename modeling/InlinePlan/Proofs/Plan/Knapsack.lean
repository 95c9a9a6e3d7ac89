import InlinePlan.Proofs.Plan.Best

set_option autoImplicit false

/-! # Plans and the root's own calls

Over the calls that the root makes itself the table is an exact knapsack: a cell is worth at least
as much as the root with any of these calls that are placed and fit its budget together
(`Tree.Unbeaten`). The rows of deeper calls come in between, but a row changes a cell only for a
better one, and a call of the root can be added to every cell that fits, since the root is in all of
them. The benefits may have any sign.

Costs are added up in 64 bits. The cells stay within their budgets, but a climb adds the cost of a
parent before it looks whether the chain still fits; what has to stay within 64 bits is therefore
every climb (`Tree.Ascent`). -/

namespace InlinePlan

namespace Tree

variable {R : Type} {t : Tree R} {b : Int}

/-! ## Climbs in 64 bits -/

/-- A climb from `v` up to `u`, below the root, over nodes that cost `c` together. It goes on from a
    node if what it has so far fits the budget. -/
inductive Ascent (t : Tree R) (b : Int) (v : NodeId) : NodeId → Int → Prop where
  | start (hv : t.IsInner v) : Ascent t b v v (t.costOf v)
  | up {u : NodeId} {c : Int} (h : Ascent t b v u c) (hfit : c ≤ b)
      (hp : t.IsInner (t.parentOf u)) : Ascent t b v (t.parentOf u) (c + t.costOf (t.parentOf u))

/-- No method has a negative size, and neither the budget nor a climb within it leaves 64 bits. -/
structure Roomy (t : Tree R) (b : Int) : Prop where
  size_nonneg : ∀ n ∈ t.nodes.toList, 0 ≤ n.method.size
  budget_lt : b < 2 ^ 63
  ascent_lt : ∀ {v u : NodeId} {c : Int}, t.Ascent b v u c → c < 2 ^ 63

theorem costOf_lt (hsize : ∀ n ∈ t.nodes.toList, n.method.size < 2 ^ 63) (i : NodeId) :
    t.costOf i < 2 ^ 63 := by
  rcases t.costOf_cases i with h | ⟨n, hn, h⟩
  · rw [h]
    exact Int.pow_pos (by decide)
  · rw [h]
    exact hsize n hn

theorem Ascent.isInner {v u : NodeId} {c : Int} (h : t.Ascent b v u c) : t.IsInner u := by
  cases h with
  | start hv => exact hv
  | up h hfit hp => exact hp

/-- No climb leaves 64 bits if every call that makes calls itself leaves room for the budget. -/
theorem ascent_lt_of_parents (hsize : ∀ n ∈ t.nodes.toList, n.method.size < 2 ^ 63)
    (hparents : ∀ u, t.IsInner u → t.IsInner (t.parentOf u) →
      b + t.costOf (t.parentOf u) < 2 ^ 63)
    {v u : NodeId} {c : Int} (h : t.Ascent b v u c) : c < 2 ^ 63 := by
  cases h with
  | start hv => exact costOf_lt hsize v
  | up h hfit hp =>
    have := hparents _ h.isInner hp
    omega

theorem Roomy.costOf_nonneg (hr : t.Roomy b) (i : NodeId) : 0 ≤ t.costOf i :=
  Tree.costOf_nonneg hr.size_nonneg i

theorem Roomy.cost_nonneg (hr : t.Roomy b) {p : Proposal R} (hp : p.Counted t) : 0 ≤ p.cost := by
  rw [hp.cost_eq]
  exact costSum_nonneg hr.costOf_nonneg p.ids

/-- The calls that the root makes itself. -/
def rootCalls (t : Tree R) : Finset NodeId := ((t.node? 0).elim [] Node.children).toFinset

end Tree

/-! ## Cells -/

/-- A feasible proposal of placed nodes that stores what they are worth. -/
structure Proposal.Sound (t : Tree Rat) (done : List NodeId) (b : Int) (p : Proposal Rat) : Prop
    extends Proposal.Feasible t b p where
  weighed : p.Weighed t
  within : ∀ i ∈ p.ids, i ∈ done

theorem Proposal.Sound.mono {t : Tree Rat} {done : List NodeId} {b : Int} {p : Proposal Rat}
    (h : p.Sound t done b) (v : NodeId) : p.Sound t (v :: done) b :=
  ⟨h.toFeasible, h.weighed, fun i hi => List.mem_cons_of_mem v (h.within i hi)⟩

namespace Tree

/-- No choice among the root's own calls that are placed is better within a budget. -/
def Unbeaten (t : Tree Rat) (done : List NodeId) (b : Int) (p : Proposal Rat) : Prop :=
  ∀ S ⊆ t.rootCalls, (∀ i ∈ S, i ∈ done) → t.costs S ≤ b → t.worth (insert 0 S) ≤ p.benefit

variable {t : Tree Rat} {done : List NodeId} {v : NodeId} {width : Nat} {previous : Row Rat}
  {rows : List (Row Rat)} {b c : Int}

theorem Linked.mem_rootCalls_iff (hl : t.Linked) (hne : 0 < t.size) :
    v ∈ t.rootCalls ↔ t.IsInner v ∧ t.parentOf v = 0 := by
  obtain ⟨root, hroot⟩ := exists_root hne
  rw [rootCalls, hroot, Option.elim_some, List.mem_toFinset, hl.mem_children_iff hroot]

/-- The first link of a chain: the node alone. -/
theorem Roomy.climbed_start (hr : t.Roomy b) (hl : t.Linked) (previous : Row Rat) (c : Int)
    {n : Node Rat} (hv : t.IsInner v) (hn : t.node? v = some n) :
    Climbed t previous c v (Proposal.empty.insert t v) n
      ∧ t.Ascent b v n.id (Proposal.empty.insert t v : Proposal Rat).cost := by
  have hstart : t.Ascent b v v (t.costOf v) := .start hv
  have hlt := hr.ascent_lt hstart
  have h0 := hr.costOf_nonneg v
  rw [costOf_eq hn] at hlt h0
  have hcounted : (Proposal.empty.insert t v : Proposal Rat).Counted t := by
    refine (Proposal.Counted.empty t).insert_of_lt hn fun _ => ?_
    simp only [Proposal.empty, zero_add]
    exact ⟨h0, hlt⟩
  refine ⟨Tree.climbed_start hl hv hn hcounted, ?_⟩
  rw [hl.id_eq hn, (Proposal.Counted.empty t).cost_insert hcounted (by simp [Proposal.empty])]
  simpa [Proposal.empty] using hstart

/-- A longer chain: its cost is that of a climb, so it does not wrap around. -/
theorem Roomy.climbed_step (hr : t.Roomy b) (hl : t.Linked) (hc : c ≤ b)
    {chain cell : Proposal Rat} {top parent : Node Rat}
    (h : Climbed t previous c v chain top) (ha : t.Ascent b v top.id chain.cost)
    (hfit : chain.cost ≤ c) (hcell : previous.cell? (c - chain.cost) = some cell)
    (hroot : 0 ∈ cell.ids) (hmiss : top.parent ∉ cell.ids)
    (hparent : t.node? top.parent = some parent) :
    Climbed t previous c v (chain.insert t parent.id) parent
      ∧ t.Ascent b v parent.id (chain.insert t parent.id).cost := by
  have hne : top.parent ≠ 0 := fun hzero => hmiss (hzero ▸ hroot)
  have hup : t.Ascent b v top.parent (chain.cost + t.costOf top.parent) := by
    have hpar : t.parentOf top.id = top.parent := parentOf_eq h.node
    rw [← hpar]
    exact ha.up (by omega) (by rw [hpar]; exact ⟨hne, parent, hparent⟩)
  have hcounted : (chain.insert t top.parent).Counted t := by
    refine h.toCounted.insert_of_lt hparent fun _ => ?_
    have h0 := hr.cost_nonneg h.toCounted
    have hparent0 := hr.costOf_nonneg top.parent
    rw [← costOf_eq hparent]
    exact ⟨by omega, hr.ascent_lt hup⟩
  refine ⟨h.step hl hcell hmiss hne hparent hcounted, ?_⟩
  rw [hl.id_eq hparent, h.toCounted.cost_insert hcounted (h.parent_notMem hl)]
  exact hup

/-- Extending the table by a node yields nothing or a sound proposal. -/
theorem Roomy.extend_sound (hr : t.Roomy b) (hl : t.Linked) (h : t.Placed done)
    (hv : t.Open done v)
    (hrows : ∀ row ∈ previous :: rows, Row.Holds width (Proposal.Sound t done) row)
    (hc : c ≤ b) (hwidth : c < width) :
    t.extend (previous :: rows) v c = .nothing ∨
    ∃ p, t.extend (previous :: rows) v c = .found p ∧ p.Sound t (v :: done) c := by
  obtain ⟨n, hn⟩ := hv.isInner.2
  have hprev := hrows previous List.mem_cons_self
  have hextend := extend_spec hl (fun row hrow => (hrows row hrow).size_eq) hwidth
    (fun chain top => Climbed t previous c v chain top ∧ t.Ascent b v top.id chain.cost)
    (fun hI => hr.cost_nonneg hI.1.toCounted)
    (fun hI => ⟨hI.1.node, hI.1.isInner.1⟩)
    (fun hI hfit hcell hmiss hparent =>
      hr.climbed_step hl hc hI.1 hI.2 hfit hcell (hprev.cell hcell).root_mem hmiss hparent)
    hn (hr.climbed_start hl previous c hv.isInner hn)
  rcases hextend with hnothing | ⟨chain, top, ⟨hclimb, -⟩, -, row, hrow, cell, hcell, hacc, heq⟩
  · exact .inl hnothing
  · have hsound := (hrows row hrow).cell hcell
    have hle := hsound.cost_le
    -- the chain and the cell share the budget, so their sum cannot wrap around
    have hjoin : (cell.insertAll t chain.ids).Counted t := by
      refine hsound.toCounted.insertAll_of_lt hr.costOf_nonneg hclimb.inTree ?_
      have hlt := hr.budget_lt
      rw [← hclimb.cost_eq]
      omega
    have hfeas := feasible_attach ⟨chain, top.parent⟩ hclimb.toBranch hsound.toFeasible hjoin hacc
    have hfit := hfeas.cost_le
    rw [heq, if_neg (by dsimp only at hfit; omega)]
    refine .inr ⟨_, rfl, hfeas, hsound.weighed.insertAll hclimb.inTree, ?_⟩
    intro i hi
    rcases Proposal.mem_insertAll.1 hi with hi | hi
    · exact List.mem_cons.2 (mem_of_above h hv (hclimb.above i hi))
    · exact List.mem_cons_of_mem _ (hsound.within i hi)

/-- A call of the root is added to the previous row's cell for what is left of the budget. -/
theorem Roomy.extend_rootCall (hr : t.Roomy b) (hl : t.Linked) (rows : List (Row Rat))
    (hv : t.Open done v)
    (hparent : t.parentOf v = 0) (hc : c ≤ b) {cell : Proposal Rat}
    (hcell : previous.cell? (c - t.costOf v) = some cell)
    (hsound : cell.Sound t done (c - t.costOf v)) :
    ∃ p, t.extend (previous :: rows) v c = .found p ∧ p.benefit = cell.benefit + t.benefitOf v := by
  obtain ⟨n, hn⟩ := hv.isInner.2
  rw [parentOf_eq hn] at hparent
  have hclimb := (hr.climbed_start hl previous c hv.isInner hn).1
  have hids : (Proposal.empty.insert t v : Proposal Rat).ids = [v] := Proposal.ids_single hn
  have hcost : (Proposal.empty.insert t v : Proposal Rat).cost = t.costOf v := by
    rw [hclimb.cost_eq, hids]
    simp
  have hnot : v ∉ cell.ids := fun hmem => hv.notMem (hsound.within v hmem)
  have hle := hsound.cost_le
  -- the root is in the cell, so the climb ends at once
  have hfound : t.climb previous c t.size (Proposal.empty.insert t v) n
      = .found ⟨Proposal.empty.insert t v, n.parent⟩ := by
    have hsize : t.size = t.size - 1 + 1 := by
      have := node?_bounds hn
      grind
    have h0 := (Row.cell?_bounds hcell).1
    rw [hsize]
    refine climb_of_mem (by omega) (by rw [hcost]; exact hcell) (by rw [hparent]) ?_
    rw [hparent]
    exact hsound.root_mem
  have hacc : ¬ Refuses ⟨Proposal.empty.insert t v, n.parent⟩ cell := by
    rintro (⟨i, hi, hi'⟩ | hno)
    · dsimp only at hi'
      rw [hids, List.mem_singleton] at hi'
      exact hnot (hi' ▸ hi)
    · exact hno (by rw [hparent]; exact hsound.root_mem)
  have hjoin : (cell.insert t v).Counted t := by
    refine hsound.toCounted.insert_of_lt hn fun _ => ?_
    have h0 := hr.cost_nonneg hsound.toCounted
    have hv0 := hr.costOf_nonneg v
    have hlt := hr.budget_lt
    rw [← costOf_eq hn]
    omega
  refine ⟨cell.insert t v, ?_, by rw [Proposal.benefit_insert hn hnot, benefitOf_eq hn]⟩
  rw [extend_of_found hn hfound,
    attach_of_accepts (by rw [hparent]) (by rw [hcost]; exact hcell) hacc]
  dsimp only
  have hfit := hsound.toCounted.cost_insert hjoin hnot
  rw [hids]
  exact if_neg (by show ¬ c < (cell.insert t v).cost; omega)

/-! ## Rows -/

/-- A new cell is sound, and neither the cell above nor the extension is better. -/
theorem cellFor_sound {above : Proposal Rat} {budget : Nat} (habove : above.Sound t done budget)
    (hext : t.extend rows v budget = .nothing ∨
      ∃ p, t.extend rows v budget = .found p ∧ p.Sound t (v :: done) budget) :
    ∃ q, t.cellFor rows v above budget = some q ∧ q.Sound t (v :: done) budget
      ∧ above.benefit ≤ q.benefit
      ∧ ∀ p, t.extend rows v budget = .found p → p.benefit ≤ q.benefit := by
  unfold cellFor
  rcases hext with hnothing | ⟨p, hfound, hp⟩
  · rw [hnothing]
    exact ⟨above, rfl, habove.mono v, le_refl _, fun p hp => by cases hp⟩
  · rw [hfound]
    dsimp only
    by_cases hlt : above.benefit < p.benefit
    · rw [if_pos (scale_lt_iff.2 hlt)]
      refine ⟨p, rfl, hp, le_of_lt hlt, ?_⟩
      rintro _ ⟨⟩
      exact le_refl _
    · rw [if_neg fun h => hlt (scale_lt_iff.1 h)]
      refine ⟨above, rfl, habove.mono v, le_refl _, ?_⟩
      rintro _ ⟨⟩
      exact not_lt.1 hlt

/-- Nothing that the root can do with the new node as well is better than the new cell. -/
theorem unbeaten_cons {above q : Proposal Rat} {budget : Int} (hl : t.Linked) (hne : 0 < t.size)
    (habove : t.Unbeaten done budget above) (hq : above.benefit ≤ q.benefit)
    (hcall : t.parentOf v = 0 → t.costOf v ≤ budget →
      ∃ cell : Proposal Rat, t.Unbeaten done (budget - t.costOf v) cell
        ∧ cell.benefit + t.benefitOf v ≤ q.benefit)
    (hcost : ∀ i, 0 ≤ t.costOf i) : t.Unbeaten (v :: done) budget q := by
  intro S hS hdone hfit
  by_cases hv : v ∈ S
  -- without the new node, the choice is no better than the cell that the node is added to
  · obtain ⟨hinner, hparent⟩ := (hl.mem_rootCalls_iff hne).1 (hS hv)
    have hrest : ∀ i ∈ S.erase v, i ∈ done := by
      intro i hi
      obtain ⟨hiv, hi⟩ := Finset.mem_erase.1 hi
      exact (List.mem_cons.1 (hdone i hi)).resolve_left hiv
    have hcosts : t.costs (S.erase v) = t.costs S - t.costOf v := costs_erase hv
    have h0 : 0 ≤ t.costs (S.erase v) := Finset.sum_nonneg fun i _ => hcost i
    obtain ⟨cell, hcell, hle⟩ := hcall hparent (by omega)
    have hworth : t.worth (insert 0 S) = t.worth (insert 0 (S.erase v)) + t.benefitOf v := by
      rw [worth_erase (Finset.mem_insert_of_mem hv), Finset.erase_insert_of_ne hinner.1.symm]
    have hless := hcell _ ((Finset.erase_subset v S).trans hS) hrest (by omega)
    rw [hworth]
    linarith
  · exact le_trans (habove S hS (mem_done_of_notMem hdone hv) hfit) hq

/-- A row and those before it are sound, and no choice of the root's own calls is better than its
    cells. -/
def UnbeatenRows (t : Tree Rat) (width : Nat) (done : List NodeId) (rows : List (Row Rat)) : Prop :=
  (∀ row ∈ rows, Row.Holds width (Proposal.Sound t done) row)
    ∧ ∀ row ∈ rows.head?, Row.Holds width (t.Unbeaten done) row

/-- The row of a node keeps the table unbeaten. -/
theorem Roomy.rowFor_unbeaten (hr : t.Roomy b) (hl : t.Linked) (hne : 0 < t.size)
    (h : t.Placed done) (hv : t.Open done v) (hwidth : width ≤ b + 1)
    (hrows : t.UnbeatenRows width done (previous :: rows)) :
    ∃ row, t.rowFor (previous :: rows) v previous = some row
      ∧ t.UnbeatenRows width (v :: done) (row :: previous :: rows) := by
  obtain ⟨hsound, hunbeaten⟩ := hrows
  have hprev := hsound previous List.mem_cons_self
  have hbar := hunbeaten previous rfl
  have hcell : ∀ (k : Nat) (above : Proposal Rat), k < width → previous.cell? k = some above →
      ∃ q, t.cellFor (previous :: rows) v above k = some q
        ∧ q.Sound t (v :: done) k ∧ t.Unbeaten (v :: done) k q := by
    intro k above hlt habove
    obtain ⟨q, hq, hqs, hge, hbest⟩ := cellFor_sound (hprev.cell habove)
      (hr.extend_sound hl h hv hsound (c := k) (by omega) (by omega))
    refine ⟨q, hq, hqs, ?_⟩
    refine unbeaten_cons hl hne (hbar.cell habove) hge (fun hparent hfit => ?_) hr.costOf_nonneg
    have hv0 := hr.costOf_nonneg v
    obtain ⟨cell, hcell⟩ := previous.exists_cell? (b := k - t.costOf v) (by omega)
      (by rw [hprev.size_eq]; omega)
    obtain ⟨p, hp, hbenefit⟩ := hr.extend_rootCall hl rows (c := k) hv hparent (by omega) hcell
      (hprev.cell hcell)
    exact ⟨cell, hbar.cell hcell, hbenefit ▸ hbest p hp⟩
  obtain ⟨row, hrow, hholds⟩ := rowFor_holds
    (P := fun c p => p.Sound t (v :: done) c ∧ t.Unbeaten (v :: done) c p) hprev.size_eq hcell
  refine ⟨row, hrow, ?_, ?_⟩
  · intro r hmem
    rcases List.mem_cons.1 hmem with rfl | hmem
    · exact ⟨hholds.size_eq, fun hp => (hholds.cell hp).1⟩
    · exact ⟨(hsound r hmem).size_eq, fun hp => ((hsound r hmem).cell hp).mono v⟩
  · rintro r ⟨⟩
    exact ⟨hholds.size_eq, fun hp => (hholds.cell hp).2⟩

/-- Of the root alone there is only one choice, that of none of its calls. -/
theorem Linked.unbeatenRows_root (hl : t.Linked) (hne : 0 < t.size) :
    t.UnbeatenRows width [0] [Array.replicate width (Proposal.empty.insert t 0)] := by
  obtain ⟨root, hroot⟩ := exists_root hne
  have hweighed : (Proposal.empty.insert t 0 : Proposal Rat).Weighed t :=
    (Proposal.Weighed.empty t).insert hroot
  have hids : (Proposal.empty.insert t 0 : Proposal Rat).ids = [0] := Proposal.ids_single hroot
  constructor
  · intro row hrow
    rw [List.mem_singleton.1 hrow]
    refine ⟨Array.size_replicate, fun hp => ?_⟩
    rw [Row.cell?_replicate hp]
    exact ⟨hl.feasible_root hroot (Row.cell?_bounds hp).1, hweighed, by simp [hids]⟩
  · rintro row ⟨⟩
    refine ⟨Array.size_replicate, fun hp S hS hdone _ => ?_⟩
    rw [Row.cell?_replicate hp, hweighed, Proposal.nodes, hids]
    have hempty : S = ∅ := by
      refine Finset.eq_empty_of_forall_notMem fun i hi => ?_
      exact ((hl.mem_rootCalls_iff hne).1 (hS hi)).1.1 (List.mem_singleton.1 (hdone i hi))
    rw [hempty]
    exact le_refl _

/-! ## The plan -/

/-- The plan is feasible, and no choice of the root's own calls within the budget is better. -/
theorem Roomy.exists_select (hr : t.Roomy b) (hl : t.Linked) (hne : 0 < t.size) (hb : 0 ≤ b)
    (hroom : b < 2 ^ 45) :
    ∃ p, t.select b = some p ∧ p.Feasible t b ∧ p.Weighed t
      ∧ ∀ S ⊆ t.rootCalls, t.costs S ≤ b → t.worth (insert 0 S) ≤ p.benefit := by
  obtain ⟨last, rows, hfill, hsound, hunbeaten⟩ := hl.fill_priorityOrder hne (b.toNat + 1)
    (t.UnbeatenRows (b.toNat + 1))
    (fun h hv _ hrows => hr.rowFor_unbeaten hl hne h hv (by omega) hrows) (hl.unbeatenRows_root hne)
  have hlast := hsound last List.mem_cons_self
  obtain ⟨p, hp⟩ := last.exists_cell? (b := (b.toNat : Int)) (by omega)
    (by rw [hlast.size_eq]; omega)
  have hcell := hlast.cell hp
  have hbar := (hunbeaten last rfl).cell hp
  rw [Int.toNat_of_nonneg hb] at hcell hbar
  refine ⟨p, by rw [select_of_fill hroom hfill, hp], hcell.toFeasible, hcell.weighed, ?_⟩
  intro S hS hfit
  refine hbar S hS (fun i hi => ?_) hfit
  exact (hl.placed_priorityOrder hne).2 i ((hl.mem_rootCalls_iff hne).1 (hS hi)).1.2

/-- If there are no other calls than the root's own, the plan is one of the choices among them. -/
theorem Linked.choice_of_flat (hl : t.Linked) (hne : 0 < t.size)
    (hflat : ∀ v, t.IsInner v → v ∈ t.rootCalls) {p : Proposal Rat} (hp : p.Feasible t b)
    (hweighed : p.Weighed t) :
    ∃ S ⊆ t.rootCalls, t.costs S ≤ b ∧ p.benefit = t.worth (insert 0 S) := by
  obtain ⟨root, hroot⟩ := exists_root hne
  have hclosed := hp.closed_nodes
  refine ⟨p.nodes.erase 0, fun i hi => ?_, ?_, ?_⟩
  · obtain ⟨hzero, hi⟩ := Finset.mem_erase.1 hi
    exact hflat i (hclosed.isInner hi hzero)
  · have hcost : t.costOf 0 = 0 := by
      rw [costOf_eq hroot]
      simp [Node.cost, Node.isRoot, hl.parent_root hroot]
    rw [costs_erase hclosed.root_mem, hcost, sub_zero, ← hp.cost_eq_costs]
    exact hp.cost_le
  · rw [Finset.insert_erase hclosed.root_mem, hweighed]

end Tree

/-- If no climb leaves 64 bits, the plan for a budget that rows have room for is feasible and at least
    as good as the root with any of its own calls that fit the budget together; if the root makes all
    calls, the plan is the best of these choices. Sizes are not negative, and benefits and ratios are of
    any sign. -/
theorem select_ge_rootCalls {t : Tree Rat} (hbuilt : t.Built) (hne : 0 < t.size)
    (hsize : ∀ n ∈ t.nodes.toList, 0 ≤ n.method.size ∧ n.method.size < 2 ^ 63) {b : Int}
    (h0 : 0 ≤ b) (hb : b < 2 ^ 45) :
    ((∀ v u c, t.Ascent b v u c → c < 2 ^ 63) →
      ∃ p, t.select b = some p ∧ p.Feasible t b ∧ p.Weighed t
        ∧ ∀ S ⊆ t.rootCalls, t.costs S ≤ b → t.worth (insert 0 S) ≤ p.benefit)
    ∧ ((∀ v, t.IsInner v → v ∈ t.rootCalls) →
      ∃ p, t.select b = some p
        ∧ (∃ S ⊆ t.rootCalls, t.costs S ≤ b ∧ p.benefit = t.worth (insert 0 S))
        ∧ ∀ S ⊆ t.rootCalls, t.costs S ≤ b → t.worth (insert 0 S) ≤ p.benefit) := by
  have hl := hbuilt.linked
  have hroomy (hascent : ∀ v u c, t.Ascent b v u c → c < 2 ^ 63) : t.Roomy b :=
    ⟨fun n hn => (hsize n hn).1, by omega, fun h => hascent _ _ _ h⟩
  constructor
  · intro hascent
    exact (hroomy hascent).exists_select hl hne h0 hb
  · intro hflat
    have hascent : ∀ v u c, t.Ascent b v u c → c < 2 ^ 63 := by
      intro v u c
      refine Tree.ascent_lt_of_parents (fun n hn => (hsize n hn).2) fun w hw hparent => ?_
      exact absurd ((hl.mem_rootCalls_iff hne).1 (hflat w hw)).2 hparent.1
    obtain ⟨p, hselect, hfeas, hweighed, hbest⟩ := (hroomy hascent).exists_select hl hne h0 hb
    exact ⟨p, hselect, hl.choice_of_flat hne hflat hfeas hweighed, hbest⟩

/-- Calls of the root, one of them as large as can be, and below another one a call so large that
    all costs together leave 64 bits. -/
def broadCalls : List (NodeId × Call Rat) :=
  [(noNode, plainCall 40 2), (0, plainCall 6 5), (0, plainCall 3 4),
    (0, plainCall (2 ^ 63 - 1) 9), (1, plainCall (2 ^ 62) 8)]

def broadTree : Tree Rat := (Tree.addAll {} broadCalls).toOption.getD {}

/-- Calls of the root, with one that does harm. -/
def flatCalls : List (NodeId × Call Rat) :=
  [(noNode, plainCall 40 2), (0, plainCall 6 5), (0, plainCall 0 (-4)), (0, plainCall 3 4)]

def flatTree : Tree Rat := (Tree.addAll {} flatCalls).toOption.getD {}

theorem select_ge_rootCalls_samples :
    (broadTree.Built ∧ 0 < broadTree.size
      ∧ (∀ n ∈ broadTree.nodes.toList, 0 ≤ n.method.size ∧ n.method.size < 2 ^ 63)
      ∧ (∀ v u c, broadTree.Ascent 9 v u c → c < 2 ^ 63)
      ∧ ∃ p, broadTree.select 9 = some p ∧ p.Feasible broadTree 9 ∧ p.Weighed broadTree
        ∧ ∀ S ⊆ broadTree.rootCalls, broadTree.costs S ≤ 9 →
          broadTree.worth (insert 0 S) ≤ p.benefit)
    ∧ flatTree.Built ∧ 0 < flatTree.size
      ∧ (∀ n ∈ flatTree.nodes.toList, 0 ≤ n.method.size ∧ n.method.size < 2 ^ 63)
      ∧ (∀ v, flatTree.IsInner v → v ∈ flatTree.rootCalls)
      ∧ ∃ p, flatTree.select 8 = some p
        ∧ (∃ S ⊆ flatTree.rootCalls, flatTree.costs S ≤ 8 ∧ p.benefit = flatTree.worth (insert 0 S))
        ∧ ∀ S ⊆ flatTree.rootCalls, flatTree.costs S ≤ 8 →
          flatTree.worth (insert 0 S) ≤ p.benefit := by
  have hbroad : broadTree.Built := Tree.Built.empty.addAll broadCalls (by rfl)
  have hbroad0 : 0 < broadTree.size := by decide
  have hbroads : ∀ n ∈ broadTree.nodes.toList, 0 ≤ n.method.size ∧ n.method.size < 2 ^ 63 := by
    decide
  have hascent : ∀ v u c, broadTree.Ascent 9 v u c → c < 2 ^ 63 := by
    intro v u c
    have hparents : ∀ u ∈ broadTree.allIds, broadTree.parentOf u ≠ 0 →
        9 + broadTree.costOf (broadTree.parentOf u) < 2 ^ 63 := by decide
    refine Tree.ascent_lt_of_parents (fun n hn => (hbroads n hn).2) fun u hu hp => ?_
    obtain ⟨n, hn⟩ := hu.2
    exact hparents u (Tree.mem_allIds.2 (Tree.node?_bounds hn)) hp.1
  have hflat : flatTree.Built := Tree.Built.empty.addAll flatCalls (by rfl)
  have hflat0 : 0 < flatTree.size := by decide
  have hflats : ∀ n ∈ flatTree.nodes.toList, 0 ≤ n.method.size ∧ n.method.size < 2 ^ 63 := by
    decide
  have hcalls : ∀ v, flatTree.IsInner v → v ∈ flatTree.rootCalls := by
    have hall : ∀ v ∈ flatTree.allIds, v ≠ 0 → v ∈ flatTree.rootCalls := by decide
    rintro v ⟨hne, n, hn⟩
    exact hall v (Tree.mem_allIds.2 (Tree.node?_bounds hn)) hne
  exact ⟨⟨hbroad, hbroad0, hbroads, hascent,
      (select_ge_rootCalls hbroad hbroad0 hbroads (by decide) (by decide)).1 hascent⟩,
    hflat, hflat0, hflats, hcalls,
    (select_ge_rootCalls hflat hflat0 hflats (by decide) (by decide)).2 hcalls⟩

/-- A call as large as can be, with a call below it. -/
def cliffCalls : List (NodeId × Call Rat) :=
  [(noNode, plainCall 1 0), (0, plainCall (2 ^ 63 - 1) 0), (1, plainCall 1 0)]

def cliffTree : Tree Rat := (Tree.addAll {} cliffCalls).toOption.getD {}

/-- Below a call that is too large a climb can wrap around, and there is no plan at all. -/
theorem select_wraps :
    cliffTree.Built ∧ 0 < cliffTree.size
      ∧ (∀ n ∈ cliffTree.nodes.toList, 0 ≤ n.method.size ∧ n.method.size < 2 ^ 63)
      ∧ ¬∃ p, cliffTree.select 1 = some p
        ∧ ∀ S ⊆ cliffTree.rootCalls, cliffTree.costs S ≤ 1 →
          cliffTree.worth (insert 0 S) ≤ p.benefit := by
  have hselect : (cliffTree.select 1).isNone = true := by decide +kernel
  refine ⟨Tree.Built.empty.addAll cliffCalls (by rfl), by decide, by decide, ?_⟩
  rintro ⟨p, hp, -⟩
  rw [hp] at hselect
  cases hselect

end InlinePlan
