import InlinePlan.Proofs.Plan.Best

set_option autoImplicit false

/-! # Trees within trees

A small tree can stand in a large one: its root at the end of a path from the large root that costs
nothing, its other nodes below. If whatever else the large tree has is too expensive for the budget,
the table of the large tree is that of the small one with rows that are repeated, and so the plans
agree (`Tree.Embeds.select_alike`). -/

namespace InlinePlan

open Finset

namespace Tree

/-- How the shape of `s` is found in that of `t`: node `i` of `s` is node `f i` of `t`. -/
structure Occurs (s t : Tree Rat) (f : NodeId → NodeId) : Prop where
  root' : ∃ n, t.node? (f 0) = some n
  injective : ∀ {i j : NodeId}, (∃ n, s.node? i = some n) → (∃ n, s.node? j = some n) →
    f i = f j → i = j
  inner : ∀ {i : NodeId}, s.IsInner i → t.IsInner (f i)
  parent : ∀ {i : NodeId}, s.IsInner i → t.parentOf (f i) = f (s.parentOf i)

/-- How the tree `s` stands in the tree `t`. The nodes on the path down to `f 0` cost nothing and are
    worth something, so that every plan has them. No two nodes of `s` cost the same, so that the
    numbers of the nodes do not matter. -/
structure Embeds (s t : Tree Rat) (f : NodeId → NodeId) (path : Finset NodeId) (b : Int) : Prop
    extends Occurs s t f where
  linked : s.Linked
  sized : s.Sized
  root : ∃ n, s.node? 0 = some n
  linked' : t.Linked
  sized' : t.Sized
  cost : ∀ {i : NodeId}, s.IsInner i → t.costOf (f i) = s.costOf i
  benefit : ∀ {i : NodeId}, s.IsInner i → t.benefitOf (f i) = s.benefitOf i
  distinct : ∀ {i j : NodeId}, s.IsInner i → s.IsInner j → s.costOf i = s.costOf j → i = j
  mem_path : ∀ {x : NodeId}, x ∈ path ↔ t.Above x (f 0)
  path_cost : ∀ {x : NodeId}, x ∈ path → t.costOf x = 0
  path_benefit : ∀ {x : NodeId}, x ∈ path → x ≠ 0 → 0 < t.benefitOf x
  expensive : ∀ {x : NodeId}, t.IsInner x → x ∉ path → (∀ i, s.IsInner i → x ≠ f i) →
    b < t.costOf x

variable {s t : Tree Rat} {f : NodeId → NodeId} {path : Finset NodeId} {b : Int}

theorem Linked.costOf_zero (hl : t.Linked) : t.costOf 0 = 0 := by
  unfold costOf
  cases hn : t.node? 0 with
  | none => rfl
  | some n => simp [Node.cost, Node.isRoot, hl.parent_root hn]

namespace Occurs

theorem above (h : Occurs s t f) {a v : NodeId} (hav : s.Above a v) : t.Above (f a) (f v) := by
  induction hav with
  | refl => exact Above.refl t _
  | tail _ hstep ih =>
    obtain ⟨hinner, rfl⟩ := hstep
    rw [← h.parent hinner]
    exact (above_parentOf (h.inner hinner)).trans ih

/-- The node of the small root is above the others. -/
theorem above_root (h : Occurs s t f) (hs : s.Linked) {i : NodeId} (hi : ∃ n, s.node? i = some n) :
    t.Above (f 0) (f i) := by
  by_cases hne : i = 0
  · exact hne ▸ Above.refl t _
  · exact h.above (hs.above_zero ⟨hne, hi⟩)

/-- The other nodes are not above that of the small root. -/
theorem not_above (h : Occurs s t f) (hs : s.Linked) (hl : t.Linked)
    (hroot : ∃ n, s.node? 0 = some n) {i : NodeId} (hi : s.IsInner i) : ¬t.Above (f i) (f 0) := by
  intro habove
  have hle := hl.le_of_above habove
  have hge := hl.le_of_above (h.above_root hs hi.2)
  exact hi.1 (h.injective hi.2 hroot (le_antisymm hle hge))

end Occurs

namespace Embeds

/-! ## Sets of nodes -/

/-- A set of nodes of the small tree, in the large one. -/
def lift (f : NodeId → NodeId) (path S : Finset NodeId) : Finset NodeId := path ∪ S.image f

theorem notMem_path (he : Embeds s t f path b) {i : NodeId} (hi : s.IsInner i) : f i ∉ path :=
  fun hmem => he.not_above he.linked he.linked' he.root hi (he.mem_path.1 hmem)

theorem root_mem_path (he : Embeds s t f path b) : f 0 ∈ path := he.mem_path.2 (Above.refl t _)

theorem zero_mem_path (he : Embeds s t f path b) : 0 ∈ path := by
  refine he.mem_path.2 ?_
  by_cases hne : f 0 = 0
  · rw [hne]
    exact Above.refl t 0
  · exact he.linked'.above_zero ⟨hne, he.root'⟩

theorem inTree_path (he : Embeds s t f path b) {x : NodeId} (hx : x ∈ path) :
    ∃ n, t.node? x = some n :=
  he.linked'.inTree_of_above (he.mem_path.1 hx) he.root'

theorem closed_path (he : Embeds s t f path b) : t.Closed path where
  root_mem := he.zero_mem_path
  inTree := fun _ hx => he.inTree_path hx
  parent_mem := by
    intro x hx hne
    have hinner : t.IsInner x := ⟨hne, he.inTree_path hx⟩
    exact he.mem_path.2 ((above_parentOf hinner).trans (he.mem_path.1 hx))

theorem mem_lift (he : Embeds s t f path b) {S : Finset NodeId} (h0 : 0 ∈ S)
    (hS : ∀ i ∈ S, ∃ n, s.node? i = some n) {i : NodeId} (hi : ∃ n, s.node? i = some n) :
    f i ∈ lift f path S ↔ i ∈ S := by
  rw [lift, mem_union, mem_image]
  constructor
  · rintro (hpath | ⟨j, hj, heq⟩)
    · by_cases hne : i = 0
      · exact hne ▸ h0
      · exact absurd hpath (he.notMem_path ⟨hne, hi⟩)
    · rwa [← he.injective (hS j hj) hi heq]
  · exact fun h => .inr ⟨i, h, rfl⟩

/-- The path and the nodes below it. -/
theorem lift_eq (he : Embeds s t f path b) {S : Finset NodeId} :
    lift f path S = path ∪ (S.erase 0).image f := by
  ext x
  simp only [lift, mem_union, mem_image, mem_erase]
  constructor
  · rintro (hx | ⟨i, hi, rfl⟩)
    · exact .inl hx
    · by_cases hne : i = 0
      · exact .inl (hne ▸ he.root_mem_path)
      · exact .inr ⟨i, ⟨hne, hi⟩, rfl⟩
  · rintro (hx | ⟨i, ⟨-, hi⟩, rfl⟩)
    · exact .inl hx
    · exact .inr ⟨i, hi, rfl⟩

/-- A sum over a lifted set, if the nodes below the path count as much as in the small tree. -/
theorem sum_lift {M : Type} [AddCommMonoid M] (he : Embeds s t f path b) {S : Finset NodeId}
    (hS : ∀ i ∈ S, ∃ n, s.node? i = some n) {g g' : NodeId → M}
    (hg : ∀ i, s.IsInner i → g' (f i) = g i) :
    ∑ x ∈ lift f path S, g' x = ∑ x ∈ path, g' x + ∑ i ∈ S.erase 0, g i := by
  have hinner : ∀ i ∈ S.erase 0, s.IsInner i := fun i hi =>
    ⟨(mem_erase.1 hi).1, hS i (mem_of_mem_erase hi)⟩
  have hdisjoint : Disjoint path ((S.erase 0).image f) := by
    refine Finset.disjoint_right.2 fun x hx => ?_
    obtain ⟨i, hi, rfl⟩ := mem_image.1 hx
    exact he.notMem_path (hinner i hi)
  rw [he.lift_eq, sum_union hdisjoint, sum_image]
  · exact congrArg _ (sum_congr rfl fun i hi => hg i (hinner i hi))
  · intro i hi j hj heq
    exact he.injective (hinner i hi).2 (hinner j hj).2 heq

theorem costs_lift (he : Embeds s t f path b) {S : Finset NodeId} (h0 : 0 ∈ S)
    (hS : ∀ i ∈ S, ∃ n, s.node? i = some n) : t.costs (lift f path S) = s.costs S := by
  have hpath : ∑ x ∈ path, t.costOf x = 0 := sum_eq_zero fun x hx => he.path_cost hx
  rw [costs, he.sum_lift hS fun i hi => he.cost hi, hpath, zero_add, costs,
    ← add_sum_erase S s.costOf h0, he.linked.costOf_zero, zero_add]

theorem worth_lift (he : Embeds s t f path b) {S : Finset NodeId} (h0 : 0 ∈ S)
    (hS : ∀ i ∈ S, ∃ n, s.node? i = some n) :
    t.worth (lift f path S) = s.worth S + (t.worth path - s.benefitOf 0) := by
  rw [worth, he.sum_lift hS fun i hi => he.benefit hi, worth, worth,
    ← add_sum_erase S s.benefitOf h0]
  ring

theorem closed_lift (he : Embeds s t f path b) {S : Finset NodeId} (hS : s.Closed S) :
    t.Closed (lift f path S) where
  root_mem := mem_union.2 (.inl he.zero_mem_path)
  inTree := by
    intro x hx
    rcases mem_union.1 hx with hx | hx
    · exact he.inTree_path hx
    · obtain ⟨i, hi, rfl⟩ := mem_image.1 hx
      by_cases hne : i = 0
      · exact hne ▸ he.root'
      · exact (he.inner (hS.isInner hi hne)).2
  parent_mem := by
    intro x hx hne
    rcases mem_union.1 hx with hx | hx
    · exact mem_union.2 (.inl (he.closed_path.parent_mem x hx hne))
    · obtain ⟨i, hi, rfl⟩ := mem_image.1 hx
      by_cases hzero : i = 0
      · subst hzero
        exact mem_union.2 (.inl (he.closed_path.parent_mem _ he.root_mem_path hne))
      · rw [he.parent (hS.isInner hi hzero)]
        exact mem_union.2 (.inr (mem_image_of_mem f (hS.parent_mem i hi hzero)))

/-! ## Proposals and chains -/

/-- Proposals for the two trees with the same nodes below the path. -/
structure Alike (s t : Tree Rat) (f : NodeId → NodeId) (path : Finset NodeId)
    (p q : Proposal Rat) : Prop where
  counted : p.Counted s
  weighed : p.Weighed s
  root_mem : 0 ∈ p.ids
  counted' : q.Counted t
  weighed' : q.Weighed t
  nodes_eq : q.nodes = lift f path p.nodes

/-- Chains of the two trees with the same nodes. -/
structure AlikeChain (s t : Tree Rat) (f : NodeId → NodeId) (c d : Proposal Rat) : Prop where
  counted : c.Counted s
  inner : ∀ i ∈ c.ids, s.IsInner i
  counted' : d.Counted t
  nodes_eq : d.nodes = c.nodes.image f

variable {p q c d : Proposal Rat} {i a : NodeId}

theorem cost_eq (he : Embeds s t f path b) (h : Alike s t f path p q) : q.cost = p.cost := by
  rw [h.counted'.cost_eq_costs, h.counted.cost_eq_costs, h.nodes_eq]
  exact he.costs_lift (Proposal.mem_nodes.2 h.root_mem) fun i hi =>
    h.counted.inTree i (Proposal.mem_nodes.1 hi)

theorem benefit_eq (he : Embeds s t f path b) (h : Alike s t f path p q) :
    q.benefit = p.benefit + (t.worth path - s.benefitOf 0) := by
  rw [h.weighed', h.weighed, h.nodes_eq]
  exact he.worth_lift (Proposal.mem_nodes.2 h.root_mem) fun i hi =>
    h.counted.inTree i (Proposal.mem_nodes.1 hi)

theorem mem_iff (he : Embeds s t f path b) (h : Alike s t f path p q)
    (hi : ∃ n, s.node? i = some n) : f i ∈ q.ids ↔ i ∈ p.ids := by
  rw [← Proposal.mem_nodes, h.nodes_eq, ← Proposal.mem_nodes]
  exact he.mem_lift (Proposal.mem_nodes.2 h.root_mem)
    (fun i hi => h.counted.inTree i (Proposal.mem_nodes.1 hi)) hi

theorem chain_cost_eq (he : Embeds s t f path b) (h : AlikeChain s t f c d) :
    d.cost = c.cost := by
  rw [h.counted'.cost_eq_costs, h.counted.cost_eq_costs, h.nodes_eq, costs, costs, sum_image]
  · exact sum_congr rfl fun i hi => he.cost (h.inner i (Proposal.mem_nodes.1 hi))
  · intro i hi j hj heq
    exact he.injective (h.inner i (Proposal.mem_nodes.1 hi)).2
      (h.inner j (Proposal.mem_nodes.1 hj)).2 heq

theorem chain_cost_nonneg (he : Embeds s t f path b) (h : AlikeChain s t f c d) : 0 ≤ c.cost := by
  rw [h.counted.cost_eq]
  exact he.sized.costSum_nonneg _

theorem chain_insert (he : Embeds s t f path b) (h : AlikeChain s t f c d) (hi : s.IsInner i) :
    AlikeChain s t f (c.insert s i) (d.insert t (f i)) := by
  obtain ⟨n, hn⟩ := hi.2
  obtain ⟨m, hm⟩ := (he.inner hi).2
  refine ⟨h.counted.insert he.sized hn, ?_, h.counted'.insert he.sized' hm, ?_⟩
  · intro j hj
    rcases Proposal.mem_insert.1 hj with rfl | hj
    · exact hi
    · exact h.inner j hj
  · ext x
    have hx : x ∈ d.nodes ↔ x ∈ c.nodes.image f := by rw [h.nodes_eq]
    simp only [Proposal.mem_nodes, mem_image] at hx
    simp only [Proposal.mem_nodes, Proposal.mem_insert, mem_image, hx]
    grind

/-- Alike cells refuse alike chains, or neither does. -/
theorem refuses_iff (he : Embeds s t f path b) (h : Alike s t f path p q)
    (hc : AlikeChain s t f c d) (ha : ∃ n, s.node? a = some n) :
    Refuses ⟨d, f a⟩ q ↔ Refuses ⟨c, a⟩ p := by
  refine or_congr ⟨?_, ?_⟩ (not_congr (he.mem_iff h ha))
  · rintro ⟨x, hx, hxd⟩
    obtain ⟨i, hi, rfl⟩ := mem_image.1 (hc.nodes_eq ▸ Proposal.mem_nodes.2 hxd)
    have hi := Proposal.mem_nodes.1 hi
    exact ⟨i, (he.mem_iff h (hc.inner i hi).2).1 hx, hi⟩
  · rintro ⟨i, hi, hic⟩
    refine ⟨f i, (he.mem_iff h (hc.inner i hic).2).2 hi, Proposal.mem_nodes.1 ?_⟩
    rw [hc.nodes_eq]
    exact mem_image_of_mem f (Proposal.mem_nodes.2 hic)

theorem alike_insertAll (he : Embeds s t f path b) (h : Alike s t f path p q)
    (hc : AlikeChain s t f c d) : Alike s t f path (p.insertAll s c.ids) (q.insertAll t d.ids) where
  counted := h.counted.insertAll he.sized hc.counted.inTree
  weighed := h.weighed.insertAll hc.counted.inTree
  root_mem := Proposal.mem_insertAll.2 (.inr h.root_mem)
  counted' := h.counted'.insertAll he.sized' hc.counted'.inTree
  weighed' := h.weighed'.insertAll hc.counted'.inTree
  nodes_eq := by
    have hd : d.ids.toFinset = c.ids.toFinset.image f := hc.nodes_eq
    rw [Proposal.nodes_insertAll, Proposal.nodes_insertAll, h.nodes_eq, hd, lift, lift,
      image_union, union_assoc]

/-! ## Rows -/

/-- Rows with alike cells. -/
structure AlikeRow (s t : Tree Rat) (f : NodeId → NodeId) (path : Finset NodeId) (width : Nat)
    (r r' : Row Rat) : Prop where
  size_eq : r.size = width
  size_eq' : r'.size = width
  cell : ∀ {b : Int} {p q : Proposal Rat}, r.cell? b = some p → r'.cell? b = some q →
    Alike s t f path p q

theorem AlikeRow.exists_cells {width : Nat} {r r' : Row Rat} (h : AlikeRow s t f path width r r')
    {b : Int} (h0 : 0 ≤ b) (hb : b < width) :
    ∃ p q, r.cell? b = some p ∧ r'.cell? b = some q ∧ Alike s t f path p q := by
  obtain ⟨p, hp⟩ := r.exists_cell? h0 (by rw [h.size_eq]; exact hb)
  obtain ⟨q, hq⟩ := r'.exists_cell? h0 (by rw [h.size_eq']; exact hb)
  exact ⟨p, q, hp, hq, h.cell hp hq⟩

/-- The tables of the two trees, newest row first. In the large one, rows are repeated, and there are
    older rows from before the path was complete. -/
inductive AlikeRows (s t : Tree Rat) (f : NodeId → NodeId) (path : Finset NodeId) (width : Nat) :
    List (Row Rat) → List (Row Rat) → Prop where
  | first (r r' : Row Rat) (older : List (Row Rat)) (h : AlikeRow s t f path width r r')
      (holder : ∀ o ∈ older, Row.Holds width (fun _ q => t.Closed q.nodes ∧ f 0 ∉ q.ids) o) :
      AlikeRows s t f path width [r] (r' :: older)
  | stay (rows rows' : List (Row Rat)) (r' : Row Rat)
      (h : AlikeRows s t f path width rows (r' :: rows')) :
      AlikeRows s t f path width rows (r' :: r' :: rows')
  | next (r r' : Row Rat) (rows rows' : List (Row Rat)) (h : AlikeRow s t f path width r r')
      (hrows : AlikeRows s t f path width rows rows') :
      AlikeRows s t f path width (r :: rows) (r' :: rows')

variable {width : Nat} {r r' : Row Rat} {rows rows' : List (Row Rat)}

theorem AlikeRows.head (h : AlikeRows s t f path width (r :: rows) (r' :: rows')) :
    AlikeRow s t f path width r r' := by
  generalize hrs : r :: rows = rs at h
  generalize hrs' : r' :: rows' = rs' at h
  induction h generalizing rows' with
  | first r r' older h => cases hrs; cases hrs'; exact h
  | stay rs rs' o h ih => cases hrs'; exact ih hrs rfl
  | next r r' rows rows' h => cases hrs; cases hrs'; exact h

/-! ## Extending the table -/

/-- Two climbs from the same node go the same way. -/
theorem climb_alike (he : Embeds s t f path b) (hr : AlikeRow s t f path width r r') {budget : Int}
    (hb : budget < width) {fuel fuel' : Nat} {n m : Node Rat} (hc : AlikeChain s t f c d)
    (hn : s.node? n.id = some n) (hi : s.IsInner n.id) (hm : t.node? m.id = some m)
    (hid : m.id = f n.id) (hfuel : n.id < fuel) (hfuel' : m.id < fuel') :
    (s.climb r budget fuel c n = .nothing ∧ t.climb r' budget fuel' d m = .nothing) ∨
    ∃ c' d' a, s.climb r budget fuel c n = .found ⟨c', a⟩
      ∧ t.climb r' budget fuel' d m = .found ⟨d', f a⟩
      ∧ AlikeChain s t f c' d' ∧ (∃ k, s.node? a = some k) ∧ c'.cost ≤ budget := by
  -- parents have smaller numbers, so neither climb runs out of fuel
  induction fuel generalizing fuel' c d n m with
  | zero =>
    have := node?_bounds hn
    grind
  | succ fuel ih =>
    cases fuel' with
    | zero =>
      have := node?_bounds hm
      grind
    | succ fuel' =>
      rw [climb, climb, he.chain_cost_eq hc]
      by_cases hfit : budget < c.cost
      · rw [if_pos hfit, if_pos hfit]
        exact .inl ⟨rfl, rfl⟩
      · have hcost := he.chain_cost_nonneg hc
        obtain ⟨p, q, hp, hq, hpq⟩ := hr.exists_cells (b := budget - c.cost) (by omega) (by omega)
        have hpar : s.parentOf n.id = n.parent := parentOf_eq hn
        have hpar' : m.parent = f n.parent := by
          rw [← parentOf_eq hm, hid, he.parent hi, hpar]
        have hin : ∃ k, s.node? n.parent = some k := hpar ▸ he.linked.exists_parent hi
        have h0 := (he.linked.parent_lt hn hi.1).1
        have h0' := (he.linked'.parent_lt hm (hid ▸ (he.inner hi).1)).1
        have hmem := he.mem_iff hpq hin
        rw [if_neg hfit, if_neg hfit, hp, hq]
        dsimp only
        -- both cells have the parent and the chain is anchored there, or both lack it and the climb goes on
        by_cases hcontains : n.parent ∈ p.ids
        · rw [if_pos (Proposal.contains_iff.2 ⟨h0, hcontains⟩),
            if_pos (Proposal.contains_iff.2 ⟨h0', hpar' ▸ hmem.2 hcontains⟩), hpar']
          exact .inr ⟨c, d, n.parent, rfl, rfl, hc, hin, by omega⟩
        · rw [if_neg fun h => hcontains (Proposal.contains_iff.1 h).2,
            if_neg fun h => hcontains (hmem.1 (hpar' ▸ (Proposal.contains_iff.1 h).2))]
          obtain ⟨k, hk⟩ := hin
          have hkid : k.id = n.parent := he.linked.id_eq hk
          have hki : s.IsInner k.id := by
            rw [hkid]
            exact ⟨fun hzero => hcontains (hzero ▸ hpq.root_mem), k, hk⟩
          obtain ⟨l, hl⟩ := (he.inner hki).2
          have hlid : l.id = f k.id := he.linked'.id_eq hl
          rw [hpar', hk, ← hkid, hl]
          dsimp only
          have hlt := (he.linked.parent_lt hn hi.1).2
          have hlt' := (he.linked'.parent_lt hm (hid ▸ (he.inner hi).1)).2
          rw [hlid]
          exact ih (he.chain_insert hc hki) (by rw [hkid, hk]) hki (by rw [hlid, hl]) hlid
            (by grind) (by grind)

theorem attach_repeated (t : Tree Rat) (budget : Int) (chain : Chain Rat) (r : Row Rat)
    (rows : List (Row Rat)) :
    t.attach budget chain (r :: r :: rows) = t.attach budget chain (r :: rows) := by
  rw [attach]
  cases hcell : r.cell? (budget - chain.nodes.cost) with
  | none => rw [attach, hcell]
  | some cell =>
    dsimp only
    by_cases hrefuse : (cell.overlaps chain.nodes || !cell.contains chain.anchor) = true
    · rw [if_pos hrefuse]
    · rw [if_neg hrefuse, attach, hcell]
      dsimp only
      rw [if_neg hrefuse]

theorem anchor_nonneg (he : Embeds s t f path b) (ha : ∃ n, s.node? a = some n) : 0 ≤ f a := by
  have hle := he.linked'.le_of_above (he.above_root he.linked ha)
  obtain ⟨n, hn⟩ := he.root'
  exact le_trans (node?_bounds hn).1 hle

/-- Rows that lack the small root accept none of its chains. -/
theorem attach_older (he : Embeds s t f path b) {budget : Int} (hb : budget < width)
    (hc : AlikeChain s t f c d) (hcost : c.cost ≤ budget) (ha : ∃ n, s.node? a = some n)
    (holder : ∀ o ∈ rows, Row.Holds width (fun _ q => t.Closed q.nodes ∧ f 0 ∉ q.ids) o) :
    t.attach budget ⟨d, f a⟩ rows = .nothing := by
  have hnonneg := he.chain_cost_nonneg hc
  have hspec := attach_spec t budget ⟨d, f a⟩ rows (he.anchor_nonneg ha) fun o ho => by
    refine o.exists_cell? ?_ ?_
    · rw [he.chain_cost_eq hc]; omega
    · rw [(holder o ho).size_eq, he.chain_cost_eq hc]; omega
  rcases hspec with h | ⟨o, ho, cell, hcell, hacc, -⟩
  · exact h
  · obtain ⟨hclosed, hmiss⟩ := (holder o ho).cell hcell
    refine absurd (.inr fun hmem => hmiss ?_) hacc
    exact Proposal.mem_nodes.1
      (hclosed.mem_of_above (Proposal.mem_nodes.2 hmem) (he.above_root he.linked ha))

/-- Both look-ups find nothing, or alike proposals. -/
def AlikeFound (s t : Tree Rat) (f : NodeId → NodeId) (path : Finset NodeId)
    (x y : Found (Proposal Rat)) : Prop :=
  (x = .nothing ∧ y = .nothing) ∨ ∃ p q, x = .found p ∧ y = .found q ∧ Alike s t f path p q

/-- A pair of alike rows in front of searches that agree. -/
theorem attach_cons_alike (he : Embeds s t f path b) {budget : Int} (hb : budget < width)
    (hr : AlikeRow s t f path width r r') (hc : AlikeChain s t f c d) (hcost : c.cost ≤ budget)
    (ha : ∃ n, s.node? a = some n)
    (hrest : AlikeFound s t f path (s.attach budget ⟨c, a⟩ rows) (t.attach budget ⟨d, f a⟩ rows')) :
    AlikeFound s t f path (s.attach budget ⟨c, a⟩ (r :: rows))
      (t.attach budget ⟨d, f a⟩ (r' :: rows')) := by
  have hnonneg := he.chain_cost_nonneg hc
  have hanchor : 0 ≤ a := (node?_bounds ha.choose_spec).1
  have hanchor' := he.anchor_nonneg ha
  obtain ⟨p, q, hp, hq, hpq⟩ := hr.exists_cells (b := budget - c.cost) (by omega) (by omega)
  have hq : r'.cell? (budget - d.cost) = some q := by rwa [he.chain_cost_eq hc]
  -- both cells refuse, or both accept at the same cost
  by_cases href : Refuses ⟨c, a⟩ p
  · have hs : s.attach budget ⟨c, a⟩ (r :: rows) = s.attach budget ⟨c, a⟩ rows :=
      attach_of_refuses hanchor hp href
    have ht : t.attach budget ⟨d, f a⟩ (r' :: rows') = t.attach budget ⟨d, f a⟩ rows' :=
      attach_of_refuses hanchor' hq ((he.refuses_iff hpq hc ha).2 href)
    rwa [hs, ht]
  · have hjoin := he.alike_insertAll hpq hc
    have hs : s.attach budget ⟨c, a⟩ (r :: rows) = _ := attach_of_accepts hanchor hp href
    have ht : t.attach budget ⟨d, f a⟩ (r' :: rows') = _ :=
      attach_of_accepts hanchor' hq fun h => href ((he.refuses_iff hpq hc ha).1 h)
    rw [hs, ht, he.cost_eq hjoin]
    by_cases hfit : budget < (p.insertAll s c.ids).cost
    · rw [if_pos hfit, if_pos hfit]
      exact .inl ⟨rfl, rfl⟩
    · rw [if_neg hfit, if_neg hfit]
      exact .inr ⟨_, _, rfl, rfl, hjoin⟩

/-- Two searches with alike chains end at the same row. -/
theorem attach_alike (he : Embeds s t f path b) {budget : Int} (hb : budget < width)
    (hrows : AlikeRows s t f path width rows rows') (hc : AlikeChain s t f c d)
    (hcost : c.cost ≤ budget) (ha : ∃ n, s.node? a = some n) :
    AlikeFound s t f path (s.attach budget ⟨c, a⟩ rows) (t.attach budget ⟨d, f a⟩ rows') := by
  induction hrows with
  | first r r' older hr holder =>
    exact he.attach_cons_alike hb hr hc hcost ha
      (.inl ⟨rfl, he.attach_older hb hc hcost ha holder⟩)
  | stay rows rows' r' h ih => rwa [attach_repeated]
  | next r r' rows rows' hr h ih => exact he.attach_cons_alike hb hr hc hcost ha ih

theorem extend_alike (he : Embeds s t f path b) {budget : Int} (hb : budget < width)
    (hrows : AlikeRows s t f path width (r :: rows) (r' :: rows')) (hi : s.IsInner i) :
    AlikeFound s t f path (s.extend (r :: rows) i budget) (t.extend (r' :: rows') (f i) budget) := by
  obtain ⟨n, hn⟩ := hi.2
  obtain ⟨m, hm⟩ := (he.inner hi).2
  have hnid : n.id = i := he.linked.id_eq hn
  have hmid : m.id = f i := he.linked'.id_eq hm
  have hstart : AlikeChain s t f (Proposal.empty.insert s i) (Proposal.empty.insert t (f i)) := by
    refine he.chain_insert ⟨Proposal.Counted.empty s, ?_, Proposal.Counted.empty t, ?_⟩ hi
    · intro j hj
      exact absurd hj List.not_mem_nil
    · rfl
  rcases he.climb_alike hrows.head hb hstart (by rw [hnid, hn]) (by rwa [hnid]) (by rw [hmid, hm])
    (by rw [hmid, hnid]) (by rw [hnid]; exact (node?_bounds hn).2)
    (by rw [hmid]; exact (node?_bounds hm).2) with ⟨hs, ht⟩ | ⟨c, d, a, hs, ht, hc, ha, hcost⟩
  · rw [extend_of_nothing hn hs, extend_of_nothing hm ht]
    exact .inl ⟨rfl, rfl⟩
  · rw [extend_of_found hn hs, extend_of_found hm ht]
    exact he.attach_alike hb hrows hc hcost ha

theorem cellFor_alike (he : Embeds s t f path b) {budget : Nat} (hb : budget < width)
    (hrows : AlikeRows s t f path width (r :: rows) (r' :: rows')) (hi : s.IsInner i)
    (hpq : Alike s t f path p q) :
    ∃ p' q', s.cellFor (r :: rows) i p budget = some p'
      ∧ t.cellFor (r' :: rows') (f i) q budget = some q' ∧ Alike s t f path p' q' := by
  unfold cellFor
  have hb : (budget : Int) < width := by exact_mod_cast hb
  rcases he.extend_alike hb hrows hi with ⟨hs, ht⟩ | ⟨p', q', hs, ht, halike⟩
  · rw [hs, ht]
    exact ⟨p, q, rfl, rfl, hpq⟩
  · rw [hs, ht]
    refine ⟨_, _, rfl, rfl, ?_⟩
    -- the path is worth the same on both sides
    have hlt : Scale.lt q.benefit q'.benefit = true ↔ Scale.lt p.benefit p'.benefit = true := by
      rw [scale_lt_iff, scale_lt_iff, he.benefit_eq hpq, he.benefit_eq halike]
      exact add_lt_add_iff_right _
    by_cases hbetter : Scale.lt p.benefit p'.benefit = true
    · rw [if_pos hbetter, if_pos (hlt.2 hbetter)]
      exact halike
    · rw [if_neg hbetter, if_neg fun h => hbetter (hlt.1 h)]
      exact hpq

/-- The rows of a node and of its image. -/
theorem rowFor_alike (he : Embeds s t f path b)
    (hrows : AlikeRows s t f path width (r :: rows) (r' :: rows')) (hi : s.IsInner i) :
    ∃ new new', s.rowFor (r :: rows) i r = some new ∧ t.rowFor (r' :: rows') (f i) r' = some new'
      ∧ AlikeRow s t f path width new new' := by
  have hr := hrows.head
  have hcells : ∀ k < width, ∃ p q p' q', r[k]? = some p ∧ r'[k]? = some q
      ∧ s.cellFor (r :: rows) i p k = some p' ∧ t.cellFor (r' :: rows') (f i) q k = some q'
      ∧ Alike s t f path p' q' := by
    intro k hk
    obtain ⟨p, q, hp, hq, hpq⟩ := hr.exists_cells (b := (k : Int)) (by omega) (by omega)
    obtain ⟨p', q', hp', hq', halike⟩ := he.cellFor_alike hk hrows hi hpq
    exact ⟨p, q, p', q', by simpa using (Row.cell?_eq_some_iff.1 hp).2,
      by simpa using (Row.cell?_eq_some_iff.1 hq).2, hp', hq', halike⟩
  obtain ⟨new, hnew, hsize, hget⟩ := rowFor_spec fun k p hp => by
    have hk := (Array.getElem?_eq_some_iff.1 hp).1
    obtain ⟨p₁, q, p', q', hp₁, -, hp', -⟩ := hcells k (by rwa [← hr.size_eq])
    obtain rfl : p₁ = p := Option.some.inj (hp₁.symm.trans hp)
    exact ⟨p', hp'⟩
  obtain ⟨new', hnew', hsize', hget'⟩ := rowFor_spec fun k q hq => by
    have hk := (Array.getElem?_eq_some_iff.1 hq).1
    obtain ⟨p, q₁, p', q', -, hq₁, -, hq', -⟩ := hcells k (by rwa [← hr.size_eq'])
    obtain rfl : q₁ = q := Option.some.inj (hq₁.symm.trans hq)
    exact ⟨q', hq'⟩
  refine ⟨new, new', hnew, hnew', hsize.trans hr.size_eq, hsize'.trans hr.size_eq', ?_⟩
  intro k p q hp hq
  have hbounds := Row.cell?_bounds hp
  rw [hsize, hr.size_eq] at hbounds
  obtain ⟨p₀, q₀, p', q', hp₀, hq₀, hp', hq', halike⟩ := hcells k.toNat (by omega)
  have hp := (Row.cell?_eq_some_iff.1 hp).2
  have hq := (Row.cell?_eq_some_iff.1 hq).2
  rw [hget _ _ hp₀, hp'] at hp
  rw [hget' _ _ hq₀, hq'] at hq
  rwa [← Option.some.inj hp, ← Option.some.inj hq]

end Embeds

end Tree

end InlinePlan
