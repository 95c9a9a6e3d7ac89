import InlinePlan.Proofs.Plan.Embedding
import InlinePlan.Proofs.Plan.Optimal

set_option autoImplicit false

/-! # Plans of trees within trees

The table of the large tree is filled row by row: first along the path, where every cell has all of
the path that is placed, and from then on in step with the table of the small tree. Rows of expensive
nodes repeat the row before. -/

namespace InlinePlan

open Finset

namespace Tree

variable {s t : Tree Rat} {f : NodeId → NodeId} {path : Finset NodeId} {b : Int}
  {done : List NodeId} {v : NodeId} {width : Nat} {previous : Row Rat} {rows : List (Row Rat)}

/-! ## Expensive nodes -/

/-- A node that costs more than the budget extends nothing. -/
theorem extend_of_expensive (hs : t.Sized) (hv : t.IsInner v) (hb : b < t.costOf v) :
    t.extend (previous :: rows) v b = .nothing := by
  obtain ⟨n, hn⟩ := hv.2
  have hids : (Proposal.empty.insert t v : Proposal Rat).ids = [v] := Proposal.ids_single hn
  have hcost : (Proposal.empty.insert t v : Proposal Rat).cost = t.costOf v := by
    rw [((Proposal.Counted.empty t).insert hs hn).cost_eq, hids]
    simp
  obtain ⟨k, hk⟩ : ∃ k, t.size = k + 1 := ⟨t.size - 1, by have := node?_bounds hn; grind⟩
  refine extend_of_nothing hn ?_
  rw [hk, climb, if_pos (by rw [hcost]; exact hb)]

/-- The row of a node that costs more than every budget repeats the row before. -/
theorem rowFor_of_expensive (hs : t.Sized) (hv : t.IsInner v)
    (hb : (previous.size : Int) ≤ t.costOf v) :
    t.rowFor (previous :: rows) v previous = some previous := by
  have hcell : ∀ (k : Nat) (above : Proposal Rat), previous[k]? = some above →
      t.cellFor (previous :: rows) v above k = some above := by
    intro k above hk
    have hlt := (Array.getElem?_eq_some_iff.1 hk).1
    rw [cellFor, extend_of_expensive hs hv (by omega)]
  obtain ⟨row, hrow, hsize, hget⟩ := rowFor_spec fun k above hk => ⟨above, hcell k above hk⟩
  rw [hrow]
  refine congrArg some (Array.ext_getElem? fun k => ?_)
  cases hk : previous[k]? with
  | none => rw [Array.getElem?_eq_none (by rw [hsize]; exact Array.getElem?_eq_none_iff.1 hk)]
  | some above => rw [hget k above hk, hcell k above hk]

theorem Placed.closed (h : t.Placed done) (hroot : ∃ n, t.node? 0 = some n) :
    t.Closed done.toFinset where
  root_mem := List.mem_toFinset.2 h.zero_mem
  inTree := by
    intro i hi
    by_cases hne : i = 0
    · exact hne ▸ hroot
    · exact (h.isInner (List.mem_toFinset.1 hi) hne).2
  parent_mem := fun i hi hne => List.mem_toFinset.2 (h.parent_mem (List.mem_toFinset.1 hi) hne)

namespace Embeds

/-! ## Along the path -/

/-- As long as no node of the small tree but its root is placed, a best cell is what is placed of the
    path. -/
theorem mem_iff_of_best (he : Embeds s t f path b) (h : t.Placed done)
    (hnone : ∀ i, s.IsInner i → f i ∉ done) {q : Proposal Rat} {budget : Int}
    (hq : q.Best t done budget) (hb : budget ≤ b) {x : NodeId} :
    x ∈ q.ids ↔ x ∈ path ∧ x ∈ done := by
  have hcost := hq.cost_le
  rw [hq.cost_eq_costs] at hcost
  have hsub : ∀ y ∈ q.ids, y ∈ path ∧ y ∈ done := by
    intro y hy
    refine ⟨?_, hq.within y hy⟩
    by_contra hpath
    have hne : y ≠ 0 := fun hzero => hpath (hzero ▸ he.zero_mem_path)
    have hexp : b < t.costOf y :=
      he.expensive ⟨hne, hq.inTree y hy⟩ hpath fun i hi heq => hnone i hi (heq ▸ hq.within y hy)
    have hle := he.sized'.costs_mono (singleton_subset_iff.2 (Proposal.mem_nodes.2 hy))
    rw [costs, sum_singleton] at hle
    omega
  refine ⟨hsub x, fun hx => ?_⟩
  -- the placed part of the path is closed and free, so a best cell has nothing less
  have hroot := he.inTree_path he.zero_mem_path
  have hclosed := he.closed_path.inter (h.closed hroot)
  have hfree : t.costs (path ∩ done.toFinset) = 0 :=
    sum_eq_zero fun y hy => he.path_cost (mem_inter.1 hy).1
  have hnonneg : 0 ≤ t.costs q.nodes := sum_nonneg fun i _ => he.sized'.costOf_nonneg i
  have hbest := hq.best _ hclosed (fun i hi => List.mem_toFinset.1 (mem_inter.1 hi).2) (by omega)
  by_contra hmiss
  have hless : t.worth q.nodes < t.worth (path ∩ done.toFinset) := by
    have hx0 : x ≠ 0 := fun hzero => hmiss (hzero ▸ hq.root_mem)
    refine sum_lt_sum_of_subset (i := x) ?_ ?_ ?_ (he.path_benefit hx.1 hx0) ?_
    · intro y hy
      obtain ⟨hpath, hdone⟩ := hsub y (Proposal.mem_nodes.1 hy)
      exact mem_inter.2 ⟨hpath, List.mem_toFinset.2 hdone⟩
    · exact mem_inter.2 ⟨hx.1, List.mem_toFinset.2 hx.2⟩
    · exact fun hmem => hmiss (Proposal.mem_nodes.1 hmem)
    · intro y hy hnot
      refine le_of_lt (he.path_benefit (mem_inter.1 hy).1 fun hzero => hnot ?_)
      exact hzero ▸ Proposal.mem_nodes.2 hq.root_mem
  rw [← hq.weighed] at hless
  exact absurd hbest (not_le.2 hless)

theorem notMem_of_root_notMem (he : Embeds s t f path b) (h : t.Placed done) (hroot : f 0 ∉ done)
    {i : NodeId} (hi : ∃ n, s.node? i = some n) : f i ∉ done :=
  fun hmem => hroot (h.mem_of_above hmem (he.above_root he.linked hi))

/-- Before the small root is placed, a new node loses nothing. -/
theorem covers_path (he : Embeds s t f path b) (h : t.Placed done) (hv : t.Open done v)
    (hroot : f 0 ∉ done) (hrows : t.Filled width done (previous :: rows)) {budget : Int}
    (hb : budget < width) (hle : budget ≤ b) :
    t.Covers done v budget (t.extend (previous :: rows) v budget) := by
  have hnone : ∀ i, s.IsInner i → f i ∉ done := fun i hi => he.notMem_of_root_notMem h hroot hi.2
  -- a node of the path finds its parent in the cell; any other one is beyond the budget
  by_cases hpath : v ∈ path
  · refine covers_of_longChain he.linked' he.sized' h hv hrows hb
      fun chain top cell first last hc => absurd ?_ hc.first_miss
    have hparent : t.parentOf v ∈ path := he.closed_path.parent_mem v hpath hv.isInner.1
    refine (he.mem_iff_of_best h hnone hc.first_best ?_).2 ⟨hparent, hv.parent_mem⟩
    rw [he.path_cost hpath]
    omega
  · have hexp : b < t.costOf v := by
      refine he.expensive hv.isInner hpath fun i hi heq => ?_
      have hpar := hv.parent_mem
      rw [heq, he.parent hi] at hpar
      exact he.notMem_of_root_notMem h hroot (he.linked.exists_parent hi) hpar
    intro S hS _ hvS hfit
    have hsub := he.sized'.costs_mono (singleton_subset_iff.2 hvS)
    rw [costs, sum_singleton] at hsub
    omega

/-! ## In step -/

theorem fill_append {vs : List NodeId} {start : List (Row Rat)} {row : Row Rat}
    (h : s.fill vs start = some (previous :: rows))
    (hrow : s.rowFor (previous :: rows) v previous = some row) :
    s.fill (vs ++ [v]) start = some (row :: previous :: rows) := by
  induction vs generalizing start with
  | nil =>
    cases h
    simp only [List.nil_append, fill, hrow]
  | cons w vs ih =>
    cases start with
    | nil => cases h
    | cons r start =>
      rw [fill] at h
      rw [List.cons_append, fill]
      cases hw : s.rowFor (r :: start) w r with
      | none =>
        rw [hw] at h
        cases h
      | some row' =>
        rw [hw] at h
        exact ih h

/-- The table of the small tree has come as far as that of the large one. -/
structure Tracked (s t : Tree Rat) (f : NodeId → NodeId) (path : Finset NodeId) (width : Nat)
    (done : List NodeId) (rows' : List (Row Rat)) (vs : List NodeId) (rows : List (Row Rat)) :
    Prop where
  placed : s.Placed (vs.reverse ++ [0])
  mem_iff : ∀ {i : NodeId}, (∃ n, s.node? i = some n) → (i ∈ vs.reverse ++ [0] ↔ f i ∈ done)
  fill_eq : s.fill vs [Array.replicate width (Proposal.empty.insert s 0)] = some rows
  rows_alike : AlikeRows s t f path width rows rows'

/-- When the small root is placed, the path is complete. -/
theorem tracked_root (he : Embeds s t f path b) (h : t.Placed (f 0 :: done)) (hroot : f 0 ∉ done)
    (hrows : t.Filled width (f 0 :: done) (previous :: rows)) (hwidth : (width : Int) ≤ b + 1) :
    Tracked s t f path width (f 0 :: done) (previous :: rows) []
      [Array.replicate width (Proposal.empty.insert s 0)] := by
  have hnone : ∀ i, s.IsInner i → f i ∉ f 0 :: done := by
    intro i hi hmem
    rcases List.mem_cons.1 hmem with heq | hmem
    · exact hi.1 (he.injective hi.2 he.root heq)
    · have h : t.Placed ([] ++ f 0 :: done) := h
      obtain ⟨hold, -⟩ := h.of_append (List.ne_nil_of_mem hmem)
      exact he.notMem_of_root_notMem hold hroot hi.2 hmem
  refine ⟨Placed.root, ?_, rfl, .first _ _ _ ⟨Array.size_replicate, hrows.1.size_eq, ?_⟩ ?_⟩
  · intro i hi
    rw [List.reverse_nil, List.nil_append, List.mem_singleton]
    constructor
    · rintro rfl
      exact List.mem_cons_self
    · intro hmem
      by_contra hne
      exact hnone i ⟨hne, hi⟩ hmem
  · intro c p q hp hq
    obtain rfl := Row.cell?_replicate hp
    have hbounds := Row.cell?_bounds hq
    rw [hrows.1.size_eq] at hbounds
    have hbest := hrows.1.cell hq
    obtain ⟨n, hn⟩ := he.root
    refine ⟨(Proposal.Counted.empty s).insert he.sized hn, (Proposal.Weighed.empty s).insert hn,
      Proposal.mem_insert.2 (.inl rfl), hbest.toCounted, hbest.weighed, ?_⟩
    ext x
    rw [Proposal.mem_nodes, he.mem_iff_of_best h hnone hbest (by omega), lift, mem_union, mem_image]
    constructor
    · exact fun hx => .inl hx.1
    · rintro (hx | ⟨i, hi, rfl⟩)
      · exact ⟨hx, h.mem_of_above List.mem_cons_self (he.mem_path.1 hx)⟩
      · rcases Proposal.mem_insert.1 (Proposal.mem_nodes.1 hi) with rfl | hi
        · exact ⟨he.root_mem_path, List.mem_cons_self⟩
        · cases hi
  · intro o ho
    obtain ⟨older, hsuffix, hbest⟩ := hrows.2.exists_best ho
    refine ⟨hbest.size_eq, fun {c q} hq => ⟨(hbest.cell hq).closed_nodes, fun hmem => hroot ?_⟩⟩
    exact hsuffix.subset ((hbest.cell hq).within _ hmem)

/-- One row more in both tables. -/
theorem Tracked.next (he : Embeds s t f path b) {i : NodeId} {vs : List NodeId}
    {rows' : List (Row Rat)} {previous' : Row Rat}
    (h : Tracked s t f path width done (previous' :: rows') vs (previous :: rows))
    (hi : s.IsInner i) (hopen : t.Open done (f i))
    (hfirst : ∀ w, t.Open done w → t.rank (f i) ≤ t.rank w) :
    ∃ row row', t.rowFor (previous' :: rows') (f i) previous' = some row'
      ∧ Tracked s t f path width (f i :: done) (row' :: previous' :: rows') (vs ++ [i])
        (row :: previous :: rows) := by
  have hopen_iff : ∀ {w : NodeId}, s.IsInner w →
      (t.Open done (f w) ↔ s.Open (vs.reverse ++ [0]) w) := by
    intro w hw
    constructor
    · rintro ⟨-, hnot, hpar⟩
      rw [he.parent hw, ← h.mem_iff (he.linked.exists_parent hw)] at hpar
      exact ⟨hw, fun hmem => hnot ((h.mem_iff hw.2).1 hmem), hpar⟩
    · rintro ⟨-, hnot, hpar⟩
      rw [h.mem_iff (he.linked.exists_parent hw), ← he.parent hw] at hpar
      exact ⟨he.inner hw, fun hmem => hnot ((h.mem_iff hw.2).2 hmem), hpar⟩
  obtain ⟨row, row', hrow, hrow', halike⟩ := he.rowFor_alike h.rows_alike hi
  refine ⟨row, row', hrow', ?_, ?_, fill_append h.fill_eq hrow, .next _ _ _ _ halike h.rows_alike⟩
  · rw [List.reverse_append]
    refine h.placed.next _ i ((hopen_iff hi).1 hopen) fun w hw => ?_
    -- different nodes have different costs, which decide about the order in both trees
    by_contra hlt
    have hle := costOf_le_of_rank_le (hfirst (f w) ((hopen_iff hw.isInner).2 hw))
    have hge := costOf_le_of_rank_le (le_of_lt (not_le.1 hlt))
    rw [he.cost hw.isInner, he.cost hi] at hle
    obtain rfl := he.distinct hw.isInner hi (le_antisymm hle hge)
    exact hlt (le_refl _)
  · intro j hj
    rw [List.reverse_append, List.append_assoc, List.reverse_singleton, List.singleton_append,
      List.mem_cons, List.mem_cons, h.mem_iff hj]
    exact or_congr_left ⟨fun heq => heq ▸ rfl, fun heq => he.injective hj hi.2 heq⟩

/-- The row of an expensive node changes nothing. -/
theorem Tracked.stay {vs : List NodeId} {rows' : List (Row Rat)} {previous' : Row Rat}
    (h : Tracked s t f path width done (previous' :: rows') vs rows) (hroot : f 0 ∈ done)
    (hv : v ∉ done) (hother : ∀ i, s.IsInner i → v ≠ f i) :
    Tracked s t f path width (v :: done) (previous' :: previous' :: rows') vs rows := by
  refine ⟨h.placed, ?_, h.fill_eq, .stay _ _ _ h.rows_alike⟩
  intro i hi
  rw [h.mem_iff hi, List.mem_cons]
  refine ⟨.inr, fun hmem => hmem.resolve_left ?_⟩
  by_cases hne : i = 0
  · rintro rfl
    exact hv (hne ▸ hroot)
  · exact fun heq => hother i ⟨hne, hi⟩ heq.symm

/-- What the large table is like while it is filled. -/
def Simulated (s t : Tree Rat) (f : NodeId → NodeId) (path : Finset NodeId) (width : Nat)
    (done : List NodeId) (rows' : List (Row Rat)) : Prop :=
  f 0 ∉ done ∧ t.Filled width done rows' ∨
  f 0 ∈ done ∧ ∃ vs previous rows, Tracked s t f path width done rows' vs (previous :: rows)

theorem simulated_of_filled (he : Embeds s t f path b) (h : t.Placed (v :: done))
    (hv : v ∉ done) (hroot : f 0 ∉ done) (hrows : t.Filled width (v :: done) (previous :: rows))
    (hwidth : (width : Int) ≤ b + 1) :
    Simulated s t f path width (v :: done) (previous :: rows) := by
  by_cases heq : f 0 = v
  · subst heq
    exact .inr ⟨List.mem_cons_self, [], _, [], he.tracked_root h hv hrows hwidth⟩
  · refine .inl ⟨?_, hrows⟩
    rw [List.mem_cons, not_or]
    exact ⟨heq, hroot⟩

theorem Simulated.step (he : Embeds s t f path b) (hwidth : (width : Int) ≤ b + 1)
    (h : t.Placed done) (hopen : t.Open done v) (hfirst : ∀ w, t.Open done w → t.rank v ≤ t.rank w)
    (hsim : Simulated s t f path width done (previous :: rows)) :
    ∃ row, t.rowFor (previous :: rows) v previous = some row
      ∧ Simulated s t f path width (v :: done) (row :: previous :: rows) := by
  -- until the small root is placed all cells are best; from then on the tables run in step
  rcases hsim with ⟨hroot, hrows⟩ | ⟨hroot, vs, previous', rows', htracked⟩
  · obtain ⟨row, hrow, hfilled⟩ := rowFor_best he.linked' he.sized' h hopen hrows fun c hc =>
      he.covers_path h hopen hroot hrows (by exact_mod_cast hc) (by omega)
    exact ⟨row, hrow, he.simulated_of_filled (h.next _ _ hopen hfirst) hopen.notMem hroot hfilled
      hwidth⟩
  · by_cases hinner : ∃ i, s.IsInner i ∧ v = f i
    · obtain ⟨i, hi, rfl⟩ := hinner
      obtain ⟨row, row', hrow, hnext⟩ := htracked.next he hi hopen hfirst
      exact ⟨row', hrow, .inr ⟨List.mem_cons_of_mem _ hroot, _, _, _, hnext⟩⟩
    · have hother : ∀ i, s.IsInner i → v ≠ f i := fun i hi heq => hinner ⟨i, hi, heq⟩
      have hpath : v ∉ path := fun hmem => hopen.notMem (h.mem_of_above hroot (he.mem_path.1 hmem))
      have hexp := he.expensive hopen.isInner hpath hother
      have hsize := htracked.rows_alike.head.size_eq'
      refine ⟨previous, rowFor_of_expensive he.sized' hopen.isInner (by omega), .inr ⟨?_, ?_⟩⟩
      · exact List.mem_cons_of_mem _ hroot
      · exact ⟨vs, previous', rows', htracked.stay hroot hopen.notMem hother⟩

/-! ## Plans -/

/-- The plans of the two trees have the same nodes below the path. -/
theorem select_alike (he : Embeds s t f path b) (hb : 0 ≤ b) (hroom : b < 2 ^ 45) :
    ∃ p q, s.select b = some p ∧ t.select b = some q ∧ Alike s t f path p q := by
  obtain ⟨root, hroot⟩ := he.root
  obtain ⟨root', hroot'⟩ := he.inTree_path he.zero_mem_path
  have hsize : 0 < s.size := by have := node?_bounds hroot; grind
  have hsize' : 0 < t.size := by have := node?_bounds hroot'; grind
  have hfirst : Simulated s t f path (b.toNat + 1) [0]
      [Array.replicate (b.toNat + 1) (Proposal.empty.insert t 0)] :=
    he.simulated_of_filled Placed.root List.not_mem_nil List.not_mem_nil
      (he.linked'.filled_root hroot') (by omega)
  obtain ⟨last', rows', hfill', hsim⟩ := he.linked'.fill_priorityOrder hsize' (b.toNat + 1)
    (Simulated s t f path (b.toNat + 1))
    (fun h hopen hfirst hsim => hsim.step he (by omega) h hopen hfirst) hfirst
  obtain ⟨hplaced, hall⟩ := he.linked.placed_priorityOrder hsize
  obtain ⟨-, hall'⟩ := he.linked'.placed_priorityOrder hsize'
  rcases hsim with ⟨hnot, -⟩ | ⟨-, vs, last, rows, htracked⟩
  · exact absurd (hall' _ he.root') hnot
  · -- all nodes of the small tree are placed, and there is only one order of them
    have heq : vs.reverse ++ [0] = s.priorityOrder.reverse := by
      refine htracked.placed.eq_of_all_mem hplaced (fun v hv => ?_) hall
      refine (htracked.mem_iff hv).2 (hall' _ ?_)
      by_cases hne : v = 0
      · exact hne ▸ he.root'
      · exact (he.inner ⟨hne, hv⟩).2
    have hvs : s.priorityOrder.drop 1 = vs := by
      rw [List.reverse_eq_iff.1 heq.symm, List.reverse_append]
      simp
    have hfill := htracked.fill_eq
    rw [← hvs] at hfill
    obtain ⟨p, q, hp, hq, halike⟩ := htracked.rows_alike.head.exists_cells
      (b := (b.toNat : Int)) (by omega) (by omega)
    exact ⟨p, q, by rw [select_of_fill hroom hfill, hp], by rw [select_of_fill hroom hfill', hq],
      halike⟩

end Embeds

end Tree

end InlinePlan
