import InlinePlan.Plan.Select
import InlinePlan.Proofs.Plan.Proposal

set_option autoImplicit false

/-! # The table of proposals

One lemma for each function that fills the table. A climb and a search through the rows are
described by what is true when they stop (`Tree.climb_spec`, `Tree.attach_spec`), and so is the
extension by a node, which is the one after the other (`Tree.extend_spec`); a row is described cell
by cell (`Tree.rowFor_spec`); and what every new row keeps holds of the whole table
(`Tree.fill_invariant`). -/

namespace InlinePlan

variable {R : Type}

/-! ## Cells -/

/-- Every cell of a row of the given width has a property, which may depend on its budget. -/
structure Row.Holds (width : Nat) (P : Int → Proposal R → Prop) (row : Row R) : Prop where
  size_eq : row.size = width
  cell : ∀ {b : Int} {p : Proposal R}, row.cell? b = some p → P b p

theorem Row.cell?_eq_some_iff {row : Row R} {b : Int} {p : Proposal R} :
    row.cell? b = some p ↔ 0 ≤ b ∧ row[b.toNat]? = some p := by
  unfold Row.cell?
  split
  · constructor
    · intro h; cases h
    · rintro ⟨h, -⟩; omega
  · constructor
    · intro h; exact ⟨by omega, h⟩
    · exact And.right

theorem Row.exists_cell? (row : Row R) {b : Int} (h0 : 0 ≤ b) (h : b < row.size) :
    ∃ p, row.cell? b = some p := by
  have hlt : b.toNat < row.size := by omega
  exact ⟨row[b.toNat], Row.cell?_eq_some_iff.2 ⟨h0, Array.getElem?_eq_getElem hlt⟩⟩

theorem Row.cell?_bounds {row : Row R} {b : Int} {p : Proposal R} (h : row.cell? b = some p) :
    0 ≤ b ∧ b < row.size := by
  obtain ⟨h0, hget⟩ := Row.cell?_eq_some_iff.1 h
  obtain ⟨hlt, -⟩ := Array.getElem?_eq_some_iff.1 hget
  exact ⟨h0, by omega⟩

/-- Every cell of a row of equal proposals is that proposal. -/
theorem Row.cell?_replicate {width : Nat} {b : Int} {p q : Proposal R}
    (h : Row.cell? (Array.replicate width p) b = some q) : q = p := by
  obtain ⟨-, hget⟩ := Row.cell?_eq_some_iff.1 h
  obtain ⟨hlt, hq⟩ := Array.getElem?_eq_some_iff.1 hget
  rw [← hq, Array.getElem_replicate]

variable [Scale R]

namespace Tree

/-! ## Climbing -/

/-- A climb ends where the previous row's cell has the parent. -/
theorem climb_of_mem {t : Tree R} {previous : Row R} {budget : Int} {fuel : Nat}
    {chain cell : Proposal R} {top : Node R} (hfit : chain.cost ≤ budget)
    (hcell : previous.cell? (budget - chain.cost) = some cell) (hparent : 0 ≤ top.parent)
    (hmem : top.parent ∈ cell.ids) :
    t.climb previous budget (fuel + 1) chain top = .found ⟨chain, top.parent⟩ := by
  rw [climb, if_neg (not_lt.2 hfit), hcell]
  dsimp only
  rw [if_pos (Proposal.contains_iff.2 ⟨hparent, hmem⟩)]

/-- Where a climb stops. `I` is what one step up keeps; it has to say that the chain's top is a node
    of the tree below the root, so that the climb cannot leave the tree. -/
theorem climb_spec {t : Tree R} (previous : Row R) (budget : Int) (hl : t.Linked)
    (hwidth : budget < previous.size)
    (I : Proposal R → Node R → Prop)
    (hcost : ∀ {chain : Proposal R} {top : Node R}, I chain top → 0 ≤ chain.cost)
    (hnode : ∀ {chain : Proposal R} {top : Node R}, I chain top →
      t.node? top.id = some top ∧ top.id ≠ 0)
    (hstep : ∀ {chain : Proposal R} {top parent : Node R} {cell : Proposal R}, I chain top →
      chain.cost ≤ budget → previous.cell? (budget - chain.cost) = some cell →
      top.parent ∉ cell.ids → t.node? top.parent = some parent →
      I (chain.insert t parent.id) parent)
    (fuel : Nat) {chain : Proposal R} {top : Node R} (hI : I chain top) (hfuel : top.id < fuel) :
    (t.climb previous budget fuel chain top = .nothing ∧
      ∃ chain' top', I chain' top' ∧ budget < chain'.cost) ∨
    ∃ chain' top' cell, t.climb previous budget fuel chain top = .found ⟨chain', top'.parent⟩ ∧
      I chain' top' ∧ chain'.cost ≤ budget ∧
      previous.cell? (budget - chain'.cost) = some cell ∧ top'.parent ∈ cell.ids := by
  induction fuel generalizing chain top with
  | zero =>
    have := node?_bounds (hnode hI).1
    grind
  | succ fuel ih =>
    by_cases hfit : budget < chain.cost
    · rw [climb, if_pos hfit]
      exact Or.inl ⟨rfl, chain, top, hI, hfit⟩
    · have hle : chain.cost ≤ budget := by omega
      have hnonneg := hcost hI
      obtain ⟨cell, hcell⟩ := previous.exists_cell? (b := budget - chain.cost) (by omega) (by omega)
      obtain ⟨htop, hne⟩ := hnode hI
      obtain ⟨hpar0, hparlt⟩ := hl.parent_lt htop hne
      by_cases hmem : top.parent ∈ cell.ids
      · exact Or.inr ⟨chain, top, cell, climb_of_mem hle hcell hpar0 hmem, hI, hle, hcell, hmem⟩
      · rw [climb, if_neg hfit, hcell]
        dsimp only
        rw [if_neg (fun h => hmem (Proposal.contains_iff.1 h).2)]
        have hbounds := node?_bounds htop
        obtain ⟨parent, hparent⟩ := exists_node? (t := t) hpar0 (by grind)
        rw [hparent]
        have hid : parent.id = top.parent := hl.id_eq hparent
        exact ih (hstep hI hle hcell hmem hparent) (by grind)

/-! ## Searching the rows -/

/-- A cell that a chain cannot be attached to: it has one of the chain's nodes, or lacks the node
    that the chain hangs on. -/
def Refuses (chain : Chain R) (cell : Proposal R) : Prop :=
  (∃ x ∈ cell.ids, x ∈ chain.nodes.ids) ∨ chain.anchor ∉ cell.ids

omit [Scale R] in
theorem refuses_iff {chain : Chain R} {cell : Proposal R} (hanchor : 0 ≤ chain.anchor) :
    (cell.overlaps chain.nodes || !cell.contains chain.anchor) = true ↔ Refuses chain cell := by
  unfold Refuses
  rw [Bool.or_eq_true, Bool.not_eq_true', ← Bool.not_eq_true, ← Bool.not_eq_false,
    Proposal.overlaps_eq_false_iff, Bool.not_eq_true, ← Bool.not_eq_true,
    Proposal.contains_iff]
  constructor
  · rintro (h | h)
    · left
      by_contra hno
      exact h fun x hx hxc => hno ⟨x, hx, hxc⟩
    · exact Or.inr fun hmem => h ⟨hanchor, hmem⟩
  · rintro (⟨x, hx, hxc⟩ | h)
    · exact Or.inl fun hall => hall x hx hxc
    · exact Or.inr fun hmem => h hmem.2

/-- A search goes on behind a cell that refuses the chain. -/
theorem attach_of_refuses {t : Tree R} {budget : Int} {chain : Chain R} {row : Row R}
    {rows : List (Row R)} {cell : Proposal R} (hanchor : 0 ≤ chain.anchor)
    (hcell : row.cell? (budget - chain.nodes.cost) = some cell) (h : Refuses chain cell) :
    t.attach budget chain (row :: rows) = t.attach budget chain rows := by
  rw [attach, hcell]
  dsimp only
  rw [if_pos ((refuses_iff hanchor).2 h)]

/-- A search ends at a cell that does not refuse the chain. -/
theorem attach_of_accepts {t : Tree R} {budget : Int} {chain : Chain R} {row : Row R}
    {rows : List (Row R)} {cell : Proposal R} (hanchor : 0 ≤ chain.anchor)
    (hcell : row.cell? (budget - chain.nodes.cost) = some cell) (h : ¬ Refuses chain cell) :
    t.attach budget chain (row :: rows) =
      if budget < (cell.insertAll t chain.nodes.ids).cost then .nothing
      else .found (cell.insertAll t chain.nodes.ids) := by
  rw [attach, hcell]
  dsimp only
  rw [if_neg (fun hr => h ((refuses_iff hanchor).1 hr))]

/-- A search through the rows finds nothing, or the first cell that does not refuse the chain. -/
theorem attach_spec (t : Tree R) (budget : Int) (chain : Chain R) (rows : List (Row R))
    (hanchor : 0 ≤ chain.anchor)
    (hcells : ∀ row ∈ rows, ∃ cell, row.cell? (budget - chain.nodes.cost) = some cell) :
    t.attach budget chain rows = .nothing ∨
    ∃ row ∈ rows, ∃ cell, row.cell? (budget - chain.nodes.cost) = some cell ∧
      ¬ Refuses chain cell ∧
      t.attach budget chain rows =
        if budget < (cell.insertAll t chain.nodes.ids).cost then .nothing
        else .found (cell.insertAll t chain.nodes.ids) := by
  induction rows with
  | nil => exact Or.inl rfl
  | cons row rows ih =>
    obtain ⟨cell, hcell⟩ := hcells row List.mem_cons_self
    by_cases href : Refuses chain cell
    · rw [attach_of_refuses hanchor hcell href]
      rcases ih fun r hr => hcells r (List.mem_cons_of_mem _ hr) with h | ⟨row', hrow', h⟩
      · exact Or.inl h
      · exact Or.inr ⟨row', List.mem_cons_of_mem _ hrow', h⟩
    · exact Or.inr ⟨row, List.mem_cons_self, cell, hcell, href,
        attach_of_accepts hanchor hcell href⟩

/-- A node whose chain does not fit extends nothing. -/
theorem extend_of_nothing {t : Tree R} {previous : Row R} {rows : List (Row R)} {v : NodeId}
    {n : Node R} {budget : Int} (hn : t.node? v = some n)
    (h : t.climb previous budget t.size (Proposal.empty.insert t v) n = .nothing) :
    t.extend (previous :: rows) v budget = .nothing := by
  simp only [extend, hn, h]

/-- A node whose chain fits extends the cell that the chain can be attached to. -/
theorem extend_of_found {t : Tree R} {previous : Row R} {rows : List (Row R)} {v : NodeId}
    {n : Node R} {budget : Int} {chain : Chain R} (hn : t.node? v = some n)
    (h : t.climb previous budget t.size (Proposal.empty.insert t v) n = .found chain) :
    t.extend (previous :: rows) v budget = t.attach budget chain (previous :: rows) := by
  simp only [extend, hn, h]

/-- What extending the table by a node comes to: nothing, or a chain joined with a cell that does not
    refuse it. `I` is what one step of the climb keeps, as in `climb_spec`. -/
theorem extend_spec {t : Tree R} {previous : Row R} {rows : List (Row R)} {width : Nat}
    {budget : Int} (hl : t.Linked) (hsize : ∀ row ∈ previous :: rows, row.size = width)
    (hwidth : budget < width) (I : Proposal R → Node R → Prop)
    (hcost : ∀ {chain : Proposal R} {top : Node R}, I chain top → 0 ≤ chain.cost)
    (hnode : ∀ {chain : Proposal R} {top : Node R}, I chain top →
      t.node? top.id = some top ∧ top.id ≠ 0)
    (hstep : ∀ {chain : Proposal R} {top parent : Node R} {cell : Proposal R}, I chain top →
      chain.cost ≤ budget → previous.cell? (budget - chain.cost) = some cell →
      top.parent ∉ cell.ids → t.node? top.parent = some parent →
      I (chain.insert t parent.id) parent)
    {v : NodeId} {n : Node R} (hn : t.node? v = some n) (hI : I (Proposal.empty.insert t v) n) :
    t.extend (previous :: rows) v budget = .nothing ∨
    ∃ chain top, I chain top ∧ chain.cost ≤ budget ∧
      ∃ row ∈ previous :: rows, ∃ cell, row.cell? (budget - chain.cost) = some cell ∧
        ¬ Refuses ⟨chain, top.parent⟩ cell ∧
        t.extend (previous :: rows) v budget =
          if budget < (cell.insertAll t chain.ids).cost then .nothing
          else .found (cell.insertAll t chain.ids) := by
  have hprev : budget < previous.size := by rw [hsize previous List.mem_cons_self]; exact hwidth
  have hfuel : n.id < t.size := by rw [hl.id_eq hn]; exact (node?_bounds hn).2
  rcases climb_spec previous budget hl hprev I hcost hnode hstep t.size hI hfuel with
    ⟨hnothing, -⟩ | ⟨chain, top, -, hfound, htop, hle, -, -⟩
  · exact Or.inl (extend_of_nothing hn hnothing)
  · rw [extend_of_found hn hfound]
    have hcost0 := hcost htop
    obtain ⟨hnode, hne⟩ := hnode htop
    have hcells : ∀ row ∈ previous :: rows, ∃ cell, row.cell? (budget - chain.cost) = some cell := by
      intro row hrow
      have := hsize row hrow
      exact row.exists_cell? (by omega) (by omega)
    rcases attach_spec t budget ⟨chain, top.parent⟩ (previous :: rows) (hl.parent_lt hnode hne).1
      hcells with hnothing | hattach
    · exact Or.inl hnothing
    · exact Or.inr ⟨chain, top, htop, hle, hattach⟩

/-! ## Rows -/

/-- A map over a numbered list that fails nowhere has its results in their places. -/
theorem mapM_zipIdx_eq_some {α β : Type} {f : α × Nat → Option β} {l : List α} {k : Nat}
    (h : ∀ (b : Nat) (a : α), l[b]? = some a → ∃ c, f (a, k + b) = some c) :
    ∃ cs, (l.zipIdx k).mapM f = some cs ∧ cs.length = l.length ∧
      ∀ (b : Nat) (a : α), l[b]? = some a → cs[b]? = f (a, k + b) := by
  induction l generalizing k with
  | nil => exact ⟨[], rfl, rfl, by simp⟩
  | cons a l ih =>
    obtain ⟨c, hc⟩ := h 0 a rfl
    obtain ⟨cs, hcs, hlen, hget⟩ := ih (k := k + 1) fun b a' hb => by
      have := h (b + 1) a' hb
      rwa [show k + (b + 1) = k + 1 + b by omega] at this
    refine ⟨c :: cs, ?_, by simp [hlen], ?_⟩
    · have hc' : f (a, k) = some c := hc
      rw [List.zipIdx_cons, List.mapM_cons, hcs, hc']
      rfl
    · intro b a' hb
      cases b with
      | zero =>
        rw [List.getElem?_cons_zero] at hb ⊢
        rw [← Option.some.inj hb, hc]
      | succ b =>
        rw [List.getElem?_cons_succ] at hb ⊢
        rw [hget b a' hb, show k + 1 + b = k + (b + 1) by omega]

/-- If the cells of a new row can all be computed, the row has them at their budgets. -/
theorem rowFor_spec {t : Tree R} {rows : List (Row R)} {v : NodeId} {previous : Row R}
    (h : ∀ (b : Nat) (above : Proposal R), previous[b]? = some above →
      ∃ p, t.cellFor rows v above b = some p) :
    ∃ row, t.rowFor rows v previous = some row ∧ row.size = previous.size ∧
      ∀ (b : Nat) (above : Proposal R), previous[b]? = some above →
        row[b]? = t.cellFor rows v above b := by
  obtain ⟨cells, hcells, hlen, hget⟩ := mapM_zipIdx_eq_some
    (f := fun (above, budget) => t.cellFor rows v above budget) (l := previous.toList) (k := 0)
    fun b above hb => by
      rw [Nat.zero_add]
      exact h b above (by rwa [Array.getElem?_toList] at hb)
  refine ⟨cells.toArray, ?_, ?_, ?_⟩
  · unfold rowFor
    rw [hcells]
    rfl
  · rw [List.size_toArray, hlen, Array.length_toList]
  · intro b above hb
    rw [List.getElem?_toArray, hget b above (by rwa [Array.getElem?_toList]), Nat.zero_add]

/-- A property of all cells of a new row. -/
theorem rowFor_holds {t : Tree R} {rows : List (Row R)} {v : NodeId} {previous : Row R}
    {width : Nat} {P : Int → Proposal R → Prop} (hsize : previous.size = width)
    (h : ∀ (b : Nat) (above : Proposal R), b < width → previous.cell? b = some above →
      ∃ p, t.cellFor rows v above b = some p ∧ P b p) :
    ∃ row, t.rowFor rows v previous = some row ∧ Row.Holds width P row := by
  have hcell : ∀ (b : Nat) (above : Proposal R), previous[b]? = some above →
      ∃ p, t.cellFor rows v above b = some p ∧ P b p := by
    intro b above hb
    have habove : previous.cell? b = some above :=
      Row.cell?_eq_some_iff.2 ⟨by omega, by simpa using hb⟩
    have hlt := (Row.cell?_bounds habove).2
    exact h b above (by omega) habove
  obtain ⟨row, hrow, hsize', hget⟩ := rowFor_spec fun b above hb =>
    (hcell b above hb).imp fun _ h => h.1
  refine ⟨row, hrow, hsize'.trans hsize, ?_⟩
  intro b p hp
  obtain ⟨h0, hb⟩ := Row.cell?_eq_some_iff.1 hp
  have hlt := Row.cell?_bounds hp
  obtain ⟨above, habove⟩ := previous.exists_cell? h0 (by rw [← hsize']; exact hlt.2)
  have hprevious := (Row.cell?_eq_some_iff.1 habove).2
  obtain ⟨q, hq, hP⟩ := hcell b.toNat above hprevious
  rw [hget _ _ hprevious, hq] at hb
  rw [← Option.some.inj hb]
  rwa [Int.toNat_of_nonneg h0] at hP

/-- What holds of the first row and is kept by every new row holds of the whole table. `done` lists
    the nodes that have their row, newest first; `Q` is what is known of a node when its turn comes. -/
theorem fill_invariant {t : Tree R} (Q : List NodeId → NodeId → Prop)
    (J : List NodeId → List (Row R) → Prop)
    (hstep : ∀ {done : List NodeId} {previous : Row R} {rows : List (Row R)} {v : NodeId},
      Q done v → J done (previous :: rows) →
      ∃ row, t.rowFor (previous :: rows) v previous = some row ∧
        J (v :: done) (row :: previous :: rows))
    (vs done : List NodeId) (previous : Row R) (rows : List (Row R))
    (hvs : ∀ pre v post, vs = pre ++ v :: post → Q (pre.reverse ++ done) v)
    (hJ : J done (previous :: rows)) :
    ∃ last rows', t.fill vs (previous :: rows) = some (last :: rows') ∧
      J (vs.reverse ++ done) (last :: rows') := by
  induction vs generalizing done previous rows with
  | nil => exact ⟨previous, rows, rfl, hJ⟩
  | cons v vs ih =>
    obtain ⟨row, hrow, hJ'⟩ := hstep (hvs [] v vs rfl) hJ
    have hrest : ∀ pre w post, vs = pre ++ w :: post → Q (pre.reverse ++ v :: done) w := by
      intro pre w post hsplit
      have hQ := hvs (v :: pre) w post (by rw [hsplit]; rfl)
      rwa [List.reverse_cons, List.append_assoc] at hQ
    obtain ⟨last, rows', hfill, hlast⟩ := ih (v :: done) row (previous :: rows) hrest hJ'
    refine ⟨last, rows', ?_, by simpa using hlast⟩
    rw [fill, hrow]
    exact hfill

/-- The rows for a budget have room for their cells. -/
theorem maxEntries_lt_iff {budget : Int} :
    maxEntries 8 < budget.toNat + 1 ↔ 2 ^ 45 ≤ budget := by
  unfold maxEntries
  omega

/-- The plan is a cell of the last row. -/
theorem select_of_fill {t : Tree R} {budget : Int} {last : Row R} {rows : List (Row R)}
    (hroom : budget < 2 ^ 45) (h : t.fill (t.priorityOrder.drop 1)
      [Array.replicate (budget.toNat + 1) (Proposal.empty.insert t 0)] = some (last :: rows)) :
    t.select budget = last.cell? budget.toNat := by
  unfold select
  dsimp only
  rw [if_neg (mt maxEntries_lt_iff.1 (not_le.2 hroom)), h]

/-- There is no plan for a budget that no row has room for. -/
theorem select_eq_none {t : Tree R} {budget : Int} (hroom : 2 ^ 45 ≤ budget) :
    t.select budget = none := if_pos (maxEntries_lt_iff.2 hroom)

end Tree

end InlinePlan
