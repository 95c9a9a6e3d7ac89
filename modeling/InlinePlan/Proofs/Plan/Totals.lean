import InlinePlan.Proofs.CallTree.Links
import InlinePlan.Proofs.Plan.Worth
import Mathlib.Logic.Function.Basic

set_option autoImplicit false

/-! # Totals of proposals

A proposal keeps its totals beside its set. Everything that is done to a proposal is done by inserting
nodes one by one (`Proposal.left_add`, `Proposal.Kept.left_union`, `Proposal.Kept.select`), also
where it ends early because a node is not in the tree, and an insertion keeps the totals in step with
the set (`Proposal.InStep.insert`). Costs are summed up in 64 bits. -/

namespace InlinePlan

variable {R : Type}

/-- Words are added up in any order of cutting and adding. -/
theorem wrap_wrap_add (bits : Nat) (a b : Int) : wrap bits (wrap bits a + b) = wrap bits (a + b) := by
  simp only [wrap, BitVec.toInt_ofInt, Int.bmod_add_bmod]

theorem exists_of_mem_mapM {α β : Type} {f : α → Option β} {l : List α} {bs : List β} {b : β}
    (h : l.mapM f = some bs) (hb : b ∈ bs) : ∃ a ∈ l, f a = some b := by
  replace h := mapM_eq_some_iff.1 h
  induction h with
  | nil => cases hb
  | @cons a b' l bs hab _ ih =>
    rcases List.mem_cons.1 hb with rfl | hb
    · exact ⟨a, List.mem_cons_self, hab⟩
    · obtain ⟨a', ha', hab'⟩ := ih hb
      exact ⟨a', List.mem_cons_of_mem _ ha', hab'⟩

namespace Proposal

variable [Scale R] {t : Tree R} {p o : Proposal R} {id x : NodeId}

/-! ## Insertions -/

theorem nodes_insert (t : Tree R) (p : Proposal R) (id : NodeId) :
    (p.insert t id).nodes = Insert.insert id p.nodes := by
  ext x
  simp [mem_insert]

/-- A node that the tree does not have comes into the set without being counted. -/
theorem insert_of_outside (hnone : t.node? id = none) (hid : id ∉ p.ids) :
    p.insert t id = { p with ids := insertSorted id p.ids } := by
  rw [insert, if_neg (by simpa using hid), hnone]

theorem insert_of_new {n : Node R} (hn : t.node? id = some n) (hid : id ∉ p.ids) :
    p.insert t id = { ids := insertSorted id p.ids, cost := wrap 64 (p.cost + n.cost),
                      benefit := Scale.add p.benefit n.benefit } := by
  rw [insert, if_neg (by simpa using hid), hn]

/-- The nodes are listed in increasing order, and the stored cost is that of the nodes in the tree,
    summed up in 64 bits. -/
structure InStep (t : Tree R) (p : Proposal R) : Prop where
  increasing : p.ids.Pairwise (· < ·)
  cost_eq : p.cost = wrap 64 (t.costs p.nodes)

theorem InStep.empty (t : Tree R) : (Proposal.empty : Proposal R).InStep t where
  increasing := .nil
  cost_eq := rfl

theorem InStep.insert (h : p.InStep t) (id : NodeId) : (p.insert t id).InStep t := by
  by_cases hid : id ∈ p.ids
  · rwa [insert_of_mem hid]
  · have hcosts : t.costs (p.insert t id).nodes = t.costOf id + t.costs p.nodes := by
      rw [nodes_insert, Tree.costs, Finset.sum_insert (by simpa using hid)]
      rfl
    cases hn : t.node? id with
    | none =>
      have hzero : t.costOf id = 0 := by rw [Tree.costOf, hn, Option.elim_none]
      rw [hzero, zero_add] at hcosts
      rw [insert_of_outside hn hid] at hcosts ⊢
      exact ⟨pairwise_insertSorted h.increasing hid, by rw [hcosts]; exact h.cost_eq⟩
    | some n =>
      rw [insert_of_new hn hid] at hcosts ⊢
      refine ⟨pairwise_insertSorted h.increasing hid, ?_⟩
      rw [hcosts, Tree.costOf_eq hn, add_comm n.cost]
      show wrap 64 (p.cost + n.cost) = wrap 64 (t.costs p.nodes + n.cost)
      rw [h.cost_eq, wrap_wrap_add]

/-- The benefit stays that of the nodes in the tree. -/
theorem Weighed.insert_any {t : Tree Rat} {p : Proposal Rat} (h : p.Weighed t) (id : NodeId) :
    (p.insert t id).Weighed t := by
  cases hn : t.node? id with
  | some n => exact h.insert hn
  | none =>
    by_cases hid : id ∈ p.ids
    · rwa [insert_of_mem hid]
    · have hzero : t.benefitOf id = 0 := by rw [Tree.benefitOf, hn, Option.elim_none]
      rw [Weighed, nodes_insert, Tree.worth, Finset.sum_insert (by simpa using hid), hzero, zero_add,
        insert_of_outside hn hid]
      exact h

/-! ## Additions -/

/-- What a step leaves of a proposal, also where it ends early. -/
def left (step : EStateM MissingNode (Proposal R) Unit) (p : Proposal R) : Proposal R :=
  match step p with
  | .ok _ p' => p'
  | .error _ p' => p'

/-- A node can be added if it is in the proposal or in the tree. -/
def Known (t : Tree R) (p : Proposal R) (id : NodeId) : Prop :=
  id ∈ p.ids ∨ ∃ n, t.node? id = some n

omit [Scale R] in
theorem not_known_iff : ¬p.Known t id ↔ id ∉ p.ids ∧ t.node? id = none := by
  rw [Known, not_or, ← Option.isSome_iff_exists, Option.not_isSome_iff_eq_none]

theorem add_of_known (h : p.Known t id) : add t id p = .ok () (p.insert t id) := by
  rw [add, if_pos]
  rw [Bool.or_eq_true, List.contains_iff_mem, Option.isSome_iff_exists]
  exact h

/-- A node that is neither is reported, but it comes into the set. -/
theorem add_of_not_known (h : ¬p.Known t id) : add t id p = .error ⟨id⟩ (p.insert t id) := by
  rw [add, if_neg]
  rw [Bool.or_eq_true, List.contains_iff_mem, Option.isSome_iff_exists]
  exact h

@[simp]
theorem left_add (t : Tree R) (p : Proposal R) (id : NodeId) :
    left (add t id) p = p.insert t id := by
  unfold left
  by_cases h : p.Known t id
  · rw [add_of_known h]
  · rw [add_of_not_known h]

theorem add_eq_error_iff :
    add t id p = .error ⟨id⟩ (p.insert t id) ↔ id ∉ p.ids ∧ t.node? id = none := by
  rw [← not_known_iff]
  by_cases h : p.Known t id
  · rw [add_of_known h]
    constructor
    · intro heq
      cases heq
    · exact fun hnot => absurd h hnot
  · exact ⟨fun _ => h, fun _ => add_of_not_known h⟩

theorem totals_insert_of_outside (hnone : t.node? id = none) :
    (p.insert t id).cost = p.cost ∧ (p.insert t id).benefit = p.benefit := by
  by_cases hid : id ∈ p.ids
  · rw [insert_of_mem hid]
    exact ⟨rfl, rfl⟩
  · rw [insert_of_outside hnone hid]
    exact ⟨rfl, rfl⟩

theorem insert_insert (t : Tree R) (p : Proposal R) (id : NodeId) :
    (p.insert t id).insert t id = p.insert t id :=
  insert_of_mem (mem_insert.2 (.inl rfl))

/-- An addition can be repeated, also one that was reported. -/
theorem add_insert (t : Tree R) (p : Proposal R) (id : NodeId) :
    add t id (p.insert t id) = .ok () (p.insert t id) := by
  rw [add_of_known (.inl (mem_insert.2 (.inl rfl))), insert_insert]

theorem known_insert_iff : (p.insert t id).Known t x ↔ x = id ∨ p.Known t x := by
  unfold Known
  rw [mem_insert, or_assoc]

theorem forM_add_cons (t : Tree R) (p : Proposal R) (id : NodeId) (ids : List NodeId) :
    (id :: ids).forM (add t) p = match add t id p with
      | .ok _ p' => ids.forM (add t) p'
      | .error e p' => .error e p' := by
  show (add t id >>= fun _ => ids.forM (add t)) p = _
  simp only [bind, EStateM.bind]
  cases add t id p <;> rfl

/-- Nodes can be added one by one if each of them can be added. -/
theorem forM_add_eq_ok_iff {ids : List NodeId} {p' : Proposal R} :
    ids.forM (add t) p = .ok () p' ↔ (∀ id ∈ ids, p.Known t id) ∧ p' = p.insertAll t ids := by
  induction ids generalizing p with
  | nil =>
    constructor
    · intro h
      cases h
      exact ⟨fun id hid => absurd hid List.not_mem_nil, rfl⟩
    · rintro ⟨-, rfl⟩
      rfl
  | cons id ids ih =>
    rw [forM_add_cons, List.forall_mem_cons]
    by_cases hid : p.Known t id
    · rw [add_of_known hid]
      dsimp only
      rw [ih]
      refine and_congr_left fun _ => ?_
      simp only [known_insert_iff, hid, true_and]
      refine forall₂_congr fun x _ => or_iff_right_of_imp ?_
      rintro rfl
      exact hid
    · rw [add_of_not_known hid]
      constructor
      · intro h
        cases h
      · intro h
        exact absurd h.1.1 hid

/-- Adding nodes one by one adds those up to the first that cannot be added. -/
theorem exists_left_forM_add (t : Tree R) (p : Proposal R) (ids : List NodeId) :
    ∃ taken, taken <+: ids ∧ left (ids.forM (add t)) p = p.insertAll t taken := by
  induction ids generalizing p with
  | nil => exact ⟨[], List.nil_prefix, rfl⟩
  | cons id ids ih =>
    unfold left
    rw [forM_add_cons]
    by_cases hid : p.Known t id
    · obtain ⟨taken, hprefix, htaken⟩ := ih (p.insert t id)
      rw [add_of_known hid]
      exact ⟨id :: taken, List.cons_prefix_cons.2 ⟨rfl, hprefix⟩, htaken⟩
    · rw [add_of_not_known hid]
      exact ⟨[id], List.cons_prefix_cons.2 ⟨rfl, List.nil_prefix⟩, rfl⟩

theorem insertAll_of_subset {ids : List NodeId} (h : ∀ id ∈ ids, id ∈ p.ids) :
    p.insertAll t ids = p := by
  unfold insertAll
  induction ids with
  | nil => rfl
  | cons id ids ih =>
    rw [List.foldl_cons, insert_of_mem (h id List.mem_cons_self)]
    exact ih fun i hi => h i (List.mem_cons_of_mem _ hi)

/-- A union ends well if each node of the other proposal can be added; it adds these. -/
theorem union_eq_ok_iff {p' : Proposal R} : union t o p = .ok () p' ↔
    (∀ id ∈ o.ids, p.Known t id) ∧ p' = p.insertAll t o.ids :=
  forM_add_eq_ok_iff

/-- The nodes of the other proposal are all there when a union has ended well. -/
theorem union_union {p' : Proposal R} (h : union t o p = .ok () p') :
    union t o p' = .ok () p' := by
  obtain ⟨-, rfl⟩ := union_eq_ok_iff.1 h
  have hmem : ∀ id ∈ o.ids, id ∈ (p.insertAll t o.ids).ids := fun _ hid => mem_insertAll.2 (.inl hid)
  exact union_eq_ok_iff.2 ⟨fun id hid => .inl (hmem id hid), (insertAll_of_subset hmem).symm⟩

/-! ## What insertions keep -/

/-- A property of proposals that holds of the empty one and is kept by insertions. -/
structure Kept (t : Tree R) (P : Proposal R → Prop) : Prop where
  empty : P Proposal.empty
  insert : ∀ (p : Proposal R) (id : NodeId), P p → P (p.insert t id)

variable {P : Proposal R → Prop}

theorem Kept.insertAll (h : Kept t P) (hp : P p) (ids : List NodeId) : P (p.insertAll t ids) := by
  unfold Proposal.insertAll
  induction ids generalizing p with
  | nil => exact hp
  | cons id ids ih => exact ih (h.insert p id hp)

theorem Kept.left_union (h : Kept t P) (hp : P p) (o : Proposal R) : P (left (union t o) p) := by
  obtain ⟨taken, -, htaken⟩ := exists_left_forM_add t p o.ids
  rw [union, htaken]
  exact h.insertAll hp taken

/-! ## Selections -/

/-- All proposals of a table have a property. -/
def Throughout (P : Proposal R → Prop) (rows : List (Row R)) : Prop :=
  ∀ row ∈ rows, ∀ q ∈ row, P q

omit [Scale R] in
theorem Throughout.cell {rows : List (Row R)} {row : Row R} {b : Int} {q : Proposal R}
    (h : Throughout P rows) (hrow : row ∈ rows) (hq : row.cell? b = some q) : P q :=
  h row hrow q (Array.mem_of_getElem? (Row.cell?_eq_some_iff.1 hq).2)

theorem Kept.climb (h : Kept t P) {previous : Row R} {budget : Int} {fuel : Nat}
    {top : Node R} {chain : Chain R} (hp : P p)
    (hclimb : t.climb previous budget fuel p top = .found chain) : P chain.nodes := by
  induction fuel generalizing p top with
  | zero => cases hclimb
  | succ fuel ih =>
    rw [Tree.climb] at hclimb
    split at hclimb
    · cases hclimb
    · split at hclimb
      · cases hclimb
      · split at hclimb
        · cases hclimb
          exact hp
        · split at hclimb
          · cases hclimb
          · exact ih (h.insert _ _ hp) hclimb

theorem Kept.attach (h : Kept t P) {budget : Int} {chain : Chain R} {rows : List (Row R)}
    (hrows : Throughout P rows) (hattach : t.attach budget chain rows = .found p) : P p := by
  induction rows with
  | nil => cases hattach
  | cons row rows ih =>
    rw [Tree.attach] at hattach
    split at hattach
    · cases hattach
    · rename_i cell hcell
      split at hattach
      · exact ih (fun r hr => hrows r (List.mem_cons_of_mem _ hr)) hattach
      · dsimp only at hattach
        split at hattach
        · cases hattach
        · cases hattach
          exact h.insertAll (hrows.cell List.mem_cons_self hcell) _

theorem Kept.extend (h : Kept t P) {rows : List (Row R)} {v : NodeId} {budget : Int}
    (hrows : Throughout P rows) (hextend : t.extend rows v budget = .found p) : P p := by
  unfold Tree.extend at hextend
  split at hextend
  · split at hextend
    · cases hextend
    · cases hextend
    · exact h.attach hrows hextend
  · cases hextend

theorem Kept.cellFor (h : Kept t P) {rows : List (Row R)} {v : NodeId} {above : Proposal R}
    {budget : Nat} (hrows : Throughout P rows) (habove : P above)
    (hcell : t.cellFor rows v above budget = some p) : P p := by
  unfold Tree.cellFor at hcell
  split at hcell
  · cases hcell
  · cases hcell
    exact habove
  · rename_i q hq
    cases hcell
    split
    · exact h.extend hrows hq
    · exact habove

theorem Kept.rowFor (h : Kept t P) {rows : List (Row R)} {v : NodeId} {previous row : Row R}
    (hrows : Throughout P rows) (hprevious : ∀ q ∈ previous, P q)
    (hrow : t.rowFor rows v previous = some row) : ∀ q ∈ row, P q := by
  obtain ⟨cells, hcells, rfl⟩ := Option.map_eq_some_iff.1 hrow
  intro q hq
  rw [List.mem_toArray] at hq
  obtain ⟨⟨above, budget⟩, hmem, hcell⟩ := exists_of_mem_mapM hcells hq
  have habove := List.fst_mem_of_mem_zipIdx hmem
  exact h.cellFor hrows (hprevious above (Array.mem_toList_iff.1 habove)) hcell

theorem Kept.fill (h : Kept t P) {vs : List NodeId} {rows rows' : List (Row R)}
    (hrows : Throughout P rows) (hfill : t.fill vs rows = some rows') : Throughout P rows' := by
  induction vs generalizing rows with
  | nil =>
    cases hfill
    exact hrows
  | cons v vs ih =>
    unfold Tree.fill at hfill
    split at hfill
    · cases hfill
    · rename_i previous older
      split at hfill
      · cases hfill
      · rename_i row hrow
        refine ih (List.forall_mem_cons.2 ⟨?_, hrows⟩) hfill
        exact h.rowFor hrows (hrows previous List.mem_cons_self) hrow

/-- A selection is put together by insertions. -/
theorem Kept.select (h : Kept t P) {budget : Int} (hselect : t.select budget = some p) : P p := by
  unfold Tree.select at hselect
  dsimp only at hselect
  split at hselect
  · cases hselect
  split at hselect
  · rename_i last older hfill
    refine Throughout.cell (h.fill ?_ hfill) List.mem_cons_self hselect
    rintro row hrow q hq
    rw [List.mem_singleton.1 hrow, Array.mem_replicate] at hq
    rw [hq.2]
    exact h.insert _ _ h.empty
  · cases hselect

end Proposal

/-! ## Histories -/

/-- Proposals, each under a number. -/
abbrev Desk (R : Type) := Nat → Proposal R

/-- What can be done to the proposal under a number. -/
inductive DeskOp where
  | new (p : Nat)
  | add (p : Nat) (id : NodeId)
  | union (p o : Nat)
  | clone (p original : Nat)
  | select (p : Nat) (budget : Int)

/-- The proposal that is written to. -/
def DeskOp.target : DeskOp → Nat
  | .new p => p
  | .add p _ => p
  | .union p _ => p
  | .clone p _ => p
  | .select p _ => p

namespace Desk

open Proposal

variable [Scale R] {t : Tree R} {d : Desk R} {op : DeskOp} {P : Proposal R → Prop}

/-- What is under the number that an operation writes to when it is over. One that ends early leaves
    what it has written so far; a choice without an answer writes nothing. -/
def outcome (t : Tree R) (d : Desk R) : DeskOp → Proposal R
  | .new _ => Proposal.empty
  | .add p id => left (Proposal.add t id) (d p)
  | .union p o => left (Proposal.union t (d o)) (d p)
  | .clone _ original => d original
  | .select p budget => (t.select budget).getD (d p)

def perform (t : Tree R) (d : Desk R) (op : DeskOp) : Desk R :=
  Function.update d op.target (d.outcome t op)

/-- Operations one after another, from empty proposals. -/
def after (t : Tree R) (ops : List DeskOp) : Desk R :=
  ops.foldl (perform t) fun _ => Proposal.empty

theorem outcome_of_kept (h : Kept t P) (hd : ∀ p, P (d p)) (op : DeskOp) :
    P (d.outcome t op) := by
  cases op with
  | new => exact h.empty
  | add p id =>
    rw [outcome, left_add]
    exact h.insert _ id (hd p)
  | union p o => exact h.left_union (hd p) (d o)
  | clone _ original => exact hd original
  | select p budget =>
    show P ((t.select budget).getD (d p))
    cases hselect : t.select budget with
    | none => exact hd p
    | some chosen => exact h.select hselect

theorem perform_of_kept (h : Kept t P) (hd : ∀ p, P (d p)) (op : DeskOp) (p : Nat) :
    P (d.perform t op p) := by
  rw [perform, Function.update_apply]
  split
  · exact outcome_of_kept h hd op
  · exact hd p

/-- What insertions keep is kept by all operations. -/
theorem after_of_kept (h : Kept t P) (ops : List DeskOp) (p : Nat) : P (after t ops p) := by
  unfold after
  suffices hd : ∀ d : Desk R, (∀ p, P (d p)) → ∀ p, P (ops.foldl (perform t) d p) from
    hd _ (fun _ => h.empty) p
  induction ops with
  | nil => exact fun _ hd => hd
  | cons op ops ih => exact fun d hd => ih _ (perform_of_kept h hd op)

/-- A proposal stays as it is as long as it is not written to. -/
theorem foldl_perform_of_target_ne {p : Nat} (ops : List DeskOp) (h : ∀ op ∈ ops, op.target ≠ p) :
    ops.foldl (perform t) d p = d p := by
  induction ops generalizing d with
  | nil => rfl
  | cons op ops ih =>
    rw [List.forall_mem_cons] at h
    rw [List.foldl_cons, ih h.2, perform, Function.update_of_ne h.1.symm]

end Desk

theorem Proposal.kept_inStep [Scale R] (t : Tree R) : Kept t (Proposal.InStep t) where
  empty := .empty t
  insert := fun _ id h => h.insert id

theorem Proposal.kept_weighed (t : Tree Rat) : Kept t (Proposal.Weighed t) where
  empty := .empty t
  insert := fun _ id h => h.insert_any id

/-- Whatever is done to proposals, also where it ends early, each of them is an increasing list of
    nodes, and its totals are those of the nodes that the tree has: the cost summed up in 64 bits,
    which is exact if the sum is within them, and the benefit exactly. An addition puts in the node
    and does nothing when repeated; it is reported for a node that the tree does not have, which
    changes neither total. A union ends well if each node can be added; it then puts in the other
    set and does nothing when repeated. What is done to a copy leaves the original as it was, and
    the other way round. -/
theorem totals_in_step [Scale R] (t : Tree R) (ops : List DeskOp) :
    (∀ p, (Desk.after t ops p).ids.Pairwise (· < ·)
      ∧ (Desk.after t ops p).cost = wrap 64 (t.costs (Desk.after t ops p).nodes)
      ∧ (-2 ^ 63 ≤ t.costs (Desk.after t ops p).nodes →
          t.costs (Desk.after t ops p).nodes < 2 ^ 63 →
          (Desk.after t ops p).cost = t.costs (Desk.after t ops p).nodes))
    ∧ (∀ (u : Tree Rat) (p : Nat),
        (Desk.after u ops p).benefit = u.worth (Desk.after u ops p).nodes)
    ∧ (∀ (p : Proposal R) (id : NodeId), ∃ p', Proposal.left (Proposal.add t id) p = p'
        ∧ p'.nodes = insert id p.nodes
        ∧ Proposal.add t id p' = .ok () p'
        ∧ (Proposal.add t id p = .error ⟨id⟩ p' ↔ id ∉ p.ids ∧ t.node? id = none)
        ∧ (t.node? id = none → p'.cost = p.cost ∧ p'.benefit = p.benefit))
    ∧ (∀ p o : Proposal R,
        ((∃ p', Proposal.union t o p = .ok () p') ↔ ∀ id ∈ o.ids, p.Known t id)
        ∧ ∀ p', Proposal.union t o p = .ok () p' →
            p'.nodes = p.nodes ∪ o.nodes ∧ Proposal.union t o p' = .ok () p')
    ∧ ∀ (d : Desk R) (copy original : Nat) (more : List DeskOp),
        ((∀ op ∈ more, op.target ≠ original) →
          more.foldl (Desk.perform t) (d.perform t (.clone copy original)) original = d original)
        ∧ ((∀ op ∈ more, op.target ≠ copy) →
          more.foldl (Desk.perform t) (d.perform t (.clone copy original)) copy = d original) := by
  refine ⟨fun p => ?_, fun u p => Desk.after_of_kept (Proposal.kept_weighed u) ops p,
    fun p id => ?_, fun p o => ⟨?_, fun p' h => ⟨?_, Proposal.union_union h⟩⟩,
    fun d copy original more => ⟨fun h => ?_, fun h => ?_⟩⟩
  · have h := Desk.after_of_kept (Proposal.kept_inStep t) ops p
    refine ⟨h.increasing, h.cost_eq, fun hlo hhi => ?_⟩
    rw [h.cost_eq, wrap_eq_self hlo hhi (by decide)]
  · exact ⟨_, Proposal.left_add t p id, Proposal.nodes_insert t p id, Proposal.add_insert t p id,
      Proposal.add_eq_error_iff, Proposal.totals_insert_of_outside⟩
  · simp only [Proposal.union_eq_ok_iff, exists_and_left, exists_eq, and_true]
  · obtain ⟨-, rfl⟩ := Proposal.union_eq_ok_iff.1 h
    ext x
    simp [Proposal.mem_insertAll, or_comm]
  · rw [Desk.foldl_perform_of_target_ne more h, Desk.perform, Function.update_apply]
    split
    · rfl
    · rfl
  · rw [Desk.foldl_perform_of_target_ne more h, Desk.perform]
    exact Function.update_self _ _ _

/-- Two calls that are too large for one proposal. -/
def vastCalls : List (NodeId × Call Rat) :=
  [(noNode, plainCall 7 0), (0, plainCall (2 ^ 62) 3), (0, plainCall (2 ^ 62) 4)]

def vastTree : Tree Rat := (Tree.addAll {} vastCalls).toOption.getD {}

/-- A proposal, a copy of it that gets more nodes, some of them of no tree, and a choice that takes
    in the copy. -/
def errands : List DeskOp :=
  [.new 0, .add 0 2, .add 0 0, .add 0 2, .clone 1 0, .add 1 9, .add 1 3, .select 2 13, .union 2 1,
    .add 0 (-1)]

theorem totals_in_step_errands :
    ((Desk.after chainAndLeaf errands 0).ids, (Desk.after chainAndLeaf errands 0).cost)
        = ([-1, 0, 2], 5)
    ∧ ((Desk.after chainAndLeaf errands 1).ids, (Desk.after chainAndLeaf errands 1).cost)
        = ([0, 2, 3, 9], 13)
    ∧ (Desk.after chainAndLeaf errands 2).ids = [0, 1, 2, 3, 9]
    ∧ (Desk.after chainAndLeaf errands 2).cost
        = chainAndLeaf.costs (Desk.after chainAndLeaf errands 2).nodes := by
  refine ⟨by decide +kernel, by decide +kernel, by decide +kernel, ?_⟩
  exact ((totals_in_step chainAndLeaf errands).1 2).2.2 (by decide +kernel) (by decide +kernel)

/-- The cost of two calls that together are larger than 64 bits is stored as a negative number. A
    union ends at the first node that the tree does not have, and when it is repeated it goes on. -/
theorem totals_wrap_and_unions_resume :
    (vastTree.Built
      ∧ (Desk.after vastTree [.new 0, .add 0 1, .add 0 2] 0).cost = -2 ^ 63
      ∧ vastTree.costs (Desk.after vastTree [.new 0, .add 0 1, .add 0 2] 0).nodes = 2 ^ 63)
    ∧ chainAndLeaf.Built
    ∧ (Desk.after chainAndLeaf [.add 1 8, .add 1 9, .new 0, .union 0 1] 0).ids = [8]
    ∧ (Desk.after chainAndLeaf [.add 1 8, .add 1 9, .new 0, .union 0 1, .union 0 1] 0).ids
        = [8, 9] := by
  exact ⟨⟨Tree.Built.empty.addAll vastCalls (by rfl), by decide +kernel, by decide +kernel⟩,
    Tree.Built.empty.addAll chainAndLeafCalls (by rfl), by decide +kernel, by decide +kernel⟩

end InlinePlan
