import InlinePlan.Plan.Proposal
import InlinePlan.Proofs.CallTree.Arena
import Mathlib.Algebra.Order.BigOperators.Group.List
import Mathlib.Algebra.Order.Ring.Int
import Mathlib.Data.List.Perm.Subperm
import Mathlib.Tactic.Linarith
import Mathlib.Tactic.Ring

set_option autoImplicit false

/-! # Proposals and their totals

A proposal stores its cost. As long as the sizes in a tree are not negative and their sum stays
within 64 bits (`Tree.Sized`), the stored cost is the sum over the nodes of the proposal, whatever
was inserted and in which order (`Proposal.Counted`). -/

namespace InlinePlan

/-- An integer within the range of a width is its own wrapped value. -/
theorem wrap_eq_self {bits : Nat} {v : Int} (hlo : -2 ^ (bits - 1) ≤ v) (hhi : v < 2 ^ (bits - 1))
    (hbits : 0 < bits) : wrap bits v = v := by
  obtain ⟨k, rfl⟩ : ∃ k, bits = k + 1 := ⟨bits - 1, by omega⟩
  simp only [Nat.add_sub_cancel] at hlo hhi
  unfold wrap
  rw [BitVec.toInt_ofInt]
  have hpow : ((2 ^ (k + 1) : Nat) : Int) = 2 * 2 ^ k := by push_cast; ring
  exact Int.bmod_eq_of_le_mul_two (by rw [hpow]; linarith) (by rw [hpow]; linarith)

namespace Tree

variable {R : Type}

/-! ## Sums over nodes -/

/-- The cost of a node; nothing for a number that the tree does not have. -/
def costOf (t : Tree R) (id : NodeId) : Int := (t.node? id).elim 0 Node.cost

/-- The summed cost of nodes. -/
def costSum (t : Tree R) (ids : List NodeId) : Int := (ids.map t.costOf).sum

/-- The numbers of all nodes. -/
def allIds (t : Tree R) : List NodeId := (List.range t.size).map fun (i : Nat) => (i : NodeId)

/-- No method has a negative size, and the costs of all nodes together fit into 64 bits. -/
structure Sized (t : Tree R) : Prop where
  size_nonneg : ∀ n ∈ t.nodes.toList, 0 ≤ n.method.size
  total_lt : (t.nodes.toList.map Node.cost).sum < 2 ^ 63

theorem mem_allIds {t : Tree R} {i : NodeId} : i ∈ t.allIds ↔ 0 ≤ i ∧ i < t.size := by
  unfold allIds
  rw [List.mem_map]
  constructor
  · rintro ⟨k, hk, rfl⟩
    have := List.mem_range.1 hk
    grind
  · intro h
    exact ⟨i.toNat, List.mem_range.2 (by grind), by grind⟩

theorem costOf_eq {t : Tree R} {i : NodeId} {n : Node R} (h : t.node? i = some n) :
    t.costOf i = n.cost := by
  unfold costOf; rw [h]; rfl

theorem length_allIds (t : Tree R) : t.allIds.length = t.size := by
  rw [allIds, List.length_map, List.length_range]

/-- What the nodes have, in the order of their numbers. -/
theorem map_allIds {α : Type} (t : Tree R) (absent : α) (f : Node R → α) :
    t.allIds.map (fun i => (t.node? i).elim absent f) = t.nodes.toList.map f := by
  apply List.ext_getElem
  · simp [length_allIds, size]
  · intro i h₁ h₂
    have hi : i < t.nodes.size := by simpa using h₂
    have hn : t.node? (i : NodeId) = some t.nodes[i] :=
      node?_eq_some_iff.2 ⟨Int.natCast_nonneg i, by simp [hi]⟩
    simp [allIds, hn]

theorem costSum_allIds (t : Tree R) : t.costSum t.allIds = (t.nodes.toList.map Node.cost).sum :=
  congrArg List.sum (t.map_allIds 0 Node.cost)

/-- A node costs nothing, or its size. -/
theorem costOf_cases (t : Tree R) (i : NodeId) :
    t.costOf i = 0 ∨ ∃ n ∈ t.nodes.toList, t.costOf i = n.method.size := by
  unfold costOf
  cases hn : t.node? i with
  | none => exact Or.inl rfl
  | some n =>
    show n.cost = 0 ∨ ∃ m ∈ t.nodes.toList, n.cost = m.method.size
    unfold Node.cost
    split
    · exact Or.inl rfl
    · refine Or.inr ⟨n, ?_, rfl⟩
      rw [Array.mem_toList_iff]
      exact Array.mem_of_getElem? (node?_eq_some_iff.1 hn).2

theorem costOf_nonneg {t : Tree R} (hsize : ∀ n ∈ t.nodes.toList, 0 ≤ n.method.size) (i : NodeId) :
    0 ≤ t.costOf i := by
  rcases t.costOf_cases i with h | ⟨n, hn, h⟩
  · exact ge_of_eq h
  · rw [h]
    exact hsize n hn

theorem Sized.costOf_nonneg {t : Tree R} (hs : t.Sized) (i : NodeId) : 0 ≤ t.costOf i :=
  Tree.costOf_nonneg hs.size_nonneg i

theorem costSum_perm {t : Tree R} {is js : List NodeId} (h : is.Perm js) :
    t.costSum is = t.costSum js :=
  (h.map _).sum_eq

@[simp]
theorem costSum_nil (t : Tree R) : t.costSum [] = 0 := rfl

@[simp]
theorem costSum_cons (t : Tree R) (i : NodeId) (is : List NodeId) :
    t.costSum (i :: is) = t.costOf i + t.costSum is := by
  simp [costSum]

@[simp]
theorem costSum_append (t : Tree R) (is js : List NodeId) :
    t.costSum (is ++ js) = t.costSum is + t.costSum js := by
  simp [costSum]

theorem costSum_nonneg {t : Tree R} (hcost : ∀ i, 0 ≤ t.costOf i) (is : List NodeId) :
    0 ≤ t.costSum is := by
  apply List.sum_nonneg
  intro c hc
  obtain ⟨i, -, rfl⟩ := List.mem_map.1 hc
  exact hcost i

theorem Sized.costSum_nonneg {t : Tree R} (hs : t.Sized) (is : List NodeId) :
    0 ≤ t.costSum is :=
  Tree.costSum_nonneg hs.costOf_nonneg is

/-- Fewer nodes cost no more. -/
theorem Sized.costSum_le_of_subset {t : Tree R} (hs : t.Sized) {is js : List NodeId}
    (hnodup : is.Nodup) (hsub : is ⊆ js) : t.costSum is ≤ t.costSum js := by
  obtain ⟨ks, hperm, hsublist⟩ := List.subperm_of_subset hnodup hsub
  rw [← costSum_perm hperm]
  refine (hsublist.map t.costOf).sum_le_sum ?_
  intro c hc
  obtain ⟨i, -, rfl⟩ := List.mem_map.1 hc
  exact hs.costOf_nonneg i

/-- The cost of different nodes of the tree fits into 64 bits. -/
theorem Sized.costSum_lt {t : Tree R} (hs : t.Sized) {is : List NodeId} (hnodup : is.Nodup)
    (htree : ∀ i ∈ is, ∃ n, t.node? i = some n) : t.costSum is < 2 ^ 63 := by
  have hsub : is ⊆ t.allIds := by
    intro i hi
    obtain ⟨n, hn⟩ := htree i hi
    exact mem_allIds.2 (node?_bounds hn)
  calc t.costSum is ≤ t.costSum t.allIds := hs.costSum_le_of_subset hnodup hsub
    _ = (t.nodes.toList.map Node.cost).sum := costSum_allIds t
    _ < 2 ^ 63 := hs.total_lt

end Tree

theorem perm_insertSorted (id : NodeId) (is : List NodeId) :
    (insertSorted id is).Perm (id :: is) := by
  induction is with
  | nil => exact List.Perm.refl _
  | cons i is ih =>
    rw [insertSorted]
    split
    · exact List.Perm.refl _
    · exact (ih.cons i).trans (List.Perm.swap _ _ _)

namespace Proposal

variable {R : Type} [Scale R]

/-! ## Membership -/

omit [Scale R] in
theorem contains_iff {p : Proposal R} {id : NodeId} :
    p.contains id = true ↔ 0 ≤ id ∧ id ∈ p.ids := by
  simp [contains]

omit [Scale R] in
theorem overlaps_eq_false_iff {p o : Proposal R} :
    p.overlaps o = false ↔ ∀ x ∈ p.ids, x ∉ o.ids := by
  simp [overlaps]

theorem mem_insert {t : Tree R} {p : Proposal R} {x id : NodeId} :
    x ∈ (p.insert t id).ids ↔ x = id ∨ x ∈ p.ids := by
  unfold insert
  split
  case isTrue h =>
    have hid : id ∈ p.ids := by simpa using h
    constructor
    · exact Or.inr
    · rintro (rfl | hx)
      · exact hid
      · exact hx
  case isFalse =>
    dsimp only
    split <;> exact mem_insertSorted

theorem mem_insertAll {t : Tree R} {p : Proposal R} {x : NodeId} {is : List NodeId} :
    x ∈ (p.insertAll t is).ids ↔ x ∈ is ∨ x ∈ p.ids := by
  unfold insertAll
  induction is generalizing p with
  | nil => simp
  | cons i is ih =>
    rw [List.foldl_cons, ih, mem_insert, List.mem_cons]
    grind

/-- The proposal of one node. -/
theorem ids_single {t : Tree R} {id : NodeId} {n : Node R} (h : t.node? id = some n) :
    (Proposal.empty.insert t id).ids = [id] := by
  simp [insert, empty, h, insertSorted]

/-! ## Totals -/

/-- The proposal has different nodes of the tree, in increasing order, and stores what they cost. -/
structure Counted (t : Tree R) (p : Proposal R) : Prop where
  increasing : p.ids.Pairwise (· < ·)
  inTree : ∀ id ∈ p.ids, ∃ n, t.node? id = some n
  cost_eq : p.cost = t.costSum p.ids

omit [Scale R] in
theorem Counted.nodup {t : Tree R} {p : Proposal R} (hp : p.Counted t) : p.ids.Nodup :=
  hp.increasing.imp fun h => ne_of_lt h

theorem Counted.empty (t : Tree R) : (Proposal.empty : Proposal R).Counted t where
  increasing := List.Pairwise.nil
  inTree := fun _ h => absurd h List.not_mem_nil
  cost_eq := rfl

theorem insert_of_mem {t : Tree R} {p : Proposal R} {id : NodeId} (h : id ∈ p.ids) :
    p.insert t id = p := by
  unfold Proposal.insert
  rw [if_pos (by simpa using h)]

/-- Inserting a node of the tree counts it, if the two costs together fit into 64 bits. -/
theorem Counted.insert_of_lt {t : Tree R} {p : Proposal R} {id : NodeId} {n : Node R}
    (hp : p.Counted t) (hn : t.node? id = some n)
    (hfit : id ∉ p.ids → 0 ≤ p.cost + n.cost ∧ p.cost + n.cost < 2 ^ 63) :
    (p.insert t id).Counted t := by
  by_cases hid : id ∈ p.ids
  · rw [insert_of_mem hid]
    exact hp
  · have htree : ∀ x ∈ (p.insert t id).ids, ∃ m, t.node? x = some m := by
      intro x hx
      rcases mem_insert.1 hx with rfl | hx
      · exact ⟨n, hn⟩
      · exact hp.inTree x hx
    have hinsert : p.insert t id =
        { ids := insertSorted id p.ids, cost := wrap 64 (p.cost + n.cost),
          benefit := Scale.add p.benefit n.benefit } := by
      unfold Proposal.insert
      rw [if_neg (by simpa using hid), hn]
    rw [hinsert] at htree ⊢
    have hsum : p.cost + n.cost = t.costSum (insertSorted id p.ids) := by
      rw [Tree.costSum_perm (perm_insertSorted id p.ids), Tree.costSum_cons, hp.cost_eq,
        Tree.costOf_eq hn, add_comm]
    refine ⟨pairwise_insertSorted hp.increasing hid, htree, ?_⟩
    show wrap 64 (p.cost + n.cost) = t.costSum (insertSorted id p.ids)
    rw [← hsum]
    obtain ⟨hlo, hhi⟩ := hfit hid
    exact wrap_eq_self (by norm_num; omega) (by norm_num; omega) (by norm_num)

/-- Inserting a new node of the tree adds its cost, without wrapping around. -/
theorem Counted.insert {t : Tree R} {p : Proposal R} {id : NodeId} {n : Node R} (hs : t.Sized)
    (hp : p.Counted t) (hn : t.node? id = some n) : (p.insert t id).Counted t := by
  refine hp.insert_of_lt hn fun hid => ?_
  have hsum : p.cost + n.cost = t.costSum (id :: p.ids) := by
    rw [Tree.costSum_cons, hp.cost_eq, Tree.costOf_eq hn, add_comm]
  rw [hsum]
  refine ⟨hs.costSum_nonneg _, hs.costSum_lt (List.nodup_cons.2 ⟨hid, hp.nodup⟩) ?_⟩
  intro x hx
  rcases List.mem_cons.1 hx with rfl | hx
  · exact ⟨n, hn⟩
  · exact hp.inTree x hx

theorem Counted.insertAll {t : Tree R} {p : Proposal R} {is : List NodeId} (hs : t.Sized)
    (hp : p.Counted t) (his : ∀ i ∈ is, ∃ n, t.node? i = some n) :
    (p.insertAll t is).Counted t := by
  unfold Proposal.insertAll
  induction is generalizing p with
  | nil => exact hp
  | cons i is ih =>
    obtain ⟨n, hn⟩ := his i List.mem_cons_self
    exact ih (hp.insert hs hn) fun j hj => his j (List.mem_cons_of_mem _ hj)

/-- A counted proposal with a new node costs as much more as the node. -/
theorem Counted.cost_insert {t : Tree R} {p : Proposal R} {id : NodeId} (hp : p.Counted t)
    (hinsert : (p.insert t id).Counted t) (hid : id ∉ p.ids) :
    (p.insert t id).cost = p.cost + t.costOf id := by
  have hperm : (p.insert t id).ids.Perm (id :: p.ids) := by
    rw [List.perm_ext_iff_of_nodup hinsert.nodup (List.nodup_cons.2 ⟨hid, hp.nodup⟩)]
    intro x
    rw [mem_insert, List.mem_cons]
  rw [hinsert.cost_eq, Tree.costSum_perm hperm, Tree.costSum_cons, hp.cost_eq, add_comm]

/-- Nodes of the tree are counted if all costs together fit into 64 bits. -/
theorem Counted.insertAll_of_lt {t : Tree R} {p : Proposal R} {is : List NodeId}
    (hcost : ∀ i, 0 ≤ t.costOf i) (hp : p.Counted t) (his : ∀ i ∈ is, ∃ n, t.node? i = some n)
    (hlt : p.cost + t.costSum is < 2 ^ 63) : (p.insertAll t is).Counted t := by
  unfold Proposal.insertAll
  induction is generalizing p with
  | nil => exact hp
  | cons i is ih =>
    obtain ⟨n, hn⟩ := his i List.mem_cons_self
    have hrest : ∀ j ∈ is, ∃ n, t.node? j = some n := fun j hj => his j (List.mem_cons_of_mem _ hj)
    have hi := hcost i
    have his := Tree.costSum_nonneg hcost is
    have hp0 : 0 ≤ p.cost := by
      rw [hp.cost_eq]
      exact Tree.costSum_nonneg hcost p.ids
    rw [Tree.costSum_cons] at hlt
    have hfirst : (p.insert t i).Counted t := by
      refine hp.insert_of_lt hn fun _ => ?_
      rw [← Tree.costOf_eq hn]
      omega
    refine ih hfirst hrest ?_
    by_cases hid : i ∈ p.ids
    · rw [insert_of_mem hid]
      omega
    · rw [hp.cost_insert hfirst hid]
      omega

/-- Two proposals without a common node cost together what each of them costs. -/
theorem Counted.cost_insertAll {t : Tree R} {p o : Proposal R} (hp : p.Counted t)
    (ho : o.Counted t) (hjoin : (p.insertAll t o.ids).Counted t)
    (hdisjoint : ∀ x ∈ p.ids, x ∉ o.ids) :
    (p.insertAll t o.ids).cost = p.cost + o.cost := by
  have hperm : (p.insertAll t o.ids).ids.Perm (p.ids ++ o.ids) := by
    rw [List.perm_ext_iff_of_nodup hjoin.nodup]
    · intro x
      rw [mem_insertAll, List.mem_append, or_comm]
    · refine List.nodup_append.2 ⟨hp.nodup, ho.nodup, ?_⟩
      intro x hx y hy hxy
      exact hdisjoint x hx (hxy ▸ hy)
  rw [hjoin.cost_eq, Tree.costSum_perm hperm, Tree.costSum_append, hp.cost_eq, ho.cost_eq]

end Proposal

end InlinePlan
