import InlinePlan.Proofs.Plan.Simulation
import Mathlib.Data.List.GetD

set_option autoImplicit false

/-! # Shapes with optimal plans

The shape of a tree is what is left of it without sizes and benefits. On brooms and on trees of up to
four nodes plans are optimal, whatever the sizes and the benefits are. Every other shape contains one
of five shapes with five nodes, and for each of these there are sizes and benefits for which the plan
is not optimal; they can be carried over to the whole tree (`exists_poor_weights`). -/

namespace InlinePlan

open Finset

namespace Tree

variable {s t : Tree Rat} {size : NodeId → Int} {benefit : NodeId → Rat} {i : NodeId} {b : Int}

/-- The plan for a budget is a closed set within the budget, and no other such set is worth more. -/
def Optimal (t : Tree Rat) (b : Int) : Prop :=
  ∃ p, t.select b = some p ∧ t.Closed p.nodes ∧ t.costs p.nodes ≤ b
    ∧ ∀ S, t.Closed S → t.costs S ≤ b → t.worth S ≤ t.worth p.nodes

/-! ## Other weights -/

/-- A call with another size and another benefit. -/
def weighCall (size : NodeId → Int) (benefit : NodeId → Rat) (i : NodeId) (c : Call Rat) : Call Rat :=
  { c with
    method := { c.method with size := size i }
    staticBenefit := 1
    rootCallRatio := benefit i }

def weighNode (size : NodeId → Int) (benefit : NodeId → Rat) (n : Node Rat) : Node Rat :=
  { n with toCall := weighCall size benefit n.id n.toCall }

/-- The tree with other sizes and benefits. -/
def weigh (t : Tree Rat) (size : NodeId → Int) (benefit : NodeId → Rat) : Tree Rat :=
  { nodes := t.nodes.map (weighNode size benefit) }

@[simp] theorem size_weigh : (t.weigh size benefit).size = t.size := by
  simp [weigh, Tree.size]

theorem node?_weigh : (t.weigh size benefit).node? i = (t.node? i).map (weighNode size benefit) := by
  unfold node?
  split
  · rfl
  · simp [weigh]

theorem weigh_add {t' : Tree Rat} {parent : NodeId} {call : Call Rat}
    (h : t.add parent call = .ok t') :
    (t.weigh size benefit).add parent (weighCall size benefit t.size call)
      = .ok (t'.weigh size benefit) := by
  unfold add at h ⊢
  dsimp only at h ⊢
  rw [size_weigh]
  split at h
  · rename_i hroot
    rw [if_pos hroot]
    split at h
    · rename_i hempty
      cases h
      rw [if_pos hempty]
      simp [weigh, weighNode]
    · cases h
  · rename_i hroot
    rw [if_neg hroot]
    split at h
    · cases h
    · rename_i hbounds
      cases h
      rw [if_neg hbounds]
      simp only [weigh, Array.map_push, Except.ok.injEq, Tree.mk.injEq]
      refine congrArg₂ Array.push (Array.ext_getElem? fun k => ?_) rfl
      simp only [modify, if_neg (fun h => hbounds (.inl h)), Array.getElem?_modify, Array.getElem?_map]
      split
      · cases t.nodes[k]? <;> rfl
      · rfl

theorem Built.weigh (h : t.Built) : (t.weigh size benefit).Built := by
  induction h with
  | empty =>
    have hempty : Tree.weigh {} size benefit = {} := by simp [Tree.weigh]
    rw [hempty]
    exact .empty
  | add _ hadd ih => exact ih.add (weigh_add hadd)

theorem exists_node?_weigh :
    (∃ n, (t.weigh size benefit).node? i = some n) ↔ ∃ n, t.node? i = some n := by
  rw [node?_weigh]
  cases t.node? i <;> simp

theorem isInner_weigh : (t.weigh size benefit).IsInner i ↔ t.IsInner i :=
  and_congr_right fun _ => exists_node?_weigh

theorem parentOf_weigh : (t.weigh size benefit).parentOf i = t.parentOf i := by
  unfold parentOf
  rw [node?_weigh]
  cases t.node? i <;> rfl

theorem above_weigh {a v : NodeId} : (t.weigh size benefit).Above a v ↔ t.Above a v := by
  simp only [Above, isInner_weigh, parentOf_weigh]

theorem Linked.costOf_weigh (hl : t.Linked) (hi : t.IsInner i) :
    (t.weigh size benefit).costOf i = size i := by
  obtain ⟨hne, n, hn⟩ := hi
  have hpar := hl.parent_lt hn hne
  have hroot : (weighNode size benefit n).isRoot = false := by
    rw [Node.isRoot, beq_eq_false_iff_ne]
    exact fun heq : n.parent = noNode => absurd hpar.1 (by rw [heq]; decide)
  unfold costOf
  rw [node?_weigh, hn, Option.map_some, Option.elim_some, Node.cost, hroot, if_neg (by decide)]
  exact congrArg size (hl.id_eq hn)

theorem Linked.benefitOf_weigh (hl : t.Linked) (hi : ∃ n, t.node? i = some n) :
    (t.weigh size benefit).benefitOf i = benefit i := by
  obtain ⟨n, hn⟩ := hi
  unfold benefitOf
  rw [node?_weigh, hn, Option.map_some, Option.elim_some, ← hl.id_eq hn]
  show ((1 : Int) : Rat) * benefit n.id = benefit n.id
  rw [Int.cast_one, one_mul]

theorem mem_nodes_weigh {n : Node Rat} :
    n ∈ (t.weigh size benefit).nodes.toList ↔ ∃ m ∈ t.nodes.toList, weighNode size benefit m = n := by
  simp [weigh]

/-- If `c` for every node sums to a 64-bit word, so do sizes of at most `c`. -/
theorem sized_weigh {c : Int} (hsize : ∀ i, 0 ≤ size i ∧ size i ≤ c) (hc : t.size * c < 2 ^ 63) :
    (t.weigh size benefit).Sized where
  size_nonneg n hn := by
    obtain ⟨m, -, rfl⟩ := mem_nodes_weigh.1 hn
    exact (hsize m.id).1
  total_lt := by
    refine lt_of_le_of_lt (List.sum_le_card_nsmul _ c fun x hx => ?_) ?_
    · obtain ⟨n, hn, rfl⟩ := List.mem_map.1 hx
      obtain ⟨m, -, rfl⟩ := mem_nodes_weigh.1 hn
      have h0 := (hsize m.id).1
      have hle := (hsize m.id).2
      unfold Node.cost
      split
      · omega
      · exact hle
    · have hlen : (List.map Node.cost (t.weigh size benefit).nodes.toList).length = t.size := by
        simp [weigh, Tree.size]
      rw [hlen, nsmul_eq_mul]
      exact_mod_cast hc

theorem beneficial_weigh (hbenefit : ∀ i, 0 ≤ benefit i) : (t.weigh size benefit).Beneficial where
  benefit_nonneg n hn := by
    obtain ⟨m, -, rfl⟩ := mem_nodes_weigh.1 hn
    exact Int.one_nonneg
  ratio_nonneg n hn := by
    obtain ⟨m, -, rfl⟩ := mem_nodes_weigh.1 hn
    exact hbenefit m.id

/-! ## Small trees -/

/-- A tree whose plan for the budget `b` is not optimal. No node costs more than the budget, and no
    two cost the same. -/
structure Poor (s : Tree Rat) (b : Int) : Prop where
  linked : s.Linked
  sized : s.Sized
  beneficial : s.Beneficial
  root : ∃ n, s.node? 0 = some n
  distinct : ∀ {i j : NodeId}, s.IsInner i → s.IsInner j → s.costOf i = s.costOf j → i = j
  cost_le : ∀ i, s.costOf i ≤ b
  budget_nonneg : 0 ≤ b
  lost : ∃ p S, s.select b = some p ∧ s.Closed S ∧ s.costs S ≤ b ∧ p.benefit < s.worth S

/-- A size for every node of `t`: nothing on the way to the small root, that of the small tree below
    it, and more than the budget elsewhere. -/
noncomputable def carriedSize (s t : Tree Rat) (f : NodeId → NodeId) (b : Int) (x : NodeId) : Int :=
  open Classical in
  if t.Above x (f 0) then 0
  else if h : ∃ i, s.IsInner i ∧ f i = x then s.costOf h.choose else b + 1

/-- A benefit for every node of `t`: something on the way to the small root, that of the small tree
    below it, and nothing elsewhere. -/
noncomputable def carriedBenefit (s t : Tree Rat) (f : NodeId → NodeId) (x : NodeId) : Rat :=
  open Classical in
  if t.Above x (f 0) then 1
  else if h : ∃ i, s.IsInner i ∧ f i = x then s.benefitOf h.choose else 0

section Carried

variable {f : NodeId → NodeId} {x : NodeId}

theorem carriedSize_of_above (hx : t.Above x (f 0)) : carriedSize s t f b x = 0 := if_pos hx

theorem carriedBenefit_of_above (hx : t.Above x (f 0)) : carriedBenefit s t f x = 1 := if_pos hx

theorem carriedSize_elsewhere (hx : ¬t.Above x (f 0)) (h : ∀ i, s.IsInner i → x ≠ f i) :
    carriedSize s t f b x = b + 1 := by
  rw [carriedSize, if_neg hx, dif_neg]
  rintro ⟨i, hi, heq⟩
  exact h i hi heq.symm

theorem Occurs.carried (h : Occurs s t f) (hs : s.Linked) (hl : t.Linked)
    (hroot : ∃ n, s.node? 0 = some n) (hi : s.IsInner i) :
    carriedSize s t f b (f i) = s.costOf i ∧ carriedBenefit s t f (f i) = s.benefitOf i := by
  have hex : ∃ j, s.IsInner j ∧ f j = f i := ⟨i, hi, rfl⟩
  have heq : hex.choose = i := h.injective hex.choose_spec.1.2 hi.2 hex.choose_spec.2
  have hnot := h.not_above hs hl hroot hi
  rw [carriedSize, carriedBenefit, if_neg hnot, if_neg hnot, dif_pos hex, dif_pos hex, heq]
  exact ⟨rfl, rfl⟩

theorem Poor.carriedSize_bounds (h : Poor s b) (x : NodeId) :
    0 ≤ carriedSize s t f b x ∧ carriedSize s t f b x ≤ b + 1 := by
  have hb := h.budget_nonneg
  unfold carriedSize
  split
  · omega
  · split
    · rename_i hex
      have hle := h.cost_le hex.choose
      have hge := h.sized.costOf_nonneg hex.choose
      omega
    · omega

theorem Poor.carriedBenefit_nonneg (h : Poor s b) (x : NodeId) : 0 ≤ carriedBenefit s t f x := by
  unfold carriedBenefit
  split
  · exact zero_le_one
  · split
    · exact h.beneficial.benefitOf_nonneg _
    · exact le_refl _

/-- The nodes above a node. -/
noncomputable def wayTo (t : Tree Rat) (v : NodeId) : Finset NodeId :=
  open Classical in t.allIds.toFinset.filter fun x => t.Above x v

theorem Linked.mem_wayTo (hl : t.Linked) {v : NodeId} (hv : ∃ n, t.node? v = some n) :
    x ∈ t.wayTo v ↔ t.Above x v := by
  classical
  unfold wayTo
  rw [mem_filter, List.mem_toFinset, mem_allIds]
  refine ⟨And.right, fun h => ⟨?_, h⟩⟩
  obtain ⟨n, hn⟩ := hl.inTree_of_above h hv
  exact node?_bounds hn

/-- With the carried weights, the small tree stands in the large one. -/
theorem Poor.embeds (h : Poor s b) (ho : Occurs s t f) (hbuilt : t.Built)
    (hc : t.size * (b + 1) < 2 ^ 63) :
    Embeds s (t.weigh (carriedSize s t f b) (carriedBenefit s t f)) f (t.wayTo (f 0)) b := by
  have hl := hbuilt.linked
  have hway : ∀ {x : NodeId}, x ∈ t.wayTo (f 0) ↔ t.Above x (f 0) := hl.mem_wayTo ho.root'
  constructor
  case toOccurs =>
    refine ⟨exists_node?_weigh.2 ho.root', ho.injective, fun hi => isInner_weigh.2 (ho.inner hi), ?_⟩
    intro i hi
    rw [parentOf_weigh, ho.parent hi]
  case linked => exact h.linked
  case sized => exact h.sized
  case root => exact h.root
  case linked' => exact hbuilt.weigh.linked
  case sized' => exact sized_weigh (h.carriedSize_bounds ·) hc
  case cost =>
    intro i hi
    rw [hl.costOf_weigh (ho.inner hi)]
    exact (ho.carried h.linked hl h.root hi).1
  case benefit =>
    intro i hi
    rw [hl.benefitOf_weigh (ho.inner hi).2]
    exact (ho.carried (b := b) h.linked hl h.root hi).2
  case distinct => exact h.distinct
  case mem_path =>
    intro x
    rw [hway, above_weigh]
  case path_cost =>
    intro x hx
    by_cases hzero : x = 0
    · rw [hzero, hbuilt.weigh.linked.costOf_zero]
    · have hx := hway.1 hx
      rw [hl.costOf_weigh ⟨hzero, hl.inTree_of_above hx ho.root'⟩, carriedSize_of_above hx]
  case path_benefit =>
    intro x hx _
    have hx := hway.1 hx
    rw [hl.benefitOf_weigh (hl.inTree_of_above hx ho.root'), carriedBenefit_of_above hx]
    exact zero_lt_one
  case expensive =>
    intro x hx hpath hother
    have hx := isInner_weigh.1 hx
    rw [hl.costOf_weigh hx, carriedSize_elsewhere (fun habove => hpath (hway.2 habove)) hother]
    omega

end Carried

/-- A shape that contains that of a poor tree has weights for which its plan is not optimal. -/
theorem Poor.exists_weights (h : Poor s b) {f : NodeId → NodeId} (ho : Occurs s t f)
    (hbuilt : t.Built) (hroom : b < 2 ^ 45) (hc : t.size * (b + 1) < 2 ^ 63) :
    ∃ size benefit, (t.weigh size benefit).Sized ∧ (t.weigh size benefit).Beneficial
      ∧ ¬(t.weigh size benefit).Optimal b := by
  have he := h.embeds ho hbuilt hc
  refine ⟨_, _, he.sized', beneficial_weigh h.carriedBenefit_nonneg, ?_⟩
  rintro ⟨p, hp, -, -, hbest⟩
  obtain ⟨p', q, hp', hq, halike⟩ := he.select_alike h.budget_nonneg hroom
  obtain ⟨p'', S, hp'', hS, hcost, hlost⟩ := h.lost
  obtain rfl : p' = p'' := Option.some.inj (hp'.symm.trans hp'')
  obtain rfl : q = p := Option.some.inj (hq.symm.trans hp)
  -- the better set of the small tree, with the path, is a better set of the large one
  have hle := hbest _ (he.closed_lift hS) (by rwa [he.costs_lift hS.root_mem hS.inTree])
  rw [he.worth_lift hS.root_mem hS.inTree, ← halike.weighed', he.benefit_eq halike] at hle
  exact absurd hlost (not_lt.2 (by linarith))

/-! ## Five nodes -/

/-- A tree with the given parents, sizes and benefits of all nodes but the root. -/
def ofWeights (below : List (NodeId × Int × Int)) : Tree Rat :=
  (addAll {} ((noNode, plainCall 0 0) :: below.map fun (parent, size, benefit) =>
    (parent, plainCall size benefit))).toOption.getD {}

theorem built_ofWeights (below : List (NodeId × Int × Int)) : (ofWeights below).Built := by
  unfold ofWeights
  cases h : addAll {} ((noNode, plainCall 0 0) :: below.map fun (parent, size, benefit) =>
    (parent, plainCall size benefit)) with
  | error e => exact .empty
  | ok t => exact Built.empty.addAll _ h

theorem mem_of_isInner (hsize : s.size = 5) (hi : s.IsInner i) : i ∈ [1, 2, 3, 4] := by
  obtain ⟨hne, n, hn⟩ := hi
  have hbounds := node?_bounds hn
  rw [hsize] at hbounds
  simp only [List.mem_cons, List.not_mem_nil, or_false]
  grind

theorem closed_of_checks {S : Finset NodeId} (h : 0 ∈ S ∧ ∀ i ∈ S, (t.node? i).isSome
    ∧ (i ≠ 0 → t.parentOf i ∈ S)) : t.Closed S where
  root_mem := h.1
  inTree i hi := Option.isSome_iff_exists.1 (h.2 i hi).1
  parent_mem i hi hne := (h.2 i hi).2 hne

/-- What has to be evaluated to see that a tree of five nodes is poor: the plan is worth `value`, and
    the set `S` is worth more. -/
theorem poor_of_checks {below : List (NodeId × Int × Int)} (value : Rat) (S : Finset NodeId)
    (hsize : (ofWeights below).size = 5)
    (hsized : (∀ n ∈ (ofWeights below).nodes.toList, 0 ≤ n.method.size)
      ∧ ((ofWeights below).nodes.toList.map Node.cost).sum < 2 ^ 63)
    (hben : ∀ n ∈ (ofWeights below).nodes.toList, 0 ≤ n.staticBenefit ∧ n.rootCallRatio = 1)
    (hdistinct : ([1, 2, 3, 4].map (ofWeights below).costOf).Nodup)
    (hle : 0 ≤ b ∧ ∀ i ∈ [1, 2, 3, 4], (ofWeights below).costOf i ≤ b)
    (hselect : ((ofWeights below).select b).map (·.benefit) = some value)
    (hS : 0 ∈ S ∧ ∀ i ∈ S, ((ofWeights below).node? i).isSome
      ∧ (i ≠ 0 → (ofWeights below).parentOf i ∈ S))
    (hbetter : (ofWeights below).costs S ≤ b ∧ value < (ofWeights below).worth S) :
    Poor (ofWeights below) b := by
  have hl := (built_ofWeights below).linked
  refine ⟨hl, ⟨hsized.1, hsized.2⟩, ⟨fun n hn => (hben n hn).1, fun n hn => ?_⟩, ?_, ?_, ?_, hle.1, ?_⟩
  · rw [(hben n hn).2]
    exact zero_le_one
  · exact exists_node? (le_refl _) (by rw [hsize]; decide)
  · intro i j hi hj heq
    exact List.inj_on_of_nodup_map hdistinct (mem_of_isInner hsize hi) (mem_of_isInner hsize hj) heq
  · intro i
    by_cases hi : (ofWeights below).IsInner i
    · exact hle.2 i (mem_of_isInner hsize hi)
    · by_cases hzero : i = 0
      · rw [hzero, hl.costOf_zero]
        exact hle.1
      · have hnone : (ofWeights below).node? i = none := by
          rw [Option.eq_none_iff_forall_ne_some]
          exact fun n hn => hi ⟨hzero, n, hn⟩
        rw [costOf, hnone]
        exact hle.1
  · obtain ⟨p, hp, hvalue⟩ := Option.map_eq_some_iff.1 hselect
    refine ⟨p, S, hp, closed_of_checks hS, hbetter.1, ?_⟩
    rw [hvalue]
    exact hbetter.2

/-- A fork with an arm, below a stem. -/
def stemmed : Tree Rat := ofWeights [(0, 0, 0), (1, 2, 2), (1, 4, 3), (2, 1, 2)]

/-- A fork with an arm of three nodes. -/
def longArm : Tree Rat := ofWeights [(0, 2, 0), (0, 4, 3), (1, 1, 2), (3, 0, 3)]

/-- A fork with an arm that is forked again. -/
def forkedArm : Tree Rat := ofWeights [(0, 1, 0), (0, 4, 1), (1, 0, 3), (1, 3, 1)]

/-- A fork with two arms. -/
def twoArms : Tree Rat := ofWeights [(0, 1, 3), (0, 2, 2), (1, 4, 3), (2, 0, 2)]

/-- A fork with an arm and two leaves. -/
def threefold : Tree Rat := ofWeights [(0, 3, 1), (0, 4, 2), (1, 1, 2), (0, 2, 1)]

theorem poor_stemmed : Poor stemmed 5 := by
  refine poor_of_checks 3 {0, 1, 2, 4} ?_ ?_ ?_ ?_ ?_ ?_ ?_ ?_ <;> decide +kernel

theorem poor_longArm : Poor longArm 4 := by
  refine poor_of_checks 3 {0, 1, 3, 4} ?_ ?_ ?_ ?_ ?_ ?_ ?_ ?_ <;> decide +kernel

theorem poor_forkedArm : Poor forkedArm 4 := by
  refine poor_of_checks 3 {0, 1, 3, 4} ?_ ?_ ?_ ?_ ?_ ?_ ?_ ?_ <;> decide +kernel

theorem poor_twoArms : Poor twoArms 5 := by
  refine poor_of_checks 6 {0, 1, 2, 4} ?_ ?_ ?_ ?_ ?_ ?_ ?_ ?_ <;> decide +kernel

theorem poor_threefold : Poor threefold 7 := by
  refine poor_of_checks 3 {0, 1, 3, 4} ?_ ?_ ?_ ?_ ?_ ?_ ?_ ?_ <;> decide +kernel

/-! ## Where they occur -/

/-- The node at a place of a list. -/
def nth (xs : List NodeId) (i : NodeId) : NodeId := xs.getD i.toNat 0

/-- A tree of five nodes occurs where there are five nodes with the same parents. -/
theorem occurs_of_nodes (a a₁ a₂ a₃ a₄ : NodeId) (hsize : s.size = 5)
    (hnodup : [a, a₁, a₂, a₃, a₄].Nodup) (hroot : ∃ n, t.node? a = some n)
    (hinner : t.IsInner a₁ ∧ t.IsInner a₂ ∧ t.IsInner a₃ ∧ t.IsInner a₄)
    (hparents : [1, 2, 3, 4].map (nth [a, a₁, a₂, a₃, a₄] ∘ s.parentOf)
      = [a₁, a₂, a₃, a₄].map t.parentOf) :
    Occurs s t (nth [a, a₁, a₂, a₃, a₄]) := by
  obtain ⟨h₁, h₂, h₃, h₄⟩ := hinner
  simp only [List.map_cons, List.map_nil, Function.comp_apply, List.cons.injEq, and_true] at hparents
  obtain ⟨hp₁, hp₂, hp₃, hp₄⟩ := hparents
  constructor
  case root' => exact hroot
  case injective =>
    rintro i j ⟨n, hn⟩ ⟨m, hm⟩ heq
    have hi := node?_bounds hn
    have hj := node?_bounds hm
    rw [hsize] at hi hj
    have hlt : i.toNat < 5 ∧ j.toNat < 5 := by grind
    rw [nth, nth, List.getD_eq_getElem _ _ hlt.1, List.getD_eq_getElem _ _ hlt.2,
      hnodup.getElem_inj_iff] at heq
    grind
  case inner =>
    intro i hi
    have hmem := mem_of_isInner hsize hi
    simp only [List.mem_cons, List.not_mem_nil, or_false] at hmem
    rcases hmem with rfl | rfl | rfl | rfl
    exacts [h₁, h₂, h₃, h₄]
  case parent =>
    intro i hi
    have hmem := mem_of_isInner hsize hi
    simp only [List.mem_cons, List.not_mem_nil, or_false] at hmem
    rcases hmem with rfl | rfl | rfl | rfl
    exacts [hp₁.symm, hp₂.symm, hp₃.symm, hp₄.symm]

/-- A node with a sibling and a child. -/
structure Fork (t : Tree Rat) (i j c : NodeId) : Prop where
  inner_i : t.IsInner i
  inner_j : t.IsInner j
  inner_c : t.IsInner c
  ne : i ≠ j
  siblings : t.parentOf i = t.parentOf j
  child : t.parentOf c = i

theorem exists_fork (h : ¬t.Broom) : ∃ i j c, t.Fork i j c := by
  unfold Broom at h
  push Not at h
  obtain ⟨i, j, c, hi, hj, hne, hsiblings, hc, hchild⟩ := h
  exact ⟨i, j, c, hi, hj, hc, hne, hsiblings, hchild⟩

namespace Fork

variable {i j c x : NodeId}

theorem order (h : t.Fork i j c) (hl : t.Linked) :
    t.parentOf i < i ∧ t.parentOf i < j ∧ i < c ∧ c ≠ j := by
  have hi := hl.parentOf_lt h.inner_i
  have hj := hl.parentOf_lt h.inner_j
  have hc := hl.parentOf_lt h.inner_c
  have hchild := h.child
  have hsiblings := h.siblings
  refine ⟨hi.2, hsiblings ▸ hj.2, hchild ▸ hc.2, ?_⟩
  rintro rfl
  grind

/-- A fork that is not at the root has a stem. -/
theorem occurs_stemmed (h : t.Fork i j c) (hl : t.Linked) (hstem : t.IsInner (t.parentOf i)) :
    ∃ f, Occurs stemmed t f := by
  have hu := hl.parentOf_lt hstem
  obtain ⟨hui, huj, hic, hcj⟩ := h.order hl
  have hne := h.ne
  refine ⟨_, occurs_of_nodes (t.parentOf (t.parentOf i)) (t.parentOf i) i j c (by decide +kernel) ?_
    (hl.exists_parent hstem) ⟨hstem, h.inner_i, h.inner_j, h.inner_c⟩ ?_⟩
  · simp only [List.nodup_cons, List.mem_cons, List.not_mem_nil, or_false, not_or, List.nodup_nil]
    grind
  · have hparents : [1, 2, 3, 4].map stemmed.parentOf = [0, 1, 1, 2] := by decide +kernel
    rw [← List.map_map, hparents]
    simp only [List.map_cons, List.map_nil, ← h.siblings, h.child]
    rfl

/-- A fork at the root with one node more. -/
theorem occurs_of_root (h : t.Fork i j c) (hl : t.Linked) (hroot : t.parentOf i = 0)
    (hx : t.IsInner x) (hnew : x ∉ [0, i, j, c]) (hsize : s.size = 5)
    (hparents : [1, 2, 3].map s.parentOf = [0, 0, 1])
    (hlast : t.parentOf x = nth [0, i, j, c, x] (s.parentOf 4)) :
    ∃ f, Occurs s t f := by
  obtain ⟨hui, huj, hic, hcj⟩ := h.order hl
  have hne := h.ne
  refine ⟨_, occurs_of_nodes 0 i j c x hsize ?_
    (hroot ▸ hl.exists_parent h.inner_i) ⟨h.inner_i, h.inner_j, h.inner_c, hx⟩ ?_⟩
  · simp only [List.mem_cons, List.not_mem_nil, or_false, not_or] at hnew
    simp only [List.nodup_cons, List.mem_cons, List.not_mem_nil, or_false, not_or, List.nodup_nil]
    grind
  · simp only [List.map_cons, List.map_nil, List.cons.injEq, and_true] at hparents
    simp only [List.map_cons, List.map_nil, Function.comp_apply, hparents, ← hlast, ← h.siblings,
      h.child, hroot]
    rfl

/-- Among five nodes, one more than those of a fork at the root has its parent there. -/
theorem exists_next (hl : t.Linked) (hsize : 5 ≤ t.size) (i j c : NodeId) :
    ∃ x, t.IsInner x ∧ x ∉ [0, i, j, c] ∧ t.parentOf x ∈ [0, i, j, c] := by
  have hex : ∃ k : Nat, (k : NodeId) ∉ [0, i, j, c] ∧ k < 5 := by
    by_contra hall
    push Not at hall
    have hsub : (range 5).image (fun k : Nat => (k : NodeId)) ⊆ [0, i, j, c].toFinset := by
      intro x hx
      obtain ⟨k, hk, rfl⟩ := mem_image.1 hx
      by_contra hnot
      exact absurd (mem_range.1 hk) (not_lt.2 (hall k fun hmem => hnot (List.mem_toFinset.2 hmem)))
    have hcard := card_le_card hsub
    rw [card_image_of_injective _ Nat.cast_injective, card_range] at hcard
    have := [0, i, j, c].toFinset_card_le
    simp only [List.length_cons, List.length_nil] at this
    omega
  classical
  -- the least such node comes right after its parent
  obtain ⟨hnot, hlt⟩ := Nat.find_spec hex
  have hinner : t.IsInner (Nat.find hex : NodeId) := by
    refine ⟨fun hzero => hnot (List.mem_cons.2 (.inl hzero)), exists_node? (Int.natCast_nonneg _) ?_⟩
    grind
  have hpar := hl.parentOf_lt hinner
  refine ⟨_, hinner, hnot, ?_⟩
  by_contra hmiss
  have hmin := Nat.find_min hex (m := (t.parentOf (Nat.find hex : NodeId)).toNat) (by grind)
  refine hmin ⟨?_, by grind⟩
  rwa [Int.toNat_of_nonneg hpar.1]

end Fork

/-- A tree of five nodes or more that is no broom has weights for which its plan is not optimal. -/
theorem exists_poor_weights (hbuilt : t.Built) (hbroom : ¬t.Broom) (hsize : 5 ≤ t.size)
    (hmax : t.size ≤ 2 ^ 32) : ∃ size benefit, (t.weigh size benefit).Sized
      ∧ (t.weigh size benefit).Beneficial
      ∧ ∃ b, 0 ≤ b ∧ b < 2 ^ 45 ∧ ¬(t.weigh size benefit).Optimal b := by
  have hl := hbuilt.linked
  have hpoor : ∀ {s : Tree Rat} {b : Int}, Poor s b → b ≤ 7 → (∃ f, Occurs s t f) →
      ∃ size benefit, (t.weigh size benefit).Sized ∧ (t.weigh size benefit).Beneficial
        ∧ ∃ b, 0 ≤ b ∧ b < 2 ^ 45 ∧ ¬(t.weigh size benefit).Optimal b := by
    rintro s b hs hb ⟨f, hf⟩
    have hb0 := hs.budget_nonneg
    have hc : (t.size : Int) * (b + 1) < 2 ^ 63 := by
      calc (t.size : Int) * (b + 1) ≤ 2 ^ 32 * 8 :=
            mul_le_mul (by exact_mod_cast hmax) (by omega) (by omega) (by norm_num)
        _ < 2 ^ 63 := by norm_num
    obtain ⟨size, benefit, hsized, hben, hnot⟩ := hs.exists_weights hf hbuilt (by omega) hc
    exact ⟨size, benefit, hsized, hben, b, hb0, by omega, hnot⟩
  obtain ⟨i, j, c, hfork⟩ := exists_fork hbroom
  rcases hl.parentOf_cases hfork.inner_i with hroot | hstem
  · obtain ⟨x, hx, hnew, hmem⟩ := Fork.exists_next hl hsize i j c
    simp only [List.mem_cons, List.not_mem_nil, or_false] at hmem
    rcases hmem with hlast | hlast | hlast | hlast
    · exact hpoor poor_threefold (by decide) (hfork.occurs_of_root hl hroot hx hnew
        (by decide +kernel) (by decide +kernel) hlast)
    · exact hpoor poor_forkedArm (by decide) (hfork.occurs_of_root hl hroot hx hnew
        (by decide +kernel) (by decide +kernel) hlast)
    · exact hpoor poor_twoArms (by decide) (hfork.occurs_of_root hl hroot hx hnew
        (by decide +kernel) (by decide +kernel) hlast)
    · exact hpoor poor_longArm (by decide) (hfork.occurs_of_root hl hroot hx hnew
        (by decide +kernel) (by decide +kernel) hlast)
  · exact hpoor poor_stemmed (by decide) (hfork.occurs_stemmed hl hstem)

end Tree

/-! ## Plans -/

/-- On brooms and on trees of up to four nodes, the plan for each budget that rows have room for is
    optimal: within the budget no closed set is worth more. Every other shape has sizes and benefits
    for which some such plan is not optimal. -/
theorem select_optimal_shapes {t : Tree Rat} (hbuilt : t.Built) (hne : 0 < t.size) :
    (t.Broom ∨ t.size ≤ 4 → t.Sized → t.Beneficial →
      ∀ b, 0 ≤ b → (t.Optimal b ↔ b < 2 ^ 45))
    ∧ (¬(t.Broom ∨ t.size ≤ 4) → t.size ≤ 2 ^ 32 → ∃ size benefit,
      (t.weigh size benefit).Built ∧ (t.weigh size benefit).Sized
      ∧ (t.weigh size benefit).Beneficial
      ∧ ∃ b, 0 ≤ b ∧ b < 2 ^ 45 ∧ ¬(t.weigh size benefit).Optimal b) := by
  have hl := hbuilt.linked
  constructor
  · intro hshape hs hben b hb
    refine ⟨fun ⟨p, hp, _⟩ => not_le.1 fun hroom => ?_, fun hroom => ?_⟩
    · rw [Tree.select_eq_none hroom] at hp
      cases hp
    obtain ⟨p, hp, hbest⟩ := Tree.exists_best_select hl hs hben hne hshape hb hroom
    obtain ⟨-, hall⟩ := hl.placed_priorityOrder hne
    refine ⟨p, hp, hbest.closed_nodes, ?_, fun S hS hcost => ?_⟩
    · rw [← hbest.cost_eq_costs]
      exact hbest.cost_le
    · rw [← hbest.weighed]
      exact hbest.best S hS (fun i hi => hall i (hS.inTree i hi)) hcost
  · intro hshape hmax
    obtain ⟨hbroom, hsize⟩ := not_or.1 hshape
    obtain ⟨size, benefit, hs, hben, hpoor⟩ :=
      Tree.exists_poor_weights hbuilt hbroom (by omega) hmax
    exact ⟨size, benefit, hbuilt.weigh, hs, hben, hpoor⟩

/-- A root with one callee that has three callees of its own. -/
def brush : Tree Rat := .ofWeights [(0, 2, 0), (1, 3, 4), (1, 2, 5), (1, 4, 7)]

/-- The brush is a broom, and the tree `threefold` with its five nodes is none. -/
theorem select_optimal_shapes_brush :
    brush.Built ∧ brush.size = 5 ∧ (∀ b, 0 ≤ b → (brush.Optimal b ↔ b < 2 ^ 45))
    ∧ Tree.threefold.Built ∧ Tree.threefold.size = 5 ∧ ∃ size benefit,
      (Tree.threefold.weigh size benefit).Built ∧ (Tree.threefold.weigh size benefit).Sized
      ∧ (Tree.threefold.weigh size benefit).Beneficial
      ∧ ∃ b, 0 ≤ b ∧ b < 2 ^ 45 ∧ ¬(Tree.threefold.weigh size benefit).Optimal b := by
  have hbuilt := Tree.built_ofWeights [(0, 2, 0), (1, 3, 4), (1, 2, 5), (1, 4, 7)]
  have hsize : brush.size = 5 := by decide +kernel
  have hbroom : brush.Broom := by
    have hcheck : ∀ i ∈ [1, 2, 3, 4], ∀ j ∈ [1, 2, 3, 4], ∀ c ∈ [1, 2, 3, 4], i ≠ j →
        brush.parentOf i = brush.parentOf j → brush.parentOf c ≠ i := by decide +kernel
    exact fun i j c hi hj hne hpar hc => hcheck i (Tree.mem_of_isInner hsize hi) j
      (Tree.mem_of_isInner hsize hj) c (Tree.mem_of_isInner hsize hc) hne hpar
  have hbuilt' := Tree.built_ofWeights [(0, 3, 1), (0, 4, 2), (1, 1, 2), (0, 2, 1)]
  have hsize' : Tree.threefold.size = 5 := by decide +kernel
  have hother : ¬(Tree.threefold.Broom ∨ Tree.threefold.size ≤ 4) := by
    rintro (hbroom | hle)
    · exact hbroom 1 2 3 ⟨by decide, Option.isSome_iff_exists.1 (by decide +kernel)⟩
        ⟨by decide, Option.isSome_iff_exists.1 (by decide +kernel)⟩ (by decide) (by decide +kernel)
        ⟨by decide, Option.isSome_iff_exists.1 (by decide +kernel)⟩ (by decide +kernel)
    · omega
  refine ⟨hbuilt, hsize, ?_, hbuilt', hsize', ?_⟩
  · refine (select_optimal_shapes hbuilt (by decide +kernel)).1 (.inl hbroom) ⟨?_, ?_⟩ ⟨?_, ?_⟩ <;>
      decide +kernel
  · exact (select_optimal_shapes hbuilt' (by decide +kernel)).2 hother (by decide +kernel)

/-- The plan for `threefold` within 7 bytes is worth 3, and a closed set of 6 bytes is worth 4. -/
theorem select_misses_best : Tree.threefold.Built ∧ Tree.threefold.Sized
    ∧ Tree.threefold.Beneficial
    ∧ (Tree.threefold.select 7).map (fun p => (p.ids, p.cost, p.benefit)) = some ([0, 1, 2], 7, 3)
    ∧ Tree.threefold.Closed {0, 1, 3, 4} ∧ Tree.threefold.costs {0, 1, 3, 4} = 6
    ∧ Tree.threefold.worth {0, 1, 3, 4} = 4 := by
  refine ⟨Tree.built_ofWeights _, ⟨?_, ?_⟩, ⟨?_, ?_⟩, ?_, Tree.closed_of_checks ?_, ?_, ?_⟩ <;>
    decide +kernel

end InlinePlan
