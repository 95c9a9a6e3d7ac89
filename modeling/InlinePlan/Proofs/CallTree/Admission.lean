import InlinePlan.Proofs.CallTree.Preorder
import InlinePlan.Proofs.CallTree.Steps
import InlinePlan.Proofs.Plan.Proposal
import InlinePlan.Proofs.Program.Dispatch
import Mathlib.Data.List.Chain

set_option autoImplicit false

/-! # Admission

Every call below a place has been admitted there, whether it was grown afresh or replayed
(`ensures_expand_admitted`). In the finished tree this says of every node but the root that it obeys
the rules towards its parent: `Node.Obeys`. Budgets are 64-bit words; `Node.Fits` says that what is
left for a node is one. -/

namespace InlinePlan

/-! ## Forests -/

namespace Forest

/-- All calls of a forest were admitted where they stand, the topmost ones below `p`. -/
def Admitted (o : Options) : Place → Forest Float → Prop
  | _, .empty => True
  | p, .grow call below rest =>
    let place := p.child p.id call.method call.callRatio
    p.refusal? o call.method call.callRatio = none ∧ call.budget = place.budget
      ∧ call.rootCallRatio = place.rootCallRatio ∧ below.Admitted o place ∧ rest.Admitted o p

variable {o : Options} {p q : Place} {f g : Forest Float}

theorem Admitted.alike (h : p.Alike q) (hf : f.Admitted o p) : f.Admitted o q := by
  induction f generalizing p q with
  | empty => trivial
  | grow call below rest ihb ihr =>
    obtain ⟨hnone, hbudget, hratio, hbelow, hrest⟩ := hf
    have hplace := h.child p.id q.id call.method call.callRatio
    exact ⟨h.refusal?_eq ▸ hnone, hbudget.trans hplace.1, hratio.trans hplace.2.1,
      ihb hplace hbelow, ihr h hrest⟩

end Forest

/-! ## Growth -/

/-- Whatever forest is replayed, what grows is admitted. -/
theorem admitted_regrow (o : Options) (p : Place) (f : Forest Float) :
    (regrow o p f).forest.Admitted o p := by
  induction f generalizing p with
  | empty => trivial
  | grow call below rest ihb ihr =>
    rw [regrow]
    split
    · exact ihr p
    · rename_i hnone
      exact ⟨hnone, rfl, rfl, ihb _, ihr p⟩

namespace Builder

variable {b : Builder}

theorem ensures_growOffers_admitted {expand : Expander}
    (hexpand : ∀ p m s, BuildM.Ensures (expand p m) s
      (fun e _ => e.growth.forest.Admitted b.options p) fun _ => True)
    (p : Place) (offers : List Offer) (s : BuildState) :
    BuildM.Ensures (b.growOffers expand p offers) s
      (fun growth _ => growth.forest.Admitted b.options p) fun _ => True := by
  induction offers generalizing s with
  | nil => trivial
  | cons offer offers ih =>
    cases offer with
    | call site ratio callee =>
      rw [ensures_growOffers_call]
      cases hnone : p.refusal? b.options callee ratio with
      | some reason => exact (ih _).mono (fun _ _ h => h) fun _ => id
      | none =>
        refine (hexpand _ _ _).mono (fun e s₁ he => ?_) fun _ => id
        refine (ih s₁).mono (fun others _ hothers => ?_) fun _ => id
        exact ⟨hnone, rfl, rfl, he.alike ((Place.Alike.refl p).child _ p.id callee ratio), hothers⟩
    | dropped reason calls warning => exact ensures_growOffers_dropped.2 (ih _)
    | endless => trivial

theorem ensures_expand_admitted (n : Nat) (p : Place) (m : Method) (s : BuildState) :
    BuildM.Ensures (b.expand n p m) s
      (fun e _ => e.growth.forest.Admitted b.options p) fun _ => True := by
  induction n generalizing p m s with
  | zero => trivial
  | succ n ih =>
    by_cases hmemo : b.reuse = true → s.memo.lookup m.id = none
    · refine ensures_expand_fresh (fun _ => trivial) hmemo (fun _ _ => trivial)
        (fun _ _ _ _ _ _ _ => trivial) (fun _ _ _ _ _ _ _ => trivial) ?_
      intro summary offers s₁ _ _ _ _ _
      exact (ensures_growOffers_admitted ih p offers s₁).mono (fun _ _ h _ _ _ _ _ => h) fun _ => id
    · obtain ⟨hreuse, hsome⟩ := Classical.not_imp.1 hmemo
      obtain ⟨memo, hmemo⟩ := Option.ne_none_iff_exists'.1 hsome
      exact ensures_expand_reused (fun _ => trivial) hreuse hmemo fun _ _ _ =>
        admitted_regrow b.options p _

/-- The tree of a build is that of an admitted forest below its root. -/
theorem build_admitted {root : Method} {budget : Int} {t : Tree Float}
    (h : (b.build (some root) budget).outcome = .ok t) :
    ∃ e, t = Tree.ofForest (rootCall root budget e) e.growth.forest
      ∧ e.growth.forest.Admitted b.options (rootPlace root budget) := by
  rcases build_cases (b := b) fun s _ _ _ => ensures_expand_admitted _ (rootPlace root budget) root s
    with ⟨e, s, _, hout, -, he⟩ | ⟨f, hout, -⟩
  · rw [hout] at h
    exact ⟨e, (Except.ok.inj h).symm, he⟩
  · rw [hout] at h
    cases h

end Builder

/-! ## Nodes -/

/-- Node `n` stands at a place: the nodes above it are `ns`, and the place has its budget, its ratio,
    their number and the methods of all of them. -/
structure Tree.Stands (t : Tree Float) (n : Node Float) (ns : List (Node Float)) (p : Place) :
    Prop where
  line : t.Line n.id (n :: ns)
  budget_eq : n.budget = p.budget
  ratio_eq : n.rootCallRatio = p.rootCallRatio
  depth_eq : ns.length = p.depth
  path_eq : (n :: ns).map (·.method.id) = p.path
  nodup : p.path.Nodup

/-- A node that was admitted below `p`, which stands at a place with the nodes `ns` above it. -/
structure Tree.Below (t : Tree Float) (o : Options) (n p : Node Float) (ns : List (Node Float))
    (place : Place) : Prop where
  parent_eq : n.parent = p.id
  parent : t.Stands p ns place
  admitted : place.refusal? o n.method n.callRatio = none
  stands : t.Stands n (p :: ns) (place.child n.id n.method n.callRatio)

namespace Tree

variable {t : Tree Float} {o : Options}

theorem Stands.child {n p : Node Float} {ns : List (Node Float)} {place : Place}
    (hp : t.Stands p ns place) (h0 : 0 ≤ p.id) (hpar : n.parent = p.id)
    (hn : t.node? n.id = some n) (hnone : place.refusal? o n.method n.callRatio = none)
    (hbudget : n.budget = (place.child n.id n.method n.callRatio).budget)
    (hratio : n.rootCallRatio = (place.child n.id n.method n.callRatio).rootCallRatio) :
    t.Below o n p ns place := by
  refine ⟨hpar, hp, hnone, ?_, hbudget, hratio, ?_, ?_, ?_⟩
  · refine .step _ _ _ hn ?_ (hpar ▸ hp.line)
    simp only [Node.isRoot, hpar, beq_eq_false_iff_ne]
    intro heq
    rw [heq] at h0
    exact absurd h0 (by decide)
  · rw [List.length_cons, hp.depth_eq]
    rfl
  · rw [List.map_cons, hp.path_eq]
    rfl
  · exact List.nodup_cons.2 ⟨(Place.refusal?_eq_none_iff.1 hnone).2.1, hp.nodup⟩

/-- The nodes of an admitted forest stand where they were admitted. -/
theorem below_of_admitted {f : Forest Float} {p : Node Float} {ns : List (Node Float)}
    {place : Place} {next : Nat} (hf : f.Admitted o place) (hp : t.Stands p ns place)
    (h0 : 0 ≤ p.id) (hnodes : ∀ n ∈ f.nodes p.id next, t.node? n.id = some n) :
    ∀ n ∈ f.nodes p.id next, ∃ p' ns' place', t.Below o n p' ns' place' := by
  induction f generalizing p ns place next with
  | empty => exact fun n hn => nomatch hn
  | grow call below rest ihb ihr =>
    obtain ⟨hnone, hbudget, hratio, hbelow, hrest⟩ := hf
    -- the place below the call has the number of its node, which the rules do not look at
    let n₀ : Node Float :=
      { call with id := next, parent := p.id, children := below.roots (next + 1) }
    have hn₀ : t.node? n₀.id = some n₀ := hnodes n₀ (Forest.mem_nodes_grow.2 (.inl rfl))
    have hhead : t.Below o n₀ p ns place := hp.child h0 rfl hn₀ hnone hbudget hratio
    intro n hn
    rcases Forest.mem_nodes_grow.1 hn with rfl | hn | hn
    · exact ⟨p, ns, place, hhead⟩
    · have hplace := (Place.Alike.refl place).child place.id n₀.id call.method call.callRatio
      exact ihb (hbelow.alike hplace) hhead.stands (Int.natCast_nonneg _)
        (fun m hm => hnodes m (Forest.mem_nodes_grow.2 (.inr (.inl hm)))) n hn
    · exact ihr hrest hp h0 (fun m hm => hnodes m (Forest.mem_nodes_grow.2 (.inr (.inr hm)))) n hn

theorem stands_root (root : Method) (budget : Int) (e : Expansion) (f : Forest Float) :
    ∃ n, n.id = 0 ∧ (ofForest (Builder.rootCall root budget e) f).Stands n []
      (Builder.rootPlace root budget) := by
  let n : Node Float := { Builder.rootCall root budget e with
    id := (0 : Nat), parent := noNode, children := f.roots (0 + 1) }
  have hn : (ofForest (Builder.rootCall root budget e) f).node? n.id = some n :=
    node?_ofForest.2 ⟨Forest.mem_nodes_grow.2 (.inl rfl), rfl⟩
  exact ⟨n, rfl, .root _ _ hn rfl, rfl, rfl, rfl, rfl, List.pairwise_singleton _ _⟩

/-- Every node of a built tree but the root was admitted below its parent. -/
theorem below_of_build {b : Builder} {root : Method} {budget : Int}
    (h : (b.build (some root) budget).outcome = .ok t) {i : NodeId} {n : Node Float}
    (hn : t.node? i = some n) (hi : i ≠ 0) : ∃ p ns place, t.Below b.options n p ns place := by
  obtain ⟨e, rfl, hadmitted⟩ := b.build_admitted h
  obtain ⟨r, hid, hstands⟩ := stands_root root budget e e.growth.forest
  have hid : r.id = ((0 : Nat) : Int) := hid
  obtain ⟨hmem, rfl⟩ := node?_ofForest.1 hn
  rcases Forest.mem_nodes_grow.1 hmem with rfl | hmem | hmem
  · exact absurd rfl hi
  · rw [← hid] at hmem
    refine below_of_admitted hadmitted hstands (by rw [hid]; exact le_refl _) ?_ n hmem
    intro m hm
    rw [hid] at hm
    exact node?_ofForest.2 ⟨Forest.mem_nodes_grow.2 (.inr (.inl hm)), rfl⟩
  · cases hmem

end Tree

/-! ## Rules -/

/-- What is left for `n` below `p` is a 64-bit word. -/
def Node.Fits (n p : Node Float) : Prop := p.budget - n.method.size < 2 ^ 63

/-- The rules that node `n` obeys towards its parent `p`, above which the nodes `ns` stand. -/
structure Node.Obeys (o : Options) (t : Tree Float) (n p : Node Float) (ns : List (Node Float)) :
    Prop where
  parent_eq : n.parent = p.id
  line : t.Line n.id (n :: p :: ns)
  size_le : n.method.size ≤ p.budget
  budget_eq : n.budget = wrap 64 (p.budget - n.method.size)
  ratio_eq : n.rootCallRatio = p.rootCallRatio * n.callRatio
  ratio_ge : ¬n.rootCallRatio < o.minRootCallRatio
  depth_le : 0 < o.maxDepth → (ns.length : Int) + 1 ≤ o.maxDepth
  nodup : ((n :: p :: ns).map (·.method.id)).Nodup

namespace Tree

variable {t : Tree Float} {o : Options} {n p : Node Float} {ns : List (Node Float)}

theorem Below.obeys {place : Place} (h : t.Below o n p ns place) : n.Obeys o t p ns := by
  obtain ⟨hsize, -, hratio, hdepth⟩ := Place.refusal?_eq_none_iff.1 h.admitted
  refine ⟨h.parent_eq, h.stands.line, ?_, ?_, ?_, ?_, ?_, ?_⟩
  · rwa [h.parent.budget_eq]
  · rw [h.stands.budget_eq, h.parent.budget_eq]
    rfl
  · rw [h.stands.ratio_eq, h.parent.ratio_eq]
    rfl
  · rw [h.stands.ratio_eq]
    exact hratio
  · rw [h.parent.depth_eq]
    exact hdepth
  · rw [h.stands.path_eq]
    exact h.stands.nodup

end Tree

/-- A word that is left for a node is what its size leaves of the parent's budget. -/
theorem Node.Obeys.budget_of_fits {o : Options} {t : Tree Float} {n p : Node Float}
    {ns : List (Node Float)} (h : n.Obeys o t p ns) (hfits : n.Fits p) :
    n.budget = p.budget - n.method.size ∧ 0 ≤ n.budget := by
  have hsize := h.size_le
  have heq : n.budget = p.budget - n.method.size := by
    rw [h.budget_eq]
    exact wrap_eq_self (by norm_num; omega) hfits (by norm_num)
  exact ⟨heq, by omega⟩

theorem wrap_lt (v : Int) : wrap 64 v < 2 ^ 63 := BitVec.toInt_lt

namespace Tree

variable {b : Builder} {root : Method} {budget : Int} {t : Tree Float} {i : NodeId} {n : Node Float}

theorem linked_of_build (h : (b.build (some root) budget).outcome = .ok t) :
    t.Linked ∧ 0 < t.size := by
  obtain ⟨e, rfl, -⟩ := b.build_admitted h
  exact ⟨linked_ofForest _ _, by rw [size_ofForest]; omega⟩

theorem budget_of_root (h : (b.build (some root) budget).outcome = .ok t)
    (hn : t.node? 0 = some n) : n.budget = budget := by
  obtain ⟨e, rfl, -⟩ := b.build_admitted h
  obtain ⟨r, hid, hstands⟩ := stands_root root budget e e.growth.forest
  have hr := hstands.line.node
  rw [hid, hn] at hr
  rw [Option.some.inj hr, hstands.budget_eq]
  rfl

/-- Every budget of a built tree is a word if that of the root is. -/
theorem budget_lt (h : (b.build (some root) budget).outcome = .ok t) (hbudget : budget < 2 ^ 63)
    (hn : t.node? i = some n) : n.budget < 2 ^ 63 := by
  by_cases hi : i = 0
  · rw [budget_of_root h (hi ▸ hn)]
    exact hbudget
  · obtain ⟨p, ns, place, hbelow⟩ := below_of_build h hn hi
    rw [hbelow.obeys.budget_eq]
    exact wrap_lt _

/-- What the sizes on the way from the root leave of its budget. -/
theorem sum_of_line (h : (b.build (some root) budget).outcome = .ok t) {ns : List (Node Float)}
    (hline : t.Line i ns) (hfits : ns.IsChain Node.Fits) :
    ∃ n ∈ ns.head?, (ns.dropLast.map (·.method.size)).sum + n.budget = budget := by
  have hl := (linked_of_build h).1
  induction hline with
  | root i n hn hroot =>
    refine ⟨n, rfl, ?_⟩
    have hi : i = 0 := by
      by_contra hi
      have hpar := hl.parent_lt hn hi
      simp only [Node.isRoot, beq_iff_eq] at hroot
      rw [hroot] at hpar
      exact absurd hpar.1 (by decide)
    simpa using budget_of_root h (hi ▸ hn)
  | step i n ns hn hinner hline ih =>
    refine ⟨n, rfl, ?_⟩
    have hi : i ≠ 0 := by
      rintro rfl
      simp [Node.isRoot, hl.parent_root hn] at hinner
    obtain ⟨p, ms, place, hbelow⟩ := below_of_build h hn hi
    have hobeys := hbelow.obeys
    -- the nodes above are those that the rules speak of
    obtain rfl : ns = p :: ms :=
      hline.unique (hobeys.parent_eq ▸ hbelow.parent.line)
    obtain ⟨hhead, htail⟩ := List.isChain_cons_cons.1 hfits
    obtain ⟨p', hp', hsum⟩ := ih htail
    obtain rfl : p = p' := Option.some.inj hp'
    have hbudget := (hobeys.budget_of_fits hhead).1
    rw [List.dropLast_cons_of_ne_nil (List.cons_ne_nil _ _), List.map_cons, List.sum_cons]
    omega

end Tree

/-- A built tree is well linked, and all its nodes but the root obey the rules of admission. What is
    left for a node is what its size leaves of the parent's budget, and not negative, as long as it
    is a word, which only a negative size can prevent; if that holds all the way up, the sizes on the
    way sum to no more than the budget of the root. -/
theorem admission_rules {b : Builder} {root : Method} {budget : Int} {t : Tree Float}
    (h : (b.build (some root) budget).outcome = .ok t) :
    t.check = .ok () ∧ ∀ i n, t.node? i = some n → i ≠ 0 → ∃ p ns,
      n.Obeys b.options t p ns ∧ t.depth i = some (ns.length + 1)
      ∧ (n.Fits p → n.budget = p.budget - n.method.size ∧ 0 ≤ n.budget)
      ∧ (budget < 2 ^ 63 → 0 ≤ n.method.size → n.Fits p)
      ∧ ((n :: p :: ns).IsChain Node.Fits →
          ((n :: p :: ns).dropLast.map (·.method.size)).sum ≤ budget) := by
  obtain ⟨hl, hsize⟩ := Tree.linked_of_build h
  refine ⟨hl.check_eq hsize, fun i n hn hi => ?_⟩
  obtain ⟨p, ns, place, hbelow⟩ := Tree.below_of_build h hn hi
  have hobeys := hbelow.obeys
  have hline : t.Line i (n :: p :: ns) := hl.id_eq hn ▸ hobeys.line
  refine ⟨p, ns, hobeys, hl.depth_of_line hline, hobeys.budget_of_fits, ?_, ?_⟩
  · intro hbudget hnonneg
    have := Tree.budget_lt h hbudget hbelow.parent.line.node
    unfold Node.Fits
    omega
  · intro hfits
    obtain ⟨m, hm, hsum⟩ := Tree.sum_of_line h hline hfits
    obtain rfl : n = m := Option.some.inj hm
    have := (hobeys.budget_of_fits (List.isChain_cons_cons.1 hfits).1).2
    omega

/-- `mid` is grown below `root` and replayed below `wrap`. -/
def nested : Program := .ofMethods
  [.calling "root" 1 ["mid", "wrap"], .calling "wrap" 10 ["mid"], .calling "mid" 5 ["leaf"],
    .calling "leaf" 2 []]

/-- The rules at node 5, a `leaf` three calls below the root that was replayed. -/
theorem admission_rules_nested : ∃ t root, nested.method? "t/A.root()V" = some root
    ∧ (Builder.build { catalog := nested.catalog } (some root) 30).outcome = .ok t
    ∧ t.check = .ok () ∧ ∃ n p ns, t.node? 5 = some n ∧ n.method.id = "t/A.leaf()V"
      ∧ n.origin = some 2 ∧ n.Obeys {} t p ns ∧ t.depth 5 = some (ns.length + 1)
      ∧ n.budget = p.budget - n.method.size ∧ 0 ≤ n.budget := by
  have hview : (nested.method? "t/A.root()V").isSome
      ∧ (Builder.build { catalog := nested.catalog } (nested.method? "t/A.root()V")
        30).outcome.toOption.map (fun t => (t.node? 5).map fun n =>
          (n.method.id, n.origin, n.method.size)) = some (some ("t/A.leaf()V", some 2, 2)) := by
    decide +kernel
  obtain ⟨hroot, hview⟩ := hview
  obtain ⟨root, hroot⟩ := Option.isSome_iff_exists.1 hroot
  rw [hroot] at hview
  obtain ⟨t, ht, hview⟩ := Build.exists_tree hview
  obtain ⟨n, hn, hview⟩ := Option.map_eq_some_iff.1 hview
  obtain ⟨hmethod, horigin, hsize⟩ := by simpa only [Prod.mk.injEq] using hview
  obtain ⟨hcheck, hrules⟩ := admission_rules ht
  obtain ⟨p, ns, hobeys, hdepth, hbudget, hfits, -⟩ := hrules 5 n hn (by decide)
  have hfits := hfits (by decide) (by rw [hsize]; decide)
  exact ⟨t, root, hroot, ht, hcheck, n, p, ns, hn, hmethod, horigin, hobeys, hdepth,
    (hbudget hfits).1, (hbudget hfits).2⟩

/-- A method of negative size below a root with the greatest budget. -/
def negative : Program := .ofMethods [.calling "root" 1 ["leaf"], .calling "leaf" (-1) []]

/-- What a negative size leaves of the greatest budget is no word: the budget of the node wraps
    around, and is negative. -/
theorem budget_wraps : ∃ t n p, (Builder.build { catalog := negative.catalog }
      (negative.method? "t/A.root()V") 9223372036854775807).outcome = .ok t
    ∧ t.node? 0 = some p ∧ t.node? 1 = some n ∧ n.parent = 0
    ∧ n.budget ≠ p.budget - n.method.size ∧ n.budget < 0 := by
  have hview : (Builder.build { catalog := negative.catalog } (negative.method? "t/A.root()V")
      9223372036854775807).outcome.toOption.map (fun t => (t.node? 0).bind fun p =>
        (t.node? 1).map fun n => (n.parent, n.budget - (p.budget - n.method.size), n.budget))
      = some (some (0, -18446744073709551616, -9223372036854775808)) := by
    decide +kernel
  obtain ⟨t, ht, hview⟩ := Build.exists_tree hview
  obtain ⟨p, hp, hview⟩ := Option.bind_eq_some_iff.1 hview
  obtain ⟨n, hn, hview⟩ := Option.map_eq_some_iff.1 hview
  obtain ⟨hparent, hbudget, hnegative⟩ := by simpa only [Prod.mk.injEq] using hview
  exact ⟨t, n, p, ht, hp, hn, hparent, by omega, by omega⟩

end InlinePlan
