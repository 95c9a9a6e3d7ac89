import InlinePlan.Proofs.CallTree.Admission
import InlinePlan.Proofs.CallTree.Course
import InlinePlan.Proofs.CallTree.Reach

set_option autoImplicit false

/-! # Bookkeeping

The status, the summary and the benefit of a node are written at different moments, and a replay
copies them from nodes that may be copies themselves. What is remembered is as consistent as what is
grown (`Recorded`), and so is every call of a finished tree: its status and summary are those that its
own method's code gives, and its benefit is that of its summary and its arguments (`Booked`). -/

namespace InlinePlan

/-! ## Calls and what is below them -/

/-- Every call of a forest and the forest below it have a property. -/
def Forest.Each {R : Type} (P : Call R → Forest R → Prop) : Forest R → Prop
  | .empty => True
  | .grow call below rest => P call below ∧ below.Each P ∧ rest.Each P

namespace Forest.Each

/-- A node of a forest is one of its calls, with the topmost calls below it as children. -/
theorem node {R : Type} {P : Call R → Forest R → Prop} {f : Forest R} {parent : NodeId} {next : Nat}
    {n : Node R} (h : f.Each P) (hn : n ∈ f.nodes parent next) :
    ∃ below i, P n.toCall below ∧ n.children = below.roots i := by
  induction f generalizing parent next with
  | empty => cases hn
  | grow call below rest ihb ihr =>
    rcases mem_nodes_grow.1 hn with rfl | hn | hn
    · exact ⟨below, next + 1, h.1, rfl⟩
    · exact ihb h.2.1 hn
    · exact ihr h.2.2 hn

theorem regrow {P : Call Float → Forest Float → Prop} {o : Options} {f : Forest Float} (h : f.Each P)
    (hP : ∀ c below p budget ratio, P c below →
      P { c with budget, rootCallRatio := ratio } (InlinePlan.regrow o p below).forest)
    (p : Place) : (InlinePlan.regrow o p f).forest.Each P := by
  induction f generalizing p with
  | empty => trivial
  | grow call below rest ihb ihr =>
    rw [InlinePlan.regrow]
    split
    · exact ihr h.2.2 p
    · exact ⟨hP _ _ _ _ _ h.1, ihb h.2.1 _, ihr h.2.2 p⟩

end Forest.Each

/-- A call is never of a method on the path to its place. -/
theorem Forest.Admitted.notMem_path {o : Options} {p : Place} {f : Forest Float} {parent : NodeId}
    {next : Nat} {n : Node Float} (h : f.Admitted o p) (hn : n ∈ f.nodes parent next) :
    n.method.id ∉ p.path := by
  induction f generalizing p parent next with
  | empty => cases hn
  | grow call below rest ihb ihr =>
    obtain ⟨hnone, -, -, hbelow, hrest⟩ := h
    rcases mem_nodes_grow.1 hn with rfl | hn | hn
    · exact (Place.refusal?_eq_none_iff.1 hnone).2.1
    · exact fun hmem => ihb hbelow hn (List.mem_cons_of_mem _ hmem)
    · exact ihr hrest hn

/-! ## Consistent records -/

namespace Builder

/-- A status and a summary are those that the code of method `m` gives, and calls are below only if
    there is a summary. -/
structure Reflects (b : Builder) (m : Method) (status : Status) (summary : Option Summary)
    (below : Forest Float) (r : Reading) : Prop where
  read_eq : b.read m = .ok r
  status_eq : status = r.status
  summary_eq : summary = r.summary?
  below_eq : summary = none → below = .empty

/-- A call of a declared method that is consistent with the method's code and with its arguments. -/
structure Booked (b : Builder) (prog : Program) (c : Call Float) (below : Forest Float) : Prop where
  declares : prog.Declares c.method
  reflects : ∃ r, b.Reflects c.method c.status c.summary below r
  benefit_eq : c.staticBenefit
    = staticBenefit (some b.catalog.isSubtype) b.options.predicateWeight c.summary c.args

/-- An expansion that is consistent with its method's code, with consistent calls below. -/
structure Consistent (b : Builder) (prog : Program) (m : Method) (e : Expansion) : Prop where
  reflects : ∃ r, b.Reflects m e.status e.summary e.growth.forest r
  below : e.growth.forest.Each (b.Booked prog)

/-- What is remembered are consistent expansions of declared methods. -/
def Recorded (b : Builder) (prog : Program) (s : BuildState) : Prop :=
  ∀ entry ∈ s.memo, ∃ m, prog.Declares m ∧ m.id = entry.1 ∧ b.Consistent prog m entry.2.expansion

variable {b : Builder} {prog : Program} {m : Method} {p : Place} {e : Expansion} {s s' : BuildState}

theorem Recorded.of_memo_eq (h : b.Recorded prog s) (hmemo : s'.memo = s.memo) :
    b.Recorded prog s' := by
  rwa [Recorded, hmemo]

theorem Recorded.lookup {memo : Memo} (h : b.Recorded prog s) (hm : prog.Declares m)
    (hmemo : s.memo.lookup m.id = some memo) : b.Consistent prog m memo.expansion := by
  obtain ⟨_, _, hsplit, -⟩ := List.lookup_eq_some_iff.1 hmemo
  obtain ⟨m', hm', hid, hconsistent⟩ := h (m.id, memo) (by simp [hsplit])
  -- what is remembered under an identity is of the one method declared with it
  obtain rfl := hm'.unique hm hid
  exact hconsistent

theorem Closes.recorded {r : Reading} (hcloses : Closes p m r e s s') (hs : b.Recorded prog s)
    (hm : prog.Declares m) (he : b.Consistent prog m e) : b.Recorded prog s' := by
  rcases hcloses.memo_cases with hmemo | hmemo
  · exact hs.of_memo_eq hmemo
  · intro entry hentry
    rw [hmemo, List.mem_append, List.mem_singleton] at hentry
    rcases hentry with hentry | rfl
    · exact hs entry hentry
    · exact ⟨m, hm, rfl, he⟩

/-- A replay of a consistent expansion is consistent, wherever it is. -/
theorem Consistent.replayed (h : b.Consistent prog m e) (o : Options) (p : Place) :
    b.Consistent prog m (e.replayed o p) := by
  have hempty {f : Forest Float} (p : Place) (hf : f = .empty) : (regrow o p f).forest = .empty := by
    rw [hf]
    rfl
  obtain ⟨r, hr⟩ := h.reflects
  refine ⟨⟨r, hr.read_eq, hr.status_eq, hr.summary_eq, fun hnone => hempty p (hr.below_eq hnone)⟩, ?_⟩
  refine h.below.regrow (fun c below p' budget ratio hc => ?_) p
  obtain ⟨r, hr⟩ := hc.reflects
  exact ⟨hc.declares, ⟨r, hr.read_eq, hr.status_eq, hr.summary_eq,
    fun hnone => hempty p' (hr.below_eq hnone)⟩, hc.benefit_eq⟩

theorem Consistent.booked (h : b.Consistent prog m e) (hm : prog.Declares m) (ratio : Float)
    (site : CallSite) : b.Booked prog (b.callAt p m ratio site e) e.growth.forest :=
  ⟨hm, h.reflects, rfl⟩

theorem Grows.eq_of_nil {g : Growth} (h : b.Grows p [] s g s') : g = {} := by
  cases h
  rfl

/-- What a method's code decides is consistent with it. -/
theorem Closes.consistent {r : Reading} {s₁ s₂ : BuildState} (hcloses : Closes p m r e s₂ s')
    (hread : b.read m = .ok r) (hgrows : b.Grows p r.offers s₁ e.growth s₂)
    (hbelow : e.growth.forest.Each (b.Booked prog)) : b.Consistent prog m e := by
  refine ⟨⟨r, hread, hcloses.status_eq, hcloses.summary_eq, fun hnone => ?_⟩, hbelow⟩
  rw [hcloses.summary_eq] at hnone
  cases r with
  | noCode reason => rw [hgrows.eq_of_nil]
  | failed fault => rw [hgrows.eq_of_nil]
  | summarized summary offers => cases hnone

/-- Growth adds consistent calls and remembers consistent expansions only. -/
theorem Grows.booked {offers : List Offer} {g : Growth} (h : b.Grows p offers s g s')
    (hserves : b.catalog.Serves prog)
    (hoffers : ∀ site ratio callee, .call site ratio callee ∈ offers → prog.Declares callee)
    (hs : b.Recorded prog s) : g.forest.Each (b.Booked prog) ∧ b.Recorded prog s' := by
  induction h with
  | nil p s => exact ⟨trivial, hs⟩
  | dropped p reason calls warning offers s s₁ g s' hmoves _ ih =>
    exact ih (fun site ratio callee hmem => hoffers _ _ _ (List.mem_cons_of_mem _ hmem))
      (hs.of_memo_eq hmoves.memo_eq)
  | refused p site ratio callee offers reason s s₁ g s' hmoves _ ih =>
    exact ih (fun site ratio callee hmem => hoffers _ _ _ (List.mem_cons_of_mem _ hmem))
      (hs.of_memo_eq hmoves.memo_eq)
  | fresh p site ratio callee offers r e s s₁ s₂ s₃ g s' _ hread hmoves hgrows hcloses _ ihb ihr =>
    have hcallee := hoffers _ _ _ List.mem_cons_self
    obtain ⟨hbelow, hs₂⟩ := ihb (fun _ _ _ hmem => declares_of_offer hserves hread hmem)
      (hs.of_memo_eq hmoves.memo_eq)
    have he := hcloses.consistent hread hgrows hbelow
    obtain ⟨hrest, hs'⟩ := ihr
      (fun site ratio callee hmem => hoffers _ _ _ (List.mem_cons_of_mem _ hmem))
      (hcloses.recorded hs₂ hcallee he)
    exact ⟨⟨he.booked hcallee ratio site, hbelow, hrest⟩, hs'⟩
  | reused p site ratio callee offers memo e s s₁ g s' _ hmemo he hmoves _ ih =>
    have hcallee := hoffers _ _ _ List.mem_cons_self
    have he : b.Consistent prog callee e := by
      rw [he]
      exact (hs.lookup hcallee hmemo).replayed _ _
    obtain ⟨hrest, hs'⟩ := ih
      (fun site ratio callee hmem => hoffers _ _ _ (List.mem_cons_of_mem _ hmem))
      (hs.of_memo_eq hmoves.memo_eq)
    exact ⟨⟨he.booked hcallee ratio site, he.below, hrest⟩, hs'⟩

/-- The root of a build need not be declared, but its expansion is consistent too. -/
theorem consistent_of_build (hserves : b.catalog.Serves prog) {root : Method} {budget : Int}
    {t : Tree Float} (h : (b.build (some root) budget).outcome = .ok t) :
    ∃ e, t = Tree.ofForest (rootCall root budget e) e.growth.forest ∧ b.Consistent prog root e := by
  obtain ⟨e, s, hexpands, ht, -, -⟩ := expands_of_build h
  refine ⟨e, ht, ?_⟩
  cases hexpands with
  | fresh r s₁ s₂ hread hmoves hgrows hcloses =>
    have hstart : b.Recorded prog s₁ := by
      intro entry hentry
      rw [hmoves.memo_eq] at hentry
      cases hentry
    have hbelow := (hgrows.booked hserves
      (fun _ _ _ hmem => declares_of_offer hserves hread hmem) hstart).1
    exact hcloses.consistent hread hgrows hbelow
  | reused memo hmemo => cases hmemo

end Builder

/-! ## Finished trees -/

/-- A node is summarized and has a summary, or it has failed or has no code, and then it has no
    summary, no children and no benefit. -/
def Node.Settled (n : Node Float) : Prop :=
  (n.status = .summarized ∧ n.summary.isSome)
    ∨ ((n.status = .failed ∨ n.status = .noGraph) ∧ n.summary = none ∧ n.children = []
      ∧ n.staticBenefit = 0)

namespace Builder

variable {b : Builder} {m : Method} {r : Reading} {n : Node Float} {below : Forest Float}

theorem Reflects.settled (h : b.Reflects m n.status n.summary below r) {i : Nat}
    (hchildren : n.children = below.roots i) (hbenefit : n.summary = none → n.staticBenefit = 0) :
    n.Settled := by
  have hnone (hnone : n.summary = none) : n.children = [] := by
    rw [hchildren, h.below_eq hnone]
    rfl
  have hstatus := h.status_eq
  have hsummary := h.summary_eq
  cases r with
  | noCode reason => exact .inr ⟨.inr hstatus, hsummary, hnone hsummary, hbenefit hsummary⟩
  | failed fault => exact .inr ⟨.inl hstatus, hsummary, hnone hsummary, hbenefit hsummary⟩
  | summarized summary offers =>
    refine .inl ⟨hstatus, ?_⟩
    rw [hsummary]
    rfl

theorem Booked.settled {prog : Program} (h : b.Booked prog n.toCall below) {i : Nat}
    (hchildren : n.children = below.roots i) : n.Settled := by
  obtain ⟨r, hr⟩ := h.reflects
  refine hr.settled hchildren fun hnone => ?_
  rw [h.benefit_eq, hnone]
  rfl

/-- Consistent calls of one identity have one summary. -/
theorem Booked.summary_unique {prog : Program} {c c' : Call Float} {below below' : Forest Float}
    (h : b.Booked prog c below) (h' : b.Booked prog c' below') (hid : c.method.id = c'.method.id) :
    c.summary = c'.summary := by
  obtain ⟨r, hr⟩ := h.reflects
  obtain ⟨r', hr'⟩ := h'.reflects
  have hread := hr.read_eq
  rw [h.declares.unique h'.declares hid, hr'.read_eq] at hread
  rw [hr.summary_eq, hr'.summary_eq, Except.ok.inj hread]

end Builder

/-- A node of a finished tree is the root, or it is consistent and of another method than the root. -/
theorem Tree.node_cases {prog : Program} {b : Builder} (hserves : b.catalog.Serves prog) {root : Method}
    {budget : Int} {t : Tree Float} (h : (b.build (some root) budget).outcome = .ok t) {i : NodeId}
    {n : Node Float} (hn : t.node? i = some n) :
    (t.node? 0 = some n ∧ n.method = root ∧ n.isRoot = true ∧ n.Settled)
      ∨ (n.isRoot = false ∧ n.method.id ≠ root.id
        ∧ ∃ below k, b.Booked prog n.toCall below ∧ n.children = below.roots k) := by
  obtain ⟨e, rfl, he⟩ := b.consistent_of_build hserves h
  obtain ⟨hmem, rfl⟩ := node?_ofForest.1 hn
  rcases Forest.mem_nodes_grow.1 hmem with rfl | hbelow | hrest
  · obtain ⟨r, hr⟩ := he.reflects
    exact .inl ⟨hn, rfl, rfl, Builder.Reflects.settled hr rfl fun _ => rfl⟩
  · refine .inr ⟨?_, ?_, he.below.node hbelow⟩
    · have hparent := Forest.parent_cases hbelow
      simp only [Node.isRoot, beq_eq_false_iff_ne, noNode]
      grind
    · obtain ⟨e', ht, hadmitted⟩ := b.build_admitted h
      rw [ht, node?_ofForest] at hn
      rcases Forest.mem_nodes_grow.1 hn.1 with heq | hnode | hrest
      · have hid := (Forest.id_bounds hbelow).1
        rw [heq] at hid
        exact absurd hid (by simp)
      · intro hid
        refine hadmitted.notMem_path hnode ?_
        rw [hid]
        exact List.mem_singleton_self _
      · cases hrest
  · cases hrest

/-- The bookkeeping of a finished build is consistent. Each node is summarized and has a summary, or
    it has failed or has no code, and then it has no summary, no children and no benefit. Summarized
    nodes of one identity have one summary. Below the root the benefit of a node is that of its summary
    and its arguments. -/
theorem bookkeeping_consistent {prog : Program} {b : Builder} (hserves : b.catalog.Serves prog)
    {root : Option Method} {budget : Int} {t : Tree Float}
    (h : (b.build root budget).outcome = .ok t) :
    (∀ i n, t.node? i = some n → n.Settled)
      ∧ (∀ i j n n', t.node? i = some n → t.node? j = some n' → n.status = .summarized →
          n'.status = .summarized → n.method.id = n'.method.id → n.summary = n'.summary)
      ∧ ∀ i n, t.node? i = some n → n.isRoot = false →
          n.staticBenefit
            = staticBenefit (some b.catalog.isSubtype) b.options.predicateWeight n.summary n.args := by
  cases root with
  | none => cases h
  | some root =>
    have hcases {i : NodeId} {n : Node Float} (hn : t.node? i = some n) :=
      Tree.node_cases hserves h hn
    refine ⟨fun i n hn => ?_, fun i j n n' hn hn' _ _ hid => ?_, fun i n hn hinner => ?_⟩
    · rcases hcases hn with ⟨-, -, -, hsettled⟩ | ⟨-, -, below, k, hbooked, hchildren⟩
      · exact hsettled
      · exact hbooked.settled hchildren
    · -- no call is of the root's method, so two nodes of one identity are both the root or both calls
      rcases hcases hn with ⟨hroot, hmethod, -⟩ | ⟨-, hne, below, k, hbooked, -⟩
      · rcases hcases hn' with ⟨hroot', -⟩ | ⟨-, hne, -⟩
        · rw [Option.some.inj (hroot.symm.trans hroot')]
        · exact absurd (hmethod ▸ hid).symm hne
      · rcases hcases hn' with ⟨-, hmethod, -⟩ | ⟨-, -, below', k', hbooked', -⟩
        · exact absurd (hmethod ▸ hid) hne
        · exact hbooked.summary_unique hbooked' hid
    · rcases hcases hn with ⟨-, -, hroot, -⟩ | ⟨-, -, below, k, hbooked, -⟩
      · rw [hroot] at hinner
        cases hinner
      · exact hbooked.benefit_eq

/-- `mid` calls a method with an argument that it tests, one that takes from an empty stack and one
    without code. It is grown below `root` and replayed below `wrap`. -/
def patchwork : Program := .ofMethods
  [.calling "root" 1 ["mid", "wrap"], .calling "wrap" 1 ["mid"],
    .running "mid" 1 ["0: iconst_0", "1: invokestatic t/A.test(I)V", "4: invokestatic t/A.bad()V",
      "7: invokestatic t/A.native()V", "10: return"],
    { MethodRecord.running "test" 1 ["0: iload_0", "1: ifeq 4", "4: return"] with
      descriptor := "(I)V" },
    .running "bad" 1 ["0: pop", "1: return"],
    { MethodRecord.running "native" 1 [] with blocks := [] }]

/-- The nodes 6 to 9 are copies of the nodes 1 to 4. -/
theorem bookkeeping_consistent_patchwork :
    ∃ t, (Builder.build { catalog := patchwork.catalog } (patchwork.method? "t/A.root()V")
        20).outcome = .ok t
      ∧ t.nodes.toList.map (fun n => (n.status, n.staticBenefit, n.origin))
        = [(.summarized, 0, some 0), (.summarized, 0, some 1), (.summarized, 1, some 2),
          (.failed, 0, none), (.noGraph, 0, none), (.summarized, 0, some 5), (.summarized, 0, some 1),
          (.summarized, 1, some 2), (.failed, 0, none), (.noGraph, 0, none)]
      ∧ (∀ i n, t.node? i = some n → n.Settled)
      ∧ (∀ i j n n', t.node? i = some n → t.node? j = some n' → n.status = .summarized →
          n'.status = .summarized → n.method.id = n'.method.id → n.summary = n'.summary)
      ∧ ∀ i n, t.node? i = some n → n.isRoot = false →
          n.staticBenefit = staticBenefit (some patchwork.catalog.isSubtype) 1 n.summary n.args := by
  have hview : (Builder.build { catalog := patchwork.catalog } (patchwork.method? "t/A.root()V")
      20).outcome.toOption.map
        (fun t => t.nodes.toList.map fun n => (n.status, n.staticBenefit, n.origin))
      = some [(.summarized, 0, some 0), (.summarized, 0, some 1), (.summarized, 1, some 2),
          (.failed, 0, none), (.noGraph, 0, none), (.summarized, 0, some 5), (.summarized, 0, some 1),
          (.summarized, 1, some 2), (.failed, 0, none), (.noGraph, 0, none)] := by
    decide +kernel
  obtain ⟨t, ht, hnodes⟩ := Build.exists_tree hview
  exact ⟨t, ht, hnodes, bookkeeping_consistent (.of_eq rfl) ht⟩

end InlinePlan
