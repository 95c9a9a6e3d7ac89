import InlinePlan.Proofs.CallTree.Preorder
import InlinePlan.Proofs.CallTree.Reach

set_option autoImplicit false

/-! # Outcomes of builds

Over a program with acyclic classes a build has a tree, unless the analysis of some declared method
aborts; nothing else ends a build. What a method's code says decides the nodes of that method and no
others: each node has the status and the summary of its own method's reading, and each failure is
among the warnings. -/

namespace InlinePlan

/-! ## Aborted analyses -/

/-- A run that is not cancelled when it starts never is. -/
theorem Subject.run_ne_cancelled (s : Subject) (g : FlowGraph) :
    (s.run g false).outcome ≠ .error .cancelled := by
  intro h
  rcases s.run_cases g false with ⟨-, -, _, hrun⟩ | ⟨hfalse, -⟩ | ⟨-, -, hrun⟩
  · rw [hrun] at h
    cases h
  · cases hfalse
  · rw [hrun] at h
    rcases fault_of_runReachable h with ⟨_, hf⟩ | ⟨_, _, hf⟩ <;> cases hf

namespace Builder

/-- The analysis of a method aborts instead of failing: it has no room to start, frames do not merge,
    or an instruction asks for a slot that no frame has or for more than one can have. -/
inductive Aborts (b : Builder) (m : Method) : BuildFault → Prop where
  | unstarted (g : FlowGraph) (count : Int) : b.catalog.graph m = .ok g →
      ¬(b.subject m).HasRoom g → Aborts b m (.crashed (.noRoom count))
  | mismatch (g : FlowGraph) (e : Mismatch) : b.catalog.graph m = .ok g →
      ((b.subject m).run g false).outcome = .error (.mismatch e) → Aborts b m (.mismatch e)
  | crashed (g : FlowGraph) (method : MethodId) (ins : Instruction) (e : Fault) :
      b.catalog.graph m = .ok g →
      ((b.subject m).run g false).outcome = .error (.instruction method ins e) →
      e.faultClass = .crash → Aborts b m (.crashed e)

variable {b : Builder} {prog : Program} {m : Method}

theorem aborts_of_read {f : BuildFault} (h : b.read m = .error f) : b.Aborts m f := by
  unfold read at h
  split at h
  · cases h
  · rename_i g hg
    dsimp only at h
    split at h
    · rename_i hout
      exact absurd hout ((b.subject m).run_ne_cancelled g)
    · rename_i e hout
      cases h
      rcases (b.subject m).run_cases g false with ⟨hroom, -, count, hrun⟩ | ⟨hfalse, -⟩ | ⟨-, -, hrun⟩
      · obtain rfl := RunFault.start.inj (Except.error.inj (hout.symm.trans hrun))
        exact .unstarted g count hg hroom
      · cases hfalse
      · rw [hrun] at hout
        rcases Subject.fault_of_runReachable hout with ⟨_, hf⟩ | ⟨_, _, hf⟩ <;> cases hf
    · rename_i e hout
      cases h
      exact .mismatch g e hg hout
    · rename_i method ins e hout
      split at h
      · rename_i hcrash
        cases h
        exact .crashed g method ins e hg hout hcrash
      · cases h
    · cases h

/-! ## What nodes show -/

/-- The warning about a method whose analysis failed. -/
def failureWarning (m : Method) (fault : RunFault) : String :=
  m.id ++ ": interpretation failed: " ++ fault.message

/-- A status and a summary are those that the method's own code gives, and its failure is known. -/
def Shows (b : Builder) (warnings : List String) (m : Method) (status : Status)
    (summary : Option Summary) : Prop :=
  ∃ r, b.read m = .ok r ∧ status = r.status ∧ summary = r.summary?
    ∧ ∀ fault, r = .failed fault → failureWarning m fault ∈ warnings

theorem Shows.mono {ws ws' : List String} {status : Status} {summary : Option Summary}
    (h : b.Shows ws m status summary) (hws : ws ⊆ ws') : b.Shows ws' m status summary := by
  obtain ⟨r, hread, hstatus, hsummary, hfailed⟩ := h
  exact ⟨r, hread, hstatus, hsummary, fun fault hr => hws (hfailed fault hr)⟩

end Builder

/-- All calls of a forest have a property. -/
def Forest.All {R : Type} (P : Call R → Prop) : Forest R → Prop
  | .empty => True
  | .grow call below rest => P call ∧ below.All P ∧ rest.All P

namespace Forest.All

variable {R : Type} {P P' : Call R → Prop} {f : Forest R}

theorem mono (h : f.All P) (hP : ∀ c, P c → P' c) : f.All P' := by
  induction f with
  | empty => trivial
  | grow call below rest ihb ihr => exact ⟨hP _ h.1, ihb h.2.1, ihr h.2.2⟩

theorem toCall {parent : NodeId} {next : Nat} {n : Node R} (h : f.All P)
    (hn : n ∈ f.nodes parent next) : P n.toCall := by
  induction f generalizing parent next with
  | empty => cases hn
  | grow call below rest ihb ihr =>
    rcases mem_nodes_grow.1 hn with rfl | hn | hn
    · exact h.1
    · exact ihb h.2.1 hn
    · exact ihr h.2.2 hn

/-- A replay keeps what does not depend on the place. -/
theorem regrow {P : Call Float → Prop} {f : Forest Float} (h : f.All P)
    (hP : ∀ c budget ratio, P c → P { c with budget, rootCallRatio := ratio }) (o : Options)
    (p : Place) : (InlinePlan.regrow o p f).forest.All P := by
  induction f generalizing p with
  | empty => trivial
  | grow call below rest ihb ihr =>
    rw [InlinePlan.regrow]
    split
    · exact ihr h.2.2 p
    · exact ⟨hP _ _ _ h.1, ihb h.2.1 _, ihr h.2.2 p⟩

end Forest.All

/-! ## Growth -/

namespace Builder

variable {b : Builder} {prog : Program} {m : Method} {s s' : BuildState}

/-- A call of a declared method that shows what the method's code gives. -/
def Plain (b : Builder) (prog : Program) (warnings : List String) (c : Call Float) : Prop :=
  prog.Declares c.method ∧ b.Shows warnings c.method c.status c.summary

/-- An expansion shows what its method's code gives, and so do all calls below. -/
structure Accounts (b : Builder) (prog : Program) (warnings : List String) (m : Method)
    (e : Expansion) : Prop where
  declares : prog.Declares m
  shows_own : b.Shows warnings m e.status e.summary
  shows_below : e.growth.forest.All (b.Plain prog warnings)

theorem Accounts.mono {ws ws' : List String} {e : Expansion} (h : b.Accounts prog ws m e)
    (hws : ws ⊆ ws') : b.Accounts prog ws' m e where
  declares := h.declares
  shows_own := h.shows_own.mono hws
  shows_below := h.shows_below.mono fun _ hc => ⟨hc.1, hc.2.mono hws⟩

/-- Every remembered expansion accounts for its method. -/
def Recalls (b : Builder) (prog : Program) (s : BuildState) : Prop :=
  ∀ entry ∈ s.memo, ∃ m, m.id = entry.1 ∧ b.Accounts prog s.warnings m entry.2.expansion

theorem Recalls.step (h : b.Recalls prog s) (hmemo : s'.memo = s.memo)
    (hws : s.warnings ⊆ s'.warnings) : b.Recalls prog s' := by
  intro entry hentry
  obtain ⟨m, hid, hm⟩ := h entry (hmemo ▸ hentry)
  exact ⟨m, hid, hm.mono hws⟩

theorem Recalls.append {source : NodeId} {e : Expansion} (h : b.Recalls prog s)
    (hmemo : s'.memo = s.memo ++ [(m.id, ⟨source, e⟩)]) (hws : s.warnings ⊆ s'.warnings)
    (he : b.Accounts prog s'.warnings m e) : b.Recalls prog s' := by
  intro entry hentry
  rw [hmemo, List.mem_append, List.mem_singleton] at hentry
  rcases hentry with hentry | rfl
  · obtain ⟨m, hid, hm⟩ := h entry hentry
    exact ⟨m, hid, hm.mono hws⟩
  · exact ⟨m, rfl, he⟩

/-- A fault of a build is that of the analysis of some declared method. -/
def Blames (b : Builder) (prog : Program) (f : BuildFault) : Prop :=
  ∃ m, prog.Declares m ∧ b.Aborts m f

variable {ids : List MethodId} {n : Nat} {p : Place}

theorem ensures_growOffers_accounts {expand : Expander}
    (hexpand : ∀ p m s, prog.Declares m → p.Charted ids n → b.Recalls prog s →
      BuildM.Ensures (expand p m) s (fun e s' => s.warnings ⊆ s'.warnings
        ∧ b.Accounts prog s'.warnings m e ∧ b.Recalls prog s') (b.Blames prog))
    (hids : ∀ m, prog.Declares m → m.id ∈ ids) (hp : p.Charted ids (n + 1)) {offers : List Offer}
    (hcalls : ∀ site ratio callee, .call site ratio callee ∈ offers → prog.Declares callee)
    (hends : .endless ∉ offers) (hs : b.Recalls prog s) :
    BuildM.Ensures (b.growOffers expand p offers) s (fun g s' => s.warnings ⊆ s'.warnings
      ∧ g.forest.All (b.Plain prog s'.warnings) ∧ b.Recalls prog s') (b.Blames prog) := by
  induction offers generalizing s with
  | nil => exact ⟨List.Subset.refl _, trivial, hs⟩
  | cons offer offers ih =>
    have hcalls' : ∀ site ratio callee, .call site ratio callee ∈ offers → prog.Declares callee :=
      fun site ratio callee hmem => hcalls site ratio callee (List.mem_cons_of_mem _ hmem)
    have hends' : .endless ∉ offers := fun hmem => hends (List.mem_cons_of_mem _ hmem)
    cases offer with
    | call site ratio callee =>
      rw [ensures_growOffers_call]
      cases hrefusal : p.refusal? b.options callee ratio with
      | some reason =>
        refine BuildM.Ensures.mono (ih hcalls' hends' (hs.step ?_ ?_)) (fun _ _ h => h) fun _ => id
        · rfl
        · exact List.Subset.refl _
      | none =>
        -- the callee is declared and not on the path yet, so there is fuel for it
        have hdeclares := hcalls _ _ _ List.mem_cons_self
        have hnew := (Place.refusal?_eq_none_iff.1 hrefusal).2.1
        refine BuildM.Ensures.mono (hexpand _ callee _ hdeclares
          (hp.child hnew (hids _ hdeclares) s.count ratio) (hs.step ?_ ?_))
          (fun e s₁ he => ?_) fun _ => id
        · rfl
        · exact List.Subset.refl _
        obtain ⟨hs₁, haccounts, hrecalls⟩ := he
        refine (ih hcalls' hends' hrecalls).mono (fun others s₂ hothers => ?_) fun _ => id
        obtain ⟨hs₂, hothers, hrecalls⟩ := hothers
        have haccounts := haccounts.mono hs₂
        exact ⟨List.Subset.trans hs₁ hs₂,
          ⟨⟨haccounts.declares, haccounts.shows_own⟩, haccounts.shows_below, hothers⟩, hrecalls⟩
    | dropped reason calls warning =>
      rw [ensures_growOffers_dropped]
      refine BuildM.Ensures.mono (ih hcalls' hends' (hs.step ?_ ?_)) (fun _ _ h => ?_) fun _ => id
      · rfl
      · exact List.subset_append_left _ _
      · exact ⟨(List.append_subset.1 h.1).1, h.2⟩
    | endless => exact absurd List.mem_cons_self hends

/-- Growth over a program ends, and accounts for every method, unless an analysis aborts. -/
theorem ensures_expand_accounts (hcatalog : b.catalog = prog.catalog) (hacyclic : prog.Acyclic)
    (hids : ∀ m, prog.Declares m → m.id ∈ ids) (hm : prog.Declares m) (hp : p.Charted ids n)
    (hs : b.Recalls prog s) : BuildM.Ensures (b.expand n p m) s (fun e s' => s.warnings ⊆ s'.warnings
      ∧ b.Accounts prog s'.warnings m e ∧ b.Recalls prog s') (b.Blames prog) := by
  induction n generalizing p m s with
  | zero => exact absurd hp.fuel_pos (by simp)
  | succ n ih =>
    have hcancel : (∃ k, b.catalog.cancelled k = true) → b.Blames prog .cancelled := by
      rw [hcatalog]
      rintro ⟨k, hk⟩
      cases hk
    by_cases hmemo : b.reuse = true → s.memo.lookup m.id = none
    · refine ensures_expand_fresh hcancel hmemo (fun f hf => ⟨m, hm, aborts_of_read hf⟩) ?_ ?_ ?_
      · intro reason s' hread hs' _ hws _
        exact ⟨hws, ⟨hm, ⟨_, hread, rfl, rfl, fun _ hr => nomatch hr⟩, trivial⟩, hs.step hs' hws⟩
      · intro fault s' hread hs' _ hws _
        -- a failure is remembered together with its warning
        have hsub : s.warnings ⊆ s'.warnings := hws ▸ List.subset_append_left _ _
        have hshows : b.Shows s'.warnings m .failed none := by
          refine ⟨_, hread, rfl, rfl, fun fault' hfault => ?_⟩
          obtain rfl := Reading.failed.inj hfault
          rw [hws]
          exact List.mem_append_right _ (List.mem_singleton_self _)
        have haccounts : b.Accounts prog s'.warnings m { status := .failed } := ⟨hm, hshows, trivial⟩
        exact ⟨hsub, haccounts, hs.append hs' hsub haccounts⟩
      · intro summary offers s₁ hread hs₁ _ hws _
        refine (ensures_growOffers_accounts (fun _ _ _ hm hp hs => ih hm hp hs) hids hp
          (fun _ _ _ hmem => declares_of_offer (.of_eq hcatalog) hread hmem)
          (endless_notMem_offers (.of_eq hcatalog) hacyclic hread) (hs.step hs₁ hws)).mono
          (fun g s₂ hg s₃ hs₃ _ hws₃ _ => ?_) fun _ => id
        obtain ⟨hs₂, hforest, hrecalls⟩ := hg
        have haccounts : b.Accounts prog s₃.warnings m (.summarized p summary g) :=
          ⟨hm, ⟨_, hread, rfl, rfl, fun _ hr => nomatch hr⟩, hws₃ ▸ hforest⟩
        refine ⟨hws₃ ▸ List.Subset.trans hws hs₂, haccounts, ?_⟩
        split at hs₃
        · exact hrecalls.step hs₃ (hws₃ ▸ List.Subset.refl _)
        · exact hrecalls.append hs₃ (hws₃ ▸ List.Subset.refl _) haccounts
    · obtain ⟨hreuse, hsome⟩ := Classical.not_imp.1 hmemo
      obtain ⟨memo, hmemo⟩ := Option.ne_none_iff_exists'.1 hsome
      obtain ⟨_, _, hsplit, -⟩ := List.lookup_eq_some_iff.1 hmemo
      obtain ⟨m', hid, haccounts⟩ := hs (m.id, memo) (by simp [hsplit])
      -- what is remembered under an identity is of the one method declared with it
      obtain rfl := haccounts.declares.unique hm hid
      refine ensures_expand_reused hcancel hreuse hmemo fun s' hquiet _ => ?_
      have hws : s.warnings ⊆ s'.warnings := hquiet.warnings_eq ▸ List.Subset.refl _
      have haccounts := haccounts.mono hws
      exact ⟨hws, ⟨hm, haccounts.shows_own, haccounts.shows_below.regrow (fun _ _ _ h => h) _ _⟩,
        hs.step hquiet.memo_eq hws⟩

end Builder

/-! ## Builds -/

/-- Over a program with acyclic classes, the build of a declared root has a tree, each node of which
    has the status and the summary of its own method's reading, with a warning if that failed; or the
    analysis of a declared method aborts, and the build ends with its fault. -/
theorem build_outcome {prog : Program} (hacyclic : prog.Acyclic) {root : Method}
    (hroot : prog.Declares root) (o : Options) (budget : Int) :
    let b : Builder := { options := o, catalog := prog.catalog }
    let build := b.build (some root) budget
    (∃ t, build.outcome = .ok t ∧ ∀ i n, t.node? i = some n → prog.Declares n.method
      ∧ b.Shows build.state.warnings n.method n.status n.summary)
    ∨ ∃ m f, prog.Declares m ∧ b.Aborts m f ∧ build.outcome = .error f := by
  intro b build
  have hids : ∀ m, prog.Declares m → m.id ∈ root.id :: prog.ids :=
    fun m hm => List.mem_cons_of_mem _ hm.mem_ids
  rcases b.build_cases fun s hs _ _ => (b.ensures_expand_accounts rfl hacyclic hids hroot
    (Builder.charted_rootPlace prog root budget) fun entry hentry => by simp [hs] at hentry).mono
    (fun _ _ h => h.2.1) fun _ => id with ⟨e, s, events, hout, hstate, he⟩ | ⟨f, hout, m, hm, habort⟩
  · refine .inl ⟨_, hout, fun i n hn => ?_⟩
    have hall : (Forest.grow (Builder.rootCall root budget e) e.growth.forest .empty).All
        (b.Plain prog build.state.warnings) := by
      rw [show build.state = _ from hstate]
      exact ⟨⟨hroot, he.shows_own⟩, he.shows_below, trivial⟩
    exact hall.toCall (Tree.node?_ofForest.1 hn).1
  · exact .inr ⟨m, f, hm, habort, hout⟩

/-- The fault of a build without a tree. -/
def Build.fault? (build : Build) : Option BuildFault :=
  match build.outcome with
  | .ok _ => none
  | .error f => some f

theorem Build.outcome_of_fault? {build : Build} {f : BuildFault} (h : build.fault? = some f) :
    build.outcome = .error f := by
  unfold fault? at h
  split at h
  · cases h
  · rename_i hout
    rw [hout, Option.some.inj h]

/-- A root whose callees are a method that takes from an empty stack and one without code. -/
def faulty : Program := .ofMethods
  [.calling "root" 1 ["bad", "native"], .running "bad" 1 ["0: pop", "1: return"],
    { MethodRecord.running "native" 1 [] with blocks := [] }]

theorem build_outcome_faulty : ∃ root t, faulty.Acyclic ∧ faulty.Declares root
    ∧ (Builder.build { catalog := faulty.catalog } (some root) 9).outcome = .ok t
    ∧ t.nodes.toList.map (·.status) = [.summarized, .failed, .noGraph]
    ∧ ∀ i n, t.node? i = some n → faulty.Declares n.method
      ∧ Builder.Shows { catalog := faulty.catalog }
        (Builder.build { catalog := faulty.catalog } (some root) 9).state.warnings
        n.method n.status n.summary := by
  have hview : (faulty.method? "t/A.root()V").isSome
      ∧ (Builder.build { catalog := faulty.catalog } (faulty.method? "t/A.root()V")
        9).outcome.toOption.map (fun t => t.nodes.toList.map (·.status))
      = some [.summarized, .failed, .noGraph] := by
    decide +kernel
  obtain ⟨hroot, hview⟩ := hview
  obtain ⟨root, hroot⟩ := Option.isSome_iff_exists.1 hroot
  rw [hroot] at hview
  obtain ⟨t, ht, hview⟩ := Build.exists_tree hview
  have hacyclic : faulty.Acyclic := Program.acyclic_ofMethods _
  have hdeclares := Program.declares_of_method? hroot
  rcases build_outcome hacyclic hdeclares {} 9 with ⟨t', ht', hnodes⟩ | ⟨m, f, -, -, hf⟩
  · obtain rfl := Except.ok.inj (ht.symm.trans ht')
    exact ⟨root, t, hacyclic, hdeclares, ht, hview, hnodes⟩
  · cases ht.symm.trans hf

/-! ## Builds without a tree -/

/-- A static call of the intrinsic that asks a string for its length. -/
def lengthless : Program := .ofMethods
  [.running "root" 1 ["0: invokestatic java/lang/String.length()I", "3: pop", "4: return"]]

/-- A callee that stores to a local below the first one. -/
def slotless : Program := .ofMethods
  [.calling "root" 1 ["bad"], .running "bad" 1 ["0: iconst_0", "1: istore -1", "3: return"]]

/-- Code that does not verify can end a build, from the root and from a callee. -/
theorem build_aborts :
    (lengthless.Acyclic ∧ (Builder.build { catalog := lengthless.catalog }
      (lengthless.method? "t/A.root()V") 10).outcome = .error (.crashed .noReceiver))
    ∧ slotless.Acyclic ∧ (Builder.build { catalog := slotless.catalog }
      (slotless.method? "t/A.root()V") 10).outcome = .error (.crashed (.negativeSlot (-1))) := by
  refine ⟨⟨?_, ?_⟩, ?_, ?_⟩
  · exact Program.acyclic_ofMethods _
  · exact Build.outcome_of_fault? (by decide +kernel)
  · exact Program.acyclic_ofMethods _
  · exact Build.outcome_of_fault? (by decide +kernel)

end InlinePlan
