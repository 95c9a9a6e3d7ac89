import InlinePlan.Proofs.CallTree.Outcome
import InlinePlan.Proofs.CallTree.Sources

set_option autoImplicit false

/-! # Termination

An expansion opens others below it, one for each call that is admitted. Those that are under way at
a time are a stack (`Stack`). No method is on a stack twice, and all but the root's are declared, so
on top of the root's there are never more than the program has methods. Fuel that runs out shows a
stack with as many (`cause_of_expand`), and so fuel beyond the number of methods does not run out.
Budgets play no part in this: a method may have any size. -/

namespace InlinePlan

/-- An expansion that begins: its place, its method and the records. -/
structure Opening where
  place : Place
  method : Method
  state : BuildState

/-- The first expansion of a build. -/
def Opening.first (root : Method) (budget : Int) : Opening :=
  ⟨Builder.rootPlace root budget, root, Builder.start root budget⟩

namespace Builder

variable {b : Builder} {prog : Program} {root : Method} {budget : Int} {p : Place} {o o' : Opening}
  {os : List Opening} {f : BuildFault} {s : BuildState}

/-! ## Openings -/

/-- The growth of offers below a place opens an expansion: of a callee that is admitted, when the
    offers before it have grown. -/
inductive OpensAt (b : Builder) (p : Place) (offers : List Offer) (s : BuildState) :
    Opening → Prop where
  | mk (before after : List Offer) (site : CallSite) (ratio : Float) (callee : Method) (g : Growth)
      (s' : BuildState) :
      offers = before ++ .call site ratio callee :: after → b.Grows p before s g s' →
      p.refusal? b.options callee ratio = none →
      OpensAt b p offers s ⟨p.child s'.count callee ratio, callee, { s' with count := s'.count + 1 }⟩

/-- One expansion opens another. Only what is not remembered opens any. -/
def Opens (b : Builder) (o o' : Opening) : Prop :=
  (b.reuse = true → o.state.memo.lookup o.method.id = none)
    ∧ ∃ r s, b.read o.method = .ok r ∧ o.state.Moves 0 [] s ∧ b.OpensAt o.place r.offers s o'

/-- Why growth of offers fails, given how expansions go: a call does not resolve, or an expansion
    that it opens fails. -/
inductive FailsAt (b : Builder) (expand : Expander) (p : Place) (offers : List Offer)
    (s : BuildState) : BuildFault → Prop where
  | endless : .endless ∈ offers → FailsAt b expand p offers s .endless
  | inner (o : Opening) (f : BuildFault) (s' : BuildState) : b.OpensAt p offers s o →
      expand o.place o.method o.state = .error f s' → FailsAt b expand p offers s f

/-- Growth fails if it fails after an offer that has grown. -/
theorem FailsAt.cons {expand : Expander} {offer : Offer} {offers : List Offer} {s₁ : BuildState}
    (h : b.FailsAt expand p offers s₁ f)
    (hoffer : ∀ before g s', b.Grows p before s₁ g s' → ∃ g', b.Grows p (offer :: before) s g' s') :
    b.FailsAt expand p (offer :: offers) s f := by
  cases h with
  | endless hmem => exact .endless (List.mem_cons_of_mem _ hmem)
  | inner o f s' hopens hfails =>
    obtain ⟨before, after, site, ratio, callee, g, s'', rfl, hgrows, hnone⟩ := hopens
    obtain ⟨g', hgrows'⟩ := hoffer before g s'' hgrows
    refine .inner _ f s' ?_ hfails
    exact .mk (offer :: before) after site ratio callee g' s'' rfl hgrows' hnone

theorem ensures_growOffers_fails {expand : Expander}
    (hexpand : ∀ p m s, BuildM.Ensures (expand p m) s (fun e s' => b.Expands p m s e s')
      fun _ => True)
    (p : Place) (offers : List Offer) (s : BuildState) :
    BuildM.Ensures (b.growOffers expand p offers) s (fun _ _ => True)
      (b.FailsAt expand p offers s) := by
  induction offers generalizing s with
  | nil => trivial
  | cons offer offers ih =>
    cases offer with
    | call site ratio callee =>
      rw [ensures_growOffers_call]
      cases hrefusal : p.refusal? b.options callee ratio with
      | some reason =>
        refine (ih _).mono (fun _ _ => id) fun f hf => hf.cons fun before g s' hg => ?_
        refine ⟨_, .refused p site ratio callee before reason s _ g s' ?_ hg⟩
        exact ⟨.of_events rfl rfl (by simp [BuildEvent.reuse?]), rfl⟩
      | none =>
        refine ((hexpand _ _ _).and (BuildM.ensures_self _ _)).mono (fun e s₁ he => ?_)
          fun f hf => ?_
        · refine (ih s₁).mono (fun _ _ => id) fun f hf => hf.cons fun before g s' hg => ?_
          exact ⟨_, .admitted hrefusal he.1 hg⟩
        · obtain ⟨-, s', hfails⟩ := hf
          exact .inner _ f s' (.mk [] offers site ratio callee {} s rfl (.nil p s) hrefusal) hfails
    | dropped reason calls warning =>
      rw [ensures_growOffers_dropped]
      refine (ih _).mono (fun _ _ => id) fun f hf => hf.cons fun before g s' hg => ?_
      refine ⟨g, .dropped p reason calls warning before s _ g s' ?_ hg⟩
      exact ⟨⟨rfl, (List.append_nil _).symm⟩, rfl⟩
    | endless => exact .endless List.mem_cons_self

/-- Why an expansion fails, given how those that it opens go: it is cancelled, its own analysis
    aborts, or what its code offers fails to grow. -/
inductive Fails (b : Builder) (expand : Expander) (o : Opening) : BuildFault → Prop where
  | cancelled (k : Nat) : b.catalog.cancelled k = true → Fails b expand o .cancelled
  | aborts (f : BuildFault) : b.Aborts o.method f → Fails b expand o f
  | growth (f : BuildFault) (r : Reading) (s : BuildState) :
      (b.reuse = true → o.state.memo.lookup o.method.id = none) → b.read o.method = .ok r →
      o.state.Moves 0 [] s → b.FailsAt expand o.place r.offers s f → Fails b expand o f

theorem fails_of_expand {n : Nat} (h : b.expand (n + 1) o.place o.method o.state = .error f s) :
    b.Fails (b.expand n) o f := by
  have hcancel : (∃ k, b.catalog.cancelled k = true) → b.Fails (b.expand n) o .cancelled :=
    fun ⟨k, hk⟩ => .cancelled k hk
  have hfails : BuildM.Ensures (b.expand (n + 1) o.place o.method) o.state (fun _ _ => True)
      (b.Fails (b.expand n) o) := by
    by_cases hmemo : b.reuse = true → o.state.memo.lookup o.method.id = none
    · refine ensures_expand_fresh hcancel hmemo (fun f hf => .aborts f (aborts_of_read hf)) ?_ ?_ ?_
      · exact fun _ _ _ _ _ _ _ => trivial
      · exact fun _ _ _ _ _ _ _ => trivial
      · intro summary offers s₁ hread hs₁ _ _ hadds
        exact (ensures_growOffers_fails (b.ensures_expand_expands n) o.place offers s₁).mono
          (fun _ _ _ _ _ _ _ _ => trivial) fun f hf => .growth f _ s₁ hmemo hread ⟨hadds, hs₁⟩ hf
    · obtain ⟨hreuse, hsome⟩ := Classical.not_imp.1 hmemo
      obtain ⟨memo, hmemo⟩ := Option.ne_none_iff_exists'.1 hsome
      exact ensures_expand_reused hcancel hreuse hmemo fun _ _ _ => trivial
  rwa [BuildM.Ensures, h] at hfails

/-! ## Stacks -/

/-- The expansions that are under way when `o` begins: `o` is opened by the first of `os`, that one
    by the next, and the last is the root's. -/
inductive Stack (b : Builder) (root : Method) (budget : Int) : Opening → List Opening → Prop where
  | first : Stack b root budget (.first root budget) []
  | push (o o' : Opening) (os : List Opening) : Stack b root budget o os → b.Opens o o' →
      Stack b root budget o' (o :: os)

namespace Stack

theorem path_eq (h : b.Stack root budget o os) : o.place.path = (o :: os).map (·.method.id) := by
  induction h with
  | first => rfl
  | push o o' os _ hopens ih =>
    obtain ⟨-, r, s, -, -, _, _, _, _, callee, _, _, -, -, -⟩ := hopens
    rw [List.map_cons, ← ih]
    rfl

/-- No method is on a stack twice. -/
theorem nodup (h : b.Stack root budget o os) : o.place.path.Nodup := by
  induction h with
  | first => exact List.pairwise_singleton _ _
  | push o o' os _ hopens ih =>
    obtain ⟨-, r, s, -, -, _, _, _, _, callee, _, _, -, -, hnone⟩ := hopens
    exact List.nodup_cons.2 ⟨(Place.refusal?_eq_none_iff.1 hnone).2.1, ih⟩

/-- Only the root's method and declared ones are on a stack. -/
theorem subset (hserves : b.catalog.Serves prog) (h : b.Stack root budget o os) :
    o.place.path ⊆ root.id :: prog.ids := by
  induction h with
  | first => exact List.cons_subset.2 ⟨List.mem_cons_self, List.nil_subset _⟩
  | push o o' os _ hopens ih =>
    obtain ⟨-, r, s, hread, -, before, after, site, ratio, callee, _, _, hoffers, -, -⟩ := hopens
    have hmem : .call site ratio callee ∈ r.offers := by simp [hoffers]
    have hdeclares := declares_of_offer hserves hread hmem
    exact List.cons_subset.2 ⟨List.mem_cons_of_mem _ hdeclares.mem_ids, ih⟩

theorem length_le (hserves : b.catalog.Serves prog) (h : b.Stack root budget o os) :
    os.length ≤ prog.methods.length := by
  have hle := (List.subperm_of_subset h.nodup (h.subset hserves)).length_le
  rw [h.path_eq] at hle
  simpa [Program.ids] using hle

/-- All that is remembered when an expansion begins stands before its node. -/
theorem complete (h : b.Stack root budget o os) : o.place.id < o.state.count
    ∧ ∀ entry ∈ o.state.memo, 0 ≤ entry.2.source
      ∧ entry.2.source + entry.2.expansion.growth.forest.size < o.place.id := by
  induction h with
  | first => exact ⟨Int.one_pos, fun _ hentry => nomatch hentry⟩
  | push o o' os _ hopens ih =>
    obtain ⟨-, r, s, -, hmoves, _, _, _, _, callee, _, s', -, hgrows, -⟩ := hopens
    have hs : s.Complete := by
      intro entry hentry
      rw [hmoves.memo_eq] at hentry
      rw [hmoves.count_eq]
      have := ih.2 entry hentry
      grind
    refine ⟨?_, hgrows.leaves.complete hs⟩
    simp only [Place.child]
    grind

end Stack

/-! ## Fuel -/

/-- What ends a build without a tree: it is cancelled, or an analysis aborts. -/
inductive Interrupts (b : Builder) : BuildFault → Prop where
  | cancelled (k : Nat) : b.catalog.cancelled k = true → Interrupts b .cancelled
  | aborts (m : Method) (f : BuildFault) : b.Aborts m f → Interrupts b f

/-- Why the innermost expansion of a stack fails: something interrupts it, or the fuel runs out, and
    then there was a stack that is higher by all the fuel. -/
theorem cause_of_expand (hserves : b.catalog.Serves prog) (hacyclic : prog.Acyclic) {n : Nat}
    (hstack : b.Stack root budget o os)
    (h : b.expand n o.place o.method o.state = .error f s) :
    b.Interrupts f
      ∨ f = .exhausted ∧ ∃ o' os', b.Stack root budget o' os' ∧ os'.length = os.length + n := by
  induction n generalizing o os s with
  | zero =>
    cases h
    exact .inr ⟨rfl, o, os, hstack, rfl⟩
  | succ n ih =>
    cases fails_of_expand h with
    | cancelled k hk => exact .inl (.cancelled k hk)
    | aborts f haborts => exact .inl (.aborts _ f haborts)
    | growth f r s₁ hmemo hread hmoves hfails =>
      cases hfails with
      | endless hmem => exact absurd hmem (endless_notMem_offers hserves hacyclic hread)
      | inner o' f s' hopens hfails =>
        have hpush := hstack.push _ _ _ ⟨hmemo, r, s₁, hread, hmoves, hopens⟩
        rcases ih hpush hfails with hf | ⟨hf, o'', os', hstack', hlength⟩
        · exact .inl hf
        · rw [List.length_cons, Nat.add_assoc, Nat.add_comm 1] at hlength
          exact .inr ⟨hf, o'', os', hstack', hlength⟩

/-- More fuel than methods does not run out. -/
theorem interrupts_of_expand (hserves : b.catalog.Serves prog) (hacyclic : prog.Acyclic) {n : Nat}
    (hn : prog.methods.length < n)
    (h : b.expand n (rootPlace root budget) root (start root budget) = .error f s) :
    b.Interrupts f := by
  rcases cause_of_expand hserves hacyclic .first h with hf | ⟨-, o, os, hstack, hlength⟩
  · exact hf
  · have hle := hstack.length_le hserves
    rw [List.length_nil, Nat.zero_add] at hlength
    omega

theorem Interrupts.ne_exhausted (h : b.Interrupts f) : f ≠ .exhausted := by
  rintro rfl
  cases h with
  | aborts m f haborts => cases haborts

/-- All fuel that is more than methods gives the same. -/
theorem expand_eq_of_lt (hserves : b.catalog.Serves prog) (hacyclic : prog.Acyclic) {n : Nat}
    (hn : prog.methods.length < n) :
    b.expand n (rootPlace root budget) root (start root budget)
      = b.expand (prog.methods.length + 1) (rootPlace root budget) root (start root budget) := by
  obtain ⟨k, rfl⟩ := Nat.exists_eq_add_of_le (Nat.succ_le_of_lt hn)
  rcases b.extends_expand_add (prog.methods.length + 1) k (rootPlace root budget) root
    (start root budget) with heq | ⟨s, hexhausted⟩
  · exact heq
  · have hinterrupts := interrupts_of_expand hserves hacyclic (Nat.lt_succ_self _) hexhausted
    exact absurd rfl hinterrupts.ne_exhausted

end Builder

/-- Over a program with acyclic classes a build ends, whatever the sizes, the options and the budget
    are. All fuel beyond the number of methods gives one result, and if that is no tree, something has
    interrupted the build. Fuel that runs out shows as many expansions under way on top of the root's.
    No method is among those under way twice, so on top of the root's there are never more than the
    program has methods, and all that is remembered when one begins stands before its node. In a
    finished tree all that links lead to from the source of a replay stands before the replayed node. -/
theorem build_terminates {prog : Program} (hacyclic : prog.Acyclic) {b : Builder}
    (hserves : b.catalog.Serves prog) (root : Method) (budget : Int) :
    (∃ result, (∀ fuel, prog.methods.length < fuel →
          b.expand fuel (Builder.rootPlace root budget) root (Builder.start root budget) = result)
        ∧ ∀ f s, result = .error f s → b.Interrupts f)
      ∧ (prog.methods.length < b.catalog.reach →
          ∀ f, (b.build (some root) budget).outcome = .error f → b.Interrupts f)
      ∧ (∀ fuel s, b.expand fuel (Builder.rootPlace root budget) root (Builder.start root budget)
            = .error .exhausted s →
          ∃ o os, b.Stack root budget o os ∧ os.length = fuel)
      ∧ (∀ o os, b.Stack root budget o os →
          ((o :: os).map (·.method.id)).Nodup ∧ os.length ≤ prog.methods.length
            ∧ ∀ entry ∈ o.state.memo, 0 ≤ entry.2.source
              ∧ entry.2.source + entry.2.expansion.growth.forest.size < o.place.id)
      ∧ ∀ t, (b.build (some root) budget).outcome = .ok t → ∀ node method source,
          (node, method, source) ∈ (b.build (some root) budget).state.reuses →
          (∃ n, t.node? node = some n ∧ n.method.id = method)
            ∧ (∃ n, t.node? source = some n ∧ n.method.id = method)
            ∧ ∀ j, t.Leads source j → j < node := by
  refine ⟨⟨_, fun fuel hfuel => Builder.expand_eq_of_lt hserves hacyclic hfuel, fun f s h => ?_⟩,
    fun hreach f h => ?_, fun fuel s h => ?_, fun o os hstack => ⟨?_, ?_, ?_⟩, ?_⟩
  · exact Builder.interrupts_of_expand hserves hacyclic (Nat.lt_succ_self _) h
  · rw [Builder.build_eq] at h
    split at h
    · cases h
    · rename_i hexpand
      cases h
      exact Builder.interrupts_of_expand hserves hacyclic hreach hexpand
  · rcases Builder.cause_of_expand hserves hacyclic .first h with hf | ⟨-, o, os, hstack, hlength⟩
    · exact absurd rfl hf.ne_exhausted
    · exact ⟨o, os, hstack, hlength.trans (Nat.zero_add _)⟩
  · exact hstack.path_eq ▸ hstack.nodup
  · exact hstack.length_le hserves
  · exact hstack.complete.2
  · exact fun t ht node method source hreuse => b.source_of_reuse ht hreuse

/-- Methods without size or with a negative one that call each other and themselves. -/
def maelstrom : Program := .ofMethods
  [.calling "root" 0 ["ping", "pong", "root"], .calling "ping" 0 ["pong", "leaf", "ping"],
    .calling "pong" (-3) ["leaf", "ping"], .calling "leaf" (-1) []]

/-- Node 7 replays node 1, below which are nodes 2 to 4. Within a reach of 3 the fuel runs out,
    since `root`, `ping`, `pong` and `leaf` are under way at a time. -/
theorem build_terminates_maelstrom : ∃ root t, maelstrom.Acyclic
    ∧ maelstrom.method? "t/A.root()V" = some root
    ∧ (Builder.build { catalog := maelstrom.catalog } (some root) 0).outcome = .ok t ∧ t.size = 9
    ∧ (Builder.build { catalog := maelstrom.catalog } (some root) 0).state.reuses
      = [(4, "t/A.leaf()V", 3), (6, "t/A.leaf()V", 3), (7, "t/A.ping()V", 1)]
    ∧ (∀ j, t.Leads 1 j → j < 7)
    ∧ (∃ result, ∀ fuel, 4 < fuel → Builder.expand { catalog := maelstrom.catalog } fuel
        (Builder.rootPlace root 0) root (Builder.start root 0) = result)
    ∧ ∃ o os, Builder.Stack { catalog := { maelstrom.catalog with reach := 3 } } root 0 o os
      ∧ os.length = 3 := by
  have hview : (maelstrom.method? "t/A.root()V").isSome ∧ maelstrom.methods.length = 4
      ∧ (Builder.build { catalog := maelstrom.catalog } (maelstrom.method? "t/A.root()V")
        0).outcome.toOption.map (·.size) = some 9
      ∧ (Builder.build { catalog := maelstrom.catalog } (maelstrom.method? "t/A.root()V")
        0).state.reuses = [(4, "t/A.leaf()V", 3), (6, "t/A.leaf()V", 3), (7, "t/A.ping()V", 1)]
      ∧ (Builder.build { catalog := { maelstrom.catalog with reach := 3 } }
        (maelstrom.method? "t/A.root()V") 0).fault? = some .exhausted := by
    decide +kernel
  obtain ⟨hroot, hlength, hsize, hreuses, hfault⟩ := hview
  obtain ⟨root, hroot⟩ := Option.isSome_iff_exists.1 hroot
  rw [hroot] at hsize hreuses hfault
  obtain ⟨t, ht, hsize⟩ := Build.exists_tree hsize
  have hacyclic : maelstrom.Acyclic := Program.acyclic_ofMethods _
  obtain ⟨⟨result, hresult, -⟩, -, -, -, hsources⟩ :=
    build_terminates (b := { catalog := maelstrom.catalog }) hacyclic (.of_eq rfl) root 0
  obtain ⟨-, -, hstack, -⟩ := build_terminates
    (b := { catalog := { maelstrom.catalog with reach := 3 } }) hacyclic ⟨rfl, rfl, rfl⟩ root 0
  refine ⟨root, t, hacyclic, hroot, ht, hsize, hreuses, ?_, ⟨result, hlength ▸ hresult⟩, ?_⟩
  · exact (hsources t ht 7 "t/A.ping()V" 1 (by simp [hreuses])).2.2
  · have hout := Build.outcome_of_fault? hfault
    rw [Builder.build_eq] at hout
    split at hout
    · cases hout
    · rename_i s hexpand
      cases hout
      exact hstack 3 s hexpand

end InlinePlan
