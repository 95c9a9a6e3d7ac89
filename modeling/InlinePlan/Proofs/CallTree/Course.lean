import InlinePlan.Proofs.CallTree.Steps

set_option autoImplicit false

/-! # The course of a build

What growth does, step by step, without fuel and without the records that no later step looks at:
`Grows` says what grows from offers below a place and how the number of nodes, the memory and the
reuses change on the way, `Expands` says it of one expansion. Whatever a builder grows, it grows in
this way (`ensures_expand_expands`), so that a property of finished builds is shown by induction on
`Grows`. -/

namespace InlinePlan

/-- Records after steps that add nodes and reuse expansions but remember nothing. -/
structure BuildState.Moves (s : BuildState) (nodes : Nat)
    (reuses : List (NodeId × MethodId × NodeId)) (s' : BuildState) : Prop
    extends s.Adds nodes reuses s' where
  memo_eq : s'.memo = s.memo

/-- What is remembered of an expansion, replayed at a place. -/
def Expansion.replayed (o : Options) (p : Place) (e : Expansion) : Expansion :=
  { e with growth := regrow o p e.growth.forest }

namespace Builder

/-- How the expansion of a method at a place ends, given what the method's code says: with the status
    and the summary that the code gives, and perhaps remembered. -/
structure Closes (p : Place) (m : Method) (r : Reading) (e : Expansion) (s s' : BuildState) : Prop
    extends s.Adds 0 [] s' where
  status_eq : e.status = r.status
  summary_eq : e.summary = r.summary?
  memo_cases : s'.memo = s.memo ∨ s'.memo = s.memo ++ [(m.id, ⟨p.id, e⟩)]

/-- What grows from offers below a place, and the records before and after. -/
inductive Grows (b : Builder) : Place → List Offer → BuildState → Growth → BuildState → Prop where
  | nil (p : Place) (s : BuildState) : Grows b p [] s {} s
  | dropped (p : Place) (reason : PruneReason) (calls : Nat) (warning : Option String)
      (offers : List Offer) (s s₁ : BuildState) (g : Growth) (s' : BuildState) :
      s.Moves 0 [] s₁ → Grows b p offers s₁ g s' →
      Grows b p (.dropped reason calls warning :: offers) s g s'
  | refused (p : Place) (site : CallSite) (ratio : Float) (callee : Method) (offers : List Offer)
      (reason : PruneReason) (s s₁ : BuildState) (g : Growth) (s' : BuildState) :
      s.Moves 0 [] s₁ → Grows b p offers s₁ g s' →
      Grows b p (.call site ratio callee :: offers) s ((Growth.pruned callee reason).append g) s'
  | fresh (p : Place) (site : CallSite) (ratio : Float) (callee : Method) (offers : List Offer)
      (r : Reading) (e : Expansion) (s s₁ s₂ s₃ : BuildState) (g : Growth) (s' : BuildState) :
      p.refusal? b.options callee ratio = none → b.read callee = .ok r → s.Moves 1 [] s₁ →
      Grows b (p.child s.count callee ratio) r.offers s₁ e.growth s₂ →
      Closes (p.child s.count callee ratio) callee r e s₂ s₃ → Grows b p offers s₃ g s' →
      Grows b p (.call site ratio callee :: offers) s
        ⟨.grow (b.callAt (p.child s.count callee ratio) callee ratio site e) e.growth.forest g.forest,
          e.growth.hits ++ g.hits⟩ s'
  | reused (p : Place) (site : CallSite) (ratio : Float) (callee : Method) (offers : List Offer)
      (memo : Memo) (e : Expansion) (s s₁ : BuildState) (g : Growth) (s' : BuildState) :
      p.refusal? b.options callee ratio = none → s.memo.lookup callee.id = some memo →
      e = memo.expansion.replayed b.options (p.child s.count callee ratio) →
      s.Moves (1 + e.growth.forest.size) [((s.count : Int), callee.id, memo.source)] s₁ →
      Grows b p offers s₁ g s' →
      Grows b p (.call site ratio callee :: offers) s
        ⟨.grow (b.callAt (p.child s.count callee ratio) callee ratio site e) e.growth.forest g.forest,
          e.growth.hits ++ g.hits⟩ s'

/-- What the expansion of a method at a place gives, and the records before and after. -/
inductive Expands (b : Builder) (p : Place) (m : Method) (s : BuildState) (e : Expansion)
    (s' : BuildState) : Prop where
  | fresh (r : Reading) (s₁ s₂ : BuildState) :
      b.read m = .ok r → s.Moves 0 [] s₁ → b.Grows p r.offers s₁ e.growth s₂ →
      Closes p m r e s₂ s' → Expands b p m s e s'
  | reused (memo : Memo) :
      s.memo.lookup m.id = some memo → e = memo.expansion.replayed b.options p →
      s.Moves e.growth.forest.size [(p.id, m.id, memo.source)] s' → Expands b p m s e s'

variable {b : Builder} {p : Place} {m : Method} {s s' : BuildState}

/-- A call that is admitted is expanded, and then the other offers grow. -/
theorem Grows.admitted {site : CallSite} {ratio : Float} {callee : Method} {offers : List Offer}
    {e : Expansion} {s₁ : BuildState} {g : Growth}
    (hnone : p.refusal? b.options callee ratio = none)
    (he : b.Expands (p.child s.count callee ratio) callee { s with count := s.count + 1 } e s₁)
    (hg : b.Grows p offers s₁ g s') :
    b.Grows p (.call site ratio callee :: offers) s
      ⟨.grow (b.callAt (p.child s.count callee ratio) callee ratio site e) e.growth.forest g.forest,
        e.growth.hits ++ g.hits⟩ s' := by
  cases he with
  | fresh r s₂ s₃ hread hmoves hbelow hcloses =>
    refine .fresh p site ratio callee offers r e s s₂ s₃ s₁ g s' hnone hread ?_ hbelow hcloses hg
    exact ⟨⟨hmoves.count_eq, hmoves.reuses_eq⟩, hmoves.memo_eq⟩
  | reused memo hmemo he hmoves =>
    refine .reused p site ratio callee offers memo e s s₁ g s' hnone hmemo he ?_ hg
    exact ⟨⟨by rw [hmoves.count_eq, ← Nat.add_assoc], hmoves.reuses_eq⟩, hmoves.memo_eq⟩

theorem ensures_growOffers_grows {expand : Expander}
    (hexpand : ∀ p m s, BuildM.Ensures (expand p m) s (fun e s' => b.Expands p m s e s')
      fun _ => True)
    (p : Place) (offers : List Offer) (s : BuildState) :
    BuildM.Ensures (b.growOffers expand p offers) s (fun g s' => b.Grows p offers s g s')
      fun _ => True := by
  induction offers generalizing s with
  | nil => exact .nil p s
  | cons offer offers ih =>
    cases offer with
    | call site ratio callee =>
      rw [ensures_growOffers_call]
      cases hrefusal : p.refusal? b.options callee ratio with
      | some reason =>
        refine (ih _).mono (fun g s' hg => ?_) fun _ => id
        refine .refused p site ratio callee offers reason s _ g s' ?_ hg
        exact ⟨.of_events rfl rfl (by simp [BuildEvent.reuse?]), rfl⟩
      | none =>
        refine (hexpand _ _ _).mono (fun e s₁ he => ?_) fun _ => id
        exact (ih s₁).mono (fun g s' hg => .admitted hrefusal he hg) fun _ => id
    | dropped reason calls warning =>
      rw [ensures_growOffers_dropped]
      refine (ih _).mono (fun g s' hg => ?_) fun _ => id
      refine .dropped p reason calls warning offers s _ g s' ?_ hg
      exact ⟨⟨rfl, (List.append_nil _).symm⟩, rfl⟩
    | endless => trivial

/-- An expansion that has a result goes this way, whatever the fuel is. -/
theorem ensures_expand_expands (n : Nat) (p : Place) (m : Method) (s : BuildState) :
    BuildM.Ensures (b.expand n p m) s (fun e s' => b.Expands p m s e s') fun _ => True := by
  induction n generalizing p m s with
  | zero => trivial
  | succ n ih =>
    by_cases hmemo : b.reuse = true → s.memo.lookup m.id = none
    · refine ensures_expand_fresh (fun _ => trivial) hmemo (fun _ _ => trivial) ?_ ?_ ?_
      · intro reason s' hread hs' _ _ hadds
        refine .fresh _ s' s' hread ⟨hadds, hs'⟩ (.nil p s') ⟨⟨rfl, ?_⟩, rfl, rfl, .inl rfl⟩
        exact (List.append_nil _).symm
      · intro fault s' hread hs' _ _ hadds
        exact .fresh _ s s hread ⟨⟨rfl, (List.append_nil _).symm⟩, rfl⟩ (.nil p s)
          ⟨hadds, rfl, rfl, .inr hs'⟩
      · intro summary offers s₁ hread hs₁ _ _ hadds
        refine (ensures_growOffers_grows ih p offers s₁).mono
          (fun g s₂ hg s₃ hs₃ _ _ hadds₃ => ?_) fun _ => id
        refine .fresh _ s₁ s₂ hread ⟨hadds, hs₁⟩ hg ⟨hadds₃, rfl, rfl, ?_⟩
        split at hs₃
        · exact .inl hs₃
        · exact .inr hs₃
    · obtain ⟨hreuse, hsome⟩ := Classical.not_imp.1 hmemo
      obtain ⟨memo, hmemo⟩ := Option.ne_none_iff_exists'.1 hsome
      refine ensures_expand_reused (fun _ => trivial) hreuse hmemo fun s' hquiet hadds => ?_
      exact .reused memo hmemo rfl ⟨hadds, hquiet.memo_eq⟩

/-- The tree of a build is that of the expansion of its root, and so are the records. -/
theorem expands_of_build {root : Method} {budget : Int} {t : Tree Float}
    (h : (b.build (some root) budget).outcome = .ok t) :
    ∃ e s, b.Expands (rootPlace root budget) root (start root budget) e s
      ∧ t = Tree.ofForest (rootCall root budget e) e.growth.forest
      ∧ (b.build (some root) budget).state.memo = s.memo
      ∧ (b.build (some root) budget).state.reuses = s.reuses :=
  exists_root_expansion (b.ensures_expand_expands _ _ _ _) h

end Builder

end InlinePlan
