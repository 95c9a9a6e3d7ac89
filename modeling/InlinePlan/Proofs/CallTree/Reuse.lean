import InlinePlan.Proofs.CallTree.Reach
import InlinePlan.Proofs.CallTree.Unfolding

set_option autoImplicit false

/-! # Reuse of expansions

A remembered expansion is `Whole` if it lacks no call but those that recur in it. Replayed elsewhere
it gives what unfolds there, up to origins, and it is cut by the methods above just as a fresh
expansion is. So the decision what to remember is the same too: a build that reuses expansions
remembers whole ones only, as long as it meets no limit, and grows the tree that it would grow
without. -/

namespace InlinePlan

/-! ## Trees without origins -/

def Node.forget {R : Type} (n : Node R) : Node R := { n with origin := none }

/-- A tree whose nodes do not say where their summaries were found. -/
def Tree.forget {R : Type} (t : Tree R) : Tree R := { nodes := t.nodes.map Node.forget }

namespace Forest

variable {R : Type}

@[simp] theorem size_forget (f : Forest R) : f.forget.size = f.size := by
  induction f with
  | empty => rfl
  | grow call below rest ihb ihr => simp only [forget, size, ihb, ihr]

@[simp] theorem roots_forget (f : Forest R) (next : Nat) : f.forget.roots next = f.roots next := by
  induction f generalizing next with
  | empty => rfl
  | grow call below rest _ ihr => simp only [forget, roots, size_forget, ihr]

theorem nodes_forget (f : Forest R) (parent : NodeId) (next : Nat) :
    f.forget.nodes parent next = (f.nodes parent next).map Node.forget := by
  induction f generalizing parent next with
  | empty => rfl
  | grow call below rest ihb ihr =>
    simp only [forget, nodes, roots_forget, size_forget, ihb, ihr, List.map_cons, List.map_append,
      List.cons_append, Call.forget, Node.forget]

end Forest

theorem Tree.forget_ofForest {R : Type} (root : Call R) (below : Forest R) :
    (ofForest root below).forget = ofForest root.forget below.forget := by
  have h := (Forest.grow root below .empty).nodes_forget noNode 0
  simp only [Forest.forget] at h
  simp only [Tree.forget, ofForest, h, List.map_toArray]

namespace Builder

variable {b : Builder} {prog : Program}

/-! ## Sound memory -/

/-- An expansion of a method has the status and the summary of the method's reading, and lacks no
    call but those that recur in it. -/
structure Whole (b : Builder) (m : Method) (e : Expansion) (r : Reading) : Prop where
  read_eq : b.read m = .ok r
  status_eq : e.status = r.status
  summary_eq : e.summary = r.summary?
  covers : b.Covers [m.id] r.offers e.growth.forest

/-- Growth that is, up to origins, what unfolds, and is cut alike by the methods `above`. -/
structure Matches (above : List MethodId) (a g : Growth) : Prop where
  forest_eq : a.forest.forget = g.forest
  hits_iff : ∀ x ∈ above, x ∈ a.hits ↔ x ∈ g.hits

/-- What is whole is replayed as what unfolds at the new place. -/
theorem Whole.replays {m : Method} {e : Expansion} {q : Place} {r : Reading} {g : Growth}
    {rs : List PruneReason} (h : b.Whole m e r) (hq : q.path = m.id :: q.above)
    (hnodup : q.path.Nodup) (hg : b.Unfolds q r.offers g rs) :
    Matches q.above (regrow b.options q e.growth.forest) g := by
  have hknown : [m.id] ⊆ q.path := by simp [hq]
  obtain ⟨g', rs', hg', hforest, hhits⟩ := h.covers.unfolds hknown
  obtain ⟨rfl, -⟩ := hg'.unique hg
  refine ⟨hforest.symm, fun x hx => (hhits x ?_ ?_).symm⟩
  · rw [hq]
    exact List.mem_cons_of_mem _ hx
  · rw [hq, List.nodup_cons] at hnodup
    rw [List.mem_singleton]
    rintro rfl
    exact hnodup.1 hx

theorem Whole.reusing {m : Method} {e : Expansion} {r : Reading} (reuse : Bool)
    (h : b.Whole m e r) : Whole { b with reuse } m e r :=
  ⟨h.read_eq, h.status_eq, h.summary_eq, h.covers.reusing reuse⟩

/-- All that is remembered is whole. -/
def Remembers (b : Builder) (prog : Program) (s : BuildState) : Prop :=
  ∀ entry ∈ s.memo, ∃ m r, prog.Declares m ∧ m.id = entry.1 ∧ b.Whole m entry.2.expansion r

theorem Remembers.of_memo_eq {s s' : BuildState} (h : b.Remembers prog s) (hmemo : s'.memo = s.memo) :
    b.Remembers prog s' := by
  unfold Remembers
  rw [hmemo]
  exact h

theorem Remembers.append {s s' : BuildState} {m : Method} {source : NodeId} {e : Expansion}
    {r : Reading} (h : b.Remembers prog s) (hm : prog.Declares m) (he : b.Whole m e r)
    (hmemo : s'.memo = s.memo ++ [(m.id, ⟨source, e⟩)]) : b.Remembers prog s' := by
  intro entry hentry
  rw [hmemo, List.mem_append, List.mem_singleton] at hentry
  rcases hentry with hentry | rfl
  · exact h entry hentry
  · exact ⟨m, r, hm, rfl, he⟩

theorem Remembers.whole {s : BuildState} {m : Method} {memo : Memo} (h : b.Remembers prog s)
    (hm : prog.Declares m) (hmemo : s.memo.lookup m.id = some memo) :
    ∃ r, b.Whole m memo.expansion r := by
  obtain ⟨_, _, hsplit, -⟩ := List.lookup_eq_some_iff.1 hmemo
  obtain ⟨m', r, hm', hid, hwhole⟩ := h (m.id, memo) (by simp [hsplit])
  obtain rfl := hm'.unique hm hid
  exact ⟨r, hwhole⟩

/-! ## Answers -/

section Answers

variable {fit : PruneReason → Prop} {sound : BuildState → Prop} {ids : List MethodId} {n : Nat}
  {p : Place} {g : Growth} {rs : List PruneReason}

/-- An expansion has the status and the summary of a reading, and its growth matches. -/
structure Shapes (p : Place) (r : Reading) (g : Growth) (e : Expansion) : Prop where
  status_eq : e.status = r.status
  summary_eq : e.summary = r.summary?
  growth : Matches p.above e.growth g

/-- How an expander has to answer at a place, if calls are refused there for `fit` reasons only: with
    what unfolds, and with records that are `sound` again. It never fails. -/
def Answers (b : Builder) (prog : Program) (ids : List MethodId) (fit : PruneReason → Prop)
    (sound : BuildState → Prop) (n : Nat) (expand : Expander) : Prop :=
  ∀ p m r g rs s, prog.Declares m → p.path = m.id :: p.above → p.Charted ids n → b.read m = .ok r →
    b.Unfolds p r.offers g rs → (∀ reason ∈ rs, fit reason) → sound s →
    BuildM.Ensures (expand p m) s (fun e s' => Shapes p r g e ∧ sound s') fun _ => False

theorem ensures_growOffers_answers {expand : Expander}
    (hexpand : b.Answers prog ids fit sound n expand)
    (hsound : ∀ s s', s'.memo = s.memo → sound s → sound s')
    (hids : ∀ m, prog.Declares m → m.id ∈ ids) {offers : List Offer} {s : BuildState}
    (h : b.Unfolds p offers g rs) (hp : p.Charted ids (n + 1)) (hrs : ∀ reason ∈ rs, fit reason)
    (hoffers : ∀ site ratio callee, .call site ratio callee ∈ offers → prog.Declares callee)
    (hs : sound s) :
    BuildM.Ensures (b.growOffers expand p offers) s
      (fun a s' => Matches p.path a g ∧ sound s') fun _ => False := by
  induction h generalizing s with
  | nil p => exact ⟨⟨rfl, fun _ _ => Iff.rfl⟩, hs⟩
  | dropped p reason calls warning offers g rs _ ih =>
    rw [ensures_growOffers_dropped]
    exact ih hp hrs (fun site ratio callee hmem => hoffers _ _ _ (List.mem_cons_of_mem _ hmem))
      (hsound s _ rfl hs)
  | refused p site ratio callee offers reason g rs hreason _ ih =>
    rw [ensures_growOffers_call, hreason]
    refine BuildM.Ensures.mono (ih hp (fun r hr => hrs r (List.mem_cons_of_mem _ hr))
      (fun site ratio callee hmem => hoffers _ _ _ (List.mem_cons_of_mem _ hmem))
      (hsound s _ ?_ hs)) (fun a s' ha => ?_) fun _ => id
    · rfl
    refine ⟨⟨ha.1.forest_eq, fun x hx => ?_⟩, ha.2⟩
    simp only [Growth.append, List.mem_append, ha.1.hits_iff x hx]
  | admitted p site ratio callee offers r g₁ g₂ rs₁ rs₂ hnone hread hbelow _ _ ih =>
    rw [ensures_growOffers_call, hnone]
    -- the callee is declared and not on the path yet, so there is fuel for it
    have hdeclares := hoffers _ _ _ List.mem_cons_self
    have hnew := (Place.refusal?_eq_none_iff.1 hnone).2.1
    refine BuildM.Ensures.mono (hexpand _ callee r g₁ rs₁ _ hdeclares rfl
      (hp.child hnew (hids _ hdeclares) s.count ratio) hread
      (hbelow.alike ((Place.Alike.refl p).child p.id s.count callee ratio))
      (fun r hr => hrs r (List.mem_append_left _ hr)) (hsound s _ ?_ hs))
      (fun e s₁ he => ?_) fun _ => id
    · rfl
    obtain ⟨hshapes, hs₁⟩ := he
    refine (ih hp (fun r hr => hrs r (List.mem_append_right _ hr))
      (fun site ratio callee hmem => hoffers _ _ _ (List.mem_cons_of_mem _ hmem)) hs₁).mono
      (fun others s₂ hothers => ?_) fun _ => id
    obtain ⟨hmatch, hs₂⟩ := hothers
    refine ⟨⟨?_, fun x hx => ?_⟩, hs₂⟩
    · simp only [Forest.forget, forget_callAt hshapes.status_eq hshapes.summary_eq s.count p.id,
        hshapes.growth.forest_eq, hmatch.forest_eq]
    · simp only [List.mem_append, hshapes.growth.hits_iff x hx, hmatch.hits_iff x hx]

/-- An expansion that replays nothing answers with what unfolds, if those below it do. What it
    remembers in the end, if anything, is its own answer, which no method above has cut. -/
theorem ensures_expand_answers (hcatalog : b.catalog = prog.catalog)
    (hexpand : b.Answers prog ids fit sound n (b.expand n))
    (hsound : ∀ s s', s'.memo = s.memo → sound s → sound s')
    (hids : ∀ m, prog.Declares m → m.id ∈ ids) {m : Method} {r : Reading} {s : BuildState}
    (hmemo : b.reuse = true → s.memo.lookup m.id = none) (hpath : p.path = m.id :: p.above)
    (hp : p.Charted ids (n + 1)) (hread : b.read m = .ok r) (h : b.Unfolds p r.offers g rs)
    (hrs : ∀ reason ∈ rs, fit reason) (hs : sound s) :
    BuildM.Ensures (b.expand (n + 1) p m) s (fun e s' => Shapes p r g e ∧ ∃ s₁, sound s₁
      ∧ (s'.memo = s₁.memo ∨ s'.memo = s₁.memo ++ [(m.id, ⟨p.id, e⟩)] ∧ ∀ x ∈ p.above, x ∉ g.hits))
      fun _ => False := by
  have hcancel : ¬∃ k, b.catalog.cancelled k = true := by
    rw [hcatalog]
    rintro ⟨k, hk⟩
    cases hk
  refine ensures_expand_fresh hcancel hmemo (fun f hf => ?_) ?_ ?_ ?_
  · cases hread.symm.trans hf
  · intro reason s' hr hs' _ _ _
    obtain rfl : r = _ := Except.ok.inj (hread.symm.trans hr)
    cases h
    exact ⟨⟨rfl, rfl, rfl, fun _ _ => Iff.rfl⟩, s, hs, .inl hs'⟩
  · intro fault s' hr hs' _ _ _
    obtain rfl : r = _ := Except.ok.inj (hread.symm.trans hr)
    cases h
    exact ⟨⟨rfl, rfl, rfl, fun _ _ => Iff.rfl⟩, s, hs, .inr ⟨hs', fun _ _ hx => nomatch hx⟩⟩
  · intro summary offers s₁ hr hs₁ _ _ _
    obtain rfl : r = _ := Except.ok.inj (hread.symm.trans hr)
    refine (ensures_growOffers_answers hexpand hsound hids h hp hrs
      (fun _ _ _ hmem => declares_of_offer (.of_eq hcatalog) hread hmem) (hsound _ _ hs₁ hs)).mono
      (fun a s₂ ha s₃ hs₃ _ _ _ => ?_) fun _ => id
    obtain ⟨hmatch, hs₂⟩ := ha
    -- whether the growth is remembered depends on the methods above that cut it
    have habove : ∀ x ∈ p.above, x ∈ a.hits ↔ x ∈ g.hits := fun x hx =>
      hmatch.hits_iff x (hpath ▸ List.mem_cons_of_mem _ hx)
    refine ⟨⟨rfl, rfl, hmatch.forest_eq, habove⟩, s₂, hs₂, ?_⟩
    split at hs₃
    · exact .inl hs₃
    · rename_i hcut
      refine .inr ⟨hs₃, fun x hx hhit => hcut ?_⟩
      exact List.any_eq_true.2 ⟨x, (habove x hx).2 hhit, by simpa using hx⟩

/-- A builder that does not reuse expansions gives what unfolds at a place, and never fails. -/
theorem answers_plain (hreuse : b.reuse = false) (hcatalog : b.catalog = prog.catalog)
    (hids : ∀ m, prog.Declares m → m.id ∈ ids) (n : Nat) :
    b.Answers prog ids (fun _ => True) (fun _ => True) n (b.expand n) := by
  induction n with
  | zero => exact fun p m r g rs s _ _ hp => absurd hp.fuel_pos (by simp)
  | succ n ih =>
    intro p m r g rs s _ hpath hp hread h hrs hs
    exact (ensures_expand_answers hcatalog ih (fun _ _ _ => id) hids (by simp [hreuse]) hpath hp hread
      h hrs hs).mono (fun _ _ he => ⟨he.1, trivial⟩) fun _ => id

/-- A builder that reuses expansions gives what unfolds at a place, as long as that meets no limit,
    and never fails. -/
theorem answers_reusing (hreuse : b.reuse = true) (hcatalog : b.catalog = prog.catalog)
    (hids : ∀ m, prog.Declares m → m.id ∈ ids) (n : Nat) :
    b.Answers prog ids (·.isLimit = false) (b.Remembers prog) n (b.expand n) := by
  induction n with
  | zero => exact fun p m r g rs s _ _ hp => absurd hp.fuel_pos (by simp)
  | succ n ih =>
    intro p m r g rs s hm hpath hp hread h hrs hs
    cases hmemo : s.memo.lookup m.id with
    | some memo =>
      obtain ⟨r', hwhole⟩ := hs.whole hm hmemo
      obtain rfl : r' = r := Except.ok.inj (hwhole.read_eq.symm.trans hread)
      refine ensures_expand_reused ?_ hreuse hmemo fun s' hquiet _ => ?_
      · rw [hcatalog]
        rintro ⟨k, hk⟩
        cases hk
      · exact ⟨⟨hwhole.status_eq, hwhole.summary_eq, hwhole.replays hpath hp.nodup h⟩,
          hs.of_memo_eq hquiet.memo_eq⟩
    | none =>
      refine (ensures_expand_answers hcatalog ih (fun _ _ hmemo hs => hs.of_memo_eq hmemo) hids
        (fun _ => hmemo) hpath hp hread h hrs hs).mono (fun e s' he => ?_) fun _ => id
      obtain ⟨hshapes, s₁, hs₁, hkept | ⟨hkept, huncut⟩⟩ := he
      · exact ⟨hshapes, hs₁.of_memo_eq hkept⟩
      · refine ⟨hshapes, hs₁.append hm ⟨hread, hshapes.status_eq, hshapes.summary_eq, ?_⟩ hkept⟩
        -- of the methods on the path only the expanded one can have cut what grew
        refine h.covers hshapes.growth.forest_eq hrs fun x hx hhit => ?_
        rw [hpath, List.mem_cons] at hx
        rcases hx with rfl | hx
        · exact List.mem_singleton_self _
        · exact absurd hhit (huncut x hx)

end Answers

end Builder

/-! ## Builds -/

/-- If a build that does not reuse expansions completes and meets no limit, the build that does
    completes too, and the trees agree in everything but the nodes where summaries were found. -/
theorem reuse_invisible (prog : Program) (o : Options) (root : Method) (budget : Int)
    {t : Tree Float}
    (h : (Builder.build { options := o, catalog := prog.catalog, reuse := false }
      (some root) budget).outcome = .ok t)
    (hlimits : ∀ reason ∈ (Builder.build { options := o, catalog := prog.catalog, reuse := false }
      (some root) budget).state.pruned, reason.isLimit = false) :
    ∃ t', (Builder.build { options := o, catalog := prog.catalog } (some root) budget).outcome
        = .ok t' ∧ t'.forget = t.forget := by
  let plain : Builder := { options := o, catalog := prog.catalog, reuse := false }
  let b : Builder := { options := o, catalog := prog.catalog }
  have hids : ∀ m, prog.Declares m → m.id ∈ root.id :: prog.ids :=
    fun m hm => List.mem_cons_of_mem _ hm.mem_ids
  rcases plain.build_cases fun s _ _ _ => (plain.ensures_expand_unfolds rfl _
    (Builder.rootPlace root budget) root s).mono (fun _ _ h => h.2) fun _ => id
    with ⟨e, s, events, hout, hstate, r, rs, he⟩ | ⟨f, hout, -⟩
  · obtain rfl := Except.ok.inj (h.symm.trans hout)
    have hrs : ∀ reason ∈ rs, reason.isLimit = false := fun reason hreason =>
      hlimits reason (hstate ▸ he.refusals hreason)
    rcases Builder.build_cases fun s hs _ _ => (Builder.ensures_expand_answers (b := b) rfl
      (b.answers_reusing rfl rfl hids _) (fun _ _ hmemo hs => hs.of_memo_eq hmemo) hids
      (fun _ => by simp [hs]) rfl (Builder.charted_rootPlace prog root budget) he.read_eq
      (he.unfolds.reusing true) hrs (fun entry hentry => by simp [hs] at hentry)).mono
      (fun _ _ h => h.1) fun _ => id with ⟨e', s', _, hout', -, hshapes⟩ | ⟨f, -, hfalse⟩
    · refine ⟨_, hout', ?_⟩
      rw [Tree.forget_ofForest, Tree.forget_ofForest, hshapes.growth.forest_eq]
      simp only [Builder.rootCall, Call.forget, hshapes.status_eq, hshapes.summary_eq, he.status_eq,
        he.summary_eq, Growth.forget]
    · exact hfalse.elim
  · cases h.symm.trans hout

/-- Two methods that call each other. The second call of the root finds the expansion of `ping`
    remembered, with `pong` in it, which recurs there. -/
def pingPong : Program := .ofMethods
  [.calling "root" 1 ["ping", "pong"], .calling "ping" 1 ["pong", "leaf"],
    .calling "pong" 1 ["ping"], .calling "leaf" 1 []]

theorem reuse_invisible_pingPong : ∃ root t t', pingPong.method? "t/A.root()V" = some root
    ∧ (Builder.build { catalog := pingPong.catalog, reuse := false } (some root) 100).outcome = .ok t
    ∧ t.size = 7
    ∧ (Builder.build { catalog := pingPong.catalog } (some root) 100).outcome = .ok t'
    ∧ t'.forget = t.forget := by
  have hview : (pingPong.method? "t/A.root()V").isSome
      ∧ (Builder.build { catalog := pingPong.catalog, reuse := false }
        (pingPong.method? "t/A.root()V") 100).outcome.toOption.map (·.size) = some 7
      ∧ ∀ reason ∈ (Builder.build { catalog := pingPong.catalog, reuse := false }
        (pingPong.method? "t/A.root()V") 100).state.pruned, reason.isLimit = false := by
    decide +kernel
  obtain ⟨hroot, hsize, hlimits⟩ := hview
  obtain ⟨root, hroot⟩ := Option.isSome_iff_exists.1 hroot
  rw [hroot] at hsize hlimits
  obtain ⟨t, ht, hsize⟩ := Build.exists_tree hsize
  obtain ⟨t', ht', hforget⟩ := reuse_invisible pingPong {} root 100 ht hlimits
  exact ⟨root, t, t', hroot, ht, hsize, ht', hforget⟩

end InlinePlan
