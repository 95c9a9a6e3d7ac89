import InlinePlan.Proofs.CallTree.Admission
import InlinePlan.Proofs.CallTree.Reuse

set_option autoImplicit false

/-! # What a replay lacks

A replay of a whole expansion has all calls that a fresh one would have, and a build that refuses no
call for a limit remembers whole expansions only (`replay_eq_fresh`). A source with less left than
the place of the replay can have been refused calls that would be admitted there; the replay lacks
them (`replay_lacks_call`). -/

namespace InlinePlan

/-- No call was refused for a limit. -/
def BuildState.Unlimited (s : BuildState) : Prop := ∀ reason ∈ s.pruned, reason.isLimit = false

instance (s : BuildState) : Decidable s.Unlimited :=
  inferInstanceAs (Decidable (∀ reason ∈ s.pruned, reason.isLimit = false))

theorem BuildState.Unlimited.of_subset {s s' : BuildState} (h : s'.Unlimited)
    (hsub : s.pruned ⊆ s'.pruned) : s.Unlimited :=
  fun reason hreason => h reason (hsub hreason)

/-- An admitted forest is replayed at its own place as it is. -/
theorem regrow_of_admitted {o : Options} {p : Place} {f : Forest Float} (h : f.Admitted o p) :
    (regrow o p f).forest = f := by
  induction f generalizing p with
  | empty => rfl
  | grow call below rest ihb ihr =>
    obtain ⟨hnone, hbudget, hratio, hbelow, hrest⟩ := h
    simp only [regrow, hnone, ihb hbelow, ihr hrest, ← hbudget, ← hratio]

namespace Builder

variable {b : Builder} {prog : Program}

/-! ## Growth that meets no limit -/

/-- An expansion at a place lacks calls that recur in it, and calls of methods on the path that have
    cut it, but no others. -/
structure Full (b : Builder) (p : Place) (m : Method) (e : Expansion) (r : Reading) : Prop where
  read_eq : b.read m = .ok r
  status_eq : e.status = r.status
  summary_eq : e.summary = r.summary?
  covers : ∀ known, m.id ∈ known → (∀ x ∈ p.path, x ∈ e.growth.hits → x ∈ known) →
    b.Covers known r.offers e.growth.forest

/-- What no method above has cut is whole. -/
theorem Full.whole {p : Place} {m : Method} {e : Expansion} {r : Reading} (h : b.Full p m e r)
    (hpath : p.path = m.id :: p.above) (huncut : ∀ x ∈ p.above, x ∉ e.growth.hits) :
    b.Whole m e r := by
  refine ⟨h.read_eq, h.status_eq, h.summary_eq, h.covers _ (List.mem_singleton_self _) ?_⟩
  intro x hx hhit
  rw [hpath, List.mem_cons] at hx
  rcases hx with rfl | hx
  · exact List.mem_singleton_self _
  · exact absurd hhit (huncut x hx)

/-- A replay of what is whole is full, if it refuses no call for a limit. -/
theorem Whole.full {q : Place} {m : Method} {e : Expansion} {r : Reading} (h : b.Whole m e r)
    (hlimits : ∀ reason ∈ refused b.options q e.growth.forest, reason.isLimit = false) :
    b.Full q m { e with growth := regrow b.options q e.growth.forest } r := by
  refine ⟨h.read_eq, h.status_eq, h.summary_eq, fun known hm hhits => ?_⟩
  have hknown : [m.id] ⊆ known := List.cons_subset.2 ⟨hm, List.nil_subset _⟩
  exact h.covers.regrow hknown hlimits hhits

/-- As long as the records show no limit, the expansion is full and all that is remembered whole. -/
def Keeps (b : Builder) (prog : Program) (expand : Expander) : Prop :=
  ∀ p m s, prog.Declares m → p.path = m.id :: p.above → (s.Unlimited → b.Remembers prog s) →
    BuildM.Ensures (expand p m) s (fun e s' => s.pruned ⊆ s'.pruned
      ∧ (s'.Unlimited → (∃ r, b.Full p m e r) ∧ b.Remembers prog s')) fun _ => True

theorem ensures_growOffers_keeps {expand : Expander} (hexpand : b.Keeps prog expand) (p : Place)
    {offers : List Offer}
    (hoffers : ∀ site ratio callee, .call site ratio callee ∈ offers → prog.Declares callee)
    {s : BuildState} (hs : s.Unlimited → b.Remembers prog s) :
    BuildM.Ensures (b.growOffers expand p offers) s (fun g s' => s.pruned ⊆ s'.pruned
      ∧ (s'.Unlimited → (∀ known, (∀ x ∈ p.path, x ∈ g.hits → x ∈ known) →
        b.Covers known offers g.forest) ∧ b.Remembers prog s')) fun _ => True := by
  induction offers generalizing s with
  | nil => exact ⟨List.Subset.refl _, fun hlimits => ⟨fun known _ => .nil known, hs hlimits⟩⟩
  | cons offer offers ih =>
    have hoffers' : ∀ site ratio callee, .call site ratio callee ∈ offers → prog.Declares callee :=
      fun site ratio callee hmem => hoffers _ _ _ (List.mem_cons_of_mem _ hmem)
    -- records that only show more refusals are as good as those before
    have hmore : ∀ s' : BuildState, s'.memo = s.memo → s.pruned ⊆ s'.pruned → s'.Unlimited →
        b.Remembers prog s' :=
      fun s' hmemo hsub hlimits => (hs (hlimits.of_subset hsub)).of_memo_eq hmemo
    cases offer with
    | call site ratio callee =>
      rw [ensures_growOffers_call]
      cases hrefusal : p.refusal? b.options callee ratio with
      | some reason =>
        refine BuildM.Ensures.mono (ih hoffers' (hmore _ ?_ ?_)) (fun g s' h => ?_) fun _ => id
        · rfl
        · exact List.subset_append_left _ _
        obtain ⟨hsub, hkeeps⟩ := h
        have hsub := List.append_subset.1 hsub
        refine ⟨hsub.1, fun hlimits => ⟨fun known hhits => ?_, (hkeeps hlimits).2⟩⟩
        obtain ⟨rfl, hmem⟩ := Place.mem_of_refusal? hrefusal
          (hlimits _ (hsub.2 (List.mem_singleton_self _)))
        exact .recurs _ _ _ _ _ _ (hhits _ hmem List.mem_cons_self) ((hkeeps hlimits).1 known
          fun x hx hhit => hhits x hx (List.mem_cons_of_mem _ hhit))
      | none =>
        have hdeclares := hoffers _ _ _ List.mem_cons_self
        refine BuildM.Ensures.mono (hexpand _ callee _ hdeclares rfl (hmore _ ?_ ?_))
          (fun e s₁ he => ?_) fun _ => id
        · rfl
        · exact List.Subset.refl _
        obtain ⟨hs₁, hfull⟩ := he
        refine (ih hoffers' fun hlimits => (hfull hlimits).2).mono (fun g s₂ hg => ?_) fun _ => id
        obtain ⟨hs₂, hkeeps⟩ := hg
        refine ⟨List.Subset.trans hs₁ hs₂, fun hlimits => ⟨fun known hhits => ?_, (hkeeps hlimits).2⟩⟩
        obtain ⟨r, hfull⟩ := (hfull (hlimits.of_subset hs₂)).1
        refine .grown _ _ _ _ _ r (p.child p.id callee ratio) _ _ _ hfull.read_eq
          (forget_callAt hfull.status_eq hfull.summary_eq _ _ _ _)
          (hfull.covers _ List.mem_cons_self fun x hx hhit => ?_)
          ((hkeeps hlimits).1 known fun x hx hhit => hhits x hx (List.mem_append_right _ hhit))
        rcases List.mem_cons.1 hx with rfl | hx
        · exact List.mem_cons_self
        · exact List.mem_cons_of_mem _ (hhits x hx (List.mem_append_left _ hhit))
    | dropped reason calls warning =>
      rw [ensures_growOffers_dropped]
      refine BuildM.Ensures.mono (ih hoffers' (hmore _ ?_ ?_)) (fun g s' h => ?_) fun _ => id
      · rfl
      · exact List.subset_append_left _ _
      obtain ⟨hsub, hkeeps⟩ := h
      exact ⟨(List.append_subset.1 hsub).1, fun hlimits =>
        ⟨fun known hhits => .dropped _ _ _ _ _ _ ((hkeeps hlimits).1 known hhits), (hkeeps hlimits).2⟩⟩
    | endless => trivial

theorem keeps_expand (hcatalog : b.catalog = prog.catalog) (n : Nat) :
    b.Keeps prog (b.expand n) := by
  induction n with
  | zero => exact fun _ _ _ _ _ _ => trivial
  | succ n ih =>
    intro p m s hm hpath hs
    by_cases hmemo : b.reuse = true → s.memo.lookup m.id = none
    · refine ensures_expand_fresh (fun _ => trivial) hmemo (fun _ _ => trivial) ?_ ?_ ?_
      · intro reason s' hread hs' hpruned _ _
        refine ⟨hpruned ▸ List.Subset.refl _, fun hlimits => ⟨⟨_, hread, rfl, rfl, ?_⟩, ?_⟩⟩
        · exact fun known _ _ => .nil known
        · exact (hs (hlimits.of_subset (hpruned ▸ List.Subset.refl _))).of_memo_eq hs'
      · intro fault s' hread hs' hpruned _ _
        refine ⟨hpruned ▸ List.Subset.refl _, fun hlimits => ⟨⟨_, hread, rfl, rfl, ?_⟩, ?_⟩⟩
        · exact fun known _ _ => .nil known
        · exact (hs (hlimits.of_subset (hpruned ▸ List.Subset.refl _))).append hm
            ⟨hread, rfl, rfl, .nil _⟩ hs'
      · intro summary offers s₁ hread hs₁ hpruned _ _
        refine (ensures_growOffers_keeps ih p
          (fun _ _ _ hmem => declares_of_offer (.of_eq hcatalog) hread hmem) fun hlimits => ?_).mono
          (fun g s₂ hg s₃ hs₃ hpruned₃ _ _ => ?_) fun _ => id
        · exact (hs (hlimits.of_subset (hpruned ▸ List.Subset.refl _))).of_memo_eq hs₁
        obtain ⟨hs₂, hkeeps⟩ := hg
        refine ⟨hpruned₃ ▸ hpruned ▸ hs₂, fun hlimits => ?_⟩
        obtain ⟨hcovers, hs₂⟩ := hkeeps (hlimits.of_subset (hpruned₃ ▸ List.Subset.refl _))
        have hfull : b.Full p m (.summarized p summary g) (.summarized summary offers) :=
          ⟨hread, rfl, rfl, fun known _ hhits => hcovers known hhits⟩
        refine ⟨⟨_, hfull⟩, ?_⟩
        split at hs₃
        · exact hs₂.of_memo_eq hs₃
        · rename_i hcut
          refine hs₂.append hm (hfull.whole hpath fun x hx hhit => hcut ?_) hs₃
          exact List.any_eq_true.2 ⟨x, hhit, by simpa using hx⟩
    · obtain ⟨hreuse, hsome⟩ := Classical.not_imp.1 hmemo
      obtain ⟨memo, hmemo⟩ := Option.ne_none_iff_exists'.1 hsome
      refine ensures_expand_reused (fun _ => trivial) hreuse hmemo fun s' hquiet _ => ?_
      -- the records show what the replay refuses
      have hsub : s.pruned ++ refused b.options p memo.expansion.growth.forest ⊆ s'.pruned := by
        rw [hquiet.pruned_eq]
        exact List.Subset.refl _
      have hsub := List.append_subset.1 hsub
      refine ⟨hsub.1, fun hlimits => ?_⟩
      have hs := hs (hlimits.of_subset hsub.1)
      obtain ⟨r, hwhole⟩ := hs.whole hm hmemo
      exact ⟨⟨r, hwhole.full fun reason hreason => hlimits reason (hsub.2 hreason)⟩,
        hs.of_memo_eq hquiet.memo_eq⟩

/-- A build that refuses no call for a limit remembers whole expansions only, and its root is one. -/
theorem build_whole (hcatalog : b.catalog = prog.catalog) {root : Method} {budget : Int}
    {t : Tree Float} (hroot : prog.Declares root)
    (h : (b.build (some root) budget).outcome = .ok t)
    (hlimits : (b.build (some root) budget).state.Unlimited) :
    b.Remembers prog (b.build (some root) budget).state
      ∧ ∃ e r, t = Tree.ofForest (rootCall root budget e) e.growth.forest ∧ b.Whole root e r
        ∧ e.growth.forest.Admitted b.options (rootPlace root budget) := by
  have hexpand (s : BuildState) (hs : s.memo = []) : BuildM.Ensures
      (b.expand b.catalog.reach (rootPlace root budget) root) s (fun e s' =>
        (s'.Unlimited → (∃ r, b.Full (rootPlace root budget) root e r) ∧ b.Remembers prog s')
        ∧ e.growth.forest.Admitted b.options (rootPlace root budget)) fun _ => True := by
    have hkeeps := b.keeps_expand hcatalog b.catalog.reach (rootPlace root budget) root s hroot rfl
      fun _ entry hentry => by simp [hs] at hentry
    exact (hkeeps.and (b.ensures_expand_admitted _ _ root s)).mono
      (fun _ _ h => ⟨h.1.2, h.2⟩) fun _ _ => trivial
  rcases b.build_cases fun s hs _ _ => hexpand s hs
    with ⟨e, s, events, hout, hstate, hkept, hadmitted⟩ | ⟨f, hout, -⟩
  · rw [hstate] at hlimits ⊢
    obtain ⟨⟨r, hfull⟩, hremembers⟩ := hkept hlimits
    refine ⟨hremembers, e, r, Except.ok.inj (h.symm.trans hout), ?_, hadmitted⟩
    exact hfull.whole rfl fun x hx => nomatch hx
  · cases h.symm.trans hout

/-- A build without reuse has the tree of an admitted forest that is whole. -/
theorem build_of_whole (hreuse : b.reuse = false) (hcatalog : b.catalog = prog.catalog)
    {root : Method} {budget : Int} {e : Expansion} {r : Reading} (hwhole : b.Whole root e r)
    (hadmitted : e.growth.forest.Admitted b.options (rootPlace root budget))
    (hroot : prog.Declares root) :
    ∃ t, (b.build (some root) budget).outcome = .ok t
      ∧ t.forget = (Tree.ofForest (rootCall root budget e) e.growth.forest).forget := by
  have hids : ∀ m, prog.Declares m → m.id ∈ root.id :: prog.ids :=
    fun m hm => List.mem_cons_of_mem _ hm.mem_ids
  have hcharted : (rootPlace root budget).Charted (root.id :: prog.ids) b.catalog.reach :=
    hcatalog ▸ charted_rootPlace prog root budget
  obtain ⟨g, rs, hg, hforest, -⟩ := hwhole.covers.unfolds
    (show [root.id] ⊆ (rootPlace root budget).path from List.Subset.refl _)
  rw [regrow_of_admitted hadmitted] at hforest
  rcases b.build_cases fun s _ _ _ => answers_plain hreuse hcatalog hids _ _ root r g rs s hroot rfl
    hcharted hwhole.read_eq hg (fun _ _ => trivial) trivial
    with ⟨e', s, _, hout, -, hshapes, -⟩ | ⟨f, -, hfalse⟩
  · refine ⟨_, hout, ?_⟩
    rw [Tree.forget_ofForest, Tree.forget_ofForest, hshapes.growth.forest_eq, hforest]
    simp only [rootCall, Call.forget, hshapes.status_eq, hshapes.summary_eq, hwhole.status_eq,
      hwhole.summary_eq]
  · exact hfalse.elim

end Builder

/-! ## Replays and builds -/

/-- The replay of a whole expansion, at any place and whatever that place refuses, is what a fresh
    expansion is there. A build that refuses no call for a limit remembers whole expansions only, and
    its tree is the one that it would grow without reuse. -/
theorem replay_eq_fresh (prog : Program) (o : Options) :
    let b : Builder := { options := o, catalog := prog.catalog }
    let plain : Builder := { b with reuse := false }
    (∀ m memo r q n s s₀, prog.Declares m → s.memo.lookup m.id = some memo →
      b.Whole m memo.expansion r → q.path = m.id :: q.above → q.Charted prog.ids n →
      ∃ c s' e s₀', b.expand n q m s = .ok c s' ∧ plain.expand n q m s₀ = .ok e s₀'
        ∧ c.status = e.status ∧ c.summary = e.summary
        ∧ c.growth.forest.forget = e.growth.forest.forget)
    ∧ ∀ root budget t, prog.Declares root → (b.build (some root) budget).outcome = .ok t →
      (b.build (some root) budget).state.Unlimited →
      b.Remembers prog (b.build (some root) budget).state
      ∧ ∃ t', (plain.build (some root) budget).outcome = .ok t' ∧ t'.forget = t.forget := by
  intro b plain
  have hanswers (n : Nat) : plain.Answers prog prog.ids (fun _ => True) (fun _ => True) n
      (plain.expand n) := Builder.answers_plain rfl rfl (fun m hm => hm.mem_ids) n
  refine ⟨fun m memo r q n s s₀ hm hmemo hwhole hq hcharted => ?_,
    fun root budget t hroot hout hlimits => ?_⟩
  · have hknown : [m.id] ⊆ q.path := by simp [hq]
    obtain ⟨g, rs, hg, hforest, -⟩ := hwhole.covers.unfolds hknown
    obtain ⟨e, s₀', he, hshapes, -⟩ := (hanswers n q m r g rs s₀ hm hq hcharted hwhole.read_eq
      (hg.reusing false) (fun _ _ => trivial) trivial).exists_ok
    have hclone : BuildM.Ensures (b.expand n q m) s (fun c _ => c = { memo.expansion with
        growth := regrow o q memo.expansion.growth.forest }) fun _ => False := by
      obtain ⟨n, rfl⟩ := Nat.exists_eq_add_one.2 hcharted.fuel_pos
      refine Builder.ensures_expand_reused ?_ rfl hmemo fun _ _ _ => rfl
      rintro ⟨k, hk⟩
      cases hk
    obtain ⟨c, s', hc, rfl⟩ := hclone.exists_ok
    refine ⟨_, s', e, s₀', hc, he, ?_, ?_, ?_⟩
    · rw [hshapes.status_eq, hwhole.status_eq]
    · rw [hshapes.summary_eq, hwhole.summary_eq]
    · rw [hshapes.growth.forest_eq, hforest]
  · obtain ⟨hremembers, e, r, rfl, hwhole, hadmitted⟩ := Builder.build_whole rfl hroot hout hlimits
    exact ⟨hremembers, Builder.build_of_whole rfl rfl (hwhole.reusing false) hadmitted hroot⟩

/-- In the build of `root` the expansion of `ping` calls `pong` and `leaf`, and it is replayed below
    `pong`, where `pong` recurs, as a fresh expansion there would be. -/
theorem replay_eq_fresh_pingPong :
    let b : Builder := { catalog := pingPong.catalog }
    let plain : Builder := { b with reuse := false }
    let q : Place := ⟨5, 97, 1, 2, ["t/A.ping()V", "t/A.pong()V", "t/A.root()V"]⟩
    ∃ root m, pingPong.method? "t/A.root()V" = some root ∧ pingPong.method? "t/A.ping()V" = some m
    ∧ (∃ memo c e s' s₀', (b.build (some root) 100).state.memo.lookup m.id = some memo
      ∧ memo.expansion.growth.forest.size = 2
      ∧ b.expand 5 q m (b.build (some root) 100).state = .ok c s' ∧ plain.expand 5 q m {} = .ok e s₀'
      ∧ c.growth.forest.forget = e.growth.forest.forget)
    ∧ ∃ t t', (b.build (some root) 100).outcome = .ok t ∧ t.size = 7
      ∧ (plain.build (some root) 100).outcome = .ok t' ∧ t'.forget = t.forget := by
  intro b plain q
  obtain ⟨hreplays, hbuilds⟩ := replay_eq_fresh pingPong {}
  have hview : (pingPong.method? "t/A.root()V").isSome ∧ (pingPong.method? "t/A.ping()V").isSome
      ∧ q.path ⊆ pingPong.ids ∧ pingPong.ids.length < 8
      ∧ (b.build (pingPong.method? "t/A.root()V") 100).outcome.toOption.map (·.size) = some 7
      ∧ (b.build (pingPong.method? "t/A.root()V") 100).state.Unlimited
      ∧ ((b.build (pingPong.method? "t/A.root()V") 100).state.memo.lookup "t/A.ping()V").map
        (·.expansion.growth.forest.size) = some 2 := by
    decide +kernel
  obtain ⟨hroot, hm, hsubset, hlength, hsize, hlimits, hmemo⟩ := hview
  obtain ⟨root, hroot⟩ := Option.isSome_iff_exists.1 hroot
  obtain ⟨m, hm⟩ := Option.isSome_iff_exists.1 hm
  have hid := Program.id_of_method? hm
  have hdeclares := Program.declares_of_method? hm
  rw [hroot] at hsize hlimits hmemo
  obtain ⟨t, hout, hsize⟩ := Build.exists_tree hsize
  obtain ⟨memo, hmemo, hcalls⟩ := Option.map_eq_some_iff.1 hmemo
  rw [← hid] at hmemo
  obtain ⟨hremembers, t', hout', hforget⟩ :=
    hbuilds root 100 t (Program.declares_of_method? hroot) hout hlimits
  obtain ⟨r, hwhole⟩ := hremembers.whole hdeclares hmemo
  have hpath : q.path = m.id :: q.above := by
    rw [hid]
    rfl
  obtain ⟨c, s', e, s₀', hc, he, -, -, hcalls'⟩ := hreplays m memo r q 5
    (b.build (some root) 100).state {} hdeclares hmemo hwhole hpath ⟨by decide, hsubset, hlength⟩
  exact ⟨root, m, hroot, hm, ⟨memo, c, e, s', s₀', hmemo, hcalls, hc, he, hcalls'⟩,
    t, t', hout, hsize, hout', hforget⟩

/-! ## A source with too little left -/

/-- `mid` is first met below `wrap`, where its `leaf` does not fit, and then below `root`, where it
    does. -/
def crowded : Program := .ofMethods
  [.calling "root" 1 ["wrap", "mid"], .calling "wrap" 10 ["mid"], .calling "mid" 5 ["leaf"],
    .calling "leaf" 20 []]

/-- The nodes of a tree as lists of a name, the budget and the node where the summary was found. -/
def Tree.ledger (t : Tree Float) : List (MethodId × Int × Option NodeId) :=
  t.nodes.toList.map fun n => (n.method.id, n.budget, n.origin)

/-- The node 3 has 25 bytes left, and `leaf` needs 20: without reuse it gets `leaf`, as a copy of
    node 2 it does not. -/
theorem replay_lacks_call :
    (Builder.build { catalog := crowded.catalog } (crowded.method? "t/A.root()V")
      30).outcome.toOption.map Tree.ledger
      = some [("t/A.root()V", 30, some 0), ("t/A.wrap()V", 20, some 1), ("t/A.mid()V", 15, some 2),
        ("t/A.mid()V", 25, some 2)]
    ∧ (Builder.build { catalog := crowded.catalog, reuse := false } (crowded.method? "t/A.root()V")
      30).outcome.toOption.map Tree.ledger
      = some [("t/A.root()V", 30, some 0), ("t/A.wrap()V", 20, some 1), ("t/A.mid()V", 15, some 2),
        ("t/A.mid()V", 25, some 3), ("t/A.leaf()V", 5, some 4)] := by
  constructor <;> decide +kernel

end InlinePlan
