import InlinePlan.Proofs.CallTree.Graft
import InlinePlan.Proofs.CallTree.Steps

set_option autoImplicit false

/-! # Builds in place

A build can work on the tree itself. A call that is admitted is added at once; its node gets a status
and a summary, then the calls below it, and last its benefit, before the next call is considered
(`Builder.Plants`). What is remembered of an expansion is just its node: a replay follows the links
from there and adds copies of the nodes that it finds (`Copies`). All this only puts forests below
nodes (`Builder.Plants.exists_graft`), so a tree that comes about in this way is numbered as a forest
is (`Builder.Planted.exists_ofForest`), and each step is determined (`Builder.Planted.unique`). -/

namespace InlinePlan

/-! ## Verdicts -/

/-- What an expansion writes into its node. -/
structure Verdict where
  status : Status
  summary : Option Summary := none
  origin : Option NodeId := none

def Expansion.verdict (e : Expansion) : Verdict := ⟨e.status, e.summary, e.origin⟩

def Call.verdict (c : Call Float) : Verdict := ⟨c.status, c.summary, c.origin⟩

def Call.settle (v : Verdict) (c : Call Float) : Call Float :=
  { c with status := v.status, summary := v.summary, origin := v.origin }

namespace Reading

/-- What the code of a method says, written into node `id`. -/
def verdict (id : NodeId) : Reading → Verdict
  | .noCode _ => { status := .noGraph }
  | .failed _ => { status := .failed }
  | .summarized summary _ => { status := .summarized, summary := some summary, origin := some id }

/-- Whether an expansion is remembered whose growth was cut by recurrences of the methods `hits`. -/
def isRemembered (p : Place) (hits : List MethodId) : Reading → Bool
  | .noCode _ => false
  | .failed _ => true
  | .summarized _ _ => !hits.any p.above.contains

end Reading

/-! ## Steps in place -/

/-- A tree that is being built, and the nodes whose expansions are remembered. -/
structure Draft where
  tree : Tree Float
  memo : List (MethodId × NodeId) := []

/-- The call with which a node begins. -/
def Place.opening (p : Place) (callee : Method) (ratio : Float) (site : CallSite) : Call Float :=
  { method := callee, budget := p.budget, callSite := site.bci, callRatio := ratio,
    rootCallRatio := p.rootCallRatio, args := site.args }

/-- A call that is copied to a place. -/
def Place.copied (p : Place) (c : Call Float) : Call Float :=
  { c with budget := p.budget, rootCallRatio := p.rootCallRatio }

/-- Nodes are copied below a place, each with what is below it. `hits` are the methods whose recurrence
    cut the growth. -/
inductive Copies (o : Options) :
    Place → List NodeId → Tree Float → (hits : List MethodId) → Tree Float → Prop where
  | nil (p : Place) (t : Tree Float) : Copies o p [] t [] t
  | refused (p : Place) (c : NodeId) (cs : List NodeId) (n : Node Float) (reason : PruneReason)
      (t : Tree Float) (hits : List MethodId) (t' : Tree Float) :
      t.node? c = some n → p.refusal? o n.method n.callRatio = some reason →
      Copies o p cs t hits t' →
      Copies o p (c :: cs) t ((Growth.pruned n.method reason).hits ++ hits) t'
  | admitted (p place : Place) (c : NodeId) (cs : List NodeId) (n n₁ : Node Float)
      (t t₁ t₂ : Tree Float) (hits hits' : List MethodId) (t' : Tree Float) :
      t.node? c = some n → p.refusal? o n.method n.callRatio = none →
      place = p.child t.size n.method n.callRatio →
      t.add p.id (place.copied n.toCall) = .ok t₁ →
      t₁.node? c = some n₁ → Copies o place n₁.children t₁ hits t₂ → Copies o p cs t₂ hits' t' →
      Copies o p (c :: cs) t (hits ++ hits') t'

namespace Builder

/-- Gives a call the benefit of its summary. -/
def rate (b : Builder) (c : Call Float) : Call Float :=
  { c with staticBenefit :=
      staticBenefit (some b.catalog.isSubtype) b.options.predicateWeight c.summary c.args }

mutual

/-- The calls that are offered are added below a place, each with what is below it. -/
inductive Plants (b : Builder) :
    Place → List Offer → Draft → (hits : List MethodId) → Draft → Prop where
  | nil (p : Place) (d : Draft) : Plants b p [] d [] d
  | dropped (p : Place) (reason : PruneReason) (calls : Nat) (warning : Option String)
      (offers : List Offer) (d : Draft) (hits : List MethodId) (d' : Draft) :
      Plants b p offers d hits d' → Plants b p (.dropped reason calls warning :: offers) d hits d'
  | refused (p : Place) (site : CallSite) (ratio : Float) (callee : Method) (offers : List Offer)
      (reason : PruneReason) (d : Draft) (hits : List MethodId) (d' : Draft) :
      p.refusal? b.options callee ratio = some reason → Plants b p offers d hits d' →
      Plants b p (.call site ratio callee :: offers) d
        ((Growth.pruned callee reason).hits ++ hits) d'
  | admitted (p place : Place) (site : CallSite) (ratio : Float) (callee : Method)
      (offers : List Offer) (d : Draft) (t : Tree Float) (d₁ : Draft) (hits hits' : List MethodId)
      (d' : Draft) :
      p.refusal? b.options callee ratio = none → place = p.child d.tree.size callee ratio →
      d.tree.add p.id (place.opening callee ratio site) = .ok t →
      Develops b place callee { d with tree := t } hits d₁ →
      Plants b p offers { d₁ with tree := d₁.tree.amend place.id b.rate } hits' d' →
      Plants b p (.call site ratio callee :: offers) d (hits ++ hits') d'

/-- The method of a node is expanded. -/
inductive Develops (b : Builder) :
    Place → Method → Draft → (hits : List MethodId) → Draft → Prop where
  | fresh (p : Place) (m : Method) (r : Reading) (d : Draft) (hits : List MethodId) (d' : Draft) :
      (b.reuse = true → d.memo.lookup m.id = none) → b.read m = .ok r →
      Plants b p r.offers { d with tree := d.tree.amend p.id (Call.settle (r.verdict p.id)) } hits
        d' →
      Develops b p m d hits { d' with
        memo := if r.isRemembered p hits then d'.memo ++ [(m.id, p.id)] else d'.memo }
  | reused (p : Place) (m : Method) (source : NodeId) (n : Node Float) (d : Draft)
      (hits : List MethodId) (t : Tree Float) :
      b.reuse = true → d.memo.lookup m.id = some source → d.tree.node? source = some n →
      Copies b.options p n.children (d.tree.amend p.id (Call.settle n.verdict)) hits t →
      Develops b p m d hits { d with tree := t }

end

/-- The call with which the root begins. -/
def rootOpening (root : Method) (budget : Int) : Call Float :=
  { method := root, budget, callRatio := 1, rootCallRatio := 1 }

/-- A tree comes about in place: its root is added and then expanded. -/
def Planted (b : Builder) (root : Method) (budget : Int) (t : Tree Float) : Prop :=
  ∃ t₀ hits d, Tree.add {} noNode (rootOpening root budget) = .ok t₀
    ∧ b.Develops (rootPlace root budget) root { tree := t₀ } hits d ∧ d.tree = t

end Builder

/-! ## What is planted is grafted -/

theorem Copies.exists_graft {o : Options} {p : Place} {cs : List NodeId} {t t' : Tree Float}
    {hits : List MethodId} (h : Copies o p cs t hits t') (h0 : 0 ≤ p.id) (hi : p.id < t.size) :
    ∃ f, t' = t.graft p.id f := by
  induction h with
  | nil p t => exact ⟨.empty, (t.graft_empty p.id).symm⟩
  | refused p c cs n reason t hits t' _ _ _ ih => exact ih h0 hi
  | admitted p place c cs n n₁ t t₁ t₂ hits hits' t' _ _ hplace hadd _ _ _ ihb ihr =>
    obtain rfl := Except.ok.inj ((Tree.add_eq_graft h0 hi _).symm.trans hadd)
    subst hplace
    obtain ⟨below, rfl⟩ := ihb (Int.natCast_nonneg _) (t.size_lt_graft_leaf _ _)
    obtain ⟨rest, rfl⟩ := ihr h0 (Tree.lt_size_graft (Tree.lt_size_graft hi _ _) _ _)
    exact ⟨_, Tree.graft_grow hi _ _ _⟩

namespace Builder

variable {b : Builder} {p : Place} {m : Method} {offers : List Offer} {d d' : Draft}
  {hits : List MethodId}

/-- A call is added, what is below it is planted, and its benefit is set. -/
theorem graft_admitted {t : Tree Float} {i : NodeId} (hi : i < t.size) (c : Call Float)
    (g h : Call Float → Call Float) (below rest : Forest Float) :
    ((((t.graft i (.grow c .empty .empty)).amend t.size g).graft t.size below).amend t.size h).graft i
      rest = t.graft i (.grow (h (g c)) below rest) := by
  have hlast : (t.size : NodeId) < (t.graft i (.grow (g c) .empty .empty)).size :=
    t.size_lt_graft_leaf i (g c)
  rw [Tree.amend_leaf, Tree.amend_graft hlast, Tree.amend_leaf, Tree.graft_grow hi]

mutual

theorem Plants.exists_graft : ∀ {p : Place} {offers : List Offer} {d : Draft} {hits : List MethodId}
    {d' : Draft}, b.Plants p offers d hits d' → 0 ≤ p.id → p.id < d.tree.size →
    ∃ f, d'.tree = d.tree.graft p.id f
  | _, _, _, _, _, .nil p d, _, _ => ⟨.empty, (d.tree.graft_empty p.id).symm⟩
  | _, _, _, _, _, .dropped _ _ _ _ _ _ _ _ h, h0, hi => h.exists_graft h0 hi
  | _, _, _, _, _, .refused _ _ _ _ _ _ _ _ _ _ h, h0, hi => h.exists_graft h0 hi
  | _, _, _, _, _, .admitted p place site ratio callee offers d t d₁ hits hits' d' _ hplace hadd
      hbelow hrest, h0, hi => by
    have ht := Except.ok.inj ((Tree.add_eq_graft h0 hi _).symm.trans hadd)
    have hid : place.id = d.tree.size := congrArg Place.id hplace
    obtain ⟨v, below, hd₁⟩ := hbelow.exists_graft (hid ▸ Int.natCast_nonneg _)
      (by rw [hid, ← ht]; exact d.tree.size_lt_graft_leaf _ _)
    have hlt : p.id < d₁.tree.size := by
      rw [hd₁]
      refine Tree.lt_size_graft ?_ _ _
      rw [Tree.size_amend, ← ht]
      exact Tree.lt_size_graft hi _ _
    obtain ⟨rest, hd'⟩ := hrest.exists_graft h0 (by rwa [Tree.size_amend])
    rw [hd', hd₁, ← ht, hid]
    exact ⟨_, graft_admitted hi _ _ _ _ _⟩

theorem Develops.exists_graft : ∀ {p : Place} {m : Method} {d : Draft} {hits : List MethodId}
    {d' : Draft}, b.Develops p m d hits d' → 0 ≤ p.id → p.id < d.tree.size →
    ∃ v f, d'.tree = (d.tree.amend p.id (Call.settle v)).graft p.id f
  | _, _, _, _, _, .fresh p m r d hits d' _ _ h, h0, hi => by
    obtain ⟨f, hd'⟩ := h.exists_graft h0 (by rwa [Tree.size_amend])
    exact ⟨_, f, hd'⟩
  | _, _, _, _, _, .reused p m source n d hits t _ _ _ h, h0, hi => by
    obtain ⟨f, ht⟩ := h.exists_graft h0 (by rwa [Tree.size_amend])
    exact ⟨_, f, ht⟩

end

/-- A tree that came about in place is numbered as a forest is. -/
theorem Planted.exists_ofForest {root : Method} {budget : Int} {t : Tree Float}
    (h : b.Planted root budget t) : ∃ c f, t = Tree.ofForest c f := by
  obtain ⟨t₀, hits, d, hadd, hdevelops, rfl⟩ := h
  obtain rfl := Except.ok.inj ((Tree.add_root _).symm.trans hadd)
  obtain ⟨v, f, hd⟩ := hdevelops.exists_graft (Int.le_refl 0) Int.one_pos
  exact ⟨_, f, by rw [hd, rootPlace, Tree.amend_ofForest, Tree.graft_ofForest]⟩

end Builder

/-! ## Steps in place are determined -/

theorem Copies.unique {o : Options} {p : Place} {cs : List NodeId} {t t' u : Tree Float}
    {hits hits₂ : List MethodId} (h : Copies o p cs t hits t') (h₂ : Copies o p cs t hits₂ u) :
    hits = hits₂ ∧ t' = u := by
  induction h generalizing hits₂ u with
  | nil p t =>
    cases h₂
    exact ⟨rfl, rfl⟩
  | refused p c cs n reason t hits t' hn hr _ ih =>
    cases h₂ with
    | refused _ _ _ n₂ _ _ _ _ hn₂ hr₂ h₂ =>
      obtain rfl := Option.some.inj (hn.symm.trans hn₂)
      obtain rfl := Option.some.inj (hr.symm.trans hr₂)
      obtain ⟨rfl, rfl⟩ := ih h₂
      exact ⟨rfl, rfl⟩
    | admitted _ _ _ _ n₂ _ _ _ _ _ _ _ hn₂ hr₂ =>
      obtain rfl := Option.some.inj (hn.symm.trans hn₂)
      cases hr.symm.trans hr₂
  | admitted p place c cs n n₁ t t₁ t₂ hits hits' t' hn hr hplace hadd hn₁ _ _ ihb ihr =>
    cases h₂ with
    | refused _ _ _ n₂ _ _ _ _ hn₂ hr₂ =>
      obtain rfl := Option.some.inj (hn.symm.trans hn₂)
      cases hr.symm.trans hr₂
    | admitted _ _ _ _ n₂ _ _ _ _ _ _ _ hn₂ _ hplace₂ hadd₂ hn₃ hb₂ hr₂ =>
      obtain rfl := Option.some.inj (hn.symm.trans hn₂)
      obtain rfl := hplace.trans hplace₂.symm
      obtain rfl := Except.ok.inj (hadd.symm.trans hadd₂)
      obtain rfl := Option.some.inj (hn₁.symm.trans hn₃)
      obtain ⟨rfl, rfl⟩ := ihb hb₂
      obtain ⟨rfl, rfl⟩ := ihr hr₂
      exact ⟨rfl, rfl⟩

namespace Builder

variable {b : Builder}

mutual

theorem Plants.unique : ∀ {p : Place} {offers : List Offer} {d d' u : Draft}
    {hits hits₂ : List MethodId}, b.Plants p offers d hits d' → b.Plants p offers d hits₂ u →
    hits = hits₂ ∧ d' = u
  | _, _, _, _, _, _, _, .nil p d, h₂ => by
    cases h₂
    exact ⟨rfl, rfl⟩
  | _, _, _, _, _, _, _, .dropped _ _ _ _ _ _ _ _ h, h₂ => by
    cases h₂ with
    | dropped _ _ _ _ _ _ _ _ h₂ => exact h.unique h₂
  | _, _, _, _, _, _, _, .refused p site ratio callee offers reason d hits d' hr h, h₂ => by
    cases h₂ with
    | refused _ _ _ _ _ _ _ _ _ hr₂ h₂ =>
      obtain rfl := Option.some.inj (hr.symm.trans hr₂)
      obtain ⟨rfl, rfl⟩ := h.unique h₂
      exact ⟨rfl, rfl⟩
    | admitted _ _ _ _ _ _ _ _ _ _ _ _ hr₂ => cases hr.symm.trans hr₂
  | _, _, _, _, _, _, _, .admitted p place site ratio callee offers d t d₁ hits hits' d' hr hplace
      hadd hbelow hrest, h₂ => by
    cases h₂ with
    | refused _ _ _ _ _ _ _ _ _ hr₂ => cases hr.symm.trans hr₂
    | admitted _ place₂ _ _ _ _ _ t₂ d₂ _ _ _ _ hplace₂ hadd₂ hbelow₂ hrest₂ =>
      rw [hplace₂.trans hplace.symm] at hbelow₂ hrest₂ hadd₂
      rw [Except.ok.inj (hadd₂.symm.trans hadd)] at hbelow₂
      obtain ⟨hhits, hd⟩ := hbelow.unique hbelow₂
      rw [← hd] at hrest₂
      obtain ⟨hhits', hd'⟩ := hrest.unique hrest₂
      exact ⟨by rw [hhits, hhits'], hd'⟩

theorem Develops.unique : ∀ {p : Place} {m : Method} {d d' u : Draft} {hits hits₂ : List MethodId},
    b.Develops p m d hits d' → b.Develops p m d hits₂ u → hits = hits₂ ∧ d' = u
  | _, _, _, _, _, _, _, .fresh p m r d hits d' hnone hread h, h₂ => by
    cases h₂ with
    | fresh _ _ r₂ _ _ d₂ _ hread₂ h₂ =>
      rw [Except.ok.inj (hread₂.symm.trans hread)] at h₂ ⊢
      obtain ⟨hhits, hd⟩ := h.unique h₂
      rw [hhits, hd]
      exact ⟨rfl, rfl⟩
    | reused _ _ source _ _ _ _ hreuse hsome =>
      cases (hnone hreuse).symm.trans hsome
  | _, _, _, _, _, _, _, .reused p m source n d hits t hreuse hsome hn h, h₂ => by
    cases h₂ with
    | fresh _ _ _ _ _ _ hnone =>
      cases (hnone hreuse).symm.trans hsome
    | reused _ _ source₂ n₂ _ _ _ _ hsome₂ hn₂ h₂ =>
      rw [Option.some.inj (hsome₂.symm.trans hsome)] at hn₂
      rw [Option.some.inj (hn₂.symm.trans hn)] at h₂
      obtain ⟨hhits, ht⟩ := h.unique h₂
      exact ⟨hhits, by rw [ht]⟩

end

/-- No more than one tree comes about in place. -/
theorem Planted.unique {root : Method} {budget : Int} {t u : Tree Float}
    (h : b.Planted root budget t) (hu : b.Planted root budget u) : t = u := by
  obtain ⟨t₀, hits, d, hadd, hdevelops, rfl⟩ := h
  obtain ⟨u₀, hits₂, d₂, hadd₂, hdevelops₂, rfl⟩ := hu
  obtain rfl := Except.ok.inj (hadd.symm.trans hadd₂)
  rw [(hdevelops.unique hdevelops₂).2]

end Builder

end InlinePlan
