import InlinePlan.Proofs.CallTree.InPlace
import InlinePlan.Proofs.CallTree.Reuse

set_option autoImplicit false

/-! # Builds planted in place

While a build grows, a draft in which the same calls are added one by one stays in step with it
(`BuildState.Mirrors`): it has as many nodes as were counted, and the forest of every remembered
expansion stands below the node that had it. A replay thus reads the same calls from the nodes as from
the remembered forest (`copies_regrow`). It follows that the tree of a build is the one that comes
about in place (`Builder.planted_of_build`). -/

namespace InlinePlan

/-! ## Standing forests -/

namespace Forest

variable {R : Type} {f : Forest R} {t : Tree R} {parent : NodeId} {next : Nat}

/-- All nodes of a forest are nodes of a tree. -/
def Stands (t : Tree R) (parent : NodeId) (next : Nat) (f : Forest R) : Prop :=
  ∀ n ∈ f.nodes parent next, t.node? n.id = some n

theorem Stands.size_le (h : f.Stands t parent next) (hpos : 0 < f.size) :
    next + f.size ≤ t.size := by
  have hlast : ((next + (f.size - 1) : Nat) : Int) ∈ (f.nodes parent next).map (·.id) := by
    rw [map_id_nodes, List.mem_map]
    exact ⟨_, List.mem_range'_1.2 ⟨Nat.le_add_right _ _, by omega⟩, rfl⟩
  obtain ⟨n, hn, hid⟩ := List.mem_map.1 hlast
  have hlt := (Tree.node?_bounds (h n hn)).2
  rw [hid] at hlt
  have := Int.ofNat_lt.1 hlt
  omega

/-- A forest still stands after changes of other nodes. -/
theorem Stands.graft (h : f.Stands t parent next) {i : NodeId}
    (hi : i < next ∨ next + f.size ≤ i) (g : Forest R) : f.Stands (t.graft i g) parent next := by
  intro n hn
  have hid := id_bounds hn
  exact Tree.node?_graft_of_ne (h n hn) (by grind)

theorem Stands.amend (h : f.Stands t parent next) {i : NodeId}
    (hi : i < next ∨ next + f.size ≤ i) (g : Call R → Call R) :
    f.Stands (t.amend i g) parent next := by
  intro n hn
  have hid := id_bounds hn
  exact Tree.node?_amend_of_ne (h n hn) (by grind) g

end Forest

/-- The nodes of a forest that stands in a tree are copied as the forest is replayed. -/
theorem copies_regrow {o : Options} {p : Place} {t : Tree Float} {parent : NodeId} {next : Nat}
    {f : Forest Float} (hf : f.Stands t parent next) (h0 : 0 ≤ p.id) (hi : p.id < t.size)
    (hspare : p.id < next ∨ next + f.size ≤ p.id) :
    Copies o p (f.roots next) t (regrow o p f).hits (t.graft p.id (regrow o p f).forest) := by
  induction f generalizing p t parent next with
  | empty =>
    rw [regrow, Tree.graft_empty]
    exact .nil p t
  | grow call below rest ihb ihr =>
    have hhead := hf _ (Forest.mem_nodes_grow.2 (.inl rfl))
    have hbelow : below.Stands t next (next + 1) :=
      fun n hn => hf n (Forest.mem_nodes_grow.2 (.inr (.inl hn)))
    have hrest : rest.Stands t parent (next + 1 + below.size) :=
      fun n hn => hf n (Forest.mem_nodes_grow.2 (.inr (.inr hn)))
    have hsize : (Forest.grow call below rest).size = 1 + below.size + rest.size := rfl
    have hle := hf.size_le (by omega)
    rw [hsize] at hspare hle
    rw [Forest.roots, regrow]
    cases hr : p.refusal? o call.method call.callRatio with
    | some reason =>
      exact .refused _ _ _ _ _ _ _ _ hhead hr (ihr hrest h0 hi (by grind))
    | none =>
      have halike := (Place.Alike.refl p).child p.id t.size call.method call.callRatio
      dsimp only
      rw [regrow_alike halike, ← Tree.graft_grow hi]
      generalize hplace : p.child t.size call.method call.callRatio = place at *
      have hid : place.id = t.size := congrArg Place.id hplace.symm
      have hcopy : ({ call with
          budget := (p.child p.id call.method call.callRatio).budget,
          rootCallRatio := (p.child p.id call.method call.callRatio).rootCallRatio } : Call Float)
          = place.copied call := by
        rw [← hplace]
        rfl
      rw [hcopy, ← hid]
      generalize ht₁ : t.graft p.id (.grow (place.copied call) .empty .empty) = t₁
      generalize ht₂ : t₁.graft place.id (regrow o place below).forest = t₂
      have hadd : t.add p.id (place.copied call) = .ok t₁ := ht₁ ▸ Tree.add_eq_graft h0 hi _
      have hhead₁ : t₁.node? next = _ := ht₁ ▸ Tree.node?_graft_of_ne hhead (by grind)
      have hbelow₁ : below.Stands t₁ next (next + 1) := ht₁ ▸ hbelow.graft (by grind) _
      have hrest₁ : rest.Stands t₁ parent (next + 1 + below.size) := ht₁ ▸ hrest.graft (by grind) _
      have hrest₂ : rest.Stands t₂ parent (next + 1 + below.size) := ht₂ ▸ hrest₁.graft (by grind) _
      have hlt₁ : place.id < t₁.size := ht₁ ▸ hid ▸ t.size_lt_graft_leaf _ _
      have hlt₂ : p.id < t₂.size :=
        ht₂ ▸ Tree.lt_size_graft (ht₁ ▸ Tree.lt_size_graft hi _ _) _ _
      have hcopies := ihb hbelow₁ (hid ▸ Int.natCast_nonneg _) hlt₁ (by grind)
      rw [ht₂] at hcopies
      exact .admitted p place next _ _ _ t t₁ t₂ _ _ _ hhead hr hplace.symm hadd hhead₁ hcopies
        (ihr hrest₂ h0 hlt₂ (by grind))

/-- A node has been expanded: it has a verdict, and the forest below it stands. -/
structure Tree.Holds (t : Tree Float) (k : Nat) (e : Expansion) : Prop where
  node : ∃ n, t.node? k = some n ∧ n.verdict = e.verdict ∧ n.children = e.growth.forest.roots (k + 1)
  below : e.growth.forest.Stands t k (k + 1)

namespace Tree.Holds

variable {t : Tree Float} {k : Nat} {e : Expansion} {i : NodeId}

theorem lt_size (h : t.Holds k e) : k + e.growth.forest.size < t.size := by
  rcases Nat.eq_zero_or_pos e.growth.forest.size with hzero | hpos
  · obtain ⟨n, hn, -⟩ := h.node
    rw [hzero]
    exact Int.ofNat_lt.1 (node?_bounds hn).2
  · have := h.below.size_le hpos
    omega

theorem graft (h : t.Holds k e) (hi : i < k ∨ k + e.growth.forest.size < i) (f : Forest Float) :
    (t.graft i f).Holds k e := by
  obtain ⟨n, hn, hnode⟩ := h.node
  exact ⟨⟨n, node?_graft_of_ne hn (by grind), hnode⟩, h.below.graft (by grind) f⟩

theorem amend (h : t.Holds k e) (hi : i < k ∨ k + e.growth.forest.size < i)
    (g : Call Float → Call Float) : (t.amend i g).Holds k e := by
  obtain ⟨n, hn, hnode⟩ := h.node
  exact ⟨⟨n, node?_amend_of_ne hn (by grind) g, hnode⟩, h.below.amend (by grind) g⟩

theorem amend_self (h : t.Holds k e) {g : Call Float → Call Float}
    (hg : ∀ c, (g c).verdict = c.verdict) : (t.amend k g).Holds k e := by
  obtain ⟨n, hn, hverdict, hchildren⟩ := h.node
  refine ⟨⟨_, node?_amend_self hn g, ?_, hchildren⟩, h.below.amend (by grind) g⟩
  exact (hg n.toCall).trans hverdict

end Tree.Holds

namespace BuildState

variable {s s' s'' : BuildState} {d : Draft} {i j : NodeId}

/-- A node is not among those of a remembered expansion. -/
def Spares (s : BuildState) (i : NodeId) : Prop := ∀ entry ∈ s.memo,
  i < entry.2.source ∨ entry.2.source + entry.2.expansion.growth.forest.size < i

/-- What was remembered in between are expansions from node `i` on. -/
def Since (s : BuildState) (i : NodeId) (s' : BuildState) : Prop :=
  ∀ entry ∈ s'.memo, entry ∈ s.memo ∨ i ≤ entry.2.source

/-- A draft has as many nodes as the records count, and what is remembered stands in it. -/
structure Mirrors (s : BuildState) (d : Draft) : Prop where
  size_eq : d.tree.size = s.count
  memo_eq : d.memo = s.memo.map fun entry => (entry.1, entry.2.source)
  holds : ∀ entry ∈ s.memo, ∃ k : Nat, entry.2.source = k ∧ d.tree.Holds k entry.2.expansion

theorem Spares.since (h : s.Spares j) (hs : s.Since i s') (hlt : j < i) : s'.Spares j := by
  intro entry hentry
  rcases hs entry hentry with hold | hnew
  · exact h entry hold
  · exact .inl (Int.lt_of_lt_of_le hlt hnew)

theorem Since.of_memo_eq (h : s'.memo = s.memo) : s.Since i s' := fun _ hentry => .inl (h ▸ hentry)

theorem Since.remember (h : s.Since i s') {m : MethodId} {e : Expansion}
    (hmemo : s''.memo = s'.memo ++ [(m, ⟨i, e⟩)]) : s.Since i s'' := by
  intro entry hentry
  rw [hmemo, List.mem_append, List.mem_singleton] at hentry
  rcases hentry with hentry | rfl
  · exact h entry hentry
  · exact .inr (Int.le_refl i)

theorem Since.trans (h : s.Since i s') (h' : s'.Since j s'') (hle : i ≤ j) : s.Since i s'' := by
  intro entry hentry
  rcases h' entry hentry with hold | hnew
  · exact h entry hold
  · exact .inr (Int.le_trans hle hnew)

namespace Mirrors

theorem of_memo_eq (h : s.Mirrors d) (hcount : s'.count = s.count) (hmemo : s'.memo = s.memo) :
    s'.Mirrors d :=
  ⟨h.size_eq.trans hcount.symm, hmemo ▸ h.memo_eq, hmemo ▸ h.holds⟩

/-- The next node is not among those of a remembered expansion. -/
theorem spares (h : s.Mirrors d) : s.Spares d.tree.size := by
  intro entry hentry
  obtain ⟨k, hk, hholds⟩ := h.holds entry hentry
  have := hholds.lt_size
  exact .inr (by grind)

theorem graft (h : s.Mirrors d) (hi : s.Spares i) {f : Forest Float}
    (hcount : s'.count = s.count + f.size) (hmemo : s'.memo = s.memo) :
    s'.Mirrors { d with tree := d.tree.graft i f } where
  size_eq := by rw [Tree.size_graft, h.size_eq, hcount]
  memo_eq := hmemo ▸ h.memo_eq
  holds := by
    intro entry hentry
    rw [hmemo] at hentry
    obtain ⟨k, hk, hholds⟩ := h.holds entry hentry
    exact ⟨k, hk, hholds.graft (hk ▸ hi entry hentry) f⟩

theorem amend (h : s.Mirrors d) (hi : s.Spares i) (g : Call Float → Call Float) :
    s.Mirrors { d with tree := d.tree.amend i g } where
  size_eq := (d.tree.size_amend i g).trans h.size_eq
  memo_eq := h.memo_eq
  holds := by
    intro entry hentry
    obtain ⟨k, hk, hholds⟩ := h.holds entry hentry
    exact ⟨k, hk, hholds.amend (hk ▸ hi entry hentry) g⟩

/-- The benefit of a node can be set when its expansion is remembered. -/
theorem rate (h : s'.Mirrors d) (hi : s.Spares i) (hs : s.Since i s')
    {g : Call Float → Call Float} (hg : ∀ c, (g c).verdict = c.verdict) :
    s'.Mirrors { d with tree := d.tree.amend i g } where
  size_eq := (d.tree.size_amend i g).trans h.size_eq
  memo_eq := h.memo_eq
  holds := by
    intro entry hentry
    obtain ⟨k, hk, hholds⟩ := h.holds entry hentry
    refine ⟨k, hk, ?_⟩
    by_cases heq : i = k
    · rw [heq]
      exact hholds.amend_self hg
    · refine hholds.amend ?_ g
      rcases hs entry hentry with hold | hnew
      · exact hk ▸ hi entry hold
      · exact .inl (Int.lt_iff_le_and_ne.2 ⟨hk ▸ hnew, heq⟩)

/-- An expansion is remembered that stands in the draft. -/
theorem remember (h : s.Mirrors d) {m : MethodId} {k : Nat} {e : Expansion} (hi : i = k)
    (hholds : d.tree.Holds k e) (hcount : s'.count = s.count)
    (hmemo : s'.memo = s.memo ++ [(m, ⟨i, e⟩)]) :
    s'.Mirrors { d with memo := d.memo ++ [(m, i)] } where
  size_eq := h.size_eq.trans hcount.symm
  memo_eq := by rw [hmemo, h.memo_eq, List.map_append, List.map_singleton]
  holds := by
    intro entry hentry
    rw [hmemo, List.mem_append, List.mem_singleton] at hentry
    rcases hentry with hentry | rfl
    · exact h.holds entry hentry
    · exact ⟨k, hi, hholds⟩

/-- The nodes of remembered expansions are found under the same methods. -/
theorem lookup_eq (h : s.Mirrors d) (m : MethodId) :
    d.memo.lookup m = (s.memo.lookup m).map Memo.source := by
  rw [h.memo_eq]
  generalize s.memo = memos
  induction memos with
  | nil => rfl
  | cons entry memos ih =>
    rw [List.map_cons, List.lookup_cons, List.lookup_cons, ih]
    split <;> rfl

end Mirrors

end BuildState

/-! ## Builds are planted -/

namespace Builder

open BuildState

variable {b : Builder} {p : Place} {m : Method} {s s' : BuildState} {d d' : Draft}

/-- Growth below a place and its records, done in place in a draft. -/
structure PlantsAs (b : Builder) (p : Place) (offers : List Offer) (s : BuildState) (d : Draft)
    (g : Growth) (s' : BuildState) (d' : Draft) : Prop where
  plants : b.Plants p offers d g.hits d'
  tree_eq : d'.tree = d.tree.graft p.id g.forest
  mirrors : s'.Mirrors d'
  since : s.Since s.count s'

/-- The expansion of a method and its records, done in place in a draft. -/
structure DevelopsAs (b : Builder) (p : Place) (m : Method) (s : BuildState) (d : Draft)
    (e : Expansion) (s' : BuildState) (d' : Draft) : Prop where
  develops : b.Develops p m d e.growth.hits d'
  tree_eq : d'.tree = (d.tree.amend p.id (Call.settle e.verdict)).graft p.id e.growth.forest
  mirrors : s'.Mirrors d'
  since : s.Since p.id s'

/-- The place is the last node of a draft, and nothing is below it yet. -/
structure Begun (p : Place) (s : BuildState) (d : Draft) : Prop where
  mirrors : s.Mirrors d
  count_eq : s.count = p.id + 1
  leaf : ∃ n, d.tree.node? p.id = some n ∧ n.children = []
  spares : s.Spares p.id

/-- A call that was added is the last node. -/
theorem begun_child (h : s.Mirrors d) (hp : s.Spares p.id)
    (callee : Method) (ratio : Float) (c : Call Float) :
    Begun (p.child s.count callee ratio) { s with count := s.count + 1 }
      { d with tree := d.tree.graft p.id (.grow c .empty .empty) } where
  mirrors := h.graft hp rfl rfl
  count_eq := rfl
  leaf := by
    have hmem : ({ c with id := d.tree.size, parent := p.id } : Node Float)
        ∈ (Forest.grow c .empty .empty).nodes p.id d.tree.size := List.mem_singleton_self _
    exact ⟨_, h.size_eq ▸ Tree.node?_graft_of_mem hmem, rfl⟩
  spares := h.size_eq ▸ h.spares

theorem Begun.bounds (h : Begun p s d) : 0 ≤ p.id ∧ p.id < d.tree.size := by
  obtain ⟨n, hn, -⟩ := h.leaf
  exact Tree.node?_bounds hn

/-- A node holds an expansion when its verdict is written and its forest is put below it. -/
theorem Begun.holds (h : Begun p s d) (e : Expansion) : ∃ k : Nat, p.id = k
    ∧ ((d.tree.amend p.id (Call.settle e.verdict)).graft p.id e.growth.forest).Holds k e := by
  obtain ⟨n, hn, hchildren⟩ := h.leaf
  obtain ⟨k, hk⟩ := Int.eq_ofNat_of_zero_le h.bounds.1
  have hsize : (d.tree.amend p.id (Call.settle e.verdict)).size = k + 1 := by
    rw [Tree.size_amend, h.mirrors.size_eq]
    have := h.count_eq
    grind
  have hnode := Tree.node?_amend_self hn (Call.settle e.verdict)
  refine ⟨k, hk, ?_⟩
  rw [hk] at hsize hnode ⊢
  refine ⟨⟨_, Tree.node?_graft_self hnode, rfl, ?_⟩, fun m hm => ?_⟩
  · dsimp only
    rw [hchildren, hsize, List.nil_append]
  · exact Tree.node?_graft_of_mem (by rwa [hsize])

/-- The verdict of an expansion is written when it begins. -/
theorem Begun.settled (h : Begun p s d) (v : Verdict) (hcount : s'.count = s.count)
    (hmemo : s'.memo = s.memo) :
    s'.Mirrors { d with tree := d.tree.amend p.id (Call.settle v) } :=
  (h.mirrors.amend h.spares _).of_memo_eq hcount hmemo

/-! ### Growth -/

theorem DevelopsAs.count_eq {c : Call Float} {i : NodeId} {e : Expansion}
    (h : b.DevelopsAs p m s { d with tree := d.tree.graft i (.grow c .empty .empty) } e s' d') :
    s'.count = d.tree.size + 1 + e.growth.forest.size := by
  rw [← h.mirrors.size_eq, h.tree_eq, Tree.size_graft, Tree.size_amend, Tree.size_graft]
  rfl

/-- A call that is admitted is expanded, and then the other offers are planted. -/
theorem PlantsAs.admitted {site : CallSite} {ratio : Float} {callee : Method} {offers : List Offer}
    {e : Expansion} {s₁ : BuildState} {d₁ : Draft} {g : Growth} (hm : s.Mirrors d) (h0 : 0 ≤ p.id)
    (hi : p.id < d.tree.size) (hr : p.refusal? b.options callee ratio = none)
    (he : b.DevelopsAs (p.child s.count callee ratio) callee { s with count := s.count + 1 }
      { d with tree := d.tree.graft p.id (.grow
        ((p.child s.count callee ratio).opening callee ratio site) .empty .empty) } e s₁ d₁)
    (hg : b.PlantsAs p offers s₁ { d₁ with tree := d₁.tree.amend s.count b.rate } g s' d') :
    b.PlantsAs p (.call site ratio callee :: offers) s d
      ⟨.grow (b.callAt (p.child s.count callee ratio) callee ratio site e) e.growth.forest g.forest,
        e.growth.hits ++ g.hits⟩ s' d' where
  plants := .admitted p _ site ratio callee offers d _ d₁ _ _ d' hr (by rw [hm.size_eq])
    (Tree.add_eq_graft h0 hi _) he.develops hg.plants
  tree_eq := by
    rw [hg.tree_eq]
    dsimp only
    rw [he.tree_eq]
    show ((((d.tree.graft p.id _).amend s.count _).graft s.count _).amend s.count _).graft p.id _ = _
    rw [← hm.size_eq]
    exact graft_admitted hi _ _ _ _ _
  mirrors := hg.mirrors
  since := by
    have hsince : s.Since s.count s₁ := he.since
    have hcount := he.count_eq
    have hsize := hm.size_eq
    exact hsince.trans hg.since (by grind)

/-- Offers are planted as they grow, if expansions are done in place. -/
theorem ensures_growOffers_plants {expand : Expander}
    (hexpand : ∀ p m s d, Begun p s d →
      BuildM.Ensures (expand p m) s (fun e s' => ∃ d', b.DevelopsAs p m s d e s' d') fun _ => True)
    (offers : List Offer) (hm : s.Mirrors d) (h0 : 0 ≤ p.id) (hi : p.id < d.tree.size)
    (hp : s.Spares p.id) :
    BuildM.Ensures (b.growOffers expand p offers) s
      (fun g s' => ∃ d', b.PlantsAs p offers s d g s' d') fun _ => True := by
  induction offers generalizing s d with
  | nil => exact ⟨d, .nil p d, (Tree.graft_empty _ _).symm, hm, .of_memo_eq rfl⟩
  | cons offer offers ih =>
    cases offer with
    | endless => trivial
    | dropped reason calls warning =>
      rw [ensures_growOffers_dropped]
      refine BuildM.Ensures.mono (ih (hm.of_memo_eq ?_ ?_) hi hp) ?_ fun _ => id
      · rfl
      · rfl
      · rintro g s' ⟨d', hplants⟩
        exact ⟨d', .dropped _ _ _ _ _ _ _ _ hplants.plants, hplants.tree_eq, hplants.mirrors,
          hplants.since⟩
    | call site ratio callee =>
      rw [ensures_growOffers_call]
      cases hr : p.refusal? b.options callee ratio with
      | some reason =>
        dsimp only
        refine BuildM.Ensures.mono (ih (hm.of_memo_eq ?_ ?_) hi hp) ?_ fun _ => id
        · rfl
        · rfl
        · rintro g s' ⟨d', hplants⟩
          exact ⟨d', .refused _ _ _ _ _ _ _ _ _ hr hplants.plants, hplants.tree_eq,
            hplants.mirrors, hplants.since⟩
      | none =>
        dsimp only
        refine (hexpand _ callee _ _ (begun_child hm hp callee ratio
          ((p.child s.count callee ratio).opening callee ratio site))).mono ?_ fun _ => id
        rintro e s₁ ⟨d₁, he⟩
        have hlast : s.Spares s.count := hm.size_eq ▸ hm.spares
        have hsince : s.Since s.count s₁ := he.since
        have hm₁ := he.mirrors.rate hlast hsince (g := b.rate) fun _ => rfl
        have hi₁ : p.id < (d₁.tree.amend s.count b.rate).size := by
          rw [Tree.size_amend, he.mirrors.size_eq, he.count_eq]
          grind
        refine BuildM.Ensures.mono (ih hm₁ hi₁ (hp.since hsince (hm.size_eq ▸ hi))) ?_ fun _ => id
        rintro g s' ⟨d', hg⟩
        exact ⟨d', .admitted hm h0 hi hr he hg⟩

/-! ### Expansions -/

/-- A method that was summarized is remembered, unless its growth was cut. -/
theorem DevelopsAs.summarized {summary : Summary} {offers : List Offer} {g : Growth}
    {s₁ s₂ : BuildState} {d₂ : Draft} (h : Begun p s d)
    (hlookup : b.reuse = true → d.memo.lookup m.id = none)
    (hread : b.read m = .ok (.summarized summary offers)) (hs₁ : s₁.memo = s.memo)
    (hcount : s₁.count = s.count)
    (hg : b.PlantsAs p offers s₁
      { d with
        tree := d.tree.amend p.id (Call.settle ((Reading.summarized summary offers).verdict p.id)) }
      g s₂ d₂)
    (hmemo : s'.memo = if g.hits.any p.above.contains then s₂.memo
      else s₂.memo ++ [(m.id, ⟨p.id, .summarized p summary g⟩)])
    (hcount' : s'.count = s₂.count) :
    ∃ d', b.DevelopsAs p m s d (.summarized p summary g) s' d' := by
  have hdevelops := Develops.fresh p m _ d g.hits d₂ hlookup hread hg.plants
  have hsince : s.Since p.id s₂ := by
    refine (Since.of_memo_eq hs₁).trans hg.since ?_
    have := h.count_eq
    grind
  rw [Reading.isRemembered] at hdevelops
  cases hcut : g.hits.any p.above.contains with
  | true =>
    rw [hcut, if_pos rfl] at hmemo
    rw [hcut] at hdevelops
    exact ⟨d₂, hdevelops, hg.tree_eq, hg.mirrors.of_memo_eq hcount' hmemo,
      hsince.trans (j := p.id) (.of_memo_eq hmemo) (Int.le_refl _)⟩
  | false =>
    rw [hcut, if_neg Bool.false_ne_true] at hmemo
    rw [hcut] at hdevelops
    obtain ⟨k, hk, hholds⟩ := h.holds (.summarized p summary g)
    have hholds : d₂.tree.Holds k (.summarized p summary g) := by
      rw [hg.tree_eq]
      exact hholds
    exact ⟨_, hdevelops, hg.tree_eq, hg.mirrors.remember hk hholds hcount' hmemo,
      hsince.remember hmemo⟩

/-- A remembered expansion is replayed from the node that had it. -/
theorem DevelopsAs.reused {memo : Memo} (h : Begun p s d) (hreuse : b.reuse = true)
    (hmemo : s.memo.lookup m.id = some memo) (hs' : s'.memo = s.memo)
    (hcount : s'.count
      = s.count + (regrow b.options p memo.expansion.growth.forest).forest.size) :
    ∃ d', b.DevelopsAs p m s d
      { memo.expansion with growth := regrow b.options p memo.expansion.growth.forest } s' d' := by
  obtain ⟨before, after, hsplit, -⟩ := List.lookup_eq_some_iff.1 hmemo
  have hmem : (m.id, memo) ∈ s.memo := by simp [hsplit]
  obtain ⟨k, hk, hholds⟩ := h.mirrors.holds _ hmem
  obtain ⟨source, hsource, hverdict, hchildren⟩ := hholds.node
  have hlookup : d.memo.lookup m.id = some (k : NodeId) := by
    rw [h.mirrors.lookup_eq, hmemo, Option.map_some, hk]
  have hspares : p.id < (k + 1 : Nat) ∨ (k + 1 : Nat) + memo.expansion.growth.forest.size ≤ p.id := by
    have := h.spares _ hmem
    rw [hk] at this
    grind
  have hlt : p.id < (d.tree.amend p.id (Call.settle source.verdict)).size := by
    rw [Tree.size_amend]
    exact h.bounds.2
  have hcopies := copies_regrow (o := b.options) (hholds.below.amend hspares _) h.bounds.1 hlt hspares
  rw [← hchildren] at hcopies
  refine ⟨_, .reused p m k source d _ _ hreuse hlookup hsource hcopies, ?_,
    (h.settled source.verdict rfl rfl).graft h.spares hcount hs', .of_memo_eq hs'⟩
  rw [hverdict]
  rfl

/-- Expansions can be done in place. -/
theorem ensures_expand_develops (n : Nat) (p : Place) (m : Method) (s : BuildState) (d : Draft)
    (h : Begun p s d) :
    BuildM.Ensures (b.expand n p m) s (fun e s' => ∃ d', b.DevelopsAs p m s d e s' d')
      fun _ => True := by
  induction n generalizing p m s d with
  | zero => trivial
  | succ n ih =>
    by_cases hmemo : b.reuse = true → s.memo.lookup m.id = none
    · have hlookup : b.reuse = true → d.memo.lookup m.id = none := by
        intro hreuse
        rw [h.mirrors.lookup_eq, hmemo hreuse, Option.map_none]
      refine ensures_expand_fresh (fun _ => trivial) hmemo (fun _ _ => trivial) ?_ ?_ ?_
      · intro reason s' hread hs' _ _ hadds
        exact ⟨_, .fresh p m _ d [] _ hlookup hread (.nil p _), (Tree.graft_empty _ _).symm,
          h.settled _ hadds.count_eq hs', .of_memo_eq hs'⟩
      · intro fault s' hread hs' _ _ hadds
        obtain ⟨k, hk, hholds⟩ := h.holds { status := .failed }
        rw [Tree.graft_empty] at hholds
        exact ⟨_, .fresh p m _ d [] _ hlookup hread (.nil p _), (Tree.graft_empty _ _).symm,
          (h.settled _ rfl rfl).remember hk hholds hadds.count_eq hs',
          (Since.of_memo_eq rfl).remember hs'⟩
      · intro summary offers s₁ hread hs₁ _ _ hadds
        have hlt : p.id < (d.tree.amend p.id (Call.settle
            ((Reading.summarized summary offers).verdict p.id))).size := by
          rw [Tree.size_amend]
          exact h.bounds.2
        refine BuildM.Ensures.mono (ensures_growOffers_plants ih offers
          (h.settled _ hadds.count_eq hs₁) h.bounds.1 hlt
          fun entry hentry => h.spares entry (hs₁ ▸ hentry)) ?_ fun _ => id
        rintro g s₂ ⟨d₂, hg⟩ s₃ hs₃ _ _ hadds₃
        exact DevelopsAs.summarized h hlookup hread hs₁ hadds.count_eq hg hs₃ hadds₃.count_eq
    · obtain ⟨hreuse, hsome⟩ := Classical.not_imp.1 hmemo
      obtain ⟨memo, hmemo⟩ := Option.ne_none_iff_exists'.1 hsome
      refine ensures_expand_reused (fun _ => trivial) hreuse hmemo fun s' hquiet hadds => ?_
      exact DevelopsAs.reused h hreuse hmemo hquiet.memo_eq hadds.count_eq

/-- The tree of a build comes about in place. -/
theorem planted_of_build {root : Method} {budget : Int} {t : Tree Float}
    (h : (b.build (some root) budget).outcome = .ok t) : b.Planted root budget t := by
  have hbegun : Begun (rootPlace root budget) (start root budget)
      { tree := Tree.ofForest (rootOpening root budget) .empty } := by
    refine ⟨⟨rfl, rfl, fun entry hentry => ?_⟩, rfl, ⟨_, rfl, rfl⟩, fun entry hentry => ?_⟩
    · cases hentry
    · cases hentry
  obtain ⟨e, s, ⟨d, hd⟩, rfl, -, -⟩ :=
    exists_root_expansion (b.ensures_expand_develops _ _ _ _ _ hbegun) h
  refine ⟨_, _, d, Tree.add_root _, hd.develops, ?_⟩
  rw [hd.tree_eq]
  exact Tree.graft_ofForest _ _

end Builder

/-- The nodes of a finished build are numbered in preorder. Its tree is the only one that comes about
    when every call that is admitted gets its node at once and replays copy the nodes of the tree
    itself. A walk visits all nodes in the order of their numbers; what it visits from a node on has
    consecutive numbers that begin with that of the node, and the children of a node are in increasing
    order. -/
theorem built_in_preorder {b : Builder} {root : Option Method} {budget : Int} {t : Tree Float}
    (h : (b.build root budget).outcome = .ok t) :
    (∃ m, root = some m ∧ ∀ u, b.Planted m budget u ↔ u = t)
    ∧ t.walk (fun _ => true) = some t.allIds
    ∧ ∀ i n, t.node? i = some n → n.children.Pairwise (· < ·)
        ∧ ∃ k count : Nat, i = k ∧ t.Visits [i] (Tree.numbers k (count + 1)) := by
  cases root with
  | none => cases h
  | some m =>
    have hplanted := b.planted_of_build h
    refine ⟨⟨m, rfl, fun u => ⟨fun hu => hu.unique hplanted, ?_⟩⟩, ?_⟩
    · rintro rfl
      exact hplanted
    · obtain ⟨c, f, rfl⟩ := hplanted.exists_ofForest
      exact ⟨Tree.walk_ofForest c f, fun i n hn =>
        ⟨(Tree.linked_ofForest c f).increasing hn, Tree.visits_node hn⟩⟩

/-- Of the calls of `mid` the one of `slab` is too large below `wrap`. -/
def outcrop : Program := .ofMethods
  [.calling "root" 1 ["mid", "wrap"], .calling "wrap" 1 ["mid"],
    .calling "mid" 1 ["leaf", "slab", "leaf"], .calling "leaf" 1 [], .calling "slab" 2 []]

/-- Node 4 replays node 2, and node 6 replays node 1 but for the call that is too large there. -/
theorem built_in_preorder_outcrop : ∃ root t,
    outcrop.method? "t/A.root()V" = some root
    ∧ (Builder.build { catalog := outcrop.catalog } (some root) 3).outcome = .ok t
    ∧ (Builder.build { catalog := outcrop.catalog } (some root) 3).state.reuses
      = [(4, "t/A.leaf()V", 2), (6, "t/A.mid()V", 1)]
    ∧ t.nodes.toList.map (·.children) = [[1, 5], [2, 3, 4], [], [], [], [6], [7, 8], [], []]
    ∧ (∀ u, Builder.Planted { catalog := outcrop.catalog } root 3 u ↔ u = t)
    ∧ t.walk (fun _ => true) = some [0, 1, 2, 3, 4, 5, 6, 7, 8] := by
  have hview : (outcrop.method? "t/A.root()V").isSome
      ∧ (Builder.build { catalog := outcrop.catalog } (outcrop.method? "t/A.root()V")
        3).state.reuses = [(4, "t/A.leaf()V", 2), (6, "t/A.mid()V", 1)]
      ∧ (Builder.build { catalog := outcrop.catalog } (outcrop.method? "t/A.root()V")
        3).outcome.toOption.map (fun t => (t.nodes.toList.map (·.children), t.allIds))
        = some ([[1, 5], [2, 3, 4], [], [], [], [6], [7, 8], [], []], [0, 1, 2, 3, 4, 5, 6, 7, 8]) := by
    decide +kernel
  obtain ⟨hroot, hreuses, hnodes⟩ := hview
  obtain ⟨root, hroot⟩ := Option.isSome_iff_exists.1 hroot
  rw [hroot] at hreuses hnodes
  obtain ⟨t, ht, hview⟩ := Build.exists_tree hnodes
  obtain ⟨hchildren, hall⟩ := Prod.mk.inj hview
  obtain ⟨⟨m, hm, hplanted⟩, hwalk, -⟩ := built_in_preorder ht
  obtain rfl := Option.some.inj hm
  rw [hall] at hwalk
  exact ⟨root, t, hroot, ht, hreuses, hchildren, hplanted, hwalk⟩

end InlinePlan
