import InlinePlan.CallTree.Build
import InlinePlan.Proofs.Analysis.Trace

set_option autoImplicit false

/-! # Steps of a build

What a step of a build leads to is said by `BuildM.Ensures`, for its result and its records or for
its fault. The calls of a method are taken as one list of offers, made once from the analysis of the
method (`Builder.read`); growth then goes through that list (`growSites_eq`), and an expansion is
either a replay or a growth of the offers (`ensures_expand_reused`, `ensures_expand_fresh`); its parts
before and after the growth are `Builder.enter` and `Builder.leave`. More fuel changes nothing, unless
the fuel runs out (`extends_expand`). Nothing after this module opens the definition of an
expansion. -/

namespace InlinePlan

/-! ## Records -/

/-- An expansion that was reused: the node, its method and the node that had the expansion. -/
def BuildEvent.reuse? : BuildEvent → Option (NodeId × MethodId × NodeId)
  | .reused node method source => some (node, method, source)
  | _ => none

/-- An analysis and what is reported after it reuse nothing. -/
theorem BuildEvent.reuse?_of_analysis {m : MethodId} {es : List RunEvent} {e : BuildEvent}
    (he : e.reuse? = none) : ∀ x ∈ es.map (BuildEvent.analysis m) ++ [e], x.reuse? = none := by
  simp only [List.forall_mem_append, List.forall_mem_map, List.forall_mem_singleton]
  exact ⟨fun _ _ => rfl, he⟩

/-- The expansions that were reused so far. -/
def BuildState.reuses (s : BuildState) : List (NodeId × MethodId × NodeId) :=
  s.events.filterMap BuildEvent.reuse?

/-- Records after steps that added some nodes and reused some expansions. -/
structure BuildState.Adds (s : BuildState) (nodes : Nat) (reuses : List (NodeId × MethodId × NodeId))
    (s' : BuildState) : Prop where
  count_eq : s'.count = s.count + nodes
  reuses_eq : s'.reuses = s.reuses ++ reuses

namespace BuildState

theorem reuses_append {s s' : BuildState} {events : List BuildEvent}
    (h : s'.events = s.events ++ events) :
    s'.reuses = s.reuses ++ events.filterMap BuildEvent.reuse? := by
  rw [reuses, h, List.filterMap_append]
  rfl

theorem Adds.of_events {s s' : BuildState} {events : List BuildEvent} (hcount : s'.count = s.count)
    (h : s'.events = s.events ++ events) (hnone : ∀ e ∈ events, e.reuse? = none) :
    s.Adds 0 [] s' := by
  refine ⟨hcount, ?_⟩
  rw [reuses_append h, List.filterMap_eq_nil_iff.2 hnone]

theorem Adds.trans {s s' s'' : BuildState} {nodes nodes' : Nat}
    {reuses reuses' : List (NodeId × MethodId × NodeId)} (h : s.Adds nodes reuses s')
    (h' : s'.Adds nodes' reuses' s'') : s.Adds (nodes + nodes') (reuses ++ reuses') s'' where
  count_eq := by rw [h'.count_eq, h.count_eq, Nat.add_assoc]
  reuses_eq := by rw [h'.reuses_eq, h.reuses_eq, List.append_assoc]

end BuildState

/-! ## What steps lead to -/

namespace BuildM

variable {α β : Type}

/-- What a step leads to from the records `s`: `Q` holds of its result and the records after it, or
    `E` of its fault. -/
def Ensures (x : BuildM α) (s : BuildState) (Q : α → BuildState → Prop) (E : BuildFault → Prop) :
    Prop :=
  match x s with
  | .ok a s' => Q a s'
  | .error e _ => E e

variable {x : BuildM α} {f : α → BuildM β} {s : BuildState} {E : BuildFault → Prop}

@[simp] theorem ensures_pure {a : α} {Q : α → BuildState → Prop} :
    Ensures (pure a) s Q E ↔ Q a s := Iff.rfl

@[simp] theorem ensures_bind {Q : β → BuildState → Prop} :
    Ensures (x >>= f) s Q E ↔ Ensures x s (fun a s' => Ensures (f a) s' Q E) E := by
  simp only [Ensures, bind, EStateM.bind]
  cases x s <;> rfl

@[simp] theorem ensures_get {Q : BuildState → BuildState → Prop} :
    Ensures get s Q E ↔ Q s s := Iff.rfl

@[simp] theorem ensures_modify {g : BuildState → BuildState} {Q : PUnit → BuildState → Prop} :
    Ensures (modify g) s Q E ↔ Q () (g s) := Iff.rfl

@[simp] theorem ensures_fresh {Q : NodeId → BuildState → Prop} :
    Ensures fresh s Q E ↔ Q s.count { s with count := s.count + 1 } := Iff.rfl

theorem Ensures.mono {Q Q' : α → BuildState → Prop} {E' : BuildFault → Prop}
    (h : Ensures x s Q E) (hQ : ∀ a s', Q a s' → Q' a s') (hE : ∀ e, E e → E' e) :
    Ensures x s Q' E' := by
  unfold Ensures at h ⊢
  cases hx : x s with
  | ok a s' =>
    rw [hx] at h
    exact hQ a s' h
  | error e s' =>
    rw [hx] at h
    exact hE e h

theorem Ensures.and {Q Q' : α → BuildState → Prop} {E' : BuildFault → Prop} (h : Ensures x s Q E)
    (h' : Ensures x s Q' E') : Ensures x s (fun a s' => Q a s' ∧ Q' a s') fun e => E e ∧ E' e := by
  unfold Ensures at h h' ⊢
  cases hx : x s with
  | ok a s' =>
    rw [hx] at h h'
    exact ⟨h, h'⟩
  | error e s' =>
    rw [hx] at h h'
    exact ⟨h, h'⟩

theorem ensures_self (x : BuildM α) (s : BuildState) :
    Ensures x s (fun a s' => x s = .ok a s') fun e => ∃ s', x s = .error e s' := by
  unfold Ensures
  cases x s with
  | ok a s' => rfl
  | error e s' => exact ⟨s', rfl⟩

theorem Ensures.exists_ok {Q : α → BuildState → Prop} (h : Ensures x s Q fun _ => False) :
    ∃ a s', x s = .ok a s' ∧ Q a s' := by
  unfold Ensures at h
  cases hx : x s with
  | ok a s' =>
    rw [hx] at h
    exact ⟨a, s', rfl, h⟩
  | error e s' =>
    rw [hx] at h
    exact h.elim

theorem ensures_reports {γ : Type} {e : γ → BuildEvent} {es : List γ} {Q : PUnit → BuildState → Prop}
    (h : Q () { s with events := s.events ++ es.map e }) :
    Ensures (es.forM fun c => report (e c)) s Q E := by
  induction es generalizing s with
  | nil =>
    rw [List.map_nil, List.append_nil] at h
    exact h
  | cons c cs ih =>
    refine ih ?_
    simpa using h

theorem ensures_warnings {γ : Type} {w : γ → String} {ws : List γ} {Q : PUnit → BuildState → Prop}
    (h : Q () { s with warnings := s.warnings ++ ws.map w }) :
    Ensures (ws.forM fun c => warn (w c)) s Q E := by
  induction ws generalizing s with
  | nil =>
    rw [List.map_nil, List.append_nil] at h
    exact h
  | cons c cs ih =>
    refine ih ?_
    simpa using h

/-- A call is pruned, or gets a place. -/
theorem ensures_consider {o : Options} {p : Place} {callee : Method} {ratio : Float}
    {Q : Except PruneReason Place → BuildState → Prop} :
    Ensures (consider o p callee ratio) s Q E ↔
      match p.refusal? o callee ratio with
      | some reason => Q (.error reason) { s with
          pruned := s.pruned ++ [reason], events := s.events ++ [.pruned p.id callee.id reason] }
      | none => Q (.ok (p.child s.count callee ratio)) { s with count := s.count + 1 } := by
  unfold consider
  cases p.refusal? o callee ratio <;>
    simp only [prune, report, ensures_bind, ensures_modify, ensures_pure, ensures_fresh,
      List.replicate_one]

end BuildM

/-! ## Offers -/

/-- What a call site offers for growth: a method to call, calls that are dropped whatever the place
    is, or a resolution without an end. -/
inductive Offer where
  | call (site : CallSite) (ratio : Float) (callee : Method)
  | dropped (reason : PruneReason) (calls : Nat) (warning : Option String)
  | endless

namespace Forest

variable {R : Type}

theorem append_assoc (f g h : Forest R) : (f.append g).append h = f.append (g.append h) := by
  induction f with
  | empty => rfl
  | grow call below rest _ ih => simp only [append, ih]

end Forest

namespace Growth

@[simp] theorem nothing_append (a : Growth) : Growth.append {} a = a := rfl

theorem append_assoc (a b c : Growth) : (a.append b).append c = a.append (b.append c) := by
  simp [append, Forest.append_assoc]

end Growth

namespace Builder

variable {b : Builder} {p : Place} {s : BuildState} {E : BuildFault → Prop}

/-- The offers of a call site in a method that is entered `entryFrequency` times. -/
def offersAt (b : Builder) (entryFrequency : Int) (site : CallSite) : List Offer :=
  match b.catalog.resolve site.siteRef with
  | .endless => [.endless]
  | .failed reason =>
    [.dropped .unresolved 1 (some (site.caller.id ++ "@" ++ toString site.bci ++ ": " ++ reason))]
  | .methods [] => [.dropped .unresolved 1 none]
  | .methods callees =>
    if site.frequency < b.options.coldBlockFrequency then
      [.dropped .coldBlock callees.length none]
    else
      callees.map (.call site (siteRatio site.frequency entryFrequency callees.length))

/-- Grows offers in order. -/
def growOffers (b : Builder) (expand : Expander) (p : Place) : List Offer → BuildM Growth
  | [] => return {}
  | .call site ratio callee :: offers => do
    match ← BuildM.consider b.options p callee ratio with
    | .error reason =>
      let others ← b.growOffers expand p offers
      return (Growth.pruned callee reason).append others
    | .ok place =>
      let e ← expand place callee
      let others ← b.growOffers expand p offers
      return ⟨.grow (b.callAt place callee ratio site e) e.growth.forest others.forest,
        e.growth.hits ++ others.hits⟩
  | .dropped reason calls warning :: offers => do
    BuildM.prune reason calls
    warning.forM BuildM.warn
    b.growOffers expand p offers
  | .endless :: _ => throw .endless

theorem ensures_growOffers_call {expand : Expander} {site : CallSite} {ratio : Float}
    {callee : Method} {offers : List Offer} {Q : Growth → BuildState → Prop} :
    BuildM.Ensures (b.growOffers expand p (.call site ratio callee :: offers)) s Q E ↔
      match p.refusal? b.options callee ratio with
      | some reason => BuildM.Ensures (b.growOffers expand p offers)
          { s with pruned := s.pruned ++ [reason],
                   events := s.events ++ [.pruned p.id callee.id reason] }
          (fun others => Q ((Growth.pruned callee reason).append others)) E
      | none => BuildM.Ensures (expand (p.child s.count callee ratio) callee)
          { s with count := s.count + 1 }
          (fun e s₁ => BuildM.Ensures (b.growOffers expand p offers) s₁
            (fun others => Q ⟨.grow (b.callAt (p.child s.count callee ratio) callee ratio site e)
              e.growth.forest others.forest, e.growth.hits ++ others.hits⟩) E) E := by
  rw [growOffers, BuildM.ensures_bind, BuildM.ensures_consider]
  cases p.refusal? b.options callee ratio <;> simp only [BuildM.ensures_bind, BuildM.ensures_pure]

theorem ensures_growOffers_dropped {expand : Expander} {reason : PruneReason} {calls : Nat}
    {warning : Option String} {offers : List Offer} {Q : Growth → BuildState → Prop} :
    BuildM.Ensures (b.growOffers expand p (.dropped reason calls warning :: offers)) s Q E ↔
      BuildM.Ensures (b.growOffers expand p offers)
        { s with pruned := s.pruned ++ List.replicate calls reason,
                 warnings := s.warnings ++ warning.toList } Q E := by
  cases warning with
  | none =>
    rw [Option.toList_none, List.append_nil]
    rfl
  | some message => rfl

theorem growCallees_eq (expand : Expander) (site : CallSite) (ratio : Float)
    (callees : List Method) : b.growCallees expand p site ratio callees
      = b.growOffers expand p (callees.map (.call site ratio)) := by
  induction callees with
  | nil => rfl
  | cons callee callees ih =>
    unfold growCallees
    rw [ih]
    rfl

theorem growOffers_append (expand : Expander) (as bs : List Offer) :
    b.growOffers expand p (as ++ bs) = (do
      let first ← b.growOffers expand p as
      let others ← b.growOffers expand p bs
      return first.append others) := by
  induction as with
  | nil => simp only [List.nil_append, growOffers, pure_bind, Growth.nothing_append, bind_pure]
  | cons a as ih =>
    cases a with
    | call site ratio callee =>
      rw [List.cons_append, growOffers, growOffers, ih]
      simp only [bind_assoc]
      congr 1
      funext answer
      cases answer with
      | error reason => simp only [bind_assoc, pure_bind, Growth.append_assoc]
      | ok place =>
        simp only [bind_assoc, pure_bind, Growth.append, Forest.append, List.append_assoc]
    | dropped reason calls warning => simp [growOffers, ih]
    | endless => rfl

theorem growSite_eq (expand : Expander) (entryFrequency : Int) (site : CallSite) :
    b.growSite expand p entryFrequency site
      = b.growOffers expand p (b.offersAt entryFrequency site) := by
  unfold growSite offersAt
  cases b.catalog.resolve site.siteRef with
  | endless => rfl
  | failed reason => rfl
  | methods callees =>
    cases callees with
    | nil => rfl
    | cons callee callees =>
      dsimp only
      split
      · rfl
      · rw [growCallees_eq]

/-- Growing the calls of a method is growing all they offer. -/
theorem growSites_eq (expand : Expander) (entryFrequency : Int) (sites : List CallSite) :
    b.growSites expand p entryFrequency sites
      = b.growOffers expand p (sites.flatMap (b.offersAt entryFrequency)) := by
  induction sites with
  | nil => rfl
  | cons site sites ih => rw [growSites, List.flatMap_cons, growOffers_append, growSite_eq, ih]

end Builder

/-! ## Replays -/

/-- Records after steps that remember nothing, warn of nothing and refuse calls for the reasons
    `rs`. -/
structure BuildState.Quiet (s : BuildState) (rs : List PruneReason) (s' : BuildState) : Prop where
  memo_eq : s'.memo = s.memo
  warnings_eq : s'.warnings = s.warnings
  pruned_eq : s'.pruned = s.pruned ++ rs

/-- What a replay grows. It depends on the place only, not on the records. -/
def regrow (o : Options) (p : Place) : Forest Float → Growth
  | .empty => {}
  | .grow call below rest =>
    match p.refusal? o call.method call.callRatio with
    | some reason => (Growth.pruned call.method reason).append (regrow o p rest)
    | none =>
      let place := p.child p.id call.method call.callRatio
      let grown := regrow o place below
      let others := regrow o p rest
      let copy := { call with budget := place.budget, rootCallRatio := place.rootCallRatio }
      ⟨.grow copy grown.forest others.forest, grown.hits ++ others.hits⟩

/-- The reasons why a replay refuses calls. -/
def refused (o : Options) (p : Place) : Forest Float → List PruneReason
  | .empty => []
  | .grow call below rest =>
    match p.refusal? o call.method call.callRatio with
    | some reason => reason :: refused o p rest
    | none => refused o (p.child p.id call.method call.callRatio) below ++ refused o p rest

/-- Places that differ in their number only. -/
def Place.Alike (p q : Place) : Prop :=
  p.budget = q.budget ∧ p.rootCallRatio = q.rootCallRatio ∧ p.depth = q.depth ∧ p.path = q.path

namespace Place

variable {o : Options} {p q : Place} {callee : Method} {ratio : Float}

theorem refusal?_eq_none_iff :
    p.refusal? o callee ratio = none ↔
      callee.size ≤ p.budget ∧ callee.id ∉ p.path
      ∧ ¬p.rootCallRatio * ratio < o.minRootCallRatio
      ∧ (0 < o.maxDepth → (p.depth : Int) + 1 ≤ o.maxDepth) := by
  unfold refusal?
  split
  · simp
    omega
  · split
    · rename_i _ hpath
      simp only [List.contains_eq_mem, decide_eq_true_eq] at hpath
      simp [hpath]
    · split
      · simp [*]
      · rename_i hsize hpath hratio
        simp only [List.contains_eq_mem, decide_eq_true_eq] at hpath
        simp only [ite_eq_right_iff, reduceCtorEq, imp_false, not_and, Int.not_lt, hpath, hratio,
          not_false_eq_true, true_and]
        exact ⟨fun h => ⟨by omega, h⟩, And.right⟩

theorem Alike.refl (p : Place) : p.Alike p := ⟨rfl, rfl, rfl, rfl⟩

theorem Alike.refusal?_eq (h : p.Alike q) : p.refusal? o callee ratio = q.refusal? o callee ratio := by
  obtain ⟨hb, hr, hd, hp⟩ := h
  simp only [refusal?, hb, hr, hd, hp]

theorem Alike.child (h : p.Alike q) (i j : NodeId) (callee : Method) (ratio : Float) :
    (p.child i callee ratio).Alike (q.child j callee ratio) := by
  obtain ⟨hb, hr, hd, hp⟩ := h
  simp only [Alike, Place.child, hb, hr, hd, hp, and_self]

end Place

theorem regrow_alike {o : Options} {p q : Place} (h : p.Alike q) (f : Forest Float) :
    regrow o p f = regrow o q f := by
  induction f generalizing p q with
  | empty => rfl
  | grow call below rest ihb ihr =>
    have hplace := h.child p.id q.id call.method call.callRatio
    obtain ⟨hbudget, hratio, -, -⟩ := id hplace
    simp only [regrow, h.refusal?_eq, ihb hplace, ihr h, hbudget, hratio]

theorem refused_alike {o : Options} {p q : Place} (h : p.Alike q) (f : Forest Float) :
    refused o p f = refused o q f := by
  induction f generalizing p q with
  | empty => rfl
  | grow call below rest ihb ihr =>
    have hplace := h.child p.id q.id call.method call.callRatio
    simp only [refused, h.refusal?_eq, ihb hplace, ihr h]

theorem ensures_replay {o : Options} {p : Place} {f : Forest Float} {s : BuildState}
    {Q : Growth → BuildState → Prop} {E : BuildFault → Prop}
    (h : ∀ s', s.Quiet (refused o p f) s' → s.Adds (regrow o p f).forest.size [] s' →
      Q (regrow o p f) s') :
    BuildM.Ensures (replay o p f) s Q E := by
  induction f generalizing p s Q with
  | empty => exact h s ⟨rfl, rfl, (List.append_nil _).symm⟩ ⟨rfl, (List.append_nil _).symm⟩
  | grow call below rest ihb ihr =>
    rw [replay, BuildM.ensures_bind, BuildM.ensures_consider]
    rw [regrow, refused] at h
    cases hr : p.refusal? o call.method call.callRatio with
    | some reason =>
      simp only [hr, BuildM.ensures_bind, BuildM.ensures_pure] at h ⊢
      refine ihr fun s' hs hadds => h s' ⟨hs.memo_eq, hs.warnings_eq, ?_⟩ ?_
      · rw [hs.pruned_eq, List.append_assoc, List.singleton_append]
      · have hpruned : s.Adds 0 [] { s with
            pruned := s.pruned ++ [reason],
            events := s.events ++ [.pruned p.id call.method.id reason] } :=
          .of_events rfl rfl (by simp [BuildEvent.reuse?])
        have htrans := hpruned.trans hadds
        rwa [Nat.zero_add] at htrans
    | none =>
      simp only [hr, BuildM.ensures_bind, BuildM.ensures_pure] at h ⊢
      have hplace := (Place.Alike.refl p).child s.count p.id call.method call.callRatio
      refine ihb fun s₁ hs₁ hadds₁ => ihr fun s₂ hs₂ hadds₂ => ?_
      rw [regrow_alike hplace]
      refine h s₂ ⟨?_, ?_, ?_⟩ ⟨?_, ?_⟩
      · rw [hs₂.memo_eq, hs₁.memo_eq]
      · rw [hs₂.warnings_eq, hs₁.warnings_eq]
      · rw [hs₂.pruned_eq, hs₁.pruned_eq, refused_alike hplace, List.append_assoc]
      · rw [hadds₂.count_eq, hadds₁.count_eq, regrow_alike hplace, Forest.size]
        dsimp only
        omega
      · rw [hadds₂.reuses_eq, hadds₁.reuses_eq, List.append_nil, List.append_nil, List.append_nil]
        rfl

/-! ## Expansions -/

/-- What the code of a method says, whatever the place is. -/
inductive Reading where
  | noCode (reason : NoCode)
  | failed (fault : RunFault)
  | summarized (summary : Summary) (offers : List Offer)

namespace Reading

def status : Reading → Status
  | .noCode _ => .noGraph
  | .failed _ => .failed
  | .summarized _ _ => .summarized

def summary? : Reading → Option Summary
  | .summarized summary _ => some summary
  | _ => none

def offers : Reading → List Offer
  | .summarized _ offers => offers
  | _ => []

end Reading

/-- The expansion of a method that was summarized at a place. -/
def Expansion.summarized (p : Place) (summary : Summary) (growth : Growth) : Expansion :=
  { status := .summarized, summary := some summary, origin := some p.id, growth }

namespace Builder

variable {b : Builder} {p : Place} {m : Method} {n : Nat} {s : BuildState}
  {Q : Expansion → BuildState → Prop} {E : BuildFault → Prop}

/-- The analysis of a method. -/
def subject (b : Builder) (m : Method) : Subject :=
  { options := b.options.analysis, oracle := some b.catalog.isSubtype, visitor := .anyResult,
    method := m }

/-- Reads the code of a method, if the build is not cancelled. -/
def read (b : Builder) (m : Method) : Except BuildFault Reading :=
  match b.catalog.graph m with
  | .error reason => .ok (.noCode reason)
  | .ok g =>
    let run := (b.subject m).run g false
    match run.outcome with
    | .error .cancelled => .error .cancelled
    | .error (.start e) => .error (.crashed e)
    | .error (.mismatch e) => .error (.mismatch e)
    | .error (.instruction method ins e) =>
      if e.faultClass = .crash then .error (.crashed e)
      else .ok (.failed (.instruction method ins e))
    | .ok r => .ok (.summarized r.summary (run.calls.flatMap (b.offersAt g.entryFrequency)))

theorem ensures_isCancelled {Q : Bool → BuildState → Prop}
    (h : ∀ cancelled, (cancelled = true → ∃ k, b.catalog.cancelled k = true) → Q cancelled s) :
    BuildM.Ensures b.isCancelled s Q E :=
  h _ fun hc => ⟨_, hc⟩

/-- An expansion of a method that is remembered replays it. -/
theorem ensures_expand_reused {memo : Memo}
    (hcancel : (∃ k, b.catalog.cancelled k = true) → E .cancelled)
    (hreuse : b.reuse = true) (hmemo : s.memo.lookup m.id = some memo)
    (h : ∀ s', s.Quiet (refused b.options p memo.expansion.growth.forest) s' →
      s.Adds (regrow b.options p memo.expansion.growth.forest).forest.size
        [(p.id, m.id, memo.source)] s' →
      Q { memo.expansion with growth := regrow b.options p memo.expansion.growth.forest } s') :
    BuildM.Ensures (b.expand (n + 1) p m) s Q E := by
  rw [expand, BuildM.ensures_bind]
  refine ensures_isCancelled fun cancelled hc => ?_
  cases cancelled with
  | true => exact hcancel (hc rfl)
  | false =>
    simp only [Bool.false_eq_true, if_false, remembered?, BuildM.ensures_bind,
      BuildM.ensures_get, BuildM.ensures_pure, hreuse, if_true, hmemo, BuildM.report,
      BuildM.ensures_modify]
    refine ensures_replay fun s' hs hadds => h s' ⟨hs.memo_eq, hs.warnings_eq, hs.pruned_eq⟩ ?_
    refine ⟨hadds.count_eq, ?_⟩
    rw [hadds.reuses_eq, List.append_nil, BuildState.reuses_append rfl]
    rfl

/-- An expansion of a method that is not remembered reads its code and grows what it offers. The
    result is remembered, unless its growth was cut by a method above the place. -/
theorem ensures_expand_fresh
    (hcancel : (∃ k, b.catalog.cancelled k = true) → E .cancelled)
    (hmemo : b.reuse = true → s.memo.lookup m.id = none)
    (hfault : ∀ f, b.read m = .error f → E f)
    (hnoCode : ∀ reason s', b.read m = .ok (.noCode reason) → s'.memo = s.memo →
      s'.pruned = s.pruned → s.warnings ⊆ s'.warnings → s.Adds 0 [] s' → Q { status := .noGraph } s')
    (hfailed : ∀ fault s', b.read m = .ok (.failed fault) →
      s'.memo = s.memo ++ [(m.id, ⟨p.id, { status := .failed }⟩)] → s'.pruned = s.pruned →
      s'.warnings = s.warnings ++ [m.id ++ ": interpretation failed: " ++ fault.message] →
      s.Adds 0 [] s' → Q { status := .failed } s')
    (hgrowth : ∀ summary offers s₁, b.read m = .ok (.summarized summary offers) →
      s₁.memo = s.memo → s₁.pruned = s.pruned → s.warnings ⊆ s₁.warnings → s.Adds 0 [] s₁ →
      BuildM.Ensures (b.growOffers (b.expand n) p offers) s₁ (fun growth s₂ => ∀ s₃,
        (s₃.memo = if growth.hits.any p.above.contains then s₂.memo
          else s₂.memo ++ [(m.id, ⟨p.id, .summarized p summary growth⟩)]) →
        s₃.pruned = s₂.pruned → s₃.warnings = s₂.warnings → s₂.Adds 0 [] s₃ →
        Q (.summarized p summary growth) s₃) E) :
    BuildM.Ensures (b.expand (n + 1) p m) s Q E := by
  rw [expand, BuildM.ensures_bind]
  refine ensures_isCancelled fun cancelled hc => ?_
  cases cancelled with
  | true => exact hcancel (hc rfl)
  | false =>
    -- without a remembered expansion the code is read; each way of reading it has its own records
    have hnone : (if b.reuse = true then s.memo.lookup m.id else none) = none := by
      split
      · exact hmemo ‹_›
      · rfl
    simp only [Bool.false_eq_true, if_false, remembered?, BuildM.ensures_bind,
      BuildM.ensures_get, BuildM.ensures_pure, hnone, request, BuildM.ensures_modify]
    cases hg : b.catalog.graph m with
    | error reason =>
      have hread : b.read m = .ok (.noCode reason) := by rw [read, hg]
      cases reason with
      | unavailable method =>
        exact hnoCode _ _ hread rfl rfl (List.Subset.refl _)
          (.of_events rfl rfl (by simp [BuildEvent.reuse?]))
      | broken reason =>
        exact hnoCode _ _ hread rfl rfl (List.subset_append_left _ _)
          (.of_events rfl rfl (by simp [BuildEvent.reuse?]))
    | ok g =>
      simp only [analyse, BuildM.ensures_bind]
      refine ensures_isCancelled fun cancelled hc => ?_
      refine BuildM.ensures_reports ?_
      rw [BuildM.ensures_pure]
      have hread := read.eq_1 b m
      simp only [hg] at hread
      rw [subject] at hread
      cases cancelled with
      | true =>
        rcases Subject.run_true_cases _ g with hrun | ⟨e, hrun, heq⟩
        · rw [hrun]
          exact hcancel (hc rfl)
        · rw [heq, hrun] at hread
          rw [hrun]
          exact hfault _ hread
      | false =>
        cases ho : (Subject.run _ g false).outcome with
        | error fault =>
          rw [ho] at hread
          cases fault with
          | cancelled => exact hfault _ hread
          | start e => exact hfault _ hread
          | mismatch e => exact hfault _ hread
          | instruction method ins e =>
            simp only [afterFailure] at hread ⊢
            split
            · rename_i hcrash
              rw [if_pos hcrash] at hread
              exact hfault _ hread
            · rename_i hcrash
              rw [if_neg hcrash] at hread
              exact hfailed _ _ hread rfl rfl rfl
                (.of_events rfl (List.append_assoc _ _ _) (BuildEvent.reuse?_of_analysis rfl))
        | ok r =>
          rw [ho] at hread
          simp only [afterAnalysis, BuildM.ensures_bind, growSites_eq]
          refine BuildM.ensures_warnings ?_
          simp only [BuildM.report, BuildM.ensures_modify]
          refine (hgrowth _ _ _ hread ?_ ?_ ?_ ?_).mono ?_ fun _ => id
          · rfl
          · rfl
          · exact List.subset_append_left _ _
          · exact .of_events rfl (List.append_assoc _ _ _) (BuildEvent.reuse?_of_analysis rfl)
          · intro growth s₂ h
            split
            · rename_i hcut
              rw [if_pos hcut] at h
              exact h _ rfl rfl rfl (.of_events rfl rfl (by simp [BuildEvent.reuse?]))
            · rename_i hcut
              rw [if_neg hcut] at h
              exact h _ rfl rfl rfl ⟨rfl, (List.append_nil _).symm⟩

/-! ## The parts of an expansion -/

/-- What an expansion does before anything grows. A method that is replayed, has no code or fails is
    expanded then; one that is summarized has offers to grow. -/
def enter (b : Builder) (p : Place) (m : Method) : BuildM (Expansion ⊕ Summary × List Offer) := do
  if ← b.isCancelled then throw .cancelled
  match ← b.remembered? m with
  | some memo =>
    BuildM.report (.reused p.id m.id memo.source)
    let growth ← replay b.options p memo.expansion.growth.forest
    return .inl { memo.expansion with growth }
  | none =>
    match ← b.request m with
    | .error reason => return .inl (← withoutCode p m reason)
    | .ok g =>
      let run ← b.analyse m g
      match run.outcome with
      | .error fault => return .inl (← afterFailure p m fault)
      | .ok r =>
        r.warnings.forM fun w => BuildM.warn (m.id ++ ": " ++ w)
        BuildM.report (.summarized p.id m.id r.summary.length run.calls.length)
        return .inr (r.summary, run.calls.flatMap (b.offersAt g.entryFrequency))

/-- What an expansion does when its offers have grown. -/
def leave (p : Place) (m : Method) (summary : Summary) (growth : Growth) : BuildM Expansion := do
  let e := Expansion.summarized p summary growth
  if growth.hits.any p.above.contains then BuildM.report (.cut p.id m.id)
  else BuildM.remember m.id p.id e
  return e

theorem expand_succ (b : Builder) (n : Nat) (p : Place) (m : Method) :
    b.expand (n + 1) p m = (do
      match ← b.enter p m with
      | .inl e => return e
      | .inr (summary, offers) =>
        let growth ← b.growOffers (b.expand n) p offers
        leave p m summary growth) := by
  rw [expand, enter]
  simp only [bind_assoc]
  congr 1
  funext cancelled
  cases cancelled with
  | true => rfl
  | false =>
    simp only [Bool.false_eq_true, if_false, bind_assoc]
    congr 1
    funext memo
    cases memo with
    | some memo => simp only [bind_assoc, pure_bind]
    | none =>
      simp only [bind_assoc]
      congr 1
      funext code
      cases code with
      | error reason => simp only [bind_assoc, pure_bind, bind_pure]
      | ok g =>
        simp only [bind_assoc]
        congr 1
        funext run
        cases run.outcome with
        | error fault => simp only [bind_assoc, pure_bind, bind_pure]
        | ok r => simp only [bind_assoc, pure_bind, afterAnalysis, growSites_eq, leave,
            Expansion.summarized]

/-! ## Builds -/

/-- A build expands its root. -/
theorem build_cases {root : Method} {budget : Int}
    (h : ∀ s, s.memo = [] → s.pruned = [] → s.warnings = [] →
      BuildM.Ensures (b.expand b.catalog.reach (rootPlace root budget) root) s Q E) :
    (∃ e s events, (b.build (some root) budget).outcome
        = .ok (Tree.ofForest (rootCall root budget e) e.growth.forest)
      ∧ (b.build (some root) budget).state = { s with events } ∧ Q e s)
    ∨ ∃ f, (b.build (some root) budget).outcome = .error f ∧ E f := by
  have hgrow : BuildM.Ensures (b.grow (some root) budget) {} (fun t s' => ∃ e s events,
      t = Tree.ofForest (rootCall root budget e) e.growth.forest ∧ s' = { s with events }
        ∧ Q e s) E := by
    simp only [grow, BuildM.report, BuildM.ensures_bind, BuildM.ensures_modify,
      BuildM.ensures_fresh, BuildM.ensures_get, BuildM.ensures_pure]
    exact (h _ rfl rfl rfl).mono (fun e s he => ⟨e, s, _, rfl, rfl, he⟩) fun _ => id
  unfold BuildM.Ensures at hgrow
  unfold build
  cases hrun : b.grow (some root) budget {} with
  | ok t s' =>
    rw [hrun] at hgrow
    obtain ⟨e, s, events, rfl, hstate, hQ⟩ := hgrow
    exact .inl ⟨e, s, events, rfl, hstate, hQ⟩
  | error f s' =>
    rw [hrun] at hgrow
    exact .inr ⟨f, rfl, hgrow⟩

/-- The records with which a build comes to its root. -/
def start (root : Method) (budget : Int) : BuildState :=
  { count := 1, events := [.started root.id budget] }

/-- A build is the expansion of its root, numbered as a tree. -/
theorem build_eq (b : Builder) (root : Method) (budget : Int) :
    b.build (some root) budget =
      match b.expand b.catalog.reach (rootPlace root budget) root (start root budget) with
      | .ok e s => ⟨.ok (Tree.ofForest (rootCall root budget e) e.growth.forest), { s with
          events := s.events ++ [.finished s.count s.memo.length s.warnings.length] }⟩
      | .error f s => ⟨.error f, s⟩ := by
  have hgrow : b.grow (some root) budget {} = (do
      let e ← b.expand b.catalog.reach (rootPlace root budget) root
      let s ← get
      BuildM.report (.finished s.count s.memo.length s.warnings.length)
      return Tree.ofForest (rootCall root budget e) e.growth.forest : BuildM (Tree Float))
        (start root budget) := rfl
  rw [build, hgrow]
  simp only [bind, EStateM.bind]
  cases b.expand b.catalog.reach (rootPlace root budget) root (start root budget) <;> rfl

/-- What the expansion of the root ensures holds of a build that has a tree. -/
theorem exists_root_expansion {root : Method} {budget : Int} {t : Tree Float}
    (hensures : BuildM.Ensures (b.expand b.catalog.reach (rootPlace root budget) root)
      (start root budget) Q E)
    (h : (b.build (some root) budget).outcome = .ok t) :
    ∃ e s, Q e s ∧ t = Tree.ofForest (rootCall root budget e) e.growth.forest
      ∧ (b.build (some root) budget).state.memo = s.memo
      ∧ (b.build (some root) budget).state.reuses = s.reuses := by
  unfold BuildM.Ensures at hensures
  rw [build_eq] at h ⊢
  cases hrun : b.expand b.catalog.reach (rootPlace root budget) root (start root budget) with
  | error f s =>
    rw [hrun] at h
    cases h
  | ok e s =>
    rw [hrun] at h hensures
    refine ⟨e, s, hensures, (Except.ok.inj h).symm, rfl, ?_⟩
    rw [BuildState.reuses_append rfl]
    exact List.append_nil _

end Builder

/-- A build with something to see in its tree has one. -/
theorem Build.exists_tree {α : Type} {build : Build} {view : Tree Float → α} {a : α}
    (h : build.outcome.toOption.map view = some a) : ∃ t, build.outcome = .ok t ∧ view t = a := by
  cases hout : build.outcome with
  | error f =>
    rw [hout] at h
    cases h
  | ok t =>
    rw [hout] at h
    exact ⟨t, rfl, Option.some.inj h⟩

/-! ## Fuel -/

namespace BuildM

variable {α β : Type}

/-- Step `y` does what `x` does, unless `x` runs out of fuel. -/
def Extends (x y : BuildM α) : Prop := ∀ s, y s = x s ∨ ∃ s', x s = .error .exhausted s'

theorem Extends.refl (x : BuildM α) : Extends x x := fun _ => .inl rfl

theorem Extends.trans {x y z : BuildM α} (hxy : Extends x y) (hyz : Extends y z) : Extends x z := by
  intro s
  rcases hxy s with h | h
  · rw [← h]
    exact hyz s
  · exact .inr h

theorem Extends.bind {x y : BuildM α} {f g : α → BuildM β} (hx : Extends x y)
    (hf : ∀ a, Extends (f a) (g a)) : Extends (x >>= f) (y >>= g) := by
  intro s
  simp only [Bind.bind, EStateM.bind]
  rcases hx s with h | ⟨s', h⟩
  · rw [h]
    cases x s with
    | ok a s₁ => exact hf a s₁
    | error e s₁ => exact .inl rfl
  · rw [h]
    exact .inr ⟨s', rfl⟩

end BuildM

namespace Builder

open BuildM

variable {b : Builder}

theorem extends_growOffers {expand expand' : Expander}
    (h : ∀ p m, Extends (expand p m) (expand' p m)) (p : Place) (offers : List Offer) :
    Extends (b.growOffers expand p offers) (b.growOffers expand' p offers) := by
  induction offers with
  | nil => exact .refl _
  | cons offer offers ih =>
    cases offer with
    | call site ratio callee =>
      refine .bind (.refl _) fun answer => ?_
      cases answer with
      | error reason => exact .bind ih fun _ => .refl _
      | ok place => exact .bind (h place callee) fun e => .bind ih fun _ => .refl _
    | dropped reason calls warning =>
      exact .bind (.refl _) fun _ => .bind (.refl _) fun _ => ih
    | endless => exact .refl _

/-- With more fuel an expansion goes the same way, unless the fuel runs out. -/
theorem extends_expand (n : Nat) (p : Place) (m : Method) :
    Extends (b.expand n p m) (b.expand (n + 1) p m) := by
  induction n generalizing p m with
  | zero => exact fun s => .inr ⟨s, rfl⟩
  | succ n ih =>
    rw [expand, expand.eq_2 b p m (n + 1)]
    refine .bind (.refl _) fun cancelled => ?_
    cases cancelled with
    | true => exact .refl _
    | false =>
      refine .bind (.refl _) fun memo => ?_
      cases memo with
      | some memo => exact .refl _
      | none =>
        refine .bind (.refl _) fun code => ?_
        cases code with
        | error reason => exact .refl _
        | ok g =>
          refine .bind (.refl _) fun run => ?_
          cases run.outcome with
          | error fault => exact .refl _
          | ok r =>
            unfold afterAnalysis
            simp only [growSites_eq]
            refine .bind (.refl _) fun _ => .bind (.refl _) fun _ => ?_
            exact .bind (extends_growOffers ih p _) fun _ => .refl _

theorem extends_expand_add (n k : Nat) (p : Place) (m : Method) :
    Extends (b.expand n p m) (b.expand (n + k) p m) := by
  induction k with
  | zero => exact .refl _
  | succ k ih => exact ih.trans (b.extends_expand (n + k) p m)

end Builder

end InlinePlan
