import InlinePlan.Proofs.CallTree.Steps
import Mathlib.Data.List.Nodup

set_option autoImplicit false

/-! # Unfolding without memory

`Unfolds` says what grows from offers below a place if nothing is remembered: every call is read and
grown afresh under the place's own budget, ratio, depth and path. It has no number of a node in it
and does not mention the records of a build. A builder that does not reuse grows just that
(`ensures_expand_unfolds`). A forest that lacks no call but those that recur in it, `Covers`, can be
replayed anywhere: the replay is what unfolds there (`Covers.unfolds`). -/

namespace InlinePlan

/-! ## Forests without origins -/

/-- A call without the node whose analysis found its summary. -/
def Call.forget {R : Type} (c : Call R) : Call R := { c with origin := none }

/-- A forest whose calls do not say where their summaries were found. -/
def Forest.forget {R : Type} : Forest R → Forest R
  | .empty => .empty
  | .grow call below rest => .grow call.forget below.forget rest.forget

def Growth.forget (g : Growth) : Growth := ⟨g.forest.forget, g.hits⟩

/-! ## Refusals -/

/-- Reasons that depend on how much is left at a place, not on its path. -/
def PruneReason.isLimit : PruneReason → Bool
  | .budget | .lowValue | .depth => true
  | .coldBlock | .recursion | .unresolved => false

namespace Place

variable {o : Options} {p : Place} {callee : Method} {ratio : Float} {reason : PruneReason}

theorem refusal?_of_mem (o : Options) (ratio : Float) (h : callee.id ∈ p.path) :
    ∃ reason, p.refusal? o callee ratio = some reason :=
  Option.ne_none_iff_exists'.1 fun hnone => (refusal?_eq_none_iff.1 hnone).2.1 h

/-- A call that is not kept out by a limit would have recurred. -/
theorem mem_of_refusal? (h : p.refusal? o callee ratio = some reason) (hlimit : reason.isLimit = false) :
    reason = .recursion ∧ callee.id ∈ p.path := by
  unfold refusal? at h
  repeat' split at h
  · cases h
    cases hlimit
  · rename_i hpath
    cases h
    exact ⟨rfl, by simpa using hpath⟩
  · cases h
    cases hlimit
  · cases h
    cases hlimit
  · cases h

end Place

/-! ## Unfolding -/

namespace Builder

/-- The call that a method with a reading is at its own place, whoever read it. -/
def callOf (b : Builder) (p : Place) (callee : Method) (ratio : Float) (site : CallSite)
    (r : Reading) : Call Float :=
  b.callAt p callee ratio site { status := r.status, summary := r.summary? }

/-- What grows from offers below a place, and the reasons why calls were refused on the way. -/
inductive Unfolds (b : Builder) : Place → List Offer → Growth → List PruneReason → Prop where
  | nil (p : Place) : Unfolds b p [] {} []
  | dropped (p : Place) (reason : PruneReason) (calls : Nat) (warning : Option String)
      (offers : List Offer) (g : Growth) (rs : List PruneReason) :
      Unfolds b p offers g rs → Unfolds b p (.dropped reason calls warning :: offers) g rs
  | refused (p : Place) (site : CallSite) (ratio : Float) (callee : Method) (offers : List Offer)
      (reason : PruneReason) (g : Growth) (rs : List PruneReason) :
      p.refusal? b.options callee ratio = some reason → Unfolds b p offers g rs →
      Unfolds b p (.call site ratio callee :: offers)
        ((Growth.pruned callee reason).append g) (reason :: rs)
  | admitted (p : Place) (site : CallSite) (ratio : Float) (callee : Method) (offers : List Offer)
      (r : Reading) (g g' : Growth) (rs rs' : List PruneReason) :
      p.refusal? b.options callee ratio = none → b.read callee = .ok r →
      Unfolds b (p.child p.id callee ratio) r.offers g rs → Unfolds b p offers g' rs' →
      Unfolds b p (.call site ratio callee :: offers)
        ⟨.grow (b.callOf (p.child p.id callee ratio) callee ratio site r) g.forest g'.forest,
          g.hits ++ g'.hits⟩ (rs ++ rs')

namespace Unfolds

variable {b : Builder} {p q : Place} {offers : List Offer} {g g' : Growth}
  {rs rs' : List PruneReason}

/-- What unfolds below a place is determined. -/
theorem unique (h : b.Unfolds p offers g rs) (h' : b.Unfolds p offers g' rs') : g = g' ∧ rs = rs' := by
  induction h generalizing g' rs' with
  | nil p =>
    cases h'
    exact ⟨rfl, rfl⟩
  | dropped p reason calls warning offers g rs _ ih =>
    cases h' with
    | dropped _ _ _ _ _ _ _ hothers => exact ih hothers
  | refused p site ratio callee offers reason g rs hreason _ ih =>
    cases h' with
    | refused _ _ _ _ _ reason' _ _ hreason' hothers =>
      obtain rfl : reason = reason' := Option.some.inj (hreason.symm.trans hreason')
      obtain ⟨rfl, rfl⟩ := ih hothers
      exact ⟨rfl, rfl⟩
    | admitted _ _ _ _ _ _ _ _ _ _ hnone => cases hreason.symm.trans hnone
  | admitted p site ratio callee offers r g₁ g₂ rs₁ rs₂ hnone hread _ _ ih₁ ih₂ =>
    cases h' with
    | refused _ _ _ _ _ _ _ _ hreason => cases hnone.symm.trans hreason
    | admitted _ _ _ _ _ r' _ _ _ _ _ hread' hbelow hothers =>
      obtain rfl : r = r' := Except.ok.inj (hread.symm.trans hread')
      obtain ⟨rfl, rfl⟩ := ih₁ hbelow
      obtain ⟨rfl, rfl⟩ := ih₂ hothers
      exact ⟨rfl, rfl⟩

theorem alike (hpq : p.Alike q) (h : b.Unfolds p offers g rs) : b.Unfolds q offers g rs := by
  induction h generalizing q with
  | nil p => exact .nil q
  | dropped p reason calls warning offers g rs _ ih => exact .dropped _ _ _ _ _ _ _ (ih hpq)
  | refused p site ratio callee offers reason g rs hreason _ ih =>
    exact .refused _ _ _ _ _ _ _ _ (hpq.refusal?_eq ▸ hreason) (ih hpq)
  | admitted p site ratio callee offers r g₁ g₂ rs₁ rs₂ hnone hread _ _ ih₁ ih₂ =>
    have hplace := hpq.child p.id q.id callee ratio
    have hcall : b.callOf (p.child p.id callee ratio) callee ratio site r
        = b.callOf (q.child q.id callee ratio) callee ratio site r := by
      simp only [callOf, callAt, hplace.1, hplace.2.1]
    rw [hcall]
    exact .admitted _ _ _ _ _ _ _ _ _ _ (hpq.refusal?_eq ▸ hnone) hread (ih₁ hplace) (ih₂ hpq)

/-- What unfolds does not depend on whether expansions are reused. -/
theorem reusing (reuse : Bool) (h : b.Unfolds p offers g rs) :
    Unfolds { b with reuse } p offers g rs := by
  induction h with
  | nil p => exact .nil p
  | dropped _ _ _ _ _ _ _ _ ih => exact .dropped _ _ _ _ _ _ _ ih
  | refused _ _ _ _ _ _ _ _ hreason _ ih => exact .refused _ _ _ _ _ _ _ _ hreason ih
  | admitted _ _ _ _ _ _ _ _ _ _ hnone hread _ _ ih₁ ih₂ =>
    exact .admitted _ _ _ _ _ _ _ _ _ _ hnone hread ih₁ ih₂

end Unfolds

/-! ## Growth without memory -/

variable {b : Builder}

theorem forget_callAt {p : Place} {callee : Method} {e : Expansion} {r : Reading}
    (hstatus : e.status = r.status) (hsummary : e.summary = r.summary?) (i j : NodeId)
    (ratio : Float) (site : CallSite) :
    (b.callAt (p.child i callee ratio) callee ratio site e).forget
      = b.callOf (p.child j callee ratio) callee ratio site r := by
  simp only [callOf, callAt, Call.forget, hstatus, hsummary, Place.child]

/-- What an expansion of a method grew, up to origins, is what unfolds from the method's reading, and
    the refusals are among the records. -/
structure Fresh (b : Builder) (p : Place) (m : Method) (e : Expansion) (s : BuildState) (r : Reading)
    (rs : List PruneReason) : Prop where
  read_eq : b.read m = .ok r
  status_eq : e.status = r.status
  summary_eq : e.summary = r.summary?
  unfolds : b.Unfolds p r.offers e.growth.forget rs
  refusals : rs ⊆ s.pruned

theorem ensures_growOffers_unfolds {expand : Expander}
    (hexpand : ∀ p m s, BuildM.Ensures (expand p m) s
      (fun e s' => s.pruned ⊆ s'.pruned ∧ ∃ r rs, b.Fresh p m e s' r rs) fun _ => True)
    (p : Place) (offers : List Offer) (s : BuildState) :
    BuildM.Ensures (b.growOffers expand p offers) s (fun g s' => s.pruned ⊆ s'.pruned
      ∧ ∃ rs, b.Unfolds p offers g.forget rs ∧ rs ⊆ s'.pruned) fun _ => True := by
  induction offers generalizing s with
  | nil => exact ⟨List.Subset.refl _, [], .nil p, List.nil_subset _⟩
  | cons offer offers ih =>
    cases offer with
    | call site ratio callee =>
      rw [ensures_growOffers_call]
      cases hrefusal : p.refusal? b.options callee ratio with
      | some reason =>
        refine (ih _).mono (fun g s' h => ?_) fun _ => id
        obtain ⟨hs, rs, hg, hrs⟩ := h
        have hs := List.append_subset.1 hs
        exact ⟨hs.1, reason :: rs, .refused _ _ _ _ _ _ _ _ hrefusal hg,
          List.cons_subset.2 ⟨hs.2 (List.mem_singleton_self _), hrs⟩⟩
      | none =>
        refine (hexpand _ _ _).mono (fun e s₁ he => ?_) fun _ => id
        obtain ⟨hs₁, r, rs₁, he⟩ := he
        refine (ih s₁).mono (fun g s₂ hg => ?_) fun _ => id
        obtain ⟨hs₂, rs₂, hg, hrs₂⟩ := hg
        refine ⟨List.Subset.trans hs₁ hs₂, rs₁ ++ rs₂, ?_,
          List.append_subset.2 ⟨List.Subset.trans he.refusals hs₂, hrs₂⟩⟩
        -- the callee was expanded under its new number, and unfolds alike under that of `p`
        have hunfolds := Unfolds.admitted p site ratio callee offers r _ _ rs₁ rs₂ hrefusal he.read_eq
          (he.unfolds.alike ((Place.Alike.refl p).child _ p.id callee ratio)) hg
        rwa [← forget_callAt he.status_eq he.summary_eq s.count p.id ratio site] at hunfolds
    | dropped reason calls warning =>
      rw [ensures_growOffers_dropped]
      refine (ih _).mono (fun g s' h => ?_) fun _ => id
      obtain ⟨hs, rs, hg, hrs⟩ := h
      exact ⟨(List.append_subset.1 hs).1, rs, .dropped _ _ _ _ _ _ _ hg, hrs⟩
    | endless => trivial

/-- A builder that does not reuse grows what unfolds. -/
theorem ensures_expand_unfolds (hreuse : b.reuse = false) (n : Nat) (p : Place) (m : Method)
    (s : BuildState) : BuildM.Ensures (b.expand n p m) s
      (fun e s' => s.pruned ⊆ s'.pruned ∧ ∃ r rs, b.Fresh p m e s' r rs) fun _ => True := by
  induction n generalizing p m s with
  | zero => trivial
  | succ n ih =>
    refine ensures_expand_fresh (fun _ => trivial) (fun h => by simp [hreuse] at h)
      (fun _ _ => trivial) ?_ ?_ ?_
    · intro reason s' hread _ hpruned _ _
      exact ⟨hpruned ▸ List.Subset.refl _, _, [], hread, rfl, rfl, .nil p, List.nil_subset _⟩
    · intro fault s' hread _ hpruned _ _
      exact ⟨hpruned ▸ List.Subset.refl _, _, [], hread, rfl, rfl, .nil p, List.nil_subset _⟩
    · intro summary offers s₁ hread _ hpruned _ _
      refine (ensures_growOffers_unfolds ih p offers s₁).mono (fun g s₂ h s₃ _ hs₃ _ _ => ?_) fun _ => id
      obtain ⟨hs₂, rs, hg, hrs⟩ := h
      rw [hs₃]
      exact ⟨hpruned ▸ hs₂, _, rs, hread, rfl, rfl, hg, hs₃ ▸ hrs⟩

/-! ## Whole forests -/

/-- A forest has all calls that are offered but those of `known` methods, and below each of its calls
    all that the called method offers in turn, but calls of that method itself. -/
inductive Covers (b : Builder) : List MethodId → List Offer → Forest Float → Prop where
  | nil (known : List MethodId) : Covers b known [] .empty
  | dropped (known : List MethodId) (reason : PruneReason) (calls : Nat) (warning : Option String)
      (offers : List Offer) (f : Forest Float) :
      Covers b known offers f → Covers b known (.dropped reason calls warning :: offers) f
  | recurs (known : List MethodId) (site : CallSite) (ratio : Float) (callee : Method)
      (offers : List Offer) (f : Forest Float) :
      callee.id ∈ known → Covers b known offers f →
      Covers b known (.call site ratio callee :: offers) f
  | grown (known : List MethodId) (site : CallSite) (ratio : Float) (callee : Method)
      (offers : List Offer) (r : Reading) (p : Place) (call : Call Float) (below rest : Forest Float) :
      b.read callee = .ok r → call.forget = b.callOf p callee ratio site r →
      Covers b (callee.id :: known) r.offers below → Covers b known offers rest →
      Covers b known (.call site ratio callee :: offers) (.grow call below rest)

/-- What unfolded is whole, if no limit kept a call out and the methods of the path that cut it are
    known. -/
theorem Unfolds.covers {p : Place} {offers : List Offer} {g : Growth} {rs : List PruneReason}
    {f : Forest Float} {known : List MethodId} (h : b.Unfolds p offers g rs)
    (hf : f.forget = g.forest) (hrs : ∀ r ∈ rs, r.isLimit = false)
    (hknown : ∀ x ∈ p.path, x ∈ g.hits → x ∈ known) : b.Covers known offers f := by
  induction h generalizing f known with
  | nil p =>
    cases f with
    | empty => exact .nil known
    | grow call below rest => cases hf
  | dropped p reason calls warning offers g rs _ ih =>
    exact .dropped _ _ _ _ _ _ (ih hf hrs hknown)
  | refused p site ratio callee offers reason g rs hreason _ ih =>
    obtain ⟨rfl, hmem⟩ := Place.mem_of_refusal? hreason (hrs _ List.mem_cons_self)
    refine .recurs _ _ _ _ _ _ (hknown _ hmem List.mem_cons_self) (ih hf ?_ ?_)
    · exact fun r hr => hrs r (List.mem_cons_of_mem _ hr)
    · exact fun x hx hhit => hknown x hx (List.mem_cons_of_mem _ hhit)
  | admitted p site ratio callee offers r g₁ g₂ rs₁ rs₂ hnone hread _ _ ih₁ ih₂ =>
    cases f with
    | empty => cases hf
    | grow call below rest =>
      obtain ⟨hcall, hbelow, hrest⟩ := Forest.grow.inj hf
      refine .grown _ _ _ _ _ r _ _ _ _ hread hcall (ih₁ hbelow ?_ ?_) (ih₂ hrest ?_ ?_)
      · exact fun r hr => hrs r (List.mem_append_left _ hr)
      · intro x hx hhit
        rcases List.mem_cons.1 hx with rfl | hx
        · exact List.mem_cons_self
        · exact List.mem_cons_of_mem _ (hknown x hx (List.mem_append_left _ hhit))
      · exact fun r hr => hrs r (List.mem_append_right _ hr)
      · exact fun x hx hhit => hknown x hx (List.mem_append_right _ hhit)

/-- A call that is moved to another place takes over what is left there, and nothing else. -/
theorem forget_moved {call : Call Float} {p : Place} {callee : Method} {ratio : Float}
    {site : CallSite} {r : Reading} (h : call.forget = b.callOf p callee ratio site r) (q : Place) :
    Call.forget { call with budget := q.budget, rootCallRatio := q.rootCallRatio }
      = b.callOf q callee ratio site r := by
  simp only [Call.forget, callOf, callAt, Call.mk.injEq] at h ⊢
  obtain ⟨hmethod, -, hsite, hratio, -, hbenefit, hsummary, -, hargs, hstatus⟩ := h
  exact ⟨hmethod, trivial, hsite, hratio, trivial, hbenefit, hsummary, trivial, hargs, hstatus⟩

namespace Covers

/-- What is whole does not depend on whether expansions are reused. -/
theorem reusing {offers : List Offer} {f : Forest Float} {known : List MethodId} (reuse : Bool)
    (h : b.Covers known offers f) : Covers { b with reuse } known offers f := by
  induction h with
  | nil known => exact .nil known
  | dropped _ _ _ _ _ _ _ ih => exact .dropped _ _ _ _ _ _ ih
  | recurs _ _ _ _ _ _ hmem _ ih => exact .recurs _ _ _ _ _ _ hmem ih
  | grown _ _ _ _ _ r p call below rest hread hcall _ _ ih₁ ih₂ =>
    exact .grown _ _ _ _ _ r p call below rest hread hcall ih₁ ih₂

variable {q : Place} {offers : List Offer} {f : Forest Float} {known known' : List MethodId}

/-- A replay of a whole forest is what unfolds at the place, if what is known is on the path there.
    It is cut as the unfolding is by all methods of the path that are not known. -/
theorem unfolds (h : b.Covers known offers f) (hq : known ⊆ q.path) :
    ∃ g rs, b.Unfolds q offers g rs ∧ g.forest = (regrow b.options q f).forest.forget
      ∧ ∀ x ∈ q.path, x ∉ known → (x ∈ g.hits ↔ x ∈ (regrow b.options q f).hits) := by
  induction h generalizing q with
  | nil known => exact ⟨{}, [], .nil q, rfl, fun _ _ _ => Iff.rfl⟩
  | dropped known reason calls warning offers f _ ih =>
    obtain ⟨g, rs, hg, hforest, hhits⟩ := ih hq
    exact ⟨g, rs, .dropped _ _ _ _ _ _ _ hg, hforest, hhits⟩
  | recurs known site ratio callee offers f hmem _ ih =>
    -- whatever the reason is at this place, the call is refused here too
    obtain ⟨reason, hreason⟩ := Place.refusal?_of_mem b.options ratio (hq hmem)
    obtain ⟨g, rs, hg, hforest, hhits⟩ := ih hq
    refine ⟨_, _, .refused _ _ _ _ _ _ _ _ hreason hg, hforest, fun x hx hnew => ?_⟩
    have hne : x ≠ callee.id := fun heq => hnew (heq ▸ hmem)
    rw [← hhits x hx hnew]
    simp only [Growth.append, Growth.pruned, List.mem_append]
    split <;> simp [hne]
  | grown known site ratio callee offers r p call below rest hread hcall _ _ ih₁ ih₂ =>
    obtain rfl : call.method = callee := congrArg Call.method hcall
    obtain rfl : call.callRatio = ratio := congrArg Call.callRatio hcall
    obtain ⟨g₂, rs₂, hg₂, hforest₂, hhits₂⟩ := ih₂ hq
    rw [InlinePlan.regrow]
    cases hrefusal : q.refusal? b.options call.method call.callRatio with
    | some reason =>
      refine ⟨_, _, .refused _ _ _ _ _ _ _ _ hrefusal hg₂, hforest₂, fun x hx hnew => ?_⟩
      simp only [Growth.append, List.mem_append, hhits₂ x hx hnew]
    | none =>
      let place := q.child q.id call.method call.callRatio
      have hnotMem : call.method.id ∉ q.path := (Place.refusal?_eq_none_iff.1 hrefusal).2.1
      have hplace : call.method.id :: known ⊆ place.path := List.cons_subset_cons _ hq
      obtain ⟨g₁, rs₁, hg₁, hforest₁, hhits₁⟩ := ih₁ hplace
      refine ⟨_, _, .admitted _ _ _ _ _ _ _ _ _ _ hrefusal hread hg₁ hg₂, ?_, fun x hx hnew => ?_⟩
      · simp only [Forest.forget, hforest₁, hforest₂, forget_moved hcall, place]
      · have hne : x ≠ call.method.id := fun heq => hnotMem (heq ▸ hx)
        have hhits₁ := hhits₁ x (List.mem_cons_of_mem _ hx) (by simp [hne, hnew])
        simp only [List.mem_append, hhits₁, hhits₂ x hx hnew, place]

/-- What a replay grows from a whole forest is whole again, if no limit keeps a call out, up to the
    methods that cut the replay. -/
theorem regrow (h : b.Covers known offers f) (hknown : known ⊆ known')
    (hlimits : ∀ reason ∈ refused b.options q f, reason.isLimit = false)
    (hhits : ∀ x ∈ q.path, x ∈ (InlinePlan.regrow b.options q f).hits → x ∈ known') :
    b.Covers known' offers (InlinePlan.regrow b.options q f).forest := by
  induction h generalizing q known' with
  | nil known => exact .nil known'
  | dropped known reason calls warning offers f _ ih =>
    exact .dropped _ _ _ _ _ _ (ih hknown hlimits hhits)
  | recurs known site ratio callee offers f hmem _ ih =>
    exact .recurs _ _ _ _ _ _ (hknown hmem) (ih hknown hlimits hhits)
  | grown known site ratio callee offers r p call below rest hread hcall _ _ ih₁ ih₂ =>
    obtain rfl : call.method = callee := congrArg Call.method hcall
    obtain rfl : call.callRatio = ratio := congrArg Call.callRatio hcall
    rw [InlinePlan.regrow] at hhits ⊢
    rw [refused] at hlimits
    cases hrefusal : q.refusal? b.options call.method call.callRatio with
    | some reason =>
      simp only [hrefusal] at hhits hlimits ⊢
      obtain ⟨rfl, hmem⟩ := Place.mem_of_refusal? hrefusal (hlimits _ List.mem_cons_self)
      refine .recurs _ _ _ _ _ _ (hhits _ hmem List.mem_cons_self) (ih₂ hknown ?_ ?_)
      · exact fun r hr => hlimits r (List.mem_cons_of_mem _ hr)
      · exact fun x hx hhit => hhits x hx (List.mem_cons_of_mem _ hhit)
    | none =>
      simp only [hrefusal] at hhits hlimits ⊢
      refine .grown _ _ _ _ _ r _ _ _ _ hread (forget_moved hcall _)
        (ih₁ (List.cons_subset_cons _ hknown) ?_ ?_) (ih₂ hknown ?_ ?_)
      · exact fun r hr => hlimits r (List.mem_append_left _ hr)
      · intro x hx hhit
        rcases List.mem_cons.1 hx with rfl | hx
        · exact List.mem_cons_self
        · exact List.mem_cons_of_mem _ (hhits x hx (List.mem_append_left _ hhit))
      · exact fun r hr => hlimits r (List.mem_append_right _ hr)
      · exact fun x hx hhit => hhits x hx (List.mem_append_right _ hhit)

end Covers

end Builder

end InlinePlan
