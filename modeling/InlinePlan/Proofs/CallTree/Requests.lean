import InlinePlan.Proofs.CallTree.Termination
import Mathlib.Data.List.NodupEquivFin

set_option autoImplicit false

/-! # Requests for code

A build that reuses expansions asks for the code of a method again only where it could not remember
what grew the first time (`Builder.justified_build`). Which expansions a build begins is said
exactly, with their records (`Builder.Begins`). While some methods are under way, every request was
for one of them, or what it led to is remembered, or that was cut (`Builder.Sound`). An expansion
keeps this, also if it fails (`Builder.answered`): no method is opened below itself, what is
remembered is not asked for, and what is cut reports the call that would have recurred. -/

namespace InlinePlan

/-! ## Records that only grow -/

namespace BuildState

/-- What is reported as pruned for recursion is counted. -/
def Counted (s : BuildState) : Prop :=
  ∀ q y, .pruned q y .recursion ∈ s.events → .recursion ∈ s.pruned

/-- Later records have all requests and reports of earlier ones, in front of new ones. -/
structure Precedes (s s' : BuildState) : Prop where
  requests : s.requests <+: s'.requests
  events : s.events <+: s'.events
  counted : s.Counted → s'.Counted

variable {s s' s'' : BuildState}

theorem Precedes.refl (s : BuildState) : s.Precedes s :=
  ⟨List.prefix_refl _, List.prefix_refl _, id⟩

theorem Precedes.trans (h : s.Precedes s') (h' : s'.Precedes s'') : s.Precedes s'' where
  requests := h.requests.trans h'.requests
  events := h.events.trans h'.events
  counted := h'.counted ∘ h.counted

/-- Steps that prune nothing. -/
theorem Precedes.of_quiet (events : List BuildEvent) (hrequests : s.requests <+: s'.requests)
    (hpruned : s'.pruned = s.pruned) (hevents : s'.events = s.events ++ events)
    (hquiet : ∀ q y, .pruned q y .recursion ∉ events) : s.Precedes s' where
  requests := hrequests
  events := hevents ▸ List.prefix_append _ _
  counted h q y hmem := by
    rw [hevents] at hmem
    rw [hpruned]
    exact (List.mem_append.1 hmem).elim (h q y) fun hmem => absurd hmem (hquiet q y)

/-- What was reported from the records `s` to the records `s'`. -/
def since (s s' : BuildState) : List BuildEvent := s'.events.drop s.events.length

theorem since_subset_left (h : s.Precedes s') (h' : s'.Precedes s'') : s.since s' ⊆ s.since s'' := by
  obtain ⟨_, hs⟩ := h.events
  obtain ⟨_, hs'⟩ := h'.events
  unfold since
  rw [← hs', ← hs, List.append_assoc, List.drop_left, List.drop_left]
  exact List.subset_append_left _ _

theorem since_subset_right (h : s.Precedes s') (h' : s'.Precedes s'') : s'.since s'' ⊆ s.since s'' := by
  obtain ⟨_, hs⟩ := h.events
  obtain ⟨_, hs'⟩ := h'.events
  unfold since
  rw [← hs', List.drop_left, ← hs, List.append_assoc, List.drop_left]
  exact List.subset_append_right _ _

/-- Each of the methods was reported as pruned for recursion from `s` to `s'`. -/
def Reported (s s' : BuildState) (hits : List MethodId) : Prop :=
  ∀ y ∈ hits, ∃ q, .pruned q y .recursion ∈ s.since s'

theorem reported_nil (s s' : BuildState) : s.Reported s' [] := List.forall_mem_nil _

theorem Reported.mono {hits : List MethodId} {t t' : BuildState} (h : s.Reported s' hits)
    (hsub : s.since s' ⊆ t.since t') : t.Reported t' hits := by
  intro y hy
  obtain ⟨q, hq⟩ := h y hy
  exact ⟨q, hsub hq⟩

theorem Reported.append {hits hits' : List MethodId} (h : s.Reported s' hits)
    (h' : s.Reported s' hits') : s.Reported s' (hits ++ hits') :=
  List.forall_mem_append.2 ⟨h, h'⟩

/-- The records after a call was refused at a place. -/
def refuse (s : BuildState) (p : Place) (callee : Method) (reason : PruneReason) : BuildState :=
  { s with
    pruned := s.pruned ++ [reason]
    events := s.events ++ [.pruned p.id callee.id reason] }

theorem precedes_refuse (s : BuildState) (p : Place) (callee : Method) (reason : PruneReason) :
    s.Precedes (s.refuse p callee reason) where
  requests := List.prefix_refl _
  events := List.prefix_append _ _
  counted h q y hmem := by
    rcases List.mem_append.1 hmem with hmem | hmem
    · exact List.mem_append_left _ (h q y hmem)
    · cases List.mem_singleton.1 hmem
      exact List.mem_append_right _ (List.mem_singleton_self _)

theorem reported_refuse (s : BuildState) (p : Place) (callee : Method) (reason : PruneReason) :
    s.Reported (s.refuse p callee reason) (Growth.pruned callee reason).hits := by
  intro y hy
  unfold Growth.pruned at hy
  split at hy
  case isTrue hreason =>
    obtain rfl := List.mem_singleton.1 hy
    refine ⟨p.id, ?_⟩
    rw [since, refuse, List.drop_left, hreason]
    exact List.mem_singleton_self _
  case isFalse => cases hy

end BuildState

/-! ## Steps that may fail -/

namespace BuildM

open BuildState

variable {α β : Type} {x : BuildM α} {s : BuildState} {Q : α → BuildState → Prop}
  {E : BuildState → Prop}

/-- What a step leads to from the records `s`: `Q` holds of its result and the records after it, or
    it fails and `E` holds of the records then. -/
def Ends (x : BuildM α) (s : BuildState) (Q : α → BuildState → Prop) (E : BuildState → Prop) : Prop :=
  match x s with
  | .ok a s' => Q a s'
  | .error _ s' => E s'

@[simp] theorem ends_pure {a : α} : Ends (pure a) s Q E ↔ Q a s := Iff.rfl

@[simp] theorem ends_bind {f : α → BuildM β} {Q : β → BuildState → Prop} :
    Ends (x >>= f) s Q E ↔ Ends x s (fun a s' => Ends (f a) s' Q E) E := by
  simp only [Ends, bind, EStateM.bind]
  cases x s <;> rfl

@[simp] theorem ends_throw {e : BuildFault} : Ends (throw e : BuildM α) s Q E ↔ E s := Iff.rfl

@[simp] theorem ends_get {Q : BuildState → BuildState → Prop} : Ends get s Q E ↔ Q s s := Iff.rfl

@[simp] theorem ends_modify {g : BuildState → BuildState} {Q : PUnit → BuildState → Prop} :
    Ends (modify g) s Q E ↔ Q () (g s) := Iff.rfl

theorem Ends.mono {Q' : α → BuildState → Prop} {E' : BuildState → Prop} (h : Ends x s Q E)
    (hQ : ∀ a s', x s = .ok a s' → Q a s' → Q' a s') (hE : ∀ s', E s' → E' s') : Ends x s Q' E' := by
  unfold Ends at h ⊢
  cases hx : x s with
  | ok a s' =>
    rw [hx] at h
    exact hQ a s' hx h
  | error e s' =>
    rw [hx] at h
    exact hE s' h

theorem Ends.of_ensures (h : Ensures x s Q fun _ => False) : Ends x s Q E := by
  obtain ⟨a, s', hx, hQ⟩ := h.exists_ok
  rw [Ends, hx]
  exact hQ

/-- A replay asks for nothing and remembers nothing. What recurs in it is reported. -/
theorem ensures_replay_reported (o : Options) (p : Place) (f : Forest Float) (s : BuildState) :
    Ensures (replay o p f) s (fun g s' => s.Precedes s' ∧ s'.requests = s.requests
      ∧ s'.memo = s.memo ∧ s.Reported s' g.hits) fun _ => False := by
  induction f generalizing p s with
  | empty => exact ⟨.refl s, rfl, rfl, reported_nil s s⟩
  | grow call below rest ihb ihr =>
    rw [replay, ensures_bind, ensures_consider]
    cases p.refusal? o call.method call.callRatio with
    | some reason =>
      simp only [ensures_bind, ensures_pure]
      refine (ihr p (s.refuse p call.method reason)).mono ?_ fun _ => id
      rintro others s' ⟨hs', hrequests, hmemo, hhits⟩
      have hrefuse := s.precedes_refuse p call.method reason
      refine ⟨hrefuse.trans hs', hrequests, hmemo, .append ?_ ?_⟩
      · exact (s.reported_refuse p call.method reason).mono (since_subset_left hrefuse hs')
      · exact hhits.mono (since_subset_right hrefuse hs')
    | none =>
      simp only [ensures_bind, ensures_pure]
      have hfresh : s.Precedes { s with count := s.count + 1 } :=
        ⟨List.prefix_refl _, List.prefix_refl _, id⟩
      refine (ihb _ _).mono ?_ fun _ => id
      rintro grown s₁ ⟨hs₁, hrequests₁, hmemo₁, hhits₁⟩
      have hs₁ := hfresh.trans hs₁
      have hhits₁ : s.Reported s₁ grown.hits := hhits₁
      refine (ihr p s₁).mono ?_ fun _ => id
      rintro others s₂ ⟨hs₂, hrequests₂, hmemo₂, hhits₂⟩
      refine ⟨hs₁.trans hs₂, hrequests₂.trans hrequests₁, hmemo₂.trans hmemo₁, .append ?_ ?_⟩
      · exact hhits₁.mono (since_subset_left hs₁ hs₂)
      · exact hhits₂.mono (since_subset_right hs₁ hs₂)

end BuildM

/-! ## Beginning an expansion -/

namespace Builder

open BuildM BuildState

variable {b : Builder} {p : Place} {m : Method} {s s' : BuildState}

/-- The code of a method that is not remembered was requested. -/
structure Asks (b : Builder) (m : Method) (s s' : BuildState) : Prop where
  forgotten : b.reuse = true → s.memo.lookup m.id = none
  requests : s'.requests = s.requests ++ [m.id]

/-- What an expansion does before anything grows: it replays what is remembered, or it asks for the
    code, which is missing, fails or offers calls. -/
inductive Enters (b : Builder) (m : Method) (s s' : BuildState) :
    Expansion ⊕ Summary × List Offer → Prop where
  | replayed (e : Expansion) (hrequests : s'.requests = s.requests) (hmemo : s'.memo = s.memo)
      (hhits : s.Reported s' e.growth.hits) : Enters b m s s' (.inl e)
  | bare (e : Expansion) (hasks : b.Asks m s s') (hmemo : s'.memo = s.memo)
      (hcode : ∀ g, b.catalog.graph m ≠ .ok g) (hhits : e.growth.hits = []) : Enters b m s s' (.inl e)
  | failed (e : Expansion) (memo : Memo) (hasks : b.Asks m s s')
      (hmemo : s'.memo = s.memo ++ [(m.id, memo)]) (hhits : e.growth.hits = []) :
      Enters b m s s' (.inl e)
  | offers (summary : Summary) (offers : List Offer) (hasks : b.Asks m s s')
      (hmemo : s'.memo = s.memo) : Enters b m s s' (.inr (summary, offers))

theorem ends_withoutCode (p : Place) (m : Method) (reason : NoCode) (s : BuildState)
    (E : BuildState → Prop) :
    Ends (withoutCode p m reason) s (fun e s' => s.Precedes s' ∧ s'.requests = s.requests
      ∧ s'.memo = s.memo ∧ e.growth.hits = []) E := by
  have hreport (warnings : List String) :
      s.Precedes { s with warnings, events := s.events ++ [.noCode p.id m.id reason] } :=
    .of_quiet [.noCode p.id m.id reason] (List.prefix_refl _) rfl rfl (by simp)
  cases reason with
  | unavailable method => exact ⟨hreport _, rfl, rfl, rfl⟩
  | broken reason => exact ⟨hreport _, rfl, rfl, rfl⟩

/-- A failure is remembered, or it ends the build at once. -/
theorem ends_afterFailure (p : Place) (m : Method) (fault : RunFault) (s : BuildState) :
    Ends (afterFailure p m fault) s (fun e s' => s.Precedes s' ∧ s'.requests = s.requests
      ∧ (∃ memo, s'.memo = s.memo ++ [(m.id, memo)]) ∧ e.growth.hits = []) fun s' => s' = s := by
  cases fault with
  | cancelled => rfl
  | start e => rfl
  | mismatch e => rfl
  | instruction method ins e =>
    rw [afterFailure]
    split
    · exact ends_throw.2 rfl
    · refine ⟨?_, rfl, ⟨_, rfl⟩, rfl⟩
      exact .of_quiet [.failed p.id m.id _] (List.prefix_refl _) rfl rfl (by simp)

theorem ends_enter (b : Builder) (p : Place) (m : Method) (s : BuildState) :
    Ends (b.enter p m) s (fun r s' => s.Precedes s' ∧ b.Enters m s s' r) fun s' =>
      s.Precedes s' ∧ s'.memo = s.memo ∧ (s'.requests = s.requests ∨ b.Asks m s s') := by
  rw [enter, isCancelled]
  simp only [ends_bind, ends_get, ends_pure]
  cases b.catalog.cancelled s.requests.length with
  | true => exact ⟨.refl s, rfl, .inl rfl⟩
  | false =>
    simp only [Bool.false_eq_true, if_false, remembered?, ends_bind, ends_get, ends_pure]
    cases hmemo : (if b.reuse = true then s.memo.lookup m.id else none) with
    | some memo =>
      simp only [report, ends_bind, ends_modify, ends_pure]
      refine (Ends.of_ensures (ensures_replay_reported ..)).mono ?_ fun _ h => h
      rintro growth s' - ⟨hs', hrequests, hmemo', hhits⟩
      have hreused : s.Precedes { s with events := s.events ++ [.reused p.id m.id memo.source] } :=
        .of_quiet [.reused p.id m.id memo.source] (List.prefix_refl _) rfl rfl (by simp)
      refine ⟨hreused.trans hs', .replayed _ hrequests hmemo' ?_⟩
      exact hhits.mono (since_subset_right hreused hs')
    | none =>
      have hforgotten : b.reuse = true → s.memo.lookup m.id = none := fun hreuse => by
        rwa [if_pos hreuse] at hmemo
      simp only [request, ends_bind, ends_modify, ends_pure]
      cases hg : b.catalog.graph m with
      | error reason =>
        have hasked : s.Precedes { s with requests := s.requests ++ [m.id] } :=
          ⟨List.prefix_append _ _, List.prefix_refl _, id⟩
        refine ends_bind.2 ((ends_withoutCode p m reason _ _).mono ?_ fun _ h => h)
        rintro e s' - ⟨hs', hrequests, hmemo', hhits⟩
        have hcode : ∀ g, b.catalog.graph m ≠ .ok g := by simp [hg]
        exact ⟨hasked.trans hs', .bare e ⟨hforgotten, hrequests⟩ hmemo' hcode hhits⟩
      | ok g =>
        simp only [analyse, isCancelled, ends_bind, ends_get, ends_pure]
        refine .of_ensures (ensures_reports ?_)
        generalize Subject.run _ g _ = run
        let asked : BuildState := { s with
          requests := s.requests ++ [m.id]
          events := s.events ++ run.events.map (.analysis m.id) }
        have hasked : s.Precedes asked :=
          .of_quiet (run.events.map (.analysis m.id)) (List.prefix_append _ _) rfl rfl (by simp)
        cases run.outcome with
        | error fault =>
          refine ends_bind.2 ((ends_afterFailure p m fault asked).mono ?_ ?_)
          · rintro e s' - ⟨hs', hrequests, ⟨memo, hmemo'⟩, hhits⟩
            exact ⟨hasked.trans hs', .failed e memo ⟨hforgotten, hrequests⟩ hmemo' hhits⟩
          · rintro _ rfl
            exact ⟨hasked, rfl, .inr ⟨hforgotten, rfl⟩⟩
        | ok r =>
          simp only [ends_bind, report, ends_modify, ends_pure]
          refine .of_ensures (ensures_warnings ?_)
          refine ⟨hasked.trans ?_, .offers _ _ ⟨hforgotten, rfl⟩ rfl⟩
          exact .of_quiet [.summarized p.id m.id _ _] (List.prefix_refl _) rfl rfl (by simp)

/-- When the offers have grown, either the expansion is remembered, or its growth was cut. -/
theorem ensures_leave (p : Place) (m : Method) (summary : Summary) (growth : Growth)
    (s : BuildState) :
    Ensures (leave p m summary growth) s (fun e s' => s.Precedes s' ∧ s'.requests = s.requests
      ∧ e.growth = growth ∧ ((∃ memo, s'.memo = s.memo ++ [(m.id, memo)])
        ∨ s'.memo = s.memo ∧ .cut p.id m.id ∈ s.since s' ∧ ∃ y ∈ p.above, y ∈ growth.hits))
      fun _ => False := by
  unfold leave
  dsimp only
  split
  case isTrue hcut =>
    simp only [report, ensures_bind, ensures_modify, ensures_pure]
    refine ⟨.of_quiet [.cut p.id m.id] (List.prefix_refl _) rfl rfl (by simp), trivial, rfl,
      .inr ⟨trivial, ?_, ?_⟩⟩
    · rw [since, List.drop_left]
      exact List.mem_singleton_self _
    · obtain ⟨y, hy, habove⟩ := List.any_eq_true.1 hcut
      exact ⟨y, by simpa using habove, hy⟩
  case isFalse =>
    exact ⟨.of_quiet [] (List.prefix_refl _) rfl (List.append_nil _).symm (by simp), rfl, rfl,
      .inl ⟨_, rfl⟩⟩

/-! ## The expansions of a build -/

/-- With fuel `n` left a build begins the expansion `o`, and those of the stack `os` are under way:
    the first of them opens `o` when the offers before its call have grown. -/
inductive Begins (b : Builder) (root : Method) (budget : Int) : (n : Nat) → (o : Opening) →
    (os : List Opening) → Prop where
  | first : Begins b root budget b.catalog.reach (.first root budget) []
  | push (n : Nat) (o : Opening) (os : List Opening) (summary : Summary) (before after : List Offer)
      (site : CallSite) (ratio : Float) (callee : Method) (g : Growth) (s s' : BuildState)
      (hbegins : Begins b root budget (n + 1) o os)
      (henter : b.enter o.place o.method o.state
        = .ok (.inr (summary, before ++ .call site ratio callee :: after)) s)
      (hgrow : b.growOffers (b.expand n) o.place before s = .ok g s')
      (hnone : o.place.refusal? b.options callee ratio = none) :
      Begins b root budget n
        ⟨o.place.child s'.count callee ratio, callee, { s' with count := s'.count + 1 }⟩ (o :: os)

variable {root : Method} {budget : Int} {n : Nat} {o : Opening} {os : List Opening}

theorem Begins.path_eq (h : b.Begins root budget n o os) :
    o.place.path = o.method.id :: os.map (·.method.id) := by
  induction h with
  | first => rfl
  | push n o os _ _ _ _ _ callee _ _ _ _ _ _ _ ih =>
    rw [List.map_cons, ← ih]
    rfl

theorem Begins.above_eq (h : b.Begins root budget n o os) :
    o.place.above = os.map (·.method.id) := by
  rw [Place.above, h.path_eq, List.tail_cons]

/-- A method is not opened below itself. -/
theorem Begins.notMem_above (h : b.Begins root budget n o os) : o.method.id ∉ o.place.above := by
  cases h with
  | first => exact List.not_mem_nil
  | push n o os _ _ _ _ _ callee _ _ _ _ _ _ hnone => exact (Place.refusal?_eq_none_iff.1 hnone).2.1

/-- The expansion that asked for the code of method `x` with request `i` is over before request `j`.
    It was cut, since a call below it would have recurred to a method above it. -/
def CutShort (b : Builder) (root : Method) (budget : Int) (x : MethodId) (i j : Nat)
    (s : BuildState) : Prop :=
  ∃ n o os e s', b.Begins root budget n o os
    ∧ o.method.id = x ∧ o.state.memo.lookup x = none ∧ o.state.requests.length = i
    ∧ b.expand n o.place o.method o.state = .ok e s' ∧ s'.requests.length ≤ j ∧ s'.Precedes s
    ∧ .cut o.place.id x ∈ o.state.since s'
    ∧ ∃ y ∈ os.map (·.method.id), ∃ q, .pruned q y .recursion ∈ o.state.since s'

theorem CutShort.mono {x : MethodId} {i j j' : Nat} (h : b.CutShort root budget x i j s)
    (hj : j ≤ j') (hs : s.Precedes s') : b.CutShort root budget x i j' s' := by
  obtain ⟨n, o, os, e, s₁, hbegins, hid, hforgotten, hi, hexpand, hle, hprecedes, hcut⟩ := h
  exact ⟨n, o, os, e, s₁, hbegins, hid, hforgotten, hi, hexpand,
    Nat.le_trans hle hj, hprecedes.trans hs, hcut⟩

/-! ## What growth keeps -/

/-- A method of the program has code. -/
def HasCode (prog : Program) (x : MethodId) : Prop := (prog.graph? x).isSome

variable {prog : Program} {under : List MethodId}

theorem exists_graph (hserves : b.catalog.Serves prog) (h : HasCode prog m.id) :
    ∃ g, b.catalog.graph m = .ok g := by
  obtain ⟨g, hg⟩ := Option.isSome_iff_exists.1 h
  refine ⟨g, ?_⟩
  rw [hserves.graph_eq]
  simp only [Program.catalog, Program.codeOf, hg]

/-- If code was requested twice, then what the first request was for was cut. -/
def Justified (b : Builder) (prog : Program) (root : Method) (budget : Int) (s : BuildState) : Prop :=
  ∀ x, HasCode prog x → ∀ i j, i < j → s.requests[i]? = some x → s.requests[j]? = some x →
    b.CutShort root budget x i j s

/-- What holds of the records while the methods `under` are being expanded. Code that was requested
    is that of one of them, or remembered, or its expansion was cut. -/
structure Sound (b : Builder) (prog : Program) (root : Method) (budget : Int)
    (under : List MethodId) (s : BuildState) : Prop where
  justified : b.Justified prog root budget s
  explained : ∀ x, HasCode prog x → ∀ i, s.requests[i]? = some x →
    x ∈ under ∨ (s.memo.lookup x).isSome ∨ b.CutShort root budget x i s.requests.length s

/-- Steps that are sound and request no code of the methods `under`. -/
structure Kept (b : Builder) (prog : Program) (root : Method) (budget : Int)
    (under : List MethodId) (s s' : BuildState) : Prop where
  precedes : s.Precedes s'
  fresh : ∀ x ∈ s'.requests.drop s.requests.length, x ∉ under
  sound : b.Sound prog root budget under s'

theorem Justified.step (h : b.Justified prog root budget s) (hs : s.Precedes s')
    (hrequests : s'.requests = s.requests) : b.Justified prog root budget s' := by
  intro x hx i j hij hi hj
  rw [hrequests] at hi hj
  exact (h x hx i j hij hi hj).mono (Nat.le_refl j) hs

theorem isSome_lookup_mono {memo memo' : List (MethodId × Memo)} {x : MethodId}
    (hmemo : memo <+: memo') (h : (memo.lookup x).isSome) : (memo'.lookup x).isSome := by
  obtain ⟨later, rfl⟩ := hmemo
  rw [List.lookup_append, Option.isSome_or, h, Bool.true_or]

theorem Sound.step (h : b.Sound prog root budget under s) (hs : s.Precedes s')
    (hrequests : s'.requests = s.requests)
    (hmemo : s.memo <+: s'.memo) :
    b.Sound prog root budget under s' where
  justified := h.justified.step hs hrequests
  explained x hx i hi := by
    rw [hrequests] at hi ⊢
    refine (h.explained x hx i hi).imp_right fun hcases => ?_
    exact hcases.imp (isSome_lookup_mono hmemo) fun hcut => hcut.mono (Nat.le_refl _) hs

theorem Kept.trans {s'' : BuildState} (h : b.Kept prog root budget under s s')
    (h' : b.Kept prog root budget under s' s'') : b.Kept prog root budget under s s'' where
  precedes := h.precedes.trans h'.precedes
  fresh := by
    obtain ⟨asked, hasked⟩ := h.precedes.requests
    obtain ⟨asked', hasked'⟩ := h'.precedes.requests
    have hfresh := h.fresh
    have hfresh' := h'.fresh
    rw [← hasked, List.drop_left] at hfresh
    rw [← hasked', List.drop_left] at hfresh'
    rw [← hasked', ← hasked, List.append_assoc, List.drop_left]
    exact List.forall_mem_append.2 ⟨hfresh, hfresh'⟩
  sound := h'.sound

theorem Kept.of_requests_eq (hs : s.Precedes s') (hrequests : s'.requests = s.requests)
    (h : b.Sound prog root budget under s') : b.Kept prog root budget under s s' := by
  refine ⟨hs, fun x hx => ?_, h⟩
  rw [hrequests, List.drop_length] at hx
  cases hx

/-- A method that is not under way and not remembered asks for its code. Earlier requests of it were
    for expansions that were cut. -/
theorem Sound.ask (h : b.Sound prog root budget under s) (hs : s.Precedes s')
    (hnew : m.id ∉ under) (hnone : s.memo.lookup m.id = none)
    (hrequests : s'.requests = s.requests ++ [m.id])
    (hmemo : s.memo <+: s'.memo) :
    b.Sound prog root budget (m.id :: under) s' := by
  have hold {x : MethodId} {i : Nat} (hi : s'.requests[i]? = some x) :
      s.requests[i]? = some x ∨ i = s.requests.length ∧ x = m.id := by
    rw [hrequests] at hi
    rcases Nat.lt_or_ge i s.requests.length with hlt | hge
    · rw [List.getElem?_append_left hlt] at hi
      exact .inl hi
    · rw [List.getElem?_append_right hge, List.getElem?_singleton] at hi
      split at hi
      · cases hi
        exact .inr ⟨by omega, rfl⟩
      · cases hi
  have hlength : s.requests.length ≤ s'.requests.length := by simp [hrequests]
  refine ⟨fun x hx i j hij hi hj => ?_, fun x hx i hi => ?_⟩
  · rcases hold hj with hj | ⟨rfl, rfl⟩
    · have hi : s.requests[i]? = some x := by
        have hjlt : j < s.requests.length := (List.getElem?_eq_some_iff.1 hj).1
        rcases hold hi with hi | ⟨rfl, -⟩
        · exact hi
        · omega
      exact (h.justified x hx i j hij hi hj).mono (Nat.le_refl j) hs
    · rcases hold hi with hi | ⟨rfl, -⟩
      · rcases h.explained _ hx i hi with hunder | hsome | hcut
        · exact absurd hunder hnew
        · rw [hnone] at hsome
          cases hsome
        · exact hcut.mono (Nat.le_refl _) hs
      · exact absurd hij (Nat.lt_irrefl _)
  · rcases hold hi with hi | ⟨-, rfl⟩
    · rcases h.explained x hx i hi with hunder | hsome | hcut
      · exact .inl (List.mem_cons_of_mem _ hunder)
      · exact .inr (.inl (isSome_lookup_mono hmemo hsome))
      · exact .inr (.inr (hcut.mono hlength hs))
    · exact .inl List.mem_cons_self

theorem Kept.of_ask (hs : s.Precedes s') (hnew : m.id ∉ under)
    (hrequests : s'.requests = s.requests ++ [m.id]) (h : b.Sound prog root budget under s') :
    b.Kept prog root budget under s s' := by
  refine ⟨hs, fun x hx => ?_, h⟩
  rw [hrequests, List.drop_left] at hx
  rwa [List.mem_singleton.1 hx]

/-- Below a method that has asked for its code, no method under way asks again. -/
theorem Kept.fresh_of_ask {s₁ : BuildState} (h : b.Kept prog root budget (m.id :: under) s₁ s')
    (hnew : m.id ∉ under) (hrequests : s₁.requests = s.requests ++ [m.id]) :
    ∀ x ∈ s'.requests.drop s.requests.length, x ∉ under := by
  obtain ⟨asked, hasked⟩ := h.precedes.requests
  have hfresh := h.fresh
  rw [← hasked, List.drop_left] at hfresh
  rw [← hasked, hrequests, List.append_assoc, List.drop_left]
  refine List.forall_mem_cons.2 ⟨hnew, fun x hx hunder => ?_⟩
  exact hfresh x hx (List.mem_cons_of_mem _ hunder)

theorem isSome_lookup_snoc (memo : List (MethodId × Memo)) (x : MethodId) (last : Memo) :
    ((memo ++ [(x, last)]).lookup x).isSome := by
  rw [List.lookup_append, Option.isSome_or, List.lookup_cons_self, Option.isSome_some, Bool.or_true]

/-- The expansion of a method that is remembered or was cut is over. -/
theorem Sound.leave {x : MethodId} (h : b.Sound prog root budget (x :: under) s)
    (hx : HasCode prog x → ∀ i, s.requests[i]? = some x →
      (s.memo.lookup x).isSome ∨ b.CutShort root budget x i s.requests.length s) :
    b.Sound prog root budget under s where
  justified := h.justified
  explained y hy i hi := by
    rcases h.explained y hy i hi with hunder | hcases
    · rcases List.mem_cons.1 hunder with rfl | hunder
      · exact .inr (hx hy i hi)
      · exact .inl hunder
    · exact .inr hcases

/-! ## One offer, all offers -/

/-- How an expander has to answer an expansion that begins: soundly, and with a report of all that
    recurs. -/
def Answered (b : Builder) (prog : Program) (root : Method) (budget : Int) (n : Nat) : Prop :=
  ∀ o os, b.Begins root budget n o os → b.Sound prog root budget o.place.above o.state →
    Ends (b.expand n o.place o.method) o.state (fun e s' =>
      b.Kept prog root budget o.place.above o.state s' ∧ o.state.Reported s' e.growth.hits)
      (b.Justified prog root budget)

theorem growOffers_snoc {expand : Expander} {before : List Offer} {offer : Offer} {g g' : Growth}
    {s₁ s₂ s₃ : BuildState} (hbefore : b.growOffers expand p before s₁ = .ok g s₂)
    (hoffer : b.growOffers expand p [offer] s₂ = .ok g' s₃) :
    b.growOffers expand p (before ++ [offer]) s₁ = .ok (g.append g') s₃ := by
  rw [growOffers_append]
  simp only [bind, EStateM.bind, hbefore, hoffer]
  rfl

theorem ends_growOffer (hanswered : b.Answered prog root budget n) {before after : List Offer}
    {offer : Offer} {summary : Summary} {g : Growth} {s₁ : BuildState}
    (hbegins : b.Begins root budget (n + 1) o os)
    (henter : b.enter o.place o.method o.state = .ok (.inr (summary, before ++ offer :: after)) s₁)
    (hgrow : b.growOffers (b.expand n) o.place before s₁ = .ok g s)
    (hs : b.Sound prog root budget o.place.path s) :
    Ends (b.growOffers (b.expand n) o.place [offer]) s (fun g' s' =>
      b.Kept prog root budget o.place.path s s' ∧ s.Reported s' g'.hits)
      (b.Justified prog root budget) := by
  cases offer with
  | call site ratio callee =>
    rw [growOffers, ends_bind]
    refine .of_ensures (ensures_consider.2 ?_)
    cases hrefusal : o.place.refusal? b.options callee ratio with
    | some reason =>
      have hrefuse := s.precedes_refuse o.place callee reason
      refine ⟨.of_requests_eq hrefuse rfl (hs.step hrefuse rfl (List.prefix_refl _)), ?_⟩
      exact .append (s.reported_refuse o.place callee reason) (reported_nil _ _)
    | none =>
      have hfresh : s.Precedes { s with count := s.count + 1 } :=
        ⟨List.prefix_refl _, List.prefix_refl _, id⟩
      have hsound := hs.step hfresh rfl (List.prefix_refl _)
      have hpush := hbegins.push _ _ _ _ _ _ _ _ _ _ _ _ henter hgrow hrefusal
      refine ends_bind.2 ((hanswered _ _ hpush hsound).mono ?_ fun _ => id)
      rintro e s₂ - ⟨hkept, hhits⟩
      exact ⟨(Kept.of_requests_eq hfresh rfl hsound).trans hkept,
        .append hhits (reported_nil _ _)⟩
  | dropped reason calls warning =>
    have hdropped : s.Precedes { s with
        pruned := s.pruned ++ List.replicate calls reason
        warnings := s.warnings ++ warning.toList } :=
      ⟨List.prefix_refl _, List.prefix_refl _, fun h q y hmem => List.mem_append_left _ (h q y hmem)⟩
    refine .of_ensures (ensures_growOffers_dropped.2 ?_)
    have hsound := hs.step hdropped rfl (List.prefix_refl _)
    exact ⟨.of_requests_eq hdropped rfl hsound, reported_nil _ _⟩
  | endless => exact hs.justified

theorem ends_growOffers (hanswered : b.Answered prog root budget n) (before offers : List Offer)
    {summary : Summary} {g : Growth} {s₁ : BuildState}
    (hbegins : b.Begins root budget (n + 1) o os)
    (henter : b.enter o.place o.method o.state = .ok (.inr (summary, before ++ offers)) s₁)
    (hgrow : b.growOffers (b.expand n) o.place before s₁ = .ok g s)
    (hs : b.Sound prog root budget o.place.path s) :
    Ends (b.growOffers (b.expand n) o.place offers) s (fun g' s' =>
      b.Kept prog root budget o.place.path s s' ∧ s.Reported s' g'.hits)
      (b.Justified prog root budget) := by
  induction offers generalizing before g s with
  | nil => exact ⟨.of_requests_eq (.refl s) rfl hs, reported_nil s s⟩
  | cons offer offers ih =>
    rw [← List.singleton_append, growOffers_append, ends_bind]
    refine (ends_growOffer hanswered hbegins henter hgrow hs).mono ?_ fun _ => id
    rintro first s₂ hfirst ⟨hkept, hhits⟩
    rw [ends_bind]
    rw [List.append_cons] at henter
    refine (ih _ henter (growOffers_snoc hgrow hfirst) hkept.sound).mono ?_ fun _ => id
    rintro others s₃ - ⟨hkept', hhits'⟩
    refine ⟨hkept.trans hkept', .append ?_ ?_⟩
    · exact hhits.mono (since_subset_left hkept.precedes hkept'.precedes)
    · exact hhits'.mono (since_subset_right hkept.precedes hkept'.precedes)

/-! ## Expansions -/

/-- An expansion goes through its parts. -/
theorem expand_of_parts {summary : Summary} {offers : List Offer} {growth : Growth} {e : Expansion}
    {s₁ s₂ s₃ : BuildState} (henter : b.enter p m s = .ok (.inr (summary, offers)) s₁)
    (hgrow : b.growOffers (b.expand n) p offers s₁ = .ok growth s₂)
    (hleave : leave p m summary growth s₂ = .ok e s₃) : b.expand (n + 1) p m s = .ok e s₃ := by
  rw [expand_succ]
  simp only [bind, EStateM.bind, henter, hgrow, hleave]

/-- If the growth of an expansion is cut, then all requests for its method were for expansions that
    were cut: earlier ones, since there was another request then, and the last one, its own. -/
theorem cutShort_of_cut {s₁ s₂ s₃ : BuildState} {e : Expansion}
    (hbegins : b.Begins root budget (n + 1) o os) (hcode : HasCode prog o.method.id)
    (hnone : o.state.memo.lookup o.method.id = none)
    (hrequests₁ : s₁.requests = o.state.requests ++ [o.method.id])
    (hs₁ : o.state.Precedes s₁) (hjustified : b.Justified prog root budget s₁)
    (hkept : b.Kept prog root budget o.place.path s₁ s₂) (hs₃ : s₂.Precedes s₃)
    (hrequests₃ : s₃.requests = s₂.requests)
    (hexpand : b.expand (n + 1) o.place o.method o.state = .ok e s₃)
    (hcut : .cut o.place.id o.method.id ∈ s₂.since s₃)
    (hhit : ∃ y ∈ o.place.above, ∃ q, .pruned q y .recursion ∈ s₁.since s₂) {i : Nat}
    (hi : s₃.requests[i]? = some o.method.id) :
    b.CutShort root budget o.method.id i s₃.requests.length s₃ := by
  have hs₁₃ := hkept.precedes.trans hs₃
  obtain ⟨asked, hasked⟩ := hkept.precedes.requests
  have hlength₁ : s₁.requests.length = o.state.requests.length + 1 := by simp [hrequests₁]
  have hlength₃ : s₁.requests.length ≤ s₃.requests.length := hs₁₃.requests.length_le
  have hi' := hi
  rw [hrequests₃, ← hasked] at hi'
  rcases Nat.lt_or_ge i s₁.requests.length with hlt | hge
  · rw [List.getElem?_append_left hlt] at hi'
    rcases Nat.lt_or_ge i o.state.requests.length with hearlier | hown
    · have hlast : s₁.requests[o.state.requests.length]? = some o.method.id := by
        rw [hrequests₁, List.getElem?_concat_length]
      exact (hjustified _ hcode i _ hearlier hi' hlast).mono (by omega) hs₁₃
    · obtain rfl : o.state.requests.length = i := by omega
      obtain ⟨y, hy, q, hq⟩ := hhit
      have hs₂ := hs₁.trans hkept.precedes
      refine ⟨n + 1, o, os, e, s₃, hbegins, rfl, hnone, rfl, hexpand, Nat.le_refl _, .refl s₃,
        since_subset_right hs₂ hs₃ hcut, y, hbegins.above_eq ▸ hy, q, ?_⟩
      exact since_subset_left hs₂ hs₃ (since_subset_right hs₁ hkept.precedes hq)
  · -- a method that is being expanded is not asked for below
    rw [List.getElem?_append_right hge] at hi'
    have hfresh := hkept.fresh
    rw [← hasked, List.drop_left] at hfresh
    refine absurd ?_ (hfresh _ (List.mem_of_getElem? hi'))
    rw [hbegins.path_eq]
    exact List.mem_cons_self

/-- An expansion with offers grows them soundly, and is then remembered, or it was cut. -/
theorem ends_growth (hanswered : b.Answered prog root budget n) {summary : Summary}
    {offers : List Offer} {s₁ : BuildState} (hbegins : b.Begins root budget (n + 1) o os)
    (henter : b.enter o.place o.method o.state = .ok (.inr (summary, offers)) s₁)
    (hnone : o.state.memo.lookup o.method.id = none)
    (hrequests : s₁.requests = o.state.requests ++ [o.method.id]) (hs₁ : o.state.Precedes s₁)
    (hs : b.Sound prog root budget (o.method.id :: o.place.above) s₁) :
    Ends (b.growOffers (b.expand n) o.place offers >>= leave o.place o.method summary) s₁
      (fun e s' => b.Kept prog root budget o.place.above o.state s'
        ∧ o.state.Reported s' e.growth.hits)
      (b.Justified prog root budget) := by
  have hpath : o.place.path = o.method.id :: o.place.above := by
    rw [hbegins.above_eq, hbegins.path_eq]
  rw [ends_bind]
  refine (ends_growOffers hanswered [] offers hbegins henter rfl (hpath ▸ hs)).mono ?_ fun _ => id
  rintro growth s₂ hgrow ⟨hkept, hhits⟩
  refine (Ends.of_ensures (ensures_leave ..)).mono ?_ fun _ => id
  rintro e s₃ hleave ⟨hs₃, hrequests₃, rfl, hcases⟩
  have hs₂ := hs₁.trans hkept.precedes
  have hmemo : s₂.memo <+: s₃.memo := by
    rcases hcases with ⟨memo, hmemo⟩ | ⟨hmemo, -⟩
    · exact hmemo ▸ List.prefix_append _ _
    · exact hmemo ▸ List.prefix_refl _
  have hsound := hkept.sound.step hs₃ hrequests₃ hmemo
  rw [hpath] at hsound
  refine ⟨⟨hs₂.trans hs₃, ?_, hsound.leave fun hcode i hi => ?_⟩, ?_⟩
  · rw [hrequests₃]
    exact (hpath ▸ hkept).fresh_of_ask hbegins.notMem_above hrequests
  · rcases hcases with ⟨memo, hmemo⟩ | ⟨-, hcut, y, hy, hmem⟩
    · rw [hmemo]
      exact .inl (isSome_lookup_snoc _ _ _)
    · exact .inr (cutShort_of_cut hbegins hcode hnone hrequests hs₁ hs.justified hkept hs₃ hrequests₃
        (expand_of_parts henter hgrow hleave) hcut ⟨y, hy, hhits y hmem⟩ hi)
  · refine (hhits.mono (since_subset_right hs₁ hkept.precedes)).mono ?_
    exact since_subset_left hs₂ hs₃

/-- Every expansion is sound: what asks for code is not under way, and what asked for it before was
    cut. -/
theorem answered (hserves : b.catalog.Serves prog) (hreuse : b.reuse = true) (root : Method)
    (budget : Int) (n : Nat) : b.Answered prog root budget n := by
  induction n with
  | zero => exact fun o os _ hs => hs.justified
  | succ n ih =>
    intro o os hbegins hs
    have hnew := hbegins.notMem_above
    have hask {s' : BuildState} (hs' : o.state.Precedes s') (hasks : b.Asks o.method o.state s')
        (hmemo : o.state.memo <+: s'.memo) :=
      hs.ask hs' hnew (hasks.forgotten hreuse) hasks.requests hmemo
    rw [expand_succ, ends_bind]
    refine (ends_enter b o.place o.method o.state).mono ?_ ?_
    · rintro r s₁ henter ⟨hs₁, hcases⟩
      cases hcases with
      | replayed e hrequests hmemo hhits =>
        have hsound := hs.step hs₁ hrequests (hmemo ▸ List.prefix_refl _)
        exact ⟨.of_requests_eq hs₁ hrequests hsound, hhits⟩
      | bare e hasks hmemo hcode hhits =>
        have hsound := hask hs₁ hasks (hmemo ▸ List.prefix_refl _)
        refine ⟨.of_ask hs₁ hnew hasks.requests (hsound.leave fun hx => ?_), ?_⟩
        · obtain ⟨g, hg⟩ := exists_graph hserves hx
          exact absurd hg (hcode g)
        · rw [hhits]
          exact reported_nil _ _
      | failed e memo hasks hmemo hhits =>
        have hsound := hask hs₁ hasks (hmemo ▸ List.prefix_append _ _)
        refine ⟨.of_ask hs₁ hnew hasks.requests (hsound.leave fun _ _ _ => .inl ?_), ?_⟩
        · rw [hmemo]
          exact isSome_lookup_snoc _ _ _
        · rw [hhits]
          exact reported_nil _ _
      | offers summary offers hasks hmemo =>
        have hsound := hask hs₁ hasks (hmemo ▸ List.prefix_refl _)
        exact ends_growth ih hbegins henter (hasks.forgotten hreuse) hasks.requests hs₁ hsound
    · rintro s' ⟨hs', hmemo, hrequests | hasks⟩
      · exact hs.justified.step hs' hrequests
      · exact (hask hs' hasks (hmemo ▸ List.prefix_refl _)).justified

/-! ## Builds -/

theorem sound_start (root : Method) (budget : Int) :
    b.Sound prog root budget (Opening.first root budget).place.above (start root budget) where
  justified := by
    intro _ _ _ _ _ hi
    cases hi
  explained := by
    intro _ _ _ hi
    cases hi

theorem counted_start (root : Method) (budget : Int) : (start root budget).Counted := by
  intro q y hmem
  cases List.mem_singleton.1 hmem

/-- All code that a build requests twice is justified, however it ends. What a finished build reports
    as pruned is counted. -/
theorem justified_build (hserves : b.catalog.Serves prog) (hreuse : b.reuse = true) (root : Method)
    (budget : Int) : b.Justified prog root budget (b.build (some root) budget).state
      ∧ ∀ t, (b.build (some root) budget).outcome = .ok t →
        (b.build (some root) budget).state.Counted := by
  have hfirst := answered hserves hreuse root budget b.catalog.reach _ _ .first
    (sound_start root budget)
  simp only [Opening.first, Ends] at hfirst
  rw [build_eq]
  cases hexpand : b.expand b.catalog.reach (rootPlace root budget) root (start root budget) with
  | error f s =>
    rw [hexpand] at hfirst
    exact ⟨hfirst, by rintro t ⟨⟩⟩
  | ok e s =>
    rw [hexpand] at hfirst
    have hfinished : s.Precedes { s with
        events := s.events ++ [.finished s.count s.memo.length s.warnings.length] } :=
      .of_quiet [.finished s.count s.memo.length s.warnings.length] (List.prefix_refl _) rfl rfl
        (by simp)
    refine ⟨hfirst.1.sound.justified.step hfinished rfl, fun t _ => hfinished.counted ?_⟩
    exact hfirst.1.precedes.counted (counted_start root budget)

end Builder

/-- A build that reuses expansions asks for the code of a method once, unless recursion forbids it to
    reuse. However it ends, if it asked for the code of a method twice, then what it asked for first
    was finished by the second time, and it was cut: a call below it had been pruned since it would
    have recurred to a method above it. A finished build that pruned nothing for recursion asked for
    no code twice. -/
theorem code_requested_once {prog : Program} {b : Builder} (hserves : b.catalog.Serves prog)
    (hreuse : b.reuse = true) (root : Method) (budget : Int) :
    (∀ t, (b.build (some root) budget).outcome = .ok t →
        (b.build (some root) budget).state.prunedFor .recursion = 0 →
        ∀ x, (prog.graph? x).isSome → (b.build (some root) budget).state.requests.count x ≤ 1)
      ∧ ∀ x, (prog.graph? x).isSome → ∀ i j, i < j →
        (b.build (some root) budget).state.requests[i]? = some x →
        (b.build (some root) budget).state.requests[j]? = some x →
        b.CutShort root budget x i j (b.build (some root) budget).state := by
  obtain ⟨hjustified, hcounted⟩ := b.justified_build hserves hreuse root budget
  refine ⟨fun t ht hpruned x hx => ?_, hjustified⟩
  by_contra htwice
  obtain ⟨i, j, hij, hi, hj⟩ := List.duplicate_iff_exists_distinct_get.1
    (List.duplicate_iff_two_le_count.2 (Nat.not_le.1 htwice))
  obtain ⟨_, o, _, _, s', -, -, -, -, -, -, hprecedes, -, y, -, q, hq⟩ :=
    hjustified x hx i j hij (by simp [hi]) (by simp [hj])
  have hmem := hcounted t ht q y (hprecedes.events.subset (List.mem_of_mem_drop hq))
  exact List.count_eq_zero.1 hpruned hmem

/-! ## Two methods that call each other -/

def seesaw : Program := .ofMethods
  [.calling "root" 1 ["ping", "pong", "ping"], .calling "ping" 1 ["pong", "leaf"],
    .calling "pong" 1 ["ping"], .calling "leaf" 1 []]

/-- The methods of `seesaw` without the call back. -/
def slope : Program := .ofMethods
  [.calling "root" 1 ["ping", "pong", "ping"], .calling "ping" 1 ["pong", "leaf"],
    .calling "pong" 1 ["leaf"], .calling "leaf" 1 []]

/-- In `seesaw` the code of `pong` is requested below `ping` and again below the root; the call back had
    cut the first expansion. In `slope` every request is for another method. -/
theorem code_requested_once_seesaw : ∃ root root',
    seesaw.method? "t/A.root()V" = some root ∧ slope.method? "t/A.root()V" = some root'
    ∧ (Builder.build { catalog := seesaw.catalog } (some root) 100).state.requests
      = ["t/A.root()V", "t/A.ping()V", "t/A.pong()V", "t/A.leaf()V", "t/A.pong()V"]
    ∧ Builder.CutShort { catalog := seesaw.catalog } root 100 "t/A.pong()V" 2 4
      (Builder.build { catalog := seesaw.catalog } (some root) 100).state
    ∧ (Builder.build { catalog := slope.catalog } (some root') 100).state.requests
      = ["t/A.root()V", "t/A.ping()V", "t/A.pong()V", "t/A.leaf()V"]
    ∧ (Builder.build { catalog := slope.catalog } (some root') 100).state.requests.count
      "t/A.leaf()V" ≤ 1 := by
  have hview : (seesaw.method? "t/A.root()V").isSome ∧ (slope.method? "t/A.root()V").isSome
      ∧ (seesaw.graph? "t/A.pong()V").isSome ∧ (slope.graph? "t/A.leaf()V").isSome
      ∧ (Builder.build { catalog := seesaw.catalog } (seesaw.method? "t/A.root()V") 100).state.requests
        = ["t/A.root()V", "t/A.ping()V", "t/A.pong()V", "t/A.leaf()V", "t/A.pong()V"]
      ∧ (Builder.build { catalog := slope.catalog } (slope.method? "t/A.root()V") 100).state.requests
        = ["t/A.root()V", "t/A.ping()V", "t/A.pong()V", "t/A.leaf()V"]
      ∧ (Builder.build { catalog := slope.catalog } (slope.method? "t/A.root()V")
        100).outcome.toOption.map (·.size) = some 11
      ∧ (Builder.build { catalog := slope.catalog } (slope.method? "t/A.root()V")
        100).state.prunedFor .recursion = 0 := by
    decide +kernel
  obtain ⟨hroot, hroot', hpong, hleaf, hrequests, hrequests', hsize, hpruned⟩ := hview
  obtain ⟨root, hroot⟩ := Option.isSome_iff_exists.1 hroot
  obtain ⟨root', hroot'⟩ := Option.isSome_iff_exists.1 hroot'
  rw [hroot] at hrequests
  rw [hroot'] at hrequests' hsize hpruned
  obtain ⟨t, ht, -⟩ := Build.exists_tree hsize
  obtain ⟨-, hcut⟩ := code_requested_once (b := { catalog := seesaw.catalog })
    (.of_eq rfl : seesaw.catalog.Serves seesaw) rfl root 100
  obtain ⟨honce, -⟩ := code_requested_once (b := { catalog := slope.catalog })
    (.of_eq rfl : slope.catalog.Serves slope) rfl root' 100
  refine ⟨root, root', hroot, hroot', hrequests, ?_, hrequests', honce t ht hpruned _ hleaf⟩
  exact hcut _ hpong 2 4 (by decide) (by rw [hrequests]; rfl) (by rw [hrequests]; rfl)

end InlinePlan
