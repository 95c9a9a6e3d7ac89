import InlinePlan.Proofs.Analysis.Effect

set_option autoImplicit false

/-! # Type tests

A summary records what decides a type test of an argument: null, or an instance of the class that is
not null. An estimate asks this of the arguments of a call (`Predicate.holds`); the analysis asks it
of the value on top of the stack (`Step.isInstance`). The two are decided apart, and whatever counts
for the estimate the analysis folds (`type_tests_fold`). -/

namespace InlinePlan

open InlinePlan.Frame

/-! ## When a type test counts as decided -/

/-- Whether the operation asks for the class of a reference. -/
def FoldKind.isTypeTest : FoldKind → Bool
  | .instanceOf | .checkCast => true
  | _ => false

theorem FoldKind.not_isOrdering {fold : FoldKind} (h : fold.isTypeTest = true) :
    fold.isOrdering = false := by
  cases fold <;> first | rfl | cases h

namespace Predicate

variable {oracle : Option SubtypeOracle} {fold : FoldKind} {k : Int} {v : Value} {f : Fact}

/-- A predicate that requires null holds of null only. -/
theorem holds_null (hfold : fold.isOrdering = false) :
    (⟨k, fold, some .null⟩ : Predicate).holds oracle v = Step.isNullFact v.fact := by
  unfold holds Step.isNullFact
  cases v.fact with
  | none => rfl
  | some f => simp [hfold, Fact.null]

/-- A predicate that requires an instance of a class holds if the fact decides the type test. -/
theorem holds_nonNullObject {cls : String} (hfold : fold.isTypeTest = true) :
    (⟨k, fold, some (.nonNullObject cls)⟩ : Predicate).holds oracle v
      = v.fact.any (typeTestHolds oracle (.nonNullObject cls)) := by
  unfold holds
  cases v.fact with
  | none => rfl
  | some f => cases fold <;> first | rfl | cases hfold

theorem typeTestHolds_iff {r : Fact} :
    typeTestHolds oracle r f = true ↔ f.isNonNull = true
      ∧ (r.cls = "" ∨ r.cls = f.cls
        ∨ ∃ isSubtype ∈ oracle, f.cls ≠ "" ∧ isSubtype f.cls r.cls = .yes) := by
  unfold typeTestHolds
  cases f.isNonNull with
  | false => simp
  | true =>
    by_cases hcls : r.cls = "" ∨ r.cls = f.cls
    · simp [hcls, ← or_assoc]
    · rw [← or_assoc]
      cases oracle <;> simp [hcls]

/-- What decides a type test for the estimate decides it for the analysis. -/
theorem isInstance_of_typeTestHolds {cls : String} (hcls : cls ≠ "")
    (h : typeTestHolds oracle (.nonNullObject cls) f = true) :
    Step.isInstance oracle (some f) cls = .yes := by
  obtain ⟨hnon, hempty | heq | ⟨isSubtype, rfl, hf, hyes⟩⟩ := typeTestHolds_iff.1 h
  · exact absurd hempty hcls
  · have heq : f.cls = cls := heq.symm
    simp [Step.isInstance, hnon, heq]
  · have hyes : isSubtype f.cls cls = .yes := hyes
    simp [Step.isInstance, hnon, hf, hyes]

end Predicate

theorem Fact.not_isNonNull {f : Fact} (h : f.kind = .null) : f.isNonNull = false := by
  simp [isNonNull, h]

/-! ## What the analysis does -/

namespace Step

variable {s : Subject} {b : Nat} {fr : Int} {ins : Instruction} {r : SymbolRef} {m : Machine}
  {v : Value} {rest : List Value}

/-- An operation with reference `r` puts `w` in the place of the value on top of `rest`. In strict
    mode it fails if `r` is unresolved, before it looks at any value. -/
def Answers (s : Subject) (b : Nat) (fr : Int) (ins : Instruction) (r : SymbolRef) (m : Machine)
    (rest : List Value) (o : Operation) (w : Value) : Prop :=
  if s.options.strictMode && r.unresolved then transfer s b fr ins o m = .error (.unresolvedRef r) m
  else ∃ m', transfer s b fr ins o m = .ok () m' ∧ m'.frame = ⟨m.frame.locals, w :: rest⟩

theorem classRef_eq (hr : ins.ref = some r) (hkind : r.kind = .cls) :
    classRef ins m = .ok r m := by
  simp only [classRef, hr, hkind, if_true]
  rfl

theorem checkResolved_eq_error (h : (s.options.strictMode && r.unresolved) = true) :
    checkResolved s ins r m = .error (.unresolvedRef r) m := by
  rw [Bool.and_eq_true] at h
  simp only [checkResolved, unresolved, h.1, h.2, if_true]
  rfl

theorem checkResolved_eq_ok (ins : Instruction) (m : Machine)
    (h : ¬(s.options.strictMode && r.unresolved) = true) :
    ∃ warnings, checkResolved s ins r m = .ok () { m with warnings } := by
  unfold checkResolved
  cases hu : r.unresolved with
  | false => exact ⟨m.warnings, rfl⟩
  | true =>
    have hstrict : s.options.strictMode = false := by simpa [hu] using h
    simp only [if_true, unresolved, hstrict, Bool.false_eq_true, if_false, warn]
    split
    · exact ⟨_, rfl⟩
    · exact ⟨m.warnings, rfl⟩

theorem noteParam_eq_ok (ps : Nat → List Predicate) :
    ∃ predicates, noteParam v ps m = .ok () { m with predicates } := by
  unfold noteParam
  cases v.param with
  | none => exact ⟨m.predicates, rfl⟩
  | some k => exact ⟨_, rfl⟩

/-- What both type tests do: check the reference, take a value, note it, and push a result. -/
theorem answers_of_eq {o : Operation} (noted : SymbolRef → Nat → List Predicate)
    (result : SymbolRef → Value → Value) (hr : ins.ref = some r) (hkind : r.kind = .cls)
    (hstack : m.frame.stack = v :: rest) (hv : v.kind = .ref)
    (hresult : (result r v).isWide = false)
    (ho : transfer s b fr ins o = do
      let r ← classRef ins
      checkResolved s ins r
      let v ← liftM (Frame.pop .ref)
      noteParam v (noted r)
      liftM (push (result r v))) :
    Answers s b fr ins r m rest o (result r v) := by
  unfold Answers
  rw [ho]
  split
  case isTrue hfail =>
    simp only [bind, EStateM.bind, classRef_eq hr hkind, checkResolved_eq_error hfail]
  case isFalse hpass =>
    obtain ⟨warnings, hcheck⟩ := checkResolved_eq_ok ins m hpass
    have hnarrow : v.isWide = false := by rw [Value.isWide, hv]; rfl
    have hpop : Frame.pop .ref m.frame = .ok v ⟨m.frame.locals, rest⟩ :=
      pop_eq_ok.2 ⟨isPad_of_kind hv (by decide), hv,
        by rw [cells_narrow hnarrow, List.singleton_append, ← hstack]⟩
    obtain ⟨predicates, hnote⟩ := noteParam_eq_ok (v := v)
      (m := { m with warnings, frame := ⟨m.frame.locals, rest⟩ }) (noted r)
    refine ⟨{ m with warnings, predicates, frame := ⟨m.frame.locals, result r v :: rest⟩ }, ?_, rfl⟩
    simp only [bind_eq_ok, liftM_eq_ok, push_eq_ok]
    exact ⟨r, m, classRef_eq hr hkind, (), _, hcheck, v, _, ⟨_, hpop, rfl⟩, (), _, hnote, _,
      by rw [cells_narrow hresult]; rfl, rfl⟩

theorem answers_instanceOf (hr : ins.ref = some r) (hkind : r.kind = .cls)
    (hstack : m.frame.stack = v :: rest) (hv : v.kind = .ref) :
    Answers s b fr ins r m rest .instanceOf (testResult s.oracle r.cls v.fact) := by
  have hnarrow : (testResult s.oracle r.cls v.fact).isWide = false := by
    unfold testResult
    split
    · rfl
    · split <;> rfl
  exact answers_of_eq (fun r k => Predicate.typeTest k .instanceOf r.cls)
    (fun r v => testResult s.oracle r.cls v.fact) hr hkind hstack hv hnarrow rfl

theorem answers_checkCast (hr : ins.ref = some r) (hkind : r.kind = .cls)
    (hstack : m.frame.stack = v :: rest) (hv : v.kind = .ref) :
    Answers s b fr ins r m rest .checkCast (castResult s.oracle r v) := by
  have hunmarked : v.unmarked.isWide = false := by
    cases v with
    | pad => rfl
    | slot => cases hv; rfl
  have hnarrow : (castResult s.oracle r v).isWide = false := by
    unfold castResult
    split
    · exact hunmarked
    · split
      · exact hunmarked
      · split <;> rfl
  exact answers_of_eq (fun r k => Predicate.typeTest k .checkCast r.cls)
    (castResult s.oracle) hr hkind hstack hv hnarrow rfl

/-! ## What counts is folded -/

/-- Of null the test yields 0, and the cast leaves it. -/
theorem results_of_isNullFact (oracle : Option SubtypeOracle) (r : SymbolRef)
    (h : isNullFact v.fact = true) :
    testResult oracle r.cls v.fact = .intConst 0 ∧ castResult oracle r v = v.unmarked := by
  simp [testResult, castResult, h]

theorem isNullFact_of_typeTestHolds {oracle : Option SubtypeOracle} {f : Option Fact} {g : Fact}
    (h : f.any (Predicate.typeTestHolds oracle g) = true) : isNullFact f = false := by
  cases f with
  | none => cases h
  | some f =>
    have hnon : f.isNonNull = true := (Predicate.typeTestHolds_iff.1 h).1
    refine decide_eq_false fun hnull => ?_
    rw [Fact.not_isNonNull hnull] at hnon
    cases hnon

/-- Of a fact that the estimate takes for an instance the test yields 1, and the cast leaves it. -/
theorem results_of_typeTestHolds {oracle : Option SubtypeOracle} (hcls : r.cls ≠ "")
    (h : v.fact.any (Predicate.typeTestHolds oracle (.nonNullObject r.cls)) = true) :
    testResult oracle r.cls v.fact = .intConst 1 ∧ castResult oracle r v = v.unmarked := by
  have hyes : isInstance oracle v.fact r.cls = .yes := by
    cases hf : v.fact with
    | none => simp [hf] at h
    | some f => exact Predicate.isInstance_of_typeTestHolds hcls (by simpa [hf] using h)
  simp [testResult, castResult, isNullFact_of_typeTestHolds h, hyes]

end Step

/-- A type test that the estimate counts for a value is one that the analysis folds: the test yields
    the constant that belongs to the predicate, and the cast leaves the fact of the value. The
    two predicates of a type test do not both hold. -/
theorem type_tests_fold (s : Subject) (b : Nat) (fr : Int) (ins : Instruction) (m : Machine)
    {r : SymbolRef} {v : Value} {rest : List Value} {fold : FoldKind} (k : Nat)
    (hfold : fold.isTypeTest = true) (hr : ins.ref = some r) (hkind : r.kind = .cls)
    (hcls : r.cls ≠ "") (hstack : m.frame.stack = v :: rest) (hv : v.kind = .ref) :
    (∀ p ∈ Predicate.typeTest k fold r.cls, p.holds s.oracle v = true →
        Step.Answers s b fr ins r m rest .instanceOf
          (.intConst (if p.required = some .null then 0 else 1))
        ∧ Step.Answers s b fr ins r m rest .checkCast (.slot .ref v.fact none))
      ∧ (Predicate.typeTest k fold r.cls).countP (·.holds s.oracle v) ≤ 1 := by
  have hunmarked : v.unmarked = .slot .ref v.fact none := by
    cases v with
    | pad => cases hv
    | slot => cases hv; rfl
  have htest : Step.Answers s b fr ins r m rest .instanceOf
      (Step.testResult s.oracle r.cls v.fact) := Step.answers_instanceOf hr hkind hstack hv
  have hcast : Step.Answers s b fr ins r m rest .checkCast (Step.castResult s.oracle r v) :=
    Step.answers_checkCast hr hkind hstack hv
  have hobject : (⟨k, fold, some (.nonNullObject r.cls)⟩ : Predicate).holds s.oracle v
      = v.fact.any (Predicate.typeTestHolds s.oracle (.nonNullObject r.cls)) :=
    Predicate.holds_nonNullObject hfold
  have hnull : (⟨k, fold, some .null⟩ : Predicate).holds s.oracle v = Step.isNullFact v.fact :=
    Predicate.holds_null (FoldKind.not_isOrdering hfold)
  rw [← hunmarked]
  refine ⟨fun p hp hholds => ?_, ?_⟩
  · rw [Predicate.typeTest, List.mem_cons, List.mem_singleton] at hp
    rcases hp with rfl | rfl
    · obtain ⟨h1, h2⟩ := Step.results_of_typeTestHolds hcls (hobject ▸ hholds)
      exact ⟨h1 ▸ htest, h2 ▸ hcast⟩
    · obtain ⟨h0, h2⟩ := Step.results_of_isNullFact s.oracle r (hnull ▸ hholds)
      exact ⟨h0 ▸ htest, h2 ▸ hcast⟩
  · rw [Predicate.typeTest, List.countP_cons, List.countP_singleton, hobject, hnull]
    cases h : v.fact.any (Predicate.typeTestHolds s.oracle (.nonNullObject r.cls)) with
    | true => rw [Step.isNullFact_of_typeTestHolds h]; decide
    | false => split <;> decide

/-- Tests whether its argument is an animal, and knows that cats are. -/
def keeper : Subject :=
  { options := { strictMode := true }
    oracle := some fun c d => if c = "zoo/Cat" ∧ d = "zoo/Animal" then .yes else .no
    visitor := Visitor.anyResult
    method := { id := "zoo/Keeper.m(Lzoo/Cat;)V", cls := "zoo/Keeper", name := "m",
                descriptor := "(Lzoo/Cat;)V", isStatic := true, maxLocals := 1,
                signature := ⟨[⟨.ref, "zoo/Cat"⟩], ⟨.void, ""⟩⟩ } }

def animal : SymbolRef := { kind := .cls, cls := "zoo/Animal" }

/-- A cat that may be of any breed, the argument of the method. -/
def cat : Value := .slot .ref (some (.nonNullObject "zoo/Cat")) (some 0)

def isAnimal : Instruction := { bci := 1, op := ⟨193⟩, ref := some animal }

/-- The oracle decides the test of a cat, for the estimate and for the analysis. -/
theorem type_tests_fold_cat :
    (⟨0, .instanceOf, some (.nonNullObject animal.cls)⟩ : Predicate).holds keeper.oracle cat = true
      ∧ Step.Answers keeper 0 1 isAnimal animal { frame := ⟨[cat], [cat]⟩ } [] .instanceOf
          (.intConst 1)
      ∧ Step.Answers keeper 0 1 isAnimal animal { frame := ⟨[cat], [cat]⟩ } [] .checkCast
          (.known .ref (.nonNullObject "zoo/Cat")) := by
  have hholds : (⟨0, .instanceOf, some (.nonNullObject animal.cls)⟩ : Predicate).holds
      keeper.oracle cat = true := by
    decide
  have hfold : FoldKind.isTypeTest .instanceOf = true := rfl
  have hfolds := (type_tests_fold keeper 0 1 isAnimal { frame := ⟨[cat], [cat]⟩ } 0 hfold rfl rfl
    (by decide) rfl rfl).1
  exact ⟨hholds, hfolds _ List.mem_cons_self hholds⟩

end InlinePlan
