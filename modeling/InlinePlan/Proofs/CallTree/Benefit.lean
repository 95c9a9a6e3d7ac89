import InlinePlan.CallTree.Benefit
import InlinePlan.Proofs.Analysis.Joins
import InlinePlan.Proofs.Analysis.TypeTests
import InlinePlan.Proofs.Plan.Proposal
import Mathlib.Data.List.Forall2

set_option autoImplicit false

/-! # What an estimate counts

The benefit of a call is a weight for each predicate that holds of its arguments. A predicate that
holds of an argument holds of every argument that is more precise (`Predicate.holds_of_refines`), so
the benefit never falls as arguments become more precise (`refining_keeps_benefit`). A test of an
argument is recorded as several predicates, of which one holds if the argument decides the test, and
none otherwise (`decided_tests_counted_once`). The sum of the weights is a 64-bit integer; where it
leaves the range it wraps around, and the benefit says nothing any more. -/

namespace InlinePlan

/-! ## More precise facts -/

namespace Fact

variable {f g h : Fact}

/-- The facts that the constructors build. -/
inductive Built : Fact → Prop where
  | const (v : Int) : Built (.const v)
  | range (a b : Int) : Built (.range a b)
  | null : Built .null
  | nonNullObject (cls : String) : Built (.nonNullObject cls)
  | exactObject (cls : String) : Built (.exactObject cls)
  | object (cls : String) (nonNull : Bool) : Built (.object cls nonNull)
  | array (desc : String) (lo hi : Int) : Built (.array desc lo hi)
  | string (s : List UInt8) : Built (.string s)

/-- What the first of two facts keeps of the second one, which is less precise. -/
structure Narrows (f g : Fact) : Prop where
  null : g.kind = .null → f.kind = .null
  nonNull : g.isNonNull = true → f.isNonNull = true ∧ f.cls = g.cls
  range : g.kind = .range → f.kind = .range ∧ g.lo ≤ f.lo ∧ f.hi ≤ g.hi

theorem Narrows.refl (f : Fact) : f.Narrows f :=
  ⟨id, fun h => ⟨h, rfl⟩, fun h => ⟨h, Int.le_refl _, Int.le_refl _⟩⟩

theorem Narrows.trans (hfg : f.Narrows g) (hgh : g.Narrows h) : f.Narrows h where
  null hnull := hfg.null (hgh.null hnull)
  nonNull hnon := by
    obtain ⟨hnon, hcls⟩ := hgh.nonNull hnon
    obtain ⟨hnon, hcls'⟩ := hfg.nonNull hnon
    exact ⟨hnon, hcls'.trans hcls⟩
  range hrange := by
    obtain ⟨hrange, hlo, hhi⟩ := hgh.range hrange
    obtain ⟨hrange, hlo', hhi'⟩ := hfg.range hrange
    exact ⟨hrange, Int.le_trans hlo hlo', Int.le_trans hhi' hhi⟩

theorem Narrows.contains {r : Fact} (hfg : f.Narrows g) (h : r.contains g = true) :
    r.contains f = true := by
  simp only [Fact.contains, Bool.and_eq_true, decide_eq_true_eq] at h ⊢
  obtain ⟨hrange, hlo, hhi⟩ := hfg.range h.1.1.2
  exact ⟨⟨⟨h.1.1.1, hrange⟩, Int.le_trans h.1.2 hlo⟩, Int.le_trans hhi h.2⟩

theorem Built.narrows_asObject (hf : f.Built) : f.Narrows f.asObject := by
  cases hf with
  | string s => exact ⟨nofun, fun _ => ⟨rfl, rfl⟩, nofun⟩
  | _ => exact .refl _

/-- An array is not null. -/
theorem Built.nonNull_asObject (hf : f.Built) (h : f.asObject.kind = .array) :
    f.asObject.nonNull = true := by
  cases hf <;> first | rfl | cases h

theorem narrows_of_joinPlain {j : Fact} (harray : f.kind = .array → f.nonNull = true)
    (h : f.joinPlain g = some j) : f.Narrows j := by
  obtain ⟨-, rfl | ⟨hk, rfl⟩ | ⟨hk, rfl⟩ | ⟨hk, rfl⟩⟩ := joinPlain_eq_some h
  · exact .refl _
  · refine ⟨by rintro ⟨⟩, by rintro ⟨⟩, fun _ => ⟨hk, ?_, ?_⟩⟩
    · simp only [Fact.range]
      omega
    · simp only [Fact.range]
      omega
  · refine ⟨by rintro ⟨⟩, fun hnon => ⟨?_, rfl⟩, by rintro ⟨⟩⟩
    simpa [isNonNull, object, hk] using hnon
  · refine ⟨by rintro ⟨⟩, fun _ => ⟨?_, rfl⟩, by rintro ⟨⟩⟩
    simp [isNonNull, hk, harray hk]

/-- A fact is more precise than its joins. -/
theorem narrows_of_join {j : Fact} (hf : f.Built) (h : f.join g = some j) : f.Narrows j := by
  rw [join_eq] at h
  split at h
  case isTrue =>
    cases h
    exact .refl _
  case isFalse => exact hf.narrows_asObject.trans (narrows_of_joinPlain hf.nonNull_asObject h)

end Fact

/-! ## More precise arguments -/

variable {oracle : Option SubtypeOracle} {a b : Value}

/-- A value is at least as precise as another one if joining the two leaves the other's fact. -/
structure Value.Refines (a b : Value) : Prop where
  built : ∀ f ∈ a.fact, f.Built
  join : ∃ v, a.join b = .ok v ∧ v.fact = b.fact

/-- Where the less precise value has a fact, the other has a more precise one. -/
theorem Value.Refines.narrows {g : Fact} (h : a.Refines b) (hg : b.fact = some g) :
    ∃ f, a.fact = some f ∧ f.Narrows g := by
  obtain ⟨v, hv, hfact⟩ := h.join
  obtain ⟨-, rfl, -⟩ | ⟨k, f, p, f', p', rfl, rfl, rfl⟩ := join_eq_ok.1 hv
  · cases hg
  · obtain rfl : f' = some g := hg
    have hjoin : Fact.join? f (some g) = some g := hfact
    cases f with
    | none => cases hjoin
    | some f => exact ⟨f, rfl, Fact.narrows_of_join (h.built f rfl) hjoin⟩

theorem Predicate.typeTestHolds_of_narrows {r f g : Fact} (h : f.Narrows g)
    (hg : typeTestHolds oracle r g = true) : typeTestHolds oracle r f = true := by
  obtain ⟨hnon, hcls⟩ := typeTestHolds_iff.1 hg
  obtain ⟨hnon, hf⟩ := h.nonNull hnon
  exact typeTestHolds_iff.2 ⟨hnon, by rwa [hf]⟩

/-- What holds of a value holds of every more precise one. -/
theorem Predicate.holds_of_refines {p : Predicate} (h : a.Refines b)
    (hb : p.holds oracle b = true) : p.holds oracle a = true := by
  obtain ⟨k, fold, required⟩ := p
  unfold holds at hb ⊢
  cases hg : b.fact with
  | none => simp [hg] at hb
  | some g =>
    obtain ⟨f, hf, hfg⟩ := h.narrows hg
    rw [hg] at hb
    rw [hf]
    cases required with
    | none => exact hb
    | some r =>
      by_cases hnull : r.kind = .null
      · cases fold with
        | zero c => exact hfg.contains hb
        | null | nullCheck | instanceOf | checkCast =>
          simp only [FoldKind.isOrdering, hnull, Bool.false_eq_true, if_false, if_true,
            decide_eq_true_eq] at hb ⊢
          exact hfg.null hb
      · cases fold with
        | zero c => exact hfg.contains hb
        | null | nullCheck =>
          simp only [FoldKind.isOrdering, hnull, Bool.false_eq_true, if_false,
            Bool.and_eq_true] at hb ⊢
          exact ⟨hb.1, (hfg.nonNull hb.2).1⟩
        | instanceOf | checkCast =>
          simp only [FoldKind.isOrdering, hnull, Bool.false_eq_true, if_false] at hb ⊢
          exact typeTestHolds_of_narrows hfg hb

/-! ## The benefit of more precise arguments -/

theorem Summary.satisfied_of_refines {as bs : List Value} (h : List.Forall₂ Value.Refines as bs)
    (s : Summary) : (s.satisfied oracle bs).Sublist (s.satisfied oracle as) := by
  refine List.monotone_filter_right _ fun p hp => ?_
  rw [Bool.and_eq_true] at hp ⊢
  obtain ⟨hparam, hholds⟩ := hp
  rw [Option.any_eq_true] at hholds ⊢
  obtain ⟨b, hb, hholds⟩ := hholds
  obtain ⟨hbound, rfl⟩ := List.getElem?_eq_some_iff.1 hb
  have hlen : as.length = bs.length := h.length_eq
  exact ⟨hparam, _, List.getElem?_eq_getElem (hlen ▸ hbound),
    p.holds_of_refines (h.get (hlen ▸ hbound) hbound) hholds⟩

/-- As long as the weights of what holds of the more precise arguments add up to less than 2 ^ 63,
    the benefit does not fall as arguments become more precise. -/
theorem refining_keeps_benefit (oracle : Option SubtypeOracle) {weight : Int}
    {as bs : List Value} (hweight : 0 ≤ weight) (h : List.Forall₂ Value.Refines as bs)
    (s : Option Summary) :
    (∀ t ∈ s, (t.satisfied oracle bs).Sublist (t.satisfied oracle as))
      ∧ ((∀ t ∈ s, weight * (t.satisfied oracle as).length < 2 ^ 63) →
        staticBenefit oracle weight s bs ≤ staticBenefit oracle weight s as) := by
  refine ⟨fun t _ => t.satisfied_of_refines h, fun hfits => ?_⟩
  cases s with
  | none => exact Int.le_refl 0
  | some t =>
    have hfits : weight * (t.satisfied oracle as).length < 2 ^ 63 := hfits t rfl
    have hlen : (t.satisfied oracle bs).length ≤ (t.satisfied oracle as).length :=
      (t.satisfied_of_refines h).length_le
    have hle : weight * (t.satisfied oracle bs).length ≤ weight * (t.satisfied oracle as).length :=
      Int.mul_le_mul_of_nonneg_left (by exact_mod_cast hlen) hweight
    have hnonneg : 0 ≤ weight * (t.satisfied oracle bs).length :=
      Int.mul_nonneg hweight (Int.natCast_nonneg _)
    rw [staticBenefit, staticBenefit, wrap_eq_self (by omega) (by omega) (by decide),
      wrap_eq_self (by omega) (by omega) (by decide)]
    exact hle

/-- Asks whether an integer is positive and whether an object is an animal. -/
def feeding : Summary :=
  ⟨"zoo/Keeper.feed(ILzoo/Cat;)V",
    Predicate.branch 0 .gt ++ Predicate.nullTest 1 true
      ++ Predicate.typeTest 1 .instanceOf "zoo/Animal"⟩

/-- A positive number of cats of this very class decides all tests, a vaguer call does not. -/
theorem refining_keeps_benefit_feeding :
    List.Forall₂ Value.Refines [.known .int (.range 1 5), .known .ref (.exactObject "zoo/Cat")]
        [.known .int (.range 0 9), .known .ref (.nonNullObject "zoo/Cat")]
      ∧ staticBenefit keeper.oracle 10 (some feeding)
          [.known .int (.range 0 9), .known .ref (.nonNullObject "zoo/Cat")] = 20
      ∧ 20 ≤ staticBenefit keeper.oracle 10 (some feeding)
          [.known .int (.range 1 5), .known .ref (.exactObject "zoo/Cat")] := by
  have hrefines : List.Forall₂ Value.Refines
      [.known .int (.range 1 5), .known .ref (.exactObject "zoo/Cat")]
      [.known .int (.range 0 9), .known .ref (.nonNullObject "zoo/Cat")] := by
    refine .cons ⟨?_, _, rfl, by decide⟩ (.cons ⟨?_, _, rfl, by decide⟩ .nil)
    · rintro f ⟨⟩
      exact .range 1 5
    · rintro f ⟨⟩
      exact .exactObject "zoo/Cat"
  have hvague : staticBenefit keeper.oracle 10 (some feeding)
      [.known .int (.range 0 9), .known .ref (.nonNullObject "zoo/Cat")] = 20 := by
    decide +kernel
  refine ⟨hrefines, hvague, hvague ▸ ?_⟩
  refine (refining_keeps_benefit keeper.oracle (by decide) hrefines (some feeding)).2 ?_
  rintro t ⟨⟩
  decide +kernel

/-- Asks of two integers whether they are zero. -/
def twoZeros : Summary := ⟨"m", Predicate.branch 0 .eq ++ Predicate.branch 1 .eq⟩

/-- With two predicates of weight 2 ^ 62 the sum wraps around to -2 ^ 63, and the more precise
    arguments have the lower benefit. -/
theorem refining_lowers_benefit :
    List.Forall₂ Value.Refines [.intConst 0, .intConst 0] [.intConst 0, .top .int]
      ∧ staticBenefit none (2 ^ 62) (some twoZeros) [.intConst 0, .intConst 0]
        < staticBenefit none (2 ^ 62) (some twoZeros) [.intConst 0, .top .int] := by
  refine ⟨.cons ⟨?_, _, rfl, rfl⟩ (.cons ⟨?_, _, rfl, rfl⟩ .nil), by decide⟩
  · rintro f ⟨⟩
    exact .const 0
  · rintro f ⟨⟩
    exact .const 0

/-! ## Tests of arguments -/

/-- The outcome of comparing an integer with zero. -/
def Cond.outcome (c : Cond) (v : Int) : Bool :=
  match c with
  | .eq => v = 0
  | .ne => v ≠ 0
  | .lt => v < 0
  | .ge => 0 ≤ v
  | .gt => 0 < v
  | .le => v ≤ 0

/-- The outcome of comparing with zero is the same for all integers of a range. -/
def Cond.Decided (c : Cond) (lo hi : Int) : Prop :=
  ∃ r, ∀ v, lo ≤ v → v ≤ hi → c.outcome v = r

/-- A range lies on one side of where the outcome of comparing with zero changes. -/
def Cond.oneSided (c : Cond) (lo hi : Int) : Bool :=
  match c with
  | .eq | .ne => hi < 0 ∨ lo = 0 ∧ hi = 0 ∨ 0 < lo
  | .lt | .ge => hi < 0 ∨ 0 ≤ lo
  | .gt | .le => hi ≤ 0 ∨ 0 < lo

theorem Cond.decided_iff {c : Cond} {lo hi : Int} :
    c.Decided lo hi ↔ hi < lo ∨ c.oneSided lo hi = true := by
  constructor
  · rintro ⟨r, hr⟩
    by_contra hnot
    -- the outcome changes between the bounds and zero
    have hlo := hr lo (Int.le_refl _)
    have hhi := hr hi
    have hzero := hr 0
    cases c <;> cases r <;> simp [outcome, oneSided] at hlo hhi hzero hnot <;> omega
  · intro h
    refine ⟨c.outcome lo, fun v hlo hhi => ?_⟩
    cases c <;> simp only [outcome, oneSided, decide_eq_true_eq, decide_eq_decide] at h ⊢ <;> omega

instance (c : Cond) (lo hi : Int) : Decidable (c.Decided lo hi) :=
  decidable_of_iff' _ Cond.decided_iff

/-- A test of an argument that an analysis records. -/
inductive ArgTest where
  | zero (param : Nat) (c : Cond)
  | null (param : Nat) (isNull : Bool)
  deriving Repr, DecidableEq

namespace ArgTest

def param : ArgTest → Nat
  | zero k _ | null k _ => k

/-- The kind of the arguments that are tested. -/
def kind : ArgTest → Kind
  | zero .. => .int
  | null .. => .ref

/-- What is recorded about the test. -/
def predicates : ArgTest → List Predicate
  | zero k c => Predicate.branch k c
  | null k isNull => Predicate.nullTest k isNull

/-- Whether the test has one outcome for all arguments that a fact allows. -/
def Decided : ArgTest → Fact → Prop
  | zero _ c, f => c.Decided f.lo f.hi
  | null .., f => f.kind = .null ∨ f.isNonNull = true

instance : ∀ (t : ArgTest) (f : Fact), Decidable (t.Decided f)
  | zero _ c, f => inferInstanceAs (Decidable (c.Decided f.lo f.hi))
  | null .., f => inferInstanceAs (Decidable (f.kind = .null ∨ f.isNonNull = true))

/-- Whether the arguments of a call decide the test. -/
def DecidedBy (t : ArgTest) (args : List Value) : Prop :=
  ∃ v ∈ args[t.param]?, ∃ f ∈ v.fact, t.Decided f

instance (t : ArgTest) (args : List Value) : Decidable (t.DecidedBy args) :=
  inferInstanceAs (Decidable (∃ v ∈ args[t.param]?, ∃ f ∈ v.fact, t.Decided f))

/-- The argument that is tested, if the call has it, has the kind that the test takes, and its fact
    is one about values of this kind. -/
def Fits (t : ArgTest) (args : List Value) : Prop :=
  ∀ v ∈ args[t.param]?, v.kind = t.kind ∧ ∀ f ∈ v.fact, t.kind.Admits f

variable {t : ArgTest} {args : List Value} {v : Value} {f : Fact}

theorem contains_range {a b : Int} (hf : f.kind = .range) (h : a ≤ b) :
    (Fact.range a b).contains f = decide (a ≤ f.lo ∧ f.hi ≤ b) := by
  simp [Fact.contains, Fact.range, hf, Int.min_eq_left h, Int.max_eq_right h]

/-- Of the ranges recorded about a comparison, one contains a range that decides it. -/
theorem countP_branch {k : Nat} {c : Cond} (hv : v.fact = some f) (h : Kind.int.Admits f) :
    (Predicate.branch k c).countP (·.holds oracle v) = if c.Decided f.lo f.hi then 1 else 0 := by
  obtain ⟨hkind, hlo, hle, hhi⟩ := h
  have hholds (r : Fact) : (⟨k, .zero c, some r⟩ : Predicate).holds oracle v = r.contains f := by
    simp [Predicate.holds, hv, FoldKind.isOrdering]
  have hdecided : c.Decided f.lo f.hi ↔ c.oneSided f.lo f.hi = true := by
    rw [Cond.decided_iff, or_iff_right (by omega)]
  have hbounds : minInt32 ≤ -1 ∧ minInt32 ≤ 0 ∧ 0 ≤ maxInt32 ∧ 1 ≤ maxInt32 := by decide
  cases c
  all_goals
    simp only [Predicate.branch, List.map_cons, List.map_nil, List.countP_cons, List.countP_nil,
      hholds, ← Fact.range_self, contains_range hkind, hbounds, Int.le_refl, hdecided,
      Cond.oneSided, decide_eq_true_eq]
    split_ifs <;> omega

/-- Of the two outcomes of a null test, one holds of null and the other of what is not null. -/
theorem countP_nullTest {k : Nat} {isNull : Bool} (hv : v.fact = some f) :
    (Predicate.nullTest k isNull).countP (·.holds oracle v)
      = if f.kind = .null ∨ f.isNonNull = true then 1 else 0 := by
  have hnull : (⟨k, .null isNull, some .null⟩ : Predicate).holds oracle v = true
      ↔ f.kind = .null := by
    simp [Predicate.holds_null (show FoldKind.isOrdering (.null isNull) = false from rfl),
      Step.isNullFact, hv]
  have hnon : (⟨k, .null isNull, some (.nonNullObject "")⟩ : Predicate).holds oracle v
      = f.isNonNull := by
    simp [Predicate.holds, hv, FoldKind.isOrdering, Fact.nonNullObject]
  simp only [Predicate.nullTest, List.countP_cons, List.countP_nil, hnull, hnon]
  by_cases hkind : f.kind = .null
  · simp [hkind, Fact.not_isNonNull hkind]
  · simp [hkind]

theorem countP_holds (hv : v.fact = some f) (h : t.kind.Admits f) :
    t.predicates.countP (·.holds oracle v) = if t.Decided f then 1 else 0 := by
  cases t with
  | zero k c => exact countP_branch hv h
  | null k isNull => exact countP_nullTest hv

theorem param_of_mem_predicates {p : Predicate} (h : p ∈ t.predicates) : p.param = t.param := by
  cases t with
  | zero k c => exact Step.param_of_mem_branch h
  | null k isNull =>
    simp only [predicates, Predicate.nullTest, List.mem_cons, List.not_mem_nil, or_false] at h
    rcases h with rfl | rfl <;> rfl

end ArgTest

/-- The summary of a method that records tests of arguments. -/
def Summary.ofTests (method : MethodId) (tests : List ArgTest) : Summary :=
  ⟨method, tests.flatMap ArgTest.predicates⟩

variable {tests : List ArgTest} {args : List Value} {method : MethodId}

/-- Of what is recorded about a test, one predicate holds if the arguments decide the test. -/
theorem ArgTest.length_satisfied {t : ArgTest} (h : t.Fits args) :
    (Summary.satisfied oracle ⟨method, t.predicates⟩ args).length
      = if t.DecidedBy args then 1 else 0 := by
  have hcount : (Summary.satisfied oracle ⟨method, t.predicates⟩ args).length
      = t.predicates.countP fun p => (args[t.param]?).any (p.holds oracle ·) := by
    rw [Summary.satisfied, ← List.countP_eq_length_filter]
    refine List.countP_congr fun p hp => ?_
    simp [param_of_mem_predicates hp]
  rw [hcount]
  obtain hv | ⟨v, hv⟩ := Option.eq_none_or_eq_some args[t.param]?
  · simp [DecidedBy, hv]
  · obtain hf | ⟨f, hf⟩ := Option.eq_none_or_eq_some v.fact
    · simp [DecidedBy, hv, Predicate.holds, hf]
    · have hadmits : t.kind.Admits f := (h v hv).2 f hf
      simp [DecidedBy, hv, hf, countP_holds hf hadmits]

/-- Records put together are counted apart. -/
theorem Summary.length_satisfied_ofTests (h : ∀ t ∈ tests, t.Fits args) :
    ((ofTests method tests).satisfied oracle args).length = tests.countP (·.DecidedBy args) := by
  induction tests with
  | nil => rfl
  | cons t tests ih =>
    rw [List.forall_mem_cons] at h
    have hfirst : (Summary.satisfied oracle ⟨method, t.predicates⟩ args).length
        = if t.DecidedBy args then 1 else 0 := ArgTest.length_satisfied h.1
    have hrest := ih h.2
    simp only [satisfied, ofTests] at hfirst hrest ⊢
    rw [List.flatMap_cons, List.filter_append, List.length_append, hfirst, hrest, List.countP_cons]
    simp only [decide_eq_true_eq]
    omega

/-- Each test that the arguments decide is counted once, and no other test is counted. So the
    benefit is the weight times the number of tests that are decided, in 64 bits. -/
theorem decided_tests_counted_once (oracle : Option SubtypeOracle) (weight : Int)
    (method : MethodId) (h : ∀ t ∈ tests, t.Fits args) :
    (∀ t ∈ tests, (Summary.satisfied oracle ⟨method, t.predicates⟩ args).length
        = if t.DecidedBy args then 1 else 0)
      ∧ staticBenefit oracle weight (some (.ofTests method tests)) args
        = wrap 64 (weight * tests.countP (·.DecidedBy args))
      ∧ (-2 ^ 63 ≤ weight * tests.countP (·.DecidedBy args) →
        weight * tests.countP (·.DecidedBy args) < 2 ^ 63 →
        staticBenefit oracle weight (some (.ofTests method tests)) args
          = weight * tests.countP (·.DecidedBy args)) := by
  have hbenefit : staticBenefit oracle weight (some (.ofTests method tests)) args
      = wrap 64 (weight * tests.countP (·.DecidedBy args)) := by
    rw [staticBenefit, Summary.length_satisfied_ofTests h]
  refine ⟨fun t ht => ArgTest.length_satisfied (h t ht), hbenefit, fun hlo hhi => ?_⟩
  rw [hbenefit, wrap_eq_self hlo hhi (by decide)]

/-- Two comparisons of a positive integer and a null test are decided, and a comparison of an
    argument that the call lacks is not. -/
theorem decided_tests_counted_once_positive :
    (∀ t ∈ [ArgTest.zero 0 .gt, .zero 0 .eq, .null 1 true, .zero 2 .lt],
        t.Fits [.known .int (.range 1 5), .nullRef])
      ∧ staticBenefit none 10
          (some (.ofTests "m" [.zero 0 .gt, .zero 0 .eq, .null 1 true, .zero 2 .lt]))
          [.known .int (.range 1 5), .nullRef] = 30 := by
  have hpositive : Kind.int.Admits (.range 1 5) :=
    Fact.Made.admits (.int 1 5 (by decide) (by decide))
  have hfits : ∀ t ∈ [ArgTest.zero 0 .gt, .zero 0 .eq, .null 1 true, .zero 2 .lt],
      t.Fits [.known .int (.range 1 5), .nullRef] := by
    simp only [List.forall_mem_cons]
    refine ⟨?_, ?_, ?_, by simp [ArgTest.Fits, ArgTest.param], by simp⟩
    · rintro v ⟨⟩
      exact ⟨rfl, by rintro f ⟨⟩; exact hpositive⟩
    · rintro v ⟨⟩
      exact ⟨rfl, by rintro f ⟨⟩; exact hpositive⟩
    · rintro v ⟨⟩
      exact ⟨rfl, by rintro f ⟨⟩; exact .inl rfl⟩
  exact ⟨hfits, (decided_tests_counted_once none 10 "m" hfits).2.2 (by decide) (by decide)⟩

/-- Two tests of weight 2 ^ 62 that are decided count as -2 ^ 63. -/
theorem decided_tests_wrap :
    (∀ t ∈ [ArgTest.zero 0 .eq, .zero 0 .lt], t.Fits [.intConst 0])
      ∧ [ArgTest.zero 0 .eq, .zero 0 .lt].countP (·.DecidedBy [.intConst 0]) = 2
      ∧ staticBenefit none (2 ^ 62) (some (.ofTests "m" [.zero 0 .eq, .zero 0 .lt]))
          [.intConst 0] ≠ 2 ^ 62 * 2 := by
  have hzero : Kind.int.Admits (.const 0) := (Fact.made_int (by decide) (by decide)).admits
  refine ⟨?_, by decide, by decide⟩
  simp only [List.forall_mem_cons]
  refine ⟨?_, ?_, nofun⟩
  · rintro v ⟨⟩
    exact ⟨rfl, by rintro f ⟨⟩; exact hzero⟩
  · rintro v ⟨⟩
    exact ⟨rfl, by rintro f ⟨⟩; exact hzero⟩

end InlinePlan
