import InlinePlan.Proofs.Program.Dispatch
import Mathlib.Logic.Function.Iterate
import Mathlib.Tactic.Choose

set_option autoImplicit false

/-! # Walks without an end

The walk up the superclasses that looks for a method keeps no account of the classes it has met, so it
goes on forever where the superclasses of classes without the method form a circle. `Endless` says so
of the walk itself, without a bound on its steps; a look-up finds out by going further than there are
classes (`lookup_eq_endless_iff`). -/

namespace InlinePlan

namespace Program

variable {p : Program} {name descriptor cls : String}

/-- The walk that looks for a method from a class on makes one step after another, forever. -/
def Endless (p : Program) (name descriptor cls : String) : Prop :=
  ∃ walk : Nat → String, walk 0 = cls ∧ ∀ i, p.Climbs name descriptor (walk i) (walk (i + 1))

/-! ## Circles -/

/-- A walk on the way to a circle, or on it, goes on and stays so. -/
theorem Circles.exists_climbs (h : p.Circles name descriptor cls) :
    ∃ super, p.Climbs name descriptor cls super ∧ p.Circles name descriptor super := by
  obtain ⟨c, hreach, hcircle⟩ := h
  rcases hreach.cases_head with rfl | ⟨super, hclimbs, hreach⟩
  · obtain ⟨super, hclimbs, hback⟩ := Relation.TransGen.head'_iff.1 hcircle
    exact ⟨super, hclimbs, cls, hback, hcircle⟩
  · exact ⟨super, hclimbs, c, hreach, hcircle⟩

theorem Circles.endless (h : p.Circles name descriptor cls) : p.Endless name descriptor cls := by
  choose! next hclimbs hcircles using
    fun (c : String) (hc : p.Circles name descriptor c) => hc.exists_climbs
  have hwalk (i : Nat) : p.Circles name descriptor (next^[i] cls) := by
    induction i with
    | zero => exact h
    | succ i ih =>
      rw [Function.iterate_succ_apply']
      exact hcircles _ ih
  refine ⟨fun i => next^[i] cls, rfl, fun i => ?_⟩
  show p.Climbs name descriptor (next^[i] cls) (next^[i + 1] cls)
  rw [Function.iterate_succ_apply']
  exact hclimbs _ (hwalk i)

/-- No number of steps is enough for an endless walk. -/
theorem Endless.lookupWithin_eq (h : p.Endless name descriptor cls) (steps : Nat) :
    p.lookupWithin name descriptor steps cls = .endless := by
  obtain ⟨walk, rfl, hwalk⟩ := h
  have hfrom (i : Nat) : p.lookupWithin name descriptor steps (walk i) = .endless := by
    induction steps generalizing i with
    | zero => rfl
    | succ steps ih => exact lookupWithin_succ_eq_endless_iff.2 ⟨walk (i + 1), hwalk i, ih (i + 1)⟩
  exact hfrom 0

theorem lookup_eq_endless_iff :
    p.lookup cls name descriptor = .endless ↔ p.Endless name descriptor cls :=
  ⟨fun h => (circles_of_lookup h).endless, fun h => h.lookupWithin_eq _⟩

theorem endless_iff_circles : p.Endless name descriptor cls ↔ p.Circles name descriptor cls :=
  ⟨fun h => circles_of_lookup (lookup_eq_endless_iff.2 h), Circles.endless⟩

end Program

/-! ## Resolution -/

/-- The search for the methods that a call can reach has no end just if one of the classes that it
    starts from begins an endless walk, and a walk is endless just if it comes to a circle of
    superclasses before it meets the method. In all other cases the search ends. -/
theorem resolve_ends_iff (p : Program) (kind : InvokeKind) (ref : Option SymbolRef) :
    (p.resolve kind ref = none ↔
      ∃ r ∈ ref, ∃ cls ∈ p.starts kind r, p.Endless r.name r.descriptor cls)
    ∧ ∀ name descriptor cls, p.Endless name descriptor cls ↔
        ∃ c, Relation.ReflTransGen (p.Climbs name descriptor) cls c
          ∧ Relation.TransGen (p.Climbs name descriptor) c c := by
  refine ⟨?_, fun name descriptor cls => Program.endless_iff_circles⟩
  cases ref with
  | none => exact ⟨nofun, fun ⟨_, hr, _⟩ => nomatch hr⟩
  | some r =>
    rw [Program.resolve_eq_none_iff]
    constructor
    · rintro ⟨cls, hcls, hendless⟩
      exact ⟨r, rfl, cls, hcls, Program.lookup_eq_endless_iff.1 hendless⟩
    · rintro ⟨_, ⟨⟩, cls, hcls, hendless⟩
      exact ⟨cls, hcls, Program.lookup_eq_endless_iff.2 hendless⟩

/-- Two classes that name each other as their superclass. -/
def circular : ProgramRecord where
  classes := [{ name := "t/A", super := "t/B" }, { name := "t/B", super := "t/A" }]

/-- A call of a method that no class has. -/
def strayCall : SymbolRef := { kind := .method, cls := "t/A", name := "f", descriptor := "()V" }

/-- A program with a circle of superclasses loads, and a call sends the search around it. -/
theorem resolve_goes_round : ∃ p, Program.ofRecord circular = .ok p
    ∧ p.resolve .staticCall (some strayCall) = none
    ∧ p.Endless strayCall.name strayCall.descriptor "t/A" := by
  have hview : (Program.ofRecord circular).toOption.map
      (fun p => (p.resolve .staticCall (some strayCall),
        p.lookup "t/A" strayCall.name strayCall.descriptor)) = some (none, .endless) := by
    decide +kernel
  cases hload : Program.ofRecord circular with
  | error e =>
    rw [hload] at hview
    cases hview
  | ok p =>
    rw [hload] at hview
    obtain ⟨hresolve, hlookup⟩ := Prod.mk.inj (Option.some.inj hview)
    exact ⟨p, rfl, hresolve, Program.lookup_eq_endless_iff.1 hlookup⟩

end InlinePlan
