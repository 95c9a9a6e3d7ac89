import InlinePlan.Proofs.Analysis.Marks
import InlinePlan.Proofs.Execution.Arithmetic
import Mathlib.Algebra.Group.Int.Defs

set_option autoImplicit false

/-! # Results of operations

What an operation pushes is a value of its own, not padding and not marked, and its fact is one that
the constructors of facts make, or that one of its operands or the answer of the visitor had. So a
class of facts that contains those made and is closed under what the analysis does with facts is
never left (`transfer_results`). Different classes give different invariants of runs; the class of
all facts says only that results are no padding. -/

namespace InlinePlan

open InlinePlan.Frame

/-! ## Classes of facts -/

/-- The facts that the constructors make about values of a kind. -/
inductive Fact.Made : Kind → Fact → Prop where
  | int (a b : Int) (ha : minInt32 ≤ a ∧ a ≤ maxInt32) (hb : minInt32 ≤ b ∧ b ≤ maxInt32) :
      Made .int (.range a b)
  | long (a b : Int) (ha : -2 ^ 63 ≤ a ∧ a < 2 ^ 63) (hb : -2 ^ 63 ≤ b ∧ b < 2 ^ 63) :
      Made .long (.range a b)
  | null : Made .ref .null
  | exactObject (cls : String) : Made .ref (.exactObject cls)
  | object (cls : String) (nonNull : Bool) : Made .ref (.object cls nonNull)
  | array (desc : String) (lo hi : Int) : Made .ref (.array desc lo hi)
  | string (s : List UInt8) : Made .ref (.string s)

/-- A class of facts, for each kind of values, that the analysis does not leave: it has all facts
    that are made and is closed under joins, under taking the length of an array and under turning an
    int into a long. -/
structure FactClass (P : Kind → Fact → Prop) : Prop where
  made : ∀ {k f}, Fact.Made k f → P k f
  join : ∀ {k f g h}, P k f → P k g → f.join g = some h → P k h
  length : ∀ {f}, P .ref f → f.kind = .array → P .int (.range f.lo f.hi)
  extend : ∀ {f c}, P .int f → f.const? = some c → P .long (.const c)

/-- The class of all facts. -/
theorem FactClass.all : FactClass fun _ _ => True where
  made _ := trivial
  join _ _ _ := trivial
  length _ _ := trivial
  extend _ _ := trivial

/-- The fact of a value, if it has one, is in the class. -/
def Value.Within (P : Kind → Fact → Prop) (v : Value) : Prop := ∀ f ∈ v.fact, P v.kind f

theorem Fact.range_self (c : Int) : Fact.range c c = .const c := by
  simp [Fact.range, Fact.const]

theorem Fact.made_int {c : Int} (hlo : minInt32 ≤ c) (hhi : c ≤ maxInt32) :
    Made .int (.const c) :=
  Fact.range_self c ▸ .int c c ⟨hlo, hhi⟩ ⟨hlo, hhi⟩

theorem Fact.made_long {c : Int} (hlo : -2 ^ 63 ≤ c) (hhi : c < 2 ^ 63) : Made .long (.const c) :=
  Fact.range_self c ▸ .long c c ⟨hlo, hhi⟩ ⟨hlo, hhi⟩

/-- The integer of a word is one of the width. -/
theorem Fact.made_word {w : Width} (b : BitVec w.bits) : Made w.kind (.const b.toInt) := by
  cases w with
  | int =>
    obtain ⟨hlo, hhi⟩ := toInt_32_bounds b
    exact made_int hlo hhi
  | long => exact made_long (BitVec.le_toInt b) BitVec.toInt_lt

/-! ## Single results -/

section Results

variable {P : Kind → Fact → Prop}

/-- A result: a value of its own, not marked, with a fact of the class if it has one. -/
structure Value.Fresh (P : Kind → Fact → Prop) (v : Value) : Prop where
  solid : v.isPad = false
  unmarked : v.param = none
  within : v.Within P

namespace Value

theorem fresh_top (k : Kind) : (Value.top k).Fresh P := ⟨rfl, rfl, nofun⟩

theorem fresh_known {k : Kind} {f : Fact} (h : P k f) : (Value.known k f).Fresh P :=
  ⟨rfl, rfl, by rintro g ⟨⟩; exact h⟩

theorem Within.unmarked {v : Value} (h : v.Within P) : v.unmarked.Within P := by
  cases v with
  | pad => exact h
  | slot k f p => exact h

theorem fresh_unmarked {v : Value} (hv : v.isPad = false) (h : v.Within P) :
    v.unmarked.Fresh P := by
  cases v with
  | pad => cases hv
  | slot k f p => exact ⟨rfl, rfl, h⟩

theorem Within.fact {v : Value} {f : Fact} {k : Kind} (h : v.Within P) (hf : v.fact = some f)
    (hk : v.kind = k) : P k f := hk ▸ h f hf

end Value

theorem fresh_constOrTop {k : Kind} {c : Option Int} (h : ∀ x ∈ c, P k (.const x)) :
    (constOrTop k c).Fresh P := by
  cases c with
  | none => exact Value.fresh_top k
  | some c => exact Value.fresh_known (h c rfl)

variable (hP : FactClass P)
include hP

theorem fresh_intConst {c : Int} (hlo : minInt32 ≤ c) (hhi : c ≤ maxInt32) :
    (Value.intConst c).Fresh P := Value.fresh_known (hP.made (Fact.made_int hlo hhi))

theorem fresh_wrap (v : Int) : (Value.intConst (wrap 32 v)).Fresh P :=
  Value.fresh_known (hP.made (Fact.made_word (w := .int) (BitVec.ofInt 32 v)))

theorem fresh_arithResult (w : Width) (f : Arith) (a b : Value) :
    (arithResult w f a b).Fresh P := by
  refine fresh_constOrTop fun c hc => ?_
  obtain ⟨x, -, hc⟩ := Option.bind_eq_some_iff.1 hc
  obtain ⟨y, -, hc⟩ := Option.bind_eq_some_iff.1 hc
  obtain ⟨r, -, rfl⟩ := Option.map_eq_some_iff.1 hc
  exact hP.made (Fact.made_word r)

theorem fresh_shiftResult (w : Width) (f : Shift) (a n : Value) :
    (shiftResult w f a n).Fresh P := by
  refine fresh_constOrTop fun c hc => ?_
  obtain ⟨x, -, hc⟩ := Option.bind_eq_some_iff.1 hc
  obtain ⟨y, -, rfl⟩ := Option.map_eq_some_iff.1 hc
  exact hP.made (Fact.made_word _)

theorem fresh_negateResult (w : Width) (a : Value) : (negateResult w a).Fresh P := by
  refine fresh_constOrTop fun c hc => ?_
  obtain ⟨x, -, rfl⟩ := Option.map_eq_some_iff.1 hc
  exact hP.made (Fact.made_word _)

theorem fresh_convertResult {c : Conversion} {a : Value} (ha : a.Within P)
    (hk : a.kind = c.source) : (convertResult c a).Fresh P := by
  refine fresh_constOrTop fun x hx => ?_
  obtain ⟨y, hy, hx⟩ := Option.bind_eq_some_iff.1 hx
  obtain ⟨f, hf, hc⟩ := Option.bind_eq_some_iff.1 hy
  cases c with
  | intToLong =>
    cases hx
    exact hP.extend (ha.fact hf hk) hc
  | longToInt =>
    cases hx
    exact hP.made (Fact.made_word (w := .int) _)
  | intToByte =>
    cases hx
    have hlo := BitVec.le_toInt (BitVec.ofInt 8 y)
    have hhi := BitVec.toInt_lt (x := BitVec.ofInt 8 y)
    exact hP.made (Fact.made_int (by unfold minInt32 wrap; omega) (by unfold maxInt32 wrap; omega))
  | intToChar =>
    cases hx
    have hhi := (BitVec.ofInt 16 y).isLt
    exact hP.made (Fact.made_int (by unfold minInt32; omega) (by unfold maxInt32; omega))
  | intToShort =>
    cases hx
    have hlo := BitVec.le_toInt (BitVec.ofInt 16 y)
    have hhi := BitVec.toInt_lt (x := BitVec.ofInt 16 y)
    exact hP.made (Fact.made_int (by unfold minInt32 wrap; omega) (by unfold maxInt32 wrap; omega))
  | lossy source target => cases hx

theorem fresh_range {a b : Int} (ha : minInt32 ≤ a ∧ a ≤ maxInt32)
    (hb : minInt32 ≤ b ∧ b ≤ maxInt32) : (Value.known .int (.range a b)).Fresh P :=
  Value.fresh_known (hP.made (.int a b ha hb))

theorem fresh_anyOrder : anyOrder.Fresh P :=
  fresh_range hP (by decide) (by decide)

theorem fresh_compareResult (a b : Value) : (compareResult a b).Fresh P := by
  unfold compareResult
  cases a.const? with
  | none => exact fresh_anyOrder hP
  | some x =>
    cases b.const? with
    | none => exact fresh_anyOrder hP
    | some y =>
      show (Value.intConst (compareInts x y)).Fresh P
      unfold compareInts
      split
      · exact fresh_intConst hP (by decide) (by decide)
      · split <;> exact fresh_intConst hP (by decide) (by decide)

theorem fresh_element (e : Element) : e.value.Fresh P := by
  cases e with
  | int | long | float | double | ref => exact Value.fresh_top _
  | byte | char | short => exact fresh_range hP (by decide) (by decide)

theorem fresh_constantValue? {ins : Instruction} {r : SymbolRef} {v : Value}
    (h : Step.constantValue? ins r = some v) : v.Fresh P := by
  unfold Step.constantValue? at h
  split at h
  case h_1 =>
    cases h
    exact fresh_wrap hP _
  case h_2 =>
    cases h
    exact Value.fresh_known (hP.made (Fact.made_word (w := .long) _))
  case h_3 => cases h; exact Value.fresh_top _
  case h_4 => cases h; exact Value.fresh_top _
  case h_5 =>
    cases h
    exact Value.fresh_known (hP.made (.string _))
  case h_6 =>
    cases h
    split
    · exact Value.fresh_top _
    · exact Value.fresh_known (hP.made (.exactObject _))
  case h_7 => cases h

theorem fresh_newValue (r : SymbolRef) : (Step.newValue r).Fresh P := by
  unfold Step.newValue
  split
  · exact Value.fresh_top _
  · exact Value.fresh_known (hP.made (.exactObject _))

theorem fresh_arrayOf (desc : String) (count : Value) : (arrayOf desc count).Fresh P := by
  refine Value.fresh_known ?_
  split
  · split <;> exact hP.made (.array _ _ _)
  · exact hP.made (.array _ _ _)

theorem fresh_lengthValue {arr : Value} (h : arr.Within P) (hk : arr.kind = .ref) :
    (Step.lengthValue arr).Fresh P := by
  have hany : P .int (.range 0 maxInt32) := hP.made (.int 0 maxInt32 (by decide) (by decide))
  refine Value.fresh_known ?_
  split
  case h_1 f hf =>
    split
    case isTrue harray => exact hP.length (h.fact hf hk) harray
    case isFalse => exact hany
  case h_2 => exact hany

theorem fresh_castResult {oracle : Option SubtypeOracle} {r : SymbolRef} {v : Value}
    (hv : v.isPad = false) (h : v.Within P) : (Step.castResult oracle r v).Fresh P := by
  unfold Step.castResult
  split
  · exact Value.fresh_unmarked hv h
  · split
    · exact Value.fresh_unmarked hv h
    · split
      · exact Value.fresh_top _
      · exact Value.fresh_known (hP.made (.object _ _))

theorem fresh_testResult (oracle : Option SubtypeOracle) (cls : String) (f : Option Fact) :
    (Step.testResult oracle cls f).Fresh P := by
  unfold Step.testResult
  split
  · exact fresh_intConst hP (by decide) (by decide)
  · split
    · exact fresh_intConst hP (by decide) (by decide)
    · exact fresh_intConst hP (by decide) (by decide)
    · exact fresh_range hP (by decide) (by decide)

/-! ## Calls -/

theorem within_callValue {kind : InvokeKind} {r : SymbolRef} {t : JavaType} {answer : Value}
    {args : List Value} (h : answer.Within P) :
    (Operation.callValue kind r t answer args).Within P := by
  unfold Operation.callValue
  split
  · exact (Value.fresh_top _).within
  · split
    · cases hlen : args.getLast?.bind Step.stringLength? with
      | none => exact h
      | some v =>
        obtain ⟨a, -, hv⟩ := Option.bind_eq_some_iff.1 hlen
        obtain ⟨f, -, hv⟩ := Option.bind_eq_some_iff.1 hv
        split at hv
        · cases hv
          exact (fresh_wrap hP _).within
        · cases hv
    · split
      · exact (Value.fresh_known (hP.made (.exactObject _))).within
      · exact h

omit hP in
theorem fresh_callOutput {t : JavaType} {answer : Value} (h : answer.Within P) :
    ∀ v ∈ Operation.callOutput t answer, v.Fresh P := by
  intro v hv
  unfold Operation.callOutput at hv
  split at hv
  · cases hv
  · obtain rfl := List.mem_singleton.1 hv
    split
    case isTrue hfit =>
      simp only [Step.fitsResult, Bool.and_eq_true, Bool.not_eq_true'] at hfit
      exact Value.fresh_unmarked hfit.2 h
    case isFalse => exact Value.fresh_top _

/-! ## All operations -/

theorem fresh_outputs_of_ne {s : Subject} {ins : Instruction} {o : Operation} {args : List Value}
    (ho : o.isSmall = true) (hinvoke : ∀ kind, o ≠ .invoke kind)
    (hk : args.map Value.kind = o.inputs ins) (hsolid : ∀ v ∈ args, v.isPad = false)
    (hargs : ∀ v ∈ args, v.Within P) : ∀ v ∈ o.outputs s ins args, v.Fresh P := by
  intro v hv
  have hone {w : Value} (h : w.Fresh P) (hv : v ∈ [w]) : v.Fresh P := List.mem_singleton.1 hv ▸ h
  cases o with
  | invoke kind => exact absurd rfl (hinvoke kind)
  | constNull => exact hone (Value.fresh_known (hP.made .null)) hv
  | constInt c =>
    simp only [Operation.isSmall, Bool.and_eq_true, decide_eq_true_eq] at ho
    exact hone (fresh_intConst hP ho.1 ho.2) hv
  | constLong c =>
    simp only [Operation.isSmall, Bool.and_eq_true, decide_eq_true_eq] at ho
    unfold minInt32 maxInt32 at ho
    exact hone (Value.fresh_known (hP.made (Fact.made_long (by omega) (by omega)))) hv
  | constFloating k | floatArith k => exact hone (Value.fresh_top k) hv
  | pushImmediate => exact hone (fresh_wrap hP _) hv
  | loadConstant =>
    obtain ⟨r, -, hr⟩ := Option.bind_eq_some_iff.1 (Option.mem_toList.1 hv)
    exact fresh_constantValue? hP hr
  | arrayLoad e => exact hone (fresh_element hP e) hv
  | arith w f =>
    obtain ⟨b, a, rfl, -, -⟩ := args_two hk
    exact hone (fresh_arithResult hP w f a b) hv
  | shift w f =>
    obtain ⟨n, a, rfl, -, -⟩ := args_two hk
    exact hone (fresh_shiftResult hP w f a n) hv
  | negate w =>
    obtain ⟨a, rfl, -⟩ := args_one hk
    exact hone (fresh_negateResult hP w a) hv
  | convert c =>
    obtain ⟨a, rfl, ha⟩ := args_one hk
    exact hone (fresh_convertResult hP (hargs a List.mem_cons_self) ha) hv
  | compareLong =>
    obtain ⟨b, a, rfl, -, -⟩ := args_two hk
    exact hone (fresh_compareResult hP a b) hv
  | compareFloating k => exact hone (fresh_anyOrder hP) hv
  | readField ofObject =>
    obtain ⟨t, -, rfl⟩ := List.mem_map.1 hv
    exact Value.fresh_top _
  | newObject =>
    obtain ⟨r, -, rfl⟩ := List.mem_map.1 hv
    exact fresh_newValue hP r
  | newPrimitiveArray =>
    obtain ⟨n, rfl, -⟩ := args_one hk
    obtain ⟨desc, -, rfl⟩ := List.mem_map.1 hv
    exact fresh_arrayOf hP desc n
  | newObjectArray =>
    obtain ⟨n, rfl, -⟩ := args_one hk
    obtain ⟨r, -, rfl⟩ := List.mem_map.1 hv
    exact fresh_arrayOf hP _ n
  | newMultiArray =>
    obtain ⟨r, -, rfl⟩ := List.mem_map.1 hv
    exact fresh_arrayOf hP _ _
  | arrayLength =>
    obtain ⟨arr, rfl, ha⟩ := args_one hk
    exact hone (fresh_lengthValue hP (hargs arr List.mem_cons_self) ha) hv
  | checkCast =>
    obtain ⟨w, rfl, -⟩ := args_one hk
    obtain ⟨r, -, rfl⟩ := List.mem_map.1 hv
    exact fresh_castResult hP (hsolid w List.mem_cons_self) (hargs w List.mem_cons_self)
  | instanceOf =>
    obtain ⟨w, rfl, -⟩ := args_one hk
    obtain ⟨r, -, rfl⟩ := List.mem_map.1 hv
    exact fresh_testResult hP _ _ _
  | _ => cases hv

end Results

namespace Step

open Machine

/-- A plain operation takes values and pushes results that are in a class of facts if the values are
    and the visitor keeps to the class. It notes predicates only about a value that it tests. -/
theorem transfer_results {P : Kind → Fact → Prop} (hP : FactClass P) {s : Subject}
    {ins : Instruction} {b : Nat} {fr : Int} {o : Operation} {u : Unit} {m m' : Machine}
    (hvisitor : ∀ calls site, (s.visitor calls site).Within P)
    (ho : ins.op.operation? = some o) (hplain : o.isPlain = true)
    (h : transfer s b fr ins o m = .ok u m') :
    ∃ args results, Performs m o.isTest args results m'
      ∧ ((∀ v ∈ args, v.Within P) → ∀ v ∈ results, v.Fresh P) := by
  by_cases hinvoke : ∃ kind, o = .invoke kind
  · obtain ⟨kind, rfl⟩ := hinvoke
    obtain ⟨r, sig, args, hi⟩ := invoke_ok h
    exact ⟨args, _, hi.performs, fun _ => fresh_callOutput (within_callValue hP (hvisitor _ _))⟩
  · have hne (kind : InvokeKind) : o ≠ .invoke kind := fun he => hinvoke ⟨kind, he⟩
    obtain ⟨args, hk, hp⟩ := transfer_performs_of_ne hplain hne h
    obtain ⟨f, ht, -⟩ := hp.frame
    exact ⟨args, _, hp, fresh_outputs_of_ne hP (isSmall_of_operation? ho) hne hk ht.solid⟩

end Step

end InlinePlan
