import InlinePlan.Proofs.Analysis.Keeps

set_option autoImplicit false

/-! # Effects of operations

Most operations take some values from the stack and push their results. `Operation.inputs` says of
which kinds the values are and `Operation.outputs` what the results are; `transfer_effect` says that
the analysis does just that, and that what it notes is about the value taken last. -/

namespace InlinePlan

open InlinePlan.Frame

/-! ## Operands and results -/

namespace Instruction

/-- The type of the field that an instruction names. -/
def fieldType? (ins : Instruction) : Option JavaType :=
  ins.ref.bind fun r => (JavaType.parse r.descriptor).toOption

/-- The signature of the method that an instruction names. -/
def signature? (ins : Instruction) : Option Signature :=
  ins.ref.bind fun r => (Signature.parse r.descriptor).toOption

end Instruction

namespace Operation

/-- Whether an operation does nothing but take values and push results. -/
def isPlain : Operation → Bool
  | .load .. | .store .. | .pop | .dup | .shuffle _ | .increment | .throwObject => false
  | _ => true

/-- Whether an operation tests the value that it takes last. -/
def isTest : Operation → Bool
  | .testZero _ | .testNull _ | .arrayLength | .checkCast | .instanceOf => true
  | .readField ofObject | .writeField ofObject => ofObject
  | .invoke kind => kind.hasReceiver
  | _ => false

/-- The object that an access takes. -/
def receiver (present : Bool) : List Kind := if present then [.ref] else []

/-- The kinds of the values that an operation takes, the topmost first. -/
def inputs (ins : Instruction) : Operation → List Kind
  | .arith w _ => [w.kind, w.kind]
  | .shift w _ => [.int, w.kind]
  | .negate w => [w.kind]
  | .floatArith k | .compareFloating k => [k, k]
  | .convert c => [c.source]
  | .compareLong => [.long, .long]
  | .testZero _ | .switch | .newPrimitiveArray | .newObjectArray => [.int]
  | .testInts _ => [.int, .int]
  | .testRefs _ => [.ref, .ref]
  | .testNull _ | .arrayLength | .checkCast | .instanceOf | .monitor => [.ref]
  | .returnValue k => [k]
  | .arrayLoad _ => [.int, .ref]
  | .arrayStore k => [k, .int, .ref]
  | .readField ofObject => receiver ofObject
  | .writeField ofObject => ins.fieldType?.toList.map JavaType.kind ++ receiver ofObject
  | .invoke kind =>
    ins.signature?.elim [] fun sig =>
      (sig.params.map JavaType.kind).reverse ++ receiver kind.hasReceiver
  | .newMultiArray => List.replicate ins.imm.toNat .int
  | _ => []

/-- What a call returns if nothing is known about the method. -/
def callAnswer (kind : InvokeKind) (r : SymbolRef) (t : JavaType) (args : List Value) : Value :=
  if r.unresolved then .top t.kind
  else if Step.isStringLength r then
    (args.getLast?.bind Step.stringLength?).getD (.top t.kind)
  else if Step.isGetClass kind r then .known .ref (.exactObject classClass)
  else .top t.kind

/-- What a call returns if the visitor answers `answer`. -/
def callValue (kind : InvokeKind) (r : SymbolRef) (t : JavaType) (answer : Value)
    (args : List Value) : Value :=
  if r.unresolved then .top t.kind
  else if Step.isStringLength r then (args.getLast?.bind Step.stringLength?).getD answer
  else if Step.isGetClass kind r then .known .ref (.exactObject classClass)
  else answer

/-- The result of a call, if it has one. -/
def callOutput (t : JavaType) (answer : Value) : List Value :=
  if t.category = .void then []
  else [if Step.fitsResult t answer then answer.unmarked else .top t.kind]

/-- The values that an operation pushes, given those it takes. -/
def outputs (s : Subject) (ins : Instruction) : Operation → List Value → List Value
  | .constNull, _ => [.nullRef]
  | .constInt v, _ => [.intConst v]
  | .constLong v, _ => [.longConst v]
  | .constFloating k, _ => [.top k]
  | .pushImmediate, _ => [.intConst (wrap 32 ins.imm)]
  | .loadConstant, _ => (ins.ref.bind (Step.constantValue? ins)).toList
  | .arrayLoad e, _ => [e.value]
  | .arith w f, [b, a] => [arithResult w f a b]
  | .shift w f, [n, a] => [shiftResult w f a n]
  | .negate w, [a] => [negateResult w a]
  | .floatArith k, _ => [.top k]
  | .convert c, [a] => [convertResult c a]
  | .compareLong, [b, a] => [compareResult a b]
  | .compareFloating _, _ => [anyOrder]
  | .readField _, _ => ins.fieldType?.toList.map fun t => .top t.kind
  | .invoke kind, args =>
    ins.ref.elim [] fun r => ins.signature?.elim [] fun sig =>
      callOutput sig.result (callAnswer kind r sig.result args)
  | .newObject, _ => ins.ref.toList.map Step.newValue
  | .newPrimitiveArray, [n] => (primitiveArrayDescriptor? ins.imm).toList.map (arrayOf · n)
  | .newObjectArray, [n] => ins.ref.toList.map fun r => arrayOf (arrayDescriptor r.cls) n
  | .newMultiArray, args =>
    ins.ref.toList.map fun r => arrayOf r.cls (args.getLast?.getD .unusable)
  | .arrayLength, [arr] => [Step.lengthValue arr]
  | .checkCast, [v] => ins.ref.toList.map fun r => Step.castResult s.oracle r v
  | .instanceOf, [v] => ins.ref.toList.map fun r => Step.testResult s.oracle r.cls v.fact
  | _, _ => []

end Operation

/-- A constant that an operation pushes fits into 32 bits. -/
def Operation.isSmall : Operation → Bool
  | .constInt v | .constLong v => minInt32 ≤ v && v ≤ maxInt32
  | _ => true

theorem isSmall_of_operation? {op : Opcode} {o : Operation} (h : op.operation? = some o) :
    o.isSmall = true := by
  have hall : opcodeTable.all (·.operation.isSmall) = true := by decide
  obtain ⟨e, he, rfl⟩ := Option.map_eq_some_iff.1 h
  exact List.all_eq_true.1 hall e (List.mem_of_getElem? he)

/-! ## Frames -/

/-- An operation takes `args`, the topmost first, and pushes `results`. -/
def Frame.Exchanges (f : Frame) (args results : List Value) (f' : Frame) : Prop :=
  ∃ f₁, Takes f args f₁ ∧ f' = ⟨f₁.locals, results.flatMap cells ++ f₁.stack⟩

namespace Frame

variable {f f' f₁ : Frame} {args : List Value} {v : Value}

theorem Takes.exchanges (h : Takes f args f') : Exchanges f args [] f' := ⟨f', h, rfl⟩

theorem Takes.push {u : Unit} (h : Takes f args f₁) (hp : push v f₁ = .ok u f') :
    Exchanges f args [v] f' := ⟨f₁, h, by simpa using hp⟩

theorem unary_exchanges {k : Kind} {r : Value → Value} {u : Unit}
    (h : (do let a ← pop k; push (r a) : FrameM Unit) f = .ok u f') :
    ∃ a, [a].map Value.kind = [k] ∧ Exchanges f [a] [r a] f' := by
  obtain ⟨a, f₁, ha, hp⟩ := by simpa only [bind_eq_ok] using h
  obtain ⟨ta, ka⟩ := pop_takes ha
  exact ⟨a, by simp [ka], ta.push hp⟩

theorem binary_exchanges {k k' : Kind} {r : Value → Value → Value} {u : Unit}
    (h : (do let b ← pop k; let a ← pop k'; push (r a b) : FrameM Unit) f = .ok u f') :
    ∃ a b, [b, a].map Value.kind = [k, k'] ∧ Exchanges f [b, a] [r a b] f' := by
  obtain ⟨b, f₁, hb, a, f₂, ha, hp⟩ := by simpa only [bind_eq_ok] using h
  obtain ⟨tb, kb⟩ := pop_takes hb
  obtain ⟨ta, ka⟩ := pop_takes ha
  exact ⟨a, b, by simp [ka, kb], (tb.append ta).push hp⟩

theorem arrayStore_exchanges {k : Kind} {u : Unit} (h : arrayStore k f = .ok u f') :
    ∃ args, args.map Value.kind = [k, .int, .ref] ∧ Exchanges f args [] f' := by
  obtain ⟨_, f₁, ⟨v, hv⟩, _, f₂, ⟨i, hi⟩, a, ha⟩ := by
    simpa only [arrayStore, bind_eq_ok, discard_eq_ok] using h
  obtain ⟨tv, kv⟩ := pop_takes hv
  obtain ⟨ti, ki⟩ := pop_takes hi
  obtain ⟨ta, ka⟩ := pop_takes ha
  exact ⟨[v, i, a], by simp [ka, ki, kv], ((tv.append ti).append ta).exchanges⟩

theorem newPrimitiveArray_exchanges {code : Int} {u : Unit}
    (h : newPrimitiveArray code f = .ok u f') :
    ∃ n desc, primitiveArrayDescriptor? code = some desc ∧ [n].map Value.kind = [.int]
      ∧ Exchanges f [n] [arrayOf desc n] f' := by
  unfold newPrimitiveArray at h
  cases hdesc : primitiveArrayDescriptor? code with
  | none => simp [hdesc] at h
  | some desc =>
    obtain ⟨n, hkind, hex⟩ := unary_exchanges (by simpa only [hdesc] using h)
    exact ⟨n, desc, rfl, hkind, hex⟩

theorem newMultiArray_exchanges {cls : String} {dimensions : Int} {u : Unit}
    (h : newMultiArray cls dimensions f = .ok u f') :
    ∃ args, args.map Value.kind = List.replicate dimensions.toNat .int
      ∧ Exchanges f args [arrayOf cls (args.getLast?.getD .unusable)] f' := by
  obtain ⟨-, counts, f₁, hc, hp⟩ := by
    simpa only [newMultiArray, guard_eq_ok, bind_eq_ok] using h
  obtain ⟨args, ha, hk, rfl⟩ := popArray_takes hc
  rw [List.headD_eq_head?_getD, List.head?_reverse] at hp
  exact ⟨args, hk, ha.push hp⟩

end Frame

/-! ## Machines -/

/-- A predicate about the argument that the last of some values is marked as. -/
def Predicate.Concerns (p : Predicate) (args : List Value) : Prop :=
  ∃ v ∈ args.getLast?, ∃ k : Nat, v.param = some k ∧ p.param = k

namespace Machine

/-- An operation takes `args`, the topmost first, and pushes `results`. If it `tests` the last value
    that it takes, it may note predicates about it. -/
structure Performs (m : Machine) (tests : Bool) (args results : List Value) (m' : Machine) :
    Prop where
  frame : Exchanges m.frame args results m'.frame
  notes : ∃ ps, m'.predicates = m.predicates ++ ps ∧ ∀ p ∈ ps, tests = true ∧ p.Concerns args

/-- The frame and the predicates are the same. -/
structure Agrees (m m' : Machine) : Prop where
  frame : m'.frame = m.frame
  predicates : m'.predicates = m.predicates

/-- Taking `args`, the topmost first, leads from `m` to `m'`. -/
structure Takes (m : Machine) (args : List Value) (m' : Machine) : Prop where
  frame : m.frame.Takes args m'.frame
  predicates : m'.predicates = m.predicates

/-- The frame is the same, and the predicates noted are about the last of `args`, which is tested. -/
structure Notes (tests : Bool) (args : List Value) (m m' : Machine) : Prop where
  frame : m'.frame = m.frame
  notes : ∃ ps, m'.predicates = m.predicates ++ ps ∧ ∀ p ∈ ps, tests = true ∧ p.Concerns args

variable {m m₁ m₂ m' : Machine} {tests : Bool} {args : List Value} {v : Value}

theorem Agrees.rfl : Agrees m m := ⟨Eq.refl _, Eq.refl _⟩

theorem Agrees.takes (h : Agrees m m') : Takes m [] m' :=
  ⟨h.frame ▸ Frame.Takes.nil _, h.predicates⟩

theorem Agrees.notes (h : Agrees m m') : Notes tests args m m' :=
  ⟨h.frame, [], by rw [h.predicates, List.append_nil], by simp⟩

theorem Notes.agrees (hn : Notes tests args m m₁) (h : Agrees m₁ m') : Notes tests args m m' := by
  obtain ⟨ps, hps, hc⟩ := hn.notes
  exact ⟨h.frame.trans hn.frame, ps, h.predicates.trans hps, hc⟩

theorem Takes.append {as bs : List Value} (ha : Takes m as m₁) (hb : Takes m₁ bs m') :
    Takes m (as ++ bs) m' :=
  ⟨ha.frame.append hb.frame, hb.predicates.trans ha.predicates⟩

theorem Agrees.takes_trans (h : Agrees m m₁) (ht : Takes m₁ args m') : Takes m args m' :=
  h.takes.append ht

theorem Takes.agrees (ht : Takes m args m₁) (h : Agrees m₁ m') : Takes m args m' := by
  have := ht.append h.takes
  rwa [List.append_nil] at this

theorem Takes.performs (ht : Takes m args m₁) (hn : Notes tests args m₁ m') :
    Performs m tests args [] m' := by
  obtain ⟨ps, hps, hc⟩ := hn.notes
  exact ⟨hn.frame ▸ ht.frame.exchanges, ps, by rw [hps, ht.predicates], hc⟩

end Machine

namespace Step

open Machine

variable {s : Subject} {ins : Instruction} {m m₁ m' : Machine} {α : Type} {tests : Bool}
  {args : List Value} {v : Value}

@[simp] theorem liftM_eq_ok {x : FrameM α} {a : α} :
    (liftM x : Step α) m = .ok a m' ↔ ∃ f, x m.frame = .ok a f ∧ m' = { m with frame := f } := by
  show onFrame x m = .ok a m' ↔ _
  unfold onFrame
  cases x m.frame with
  | ok b f =>
    simp only [EStateM.Result.ok.injEq]
    constructor
    · rintro ⟨rfl, rfl⟩
      exact ⟨f, ⟨rfl, rfl⟩, rfl⟩
    · rintro ⟨_, ⟨rfl, rfl⟩, rfl⟩
      exact ⟨rfl, rfl⟩
  | error e f => simp

theorem exchanges_performs {f : Frame} {results : List Value}
    (h : Exchanges m.frame args results f) : Performs m tests args results { m with frame := f } :=
  ⟨h, [], by simp, by simp⟩

theorem pop_takes {k : Kind} (h : (liftM (Frame.pop k) : Step Value) m = .ok v m') :
    Takes m [v] m' ∧ v.kind = k := by
  obtain ⟨f, hf, rfl⟩ := liftM_eq_ok.1 h
  obtain ⟨ht, hk⟩ := Frame.pop_takes hf
  exact ⟨⟨ht, rfl⟩, hk⟩

theorem push_performs {u : Unit} (ht : Takes m args m₁) {m₂ : Machine}
    (hn : Notes tests args m₁ m₂) (h : (liftM (push v) : Step Unit) m₂ = .ok u m') :
    Performs m tests args [v] m' := by
  obtain ⟨f, hf, rfl⟩ := liftM_eq_ok.1 h
  obtain ⟨ps, hps, hc⟩ := hn.notes
  rw [hn.frame] at hf
  exact ⟨ht.frame.push hf, ps, by rw [← ht.predicates]; exact hps, hc⟩

/-! ## Records -/

theorem warn_agrees {options : AnalysisOptions} {message : String} {u : Unit}
    (h : warn options message m = .ok u m') : Agrees m m' := by
  unfold warn at h
  split at h
  · obtain rfl := modify_eq_ok.1 h
    exact ⟨rfl, rfl⟩
  · obtain ⟨-, rfl⟩ := pure_eq_ok.1 h
    exact Agrees.rfl

theorem unresolved_agrees {options : AnalysisOptions} {r : SymbolRef} {u : Unit}
    (h : unresolved options ins r m = .ok u m') : Agrees m m' := by
  unfold unresolved at h
  split at h
  · exact absurd h (by simp)
  · exact warn_agrees h

theorem checkResolved_agrees {r : SymbolRef} {u : Unit} (h : checkResolved s ins r m = .ok u m') :
    Agrees m m' := by
  unfold checkResolved at h
  split at h
  · exact unresolved_agrees h
  · obtain ⟨-, rfl⟩ := pure_eq_ok.1 h
    exact Agrees.rfl

theorem visit_agrees {visitor : Visitor} {site : CallSite}
    (h : visit visitor site m = .ok v m') :
    Agrees m m' ∧ m'.calls = m.calls ++ [site] ∧ v = visitor m.calls site := by
  simp only [visit, bind_eq_ok, get_eq_ok, set_eq_ok, pure_eq_ok] at h
  obtain ⟨_, _, ⟨rfl, rfl⟩, _, _, rfl, rfl, rfl⟩ := h
  exact ⟨⟨rfl, rfl⟩, rfl, rfl⟩

theorem noteParam_notes {ps : Nat → List Predicate} {u : Unit}
    (hps : ∀ k, ∀ p ∈ ps k, p.param = k) (hv : args.getLast? = some v)
    (h : noteParam v ps m = .ok u m') : Notes true args m m' := by
  unfold noteParam at h
  cases hp : v.param with
  | none =>
    simp only [hp, pure_eq_ok, true_and] at h
    exact h ▸ Agrees.rfl.notes
  | some k =>
    simp only [hp, note, modify_eq_ok] at h
    subst h
    exact ⟨rfl, ps k, rfl, fun p hp' => ⟨rfl, v, by simp [hv], k, hp, hps k p hp'⟩⟩

/-! ## References -/

theorem loadConstant_performs {u : Unit} (h : loadConstant s ins m = .ok u m') :
    Performs m tests [] (Operation.loadConstant.outputs s ins []) m' := by
  unfold loadConstant at h
  cases hr : ins.ref with
  | none => simp [hr] at h
  | some r =>
    cases hv : constantValue? ins r with
    | none => simp [hr, hv] at h
    | some v =>
      simp only [hr, hv] at h
      have hout : Operation.loadConstant.outputs s ins [] = [v] := by
        simp [Operation.outputs, hr, hv]
      rw [hout]
      split at h
      · obtain ⟨_, m₁, hc, hp⟩ := bind_eq_ok.1 h
        exact push_performs Agrees.rfl.takes (checkResolved_agrees hc).notes hp
      · exact push_performs Agrees.rfl.takes Agrees.rfl.notes h

theorem newObject_performs {u : Unit} (h : newObject s ins m = .ok u m') :
    Performs m tests [] (Operation.newObject.outputs s ins []) m' := by
  simp only [newObject, bind_eq_ok] at h
  obtain ⟨r, m₁, hr, _, m₂, hc, hp⟩ := h
  obtain ⟨href, rfl⟩ := classRef_ok hr
  have hout : Operation.newObject.outputs s ins [] = [newValue r] := by
    simp [Operation.outputs, href]
  rw [hout]
  exact push_performs Agrees.rfl.takes (checkResolved_agrees hc).notes hp

theorem newObjectArray_performs {u : Unit} (h : newObjectArray ins m = .ok u m') :
    ∃ args, args.map Value.kind = [.int]
      ∧ Performs m tests args (Operation.newObjectArray.outputs s ins args) m' := by
  simp only [newObjectArray, bind_eq_ok] at h
  obtain ⟨r, m₁, hr, n, m₂, hn, hp⟩ := h
  obtain ⟨href, rfl⟩ := classRef_ok hr
  obtain ⟨ht, hk⟩ := pop_takes hn
  have hout : Operation.newObjectArray.outputs s ins [n] = [arrayOf (arrayDescriptor r.cls) n] := by
    simp [Operation.outputs, href]
  exact ⟨[n], by simp [hk], hout ▸ push_performs ht Agrees.rfl.notes hp⟩

theorem newMultiArray_performs {u : Unit} (h : newMultiArray ins m = .ok u m') :
    ∃ args, args.map Value.kind = List.replicate ins.imm.toNat .int
      ∧ Performs m tests args (Operation.newMultiArray.outputs s ins args) m' := by
  simp only [newMultiArray, bind_eq_ok] at h
  obtain ⟨r, m₁, hr, hp⟩ := h
  obtain ⟨href, rfl⟩ := classRef_ok hr
  obtain ⟨f, hf, rfl⟩ := liftM_eq_ok.1 hp
  obtain ⟨args, hk, hex⟩ := newMultiArray_exchanges hf
  exact ⟨args, hk, exchanges_performs (by simpa [Operation.outputs, href] using hex)⟩

theorem arrayLength_performs {u : Unit} (h : arrayLength m = .ok u m') :
    ∃ arr, [arr].map Value.kind = [.ref] ∧ Performs m true [arr] [lengthValue arr] m' := by
  simp only [arrayLength, bind_eq_ok] at h
  obtain ⟨arr, m₁, ha, _, m₂, hn, hp⟩ := h
  obtain ⟨ht, hk⟩ := pop_takes ha
  exact ⟨arr, by simp [hk], push_performs ht
    (noteParam_notes (by simp [Predicate.nullCheck]) rfl hn) hp⟩

theorem checkCast_performs {u : Unit} (h : checkCast s ins m = .ok u m') :
    ∃ args, args.map Value.kind = [.ref]
      ∧ Performs m true args (Operation.checkCast.outputs s ins args) m' := by
  simp only [checkCast, bind_eq_ok] at h
  obtain ⟨r, m₁, hr, _, m₂, hc, v, m₃, hv, _, m₄, hn, hp⟩ := h
  obtain ⟨href, rfl⟩ := classRef_ok hr
  obtain ⟨ht, hk⟩ := pop_takes hv
  have hout : Operation.checkCast.outputs s ins [v] = [castResult s.oracle r v] := by
    simp [Operation.outputs, href]
  exact ⟨[v], by simp [hk], hout ▸ push_performs ((checkResolved_agrees hc).takes_trans ht)
    (noteParam_notes (by simp [Predicate.typeTest]) rfl hn) hp⟩

theorem instanceOf_performs {u : Unit} (h : instanceOf s ins m = .ok u m') :
    ∃ args, args.map Value.kind = [.ref]
      ∧ Performs m true args (Operation.instanceOf.outputs s ins args) m' := by
  simp only [instanceOf, bind_eq_ok] at h
  obtain ⟨r, m₁, hr, _, m₂, hc, v, m₃, hv, _, m₄, hn, hp⟩ := h
  obtain ⟨href, rfl⟩ := classRef_ok hr
  obtain ⟨ht, hk⟩ := pop_takes hv
  have hout : Operation.instanceOf.outputs s ins [v] = [testResult s.oracle r.cls v.fact] := by
    simp [Operation.outputs, href]
  exact ⟨[v], by simp [hk], hout ▸ push_performs ((checkResolved_agrees hc).takes_trans ht)
    (noteParam_notes (by simp [Predicate.typeTest]) rfl hn) hp⟩

/-! ## Fields -/

/-- What an access to a field of an object or of a class takes: the value it writes, and the
    object. -/
theorem fieldAccess_ok {ofObject isWrite : Bool} {u : Unit}
    (h : fieldAccess s ins ofObject isWrite m = .ok u m') :
    ∃ t, ins.fieldType? = some t ∧ ∃ args,
      args.map Value.kind = (if isWrite then [t.kind] else []) ++ Operation.receiver ofObject
      ∧ Performs m ofObject args (if isWrite then [] else [.top t.kind]) m' := by
  unfold fieldAccess at h
  cases hr : ins.ref with
  | none => simp [hr] at h
  | some r =>
    simp only [hr, guard_eq_ok] at h
    obtain ⟨-, h⟩ := h
    cases ht : JavaType.parse r.descriptor with
    | error e => simp [ht] at h
    | ok t =>
      simp only [ht, bind_eq_ok] at h
      obtain ⟨_, m₁, hc, h⟩ := h
      have hc := checkResolved_agrees hc
      refine ⟨t, by simp [Instruction.fieldType?, hr, ht, Except.toOption], ?_⟩
      cases isWrite with
      | false =>
        simp only [Bool.false_eq_true, if_false, Bool.not_false, if_true] at h ⊢
        cases ofObject with
        | false => exact ⟨[], rfl, push_performs hc.takes Agrees.rfl.notes h⟩
        | true =>
          simp only [if_true, bind_eq_ok] at h
          obtain ⟨v, m₂, hv, _, m₃, hn, hp⟩ := h
          obtain ⟨htk, hk⟩ := pop_takes hv
          exact ⟨[v], by simp [hk, Operation.receiver], push_performs (hc.takes_trans htk)
            (noteParam_notes (by simp [Predicate.nullCheck]) rfl hn) hp⟩
      | true =>
        simp only [if_true, bind_eq_ok, discard_eq_ok, Bool.not_true, Bool.false_eq_true,
          if_false] at h ⊢
        obtain ⟨_, m₂, ⟨w, hw⟩, h⟩ := h
        obtain ⟨htw, hkw⟩ := pop_takes hw
        cases ofObject with
        | false =>
          simp only [Bool.false_eq_true, if_false, pure_eq_ok, true_and] at h
          subst h
          exact ⟨[w], by simp [hkw, Operation.receiver],
            (hc.takes_trans htw).performs Agrees.rfl.notes⟩
        | true =>
          simp only [if_true, bind_eq_ok, pure_eq_ok, true_and] at h
          obtain ⟨v, m₃, hv, _, m₄, hn, rfl⟩ := h
          obtain ⟨htk, hk⟩ := pop_takes hv
          exact ⟨[w, v], by simp [hk, hkw, Operation.receiver],
            ((hc.takes_trans htw).append htk).performs
              (noteParam_notes (by simp [Predicate.nullCheck]) rfl hn)⟩

/-! ## Calls -/

theorem popReceiver_takes {kind : InvokeKind} {vs : List Value}
    (h : popReceiver kind m = .ok vs m') :
    ∃ m₁, Takes m vs m₁ ∧ vs.map Value.kind = Operation.receiver kind.hasReceiver
      ∧ vs.reverse = vs ∧ ∀ args, Notes kind.hasReceiver (args ++ vs) m₁ m' := by
  unfold popReceiver at h
  cases hk : kind.hasReceiver with
  | false =>
    simp only [hk, Bool.false_eq_true, if_false, pure_eq_ok] at h
    obtain ⟨rfl, rfl⟩ := h
    exact ⟨m, Agrees.rfl.takes, rfl, rfl, fun _ => Agrees.rfl.notes⟩
  | true =>
    simp only [hk, if_true, bind_eq_ok, pure_eq_ok] at h
    obtain ⟨v, m₁, hv, _, m₂, hn, rfl, rfl⟩ := h
    obtain ⟨ht, hkind⟩ := pop_takes hv
    refine ⟨m₁, ht, by simp [hkind, Operation.receiver], rfl, fun args => ?_⟩
    exact noteParam_notes (by simp [Predicate.nullCheck]) (by simp) hn

/-- A call is reported unless its method is unresolved. What it returns depends on its operands and
    on the answer of the visitor. -/
theorem callResult_ok {site : CallSite} (h : callResult s ins site m = .ok v m') :
    Agrees m m' ∧ m'.calls = m.calls ++ (if site.ref.unresolved then [] else [site])
      ∧ v = Operation.callValue site.kind site.ref site.result (s.visitor m.calls site)
          site.args.reverse := by
  unfold callResult at h
  unfold Operation.callValue
  split at h
  case isTrue hu =>
    obtain ⟨_, m₁, hm, hp⟩ := bind_eq_ok.1 h
    obtain ⟨rfl, rfl⟩ := pure_eq_ok.1 hp
    refine ⟨unresolved_agrees hm, ?_, by rw [if_pos hu]; rfl⟩
    rw [if_pos hu, List.append_nil]
    exact callless_unresolved.of_ok hm
  case isFalse hu =>
    simp only [bind_eq_ok, pure_eq_ok] at h
    obtain ⟨w, m₁, hw, known, m₂, hk, rfl, rfl⟩ := h
    obtain ⟨hagree, hcalls, rfl⟩ := visit_agrees hw
    rw [if_neg hu, if_neg hu, ← hcalls]
    unfold intrinsic at hk
    split at hk
    case isTrue hl =>
      cases hargs : site.args with
      | nil => simp [hargs] at hk
      | cons a as =>
        simp only [hargs, pure_eq_ok] at hk
        obtain ⟨rfl, rfl⟩ := hk
        exact ⟨hagree, rfl, by simp [hl]⟩
    case isFalse hl =>
      rw [if_neg hl]
      split at hk
      case isTrue hg =>
        obtain ⟨rfl, rfl⟩ := pure_eq_ok.1 hk
        exact ⟨hagree, rfl, by rw [if_pos hg]; rfl⟩
      case isFalse hg =>
        obtain ⟨rfl, rfl⟩ := pure_eq_ok.1 hk
        exact ⟨hagree, rfl, by rw [if_neg hg]; rfl⟩

theorem pushResult_performs {t : JavaType} {u : Unit} {m₂ : Machine} (ht : Takes m args m₁)
    (hn : Notes tests args m₁ m₂) (h : pushResult s ins t v m₂ = .ok u m') :
    Performs m tests args (Operation.callOutput t v) m' := by
  unfold pushResult at h
  unfold Operation.callOutput
  split at h
  case isTrue hvoid =>
    obtain ⟨-, rfl⟩ := pure_eq_ok.1 h
    rw [if_pos hvoid]
    exact ht.performs hn
  case isFalse hvoid =>
    rw [if_neg hvoid]
    cases hfit : fitsResult t v with
    | false =>
      simp only [hfit, Bool.not_false, if_true, Bool.false_eq_true, if_false, bind_eq_ok] at h ⊢
      obtain ⟨_, m₃, hw, hp⟩ := h
      exact push_performs ht (hn.agrees (warn_agrees hw)) hp
    | true =>
      simp only [hfit, Bool.not_true, if_true, Bool.false_eq_true, if_false] at h ⊢
      exact push_performs ht hn h

/-- The call that an instruction of block `b` makes with the arguments `args`, the topmost first. -/
def siteOf (s : Subject) (b : Nat) (fr : Int) (ins : Instruction) (kind : InvokeKind)
    (r : SymbolRef) (t : JavaType) (args : List Value) : CallSite :=
  { caller := s.method, block := b, frequency := fr, bci := ins.bci, kind, ref := r,
    args := args.reverse, result := t }

/-- A call of the method that `r` names takes `args` and pushes its result. It is reported unless the
    method is unresolved. -/
structure Invokes (s : Subject) (b : Nat) (fr : Int) (ins : Instruction) (kind : InvokeKind)
    (r : SymbolRef) (sig : Signature) (args : List Value) (m m' : Machine) : Prop where
  ref : ins.ref = some r
  method : r.kind = .method
  parse : Signature.parse r.descriptor = .ok sig
  kinds : args.map Value.kind
    = (sig.params.map JavaType.kind).reverse ++ Operation.receiver kind.hasReceiver
  performs : Performs m kind.hasReceiver args (Operation.callOutput sig.result
    (Operation.callValue kind r sig.result
      (s.visitor m.calls (siteOf s b fr ins kind r sig.result args)) args)) m'
  calls : m'.calls
    = m.calls ++ (if r.unresolved then [] else [siteOf s b fr ins kind r sig.result args])

theorem invoke_ok {b : Nat} {fr : Int} {kind : InvokeKind} {u : Unit}
    (h : invoke s b fr ins kind m = .ok u m') :
    ∃ r sig args, Invokes s b fr ins kind r sig args m m' := by
  unfold invoke at h
  simp only [guard_eq_ok] at h
  obtain ⟨-, h⟩ := h
  cases hr : ins.ref with
  | none => simp [hr] at h
  | some r =>
    simp only [hr, guard_eq_ok] at h
    obtain ⟨hmethod, h⟩ := h
    cases hsig : Signature.parse r.descriptor with
    | error e => simp [hsig] at h
    | ok sig =>
      simp only [hsig, bind_eq_ok] at h
      obtain ⟨params, m₁, hp, vs, m₂, hvs, answer, m₃, ha, hres⟩ := h
      -- taking the arguments and pushing the result report nothing
      have hcalls₂ : m₂.calls = m.calls :=
        (callless_popReceiver.of_ok hvs).trans ((keeps_liftM (lossless_popArgs _)).of_ok hp)
      have hcalls' : m'.calls = m₃.calls := callless_pushResult.of_ok hres
      obtain ⟨f, hf, rfl⟩ := liftM_eq_ok.1 hp
      obtain ⟨htp, hkp⟩ := popArgs_takes hf
      obtain ⟨m₄, htv, hkv, hone, hnv⟩ := popReceiver_takes hvs
      obtain ⟨hagree, hcalls₃, rfl⟩ := callResult_ok ha
      have htp : Machine.Takes m params.reverse { m with frame := f } := ⟨htp, rfl⟩
      have hargs : (params.reverse ++ vs).reverse = vs ++ params := by simp [hone]
      refine ⟨r, sig, params.reverse ++ vs, hr, Decidable.not_not.1 hmethod, hsig,
        by simp [hkv, ← hkp], ?_, ?_⟩
      · have hperforms := pushResult_performs (htp.append htv) ((hnv params.reverse).agrees hagree)
          hres
        rwa [hcalls₂, ← hargs, List.reverse_reverse] at hperforms
      · rw [hcalls', hcalls₃, hcalls₂, siteOf, hargs]

/-- Without knowledge about methods, what a call returns depends on its operands only. -/
theorem invoke_performs {b : Nat} {fr : Int} {kind : InvokeKind} {u : Unit}
    (hv : s.visitor = Visitor.anyResult) (h : invoke s b fr ins kind m = .ok u m') :
    ∃ args, args.map Value.kind = (Operation.invoke kind).inputs ins
      ∧ Performs m kind.hasReceiver args ((Operation.invoke kind).outputs s ins args) m' := by
  obtain ⟨r, sig, args, hi⟩ := invoke_ok h
  have hsig : ins.signature? = some sig := by
    simp [Instruction.signature?, hi.ref, hi.parse, Except.toOption]
  have hout : (Operation.invoke kind).outputs s ins args = Operation.callOutput sig.result
      (Operation.callValue kind r sig.result (.top sig.result.kind) args) := by
    simp only [Operation.outputs, hi.ref, hsig, Option.elim_some]
    rfl
  refine ⟨args, by simp [Operation.inputs, hsig, hi.kinds], ?_⟩
  have hperforms := hi.performs
  rw [hv] at hperforms
  exact hout ▸ hperforms

/-! ## All plain operations -/

theorem unary_performs {k : Kind} {r : Value → Value} {u : Unit}
    (h : (liftM (do let a ← Frame.pop k; push (r a) : FrameM Unit) : Step Unit) m = .ok u m') :
    ∃ a, [a].map Value.kind = [k] ∧ Performs m tests [a] [r a] m' := by
  obtain ⟨f, hf, rfl⟩ := liftM_eq_ok.1 h
  obtain ⟨a, hk, hex⟩ := unary_exchanges hf
  exact ⟨a, hk, exchanges_performs hex⟩

theorem binary_performs {k k' : Kind} {r : Value → Value → Value} {u : Unit}
    (h : (liftM (do let b ← Frame.pop k; let a ← Frame.pop k'; push (r a b) : FrameM Unit) :
      Step Unit) m = .ok u m') :
    ∃ a b, [b, a].map Value.kind = [k, k'] ∧ Performs m tests [b, a] [r a b] m' := by
  obtain ⟨f, hf, rfl⟩ := liftM_eq_ok.1 h
  obtain ⟨a, b, hk, hex⟩ := binary_exchanges hf
  exact ⟨a, b, hk, exchanges_performs hex⟩

theorem popKinds_performs {ks : List Kind} {u : Unit}
    (h : (liftM (popKinds ks) : Step Unit) m = .ok u m') :
    ∃ args, args.map Value.kind = ks.reverse ∧ Performs m tests args [] m' := by
  obtain ⟨f, hf, rfl⟩ := liftM_eq_ok.1 h
  obtain ⟨args, ht, hk⟩ := popKinds_takes hf
  exact ⟨args, hk, exchanges_performs ht.exchanges⟩

theorem test_performs {k : Kind} {ps : Nat → List Predicate} {u : Unit}
    (hps : ∀ k, ∀ p ∈ ps k, p.param = k)
    (h : (do let v ← pop k; noteParam v ps : Step Unit) m = .ok u m') :
    ∃ args, args.map Value.kind = [k] ∧ Performs m true args [] m' := by
  obtain ⟨v, m₁, hv, hn⟩ := bind_eq_ok.1 h
  obtain ⟨ht, hk⟩ := pop_takes hv
  exact ⟨[v], by simp [hk], ht.performs (noteParam_notes hps rfl hn)⟩

theorem param_of_mem_branch {k : Nat} {c : Cond} {p : Predicate} (h : p ∈ Predicate.branch k c) :
    p.param = k := by
  obtain ⟨f, -, rfl⟩ := List.mem_map.1 h
  rfl

/-- A plain operation other than a call takes its inputs and pushes its outputs. It notes predicates
    only about a value that it tests. -/
theorem transfer_performs_of_ne {b : Nat} {fr : Int} {o : Operation} {u : Unit}
    (ho : o.isPlain = true) (hinvoke : ∀ kind, o ≠ .invoke kind)
    (h : transfer s b fr ins o m = .ok u m') :
    ∃ args, args.map Value.kind = o.inputs ins
      ∧ Performs m o.isTest args (o.outputs s ins args) m' := by
  have hpush {v : Value} (h : (liftM (push v) : Step Unit) m = .ok u m') :
      Performs m false [] [v] m' := push_performs Agrees.rfl.takes Agrees.rfl.notes h
  cases o with
  | nop | jump | returnVoid =>
    obtain ⟨-, rfl⟩ := pure_eq_ok.1 h
    exact ⟨[], rfl, Agrees.rfl.takes.performs Agrees.rfl.notes⟩
  | constNull | constInt v | constLong v | constFloating k | pushImmediate =>
    exact ⟨[], rfl, hpush h⟩
  | loadConstant => exact ⟨[], rfl, loadConstant_performs h⟩
  | load k slot | store k slot | pop | dup | shuffle p | increment | throwObject => cases ho
  | arrayLoad e =>
    obtain ⟨a, i, hk, hp⟩ := binary_performs (r := fun _ _ => e.value) h
    exact ⟨[i, a], hk, hp⟩
  | arrayStore k =>
    obtain ⟨f, hf, rfl⟩ := liftM_eq_ok.1 h
    obtain ⟨args, hk, hex⟩ := arrayStore_exchanges hf
    exact ⟨args, hk, exchanges_performs hex⟩
  | arith w o =>
    obtain ⟨a, b, hk, hp⟩ := binary_performs (r := arithResult w o) h
    exact ⟨[b, a], hk, hp⟩
  | shift w o =>
    obtain ⟨a, n, hk, hp⟩ := binary_performs (r := shiftResult w o) h
    exact ⟨[n, a], hk, hp⟩
  | negate w =>
    obtain ⟨a, hk, hp⟩ := unary_performs (r := negateResult w) h
    exact ⟨[a], hk, hp⟩
  | floatArith k =>
    obtain ⟨a, b, hk, hp⟩ := binary_performs (r := fun _ _ => .top k) h
    exact ⟨[b, a], hk, hp⟩
  | convert c =>
    obtain ⟨a, hk, hp⟩ := unary_performs (r := convertResult c) h
    exact ⟨[a], hk, hp⟩
  | compareLong =>
    obtain ⟨a, b, hk, hp⟩ := binary_performs (r := compareResult) h
    exact ⟨[b, a], hk, hp⟩
  | compareFloating k =>
    obtain ⟨a, b, hk, hp⟩ := binary_performs (r := fun _ _ => anyOrder) h
    exact ⟨[b, a], hk, hp⟩
  | testZero c => exact test_performs (fun _ _ => param_of_mem_branch) h
  | testNull isNull => exact test_performs (by simp [Predicate.nullTest]) h
  | testInts c | testRefs c | switch | returnValue k | monitor => exact popKinds_performs h
  | callSubroutine | returnSubroutine | widePrefix => exact absurd h (by simp [transfer])
  | readField ofObject =>
    obtain ⟨t, ht, args, hk, hp⟩ := fieldAccess_ok h
    exact ⟨args, by simpa [Operation.inputs] using hk,
      by simpa [Operation.outputs, Operation.isTest, ht] using hp⟩
  | writeField ofObject =>
    obtain ⟨t, ht, args, hk, hp⟩ := fieldAccess_ok h
    exact ⟨args, by simpa [Operation.inputs, ht] using hk, hp⟩
  | invoke kind => exact absurd rfl (hinvoke kind)
  | newObject => exact ⟨[], rfl, newObject_performs h⟩
  | newPrimitiveArray =>
    obtain ⟨f, hf, rfl⟩ := liftM_eq_ok.1 h
    obtain ⟨n, desc, hdesc, hk, hex⟩ := newPrimitiveArray_exchanges hf
    exact ⟨[n], hk, exchanges_performs (by simpa [Operation.outputs, hdesc] using hex)⟩
  | newObjectArray => exact newObjectArray_performs h
  | newMultiArray => exact newMultiArray_performs h
  | arrayLength =>
    obtain ⟨arr, hk, hp⟩ := arrayLength_performs h
    exact ⟨[arr], hk, hp⟩
  | checkCast => exact checkCast_performs h
  | instanceOf => exact instanceOf_performs h

theorem transfer_performs {b : Nat} {fr : Int} {o : Operation} {u : Unit}
    (hv : s.visitor = Visitor.anyResult) (ho : o.isPlain = true)
    (h : transfer s b fr ins o m = .ok u m') :
    ∃ args, args.map Value.kind = o.inputs ins
      ∧ Performs m o.isTest args (o.outputs s ins args) m' := by
  by_cases hinvoke : ∃ kind, o = .invoke kind
  · obtain ⟨kind, rfl⟩ := hinvoke
    exact invoke_performs hv h
  · exact transfer_performs_of_ne ho (fun kind he => hinvoke ⟨kind, he⟩) h

/-! ## Instructions -/

theorem step_ok {b : Nat} {fr : Int} {u : Unit} (h : step s b fr ins m = .ok u m') :
    ∃ o, ins.op.operation? = some o ∧ transfer s b fr ins o m = .ok () m' := by
  unfold step at h
  cases ho : ins.op.operation? with
  | none => simp [ho] at h
  | some o =>
    simp only [ho, bind_eq_ok, get_eq_ok] at h
    obtain ⟨_, m₁, ht, _, _, ⟨rfl, rfl⟩, h⟩ := h
    split at h
    · exact absurd h (by simp)
    · obtain ⟨-, rfl⟩ := pure_eq_ok.1 h
      exact ⟨o, rfl, ht⟩

end Step

end InlinePlan
