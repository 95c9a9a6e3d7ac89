import InlinePlan.Proofs.Analysis.Moves
import InlinePlan.Proofs.Execution.Arithmetic
import InlinePlan.Proofs.Execution.Meaning

set_option autoImplicit false

/-! # Transfer functions describe execution

If a frame describes an activation, then after an instruction the frame of the analysis describes
the activation of the executing machine. For most operations this is a statement about the values
they take and push. -/

namespace InlinePlan

open InlinePlan.Frame

variable {C : ClassRelation}

/-! ## Values and their slots -/

/-- A value describes a slot of its own kind. -/
structure Value.Matches (C : ClassRelation) (v : Value) (d : Datum) : Prop where
  kind : d.kind = v.kind
  fact : ∀ f ∈ v.fact, f.Holds C d

namespace Value

variable {v : Value} {d : Datum} {k : Kind}

theorem Matches.describes (h : v.Matches C d) : v.Describes C d := .inr ⟨h.kind, h.fact⟩

theorem matches_top (hd : d.kind = k) : (top k).Matches C d := ⟨hd, nofun⟩

theorem matches_known {f : Fact} (hd : d.kind = k) (hf : f.Holds C d) :
    (known k f).Matches C d :=
  ⟨hd, fun _ hg => Option.some.inj hg ▸ hf⟩

theorem matches_intConst {v : BitVec 32} {c : Int} (h : v.toInt = c) :
    (intConst c).Matches C (.int v) :=
  matches_known rfl (Fact.holds_const (congrArg some h))

theorem matches_wrap (c : Int) : (intConst (wrap 32 c)).Matches C (.int (BitVec.ofInt 32 c)) :=
  matches_intConst rfl

theorem matches_constOrTop {c : Option Int} (hd : d.kind = k) (hc : ∀ x ∈ c, d.int? = some x) :
    (constOrTop k c).Matches C d := by
  cases c with
  | none => exact matches_top hd
  | some x => exact matches_known hd (Fact.holds_const (hc x rfl))

end Value

/-- A value on the stack, side by side with one of the same kind. -/
theorem forall₂_cell {v : Value} {d : Datum} (hk : v.kind = d.kind) {rest : List Value}
    {rest' : List Datum} :
    List.Forall₂ (Value.Describes C) (Frame.cells v ++ rest) (d.cells ++ rest')
      ↔ v.Describes C d ∧ List.Forall₂ (Value.Describes C) rest rest' := by
  have hcells : d.cells = if v.isWide then [.second, d] else [d] := by
    rw [Datum.cells, ← hk]
    rfl
  rw [hcells]
  cases hw : v.isWide with
  | true =>
    rw [cells_wide hw]
    simp [Value.describes_pad]
  | false =>
    rw [cells_narrow hw]
    simp

theorem forall₂_cells {args : List Value} {ds : List Datum}
    (hk : args.map Value.kind = ds.map Datum.kind) {rest : List Value} {rest' : List Datum} :
    List.Forall₂ (Value.Describes C) (args.flatMap Frame.cells ++ rest)
        (ds.flatMap Datum.cells ++ rest')
      ↔ List.Forall₂ (Value.Describes C) args ds ∧ List.Forall₂ (Value.Describes C) rest rest' := by
  induction args generalizing ds with
  | nil =>
    obtain rfl : ds = [] := by simpa using hk.symm
    simp
  | cons v vs ih =>
    cases ds with
    | nil => simp at hk
    | cons d ds =>
      simp only [List.map_cons, List.cons.injEq] at hk
      simp only [List.flatMap_cons, List.append_assoc, List.forall₂_cons, forall₂_cell hk.1,
        ih hk.2, and_assoc]

theorem map_kind_of_matches {vs : List Value} {ds : List Datum}
    (h : List.Forall₂ (Value.Matches C) vs ds) : vs.map Value.kind = ds.map Datum.kind := by
  induction h with
  | nil => rfl
  | cons h _ ih => simp [h.kind, ih]

/-! ## Kinds of operands -/

theorem kinds_of_isReceiver {present : Bool} {ds : List Datum} (h : IsReceiver present ds) :
    ds.map Datum.kind = Operation.receiver present := by
  unfold IsReceiver at h
  unfold Operation.receiver
  cases present with
  | true =>
    obtain ⟨d, rfl, hk, -⟩ := h
    simp [hk]
  | false =>
    rw [show ds = [] from h]
    rfl

theorem kind_of_instanceOf {d : Datum} {cls : String} (h : d.InstanceOf C cls) : d.kind = .ref := by
  obtain ⟨c, hc, -⟩ := h
  cases d <;> first | rfl | cases hc

/-- The executing machine takes values of the kinds that the analysis requires. -/
theorem kinds_of_computes {ins : Instruction} {o : Operation} {args results : List Datum}
    (h : Computes C ins o args results) : args.map Datum.kind = o.inputs ins := by
  cases h with
  | floatArith k a b r ha hb hr => simp [Operation.inputs, ha, hb]
  | compareFloating k a b r ha hb hr => simp [Operation.inputs, ha, hb]
  | arith w f a b r hr => simp [Operation.inputs, Width.kind_datum]
  | shift w f a r n hr => simp [Operation.inputs, Width.kind_datum]
  | negate w a => simp [Operation.inputs, Width.kind_datum]
  | convert c a r hr => simp [Operation.inputs, (Conversion.kind_eq hr).1]
  | arrayStore k d i desc n hi hd => simp [Operation.inputs, hd]
  | testRefs c a b ha hb => simp [Operation.inputs, ha, hb]
  | testNull isNull a ha => simp [Operation.inputs, ha]
  | returnValue k d hd => simp [Operation.inputs, hd]
  | readField ofObject r t receiver d hr ht ho hd => exact kinds_of_isReceiver ho
  | writeField ofObject r t receiver d hr ht ho hd =>
    simp [Operation.inputs, Instruction.fieldType?, hr, ht, Except.toOption, hd,
      kinds_of_isReceiver ho]
  | invoke kind r sig receiver params d hr hs ho hp hd hres =>
    simp [Operation.inputs, Instruction.signature?, hr, hs, Except.toOption, hp,
      kinds_of_isReceiver ho]
  | newMultiArray r counts n length hr hc hpos hlast hn =>
    rw [Operation.inputs, ← hc, List.map_map]
    exact List.map_const
  | checkCast r d hr hd =>
    rcases hd with rfl | hd
    · rfl
    · simp [Operation.inputs, kind_of_instanceOf hd]
  | instanceOf r d hr hd => simp [Operation.inputs, kind_of_instanceOf hd]
  | notInstanceOf r d hr hk hd => simp [Operation.inputs, hk]
  | monitor d hd => simp [Operation.inputs, hd.1]
  | _ => rfl

/-! ## Arrays -/

theorem matches_arrayOf {v : Value} {n : BitVec 32} {length : Fin 2147483648} {desc : String}
    (hv : v.Describes C (.int n)) (hk : v.kind = .int) (hn : n.toInt = (length : Nat)) :
    (arrayOf desc v).Matches C (.array desc length) := by
  have hlt : (length : Nat) < 2147483648 := length.isLt
  have hany : (Fact.array desc 0 maxInt32).Holds C (.array desc length) :=
    Fact.holds_array (by omega) (by unfold maxInt32; omega)
  unfold arrayOf
  refine Value.matches_known rfl ?_
  cases hf : v.fact with
  | none => exact hany
  | some f =>
    simp only
    split
    case isTrue hr =>
      have hholds := hv.fact (by rw [hk]; decide) hf
      rw [Fact.Holds, hr.1] at hholds
      obtain ⟨x, hx, hlo, hhi⟩ := hholds
      cases hx
      exact Fact.holds_array (by omega) (by omega)
    case isFalse => exact hany

theorem matches_lengthValue {v : Value} {n : Fin 2147483648} {desc : String}
    (hv : v.Describes C (.array desc n)) (hk : v.kind = .ref) :
    (Step.lengthValue v).Matches C (.int (BitVec.ofInt 32 (n : Nat))) := by
  have hlt : (n : Nat) < 2147483648 := n.isLt
  have hint : (Datum.int (BitVec.ofInt 32 (n : Nat))).int? = some ((n : Nat) : Int) := by
    rw [Datum.int?, toInt_ofInt_32 (by unfold minInt32; omega) (by unfold maxInt32; omega)]
  have hany : (Fact.range 0 maxInt32).Holds C (.int (BitVec.ofInt 32 (n : Nat))) :=
    Fact.holds_range hint (by omega) (by unfold maxInt32; omega)
  unfold Step.lengthValue
  refine Value.matches_known rfl ?_
  cases hf : v.fact with
  | none => exact hany
  | some f =>
    simp only
    split
    case isTrue ha =>
      have hholds := hv.fact (by rw [hk]; decide) hf
      rw [Fact.Holds, ha] at hholds
      obtain ⟨m, hm, hlo, hhi⟩ := hholds
      cases hm
      exact Fact.holds_range hint hlo hhi
    case isFalse => exact hany

/-! ## Type tests -/

/-- The answers of a type test are right. -/
theorem isInstance_sound {oracle : Option SubtypeOracle} {f : Fact} {d : Datum} (cls : String)
    (hC : ∀ q ∈ oracle, C.Supports q) (hf : f.Holds C d) :
    (Step.isInstance oracle (some f) cls = .yes → d.InstanceOf C cls)
      ∧ (Step.isInstance oracle (some f) cls = .no → ¬d.InstanceOf C cls) := by
  unfold Step.isInstance
  by_cases hn : f.isNonNull = true
  · obtain ⟨c, hc, hsub, hexact⟩ := Fact.cls_of_isNonNull hf hn
    simp only [hn, Bool.not_true, Bool.false_eq_true, if_false]
    split
    case isTrue hcls =>
      refine ⟨fun _ => ⟨c, hc, ?_⟩, nofun⟩
      rcases hcls with rfl | rfl
      · exact hsub
      · exact C.root c
    case isFalse =>
      cases oracle with
      | none => exact ⟨nofun, nofun⟩
      | some q =>
        have hq := hC q rfl f.cls cls
        simp only
        split
        case isTrue => exact ⟨nofun, nofun⟩
        case isFalse =>
          cases hans : q f.cls cls with
          | yes => exact ⟨fun _ => ⟨c, hc, C.trans _ _ _ hsub (hq.1 hans)⟩, nofun⟩
          | maybe => exact ⟨nofun, nofun⟩
          | no =>
            simp only
            split
            case isTrue he =>
              refine ⟨nofun, fun _ => ?_⟩
              rintro ⟨c', hc', hsub'⟩
              obtain rfl : c = c' := Option.some.inj (hc.symm.trans hc')
              rw [hexact he] at hsub'
              exact hq.2 hans hsub'
            case isFalse => exact ⟨nofun, nofun⟩
  · simp only [hn, Bool.not_false, if_true]
    exact ⟨nofun, nofun⟩

theorem eq_null_of_isNullFact {f : Fact} {d : Datum} (hf : f.Holds C d) (hk : f.kind = .null) :
    d = .null := by
  rwa [Fact.Holds, hk] at hf

theorem matches_castResult {oracle : Option SubtypeOracle} {r : SymbolRef} {v : Value} {d : Datum}
    (hv : v.Describes C d) (hk : v.kind = .ref)
    (hd : d = .null ∨ d.InstanceOf C r.cls) : (Step.castResult oracle r v).Matches C d := by
  have hkind : d.kind = .ref := hv.kind_eq hk (by decide)
  have hsame : v.unmarked.Matches C d := by
    cases v with
    | pad => cases hk
    | slot k f p => exact ⟨hkind.trans hk.symm, (hv.resolve_left (by rw [hk]; decide)).2⟩
  unfold Step.castResult
  split
  case isTrue => exact hsame
  case isFalse =>
    split
    case isTrue => exact hsame
    case isFalse =>
      split
      case isTrue => exact Value.matches_top hkind
      case isFalse =>
        refine Value.matches_known hkind ?_
        rcases hd with rfl | ⟨c, hc, hsub⟩
        · -- null passes the cast, so no fact excluded it
          refine .inl ⟨rfl, ?_⟩
          cases hf : v.fact with
          | none => rfl
          | some f =>
            have hholds := hv.fact (by rw [hk]; decide) hf
            cases hn : f.isNonNull with
            | false => exact hn
            | true =>
              obtain ⟨c, hc, -⟩ := Fact.cls_of_isNonNull hholds hn
              cases hc
        · exact .inr ⟨c, hc, hsub, nofun⟩

theorem matches_testResult {oracle : Option SubtypeOracle} {cls : String} {v : Value} {d : Datum}
    (hC : ∀ q ∈ oracle, C.Supports q) (hv : v.Describes C d) (hk : v.kind = .ref)
    {b : BitVec 32} (hb : d.InstanceOf C cls ∧ b = 1 ∨ ¬d.InstanceOf C cls ∧ b = 0) :
    (Step.testResult oracle cls v.fact).Matches C (.int b) := by
  have hany : (Value.known .int (.range 0 1)).Matches C (.int b) := by
    rcases hb with ⟨-, rfl⟩ | ⟨-, rfl⟩
    · exact Value.matches_known rfl (Fact.holds_range rfl (by decide) (by decide))
    · exact Value.matches_known rfl (Fact.holds_range rfl (by decide) (by decide))
  unfold Step.testResult
  cases hf : v.fact with
  | none => exact hany
  | some f =>
    have hholds := hv.fact (by rw [hk]; decide) hf
    split
    case isTrue hnull =>
      obtain rfl := eq_null_of_isNullFact hholds (by simpa [Step.isNullFact] using hnull)
      rcases hb with ⟨⟨c, hc, -⟩, -⟩ | ⟨-, rfl⟩
      · cases hc
      · exact Value.matches_intConst rfl
    case isFalse =>
      obtain ⟨hyes, hno⟩ := isInstance_sound cls hC hholds
      cases ht : Step.isInstance oracle (some f) cls with
      | maybe => exact hany
      | yes =>
        rcases hb with ⟨-, rfl⟩ | ⟨hn, -⟩
        · exact Value.matches_intConst rfl
        · exact absurd (hyes ht) hn
      | no =>
        rcases hb with ⟨hi, -⟩ | ⟨-, rfl⟩
        · exact absurd hi (hno ht)
        · exact Value.matches_intConst rfl

/-! ## Calls -/

theorem parse_stringLength : Signature.parse "()I" = .ok ⟨[], ⟨.int, ""⟩⟩ := by
  show readSignature ['(', ')', 'I'] = _
  rw [readSignature, readParameters]
  rfl

/-- A length is known only of constant strings. -/
theorem stringLength?_sound {v w : Value} {d : Datum} (hv : v.Describes C d) (hk : v.kind = .ref)
    (hw : Step.stringLength? v = some w) :
    ∃ bytes, d = .string bytes ∧ w = .intConst (wrap 32 (Text.units16 bytes)) := by
  obtain ⟨f, hf, hw⟩ := Option.bind_eq_some_iff.1 hw
  have hholds := hv.fact (by rw [hk]; decide) hf
  split at hw
  case isTrue hstr =>
    rw [Fact.Holds, hstr] at hholds
    cases hw
    exact ⟨f.str, hholds.1, rfl⟩
  case isFalse => cases hw

/-- What is known about the result of a call holds. -/
theorem callAnswer_holds {kind : InvokeKind} {r : SymbolRef} {sig : Signature}
    {receiver params : List Datum} {d : Datum} {args : List Value}
    (hs : Signature.parse r.descriptor = .ok sig) (ho : IsReceiver kind.hasReceiver receiver)
    (hp : params.map Datum.kind = sig.params.map JavaType.kind)
    (hres : Returns kind r receiver d)
    (ha : List.Forall₂ (Value.Describes C) args (params.reverse ++ receiver))
    (hk : args.map Value.kind = (params.reverse ++ receiver).map Datum.kind) :
    ∀ f ∈ (Operation.callAnswer kind r sig.result args).fact, f.Holds C d := by
  have htop : ∀ f ∈ (Value.top sig.result.kind).fact, f.Holds C d := by simp [Value.top, Value.fact]
  unfold Operation.callAnswer
  split
  case isTrue => exact htop
  case isFalse =>
    split
    case isTrue hl =>
      -- the descriptor has no parameters, so the receiver is the only operand
      have hdesc : r.descriptor = "()I" := by
        simp only [Step.isStringLength, Bool.and_eq_true, decide_eq_true_eq] at hl
        exact hl.2
      rw [hdesc, parse_stringLength] at hs
      cases hs
      obtain rfl : params = [] := by simpa using hp
      unfold IsReceiver at ho
      split at ho
      case isFalse =>
        subst ho
        obtain rfl : args = [] := by simpa using ha
        exact htop
      case isTrue =>
        obtain ⟨x, rfl, hx, -⟩ := ho
        simp only [List.reverse_nil, List.nil_append] at ha hk
        obtain ⟨v, rest, hv, hrest, rfl⟩ := List.forall₂_cons_right_iff.1 ha
        obtain rfl := List.forall₂_nil_right_iff.1 hrest
        simp only [List.map_cons, List.map_nil, List.cons.injEq, and_true] at hk
        simp only [List.getLast?_singleton, Option.bind_some]
        cases hw : Step.stringLength? v with
        | none => exact htop
        | some w =>
          obtain ⟨bytes, rfl, rfl⟩ := stringLength?_sound hv (hk.trans hx) hw
          rw [hres.length hl bytes rfl, Option.getD_some]
          exact (Value.matches_wrap _).fact
    case isFalse =>
      split
      case isTrue hg =>
        intro e he
        cases he
        rw [hres.getClass hg]
        exact Fact.holds_exactObject rfl
      case isFalse => exact htop

theorem matches_callOutput {t : JavaType} {answer : Value} {d : Datum} (hd : d.kind = t.kind)
    (hf : ∀ f ∈ answer.fact, f.Holds C d) :
    List.Forall₂ (Value.Matches C) (Operation.callOutput t answer)
      (if t.category = .void then [] else [d]) := by
  unfold Operation.callOutput
  split
  case isTrue => exact .nil
  case isFalse =>
    refine .cons ?_ .nil
    split
    case isTrue hfit =>
      simp only [Step.fitsResult, Bool.and_eq_true, decide_eq_true_eq] at hfit
      cases answer with
      | pad => exact absurd hfit.2 (by simp [Value.isPad])
      | slot k f p => exact ⟨hd.trans hfit.1.symm, hf⟩
    case isFalse => exact Value.matches_top hd

/-! ## Operands and results -/

variable {s : Subject} {ins : Instruction} {o : Operation}

theorem matches_element {e : Element} {d : Datum} (h : e.Holds d) : e.value.Matches C d := by
  have hbetween {lo hi : Int} (h : d.Between lo hi) : (Value.known .int (.range lo hi)).Matches C d := by
    obtain ⟨v, rfl, hlo, hhi⟩ := h
    exact Value.matches_known rfl (Fact.holds_range rfl hlo hhi)
  cases e with
  | int | long | float | double | ref => exact Value.matches_top h
  | byte | char | short => exact hbetween h

theorem matches_constant {r : SymbolRef} {d : Datum} (hr : ins.ref = some r)
    (hd : ins.Loads r d) :
    List.Forall₂ (Value.Matches C) (Operation.loadConstant.outputs s ins []) [d] := by
  have hout : ∀ v, Step.constantValue? ins r = some v →
      Operation.loadConstant.outputs s ins [] = [v] := by
    intro v hv
    simp [Operation.outputs, hr, hv]
  unfold Instruction.Loads at hd
  unfold Step.constantValue? at hout
  cases hk : r.kind with
  | int =>
    simp only [hk] at hd hout
    rw [hout _ rfl, hd]
    exact .cons (Value.matches_wrap _) .nil
  | long =>
    simp only [hk] at hd hout
    rw [hout _ rfl, hd]
    exact .cons (Value.matches_known rfl (Fact.holds_const rfl)) .nil
  | float | double =>
    simp only [hk] at hd hout
    rw [hout _ rfl]
    exact .cons (Value.matches_top hd) .nil
  | string =>
    simp only [hk] at hd hout
    rw [hout _ rfl, hd]
    exact .cons (Value.matches_known rfl ⟨rfl, rfl⟩) .nil
  | cls =>
    simp only [hk] at hd hout
    rw [hout _ rfl, hd]
    refine .cons ?_ .nil
    split
    · exact Value.matches_top rfl
    · exact Value.matches_known rfl (Fact.holds_exactObject rfl)
  | field | method | unknown =>
    simp only [hk] at hd

/-! ## Arithmetic -/

theorem toInt_of_const? {w : Width} {v : Value} {a : BitVec w.bits} {x : Int}
    (hv : v.Describes C (w.datum a)) (hk : v.kind = w.kind) (hx : v.const? = some x) :
    x = a.toInt := by
  have h := hv.int?_of_const? (hk ▸ w.kind_ne_untyped) hx
  rw [Width.int?_datum] at h
  exact (Option.some.inj h).symm

theorem matches_arithResult {w : Width} {f : Arith} {a b r : BitVec w.bits} {va vb : Value}
    (hr : f.Yields a b r) (ha : va.Describes C (w.datum a)) (hb : vb.Describes C (w.datum b))
    (hka : va.kind = w.kind) (hkb : vb.kind = w.kind) :
    (arithResult w f va vb).Matches C (w.datum r) := by
  refine Value.matches_constOrTop (w.kind_datum r) fun z hz => ?_
  obtain ⟨x, hx, hz⟩ := Option.bind_eq_some_iff.1 hz
  obtain ⟨y, hy, hz⟩ := Option.bind_eq_some_iff.1 hz
  rw [toInt_of_const? ha hka hx, toInt_of_const? hb hkb hy, Arith.eval_eq_some hr] at hz
  rw [Width.int?_datum, hz]

theorem matches_shiftResult {w : Width} {f : Shift} {a r : BitVec w.bits} {n : BitVec 32}
    {va vn : Value} (hr : f.Yields a (n.toNat % w.bits) r) (ha : va.Describes C (w.datum a))
    (hn : vn.Describes C (.int n)) (hka : va.kind = w.kind) (hkn : vn.kind = .int) :
    (shiftResult w f va vn).Matches C (w.datum r) := by
  refine Value.matches_constOrTop (w.kind_datum r) fun z hz => ?_
  obtain ⟨x, hx, hz⟩ := Option.bind_eq_some_iff.1 hz
  obtain ⟨y, hy, hz⟩ := Option.map_eq_some_iff.1 hz
  have hy : y = n.toInt := toInt_of_const? (w := .int) hn hkn hy
  rw [toInt_of_const? ha hka hx, hy, Shift.eval_eq hr] at hz
  rw [Width.int?_datum, hz]

theorem matches_negateResult {w : Width} {a : BitVec w.bits} {va : Value}
    (ha : va.Describes C (w.datum a)) (hka : va.kind = w.kind) :
    (negateResult w va).Matches C (w.datum (BitVec.ofInt w.bits (-a.toInt))) := by
  refine Value.matches_constOrTop (w.kind_datum _) fun z hz => ?_
  obtain ⟨x, hx, hz⟩ := Option.map_eq_some_iff.1 hz
  rw [toInt_of_const? ha hka hx, negate_eq] at hz
  rw [Width.int?_datum, hz]

theorem matches_convertResult {c : Conversion} {a r : Datum} {va : Value} (hr : c.Yields a r)
    (ha : va.Describes C a) (hka : va.kind = c.source) : (convertResult c va).Matches C r := by
  refine Value.matches_constOrTop (Conversion.kind_eq hr).2 fun z hz => ?_
  obtain ⟨x, hx, hz⟩ := Option.bind_eq_some_iff.1 hz
  have hu : va.kind ≠ .untyped := by
    rw [hka]
    cases c with
    | lossy s t => cases hz
    | _ => simp [Conversion.source]
  exact Conversion.int?_eq hr (ha.int?_of_const? hu hx) hz

theorem matches_compareResult {a b : BitVec 64} {va vb : Value}
    (ha : va.Describes C (.long a)) (hb : vb.Describes C (.long b)) (hka : va.kind = .long)
    (hkb : vb.kind = .long) :
    (compareResult va vb).Matches C (.int (BitVec.ofInt 32 (a.toInt - b.toInt).sign)) := by
  have hsign : (BitVec.ofInt 32 (a.toInt - b.toInt).sign).toInt = compareInts a.toInt b.toInt :=
    (compareInts_eq _ _).symm
  unfold compareResult
  cases hc : va.const?.bind fun x => vb.const?.map fun y => Value.intConst (compareInts x y) with
  | none =>
    refine Value.matches_known rfl (Fact.holds_range (congrArg some hsign) ?_ ?_)
    all_goals
      unfold compareInts
      split <;> first | decide | split <;> decide
  | some v =>
    obtain ⟨x, hx, hv⟩ := Option.bind_eq_some_iff.1 hc
    obtain ⟨y, hy, rfl⟩ := Option.map_eq_some_iff.1 hv
    rw [toInt_of_const? (w := .long) ha hka hx, toInt_of_const? (w := .long) hb hkb hy]
    exact Value.matches_intConst hsign

theorem matches_incremented {v : Value} {w : BitVec 32} (imm : Int) (hv : v.Describes C (.int w))
    (hk : v.kind = .int) :
    (constOrTop .int (v.const?.map fun c => wrap 32 (c + imm))).Matches C
      (.int (BitVec.ofInt 32 (w.toInt + imm))) := by
  refine Value.matches_constOrTop rfl fun x hx => ?_
  obtain ⟨c, hc, rfl⟩ := Option.map_eq_some_iff.1 hx
  rw [toInt_of_const? (w := .int) hv hk hc]
  rfl

/-! ## All plain operations -/

theorem forall₂_one {R : Value → Datum → Prop} {args : List Value} {d : Datum}
    (h : List.Forall₂ R args [d]) : ∃ v, args = [v] ∧ R v d := by
  obtain ⟨v, rest, hv, hrest, rfl⟩ := List.forall₂_cons_right_iff.1 h
  obtain rfl := List.forall₂_nil_right_iff.1 hrest
  exact ⟨v, rfl, hv⟩

theorem forall₂_two {R : Value → Datum → Prop} {args : List Value} {d e : Datum}
    (h : List.Forall₂ R args [d, e]) : ∃ v w, args = [v, w] ∧ R v d ∧ R w e := by
  obtain ⟨v, rest, hv, hrest, rfl⟩ := List.forall₂_cons_right_iff.1 h
  obtain ⟨w, rfl, hw⟩ := forall₂_one hrest
  exact ⟨v, w, rfl, hv, hw⟩

/-- The operand of an operation that takes one slot, with the kind that the operation wants. -/
theorem operand_one {args : List Value} {d : Datum} {k : Kind}
    (ha : List.Forall₂ (Value.Describes C) args [d]) (hk : args.map Value.kind = [k]) :
    ∃ v, args = [v] ∧ v.Describes C d ∧ v.kind = k := by
  obtain ⟨v, rfl, hv⟩ := forall₂_one ha
  simp only [List.map_cons, List.map_nil, List.cons.injEq, and_true] at hk
  exact ⟨v, rfl, hv, hk⟩

theorem operands_two {args : List Value} {d e : Datum} {k k' : Kind}
    (ha : List.Forall₂ (Value.Describes C) args [d, e]) (hk : args.map Value.kind = [k, k']) :
    ∃ v w, args = [v, w] ∧ v.Describes C d ∧ w.Describes C e ∧ v.kind = k ∧ w.kind = k' := by
  obtain ⟨v, w, rfl, hv, hw⟩ := forall₂_two ha
  simp only [List.map_cons, List.map_nil, List.cons.injEq, and_true] at hk
  exact ⟨v, w, rfl, hv, hw, hk⟩

theorem forall₂_getLast? {R : Value → Datum → Prop} {args : List Value} {ds : List Datum}
    {d : Datum} (h : List.Forall₂ R args ds) (hd : ds.getLast? = some d) :
    ∃ v, args.getLast? = some v ∧ R v d := by
  induction h with
  | nil => cases hd
  | cons hv hrest ih =>
    cases hrest with
    | nil =>
      cases hd
      exact ⟨_, rfl, hv⟩
    | cons => exact ih hd

/-- The results of the analysis describe those of the executing machine. -/
theorem outputs_match {args : List Value} {ds results : List Datum}
    (hC : ∀ q ∈ s.oracle, C.Supports q) (ho : o.isSmall = true)
    (h : Computes C ins o ds results) (ha : List.Forall₂ (Value.Describes C) args ds)
    (hk : args.map Value.kind = o.inputs ins) :
    List.Forall₂ (Value.Matches C) (o.outputs s ins args) results := by
  cases h with
  | nop | jump | returnVoid | testZero | testInts | testRefs | testNull | switch | returnValue
  | arrayStore | writeField | monitor => simp [Operation.outputs]
  | constNull => exact .cons (Value.matches_known rfl rfl) .nil
  | constInt v =>
    simp only [Operation.isSmall, Bool.and_eq_true, decide_eq_true_eq] at ho
    exact .cons (Value.matches_intConst (toInt_ofInt_32 ho.1 ho.2)) .nil
  | constLong v =>
    simp only [Operation.isSmall, Bool.and_eq_true, decide_eq_true_eq] at ho
    refine .cons (Value.matches_known rfl (Fact.holds_const ?_)) .nil
    exact congrArg some (toInt_ofInt_64 ho.1 ho.2)
  | constFloating k d hd => exact .cons (Value.matches_top hd) .nil
  | pushImmediate => exact .cons (Value.matches_wrap _) .nil
  | loadConstant r d hr hd =>
    obtain rfl := List.forall₂_nil_right_iff.1 ha
    exact matches_constant hr hd
  | arrayLoad e i desc n d hi hd => exact .cons (matches_element hd) .nil
  | arith w f a b r hr =>
    obtain ⟨vb, va, rfl, hb, ha, hkb, hka⟩ := operands_two ha hk
    exact .cons (matches_arithResult hr ha hb hka hkb) .nil
  | shift w f a r n hr =>
    obtain ⟨vn, va, rfl, hn, ha, hkn, hka⟩ := operands_two ha hk
    exact .cons (matches_shiftResult hr ha hn hka hkn) .nil
  | negate w a =>
    obtain ⟨v, rfl, hv, hkv⟩ := operand_one ha hk
    exact .cons (matches_negateResult hv hkv) .nil
  | floatArith k a b r ka kb hr => exact .cons (Value.matches_top hr) .nil
  | convert c a r hr =>
    obtain ⟨v, rfl, hv, hkv⟩ := operand_one ha hk
    exact .cons (matches_convertResult hr hv hkv) .nil
  | compareLong a b =>
    obtain ⟨vb, va, rfl, hb, ha, hkb, hka⟩ := operands_two ha hk
    exact .cons (matches_compareResult ha hb hka hkb) .nil
  | compareFloating k a b r ka kb hr =>
    obtain ⟨v, rfl, hlo, hhi⟩ := hr
    exact .cons (Value.matches_known rfl (Fact.holds_range rfl hlo hhi)) .nil
  | readField ofObject r t receiver d hr ht _ hd =>
    have : ins.fieldType? = some t := by simp [Instruction.fieldType?, hr, ht, Except.toOption]
    rw [Operation.outputs, this]
    exact .cons (Value.matches_top hd) .nil
  | invoke kind r sig receiver params d hr hs hrec hp hd hres =>
    have hsig : ins.signature? = some sig := by
      simp [Instruction.signature?, hr, hs, Except.toOption]
    have hkinds : args.map Value.kind = (params.reverse ++ receiver).map Datum.kind := by
      rw [hk, kinds_of_computes (C := C)
        (.invoke kind r sig receiver params d hr hs hrec hp hd hres)]
    simp only [Operation.outputs, hr, hsig, Option.elim_some]
    exact matches_callOutput hd (callAnswer_holds hs hrec hp hres ha hkinds)
  | newObject r hr =>
    simp only [Operation.outputs, hr, Option.toList_some, List.map_cons, List.map_nil]
    refine .cons ?_ .nil
    unfold Step.newValue
    split
    · exact Value.matches_top rfl
    · exact Value.matches_known rfl (Fact.holds_exactObject rfl)
  | newPrimitiveArray desc n length hd hn =>
    obtain ⟨v, rfl, hv, hkv⟩ := operand_one ha hk
    simp only [Operation.outputs, hd, Option.toList_some, List.map_cons, List.map_nil]
    exact .cons (matches_arrayOf hv hkv hn) .nil
  | newObjectArray r n length hr hn =>
    obtain ⟨v, rfl, hv, hkv⟩ := operand_one ha hk
    simp only [Operation.outputs, hr, Option.toList_some, List.map_cons, List.map_nil]
    exact .cons (matches_arrayOf hv hkv hn) .nil
  | newMultiArray r counts n length hr hc hpos hlast hn =>
    obtain ⟨v, hv, hdesc⟩ := forall₂_getLast? ha (d := .int n) (by simp [hlast])
    have hkv : v.kind = .int := by
      have hmem := List.mem_map_of_mem (f := Value.kind) (List.mem_of_getLast? hv)
      rw [hk] at hmem
      exact List.eq_of_mem_replicate hmem
    simp only [Operation.outputs, hr, hv, Option.toList_some, List.map_cons, List.map_nil,
      Option.getD_some]
    exact .cons (matches_arrayOf hdesc hkv hn) .nil
  | arrayLength desc n =>
    obtain ⟨v, rfl, hv, hkv⟩ := operand_one ha hk
    exact .cons (matches_lengthValue hv hkv) .nil
  | checkCast r d hr hd =>
    obtain ⟨v, rfl, hv, hkv⟩ := operand_one ha hk
    simp only [Operation.outputs, hr, Option.toList_some, List.map_cons, List.map_nil]
    exact .cons (matches_castResult hv hkv hd) .nil
  | instanceOf r d hr hd =>
    obtain ⟨v, rfl, hv, hkv⟩ := operand_one ha hk
    simp only [Operation.outputs, hr, Option.toList_some, List.map_cons, List.map_nil]
    exact .cons (matches_testResult hC hv hkv (.inl ⟨hd, rfl⟩)) .nil
  | notInstanceOf r d hr _ hd =>
    obtain ⟨v, rfl, hv, hkv⟩ := operand_one ha hk
    simp only [Operation.outputs, hr, Option.toList_some, List.map_cons, List.map_nil]
    exact .cons (matches_testResult hC hv hkv (.inr ⟨hd, rfl⟩)) .nil

theorem isPlain_of_computes {ds results : List Datum} (h : Computes C ins o ds results) :
    o.isPlain = true := by
  cases h <;> rfl

/-! ## Frames -/

variable {m m' : Machine} {a a' : Activation}

theorem describes_performs {args : List Value} {ds results : List Datum} {locals : Nat → Datum}
    {rest : List Datum} {tests : Bool} {outs : List Value}
    (hm : Machine.Performs m tests args outs m')
    (hd : m.frame.Describes C ⟨locals, ds.flatMap Datum.cells ++ rest⟩)
    (hk : args.map Value.kind = ds.map Datum.kind)
    (hout : List.Forall₂ (Value.Describes C) args ds →
      List.Forall₂ (Value.Matches C) outs results) :
    m'.frame.Describes C ⟨locals, results.flatMap Datum.cells ++ rest⟩ := by
  obtain ⟨f₁, ht, hf'⟩ := hm.frame
  rw [ht.frame] at hd
  obtain ⟨hargs, hrest⟩ := (forall₂_cells hk).1 hd.stack
  have hres := hout hargs
  rw [hf']
  refine ⟨hd.locals, (forall₂_cells (map_kind_of_matches hres)).2 ⟨?_, hrest⟩⟩
  exact hres.imp fun _ _ h => h.describes

theorem describes_push {f : Frame} {v : Value} {d : Datum} {locals : Nat → Datum}
    {stack : List Datum} (hd : f.Describes C ⟨locals, stack⟩) (hv : v.Matches C d) :
    (⟨f.locals, cells v ++ f.stack⟩ : Frame).Describes C ⟨locals, d.cells ++ stack⟩ :=
  ⟨hd.locals, (forall₂_cell hv.kind.symm).2 ⟨hv.describes, hd.stack⟩⟩

theorem describes_take {f f' : Frame} {v : Value} {d : Datum} {locals : Nat → Datum}
    {stack : List Datum} (hd : f.Describes C ⟨locals, d.cells ++ stack⟩) (h : Takes f [v] f')
    (hk : v.kind = d.kind) : v.Describes C d ∧ f'.Describes C ⟨locals, stack⟩ := by
  rw [h.frame, List.flatMap_singleton] at hd
  obtain ⟨hv, hrest⟩ := (forall₂_cell hk).1 hd.stack
  exact ⟨hv, hd.locals, hrest⟩

theorem describes_store {f f' : Frame} {v : Value} {d : Datum} {n : Nat} {locals : Nat → Datum}
    {stack : List Datum} (hd : f.Describes C ⟨locals, stack⟩) (hv : v.Describes C d)
    (hk : v.kind = d.kind) (h : Stores f n v f') :
    f'.Describes C ⟨writeLocal locals n d, stack⟩ where
  locals := by
    intro i
    show (f'.localAt i).Describes C (writeLocal locals n d i)
    have hwide : v.isWide = d.kind.wide := by rw [Value.isWide, hk]
    unfold writeLocal
    split
    case isTrue hi =>
      rw [hi, h.self]
      exact hv
    case isFalse hi =>
      split
      case isTrue hw =>
        rw [hw.2, Int.natCast_add, Int.natCast_one, h.second (hwide.trans hw.1)]
        exact Value.describes_pad
      case isFalse hw =>
        have hother := h.other i (by omega) fun hvw he => hw ⟨hwide ▸ hvw, by omega⟩
        rcases hother with ho | ho
        · rw [ho]
          exact hd.locals i
        · rw [ho]
          exact Value.describes_unusable
  stack := h.stack ▸ hd.stack

theorem describes_shuffle {p : Shuffle} {before after rest : List Datum} {taken : List Value}
    {under : List Value} (h : Reorders p before after) (hlen : taken.length = p.count)
    (hd : List.Forall₂ (Value.Describes C) (taken ++ under) (before ++ rest)) :
    List.Forall₂ (Value.Describes C)
      ((p.pattern.filterMap (taken[·]?)).reverse ++ under) (after ++ rest) := by
  have htwo (hl : taken.length = 2) : ∃ v w, taken = [v, w] := List.length_eq_two.1 hl
  have hthree (hl : taken.length = 3) : ∃ v w x, taken = [v, w, x] := List.length_eq_three.1 hl
  cases h with
  | pop2 | dupX1 | dup2 | swap =>
    obtain ⟨v, w, rfl⟩ := htwo hlen
    simp only [List.cons_append, List.nil_append, List.forall₂_cons] at hd
    simp [Shuffle.pattern, hd]
  | dupX2 | dup2X1 =>
    obtain ⟨v, w, x, rfl⟩ := hthree hlen
    simp only [List.cons_append, List.nil_append, List.forall₂_cons] at hd
    simp [Shuffle.pattern, hd]
  | dup2X2 =>
    obtain ⟨v, rest, rfl⟩ := List.exists_cons_of_length_eq_add_one hlen
    obtain ⟨w, x, y, rfl⟩ := List.length_eq_three.1 (Nat.succ.inj hlen)
    simp only [List.cons_append, List.nil_append, List.forall₂_cons] at hd
    simp [Shuffle.pattern, hd]

/-- After an instruction the frame of the analysis describes the activation. -/
theorem describes_step {b : Nat} {fr : Int} {u : Unit} (hv : s.visitor = Visitor.anyResult)
    (hC : ∀ q ∈ s.oracle, C.Supports q) (hd : m.frame.Describes C a)
    (h : Step.step s b fr ins m = .ok u m') (hx : ins.Executes C a a') :
    m'.frame.Describes C a' := by
  obtain ⟨o, ho, h⟩ := Step.step_ok h
  obtain ⟨o', ho', hx⟩ := hx
  obtain rfl : o = o' := Option.some.inj (ho.symm.trans ho')
  cases hx with
  | computes _ locals ds results rest hc =>
    obtain ⟨args, hk, hp⟩ := Step.transfer_performs hv (isPlain_of_computes hc) h
    refine describes_performs hp hd (hk.trans (kinds_of_computes hc).symm) fun hargs => ?_
    exact outputs_match hC (isSmall_of_operation? ho) hc hargs hk
  | load k slot locals stack n hn hk =>
    obtain ⟨hmoves, -⟩ := Step.transfer_moves rfl h
    generalize m'.frame = f' at hmoves ⊢
    cases hmoves with
    | load _ _ hread hkv =>
      have hlocal := hd.locals n
      rw [← hn] at hlocal
      have hu : (m.frame.localAt ins.slot).kind ≠ .untyped := by
        simp only [Value.isReadable, Bool.and_eq_true, decide_eq_true_eq] at hread
        exact hread.2
      exact describes_push hd ⟨hk.trans hkv.symm, (hlocal.resolve_left hu).2⟩
  | store k slot locals stack n d hn hk =>
    obtain ⟨hmoves, -⟩ := Step.transfer_moves rfl h
    generalize m'.frame = f' at hmoves ⊢
    cases hmoves with
    | store _ _ v n' f₁ _ ht hkv hn' hs =>
      obtain rfl : n = n' := by omega
      obtain ⟨hvd, hrest⟩ := describes_take hd ht (hkv.trans hk.symm)
      exact describes_store hrest hvd (hkv.trans hk.symm) hs
  | increment locals stack n w hn hw =>
    obtain ⟨hmoves, -⟩ := Step.transfer_moves rfl h
    generalize m'.frame = f' at hmoves ⊢
    cases hmoves with
    | increment n' _ hkv hn' hs =>
      obtain rfl : n = n' := by omega
      have hlocal : (m.frame.localAt n).Describes C (locals n) := hd.locals n
      rw [← hn, hw] at hlocal
      have hmatch := matches_incremented ins.imm hlocal hkv
      exact describes_store hd hmatch.describes hmatch.kind.symm hs
  | pop locals d stack =>
    obtain ⟨hmoves, -⟩ := Step.transfer_moves rfl h
    generalize m'.frame = f' at hmoves ⊢
    cases hmoves with
    | pop v _ hf =>
      rw [hf] at hd
      exact ⟨hd.locals, (List.forall₂_cons.1 hd.stack).2⟩
  | dup locals d stack =>
    obtain ⟨hmoves, -⟩ := Step.transfer_moves rfl h
    generalize m'.frame = f' at hmoves ⊢
    cases hmoves with
    | dup v f hf =>
      rw [hf] at hd
      obtain ⟨hvd, hrest⟩ := List.forall₂_cons.1 hd.stack
      exact ⟨hd.locals, .cons hvd (.cons hvd hrest)⟩
  | shuffle p locals before after rest hr =>
    obtain ⟨hmoves, -⟩ := Step.transfer_moves rfl h
    generalize m'.frame = f' at hmoves ⊢
    cases hmoves with
    | shuffle _ taken under _ hlen hf hs =>
      rw [hf] at hd
      refine ⟨hd.locals, ?_⟩
      rw [hs]
      exact describes_shuffle hr hlen hd.stack

end InlinePlan
