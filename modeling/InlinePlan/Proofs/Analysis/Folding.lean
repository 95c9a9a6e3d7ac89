import InlinePlan.Proofs.Analysis.Semilattice
import InlinePlan.Proofs.Execution.Arithmetic
import Mathlib.Data.Int.Bitwise

set_option autoImplicit false

/-! # Constant folding

The analysis computes on words, by the operations of machine words. The same results come from exact
integer arithmetic that is cut to the width afterwards (`Operation.integer?`), which is how the
instructions are defined. In a frame that holds the operands, an integer instruction puts this
integer in their place, or a value of which nothing is known if an operand is not constant or the
divisor is zero, and leaves the rest of the frame as it is (`integer_folds`). -/

namespace InlinePlan

open InlinePlan.Frame

/-! ## Integer arithmetic, exact and then cut -/

/-- The integer of a width that an exact result stands for, in two's complement. -/
def Width.cut (w : Width) (v : Int) : Int := v.bmod (2 ^ w.bits)

/-- The exact result of an operation. Division rounds to zero. -/
def Arith.exactResult? (f : Arith) (a b : Int) : Option Int :=
  match f with
  | .add => some (a + b)
  | .sub => some (a - b)
  | .mul => some (a * b)
  | .div => if b = 0 then none else some (a.tdiv b)
  | .rem => if b = 0 then none else some (a.tmod b)
  | .and => some (a.land b)
  | .or => some (a.lor b)
  | .xor => some (a.xor b)

/-- The exact result of a shift by the lowest five or six bits of a count, also of a negative one.
    An unsigned shift takes the integer for one without a sign. -/
def Shift.exactResult (f : Shift) (w : Width) (a count : Int) : Int :=
  let places := (count % w.bits).toNat
  match f with
  | .left => a * 2 ^ places
  | .right => a / 2 ^ places
  | .unsignedRight => a % 2 ^ w.bits / 2 ^ places

/-- What a conversion keeps of an integer. -/
def Conversion.exactResult? (c : Conversion) (v : Int) : Option Int :=
  match c with
  | .intToLong => some v
  | .longToInt => some (v.bmod (2 ^ 32))
  | .intToByte => some (v.bmod (2 ^ 8))
  | .intToChar => some (v % 2 ^ 16)
  | .intToShort => some (v.bmod (2 ^ 16))
  | .lossy _ _ => none

/-! ## Words -/

theorem getLsbD_ofInt {bits : Nat} (v : Int) {i : Nat} (hi : i < bits) :
    (BitVec.ofInt bits v).getLsbD i = v.testBit i := by
  cases v with
  | ofNat n =>
    show (BitVec.ofNat bits n).getLsbD i = n.testBit i
    rw [BitVec.getLsbD_ofNat, decide_eq_true hi, Bool.true_and]
  | negSucc n =>
    rw [BitVec.ofInt_negSucc_eq_not_ofNat, BitVec.getLsbD_not, BitVec.getLsbD_ofNat,
      decide_eq_true hi, Bool.true_and, Bool.true_and]
    rfl

theorem ofInt_land {bits : Nat} (a b : Int) :
    BitVec.ofInt bits (a.land b) = BitVec.ofInt bits a &&& BitVec.ofInt bits b :=
  BitVec.eq_of_getLsbD_eq fun i hi => by
    simp only [BitVec.getLsbD_and, getLsbD_ofInt _ hi, Int.testBit_land]

theorem ofInt_lor {bits : Nat} (a b : Int) :
    BitVec.ofInt bits (a.lor b) = BitVec.ofInt bits a ||| BitVec.ofInt bits b :=
  BitVec.eq_of_getLsbD_eq fun i hi => by
    simp only [BitVec.getLsbD_or, getLsbD_ofInt _ hi, Int.testBit_lor]

theorem ofInt_xor {bits : Nat} (a b : Int) :
    BitVec.ofInt bits (a.xor b) = BitVec.ofInt bits a ^^^ BitVec.ofInt bits b :=
  BitVec.eq_of_getLsbD_eq fun i hi => by
    simp only [BitVec.getLsbD_xor, getLsbD_ofInt _ hi, Int.testBit_lxor]

/-- The word of an exact result is the one that the machine computes. -/
theorem Arith.yields_of_exactResult? {bits : Nat} {f : Arith} {a b : BitVec bits} {x : Int}
    (h : f.exactResult? a.toInt b.toInt = some x) : f.Yields a b (BitVec.ofInt bits x) := by
  cases f with
  | add | sub | mul =>
    cases h
    rfl
  | div | rem =>
    simp only [exactResult?] at h
    split at h
    case isTrue => cases h
    case isFalse hb =>
      cases h
      exact ⟨hb, rfl⟩
  | and =>
    cases h
    exact (ofInt_land _ _).trans (by rw [BitVec.ofInt_toInt, BitVec.ofInt_toInt])
  | or =>
    cases h
    exact (ofInt_lor _ _).trans (by rw [BitVec.ofInt_toInt, BitVec.ofInt_toInt])
  | xor =>
    cases h
    exact (ofInt_xor _ _).trans (by rw [BitVec.ofInt_toInt, BitVec.ofInt_toInt])

theorem Arith.exactResult?_eq_none {f : Arith} {a b : Int} :
    f.exactResult? a b = none ↔ (f = .div ∨ f = .rem) ∧ b = 0 := by
  cases f <;> simp [exactResult?]

theorem Width.toInt_ofInt (w : Width) (v : Int) : (BitVec.ofInt w.bits v).toInt = w.cut v :=
  BitVec.toInt_ofInt v

/-- An integer that a constant of the kind can be is its own word. -/
theorem Width.cut_eq_self {w : Width} {v : Int} (h : w.kind.Admits (.const v)) : w.cut v = v := by
  cases w with
  | int =>
    obtain ⟨-, hlo, -, hhi⟩ := h
    exact (BitVec.toInt_ofInt v).symm.trans (toInt_ofInt_32 hlo hhi)
  | long =>
    obtain ⟨-, hlo, -, hhi⟩ := h
    have hlo : -2 ^ 63 ≤ v := hlo
    have hhi : v < 2 ^ 63 := hhi
    show v.bmod (2 ^ 64) = v
    exact Int.bmod_eq_of_le (by omega) (by omega)

/-- Arithmetic on constants is exact arithmetic, cut to the width. -/
theorem Arith.eval_eq_cut {f : Arith} {w : Width} {a b : Int} (ha : w.kind.Admits (.const a))
    (hb : w.kind.Admits (.const b)) : f.eval w a b = (f.exactResult? a b).map w.cut := by
  have ha' : (BitVec.ofInt w.bits a).toInt = a := (w.toInt_ofInt a).trans (Width.cut_eq_self ha)
  have hb' : (BitVec.ofInt w.bits b).toInt = b := (w.toInt_ofInt b).trans (Width.cut_eq_self hb)
  cases h : f.exactResult? a b with
  | some x =>
    rw [← ha', ← hb'] at h
    have heval := Arith.eval_eq_some (Arith.yields_of_exactResult? h)
    rwa [ha', hb', Width.toInt_ofInt] at heval
  | none =>
    obtain ⟨hf, rfl⟩ := Arith.exactResult?_eq_none.1 h
    rcases hf with rfl | rfl <;> simp [eval, word]

/-- A shift of constants is the exact shift, cut to the width. -/
theorem Shift.eval_eq_cut {f : Shift} {w : Width} {a n : Int} (ha : w.kind.Admits (.const a)) :
    f.eval w a n = w.cut (f.exactResult w a n) := by
  have ha' : (BitVec.ofInt w.bits a).toInt = a := (w.toInt_ofInt a).trans (Width.cut_eq_self ha)
  have hplaces : (BitVec.ofInt 32 n).toNat % w.bits = (n % w.bits).toNat := by
    rw [BitVec.toNat_ofInt]
    cases w <;> simp only [Width.bits] <;> omega
  rw [eval, hplaces, ← Width.toInt_ofInt, Shift.word_eq]
  cases f with
  | left => simp [Yields, exactResult, ha']
  | right => simp [Yields, exactResult, ha']
  | unsignedRight =>
    -- the word holds the integer without its sign
    have hword : ((BitVec.ofInt w.bits a).toNat : Int) = a % 2 ^ w.bits := by
      rw [BitVec.toNat_ofInt, Int.toNat_of_nonneg (Int.emod_nonneg a (by positivity))]
      norm_cast
    simp only [Yields, exactResult, ← hword, ← BitVec.ofInt_natCast]
    norm_cast

theorem negate_eq_cut {w : Width} {a : Int} : negate w a = w.cut (-a) := by
  rw [negate, ← BitVec.ofInt_neg, Width.toInt_ofInt]

theorem Conversion.eval?_eq_exactResult? (c : Conversion) (v : Int) :
    c.eval? v = c.exactResult? v := by
  cases c with
  | intToLong | lossy => rfl
  | longToInt | intToByte | intToShort => exact congrArg some (BitVec.toInt_ofInt v)
  | intToChar =>
    refine congrArg some ?_
    rw [BitVec.toNat_ofInt]
    omega

theorem compareInts_eq_sign (a b : Int) : compareInts a b = (a - b).sign := by
  unfold compareInts
  rcases Int.lt_trichotomy a b with h | rfl | h
  · rw [if_pos h, Int.sign_eq_neg_one_of_neg (by omega)]
  · simp
  · rw [if_neg (by omega), if_pos h, Int.sign_eq_one_of_pos (by omega)]

/-! ## Integer instructions -/

def Width.letter : Width → String
  | .int => "i"
  | .long => "l"

def Arith.name : Arith → String
  | .add => "add"
  | .sub => "sub"
  | .mul => "mul"
  | .div => "div"
  | .rem => "rem"
  | .and => "and"
  | .or => "or"
  | .xor => "xor"

def Shift.name : Shift → String
  | .left => "shl"
  | .right => "shr"
  | .unsignedRight => "ushr"

namespace Operation

/-- Whether the operation is one on integers with an integer as result. -/
def isIntegral : Operation → Bool
  | .arith .. | .shift .. | .negate _ | .increment | .compareLong => true
  | .convert (.lossy ..) => false
  | .convert _ => true
  | _ => false

/-- The mnemonic of an integer instruction. -/
def spelling : Operation → String
  | .arith w f => w.letter ++ f.name
  | .shift w f => w.letter ++ f.name
  | .negate w => w.letter ++ "neg"
  | .increment => "iinc"
  | .convert .intToLong => "i2l"
  | .convert .longToInt => "l2i"
  | .convert .intToByte => "i2b"
  | .convert .intToChar => "i2c"
  | .convert .intToShort => "i2s"
  | .compareLong => "lcmp"
  | _ => ""

/-- Whether the operation is undefined for a divisor of zero. -/
def divides : Operation → Bool
  | .arith _ .div | .arith _ .rem => true
  | _ => false

/-- The kind of the integer that the operation yields. -/
def resultKind : Operation → Kind
  | .arith w _ | .shift w _ | .negate w => w.kind
  | .convert c => c.target
  | _ => .int

/-- The integer that the operation yields for its operands, the topmost first. An increment adds
    `step`. -/
def integer? (step : Int) : Operation → List Int → Option Int
  | .arith w f, [b, a] => (f.exactResult? a b).map w.cut
  | .shift w f, [n, a] => some (w.cut (f.exactResult w a n))
  | .negate w, [a] => some (w.cut (-a))
  | .increment, [a] => some (Width.int.cut (a + step))
  | .convert c, [a] => c.exactResult? a
  | .compareLong, [b, a] => some (a - b).sign
  | _, _ => none

/-- The result of which nothing is known but its kind or, for a comparison, its range. -/
def unknown : Operation → Value
  | .compareLong => .known .int (.range (-1) 1)
  | o => .top o.resultKind

/-- The constant that constant operands determine, or the unknown result. -/
def folded (step : Int) (o : Operation) (args : List Value) : Value :=
  ((args.mapM Value.const?).bind (o.integer? step)).elim o.unknown fun c =>
    .known o.resultKind (.const c)

end Operation

/-- Integer instructions have the mnemonics of their operations. -/
theorem Opcode.mnemonic_of_isIntegral {op : Opcode} {o : Operation} (h : op.operation? = some o)
    (ho : o.isIntegral = true) : op.mnemonic = o.spelling := by
  have hall : opcodeTable.all (fun e =>
      !e.operation.isIntegral || e.mnemonic == e.operation.spelling) = true := by
    decide
  obtain ⟨e, he, rfl⟩ := Option.map_eq_some_iff.1 h
  have hentry := List.all_eq_true.1 hall e (List.mem_of_getElem? he)
  rw [ho, Bool.not_true, Bool.false_or, beq_iff_eq] at hentry
  rw [mnemonic, he]
  exact hentry

/-- Every integer operation is that of an instruction, so the mnemonics are those of all of them. -/
theorem Operation.exists_opcode {o : Operation} (ho : o.isIntegral = true) :
    ∃ op : Opcode, op.operation? = some o := by
  have hmem : o ∈ opcodeTable.map (·.operation) := by
    cases o with
    | arith w f => cases w <;> cases f <;> decide
    | shift w f => cases w <;> cases f <;> decide
    | negate w => cases w <;> decide
    | increment | compareLong => decide
    | convert c =>
      cases c with
      | lossy => cases ho
      | _ => decide
    | _ => cases ho
  obtain ⟨i, hi⟩ := List.getElem?_of_mem hmem
  have hcode : (UInt8.ofNat i).toNat = i := by
    have hlen : opcodeTable.length = 202 := rfl
    have hlt : i < (opcodeTable.map (·.operation)).length := (List.getElem?_eq_some_iff.1 hi).1
    rw [List.length_map, hlen] at hlt
    exact UInt8.toNat_ofNat_of_lt' (Nat.lt_trans hlt (by decide))
  refine ⟨⟨.ofNat i⟩, ?_⟩
  rw [Opcode.operation?, Opcode.row?, hcode, ← List.getElem?_map, hi]

/-- The frame holds the operands `args` of an instruction, the topmost first. With `put v` the frame
    has `v` in their place. -/
inductive Frame.Holds (ins : Instruction) :
    Operation → Frame → List Value → (put : Value → Frame) → Prop where
  | onStack {o : Operation} {locals args rest : List Value} (ho : o ≠ .increment)
      (hargs : args.map Value.kind = o.inputs ins) :
      Holds ins o ⟨locals, args.flatMap cells ++ rest⟩ args fun v => ⟨locals, cells v ++ rest⟩
  | inLocal {n : Nat} {locals stack : List Value} {v : Value} (hn : ins.index = n)
      (hv : locals[n]? = some v) (hkind : v.kind = .int) :
      Holds ins .increment ⟨locals, stack⟩ [v] fun w => ⟨locals.set n w, stack⟩

/-! ## Results of constants -/

/-- Operands that are constants are in the range of their kind. -/
def ConstantsInRange (args : List Value) : Prop :=
  ∀ v ∈ args, ∀ c, v.const? = some c → v.kind.Admits (.const c)

section Results

variable {w : Width} {a b n : Value} {x : Int}

theorem ConstantsInRange.admits {args : List Value} {k : Kind} (h : ConstantsInRange args)
    (ha : a ∈ args) (hk : a.kind = k) (hx : a.const? = some x) : k.Admits (.const x) :=
  hk ▸ h a ha x hx

theorem constantsInRange_nil : ConstantsInRange [] := by
  simp [ConstantsInRange]

theorem ConstantsInRange.cons {args : List Value} (hfact : a.fact = some (.const x))
    (ha : a.kind.Admits (.const x)) (h : ConstantsInRange args) : ConstantsInRange (a :: args) := by
  refine List.forall_mem_cons.2 ⟨fun c hc => ?_, h⟩
  have hx : a.const? = some x := by simp [Value.const?, hfact, Fact.const?, Fact.const]
  rw [hx] at hc
  exact Option.some.inj hc ▸ ha

variable (step : Int)

theorem folded_one {o : Operation} (ho : o.unknown = .top o.resultKind) :
    o.folded step [a]
      = constOrTop o.resultKind (a.const?.bind fun x => o.integer? step [x]) := by
  cases hx : a.const? with
  | none => simp [Operation.folded, hx, ho, constOrTop]
  | some x => cases hc : o.integer? step [x] <;> simp [Operation.folded, hx, hc, ho, constOrTop]

theorem folded_two {o : Operation} (ho : o.unknown = .top o.resultKind) :
    o.folded step [b, a] = constOrTop o.resultKind
      (a.const?.bind fun x => b.const?.bind fun y => o.integer? step [y, x]) := by
  cases hx : a.const? with
  | none => cases hy : b.const? <;> simp [Operation.folded, hx, hy, ho, constOrTop]
  | some x =>
    cases hy : b.const? with
    | none => simp [Operation.folded, hy, ho, constOrTop]
    | some y =>
      cases hc : o.integer? step [y, x] <;> simp [Operation.folded, hx, hy, hc, ho, constOrTop]

theorem arithResult_eq_folded {f : Arith} (ha : a.kind = w.kind) (hb : b.kind = w.kind)
    (h : ConstantsInRange [b, a]) :
    arithResult w f a b = (Operation.arith w f).folded step [b, a] := by
  rw [folded_two step rfl]
  refine congrArg (constOrTop w.kind) (Option.bind_congr fun x hx => ?_)
  refine Option.bind_congr fun y hy => ?_
  exact Arith.eval_eq_cut (h.admits (by simp) ha hx) (h.admits (by simp) hb hy)

theorem shiftResult_eq_folded {f : Shift} (ha : a.kind = w.kind) (h : ConstantsInRange [n, a]) :
    shiftResult w f a n = (Operation.shift w f).folded step [n, a] := by
  rw [folded_two step rfl]
  refine congrArg (constOrTop w.kind) (Option.bind_congr fun x hx => ?_)
  rw [Option.map_eq_bind]
  refine Option.bind_congr fun y _ => ?_
  exact congrArg some (Shift.eval_eq_cut (h.admits (by simp) ha hx))

theorem negateResult_eq_folded : negateResult w a = (Operation.negate w).folded step [a] := by
  rw [folded_one step rfl, negateResult, Option.map_eq_bind]
  refine congrArg (constOrTop w.kind) (Option.bind_congr fun x _ => ?_)
  exact congrArg some negate_eq_cut

theorem convertResult_eq_folded {c : Conversion} :
    convertResult c a = (Operation.convert c).folded step [a] := by
  rw [folded_one step rfl]
  exact congrArg (constOrTop c.target) (Option.bind_congr fun x _ => c.eval?_eq_exactResult? x)

theorem compareResult_eq_folded :
    compareResult a b = Operation.compareLong.folded step [b, a] := by
  unfold compareResult Operation.folded
  cases hx : a.const? with
  | none => cases hy : b.const? <;> simp [hx, hy] <;> rfl
  | some x =>
    cases hy : b.const? with
    | none => simp [hy]; rfl
    | some y => simp [hx, hy, Operation.integer?, compareInts_eq_sign]; rfl

/-- What an increment stores. -/
theorem incremented_eq_folded :
    constOrTop .int (a.const?.map fun c => wrap 32 (c + step))
      = Operation.increment.folded step [a] := by
  rw [folded_one step rfl, Option.map_eq_bind]
  exact congrArg (constOrTop .int) (Option.bind_congr fun x _ =>
    congrArg some (BitVec.toInt_ofInt (x + step)))

end Results

/-! ## Frames -/

section Frames

variable {s : Subject} {b : Nat} {fr : Int} {ins : Instruction} {m : Machine} {o : Operation}

namespace Frame

variable {f : Frame} {v w : Value} {rest : List Value} {k k' : Kind}

/-- An operation that takes one value and pushes a result. -/
theorem unary_eq_ok (result : Value → Value) (hk : k ≠ .untyped) (hv : v.kind = k)
    (hf : f.stack = cells v ++ rest) :
    (do let v ← pop k; push (result v) : FrameM Unit) f
      = .ok () ⟨f.locals, cells (result v) ++ rest⟩ := by
  simp only [bind_eq_ok, pop_eq_ok, push_eq_ok]
  exact ⟨v, ⟨f.locals, rest⟩, ⟨isPad_of_kind hv hk, hv, by rw [← hf]⟩, rfl⟩

/-- An operation that takes two values and pushes a result. -/
theorem binary_eq_ok (result : Value → Value → Value) (hk : k ≠ .untyped) (hk' : k' ≠ .untyped)
    (hw : w.kind = k) (hv : v.kind = k') (hf : f.stack = cells w ++ (cells v ++ rest)) :
    (do let w ← pop k; let v ← pop k'; push (result v w) : FrameM Unit) f
      = .ok () ⟨f.locals, cells (result v w) ++ rest⟩ := by
  simp only [bind_eq_ok, pop_eq_ok, push_eq_ok]
  exact ⟨w, ⟨f.locals, cells v ++ rest⟩, ⟨isPad_of_kind hw hk, hw, by rw [← hf]⟩,
    v, ⟨f.locals, rest⟩, ⟨isPad_of_kind hv hk', hv, rfl⟩, rfl⟩

/-- Nothing is spoilt at a slot of which the condition does not hold. -/
theorem spoil_eq_self {p : Value → Bool} {i : Int} {locals : List Value}
    (h : ∀ n : Nat, i = n → p (locals.getD n .unusable) = false) : spoil p i locals = locals := by
  unfold spoil
  split
  case isTrue => rfl
  case isFalse hi =>
    refine List.ext_getElem? fun n => ?_
    have hn := h n
    rw [List.getElem?_modify]
    rw [List.getD] at hn
    cases hv : locals[n]? with
    | none => rfl
    | some v =>
      rw [hv, Option.getD_some] at hn
      split
      case isTrue hi' => simp [hn (by omega)]
      case isFalse => rfl

/-- A store of a narrow value over a narrow one changes nothing but the slot, if the locals are
    paired. -/
theorem store_eq_ok {n : Nat} {stack locals : List Value} (hlocals : SlotsPaired locals)
    (hv : locals[n]? = some v) (hpad : v.isPad = false) (hnarrow : v.isWide = false)
    (hw : w.isWide = false) :
    store n w ⟨locals, stack⟩ = .ok () ⟨locals.set n w, stack⟩ := by
  have hlt : n < locals.length := (List.getElem?_eq_some_iff.1 hv).1
  have hself : locals.getD n .unusable = v := by rw [List.getD, hv, Option.getD_some]
  have hgrow : grow ((n : Int) + 1).toNat locals = locals := by
    have hlen : ((n : Int) + 1).toNat - locals.length = 0 := by omega
    rw [grow, hlen, List.replicate_zero, List.append_nil]
  have hbefore : spoil Value.isWide ((n : Int) - 1) locals = locals := by
    refine spoil_eq_self fun i hi => ?_
    obtain rfl : n = i + 1 := by omega
    rw [← hlocals.isPad_getD_succ, hself, hpad]
  have hafter : spoil Value.isPad ((n : Int) + 1) locals = locals := by
    refine spoil_eq_self fun i hi => ?_
    obtain rfl : i = n + 1 := by omega
    rw [hlocals.isPad_getD_succ, hself, hnarrow]
  have hslots : slotsOf w = [w] := by rw [slotsOf, if_neg (by simp [hw])]
  have hroom : makeRoom n [w].length locals = locals := by
    rw [makeRoom, List.length_singleton, Nat.cast_one, hgrow, hbefore, hafter]
  simp only [store, hslots, bind_eq_ok, get_eq_ok, modify_eq_ok, guard_eq_ok]
  refine ⟨⟨locals, stack⟩, ⟨locals, stack⟩, ⟨rfl, rfl⟩, fun hgrows => ?_, (), ⟨locals, stack⟩, ?_,
    by omega, rfl⟩
  · have hlong : (locals.length : Int) < n + [w].length := hgrows.1
    rw [List.length_singleton] at hlong
    omega
  · rw [hroom]

/-- An increment of an integer in a local changes nothing else, if the locals are paired. -/
theorem increment_eq_ok {n : Nat} {step : Int} {stack locals : List Value}
    (hlocals : SlotsPaired locals) (hv : locals[n]? = some v) (hkind : v.kind = .int) :
    increment n step ⟨locals, stack⟩
      = .ok () ⟨locals.set n (Operation.increment.folded step [v]), stack⟩ := by
  have hpad : v.isPad = false := isPad_of_kind hkind (by decide)
  have hnarrow : v.isWide = false := by rw [Value.isWide, hkind]; rfl
  have hload : load n .int ⟨locals, stack⟩ = .ok v ⟨locals, stack⟩ := by
    refine load_eq_ok.2 ⟨rfl, ?_, by simp [Value.isReadable, hkind, hpad], hkind, by rintro ⟨⟩⟩
    rw [localAt_natCast, List.getD, hv, Option.getD_some]
  refine bind_eq_ok.2 ⟨v, _, hload, ?_⟩
  refine (store_eq_ok hlocals hv hpad hnarrow ?_).trans ?_
  · cases v.const? <;> rfl
  · rw [incremented_eq_folded]

end Frame

/-- An integer instruction puts its result in the place of its operands. -/
theorem Step.transfer_folds {args : List Value} {put : Value → Frame} (ho : o.isIntegral = true)
    (hpaired : m.frame.Paired) (hholds : m.frame.Holds ins o args put)
    (hrange : ConstantsInRange args) :
    transfer s b fr ins o m = .ok () { m with frame := put (o.folded ins.imm args) } := by
  obtain ⟨f, predicates, warnings, calls⟩ := m
  have hpaired : f.Paired := hpaired
  have hholds : f.Holds ins o args put := hholds
  cases hholds with
  | @inLocal n locals stack v hn hv hkind =>
    refine liftM_eq_ok.2 ⟨_, ?_, rfl⟩
    rw [hn]
    exact increment_eq_ok hpaired.locals hv hkind
  | @onStack o locals args rest hne hargs =>
    cases o with
    | arith w g =>
      obtain ⟨y, x, rfl, hy, hx⟩ := args_two hargs
      rw [← arithResult_eq_folded ins.imm hx hy hrange]
      exact liftM_eq_ok.2 ⟨_, binary_eq_ok (arithResult w g) w.kind_ne_untyped
        w.kind_ne_untyped hy hx (by simp), rfl⟩
    | shift w g =>
      obtain ⟨n, x, rfl, hn, hx⟩ := args_two hargs
      rw [← shiftResult_eq_folded ins.imm hx hrange]
      exact liftM_eq_ok.2 ⟨_, binary_eq_ok (shiftResult w g) nofun w.kind_ne_untyped hn hx
        (by simp), rfl⟩
    | negate w =>
      obtain ⟨x, rfl, hx⟩ := args_one hargs
      rw [← negateResult_eq_folded ins.imm]
      exact liftM_eq_ok.2 ⟨_, unary_eq_ok (negateResult w) w.kind_ne_untyped hx (by simp), rfl⟩
    | convert c =>
      obtain ⟨x, rfl, hx⟩ := args_one hargs
      have hsource : c.source ≠ .untyped := by
        cases c with
        | lossy => cases ho
        | _ => nofun
      rw [← convertResult_eq_folded ins.imm]
      exact liftM_eq_ok.2 ⟨_, unary_eq_ok (convertResult c) hsource hx (by simp), rfl⟩
    | compareLong =>
      obtain ⟨y, x, rfl, hy, hx⟩ := args_two hargs
      rw [← compareResult_eq_folded ins.imm]
      exact liftM_eq_ok.2 ⟨_, binary_eq_ok compareResult nofun nofun hy hx (by simp), rfl⟩
    | increment => exact absurd rfl hne
    | _ => cases ho

end Frames

/-! ## Constants and unknown results -/

/-- Either all operands are constants, or one is not. -/
theorem mapM_const? (args : List Value) :
    (args.mapM Value.const? = none ∧ ∃ v ∈ args, v.const? = none)
      ∨ ∃ xs, args.mapM Value.const? = some xs ∧ args.map Value.const? = xs.map some := by
  induction args with
  | nil => exact .inr ⟨[], rfl, rfl⟩
  | cons v args ih =>
    rw [List.mapM_cons]
    cases hv : v.const? with
    | none => exact .inl ⟨rfl, v, List.mem_cons_self, hv⟩
    | some x =>
      rcases ih with ⟨hnone, w, hw, hconst⟩ | ⟨xs, hsome, hmap⟩
      · exact .inl ⟨by rw [hnone]; rfl, w, List.mem_cons_of_mem _ hw, hconst⟩
      · exact .inr ⟨x :: xs, by rw [hsome]; rfl, by simp [hv, hmap]⟩

theorem const?_ne_none {args : List Value} {xs : List Int} {v : Value}
    (h : args.map Value.const? = xs.map some) (hv : v ∈ args) : v.const? ≠ none := by
  intro hnone
  have hmem : none ∈ xs.map some := h ▸ hnone ▸ List.mem_map_of_mem hv
  simp at hmem

namespace Operation

variable {o : Operation} {step : Int} {args : List Value}

/-- The number of operands of an integer instruction. -/
def arity : Operation → Nat
  | .arith .. | .shift .. | .compareLong => 2
  | _ => 1

/-- Nothing but a division by zero is left undefined. -/
theorem integer?_eq_none (step : Int) (ho : o.isIntegral = true) {xs : List Int}
    (hlen : xs.length = o.arity) :
    o.integer? step xs = none ↔ o.divides = true ∧ xs.head? = some 0 := by
  cases o with
  | arith w f =>
    obtain ⟨y, x, rfl⟩ := List.length_eq_two.1 hlen
    rw [integer?, Option.map_eq_none_iff, Arith.exactResult?_eq_none]
    cases f <;> simp [divides]
  | shift | compareLong =>
    obtain ⟨y, x, rfl⟩ := List.length_eq_two.1 hlen
    simp [integer?, divides]
  | negate | increment =>
    obtain ⟨x, rfl⟩ := List.length_eq_one_iff.1 hlen
    simp [integer?, divides]
  | convert c =>
    obtain ⟨x, rfl⟩ := List.length_eq_one_iff.1 hlen
    cases c with
    | lossy => cases ho
    | _ => simp [integer?, divides, Conversion.exactResult?]
  | _ => cases ho

theorem folded_cases : o.folded step args = o.unknown
    ∨ ∃ c, o.folded step args = .known o.resultKind (.const c) := by
  unfold folded
  cases (args.mapM Value.const?).bind (o.integer? step) with
  | none => exact .inl rfl
  | some c => exact .inr ⟨c, rfl⟩

theorem kind_folded : (o.folded step args).kind = o.resultKind := by
  rcases folded_cases with h | ⟨c, h⟩
  · rw [h]
    cases o <;> rfl
  · rw [h]
    rfl

theorem param_folded : (o.folded step args).param = none := by
  rcases folded_cases with h | ⟨c, h⟩
  · rw [h]
    cases o <;> rfl
  · rw [h]
    rfl

theorem folded_of_constants {xs : List Int} {c : Int} (hargs : args.map Value.const? = xs.map some)
    (hc : o.integer? step xs = some c) :
    o.folded step args = .known o.resultKind (.const c) := by
  rcases mapM_const? args with ⟨-, v, hv, hnone⟩ | ⟨ys, hys, hmap⟩
  · exact absurd hnone (const?_ne_none hargs hv)
  · obtain rfl : ys = xs :=
      List.map_injective_iff.2 (Option.some_injective Int) (hmap.symm.trans hargs)
    rw [folded, hys, Option.bind_some, hc, Option.elim_some]

theorem known_ne_unknown (c : Int) : Value.known o.resultKind (.const c) ≠ o.unknown := by
  intro h
  have hfact : some (Fact.const c) = o.unknown.fact := congrArg Value.fact h
  cases o with
  | compareLong =>
    have hlo : c = -1 := congrArg Fact.lo (Option.some.inj hfact)
    have hhi : c = 1 := congrArg Fact.hi (Option.some.inj hfact)
    omega
  | _ => cases hfact

/-- The result is unknown precisely if an operand is not constant or a divisor is zero. -/
theorem folded_eq_unknown_iff (ho : o.isIntegral = true) (hlen : args.length = o.arity) :
    o.folded step args = o.unknown ↔ (∃ v ∈ args, v.const? = none)
      ∨ o.divides = true ∧ args.head?.bind Value.const? = some 0 := by
  rcases mapM_const? args with ⟨hnone, hunknown⟩ | ⟨xs, hsome, hmap⟩
  · rw [folded, hnone]
    exact iff_of_true rfl (.inl hunknown)
  · have hconst : ¬∃ v ∈ args, v.const? = none := fun ⟨v, hv, hnone⟩ =>
      const?_ne_none hmap hv hnone
    have hxs : xs.length = o.arity := by
      rw [← List.length_map some, ← hmap, List.length_map, hlen]
    have hhead : args.head?.bind Value.const? = xs.head? :=
      calc args.head?.bind Value.const?
        _ = (args.map Value.const?).head?.join := by cases args <;> rfl
        _ = (xs.map some).head?.join := by rw [hmap]
        _ = xs.head? := by cases xs <;> rfl
    rw [or_iff_right hconst, hhead, ← integer?_eq_none step ho hxs, folded, hsome,
      Option.bind_some]
    cases o.integer? step xs with
    | none => exact iff_of_true rfl rfl
    | some c => exact iff_of_false (known_ne_unknown c) nofun

end Operation

theorem Frame.Holds.length_eq {ins : Instruction} {o : Operation} {f : Frame} {args : List Value}
    {put : Value → Frame} (h : f.Holds ins o args put) (ho : o.isIntegral = true) :
    args.length = o.arity := by
  cases h with
  | inLocal => rfl
  | onStack hne hargs =>
    rw [← List.length_map Value.kind, hargs]
    cases o with
    | increment => exact absurd rfl hne
    | _ => first | rfl | cases ho

/-! ## Folding -/

/-- An integer instruction, in a paired frame that holds its operands, succeeds and changes nothing
    but the operands. It puts in their place the integer that the instruction yields for constants,
    and an unmarked value of its kind of which nothing is known precisely if an operand is not
    constant or the divisor is zero. -/
theorem integer_folds (s : Subject) (b : Nat) (fr : Int) {ins : Instruction} {o : Operation}
    {m : Machine} {args : List Value} {put : Value → Frame} (hop : ins.op.operation? = some o)
    (ho : o.isIntegral = true) (hpaired : m.frame.Paired) (hholds : m.frame.Holds ins o args put)
    (hrange : ConstantsInRange args) :
    ins.op.mnemonic = o.spelling ∧ ∃ r,
      Step.transfer s b fr ins o m = .ok () { m with frame := put r }
        ∧ r.kind = o.resultKind ∧ r.param = none
        ∧ (∀ xs c, args.map Value.const? = xs.map some → o.integer? ins.imm xs = some c →
          r = .known o.resultKind (.const c))
        ∧ (r = o.unknown ↔ (∃ v ∈ args, v.const? = none)
          ∨ o.divides = true ∧ args.head?.bind Value.const? = some 0) :=
  ⟨Opcode.mnemonic_of_isIntegral hop ho, o.folded ins.imm args,
    Step.transfer_folds ho hpaired hholds hrange, Operation.kind_folded, Operation.param_folded,
    fun _ _ => Operation.folded_of_constants,
    Operation.folded_eq_unknown_iff ho (hholds.length_eq ho)⟩

/-! ### At the edges

The least integer is divided by -1, and a local between two longs is incremented that holds the
greatest one. -/

def dividing : Instruction := { bci := 0, op := ⟨108⟩ }

def incrementing : Instruction := { bci := 0, op := ⟨132⟩, index := 2, imm := 1 }

/-- The least integer, below a divisor of -1. -/
def dividends : Machine := { frame := ⟨[], [.intConst (-1), .intConst minInt32]⟩ }

/-- A value in the local between two longs. -/
def between (v : Value) : Machine := { frame := ⟨[.top .long, .pad, v, .top .long, .pad], []⟩ }

/-- The greatest integer, the second argument of a method. -/
def greatest : Value := .slot .int (some (.const maxInt32)) (some 1)

theorem integer_folds_edges :
    Step.transfer halver 0 1 dividing (.arith .int .div) dividends
        = .ok () { frame := ⟨[], [.intConst minInt32]⟩ }
      ∧ Step.transfer halver 0 1 incrementing .increment (between greatest)
        = .ok () (between (.intConst minInt32)) := by
  have hminus : Kind.int.Admits (.const (-1)) := (Fact.made_int (by decide) (by decide)).admits
  have hleast : Kind.int.Admits (.const minInt32) := (Fact.made_int (by decide) (by decide)).admits
  have hgreatest : Kind.int.Admits (.const maxInt32) :=
    (Fact.made_int (by decide) (by decide)).admits
  constructor
  · have hholds : dividends.frame.Holds dividing (.arith .int .div)
        [.intConst (-1), .intConst minInt32] fun v => ⟨[], cells v ++ []⟩ :=
      @Holds.onStack dividing (.arith .int .div) [] [.intConst (-1), .intConst minInt32] []
        nofun rfl
    have hrange : ConstantsInRange [.intConst (-1), .intConst minInt32] :=
      .cons rfl hminus (.cons rfl hleast constantsInRange_nil)
    obtain ⟨-, r, hr, -, -, hconst, -⟩ := integer_folds halver 0 1 (m := dividends) rfl rfl
      ⟨slotsPaired_iff.2 rfl, slotsPaired_iff.2 rfl⟩ hholds hrange
    rw [hr, hconst [-1, minInt32] minInt32 rfl (by decide)]
    rfl
  · have hholds : (between greatest).frame.Holds incrementing .increment [greatest]
        fun v => (between v).frame :=
      @Holds.inLocal incrementing 2 (between greatest).frame.locals [] greatest rfl rfl rfl
    have hrange : ConstantsInRange [greatest] := .cons rfl hgreatest constantsInRange_nil
    obtain ⟨-, r, hr, -, -, hconst, -⟩ := integer_folds halver 0 1 (m := between greatest) rfl rfl
      ⟨slotsPaired_iff.2 rfl, slotsPaired_iff.2 rfl⟩ hholds hrange
    rw [hr, hconst [maxInt32] minInt32 rfl (by decide)]
    rfl

end InlinePlan
