import InlinePlan.Proofs.Analysis.Semilattice
import Mathlib

set_option autoImplicit false

/-! # Runs do not crash

Whatever the code is, a run ends in a result, in frames that do not match where they meet, or in a
fault of an instruction that is of one of the classes meant for faults. Two positions outside a list
are faults of their own, a negative slot to write and the receiver of a call that has none, and so is
a list that would be too long for any memory; operands of the usual sizes rule them out, and what is
left is a method with too many locals to start with. Everything else that is read or written by
position is inside its list, whatever stands for a default there. -/

namespace InlinePlan

open InlinePlan.Frame

/-! ## Operands of the usual sizes -/

/-- The local slot of an instruction is in the range that class files can name, it makes no array of
    more dimensions than they allow, and it is no static call of the length of a string. -/
def Instruction.isModerate (ins : Instruction) : Bool :=
  match ins.op.operation? with
  | some (.load _ _) | some (.store _ _) | some .increment | some .returnSubroutine =>
    0 ≤ ins.slot && ins.slot ≤ 65535
  | some .newMultiArray => ins.imm ≤ 255
  | some (.invoke .staticCall) =>
    !ins.ref.any fun r => r.kind = .method && Step.isStringLength r
  | _ => true

namespace Instruction

variable {ins : Instruction}

theorem slot_of_store {k : Kind} {slot : Option Nat} (h : ins.isModerate = true)
    (ho : ins.op.operation? = some (.store k slot)) : 0 ≤ ins.slot ∧ ins.slot ≤ 65535 := by
  simpa [isModerate, ho] using h

theorem slot_of_increment (h : ins.isModerate = true) (ho : ins.op.operation? = some .increment) :
    0 ≤ ins.index ∧ ins.index ≤ 65535 := by
  simpa [isModerate, ho, slot] using h

theorem imm_of_newMultiArray (h : ins.isModerate = true)
    (ho : ins.op.operation? = some .newMultiArray) : ins.imm ≤ 255 := by
  simpa [isModerate, ho] using h

theorem not_stringLength {r : SymbolRef} (h : ins.isModerate = true)
    (ho : ins.op.operation? = some (.invoke .staticCall)) (hr : ins.ref = some r)
    (hmethod : r.kind = .method) : Step.isStringLength r = false := by
  simpa [isModerate, ho, hr, hmethod] using h

end Instruction

/-! ## Faults -/

/-- A fault of moderate code is no crash. Unless the run is strict, only a dynamic call is
    unresolved. -/
theorem Step.faultClass_of_error {s : Subject} {b : Nat} {fr : Int} {ins : Instruction}
    {m m' : Machine} {e : Fault} (hins : ins.isModerate = true)
    (h : Step.step s b fr ins m = .error e m') :
    e.faultClass ≠ .crash ∧ (e.faultClass = .unresolved → s.options.strictMode = false →
      ins.op.operation? = some (.invoke .dynamicCall)) := by
  rcases Step.step_error h with hplain | ⟨o, ho, harises, -⟩
  · simp only [Fault.isPlain, Bool.and_eq_true, decide_eq_true_eq] at hplain
    simp [hplain.1]
  · cases e with
    | negativeSlot i =>
      -- a slot that is written is not negative
      obtain ⟨hi, ⟨k, slot, rfl, rfl⟩ | ⟨rfl, rfl⟩⟩ := harises
      · exact absurd (Instruction.slot_of_store hins ho).1 (Int.not_le.2 hi)
      · exact absurd (Instruction.slot_of_increment hins ho).1 (Int.not_le.2 hi)
    | noReceiver =>
      obtain ⟨rfl, r, hr, hmethod, hlength⟩ := harises
      rw [Instruction.not_stringLength hins ho hr hmethod] at hlength
      cases hlength
    | noSuchOperand depth => exact absurd harises id
    | noRoom count =>
      obtain ⟨hroom, ⟨k, slot, rfl, hcount⟩ | ⟨rfl, hcount⟩ | ⟨rfl, rfl⟩⟩ := harises
      · have hslot := (Instruction.slot_of_store hins ho).2
        exact absurd hroom (by unfold maxSlots maxEntries; omega)
      · have hslot := (Instruction.slot_of_increment hins ho).2
        exact absurd hroom (by unfold maxSlots maxEntries; omega)
      · have himm := Instruction.imm_of_newMultiArray hins ho
        exact absurd hroom (by unfold maxSlots maxEntries; omega)
    | unresolvedRef r =>
      refine ⟨by simp [Fault.faultClass], fun _ hstrict => ?_⟩
      cases hstrict.symm.trans harises.1
    | dynamicCall =>
      obtain rfl : o = .invoke .dynamicCall := harises
      exact ⟨by simp [Fault.faultClass], fun _ _ => ho⟩
    | _ => simp [Fault.faultClass]

/-- How a run may fail: frames do not match, or an instruction that the entry reaches has a fault
    which is no crash. Unless the run is strict, only a dynamic call is unresolved. -/
def RunFault.Regular (s : Subject) (g : FlowGraph) : RunFault → Prop
  | .cancelled => False
  | .start _ => False
  | .mismatch _ => True
  | .instruction id ins e =>
    id = s.method.id ∧ (∃ b ∈ g.reversePostorder, ins ∈ g.code b) ∧ e.faultClass ≠ .crash
      ∧ (e.faultClass = .unresolved → s.options.strictMode = false →
          ins.op.operation? = some (.invoke .dynamicCall))

namespace Subject

variable {s : Subject} {g : FlowGraph}

/-- The visits of moderate blocks fail in a regular way only. -/
theorem regular_of_visited (hg : ∀ b, ∀ ins ∈ g.code b, ins.isModerate = true) {pre : List Nat}
    {f : RunFault} {p : Progress} (hpre : pre <+: g.reversePostorder)
    (h : runBlocks s g g.writtenLocals g.reachable pre (begin g) = .error f p) :
    f.Regular s g := by
  obtain ⟨done, b, p₁, hdone, -, hblock⟩ := runBlocks_error h
  have hb : b ∈ g.reversePostorder := (hdone.trans hpre).subset (by simp)
  rcases runBlock_error hblock with ⟨e, rfl⟩ | ⟨_, _, _, ins, e, _, _, rfl, -, hj, -, hstep⟩
  · trivial
  · have hins := List.mem_of_getElem? hj
    obtain ⟨hclass, hunresolved⟩ := Step.faultClass_of_error (hg b ins hins) hstep
    exact ⟨rfl, ⟨b, hb, hins⟩, hclass, hunresolved⟩

end Subject

/-! ## Positions in lists -/

/-- Wherever the instruction reads or writes a list by position from this frame, the list is long
    enough: the locals with room made for a store, the slots that are shuffled, and the counts of the
    dimensions of an array. The counts are not more than moderate code has. -/
def Instruction.InRange (ins : Instruction) (f : Frame) : Prop :=
  match ins.op.operation? with
  | some (.store k _) => ∀ v f', pop k f = .ok v f' → 0 ≤ ins.slot
      ∧ ins.slot + (slotsOf v).length ≤ (makeRoom ins.slot (slotsOf v).length f'.locals).length
  | some .increment => 0 ≤ ins.index
      ∧ ins.index + 1 ≤ (makeRoom ins.index 1 f.locals).length
  | some (.shuffle p) => ∀ taken f', popSlots p.count f = .ok taken f' →
      ∀ i ∈ p.bottoms ++ p.pattern, i < taken.length
  | some .newMultiArray => ∀ counts f', 1 ≤ ins.imm →
      popArray .int ins.imm f = .ok counts f' → 0 < counts.length ∧ counts.length ≤ 255
  | _ => True

theorem Shuffle.lt_count {p : Shuffle} {i : Nat} (h : i ∈ p.bottoms ++ p.pattern) : i < p.count := by
  revert i
  cases p <;> decide

theorem Instruction.inRange {ins : Instruction} (hins : ins.isModerate = true) (f : Frame) :
    ins.InRange f := by
  unfold InRange
  split
  case h_1 k slot ho =>
    intro v f' _
    obtain ⟨hpos, -⟩ := slot_of_store hins ho
    have hlen := length_makeRoom ins.slot (slotsOf v).length f'.locals
    exact ⟨hpos, by omega⟩
  case h_2 ho =>
    obtain ⟨hpos, -⟩ := slot_of_increment hins ho
    have hlen := length_makeRoom ins.index 1 f.locals
    exact ⟨hpos, by omega⟩
  case h_3 p _ =>
    intro taken f' htaken i hi
    rw [(popSlots_eq_ok.1 htaken).1]
    exact Shuffle.lt_count hi
  case h_4 ho =>
    intro counts f' hpos hcounts
    obtain ⟨args, -, hkinds, rfl⟩ := popArray_takes hcounts
    have hlen := congrArg List.length hkinds
    have hmax := imm_of_newMultiArray hins ho
    simp only [List.length_map, List.length_replicate] at hlen
    simp only [List.length_reverse, hlen]
    omega
  case h_5 => trivial

/-! ## Arguments -/

theorem category_of_readParameters {cs rest : List Char} {ts : List JavaType}
    (h : readParameters cs = .ok (ts, rest)) : ∀ t ∈ ts, t.category ≠ .void := by
  fun_induction readParameters cs generalizing ts rest with
  | case1 | case3 | case4 | case5 => cases h
  | case2 =>
    cases h
    simp
  | case6 c cs hc t rest' ht hvoid ts' rest'' hts ih =>
    cases h
    intro u hu
    rcases List.mem_cons.1 hu with rfl | hu
    · exact hvoid
    · exact ih hts u hu

/-- No parameter of a method is `void`. -/
theorem Signature.category_of_parse {desc : String} {sig : Signature}
    (h : Signature.parse desc = .ok sig) : ∀ t ∈ sig.params, t.category ≠ .void := by
  unfold Signature.parse readSignature at h
  split at h
  case h_1 cs _ =>
    split at h
    case h_1 => cases h
    case h_2 params rest hparams =>
      split at h
      case h_1 => cases h
      case h_2 =>
        split at h
        case isTrue =>
          cases h
          exact category_of_readParameters hparams
        case isFalse => cases h
  case h_2 => cases h

namespace Frame

theorem length_slotsOf_param {t : JavaType} (ht : t.category ≠ .void) (position : Nat) :
    (slotsOf ((Value.top t.kind).withParam position)).length = t.slots := by
  obtain ⟨category, name⟩ := t
  cases category <;> first | exact absurd rfl ht | rfl

theorem length_paramSlots {ts : List JavaType} (hts : ∀ t ∈ ts, t.category ≠ .void)
    (position : Nat) :
    (paramSlots position ts).length = (ts.map JavaType.slots).foldr (· + ·) 0 := by
  induction ts generalizing position with
  | nil => rfl
  | cons t ts ih =>
    rw [paramSlots, List.length_append, length_slotsOf_param (hts t List.mem_cons_self),
      ih (fun t ht => hts t (List.mem_cons_of_mem _ ht))]
    rfl

/-- The arguments take as many slots as the method says. -/
theorem length_argSlots {m : Method} (hm : ∀ t ∈ m.signature.params, t.category ≠ .void) :
    (argSlots m).length = m.paramSlots := by
  unfold argSlots Method.paramSlots Method.receivers
  split
  · rw [length_paramSlots hm, Signature.argSlots, Nat.add_zero]
  · rw [List.length_cons, length_paramSlots hm, Signature.argSlots]

theorem length_entry {m : Method} (hm : ∀ t ∈ m.signature.params, t.category ≠ .void) :
    (entry m).locals.length = entrySize m := by
  have hargs := length_argSlots hm
  have hle : m.paramSlots ≤ entrySize m := Nat.le_max_right _ _
  simp only [entry, List.length_append, List.length_replicate]
  omega

end Frame

/-! ## The number of locals -/

namespace Frame

theorem length_writeSlots (n : Nat) (vs locals : List Value) :
    (writeSlots n vs locals).length = locals.length := by
  induction vs generalizing n locals with
  | nil => rfl
  | cons v vs ih => rw [writeSlots, ih, List.length_set]

theorem Stores.length_locals {f f' : Frame} {n : Nat} {v : Value} (h : Stores f n v f') :
    f'.locals.length ≤ max f.locals.length (n + 2) := by
  have hwidth := length_slotsOf_le v
  rw [h.locals_eq, length_writeSlots, makeRoom, length_spoil, length_spoil, grow,
    List.length_append, List.length_replicate]
  omega

end Frame

/-- An instruction leaves the number of locals, or makes room for the slot that it writes. -/
theorem Step.length_locals {s : Subject} {b : Nat} {fr : Int} {ins : Instruction} {m m' : Machine}
    (hins : ins.isModerate = true) (h : Step.step s b fr ins m = .ok () m') :
    m'.frame.locals.length ≤ max m.frame.locals.length 65537 := by
  -- operations on the stack
  have hplain {tests : Bool} {args results : List Value}
      (hp : m.Performs tests args results m') :
      m'.frame.locals.length ≤ max m.frame.locals.length 65537 := by
    obtain ⟨f₁, ht, hf⟩ := hp.frame
    rw [hf, ht.frame]
    exact Nat.le_max_left _ _
  obtain ⟨o, ho, h⟩ := Step.step_ok h
  by_cases hinvoke : ∃ kind, o = .invoke kind
  · obtain ⟨kind, rfl⟩ := hinvoke
    obtain ⟨r, sig, args, hi⟩ := Step.invoke_ok h
    exact hplain hi.performs
  · cases ho' : o.isPlain with
    | true =>
      obtain ⟨args, -, hp⟩ := Step.transfer_performs_of_ne ho' (fun k hk => hinvoke ⟨k, hk⟩) h
      exact hplain hp
    | false =>
      have hmoves := (Step.transfer_moves ho' h).1
      generalize m'.frame = f' at hmoves
      cases hmoves with
      | load => exact Nat.le_max_left _ _
      | store k slot v n f₁ f' ht hk hn hs =>
        have hslot := (Instruction.slot_of_store hins ho).2
        have hlen := hs.length_locals
        rw [ht.frame]
        dsimp only
        omega
      | increment n f' hk hn hs =>
        have hslot := (Instruction.slot_of_increment hins ho).2
        have hlen := hs.length_locals
        omega
      | pop v f' hf | dup v f' hf | shuffle p taken rest f' hlen hf =>
        rw [hf]
        exact Nat.le_max_left _ _
      | throwObject v f' ht =>
        rw [ht.frame]
        exact Nat.le_max_left _ _

/-- The locals of a run stay within the greater of the entry frame and the slots that class files can
    name. -/
theorem Subject.kept_length {s : Subject} {g : FlowGraph}
    (hg : ∀ b, ∀ ins ∈ g.code b, ins.isModerate = true) :
    s.Kept g fun f => f.locals.length ≤ max (Frame.entry s.method).locals.length 65537 where
  entry := Nat.le_max_left _ _
  widen f hf := by simpa [Frame.widen] using hf
  merge f o f' hf ho hm := by
    have hlen := length_joinLocals f.locals o.locals
    rw [(merge_eq_ok.1 hm).2.1]
    rw [joinLocals] at hlen
    omega
  step b ins m m' hins hm h := by
    have hlen := Step.length_locals (hg b ins hins) h
    omega

/-- Every list that a run of `s` over `g` reads or writes by position is long enough: the locals for
    the arguments, the lists that have one entry for each block, and those of each instruction. The
    locals do not grow beyond the slots that class files can name. -/
structure Subject.InRange (s : Subject) (g : FlowGraph) : Prop where
  arguments : (argSlots s.method).length ≤ entrySize s.method
  blocks : ∀ b ∈ g.reversePostorder, b < g.size ∧ ∀ p ∈ g.preds b, p < g.size
  reachable : g.reachable.length = g.size
  exits : ∀ pre p, pre <+: g.reversePostorder →
    runBlocks s g g.writtenLocals g.reachable pre (Subject.begin g) = .ok () p →
    p.exits.length = g.size
  instructions : ∀ b j ins m, (g.code b)[j]? = some ins → s.machineAt g b j = some m →
    ins.InRange m.frame
  locals : ∀ b j m, s.machineAt g b j = some m →
    m.frame.locals.length ≤ max (entrySize s.method) 65537

theorem Subject.inRange {s : Subject} {g : FlowGraph}
    (hm : ∀ t ∈ s.method.signature.params, t.category ≠ .void)
    (hg : ∀ b, ∀ ins ∈ g.code b, ins.isModerate = true) : s.InRange g where
  arguments := by
    rw [length_argSlots hm]
    exact Nat.le_max_right _ _
  blocks b hb :=
    ⟨FlowGraph.lt_size_of_mem_reversePostorder hb, fun _ hp =>
      FlowGraph.lt_size_of_mem_succs (FlowGraph.mem_preds.1 hp)⟩
  reachable := by simp [FlowGraph.reachable]
  exits pre p hpre hp := (Subject.exits_of_visited hpre hp).1
  instructions b j ins m hins _ := Instruction.inRange (hg b ins (List.mem_of_getElem? hins)) m.frame
  locals b j m h := by
    rw [← length_entry hm]
    exact (kept_length hg).machineAt h

/-! ## Whole runs -/

theorem Instruction.le_of_mem_writtenSlots {ins : Instruction} (hins : ins.isModerate = true)
    {i : Int} (hi : i ∈ ins.writtenSlots) : i ≤ 65536 := by
  unfold writtenSlots at hi
  split at hi
  case h_1 ho =>
    have hslot := (slot_of_increment hins ho).2
    rw [List.mem_singleton.1 hi]
    omega
  case h_2 k slot ho =>
    have hslot := (slot_of_store hins ho).2
    split at hi <;> simp only [List.mem_cons, List.not_mem_nil, or_false] at hi <;> omega
  case h_3 => cases hi

/-- Moderate code writes no local behind those that class files can name. -/
theorem FlowGraph.writtenCount_le {g : FlowGraph}
    (hg : ∀ block ∈ g.blocks, ∀ ins ∈ block.code, ins.isModerate = true) :
    g.writtenCount ≤ 65537 := by
  have hfold : ∀ (slots : List Int) (n : Nat), n ≤ 65537 → (∀ i ∈ slots, i ≤ 65536) →
      slots.foldl (fun n i => max n (i + 1).toNat) n ≤ 65537 := by
    intro slots
    induction slots with
    | nil => exact fun n hn _ => hn
    | cons i slots ih =>
      intro n hn hslots
      rw [List.forall_mem_cons] at hslots
      have hi := hslots.1
      refine ih _ ?_ hslots.2
      dsimp only
      omega
  refine hfold _ 0 (by decide) fun i hi => ?_
  obtain ⟨block, hblock, hi⟩ := List.mem_flatMap.1 hi
  obtain ⟨ins, hins, hi⟩ := List.mem_flatMap.1 hi
  exact Instruction.le_of_mem_writtenSlots (hg block hblock ins hins) hi

theorem Subject.hasRoom_iff {s : Subject} {g : FlowGraph}
    (hg : ∀ block ∈ g.blocks, ∀ ins ∈ block.code, ins.isModerate = true) :
    s.HasRoom g ↔ entrySize s.method ≤ 2 ^ 44 := by
  have hmarks := FlowGraph.writtenCount_le hg
  constructor
  · exact fun h => h.locals
  · exact fun h => ⟨Nat.le_trans hmarks (by decide), h⟩

/-- A run over moderate code does not crash if there is room for the locals that the method starts
    with, whatever the options, the oracle and the visitor are. It ends in a result, or it is
    cancelled, or it fails in a regular way; a run that is stopped between two visits has not failed
    before in another way. No list is read or written outside its length. With more locals no run
    starts. -/
theorem run_never_crashes (s : Subject) (g : FlowGraph)
    (hm : Signature.parse s.method.descriptor = .ok s.method.signature)
    (hg : ∀ block ∈ g.blocks, ∀ ins ∈ block.code, ins.isModerate = true) :
    (entrySize s.method ≤ 2 ^ 44 → ∀ cancelled, (∃ r, (s.run g cancelled).outcome = .ok r)
        ∨ (cancelled = true ∧ (s.run g cancelled).outcome = .error .cancelled)
        ∨ ∃ f : RunFault, (s.run g cancelled).outcome = .error f ∧ f.Regular s g)
      ∧ (2 ^ 44 < entrySize s.method →
          ∃ count, (s.run g false).outcome = .error (.start (.noRoom count)))
      ∧ (∀ pre f p, pre <+: g.reversePostorder →
          runBlocks s g g.writtenLocals g.reachable pre (Subject.begin g) = .error f p →
          f.Regular s g)
      ∧ s.InRange g := by
  have hroom := Subject.hasRoom_iff (s := s) hg
  have hg : ∀ b, ∀ ins ∈ g.code b, ins.isModerate = true := by
    intro b ins hins
    obtain ⟨block, hblock, hins⟩ := FlowGraph.exists_block hins
    exact hg block hblock ins hins
  refine ⟨fun hlocals cancelled => ?_, fun hlocals => ?_,
    fun pre f p hpre h => Subject.regular_of_visited hg hpre h,
    Subject.inRange (Signature.category_of_parse hm) hg⟩
  · rcases s.run_cases g cancelled with ⟨hnot, -⟩ | ⟨hc, -, hrun⟩ | ⟨-, -, hrun⟩
    · exact absurd (hroom.2 hlocals) hnot
    · exact .inr (.inl ⟨hc, hrun⟩)
    · rw [hrun, Subject.runReachable]
      split
      case h_1 f p herror =>
        exact .inr (.inr ⟨f, rfl, Subject.regular_of_visited hg (List.prefix_refl _) herror⟩)
      case h_2 => exact .inl ⟨_, rfl⟩
  · rcases s.run_cases g false with ⟨-, -, hcount⟩ | ⟨hfalse, -⟩ | ⟨-, hhas, -⟩
    · exact hcount
    · cases hfalse
    · exact absurd (hroom.1 hhas) (by omega)

/-! ## An acrobat

A method that shuffles a long, stores over a half of one, makes an array of two dimensions and in the
end makes a dynamic call. -/

def acrobat : Subject :=
  { options := {}
    oracle := none
    visitor := fun _ _ => .pad
    method := { id := "C.m(J)V", cls := "C", name := "m", descriptor := "(J)V", isStatic := true,
                maxLocals := -1, signature := ⟨[⟨.long, ""⟩], ⟨.void, ""⟩⟩ } }

/-- The call that no one can resolve. -/
def acrobatCall : Instruction := { bci := 20, op := ⟨186⟩ }

def acrobatics : FlowGraph :=
  { blocks :=
      [⟨1, [0, 1], [{ bci := 0, op := ⟨30⟩ }, { bci := 1, op := ⟨55⟩, index := 3 },
          { bci := 3, op := ⟨5⟩ }, { bci := 4, op := ⟨54⟩, index := 4 },
          { bci := 6, op := ⟨132⟩, index := 4, imm := 1 }]⟩,
        ⟨1, [], [{ bci := 9, op := ⟨4⟩ }, { bci := 10, op := ⟨9⟩ }, { bci := 11, op := ⟨93⟩ },
          { bci := 12, op := ⟨88⟩ }, { bci := 13, op := ⟨4⟩ },
          { bci := 14, op := ⟨197⟩, imm := 2, ref := some { kind := .cls, cls := "[[I" } },
          { bci := 18, op := ⟨87⟩ }, acrobatCall]⟩]
    entry := 0
    entry_lt := by decide
    succs_lt := by decide }

/-- The dynamic call fails in a regular way, and all that comes before it is in range. -/
theorem run_never_crashes_acrobat :
    (acrobat.run acrobatics false).outcome
        = .error (.instruction "C.m(J)V" acrobatCall .dynamicCall)
      ∧ (RunFault.instruction "C.m(J)V" acrobatCall .dynamicCall).Regular acrobat acrobatics
      ∧ acrobat.InRange acrobatics := by
  have hrun : (acrobat.run acrobatics false).outcome
      = .error (.instruction "C.m(J)V" acrobatCall .dynamicCall) := by
    decide +kernel
  obtain ⟨hends, -, -, hrange⟩ :=
    run_never_crashes acrobat acrobatics (by decide +kernel) (by decide +kernel)
  refine ⟨hrun, ?_, hrange⟩
  rcases hends (by decide +kernel) false with ⟨r, hr⟩ | ⟨hfalse, -⟩ | ⟨f, hf, hregular⟩
  · cases hrun.symm.trans hr
  · cases hfalse
  · cases hrun.symm.trans hf
    exact hregular

/-- A method that asks for as many locals as can be written down. -/
def sprawling : Subject :=
  { acrobat with
    method := { id := "C.m()V", cls := "C", name := "m", descriptor := "()V", isStatic := true,
                maxLocals := 2 ^ 63 - 1, signature := ⟨[], ⟨.void, ""⟩⟩ } }

/-- Code that takes from an empty stack. -/
def grasping : FlowGraph :=
  { blocks := [⟨1, [], [{ bci := 0, op := ⟨87⟩ }]⟩]
    entry := 0
    entry_lt := by decide
    succs_lt := by decide }

/-- Moderate code can crash if the method asks for too many locals. -/
theorem run_crashes_without_room :
    Signature.parse sprawling.method.descriptor = .ok sprawling.method.signature
      ∧ (∀ block ∈ grasping.blocks, ∀ ins ∈ block.code, ins.isModerate = true)
      ∧ ∃ f : RunFault, (sprawling.run grasping false).outcome = .error f
        ∧ ¬f.Regular sprawling grasping := by
  refine ⟨by decide +kernel, by decide +kernel, .start (.noRoom (2 ^ 63 - 1)), ?_, id⟩
  decide +kernel

end InlinePlan
