import InlinePlan.Proofs.Analysis.Gates
import InlinePlan.Proofs.Program.Naming

set_option autoImplicit false

/-! # Unresolved references

In code that was read from text, only some instructions have a reference, and they look at it, all but
two: those that make an array of a class, in one dimension or in several, never ask whether the class
is resolved. Strict mode therefore rejects the unresolved references of all instructions that the entry
reaches but for these two, and without strict mode there is a warning for each of the same references,
in the order of the visits. -/

namespace InlinePlan

/-! ## References of instructions -/

/-- Whether the operation makes an array of a class that it names. -/
def Operation.makesArray : Operation → Bool
  | .newObjectArray | .newMultiArray => true
  | _ => false

/-- Whether the operands of the operation include a reference. -/
def Operation.hasRef : Operation → Bool
  | .loadConstant | .readField _ | .writeField _ | .invoke _ | .newObject | .newObjectArray
  | .newMultiArray | .checkCast | .instanceOf => true
  | _ => false

namespace Instruction

/-- Whether the reference of the instruction is marked as unresolved. -/
def isUnresolved (ins : Instruction) : Bool := ins.ref.any (·.unresolved)

/-- Whether the instruction makes an array of a class that it names. -/
def makesArray (ins : Instruction) : Bool := ins.op.operation?.any (·.makesArray)

end Instruction

section Parsing

variable {ins ins' : Instruction}

/-- A number is never unresolved. -/
theorem isUnresolved_of_readNumber {cs : List Char} (h : readNumber ins cs = .ok ins') :
    ins'.isUnresolved = false := by
  unfold readNumber at h
  dsimp only at h
  repeat' split at h
  all_goals cases h <;> rfl

/-- Of the constants, only a class can be unresolved. -/
theorem meets_of_readConstant {cs : List Char} (h : readConstant ins cs = .ok ins') :
    ins'.meetsUnresolved .loadConstant = ins'.isUnresolved := by
  have hresolved {ins' : Instruction} (hr : ins'.isUnresolved = false) :
      ins'.meetsUnresolved .loadConstant = ins'.isUnresolved := by
    rw [hr]
    simp only [Instruction.isUnresolved, Option.any_eq_false] at hr
    simp only [Instruction.meetsUnresolved, Option.any_eq_false]
    intro r hmem
    simp [hr r hmem]
  unfold readConstant at h
  split at h
  · cases h
  · split at h
    · split at h <;> cases h
      exact hresolved rfl
    · split at h
      · exact hresolved (isUnresolved_of_readNumber h)
      · cases h
        simp [Instruction.meetsUnresolved, Instruction.isUnresolved, classRef]

/-- Operations without a reference do not get one. -/
theorem ref_of_readOperands {o : Operation} {operand : List Char} (ho : o.hasRef = false)
    (h : readOperands ins o operand = .ok ins') : ins'.ref = ins.ref := by
  have hmap {α : Type} {x : Except OperandFault α} {f : α → Instruction} (hx : x.map f = .ok ins')
      (hf : ∀ a, (f a).ref = ins.ref) : ins'.ref = ins.ref := by
    obtain ⟨a, -, rfl⟩ := Except.map_eq_ok.1 hx
    exact hf a
  have hnone {e : OperandFault}
      (hx : (if operand.isEmpty then Except.ok ins else .error e) = .ok ins') :
      ins'.ref = ins.ref := by
    split at hx
    · cases hx
      rfl
    · cases hx
  cases o with
  | loadConstant | readField _ | writeField _ | invoke _ | newObject | newObjectArray
  | newMultiArray | checkCast | instanceOf => cases ho
  | load _ slot | store _ slot =>
    cases slot with
    | none => exact hmap h fun _ => rfl
    | some n => exact hnone h
  | increment | pushImmediate | returnSubroutine | testZero _ | testInts _ | testRefs _ | testNull _
  | jump | callSubroutine => exact hmap h fun _ => rfl
  | newPrimitiveArray | switch =>
    unfold readOperands at h
    dsimp only at h
    repeat' split at h
    all_goals cases h <;> rfl
  | _ => exact hnone h

/-- An operation meets the unresolved reference that was read for it, unless it makes an array. -/
theorem meets_of_readOperands {o : Operation} {operand : List Char} (hins : ins.ref = none)
    (h : readOperands ins o operand = .ok ins') :
    ins'.meetsUnresolved o = (ins'.isUnresolved && !o.makesArray) := by
  cases ho : o.hasRef with
  | false =>
    have hmeets : ins'.meetsUnresolved o = false := by
      cases o <;> first | rfl | cases ho
    have href := ref_of_readOperands ho h
    simp [hmeets, Instruction.isUnresolved, href, hins]
  | true =>
    cases o with
    | loadConstant =>
      rw [meets_of_readConstant h]
      simp [Operation.makesArray]
    | readField _ | writeField _ | invoke _ | newObject | checkCast | instanceOf | newObjectArray
    | newMultiArray =>
      simp [Operation.makesArray, Instruction.meetsUnresolved, Instruction.isUnresolved]
    | _ => cases ho

theorem Instruction.isDoubtful_of_parse {line : String} (h : Instruction.parse line = .ok ins) :
    ins.isDoubtful = (ins.isUnresolved && !ins.makesArray) := by
  obtain ⟨bci, op, o, operand, hop, hread⟩ := Instruction.operands_of_parse h
  rw [isDoubtful_of_operation? hop, Instruction.makesArray, hop]
  exact meets_of_readOperands rfl hread

end Parsing

/-! ## Warnings of runs -/

namespace Subject

variable {s : Subject} {g : FlowGraph} {options : AnalysisOptions}

/-- Code that runs through gives the notices of its instructions, in order. -/
theorem told_runCode {b : Nat} {fr : Int} {code : List Instruction} {m m' : Machine}
    (h : runCode (s.under options) b fr code m = .ok () m') :
    Told options (code.filter (·.isDoubtful)) m.warnings m'.warnings := by
  induction code generalizing m with
  | nil =>
    cases h
    exact Told.nil
  | cons ins code ih =>
    rw [runCode] at h
    cases hs : Step.step (s.under options) b fr ins m with
    | error e m₁ => simp [hs] at h
    | ok a m₁ =>
      simp only [hs] at h
      obtain ⟨-, htold, -⟩ := step_freed (Eq.refl m.quiet) hs
      have hfilter : (ins :: code).filter (·.isDoubtful)
          = (if ins.isDoubtful then [ins] else []) ++ code.filter (·.isDoubtful) := by
        cases hd : ins.isDoubtful <;> simp [hd]
      rw [hfilter]
      exact htold.trans (ih h)

/-- The blocks of a beginning of the order give the notices of their instructions: none of them is
    passed over. -/
theorem told_visited (options : AnalysisOptions) {pre : List Nat} {p : Progress}
    (hpre : pre <+: g.reversePostorder)
    (h : runBlocks (s.under options) g g.writtenLocals g.reachable pre (begin g) = .ok () p) :
    Told options (pre.flatMap fun b => (g.code b).filter (·.isDoubtful)) [] p.warnings := by
  induction pre using List.reverseRecOn generalizing p with
  | nil =>
    cases h
    exact Told.nil
  | append_singleton pre b ih =>
    obtain ⟨m, hm⟩ := machineAfter_of_visited hpre h b (by simp)
    obtain ⟨p', hp', -, hcases⟩ := visit_cases hpre h
    rcases hcases with ⟨-, hnone, -⟩ | ⟨m₀, m', h₀, hafter, -, -, -, -, -, hstart, hend⟩
    · rw [machineAfter, machineAt_of_machineOn_none hnone] at hm
      cases hm
    · obtain ⟨n, hn, hcode⟩ := machineAt_eq_some.1 hafter
      rw [h₀] at hn
      cases hn
      rw [List.take_length] at hcode
      have hblock := told_runCode hcode
      rw [hstart, ← hend] at hblock
      rw [List.flatMap_append, List.flatMap_singleton]
      exact (ih ((List.prefix_append pre [b]).trans hpre) hp').trans hblock

/-- An instruction that the entry reaches has passed if the run succeeds. -/
theorem passes_of_run {cancelled : Bool} {r : RunResult}
    (h : ((s.under options).run g cancelled).outcome = .ok r) {b : Nat}
    (hb : b ∈ g.reversePostorder) {ins : Instruction} (hins : ins ∈ g.code b) :
    ∃ depth, options.Passes ins depth := by
  obtain ⟨j, hj⟩ := List.mem_iff_getElem?.1 hins
  obtain ⟨m', hm'⟩ := machineAt_of_mem h hb (j + 1)
  obtain ⟨m, -, hstep⟩ := (machineAt_succ hj).1 hm'
  obtain ⟨hpasses, -⟩ := step_freed (Eq.refl m.quiet) hstep
  exact ⟨_, hpasses⟩

end Subject

/-! ## Strict runs -/

/-- The instructions that the entry reaches and whose references are unresolved, in the order of the
    visits, without those that make an array. -/
def FlowGraph.doubtful (g : FlowGraph) : List Instruction :=
  g.reversePostorder.flatMap fun b =>
    (g.code b).filter fun ins => ins.isUnresolved && !ins.makesArray

namespace AnalysisOptions

/-- The options in strict mode. -/
def strict (options : AnalysisOptions) : AnalysisOptions := { options with strictMode := true }

/-- The options without strict mode. -/
def lax (options : AnalysisOptions) : AnalysisOptions := { options with strictMode := false }

end AnalysisOptions

/-- A strict run succeeds if the run does that is not strict, and nothing is doubtful. -/
theorem Subject.strict_iff {s : Subject} {g : FlowGraph} {cancelled : Bool} :
    (∃ r, ((s.under s.options.strict).run g cancelled).outcome = .ok r)
      ↔ (∃ r, ((s.under s.options.lax).run g cancelled).outcome = .ok r)
        ∧ ∀ b ∈ g.reversePostorder, ∀ ins ∈ g.code b, ins.isDoubtful = false := by
  constructor
  · rintro ⟨r, hr⟩
    refine ⟨?_, fun b hb ins hins => ?_⟩
    · obtain ⟨r', hr', -⟩ := run_transport s.options.strict s.options.lax
        (fun _ _ _ _ _ hpass => ⟨nofun, hpass.shallow⟩) hr
      exact ⟨r', hr'⟩
    · obtain ⟨depth, hpasses⟩ := passes_of_run hr hb hins
      exact hpasses.resolved rfl
  · rintro ⟨⟨r, hr⟩, hresolved⟩
    obtain ⟨r', hr', -⟩ := run_transport s.options.lax s.options.strict
      (fun b hb ins hins _ hpass => ⟨fun _ => hresolved b hb ins hins, hpass.shallow⟩) hr
    exact ⟨r', hr'⟩

/-- A run without strict mode warns about each doubtful instruction once. -/
theorem Subject.notices_of_run {s : Subject} {g : FlowGraph} {cancelled : Bool} {r : RunResult}
    (hwarn : s.options.enableWarnings = true) (h : (s.run g cancelled).outcome = .ok r) :
    r.warnings.filter isNotice
      = (g.reversePostorder.flatMap fun b => (g.code b).filter (·.isDoubtful)).map (·.notice) := by
  obtain ⟨-, -, p, hp, rfl⟩ := run_eq_ok.1 h
  have htold := told_visited s.options (s := s) (List.prefix_refl _) hp
  simpa [Told, hwarn] using htold

/-- Strict mode rejects every unresolved reference but for those of array creations. A strict run over
    code that was read from text succeeds just if the same run does without strict mode, and every
    unresolved reference that the entry reaches is that of an instruction that makes an array. A run
    that is not strict and reports warnings gives, in the order of the visits, one about each unresolved
    reference but for these. -/
theorem strict_rejects_unresolved (s : Subject) (g : FlowGraph) (cancelled : Bool)
    (hg : ∀ block ∈ g.blocks, ∀ ins ∈ block.code, ∃ line, Instruction.parse line = .ok ins) :
    ((∃ r, ((s.under s.options.strict).run g cancelled).outcome = .ok r)
        ↔ (∃ r, ((s.under s.options.lax).run g cancelled).outcome = .ok r)
          ∧ ∀ b, g.Reachable b → ∀ ins ∈ g.code b,
              ins.isUnresolved = true → ins.makesArray = true)
      ∧ ∀ r, s.options.enableWarnings = true → (s.run g cancelled).outcome = .ok r →
          r.warnings.filter isNotice = g.doubtful.map (·.notice) := by
  have hdoubtful : ∀ b, ∀ ins ∈ g.code b,
      ins.isDoubtful = (ins.isUnresolved && !ins.makesArray) := by
    intro b ins hins
    obtain ⟨block, hblock, hins⟩ := FlowGraph.exists_block hins
    obtain ⟨line, hline⟩ := hg block hblock ins hins
    exact Instruction.isDoubtful_of_parse hline
  constructor
  · rw [Subject.strict_iff]
    refine and_congr_right fun _ => ⟨fun h b hb ins hins hu => ?_, fun h b hb ins hins => ?_⟩
    · have hresolved := h b (g.mem_reversePostorder.2 hb) ins hins
      simpa [hdoubtful b ins hins, hu] using hresolved
    · have harray := h b (g.mem_reversePostorder.1 hb) ins hins
      rw [hdoubtful b ins hins]
      cases hu : ins.isUnresolved with
      | false => rfl
      | true => simp [harray hu]
  · intro r hwarn hr
    rw [Subject.notices_of_run hwarn hr, FlowGraph.doubtful]
    congr 1
    refine List.flatMap_congr fun b _ => List.filter_congr fun ins hins => ?_
    exact hdoubtful b ins hins

/-! ## A class that is gone -/

/-- A method without arguments. -/
def seeker : Subject :=
  { options := {}
    oracle := none
    visitor := Visitor.anyResult
    method := { id := "t/A.m()V", cls := "t/A", name := "m", descriptor := "()V", isStatic := true } }

/-- A reference to a class that is not resolved. -/
def goneRef (cls : String) : SymbolRef := { kind := .cls, cls, unresolved := true }

/-- It makes an object of the class, and an array. -/
def seeking : FlowGraph :=
  { blocks :=
      [⟨1, [], [{ bci := 0, op := ⟨187⟩, ref := some (goneRef "t/Gone") }, { bci := 3, op := ⟨87⟩ },
        { bci := 4, op := ⟨4⟩ }, { bci := 5, op := ⟨189⟩, ref := some (goneRef "t/Gone") },
        { bci := 8, op := ⟨87⟩ }, { bci := 9, op := ⟨177⟩ }]⟩]
    entry := 0
    entry_lt := by decide
    succs_lt := by decide }

theorem seeking_parsed : ∀ block ∈ seeking.blocks, ∀ ins ∈ block.code,
    ∃ line, Instruction.parse line = .ok ins := by
  have hlines : ∀ block ∈ seeking.blocks, ∀ ins ∈ block.code,
      ∃ line ∈ ["0: new ?t/Gone", "3: pop", "4: iconst_1", "5: anewarray ?t/Gone", "8: pop",
        "9: return"], Instruction.parse line = .ok ins := by
    decide +kernel
  intro block hblock ins hins
  obtain ⟨line, -, hline⟩ := hlines block hblock ins hins
  exact ⟨line, hline⟩

/-- The object is warned about, and it makes the strict run fail. -/
theorem strict_rejects_unresolved_seeking :
    (¬∃ r, ((seeker.under seeker.options.strict).run seeking false).outcome = .ok r)
      ∧ ∃ r, (seeker.run seeking false).outcome = .ok r
        ∧ r.warnings.filter isNotice = ["bci 0: unresolved t/Gone, widening to top"] := by
  obtain ⟨hstrict, hwarnings⟩ := strict_rejects_unresolved seeker seeking false seeking_parsed
  refine ⟨fun hok => ?_, ?_⟩
  · -- the creation of the object is no creation of an array
    have harray := (hstrict.1 hok).2 0 .refl { bci := 0, op := ⟨187⟩, ref := some (goneRef "t/Gone") }
      (by decide) rfl
    cases harray
  · have hview : (seeker.run seeking false).outcome.toOption.isSome
        ∧ seeking.doubtful.map (·.notice) = ["bci 0: unresolved t/Gone, widening to top"] := by
      decide +kernel
    cases hr : (seeker.run seeking false).outcome with
    | error e => simp [hr, Except.toOption] at hview
    | ok r => exact ⟨r, rfl, (hwarnings r rfl hr).trans hview.2⟩

/-- It makes arrays of the class only. -/
def hoarding : FlowGraph :=
  { blocks :=
      [⟨1, [], [{ bci := 0, op := ⟨4⟩ }, { bci := 1, op := ⟨189⟩, ref := some (goneRef "t/Gone") },
        { bci := 4, op := ⟨87⟩ }, { bci := 5, op := ⟨4⟩ },
        { bci := 6, op := ⟨197⟩, imm := 1, ref := some (goneRef "[Lt/Gone;") },
        { bci := 10, op := ⟨87⟩ }, { bci := 11, op := ⟨177⟩ }]⟩]
    entry := 0
    entry_lt := by decide
    succs_lt := by decide }

/-- Arrays of a class that is gone pass in strict mode, and there is no warning about them in any. -/
theorem strict_accepts_arrays :
    (∀ block ∈ hoarding.blocks, ∀ ins ∈ block.code,
        ∃ line ∈ ["0: iconst_1", "1: anewarray ?t/Gone", "4: pop", "5: iconst_1",
          "6: multianewarray ?[Lt/Gone; 1", "10: pop", "11: return"],
          Instruction.parse line = .ok ins)
      ∧ ((hoarding.code 0).filter (·.isUnresolved)).map (·.bci) = [1, 6]
      ∧ ((seeker.under seeker.options.strict).run hoarding false).outcome
          = .ok ⟨⟨"t/A.m()V", []⟩, [some ⟨[], []⟩], []⟩
      ∧ (seeker.run hoarding false).outcome = .ok ⟨⟨"t/A.m()V", []⟩, [some ⟨[], []⟩], []⟩ := by
  decide +kernel

end InlinePlan
