import InlinePlan.Bytecode.Assembly
import InlinePlan.Proofs.Text.Cuts

set_option autoImplicit false

/-! # What a line of code is read as

A line that is read has a position, a known mnemonic and the operands of its operation
(`Instruction.read_eq_ok_iff`). The reference to a member is its text taken apart, at the first parenthesis
or colon and at the last point before it (`readMethodRef_eq_ok`, `readFieldRef_eq_ok`). -/

namespace InlinePlan

namespace Except

variable {ε α β : Type} {x : Except ε α} {b : β}

theorem bind_eq_ok {f : α → Except ε β} : x.bind f = .ok b ↔ ∃ a, x = .ok a ∧ f a = .ok b := by
  cases x <;> simp [Except.bind]

theorem map_eq_ok {f : α → β} : x.map f = .ok b ↔ ∃ a, x = .ok a ∧ f a = b := by
  cases x <;> simp [Except.map]

end Except

/-! ## References -/

theorem splitMember?_eq_some {owner cls name : List Char} (h : splitMember? owner = some (cls, name)) :
    owner = cls ++ '.' :: name ∧ '.' ∉ name := by
  unfold splitMember? at h
  split at h
  · rename_i hcut
    cases h
    exact Text.cutLast?_eq_some hcut
  · cases h

theorem memberRef_eq_ok {kind : RefKind} {whole owner desc : List Char} {unresolved : Bool}
    {r : SymbolRef} (h : memberRef kind whole owner desc unresolved = .ok r) :
    ∃ cls name : List Char, owner = cls ++ '.' :: name ∧ '.' ∉ name
      ∧ r = { kind, cls := String.ofList cls, name := String.ofList name,
              descriptor := String.ofList desc, unresolved } := by
  unfold memberRef at h
  split at h
  · cases h
  · rename_i cls name hmember
    cases h
    obtain ⟨howner, hname⟩ := splitMember?_eq_some hmember
    exact ⟨cls, name, howner, hname, rfl⟩

/-- A method reference is split at its first parenthesis and at the last point before it. -/
theorem readMethodRef_eq_ok {operand : List Char} {r : SymbolRef} (h : readMethodRef operand = .ok r) :
    ∃ cls name rest : List Char,
      (splitUnresolved operand).1 = cls ++ '.' :: name ++ '(' :: rest
        ∧ '(' ∉ cls ++ '.' :: name ∧ '.' ∉ name
        ∧ r = { kind := .method, cls := String.ofList cls, name := String.ofList name,
                descriptor := String.ofList ('(' :: rest),
                unresolved := (splitUnresolved operand).2 } := by
  unfold readMethodRef at h
  dsimp only at h
  split at h
  · cases h
  · rename_i owner rest hcut
    obtain ⟨hcs, hopen⟩ := Text.cut?_eq_some_iff.1 hcut
    split at h
    · cases h
    · obtain ⟨cls, name, rfl, hname, rfl⟩ := memberRef_eq_ok h
      exact ⟨cls, name, rest, hcs, hopen, hname, rfl⟩

/-- A field reference is split at its first colon and at the last point before it. -/
theorem readFieldRef_eq_ok {operand : List Char} {r : SymbolRef} (h : readFieldRef operand = .ok r) :
    ∃ cls name desc : List Char,
      (splitUnresolved operand).1 = cls ++ '.' :: name ++ ':' :: desc
        ∧ r = { kind := .field, cls := String.ofList cls, name := String.ofList name,
                descriptor := String.ofList desc,
                unresolved := (splitUnresolved operand).2 } := by
  unfold readFieldRef at h
  dsimp only at h
  split at h
  · cases h
  · rename_i owner desc hcut
    have hcs := Text.cut?_eq_some hcut
    split at h
    · cases h
    · obtain ⟨cls, name, rfl, -, rfl⟩ := memberRef_eq_ok h
      exact ⟨cls, name, desc, hcs, rfl⟩

/-! ## Operands -/

section Operands
variable {ins ins' : Instruction}

theorem keeps_of_readNumber {cs : List Char} (h : readNumber ins cs = .ok ins') :
    ins'.bci = ins.bci ∧ ins'.op = ins.op := by
  unfold readNumber at h
  dsimp only at h
  repeat' split at h
  all_goals cases h <;> exact ⟨rfl, rfl⟩

theorem keeps_of_readConstant {cs : List Char} (h : readConstant ins cs = .ok ins') :
    ins'.bci = ins.bci ∧ ins'.op = ins.op := by
  unfold readConstant at h
  split at h
  · cases h
  · split at h
    · split at h <;> cases h
      exact ⟨rfl, rfl⟩
    · split at h
      · exact keeps_of_readNumber h
      · cases h
        exact ⟨rfl, rfl⟩

/-- Reading operands leaves the position and the opcode alone. -/
theorem keeps_of_readOperands {o : Operation} {operand : List Char}
    (h : readOperands ins o operand = .ok ins') : ins'.bci = ins.bci ∧ ins'.op = ins.op := by
  have hmap {α : Type} {x : Except OperandFault α} {f : α → Instruction} (hx : x.map f = .ok ins')
      (hf : ∀ a, (f a).bci = ins.bci ∧ (f a).op = ins.op) :
      ins'.bci = ins.bci ∧ ins'.op = ins.op := by
    obtain ⟨a, -, rfl⟩ := Except.map_eq_ok.1 hx
    exact hf a
  unfold readOperands at h
  dsimp only at h
  split at h
  all_goals first
    | exact hmap h fun _ => ⟨rfl, rfl⟩
    | exact keeps_of_readConstant h
    | (repeat' split at h)
  all_goals cases h <;> exact ⟨rfl, rfl⟩

end Operands

/-! ## Lines -/

/-- A line is split at its first colon, and then into mnemonic and operands. -/
theorem Instruction.read_eq_ok_iff {line : List Char} {ins : Instruction} :
    Instruction.read line = .ok ins ↔
      ∃ (pos rest : List Char) (bci : Int) (op : Opcode) (o : Operation),
        Text.cut? ':' line = some (pos, rest) ∧ Decimal.readInt 64 (Text.trim pos) = .ok bci
          ∧ Opcode.ofMnemonic? (String.ofList (splitMnemonic (Text.trim rest)).1) = some op
          ∧ op.operation? = some o
          ∧ readOperands { bci, op } o (splitMnemonic (Text.trim rest)).2 = .ok ins := by
  constructor
  · intro h
    unfold Instruction.read at h
    split at h
    · cases h
    · rename_i pos rest hcut
      split at h
      · cases h
      · rename_i bci hbci
        dsimp only at h
        split at h
        · cases h
        · rename_i op hop
          split at h
          · cases h
          · rename_i o ho
            split at h
            · rename_i hread
              cases h
              exact ⟨pos, rest, bci, op, o, hcut, hbci, hop, ho, hread⟩
            · cases h
  · rintro ⟨pos, rest, bci, op, o, hcut, hbci, hop, ho, hread⟩
    simp only [Instruction.read, hcut, hbci, hop, ho, hread]

/-- An instruction has the opcode whose operands were read for it. -/
theorem Instruction.operands_of_parse {line : String} {ins : Instruction}
    (h : Instruction.parse line = .ok ins) :
    ∃ (bci : Int) (op : Opcode) (o : Operation) (operand : List Char),
      ins.op.operation? = some o ∧ readOperands { bci, op } o operand = .ok ins := by
  obtain ⟨-, rest, bci, op, o, -, -, -, ho, hread⟩ := Instruction.read_eq_ok_iff.1 h
  exact ⟨bci, op, o, _, by rw [(keeps_of_readOperands hread).2, ho], hread⟩

end InlinePlan
