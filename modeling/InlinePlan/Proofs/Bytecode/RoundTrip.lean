import InlinePlan.Proofs.Bytecode.Assembly
import InlinePlan.Proofs.Decimal.Integer
import InlinePlan.Proofs.Text.Quotes

set_option autoImplicit false

/-! # Instructions are read back from their text

The text of an instruction shows its operands in a form of their own: numbers in plain digits, element
types by their codes, strings with all escapes. For every operation this form is read as the same operands
(`exists_reprints`), so an instruction that has been read is read again from its text, unless the text
leaves something out: the cases of a switch, the kind of a constant of two slots or with a fraction, the
mark of an unresolved reference (`Instruction.parse_text`). -/

namespace InlinePlan

open Text (words Word Trimmed)

/-! ## Numbers -/

theorem Text.word_toString (n : Int) : Word (toString n).toList := by
  refine ⟨Decimal.toString_ne_nil n, fun c hc => ?_⟩
  rcases Decimal.mem_toString hc with rfl | hdigit
  · rfl
  · obtain ⟨hlow, hhigh⟩ := Decimal.isDigit_iff.1 hdigit
    have hne : ∀ k, k < 48 ∨ 57 < k → (c.toNat == k) = false := fun k hk => by
      rw [beq_eq_false_iff_ne]
      omega
    simp [Text.isBlank, hne]
    omega

/-- An integer operand that was read is read again from its digits. -/
theorem readOperandInt_toString {w : List Char} {n : Int} (h : readOperandInt w = .ok n) :
    readOperandInt (toString n).toList = .ok n := by
  unfold readOperandInt at h
  split at h
  · rename_i hread
    cases h
    rw [readOperandInt, Decimal.readInt_toString_of_readInt (by decide) hread]
  · cases h

theorem oneInt_toString {ws : List (List Char)} {n : Int} (h : oneInt ws = .ok n) :
    oneInt [(toString n).toList] = .ok n := by
  unfold oneInt at h
  split at h
  · exact readOperandInt_toString h
  · cases h

theorem twoInts_toString {ws : List (List Char)} {m n : Int} (h : twoInts ws = .ok (m, n)) :
    twoInts [(toString m).toList, (toString n).toList] = .ok (m, n) := by
  unfold twoInts at h
  split at h
  · obtain ⟨m', hm, h⟩ := Except.bind_eq_ok.1 h
    obtain ⟨n', hn, heq⟩ := Except.map_eq_ok.1 h
    cases heq
    rw [twoInts, readOperandInt_toString hm, readOperandInt_toString hn]
    rfl
  · cases h

/-! ## Operands as they are shown -/

/-- Operands as they stand on a line, behind a blank if there are any. -/
def spaced (shown : List Char) : List Char := if shown.isEmpty then [] else ' ' :: shown

theorem spaced_of_ne_nil {shown : List Char} (h : shown ≠ []) : spaced shown = ' ' :: shown :=
  if_neg (by simpa using h)

/-- The operands of `ins` are shown as `shown`, and `o` reads them from that. -/
structure Reprints (base : Instruction) (o : Operation) (ins : Instruction) (shown : List Char) :
    Prop where
  trimmed : Trimmed shown
  text : ins.operandText.toList = spaced shown
  read : readOperands base o shown = .ok ins

section Operands

variable {base ins : Instruction} {o : Operation} {operand : List Char}

theorem exists_reprints_of {shown : List Char} (htrim : Trimmed shown) (hne : shown ≠ [])
    (htext : ins.operandText = " " ++ String.ofList shown) (hread : readOperands base o shown = .ok ins) :
    ∃ shown, Reprints base o ins shown := by
  refine ⟨shown, htrim, ?_, hread⟩
  rw [htext, spaced_of_ne_nil hne]
  simp [String.toList_append]

theorem reprints_oneInt {f : Int → Instruction} (h : (oneInt (words operand)).map f = .ok ins)
    (hread : ∀ cs, readOperands base o cs = (oneInt (words cs)).map f)
    (htext : ∀ n, (f n).operandText = " " ++ toString n) : ∃ shown, Reprints base o ins shown := by
  obtain ⟨n, hn, rfl⟩ := Except.map_eq_ok.1 h
  have hword := Text.word_toString n
  refine exists_reprints_of hword.trimmed hword.ne_nil ?_ ?_
  · rw [htext, String.ofList_toList]
  · rw [hread, hword.words_eq, oneInt_toString hn]
    rfl

theorem reprints_twoInts {f : Int × Int → Instruction}
    (h : (twoInts (words operand)).map f = .ok ins)
    (hread : ∀ cs, readOperands base o cs = (twoInts (words cs)).map f)
    (htext : ∀ m n, (f (m, n)).operandText = " " ++ toString m ++ " " ++ toString n) :
    ∃ shown, Reprints base o ins shown := by
  obtain ⟨⟨m, n⟩, hmn, rfl⟩ := Except.map_eq_ok.1 h
  have hm := Text.word_toString m
  have hn := Text.word_toString n
  refine exists_reprints_of (hm.trimmed_append hn.trimmed hn.ne_nil [' ']) (by simp) ?_ ?_
  · rw [htext]
    simp [String.ofList_append, String.append_assoc]
  · rw [hread, List.append_assoc, List.singleton_append, hm.words_append rfl, hn.words_eq,
      twoInts_toString hmn]
    rfl

/-- Without operands, nothing is shown. -/
theorem reprints_none (h : (if operand.isEmpty then Except.ok base
      else .error (OperandFault.unexpected (String.ofList operand))) = .ok ins)
    (hread : readOperands base o [] = .ok base) (htext : base.operandText = "") :
    ∃ shown, Reprints base o ins shown := by
  split at h
  · cases h
    exact ⟨[], Text.trimmed_nil, by rw [htext]; rfl, hread⟩
  · cases h

/-! ### References -/

theorem splitUnresolved_eq {cs : List Char} (h : (splitUnresolved cs).2 = false) :
    (splitUnresolved cs).1 = cs := by
  unfold splitUnresolved at h ⊢
  split at h
  · cases h
  · rfl

theorem text_of_readFieldRef {r : SymbolRef} (h : readFieldRef operand = .ok r)
    (hresolved : r.unresolved = false) :
    r.kind = .field ∧ r.text.toList = operand ∧ operand ≠ [] := by
  obtain ⟨cls, name, desc, hcs, rfl⟩ := readFieldRef_eq_ok h
  rw [splitUnresolved_eq hresolved] at hcs
  rw [hcs]
  simp [SymbolRef.text, String.toList_append]

theorem text_of_readMethodRef {r : SymbolRef} (h : readMethodRef operand = .ok r)
    (hresolved : r.unresolved = false) :
    r.kind = .method ∧ r.text.toList = operand ∧ operand ≠ [] := by
  obtain ⟨cls, name, rest, hcs, -, -, rfl⟩ := readMethodRef_eq_ok h
  rw [splitUnresolved_eq hresolved] at hcs
  rw [hcs]
  simp [SymbolRef.text, String.toList_append]

theorem classRef_eq {w : List Char} (hresolved : (classRef w).unresolved = false) :
    classRef w = { kind := .cls, cls := String.ofList w } := by
  have hname : (splitUnresolved w).1 = w := splitUnresolved_eq hresolved
  have hmark : (splitUnresolved w).2 = false := hresolved
  simp [classRef, hname, hmark]

/-- A reference that is shown as the operands were written is read from them again. -/
theorem reprints_ref {r : SymbolRef} (htrim : Trimmed operand) (h : readOperands base o operand = .ok ins)
    (hshown : ins.operandText = " " ++ r.text) (htext : r.text.toList = operand ∧ operand ≠ []) :
    ∃ shown, Reprints base o ins shown :=
  exists_reprints_of htrim htext.2 (by rw [hshown, ← htext.1, String.ofList_toList]) h

end Operands

/-! ### Arrays -/

theorem primitiveArrayCode?_toString (n : Int) : primitiveArrayCode? (toString n) = none := by
  have hnames : ∀ e ∈ primitiveArrays, (e.1.toList.all fun c => c == '-' || c.isDigit) = false := by
    decide
  have hfind : primitiveArrays.find? (·.1 = toString n) = none := by
    refine List.find?_eq_none.2 fun e he heq => Bool.eq_false_iff.1 (hnames e he) ?_
    rw [of_decide_eq_true heq, List.all_eq_true]
    exact fun c hc => by simpa using Decimal.mem_toString hc
  rw [primitiveArrayCode?, hfind]
  rfl

theorem readInt_of_primitiveArrayCode? {element : String} {code : Int}
    (h : primitiveArrayCode? element = some code) :
    Decimal.readInt 64 (toString code).toList = .ok code := by
  have hcodes : ∀ e ∈ primitiveArrays, Decimal.Within 64 e.2.1 := by decide
  obtain ⟨e, he, rfl⟩ := Option.map_eq_some_iff.1 h
  exact Decimal.readInt_toString (by decide) (hcodes e (List.mem_of_find?_eq_some he))

/-! ### Constants -/

/-- A text in which there are only digits and signs is no long and no floating-point constant. -/
theorem readNumber_int (ins : Instruction) {cs : List Char} {n : Int}
    (hcs : ∀ c ∈ cs, c = '-' ∨ c.isDigit = true) (h : Decimal.readInt 32 cs = .ok n) :
    readNumber ins cs = .ok { ins with imm := n, ref := some { kind := .int } } := by
  -- The suffixes and marks of the other kinds are neither signs nor digits.
  have hlast : ∀ c, c ≠ '-' → c.isDigit = false → cs.getLast? ≠ some c := fun c hminus hdigit hc => by
    have hmem := hcs c (List.mem_of_mem_getLast? hc)
    simp [hminus, hdigit] at hmem
  have hpoint : cs.any (fun c => c = '.' ∨ c = 'e' ∨ c = 'E') = false := by
    rw [List.any_eq_false]
    intro c hc
    rcases hcs c hc with rfl | hdigit
    · decide
    · rw [decide_eq_true_eq]
      rintro (rfl | rfl | rfl) <;> cases hdigit
  unfold readNumber
  dsimp only
  rw [if_neg (by simp [hlast]), if_neg (by simp [hlast]), hpoint, if_neg (by simp [hlast]), h]

theorem readInt_of_readNumber {ins ins' : Instruction} {cs : List Char}
    (h : readNumber ins cs = .ok ins')
    (hkind : ∀ r ∈ ins'.ref, r.kind ≠ .long ∧ r.kind ≠ .float ∧ r.kind ≠ .double) :
    ∃ n, Decimal.readInt 32 cs = .ok n
      ∧ ins' = { ins with imm := n, ref := some { kind := .int } } := by
  unfold readNumber at h
  dsimp only at h
  split at h
  · split at h <;> cases h
    exact absurd rfl (hkind _ rfl).1
  · split at h
    · split at h <;> cases h
      exact absurd rfl (hkind _ rfl).2.1
    · split at h
      · split at h <;> cases h
        exact absurd rfl (hkind _ rfl).2.2
      · split at h
        · rename_i n hn
          cases h
          exact ⟨n, hn, rfl⟩
        · cases h

theorem readConstant_toString {ins : Instruction} {n : Int}
    (h : Decimal.readInt 32 (toString n).toList = .ok n) :
    readConstant ins (toString n).toList
      = .ok { ins with imm := n, ref := some { kind := .int } } := by
  have hchars : ∀ c ∈ (toString n).toList, c = '-' ∨ c.isDigit = true := fun c => Decimal.mem_toString
  have hnumber := readNumber_int ins hchars h
  obtain ⟨c, cs, hcons⟩ := List.exists_cons_of_ne_nil (Decimal.toString_ne_nil n)
  rw [hcons] at hchars hnumber ⊢
  have hc := hchars c List.mem_cons_self
  have hquote : c ≠ '\x22' := by
    rintro rfl
    exact absurd hc (by decide)
  rw [readConstant, if_neg hquote, if_pos hc, hnumber]

theorem readConstant_quoteBytes (ins : Instruction) (str : List UInt8) :
    readConstant ins (Text.quoteBytes str) = .ok { ins with ref := some { kind := .string, str } } := by
  have hread := Text.unquote?_quoteBytes str
  unfold Text.quoteBytes at hread ⊢
  rw [List.cons_append] at hread ⊢
  rw [readConstant, if_pos rfl, hread]

theorem trimmed_quoteBytes (bs : List UInt8) : Trimmed (Text.quoteBytes bs) := by
  have hquote : Word ['\x22'] := ⟨nofun, List.forall_mem_singleton.2 rfl⟩
  exact hquote.trimmed_append hquote.trimmed hquote.ne_nil ((Text.pieces bs).flatMap Text.escapePiece)

/-- Strings are shown quoted, numbers in digits and classes as they are. -/
theorem reprints_constant {base ins : Instruction} {operand : List Char}
    (hop : base.op.operation? = some .loadConstant) (htrim : Trimmed operand)
    (h : readConstant base operand = .ok ins) (hresolved : ∀ r ∈ ins.ref, r.unresolved = false)
    (hkind : ∀ r ∈ ins.ref, r.kind ≠ .long ∧ r.kind ≠ .float ∧ r.kind ≠ .double) :
    ∃ shown, Reprints base .loadConstant ins shown := by
  have hread := h
  unfold readConstant at h
  split at h
  · cases h
  · split at h
    · split at h
      · rename_i str _
        cases h
        refine exists_reprints_of (trimmed_quoteBytes str) (by simp [Text.quoteBytes]) ?_
          (readConstant_quoteBytes base str)
        simp [Instruction.operandText, hop, Operation.isBranch, Instruction.refText, SymbolRef.text]
      · cases h
    · split at h
      · obtain ⟨n, hn, rfl⟩ := readInt_of_readNumber h hkind
        have hword := Text.word_toString n
        refine exists_reprints_of hword.trimmed hword.ne_nil ?_
          (readConstant_toString (Decimal.readInt_toString_of_readInt (by decide) hn))
        simp [Instruction.operandText, hop, Operation.isBranch, Instruction.refText]
      · cases h
        refine exists_reprints_of htrim (List.cons_ne_nil _ _) ?_ hread
        rw [classRef_eq (hresolved _ rfl)]
        simp [Instruction.operandText, hop, Operation.isBranch, Instruction.refText, SymbolRef.text]

/-! ### All operations -/

section Operations

variable {bci : Int} {op : Opcode} {ins : Instruction} {o : Operation} {operand : List Char}

theorem reprints_primitiveArray (hop : op.operation? = some .newPrimitiveArray)
    (h : readOperands { bci, op } .newPrimitiveArray operand = .ok ins) :
    ∃ shown, Reprints { bci, op } .newPrimitiveArray ins shown := by
  -- Whether a name or a code was read, the code is shown, which is no name.
  obtain ⟨code, hcode, rfl⟩ : ∃ code, Decimal.readInt 64 (toString code).toList = .ok code
      ∧ ins = { bci, op, imm := code } := by
    unfold readOperands at h
    dsimp only at h
    split at h
    · split at h
      · rename_i code hcode
        cases h
        exact ⟨code, readInt_of_primitiveArrayCode? hcode, rfl⟩
      · split at h
        · rename_i code hread
          cases h
          exact ⟨code, Decimal.readInt_toString_of_readInt (by decide) hread, rfl⟩
        · cases h
    · cases h
  have hword := Text.word_toString code
  refine exists_reprints_of hword.trimmed hword.ne_nil ?_ ?_
  · simp [Instruction.operandText, hop]
  · unfold readOperands
    dsimp only
    rw [hword.words_eq]
    dsimp only
    rw [String.ofList_toList, primitiveArrayCode?_toString, hcode]

theorem reprints_multiArray (hop : op.operation? = some .newMultiArray)
    (h : readOperands { bci, op } .newMultiArray operand = .ok ins)
    (hresolved : ∀ r ∈ ins.ref, r.unresolved = false) :
    ∃ shown, Reprints { bci, op } .newMultiArray ins shown := by
  unfold readOperands at h
  dsimp only at h
  split at h
  · rename_i w n hwords
    split at h
    · rename_i dims hdims
      cases h
      have hmem : w ∈ words operand := by simp [hwords]
      have hw : Word w := Text.word_of_mem_words hmem
      have hn := Text.word_toString dims
      refine exists_reprints_of (hw.trimmed_append hn.trimmed hn.ne_nil [' ']) (by simp) ?_ ?_
      · rw [classRef_eq (hresolved _ rfl)]
        simp [Instruction.operandText, hop, Operation.isBranch, Instruction.refText, SymbolRef.text,
          String.ofList_append, String.append_assoc]
      · unfold readOperands
        dsimp only
        rw [List.append_assoc, List.singleton_append, hw.words_append rfl, hn.words_eq]
        dsimp only
        rw [Decimal.readInt_toString_of_readInt (by decide) hdims]
    · cases h
  · cases h

theorem reprints_class (hop : op.operation? = some o)
    (ho : o = .newObject ∨ o = .newObjectArray ∨ o = .checkCast ∨ o = .instanceOf)
    (h : readOperands { bci, op } o operand = .ok ins)
    (hresolved : ∀ r ∈ ins.ref, r.unresolved = false) :
    ∃ shown, Reprints { bci, op } o ins shown := by
  -- These operations are read alike.
  have hread : ∀ cs, readOperands { bci, op } o cs = readOperands { bci, op } .newObject cs := by
    rcases ho with rfl | rfl | rfl | rfl <;> exact fun _ => rfl
  rw [hread] at h
  unfold readOperands at h
  dsimp only at h
  split at h
  · rename_i w hwords
    cases h
    have hmem : w ∈ words operand := by simp [hwords]
    have hw : Word w := Text.word_of_mem_words hmem
    refine exists_reprints_of hw.trimmed hw.ne_nil ?_ ?_
    · rw [classRef_eq (hresolved _ rfl)]
      rcases ho with rfl | rfl | rfl | rfl <;>
        simp [Instruction.operandText, hop, Operation.isBranch, Instruction.refText, SymbolRef.text]
    · rw [hread]
      unfold readOperands
      dsimp only
      rw [hw.words_eq]
  · cases h

theorem exists_reprints (hop : op.operation? = some o) (hswitch : o ≠ .switch)
    (htrim : Trimmed operand) (h : readOperands { bci, op } o operand = .ok ins)
    (hresolved : ∀ r ∈ ins.ref, r.unresolved = false)
    (hkind : ∀ r ∈ ins.ref, r.kind ≠ .long ∧ r.kind ≠ .float ∧ r.kind ≠ .double) :
    ∃ shown, Reprints { bci, op } o ins shown := by
  -- The operations are grouped as their operands are read.
  cases o with
  | switch => exact absurd rfl hswitch
  | load k slot | store k slot =>
    cases slot with
    | none => exact reprints_oneInt h (fun _ => rfl) fun n => by simp [Instruction.operandText, hop]
    | some n =>
      exact reprints_none h rfl (by simp [Instruction.operandText, hop, Operation.isBranch])
  | returnSubroutine | pushImmediate =>
    exact reprints_oneInt h (fun _ => rfl) fun n => by simp [Instruction.operandText, hop]
  | testZero _ | testInts _ | testRefs _ | testNull _ | jump | callSubroutine =>
    exact reprints_oneInt h (fun _ => rfl) fun n => by
      simp [Instruction.operandText, hop, Operation.isBranch]
  | increment =>
    exact reprints_twoInts h (fun _ => rfl) fun m n => by simp [Instruction.operandText, hop]
  | newPrimitiveArray => exact reprints_primitiveArray hop h
  | loadConstant => exact reprints_constant hop htrim h hresolved hkind
  | readField _ | writeField _ =>
    obtain ⟨r, hr, rfl⟩ := Except.map_eq_ok.1 h
    obtain ⟨hfield, htext⟩ := text_of_readFieldRef hr (hresolved r rfl)
    refine reprints_ref htrim h ?_ htext
    simp [Instruction.operandText, hop, Operation.isBranch, Instruction.refText, hfield]
  | invoke _ =>
    obtain ⟨r, hr, rfl⟩ := Except.map_eq_ok.1 h
    obtain ⟨hmethod, htext⟩ := text_of_readMethodRef hr (hresolved r rfl)
    refine reprints_ref htrim h ?_ htext
    simp [Instruction.operandText, hop, Operation.isBranch, Instruction.refText, hmethod]
  | newObject | newObjectArray | checkCast | instanceOf =>
    exact reprints_class hop (by simp) h hresolved
  | newMultiArray => exact reprints_multiArray hop h hresolved
  | _ => exact reprints_none h rfl (by simp [Instruction.operandText, hop, Operation.isBranch])

end Operations

/-! ## Lines -/

theorem word_mnemonic : ∀ e ∈ opcodeTable, Word e.mnemonic.toList := by
  have hall : ∀ e ∈ opcodeTable, e.mnemonic.toList ≠ [] ∧
      (e.mnemonic.toList.all fun c => !Text.isBlank c) = true := by decide +kernel
  intro e he
  obtain ⟨hne, hsolid⟩ := hall e he
  exact ⟨hne, fun c hc => by simpa using List.all_eq_true.1 hsolid c hc⟩

theorem mnemonic_of_ofMnemonic? {name : String} {op : Opcode} (h : Opcode.ofMnemonic? name = some op) :
    op.mnemonic = name ∧ Word name.toList := by
  obtain ⟨i, hfind, rfl⟩ := Option.map_eq_some_iff.1 h
  obtain ⟨hi, hname, -⟩ := List.findIdx?_eq_some_iff_getElem.1 hfind
  have hlength : opcodeTable.length = 202 := rfl
  have hcode : (UInt8.ofNat i).toNat = i := by
    simp only [UInt8.toNat_ofNat']
    omega
  have hrow : (⟨UInt8.ofNat i⟩ : Opcode).row? = some opcodeTable[i] := by
    rw [Opcode.row?, hcode, List.getElem?_eq_getElem hi]
  rw [beq_iff_eq] at hname
  refine ⟨?_, hname ▸ word_mnemonic _ (List.getElem_mem hi)⟩
  rw [Opcode.mnemonic, hrow]
  exact hname

/-- The mnemonic is what stands before the first blank, and the rest are the operands. -/
theorem splitMnemonic_append {m shown : List Char} (hm : Word m) (hshown : Trimmed shown) :
    splitMnemonic (m ++ spaced shown) = (m, shown) := by
  have hblank : ' ' ∉ m := fun hmem => by simpa [Text.isBlank] using hm.solid ' ' hmem
  cases shown with
  | nil =>
    rw [spaced, List.isEmpty_nil, if_pos rfl, List.append_nil, splitMnemonic,
      Text.cut?_eq_none_iff.2 hblank]
  | cons c cs =>
    rw [spaced_of_ne_nil (List.cons_ne_nil c cs), splitMnemonic, Text.cut?_append hblank]
    exact Prod.ext rfl hshown.trim_eq

theorem trimmed_append_spaced {m shown : List Char} (hm : Word m) (hshown : Trimmed shown) :
    Trimmed (m ++ spaced shown) := by
  cases shown with
  | nil => simpa [spaced] using hm.trimmed
  | cons c cs => simpa [spaced] using hm.trimmed_append hshown (List.cons_ne_nil c cs) [' ']

theorem trimmed_splitMnemonic (cs : List Char) : Trimmed (splitMnemonic cs).2 := by
  unfold splitMnemonic
  split
  · exact Text.trimmed_trim _
  · exact Text.trimmed_nil

theorem Instruction.toList_text (ins : Instruction) :
    ins.text.toList
      = (toString ins.bci).toList ++ ':' :: ' ' :: (ins.op.mnemonic.toList ++ ins.operandText.toList) := by
  simp [Instruction.text, String.toList_append]

/-- An instruction that was read is read again from its text, whole, unless it is a switch, a long or
    floating-point constant or has an unresolved reference. -/
theorem Instruction.parse_text {line : String} {ins : Instruction}
    (h : Instruction.parse line = .ok ins) (hswitch : ins.op.operation? ≠ some .switch)
    (hkind : ∀ r ∈ ins.ref, r.kind ≠ .long ∧ r.kind ≠ .float ∧ r.kind ≠ .double)
    (hresolved : ∀ r ∈ ins.ref, r.unresolved = false) :
    Instruction.parse ins.text = .ok ins := by
  obtain ⟨pos, rest, bci, op, o, -, hbci, hname, hop, hread⟩ := Instruction.read_eq_ok_iff.1 h
  obtain ⟨hpos, hcode⟩ : ins.bci = bci ∧ ins.op = op := keeps_of_readOperands hread
  obtain ⟨hmnemonic, hword⟩ := mnemonic_of_ofMnemonic? hname
  rw [hcode, hop] at hswitch
  obtain ⟨shown, hshown⟩ := exists_reprints hop (fun ho => hswitch (congrArg some ho))
    (trimmed_splitMnemonic _) hread hresolved hkind
  have hnocolon : ':' ∉ (toString bci).toList := fun hmem =>
    absurd (Decimal.mem_toString hmem) (by decide)
  refine Instruction.read_eq_ok_iff.2 ⟨(toString bci).toList,
    ' ' :: (op.mnemonic.toList ++ spaced shown), bci, op, o, ?_, ?_, ?_⟩
  · rw [Instruction.toList_text, hpos, hcode, hshown.text, Text.cut?_append hnocolon]
  · rw [(Text.word_toString bci).trimmed.trim_eq,
      Decimal.readInt_toString_of_readInt (by decide) hbci]
  · rw [← hmnemonic] at hname hword
    rw [Text.trim_cons_blank rfl, (trimmed_append_spaced hword hshown.trimmed).trim_eq,
      splitMnemonic_append hword hshown.trimmed, String.ofList_toList]
    exact ⟨hname, hop, hshown.read⟩

/-- The load of a string constant. -/
def Instruction.stringLoad : Instruction :=
  { bci := 7, op := ⟨0x12⟩, ref := some { kind := .string, str := [97, 0xC3, 0xA9, 0xFF, 9] } }

theorem Instruction.parse_text_stringLoad :
    Instruction.parse "  +7 :  ldc   \"\\x61é\\377\\u0009\"  " = .ok stringLoad
      ∧ stringLoad.text = "7: ldc \"aé\\xff\\t\""
      ∧ Instruction.parse stringLoad.text = .ok stringLoad := by
  have hread : Instruction.parse "  +7 :  ldc   \"\\x61é\\377\\u0009\"  " = .ok stringLoad := by
    decide +kernel
  exact ⟨hread, by decide +kernel,
    Instruction.parse_text hread (by decide) (by decide) (by decide)⟩

end InlinePlan
