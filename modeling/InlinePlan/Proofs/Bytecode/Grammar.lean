import InlinePlan.Bytecode.Descriptor
import InlinePlan.Proofs.Text.Cuts
import InlinePlan.Proofs.Text.Utf8
import Mathlib.Data.List.TakeWhile

set_option autoImplicit false

/-! # The grammar of descriptors

A descriptor is the text of a syntax tree: letters for primitive types, `L` name `;` for classes,
brackets in front of either for arrays; a method has field types between parentheses and then a
result, which is a field type or `V`. The readers accept exactly the texts of trees and give what the
tree stands for (`descriptors_of_grammar`), and a text belongs to one tree only. -/

namespace InlinePlan

/-! ## Syntax trees -/

/-- The primitive types. -/
inductive Primitive where
  | boolean
  | byte
  | char
  | short
  | int
  | long
  | float
  | double
  deriving DecidableEq

namespace Primitive

def letter : Primitive → Char
  | boolean => 'Z'
  | byte => 'B'
  | char => 'C'
  | short => 'S'
  | int => 'I'
  | long => 'J'
  | float => 'F'
  | double => 'D'

/-- The types of up to 32 bits are computed with as `int`. -/
def category : Primitive → Category
  | boolean | byte | char | short | int => .int
  | long => .long
  | float => .float
  | double => .double

end Primitive

/-- A type that is no array. The name of a class ends at the first semicolon. -/
inductive ElementType where
  | primitive (p : Primitive)
  | object (name : List Char) (closed : ';' ∉ name)
  deriving DecidableEq

namespace ElementType

def text : ElementType → List Char
  | primitive p => [p.letter]
  | object name _ => 'L' :: name ++ [';']

def type : ElementType → JavaType
  | primitive p => ⟨p.category, ""⟩
  | object name _ => ⟨.ref, String.ofList name⟩

end ElementType

/-- A type that a field can have: an array of some dimensions, of which it may have none. -/
structure FieldType where
  dimensions : Nat
  element : ElementType
  deriving DecidableEq

namespace FieldType

def text (f : FieldType) : List Char := List.replicate f.dimensions '[' ++ f.element.text

/-- An array is named by its whole text. -/
def type (f : FieldType) : JavaType :=
  if f.dimensions = 0 then f.element.type else ⟨.ref, String.ofList f.text⟩

end FieldType

/-- What a method gives back. -/
inductive ResultType where
  | void
  | value (f : FieldType)
  deriving DecidableEq

namespace ResultType

def text : ResultType → List Char
  | void => ['V']
  | value f => f.text

def type : ResultType → JavaType
  | void => ⟨.void, ""⟩
  | value f => f.type

end ResultType

/-- The parameters and the result of a method. -/
structure MethodType where
  params : List FieldType
  result : ResultType
  deriving DecidableEq

namespace MethodType

def text (d : MethodType) : List Char :=
  '(' :: d.params.flatMap FieldType.text ++ ')' :: d.result.text

def signature (d : MethodType) : Signature := ⟨d.params.map FieldType.type, d.result.type⟩

end MethodType

/-! ## Reading a type -/

theorem primitive?_letter (p : Primitive) : primitive? p.letter = some p.category := by
  cases p <;> rfl

theorem primitive?_eq_some {c : Char} {k : Category} (h : primitive? c = some k) :
    (c = 'V' ∧ k = .void) ∨ ∃ p : Primitive, c = p.letter ∧ k = p.category := by
  unfold primitive? at h
  split at h <;> cases h
  · exact .inl ⟨rfl, rfl⟩
  all_goals refine .inr ?_
  · exact ⟨.boolean, rfl, rfl⟩
  · exact ⟨.byte, rfl, rfl⟩
  · exact ⟨.char, rfl, rfl⟩
  · exact ⟨.short, rfl, rfl⟩
  · exact ⟨.int, rfl, rfl⟩
  · exact ⟨.long, rfl, rfl⟩
  · exact ⟨.float, rfl, rfl⟩
  · exact ⟨.double, rfl, rfl⟩

theorem readSimpleType_text (e : ElementType) (rest : List Char) :
    readSimpleType (e.text ++ rest) = .ok (e.type, e.text, rest) := by
  cases e with
  | primitive p => simp [ElementType.text, ElementType.type, readSimpleType, primitive?_letter]
  | object name closed =>
    simp [ElementType.text, ElementType.type, readSimpleType, primitive?, Text.cut?_append closed]

/-- What is read without looking for brackets is `void` or an element type. -/
theorem readSimpleType_eq_ok {cs text rest : List Char} {t : JavaType}
    (h : readSimpleType cs = .ok (t, text, rest)) :
    (cs = 'V' :: rest ∧ t = ⟨.void, ""⟩)
      ∨ ∃ e : ElementType, cs = e.text ++ rest ∧ text = e.text ∧ t = e.type := by
  cases cs with
  | nil => cases h
  | cons c cs =>
    rw [readSimpleType] at h
    split at h
    · rename_i k hk
      cases h
      rcases primitive?_eq_some hk with ⟨rfl, rfl⟩ | ⟨p, rfl, rfl⟩
      · exact .inl ⟨rfl, rfl⟩
      · exact .inr ⟨.primitive p, rfl, rfl, rfl⟩
    · split at h
      · rename_i hc
        split at h
        · rename_i name rest' hcut
          cases h
          refine .inr ⟨.object name (Text.notMem_of_cut? hcut), ?_, rfl, rfl⟩
          simp [ElementType.text, hc, Text.cut?_eq_some hcut]
        · cases h
      · cases h

/-- Element types and results begin with a letter. -/
theorem ElementType.exists_text_eq_cons (e : ElementType) :
    ∃ c cs, e.text = c :: cs ∧ c ≠ '[' ∧ c ≠ ')' := by
  cases e with
  | primitive p => exact ⟨p.letter, [], rfl, by cases p <;> decide, by cases p <;> decide⟩
  | object name _ => exact ⟨'L', name ++ [';'], rfl, by decide, by decide⟩

theorem takeWhile_brackets (n : Nat) {c : Char} (hc : c ≠ '[') (cs : List Char) :
    (List.replicate n '[' ++ c :: cs).takeWhile (· = '[') = List.replicate n '['
      ∧ (List.replicate n '[' ++ c :: cs).dropWhile (· = '[') = c :: cs := by
  have hbrackets : ∀ b ∈ List.replicate n '[', decide (b = '[') = true := by simp
  rw [List.takeWhile_append_of_pos hbrackets, List.dropWhile_append_of_pos hbrackets]
  simp [hc]

theorem FieldType.category_ne_void (f : FieldType) : f.type.category ≠ .void := by
  unfold type
  split
  · cases f.element with
    | primitive p => cases p <;> exact nofun
    | object name _ => exact nofun
  · exact nofun

theorem readType_fieldText (f : FieldType) (rest : List Char) :
    readType (f.text ++ rest) = .ok (f.type, rest) := by
  obtain ⟨n, e⟩ := f
  obtain ⟨c, cs, htext, hc, -⟩ := e.exists_text_eq_cons
  have hsimple := readSimpleType_text e rest
  rw [htext, List.cons_append] at hsimple
  obtain ⟨htake, hdrop⟩ := takeWhile_brackets n hc (cs ++ rest)
  rw [readType, FieldType.text, List.append_assoc, htext, List.cons_append, htake, hdrop, readTypeAfter,
    hsimple]
  cases n with
  | zero => rfl
  | succ n =>
    have hvoid : e.type.category ≠ .void := FieldType.category_ne_void ⟨0, e⟩
    simp [FieldType.type, FieldType.text, hvoid, htext]

/-- A result is read from its text, whatever follows. -/
theorem readType_text (r : ResultType) (rest : List Char) :
    readType (r.text ++ rest) = .ok (r.type, rest) := by
  cases r with
  | void => rfl
  | value f => exact readType_fieldText f rest

/-- What is read as a type is the text of a result. -/
theorem readType_eq_ok {cs rest : List Char} {t : JavaType} (h : readType cs = .ok (t, rest)) :
    ∃ r : ResultType, cs = r.text ++ rest ∧ t = r.type := by
  have hbrackets : cs.takeWhile (· = '[') = List.replicate (cs.takeWhile (· = '[')).length '[' :=
    List.eq_replicate_of_mem fun b hb => by simpa using List.mem_takeWhile_imp hb
  have hsplit := List.takeWhile_append_dropWhile (p := (· = '[')) (l := cs)
  unfold readType readTypeAfter at h
  -- From here on, only the two parts of the text matter and not how they were found.
  generalize cs.takeWhile (· = '[') = brackets at h hbrackets hsplit
  generalize cs.dropWhile (· = '[') = after at h hsplit
  split at h
  · cases h
  · rename_i t' text rest' hsimple
    rcases readSimpleType_eq_ok hsimple with ⟨rfl, rfl⟩ | ⟨e, rfl, rfl, rfl⟩
    · split at h
      · rename_i hempty
        cases h
        exact ⟨.void, by simpa [List.isEmpty_iff.1 hempty, ResultType.text] using hsplit.symm, rfl⟩
      · cases h
    · split at h
      · rename_i hempty
        cases h
        refine ⟨.value ⟨0, e⟩, ?_, rfl⟩
        simpa [List.isEmpty_iff.1 hempty, ResultType.text, FieldType.text] using hsplit.symm
      · rename_i hnonempty
        split at h
        · cases h
        · cases h
          refine ⟨.value ⟨brackets.length, e⟩, ?_, ?_⟩
          · rw [ResultType.text, FieldType.text, ← hbrackets, ← hsplit, List.append_assoc]
          · have hlength : brackets.length ≠ 0 := by simpa using hnonempty
            rw [ResultType.type, FieldType.type, if_neg hlength, FieldType.text, ← hbrackets]

/-! ## Reading a descriptor -/

theorem ResultType.type_ne_void_iff (r : ResultType) :
    r.type.category ≠ .void ↔ ∃ f : FieldType, r = .value f := by
  cases r with
  | void => simp [type]
  | value f => simp [type, f.category_ne_void]

theorem readFieldType_eq_ok_iff {cs : List Char} {t : JavaType} :
    readFieldType cs = .ok t ↔ ∃ f : FieldType, cs = f.text ∧ t = f.type := by
  constructor
  · intro h
    unfold readFieldType at h
    split at h
    · cases h
    · rename_i hread
      obtain ⟨r, rfl, rfl⟩ := readType_eq_ok hread
      split at h
      · cases h
      · rename_i hrest
        split at h
        · cases h
        · rename_i hvoid
          cases h
          obtain ⟨f, rfl⟩ := r.type_ne_void_iff.1 hvoid
          exact ⟨f, by simpa [ResultType.text] using hrest, rfl⟩
  · rintro ⟨f, rfl, rfl⟩
    have hread := readType_fieldText f []
    rw [List.append_nil] at hread
    rw [readFieldType, hread]
    simp [f.category_ne_void]

/-- No field type begins with the parenthesis that closes a list. -/
theorem FieldType.exists_text_eq_cons (f : FieldType) : ∃ c cs, f.text = c :: cs ∧ c ≠ ')' := by
  obtain ⟨n, e⟩ := f
  obtain ⟨c, cs, htext, -, hc⟩ := e.exists_text_eq_cons
  cases n with
  | zero => exact ⟨c, cs, htext, hc⟩
  | succ n => exact ⟨'[', List.replicate n '[' ++ e.text, rfl, by decide⟩

/-- Parameters are read up to the parenthesis that closes their list. -/
theorem readParameters_text (fs : List FieldType) (rest : List Char) :
    readParameters (fs.flatMap FieldType.text ++ ')' :: rest) = .ok (fs.map FieldType.type, rest) := by
  induction fs with
  | nil =>
    rw [List.flatMap_nil, List.nil_append, readParameters]
    rfl
  | cons f fs ih =>
    have hread := readType_fieldText f (fs.flatMap FieldType.text ++ ')' :: rest)
    obtain ⟨c, cs, htext, hc⟩ := f.exists_text_eq_cons
    rw [List.flatMap_cons, List.append_assoc, htext, List.cons_append, readParameters]
    · rw [htext, List.cons_append] at hread
      split
      · rename_i h
        rw [hread] at h
        cases h
      · rename_i h
        rw [hread] at h
        cases h
        rw [if_neg f.category_ne_void, ih]
        rfl
    · exact fun h => hc h

theorem readParameters_eq_ok {cs rest : List Char} {ts : List JavaType}
    (h : readParameters cs = .ok (ts, rest)) :
    ∃ fs : List FieldType, cs = fs.flatMap FieldType.text ++ ')' :: rest ∧ ts = fs.map FieldType.type := by
  fun_induction readParameters cs generalizing ts rest with
  | case1 => cases h
  | case2 rest' =>
    cases h
    exact ⟨[], rfl, rfl⟩
  | case3 => cases h
  | case4 => cases h
  | case5 => cases h
  | case6 c cs hc t rest' hread hvoid ts' rest'' hparams ih =>
    cases h
    obtain ⟨r, hcs, rfl⟩ := readType_eq_ok hread
    obtain ⟨f, rfl⟩ := r.type_ne_void_iff.1 hvoid
    obtain ⟨fs, rfl, rfl⟩ := ih hparams
    exact ⟨f :: fs, by rw [hcs, List.flatMap_cons, List.append_assoc]; rfl, rfl⟩

theorem readSignature_eq_ok_iff {cs : List Char} {sig : Signature} :
    readSignature cs = .ok sig ↔ ∃ d : MethodType, cs = d.text ∧ sig = d.signature := by
  constructor
  · intro h
    unfold readSignature at h
    split at h
    case h_2 => cases h
    split at h
    · cases h
    · rename_i hparams
      obtain ⟨fs, rfl, rfl⟩ := readParameters_eq_ok hparams
      split at h
      · cases h
      · rename_i hresult
        obtain ⟨r, rfl, rfl⟩ := readType_eq_ok hresult
        split at h
        · rename_i hrest
          cases h
          exact ⟨⟨fs, r⟩, by simp [MethodType.text, List.isEmpty_iff.1 hrest], rfl⟩
        · cases h
  · rintro ⟨⟨fs, r⟩, rfl, rfl⟩
    have hresult := readType_text r []
    rw [List.append_nil] at hresult
    simp [MethodType.text, MethodType.signature, readSignature, readParameters_text, hresult]

/-! ## Slots -/

theorem FieldType.slots_type (f : FieldType) :
    f.type.slots = 1 + if f.text = ['J'] ∨ f.text = ['D'] then 1 else 0 := by
  obtain ⟨n, e⟩ := f
  cases n with
  | zero =>
    cases e with
    | primitive p => cases p <;> rfl
    | object name _ =>
      have hcons : (⟨0, .object name ‹_›⟩ : FieldType).text = 'L' :: name ++ [';'] := rfl
      rw [hcons]
      simp [FieldType.type, ElementType.type, JavaType.slots, Category.slots]
  | succ n =>
    have hcons : (⟨n + 1, e⟩ : FieldType).text = '[' :: (List.replicate n '[' ++ e.text) := rfl
    rw [hcons]
    simp [FieldType.type, JavaType.slots, Category.slots]

/-- Parameters take a slot each, and one more if they are `long` or `double`. -/
theorem MethodType.argSlots_signature (d : MethodType) :
    d.signature.argSlots
      = d.params.length + d.params.countP fun f => f.text = ['J'] ∨ f.text = ['D'] := by
  obtain ⟨fs, r⟩ := d
  unfold MethodType.signature Signature.argSlots
  dsimp only
  induction fs with
  | nil => rfl
  | cons f fs ih =>
    rw [List.map_cons, List.map_cons, List.foldr_cons, ih, f.slots_type, List.length_cons,
      List.countP_cons]
    simp only [decide_eq_true_eq]
    omega

/-! ## One tree for a text -/

theorem Primitive.letter_inj {p p' : Primitive} (h : p.letter = p'.letter) : p = p' := by
  cases p <;> cases p' <;> first | rfl | cases h

theorem ElementType.text_inj {e e' : ElementType} (h : e.text = e'.text) : e = e' := by
  cases e with
  | primitive p =>
    cases e' with
    | primitive p' => rw [Primitive.letter_inj (List.singleton_inj.1 h)]
    | object name _ => simp [text] at h
  | object name _ =>
    cases e' with
    | primitive p' => simp [text] at h
    | object name' _ =>
      obtain rfl : name = name' := by simpa [text] using h
      rfl

/-- The text of a field type is not the beginning of another one's. -/
theorem FieldType.text_append_inj {f f' : FieldType} {r r' : List Char}
    (h : f.text ++ r = f'.text ++ r') : f = f' ∧ r = r' := by
  obtain ⟨n, e⟩ := f
  obtain ⟨n', e'⟩ := f'
  obtain ⟨c, cs, htext, hc, -⟩ := e.exists_text_eq_cons
  obtain ⟨c', cs', htext', hc', -⟩ := e'.exists_text_eq_cons
  have hsimple := readSimpleType_text e r
  rw [text, text, List.append_assoc, List.append_assoc] at h
  have htake := congrArg (List.takeWhile (· = '[')) h
  have hdrop := congrArg (List.dropWhile (· = '[')) h
  rw [htext, htext', List.cons_append, List.cons_append, (takeWhile_brackets n hc _).1,
    (takeWhile_brackets n' hc' _).1] at htake
  rw [htext, htext', List.cons_append, List.cons_append, (takeWhile_brackets n hc _).2,
    (takeWhile_brackets n' hc' _).2, ← List.cons_append, ← List.cons_append, ← htext, ← htext'] at hdrop
  -- What the reader says of an element type holds its text and what follows it.
  rw [hdrop, readSimpleType_text e' r', Except.ok.injEq, Prod.mk.injEq, Prod.mk.injEq] at hsimple
  obtain ⟨-, heq, rfl⟩ := hsimple
  obtain rfl := ElementType.text_inj heq
  obtain rfl : n = n' := by simpa using congrArg List.length htake
  exact ⟨rfl, rfl⟩

theorem FieldType.text_inj {f f' : FieldType} (h : f.text = f'.text) : f = f' := by
  have happend : f.text ++ [] = f'.text ++ [] := by rw [h]
  exact (text_append_inj happend).1

theorem ResultType.text_inj {r r' : ResultType} (h : r.text = r'.text) : r = r' := by
  have hread := readType_text r []
  rw [h, readType_text r' [], Except.ok.injEq, Prod.mk.injEq] at hread
  cases r with
  | void =>
    cases r' with
    | void => rfl
    | value f' => exact absurd (congrArg JavaType.category hread.1) f'.category_ne_void
  | value f =>
    cases r' with
    | void => exact absurd (congrArg JavaType.category hread.1.symm) f.category_ne_void
    | value f' => rw [FieldType.text_inj h]

theorem FieldType.flatMap_text_inj {fs fs' : List FieldType} {r r' : List Char}
    (h : fs.flatMap text ++ ')' :: r = fs'.flatMap text ++ ')' :: r') : fs = fs' ∧ r = r' := by
  induction fs generalizing fs' with
  | nil =>
    cases fs' with
    | nil => exact ⟨rfl, (List.cons.inj h).2⟩
    | cons f' fs' =>
      obtain ⟨c, cs, htext, hc⟩ := f'.exists_text_eq_cons
      rw [List.flatMap_cons, htext] at h
      exact absurd (List.cons.inj h).1.symm hc
  | cons f fs ih =>
    cases fs' with
    | nil =>
      obtain ⟨c, cs, htext, hc⟩ := f.exists_text_eq_cons
      rw [List.flatMap_cons, htext] at h
      exact absurd (List.cons.inj h).1 hc
    | cons f' fs' =>
      rw [List.flatMap_cons, List.flatMap_cons, List.append_assoc, List.append_assoc] at h
      obtain ⟨rfl, hrest⟩ := text_append_inj h
      obtain ⟨rfl, rfl⟩ := ih hrest
      exact ⟨rfl, rfl⟩

theorem MethodType.text_inj {d d' : MethodType} (h : d.text = d'.text) : d = d' := by
  obtain ⟨fs, r⟩ := d
  obtain ⟨fs', r'⟩ := d'
  obtain ⟨rfl, hresult⟩ := FieldType.flatMap_text_inj (List.cons.inj h).2
  obtain rfl := ResultType.text_inj hresult
  rfl

/-! ## Bytes

What goes through the bytes of a text instead of its characters accepts the same: all characters of the
grammar are ASCII, and the others, in names, are passed over. -/

theorem Primitive.letter_lt (p : Primitive) : p.letter.toNat < 0x80 := by
  cases p <;> decide

namespace ElementType

/-- The type whose name is given by its bytes. -/
def bytes : ElementType → ElementType
  | primitive p => primitive p
  | object name closed => object (Text.byteChars name) fun hmem => by
      obtain ⟨l, r, hname⟩ := List.append_of_mem hmem
      obtain ⟨cl, cr, rfl, -⟩ := Text.byteChars_eq_append_cons (by decide) hname
      exact closed (by simp)

theorem text_bytes (e : ElementType) : e.bytes.text = Text.byteChars e.text := by
  cases e with
  | primitive p => exact (Text.byteChars_singleton p.letter_lt).symm
  | object name _ =>
    rw [bytes, text, text, List.cons_append, List.cons_append, Text.byteChars_cons (by decide),
      Text.byteChars_append, Text.byteChars_singleton (by decide)]

theorem exists_of_byteChars {e : ElementType} {cs r : List Char}
    (h : Text.byteChars cs = e.text ++ r) :
    ∃ (e' : ElementType) (cr : List Char), cs = e'.text ++ cr ∧ e'.bytes = e
      ∧ Text.byteChars cr = r := by
  cases e with
  | primitive p =>
    obtain ⟨cr, rfl, rfl⟩ := Text.byteChars_eq_cons p.letter_lt h
    exact ⟨.primitive p, cr, rfl, rfl, rfl⟩
  | object name closed =>
    rw [text, List.append_assoc] at h
    obtain ⟨cs', rfl, htail⟩ := Text.byteChars_eq_cons (by decide) h
    obtain ⟨cl, cr, rfl, rfl, rfl⟩ := Text.byteChars_eq_append_cons (by decide) htail
    have hcl : ';' ∉ cl := fun hmem => by
      obtain ⟨l, r, rfl⟩ := List.append_of_mem hmem
      rw [Text.byteChars_append, Text.byteChars_cons (by decide)] at closed
      exact closed (by simp)
    exact ⟨.object cl hcl, cr, by simp [text], rfl, rfl⟩

end ElementType

namespace FieldType

def bytes (f : FieldType) : FieldType := ⟨f.dimensions, f.element.bytes⟩

theorem text_bytes (f : FieldType) : f.bytes.text = Text.byteChars f.text := by
  obtain ⟨n, e⟩ := f
  have hbrackets : Text.byteChars (List.replicate n '[') = List.replicate n '[' := by
    induction n with
    | zero => rfl
    | succ n ih => rw [List.replicate_succ, Text.byteChars_cons (by decide), ih]
  rw [bytes, text, text, e.text_bytes, Text.byteChars_append, hbrackets]

theorem exists_of_byteChars {f : FieldType} {cs r : List Char}
    (h : Text.byteChars cs = f.text ++ r) :
    ∃ (f' : FieldType) (cr : List Char), cs = f'.text ++ cr ∧ f'.bytes = f
      ∧ Text.byteChars cr = r := by
  obtain ⟨n, e⟩ := f
  rw [text, List.append_assoc] at h
  induction n generalizing cs with
  | zero =>
    obtain ⟨e', cr, rfl, rfl, rfl⟩ := ElementType.exists_of_byteChars h
    exact ⟨⟨0, e'⟩, cr, rfl, rfl, rfl⟩
  | succ n ih =>
    obtain ⟨cs', rfl, htail⟩ := Text.byteChars_eq_cons (by decide) h
    obtain ⟨⟨n', e'⟩, cr, rfl, heq, rfl⟩ := ih htail
    obtain ⟨rfl, rfl⟩ := FieldType.mk.inj heq
    exact ⟨⟨n' + 1, e'⟩, cr, rfl, rfl, rfl⟩

theorem exists_of_byteChars_flatMap {fs : List FieldType} {cs r : List Char}
    (h : Text.byteChars cs = fs.flatMap text ++ r) :
    ∃ (fs' : List FieldType) (cr : List Char), cs = fs'.flatMap text ++ cr ∧ fs'.map bytes = fs
      ∧ Text.byteChars cr = r := by
  induction fs generalizing cs with
  | nil => exact ⟨[], cs, rfl, rfl, h⟩
  | cons f fs ih =>
    rw [List.flatMap_cons, List.append_assoc] at h
    obtain ⟨f', cs', rfl, rfl, htail⟩ := exists_of_byteChars h
    obtain ⟨fs', cr, rfl, rfl, rfl⟩ := ih htail
    exact ⟨f' :: fs', cr, by rw [List.flatMap_cons, List.append_assoc], rfl, rfl⟩

end FieldType

namespace ResultType

def bytes : ResultType → ResultType
  | void => void
  | value f => value f.bytes

theorem text_bytes (r : ResultType) : r.bytes.text = Text.byteChars r.text := by
  cases r with
  | void => rfl
  | value f => exact f.text_bytes

theorem exists_of_byteChars {r : ResultType} {cs : List Char} (h : Text.byteChars cs = r.text) :
    ∃ r' : ResultType, cs = r'.text ∧ r'.bytes = r := by
  cases r with
  | void =>
    obtain ⟨cr, rfl, hcr⟩ := Text.byteChars_eq_cons (by decide) h
    exact ⟨.void, by rw [Text.byteChars_eq_nil hcr]; rfl, rfl⟩
  | value f =>
    obtain ⟨f', cr, rfl, rfl, hcr⟩ := FieldType.exists_of_byteChars (r := []) (by simpa [text] using h)
    exact ⟨.value f', by rw [Text.byteChars_eq_nil hcr, List.append_nil]; rfl, rfl⟩

end ResultType

namespace MethodType

def bytes (d : MethodType) : MethodType := ⟨d.params.map FieldType.bytes, d.result.bytes⟩

theorem text_bytes (d : MethodType) : d.bytes.text = Text.byteChars d.text := by
  obtain ⟨fs, r⟩ := d
  have hparams : (fs.map FieldType.bytes).flatMap FieldType.text
      = Text.byteChars (fs.flatMap FieldType.text) := by
    induction fs with
    | nil => rfl
    | cons f fs ih =>
      rw [List.map_cons, List.flatMap_cons, List.flatMap_cons, Text.byteChars_append, ih, f.text_bytes]
  rw [bytes, text, text, hparams, r.text_bytes, List.cons_append, List.cons_append,
    Text.byteChars_cons (by decide), Text.byteChars_append, Text.byteChars_cons (by decide)]

theorem exists_of_byteChars {d : MethodType} {cs : List Char} (h : Text.byteChars cs = d.text) :
    ∃ d' : MethodType, cs = d'.text ∧ d'.bytes = d := by
  obtain ⟨fs, r⟩ := d
  obtain ⟨cs', rfl, hparams⟩ := Text.byteChars_eq_cons (by decide) h
  obtain ⟨fs', cr, rfl, rfl, hclose⟩ := FieldType.exists_of_byteChars_flatMap hparams
  obtain ⟨cr', rfl, hresult⟩ := Text.byteChars_eq_cons (by decide) hclose
  obtain ⟨r', rfl, rfl⟩ := ResultType.exists_of_byteChars hresult
  exact ⟨⟨fs', r'⟩, rfl, rfl⟩

end MethodType

theorem readFieldType_byteChars_iff {cs : List Char} {t : JavaType} :
    readFieldType (Text.byteChars cs) = .ok t ↔ ∃ f : FieldType, cs = f.text ∧ t = f.bytes.type := by
  rw [readFieldType_eq_ok_iff]
  constructor
  · rintro ⟨f, htext, rfl⟩
    obtain ⟨r', rfl, hbytes⟩ := ResultType.exists_of_byteChars (r := .value f) htext
    cases r' with
    | void => cases hbytes
    | value f' => cases hbytes; exact ⟨f', rfl, rfl⟩
  · rintro ⟨f, rfl, rfl⟩
    exact ⟨f.bytes, f.text_bytes.symm, rfl⟩

theorem readSignature_byteChars_iff {cs : List Char} {sig : Signature} :
    readSignature (Text.byteChars cs) = .ok sig
      ↔ ∃ d : MethodType, cs = d.text ∧ sig = d.bytes.signature := by
  rw [readSignature_eq_ok_iff]
  constructor
  · rintro ⟨d, htext, rfl⟩
    obtain ⟨d', rfl, rfl⟩ := MethodType.exists_of_byteChars htext
    exact ⟨d', rfl, rfl⟩
  · rintro ⟨d, rfl, rfl⟩
    exact ⟨d.bytes, d.text_bytes.symm, rfl⟩

/-! ## The grammar -/

/-- A text is read as a field or method descriptor just if it is the text of a syntax tree, of one tree
    only. What is read is the type or the signature of the tree: the parameters in order, classes by the
    text between `L` and `;`, arrays by their full text. This holds of any byte string, read as the
    characters with the codes of its bytes; where these are the bytes of a text, they are accepted with it
    and give the names by their bytes. -/
theorem descriptors_of_grammar :
    (∀ (cs : List Char) (t : JavaType),
      readFieldType cs = .ok t ↔ ∃ f : FieldType, cs = f.text ∧ t = f.type)
    ∧ (∀ (cs : List Char) (sig : Signature),
      readSignature cs = .ok sig ↔ ∃ d : MethodType, cs = d.text ∧ sig = d.signature)
    ∧ (∀ d : MethodType, d.signature.argSlots
        = d.params.length + d.params.countP fun f => f.text = ['J'] ∨ f.text = ['D'])
    ∧ FieldType.text.Injective ∧ MethodType.text.Injective
    ∧ (∀ (cs : List Char) (t : JavaType), readFieldType (Text.byteChars cs) = .ok t
        ↔ ∃ f : FieldType, cs = f.text ∧ t = f.bytes.type)
    ∧ ∀ (cs : List Char) (sig : Signature), readSignature (Text.byteChars cs) = .ok sig
        ↔ ∃ d : MethodType, cs = d.text ∧ sig = d.bytes.signature :=
  ⟨fun _ _ => readFieldType_eq_ok_iff, fun _ _ => readSignature_eq_ok_iff,
    MethodType.argSlots_signature, fun _ _ => FieldType.text_inj, fun _ _ => MethodType.text_inj,
    fun _ _ => readFieldType_byteChars_iff, fun _ _ => readSignature_byteChars_iff⟩

end InlinePlan
