import InlinePlan.Bytecode.Kind
import InlinePlan.Text.Blank
import InlinePlan.Text.Quoted

set_option autoImplicit false

/-! # Type descriptors

A field descriptor is a letter for a primitive type, `L` name `;` for a class, or brackets before
either for an array. A method descriptor is a parenthesised list of those and a result, which may
also be `V`. -/

namespace InlinePlan

/-- A declared type. References are named: a class by its internal name, an array by its
    descriptor. -/
structure JavaType where
  category : Category
  name : String := ""
  deriving Repr, DecidableEq

namespace JavaType

def slots (t : JavaType) : Nat := t.category.slots

def kind (t : JavaType) : Kind := t.category.kind

def isArray (t : JavaType) : Bool := t.category == .ref && t.name.toList.head? == some '['

def text (t : JavaType) : String :=
  match t.category with
  | .ref => t.name
  | c => c.name

end JavaType

/-- A parsed method descriptor. -/
structure Signature where
  params : List JavaType
  result : JavaType
  deriving Repr, DecidableEq

/-- The number of slots the parameters take, without a receiver. -/
def Signature.argSlots (s : Signature) : Nat := (s.params.map JavaType.slots).foldr (· + ·) 0

/-! ## Faults -/

/-- Why a text is no descriptor. -/
inductive DescriptorFault where
  | truncated
  | unterminatedClass
  | arrayOfVoid
  | invalidCharacter (c : Char)
  | trailingField
  | voidField
  | noParameterList
  | unterminatedParameters
  | voidParameter
  | trailingMethod
  deriving Repr, DecidableEq

/-- The character whose code is the first byte of the encoding of `c`. -/
def leadingByte (c : Char) : Char :=
  match String.utf8EncodeChar c with
  | b :: _ => Char.ofNat b.toNat
  | [] => c

/-- The message about descriptor `desc`. -/
def DescriptorFault.message (desc : String) : DescriptorFault → String
  | .truncated => "truncated descriptor " ++ Text.quote desc
  | .unterminatedClass => "unterminated class name in " ++ Text.quote desc
  | .arrayOfVoid => "array of void in " ++ Text.quote desc
  | .invalidCharacter c =>
    "invalid descriptor character " ++ Text.quoteChar (leadingByte c) ++ " in " ++ Text.quote desc
  | .trailingField => "trailing characters in field descriptor " ++ Text.quote desc
  | .voidField => "void is not a field type: " ++ Text.quote desc
  | .noParameterList => "method descriptor " ++ Text.quote desc ++ " does not start with '('"
  | .unterminatedParameters => "unterminated parameter list in " ++ Text.quote desc
  | .voidParameter => "void parameter in " ++ Text.quote desc
  | .trailingMethod => "trailing characters in method descriptor " ++ Text.quote desc

/-! ## Reading -/

/-- The primitive type or `void` that a letter stands for. -/
def primitive? : Char → Option Category
  | 'V' => some .void
  | 'Z' | 'B' | 'C' | 'S' | 'I' => some .int
  | 'J' => some .long
  | 'F' => some .float
  | 'D' => some .double
  | _ => none

/-- Reads a type that is no array: the type, the text it takes and the rest. -/
def readSimpleType : List Char → Except DescriptorFault (JavaType × List Char × List Char)
  | [] => .error .truncated
  | c :: cs =>
    match primitive? c with
    | some k => .ok (⟨k, ""⟩, [c], cs)
    | none =>
      if c = 'L' then
        match Text.cut? ';' cs with
        | some (name, rest) => .ok (⟨.ref, String.ofList name⟩, 'L' :: name ++ [';'], rest)
        | none => .error .unterminatedClass
      else .error (.invalidCharacter c)

/-- Reads the element type after the brackets of an array, if there are any. -/
def readTypeAfter (brackets cs : List Char) : Except DescriptorFault (JavaType × List Char) :=
  match readSimpleType cs with
  | .error e => .error e
  | .ok (t, text, rest) =>
    if brackets.isEmpty then .ok (t, rest)
    else if t.category = .void then .error .arrayOfVoid
    else .ok (⟨.ref, String.ofList (brackets ++ text)⟩, rest)

/-- Reads one type, `void` included: the type and the rest. -/
def readType (cs : List Char) : Except DescriptorFault (JavaType × List Char) :=
  readTypeAfter (cs.takeWhile (· = '[')) (cs.dropWhile (· = '['))

theorem readSimpleType_eq {cs text rest : List Char} {t : JavaType}
    (h : readSimpleType cs = .ok (t, text, rest)) : cs = text ++ rest ∧ text ≠ [] := by
  cases cs with
  | nil => simp [readSimpleType] at h
  | cons c cs =>
    rw [readSimpleType] at h
    split at h
    case h_1 => cases h; simp
    case h_2 =>
      split at h
      case isTrue hc =>
        split at h
        case h_1 name rest' hcut =>
          cases h
          simp [hc, Text.cut?_eq_some hcut]
        case h_2 => cases h
      case isFalse => cases h

theorem readTypeAfter_length {brackets cs rest : List Char} {t : JavaType}
    (h : readTypeAfter brackets cs = .ok (t, rest)) : rest.length < cs.length := by
  unfold readTypeAfter at h
  split at h
  case h_1 => cases h
  case h_2 t' text rest' hs =>
    have ⟨heq, hne⟩ := readSimpleType_eq hs
    have hlen := congrArg List.length heq
    have hpos : 0 < text.length := List.length_pos_iff.2 hne
    rw [List.length_append] at hlen
    split at h
    case isTrue => cases h; omega
    case isFalse =>
      split at h
      case isTrue => cases h
      case isFalse => cases h; omega

/-- Reading a type takes at least one character. -/
theorem readType_length {cs rest : List Char} {t : JavaType} (h : readType cs = .ok (t, rest)) :
    rest.length < cs.length :=
  Nat.lt_of_lt_of_le (readTypeAfter_length h) (List.dropWhile_sublist _).length_le

/-- A field descriptor: one type, not `void`, and nothing after it. -/
def readFieldType (cs : List Char) : Except DescriptorFault JavaType :=
  match readType cs with
  | .error e => .error e
  | .ok (t, rest) =>
    if !rest.isEmpty then .error .trailingField
    else if t.category = .void then .error .voidField
    else .ok t

/-- The parameters up to the closing parenthesis, and what follows it. -/
def readParameters (cs : List Char) : Except DescriptorFault (List JavaType × List Char) :=
  match cs with
  | [] => .error .unterminatedParameters
  | ')' :: rest => .ok ([], rest)
  | c :: cs' =>
    match _h : readType (c :: cs') with
    | .error e => .error e
    | .ok (t, rest) =>
      if t.category = .void then .error .voidParameter
      else match readParameters rest with
        | .error e => .error e
        | .ok (ts, rest) => .ok (t :: ts, rest)
termination_by cs.length
decreasing_by exact readType_length _h

/-- A method descriptor: parameters in parentheses and a result. -/
def readSignature : List Char → Except DescriptorFault Signature
  | '(' :: cs =>
    match readParameters cs with
    | .error e => .error e
    | .ok (params, rest) =>
      match readType rest with
      | .error e => .error e
      | .ok (result, rest) =>
        if rest.isEmpty then .ok ⟨params, result⟩ else .error .trailingMethod
  | _ => .error .noParameterList

def JavaType.parse (desc : String) : Except DescriptorFault JavaType := readFieldType desc.toList

def Signature.parse (desc : String) : Except DescriptorFault Signature := readSignature desc.toList

/-! ## Arrays -/

/-- The descriptor of an array whose elements are of the named class or array type. -/
def arrayDescriptor (name : String) : String :=
  if name.toList.head? = some '[' then "[" ++ name else "[L" ++ name ++ ";"

/-- The primitive element types that arrays can be created of: name, type code and array
    descriptor. -/
def primitiveArrays : List (String × Int × String) :=
  [("boolean", 4, "[Z"), ("char", 5, "[C"), ("float", 6, "[F"), ("double", 7, "[D"),
    ("byte", 8, "[B"), ("short", 9, "[S"), ("int", 10, "[I"), ("long", 11, "[J")]

/-- The array descriptor of a type code. -/
def primitiveArrayDescriptor? (code : Int) : Option String :=
  (primitiveArrays.find? (·.2.1 = code)).map (·.2.2)

/-- The type code of a primitive element type. -/
def primitiveArrayCode? (element : String) : Option Int :=
  (primitiveArrays.find? (·.1 = element)).map (·.2.1)

end InlinePlan
