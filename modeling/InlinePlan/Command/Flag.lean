import InlinePlan.Decimal.Integer
import InlinePlan.Text.Quoted
import InlinePlan.Text.Utf8

set_option autoImplicit false

/-! # Flags

Arguments that start with a dash set flags. A long flag is `--name value` or `--name=value`; short
flags are single letters that may be joined, and the first of them that needs a value takes the rest
of the argument or the next one. A switch needs no value. Two dashes alone end the flags; everything
else is an operand. -/

namespace InlinePlan.Command

/-- What values a flag takes. -/
inductive FlagKind where
  | text
  | int
  | switch
  deriving Repr, DecidableEq

structure Flag where
  name : String
  short : Option Char := none
  kind : FlagKind := .text
  required : Bool := false
  deriving Repr, DecidableEq

/-- Why arguments cannot be read. -/
inductive FlagFault where
  | malformed (arg : String)
  | unknown (name : String)
  | unknownShort (letter : Char) (group : String)
  | needsValue (arg : String)
  | shortNeedsValue (letter : Char) (group : String)
  | invalidInt (flag : Flag) (value : String) (fault : Decimal.NumberFault)
  | invalidSwitch (flag : Flag) (value : String)
  deriving Repr, DecidableEq

/-- How a flag is called in messages. -/
def Flag.title (f : Flag) : String :=
  match f.short with
  | some c => "-" ++ c.toString ++ ", --" ++ f.name
  | none => "--" ++ f.name

/-- What is said of a value that a flag cannot take. -/
def invalidValue (f : Flag) (value reason : String) : String :=
  "invalid argument " ++ Text.quote value ++ " for " ++ Text.quote f.title ++ " flag: " ++ reason

def FlagFault.message : FlagFault → String
  | .malformed arg => "bad flag syntax: " ++ arg
  | .unknown name => "unknown flag: --" ++ name
  | .unknownShort letter group =>
    "unknown shorthand flag: " ++ Text.quoteChar letter ++ " in -" ++ group
  | .needsValue arg => "flag needs an argument: " ++ arg
  | .shortNeedsValue letter group =>
    "flag needs an argument: " ++ Text.quoteChar letter ++ " in -" ++ group
  | .invalidInt f value fault =>
    invalidValue f value
      ("strconv.ParseInt: parsing " ++ Text.quote value ++ ": " ++ fault.message)
  | .invalidSwitch f value =>
    invalidValue f value ("strconv.ParseBool: parsing " ++ Text.quote value ++ ": "
      ++ Decimal.NumberFault.malformed.message)

/-! ## Values -/

def readSwitch? (value : String) : Option Bool :=
  if ["1", "t", "T", "true", "TRUE", "True"].contains value then some true
  else if ["0", "f", "F", "false", "FALSE", "False"].contains value then some false
  else none

/-- What was given: values by flag, latest first, and operands. -/
structure Given where
  values : List (String × String) := []
  operands : List String := []
  deriving Repr, DecidableEq

namespace Given

/-- Sets a flag to a value that it can take. -/
def set (g : Given) (f : Flag) (value : String) : Except FlagFault Given :=
  let done : Except FlagFault Given := .ok { g with values := (f.name, value) :: g.values }
  match f.kind with
  | .text => done
  | .int =>
    match Decimal.readMarkedInt 64 value.toList with
    | .ok _ => done
    | .error e => .error (.invalidInt f value e)
  | .switch => if (readSwitch? value).isSome then done else .error (.invalidSwitch f value)

/-- Whether a flag was set. -/
def isSet (g : Given) (name : String) : Bool := (g.values.lookup name).isSome

def text (g : Given) (name default : String) : String := (g.values.lookup name).getD default

def int (g : Given) (name : String) : Int :=
  match (g.values.lookup name).map fun v => Decimal.readMarkedInt 64 v.toList with
  | some (.ok n) => n
  | _ => 0

def switch (g : Given) (name : String) : Bool :=
  ((g.values.lookup name).bind readSwitch?).getD false

end Given

/-! ## Arguments -/

/-- A flag that was read, and whether its value is still to come. -/
inductive Reading where
  | complete (g : Given)
  | awaiting (f : Flag) (g : Given)

/-- The first byte of a character, as a character. -/
def leadChar (c : Char) : Char :=
  match Text.bytesOf [c] with
  | b :: _ => Char.ofNat b.toNat
  | [] => c

/-- Reads a group of short flags. -/
def readShorts (flags : List Flag) : List Char → Given → Except FlagFault Reading
  | [], g => .ok (.complete g)
  | c :: cs, g =>
    let group := String.ofList (c :: cs)
    match flags.find? (·.short = some c) with
    | none => .error (.unknownShort (leadChar c) group)
    | some f =>
      match cs with
      | '=' :: d :: ds => (g.set f (String.ofList (d :: ds))).map .complete
      | _ =>
        if f.kind = .switch then (g.set f "true").bind (readShorts flags cs)
        else if cs.isEmpty then .ok (.awaiting f g)
        else (g.set f (String.ofList cs)).map .complete

/-- Splits a long flag's name from its value. -/
def splitValue : List Char → List Char × Option (List Char)
  | [] => ([], none)
  | '=' :: cs => ([], some cs)
  | c :: cs =>
    let (name, value) := splitValue cs
    (c :: name, value)

/-- Reads a long flag, given without its dashes. -/
def readLong (flags : List Flag) (cs : List Char) (g : Given) : Except FlagFault Reading :=
  match cs with
  | '-' :: _ | '=' :: _ => .error (.malformed ("--" ++ String.ofList cs))
  | _ =>
    let (name, value) := splitValue cs
    match flags.find? (·.name = String.ofList name), value with
    | none, _ => .error (.unknown (String.ofList name))
    | some f, some v => (g.set f (String.ofList v)).map .complete
    | some f, none =>
      if f.kind = .switch then (g.set f "true").map .complete else .ok (.awaiting f g)

/-- What is said if the arguments end where a value should be. -/
def missingValue (f : Flag) (arg : String) : FlagFault :=
  match arg.toList with
  | '-' :: '-' :: _ => .needsValue arg
  | _ => .shortNeedsValue (f.short.getD ' ') ((f.short.map (·.toString)).getD "")

/-- Reads arguments in order. -/
def readArgs (flags : List Flag) : List String → Given → Except FlagFault Given
  | [], g => .ok g
  | arg :: rest, g =>
    match arg.toList with
    | ['-', '-'] => .ok { g with operands := g.operands ++ rest }
    | '-' :: c :: cs =>
      let reading := if c = '-' then readLong flags cs g else readShorts flags (c :: cs) g
      match reading with
      | .error e => .error e
      | .ok (.complete g) => readArgs flags rest g
      | .ok (.awaiting f g) =>
        match rest with
        | [] => .error (missingValue f arg)
        | value :: rest =>
          match g.set f value with
          | .error e => .error e
          | .ok g => readArgs flags rest g
    | _ => readArgs flags rest { g with operands := g.operands ++ [arg] }

end InlinePlan.Command
