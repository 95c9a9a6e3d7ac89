import InlinePlan.Bytecode.Assembly
import InlinePlan.Program.Hierarchy
import InlinePlan.Yaml.Reader
import InlinePlan.Yaml.Record

set_option autoImplicit false

/-! # Program documents

A program is described by a YAML document with a list of classes and a list of methods, whose code
is given block by block as lines of text. Declarations are checked one after another; the first
fault is reported. -/

namespace InlinePlan

/-! ## Records -/

structure ClassRecord where
  name : String := ""
  super : String := ""
  interfaces : List String := []
  isInterface : Bool := false

structure BlockRecord where
  frequency : Int := 0
  succs : List Int := []
  code : List String := []

structure MethodRecord where
  cls : String := ""
  name : String := ""
  descriptor : String := ""
  isStatic : Bool := false
  isAbstract : Bool := false
  size : Int := 0
  maxLocals : Int := 0
  blocks : List BlockRecord := []

structure ProgramRecord where
  classes : List ClassRecord := []
  methods : List MethodRecord := []

open Yaml in
def ClassRecord.fields : List (RecordField ClassRecord) :=
  [field "name" decodeText fun v r => { r with name := v },
    field "super" decodeText fun v r => { r with super := v },
    field "interfaces" (decodeList decodeText) fun v r => { r with interfaces := v },
    field "interface" decodeBool fun v r => { r with isInterface := v }]

open Yaml in
def BlockRecord.fields : List (RecordField BlockRecord) :=
  [field "frequency" decodeInt fun v r => { r with frequency := v },
    field "succs" (decodeList decodeInt) fun v r => { r with succs := v },
    field "code" (decodeList decodeText) fun v r => { r with code := v }]

open Yaml in
def MethodRecord.fields : List (RecordField MethodRecord) :=
  [field "class" decodeText fun v r => { r with cls := v },
    field "name" decodeText fun v r => { r with name := v },
    field "descriptor" decodeText fun v r => { r with descriptor := v },
    field "static" decodeBool fun v r => { r with isStatic := v },
    field "abstract" decodeBool fun v r => { r with isAbstract := v },
    field "size" decodeInt fun v r => { r with size := v },
    field "max_locals" decodeInt fun v r => { r with maxLocals := v },
    field "blocks" (decodeList (decodeRecord BlockRecord.fields {})) fun v r =>
      { r with blocks := v }]

open Yaml in
def ProgramRecord.fields : List (RecordField ProgramRecord) :=
  [field "classes" (decodeList (decodeRecord ClassRecord.fields {})) fun v r =>
      { r with classes := v },
    field "methods" (decodeList (decodeRecord MethodRecord.fields {})) fun v r =>
      { r with methods := v }]

/-! ## Loading -/

/-- Why a method's code is no graph. -/
inductive CodeFault where
  | line (block : Nat) (fault : LineFault)
  | graph (fault : GraphFault)
  deriving Repr, DecidableEq

def CodeFault.message : CodeFault → String
  | .line block fault => "block " ++ toString block ++ ": " ++ fault.message
  | .graph fault => fault.message

/-- Why a document is no program. -/
inductive ProgramFault where
  | undecodable
  | collectionKey
  | unnamedClass
  | duplicateClass (name : String)
  | unknownClass (cls name : String)
  | declaration (fault : MethodFault)
  | duplicateMethod (id : MethodId)
  | abstractWithCode (id : MethodId)
  | code (id : MethodId) (fault : CodeFault)
  deriving Repr, DecidableEq

def ProgramFault.message : ProgramFault → String
  | .undecodable => "failed to decode program"
  | .collectionKey => "failed to decode program: " ++ Yaml.collectionKeyText
  | .unnamedClass => "class without name"
  | .duplicateClass name => "duplicate class " ++ name
  | .unknownClass cls name => "method " ++ cls ++ "." ++ name ++ ": unknown class " ++ cls
  | .declaration fault => fault.message
  | .duplicateMethod id => "duplicate method " ++ id
  | .abstractWithCode id => "abstract method " ++ id ++ " has code"
  | .code id fault => "method " ++ id ++ ": " ++ fault.message

/-- Reads lines of code; the first fault counts. -/
def readLines : List String → Except LineFault (List Instruction)
  | [] => .ok []
  | l :: ls => (Instruction.parse l).bind fun ins => (readLines ls).map (ins :: ·)

/-- Reads blocks, numbered from `index`. -/
def readBlocks : (index : Nat) → List BlockRecord → Except CodeFault (List (Option BlockSpec))
  | _, [] => .ok []
  | index, b :: bs =>
    match readLines b.code with
    | .error e => .error (.line index e)
    | .ok code =>
      (readBlocks (index + 1) bs).map
        (some { id := index, frequency := b.frequency, succs := b.succs, code } :: ·)

/-- Makes blocks a graph that starts at the first one. -/
def readGraph (blocks : List BlockRecord) : Except CodeFault FlowGraph :=
  (readBlocks 0 blocks).bind fun specs => (FlowGraph.build specs 0).mapError .graph

namespace Program

/-- Declares a class. One that names no superclass extends the root, unless it is an interface. -/
def addClass (p : Program) (r : ClassRecord) : Except ProgramFault Program :=
  if r.name = "" then .error .unnamedClass
  else if (p.class? r.name).isSome then .error (.duplicateClass r.name)
  else
    let superclass :=
      if r.super ≠ "" then some r.super else if r.isInterface then none else some objectClass
    let c : ClassDecl :=
      { name := r.name, superclass, interfaces := r.interfaces, isInterface := r.isInterface }
    .ok { p with classes := p.classes ++ [c] }

/-- The code of a method, if blocks are given. -/
def readCode (m : Method) (blocks : List BlockRecord) : Except ProgramFault (Option FlowGraph) :=
  if blocks.isEmpty then .ok none
  else if m.isAbstract then .error (.abstractWithCode m.id)
  else match readGraph blocks with
    | .error e => .error (.code m.id e)
    | .ok g => .ok (some g)

/-- Declares a method of a declared class. -/
def addMethod (p : Program) (r : MethodRecord) : Except ProgramFault Program :=
  if (p.class? r.cls).isNone then .error (.unknownClass r.cls r.name)
  else match Method.declare r.cls r.name r.descriptor r.isStatic r.size with
    | .error e => .error (.declaration e)
    | .ok m =>
      let m := { m with isAbstract := r.isAbstract, maxLocals := max m.maxLocals r.maxLocals }
      if (p.method? m.id).isSome then .error (.duplicateMethod m.id)
      else (readCode m r.blocks).map fun graph =>
        { p with methods := p.methods ++ [{ method := m, graph }] }

def addClasses : Program → List ClassRecord → Except ProgramFault Program
  | p, [] => .ok p
  | p, r :: rs => (p.addClass r).bind (addClasses · rs)

def addMethods : Program → List MethodRecord → Except ProgramFault Program
  | p, [] => .ok p
  | p, r :: rs => (p.addMethod r).bind (addMethods · rs)

/-- The program that a record describes. The root class is always declared, and first. -/
def ofRecord (r : ProgramRecord) : Except ProgramFault Program :=
  (addClasses {} r.classes).bind (addMethods · r.methods)

/-- Loads a program from the text of a document. -/
def load (text : String) : Except ProgramFault Program :=
  match Yaml.Document.parse? text.toList with
  | none | some .absent => .error .undecodable
  | some (.present root) =>
    match Yaml.decodeRoot ProgramRecord.fields {} root with
    | .error .malformed => .error .undecodable
    | .error .collectionKey => .error .collectionKey
    | .ok found => ofRecord found

end Program

end InlinePlan
