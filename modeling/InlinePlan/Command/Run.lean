import InlinePlan.CallTree.Journal
import InlinePlan.Command.Flag
import InlinePlan.Command.Path
import InlinePlan.Plan.Select
import InlinePlan.Program.Document
import InlinePlan.Report.Document
import InlinePlan.Report.Table

set_option autoImplicit false

/-! # Commands

`idtdump build` builds the call tree of a method, chooses what to inline and reports both; `idtdump
list` lists the methods of a program. A command is a function of its arguments and of the files it
reads. -/

namespace InlinePlan.Command

/-! ## Finding the command -/

inductive Verb where
  | build
  | list
  deriving Repr, DecidableEq

def Verb.name : Verb → String
  | .build => "build"
  | .list => "list"

/-- The name of the tool. -/
def toolName : String := "idtdump"

/-- The names that a mistyped command may have been meant for. -/
def commandNames : List String := ["build", "list", "completion"]

def helpFlag : Flag := { name := "help", short := some 'h', kind := .switch }

def programFlag : Flag := { name := "program", short := some 'p', required := true }

/-- The flags of a command, by name. -/
def Verb.flags : Verb → List Flag
  | .build =>
    [{ name := "budget", short := some 'b', kind := .int }, { name := "config" },
      { name := "format" }, helpFlag, { name := "log-level" },
      { name := "method", short := some 'm', required := true }, { name := "opt-level" },
      programFlag, { name := "strict", kind := .switch }]
  | .list => [helpFlag, programFlag]

/-- Whether an argument is a flag whose value is the next argument, as long as no command is known
    yet. -/
def takesNext (arg : String) : Bool :=
  match arg.toList with
  | '-' :: '-' :: cs => !cs.isEmpty && !cs.contains '='
  | ['-', c] => c.toNat < 128 && c ≠ '='
  | _ => false

/-- The first operand and the other arguments. A flag before it keeps its value. -/
def splitOperand? : List String → Option (String × List String)
  | [] => none
  | arg :: rest =>
    if arg = "--" then none
    else if takesNext arg then
      match rest with
      | value :: next :: more =>
        (splitOperand? (next :: more)).map fun (name, others) => (name, arg :: value :: others)
      | _ => none
    else if arg ≠ "" ∧ arg.toList.head? ≠ some '-' then some (arg, rest)
    else (splitOperand? rest).map fun (name, others) => (name, arg :: others)

section EditDistance

variable {α : Type} [DecidableEq α]

/-- One row of the edit distance table: the distances of the beginnings of `t` from a text that has
    one more letter `c` than that of the row before. -/
def distanceRow (c : α) : (t : List α) → (previous : List Nat) → (left : Nat) → List Nat
  | d :: t, diagonal :: above :: previous, left =>
    let here := if c = d then diagonal else min (min above left) diagonal + 1
    here :: distanceRow c t (above :: previous) here
  | _, _, _ => []

/-- The number of letters to insert, drop or replace between two texts. -/
def editDistance (s t : List α) : Nat :=
  let start := List.range (t.length + 1)
  let last := s.foldl (fun row c =>
    let left := row.headD 0 + 1
    left :: distanceRow c t row left) start
  last.getLastD 0

end EditDistance

/-- The commands that a name may have been meant for: those that it starts, and those that at most
    two bytes set apart from it. -/
def suggestions (typed : String) : List String :=
  let typed := Text.bytesOf (typed.toList.map Text.smallLetter)
  commandNames.filter fun name =>
    let name := Text.bytesOf name.toList
    editDistance typed name ≤ 2 || typed.isPrefixOf name

/-! ## Faults -/

/-- Why a command fails. -/
inductive CommandFault where
  | unknownCommand (name : String)
  | operand (verb : Verb) (arg : String)
  | flag (fault : FlagFault)
  | required (names : List String)
  | unknownFormat (format : String)
  | unknownLevel (level : String)
  | unreadable (path : String) (fault : PathFault)
  | noProgram
  | options (path : String) (fault : OptionsFault)
  | program (path : String) (fault : ProgramFault)
  | method (fault : Program.FindFault)
  | build (fault : BuildFault)
  | noSelection

def CommandFault.message : CommandFault → String
  | .unknownCommand name =>
    let meant := suggestions name
    "unknown command " ++ Text.quote name ++ " for " ++ Text.quote toolName
      ++ (if meant.isEmpty then ""
        else "\n\nDid you mean this?\n" ++ String.join (meant.map fun n => "\t" ++ n ++ "\n"))
  | .operand verb arg =>
    "unknown command " ++ Text.quote arg ++ " for "
      ++ Text.quote (toolName ++ " " ++ verb.name)
  | .flag fault => fault.message
  | .required names =>
    "required flag(s) " ++ String.intercalate ", " (names.map Text.quote) ++ " not set"
  | .unknownFormat format => "unknown format " ++ Text.quote format
  | .unknownLevel level => InlinePlan.unknownLevel level
  | .unreadable path fault => "open " ++ path ++ ": " ++ fault.message
  | .noProgram => "no program given"
  | .options path fault => path ++ ": " ++ fault.message
  | .program path fault => path ++ ": " ++ fault.message
  | .method fault => fault.message
  | .build fault => fault.message
  | .noSelection => "selection left the table"

/-! ## Running -/

/-- What a command reads from outside: what paths lead to, and the name of the compilation. -/
structure Surroundings where
  entry : String → Except PathFault PathEntry
  compilation : String

/-- What a command leaves behind. -/
structure Outcome where
  output : String := ""
  log : String := ""
  fault : Option CommandFault := none

/-- Loads a program; a folder holds none. -/
def loadProgram (s : Surroundings) (path : String) : Except CommandFault Program :=
  if path = "" then .error .noProgram
  else match s.entry path with
    | .error e => .error (.unreadable path e)
    | .ok .folder => .error (.program path .undecodable)
    | .ok (.file text) => (Program.load text).mapError (.program path)

/-- Loads options, if a path is given. -/
def loadOptions (s : Surroundings) (path : String) : Except CommandFault Options :=
  if path = "" then .ok {}
  else match s.entry path with
    | .error e => .error (.unreadable path e)
    | .ok .folder => .error (.options path .undecodable)
    | .ok (.file text) => (Options.load text).mapError (.options path)

/-- What a build was asked for. -/
structure BuildRequest where
  format : String
  level : OptLevel
  options : Options
  program : Program
  root : Method
  budget : Int

/-- Checks the flags of a build and loads what they name. -/
def readBuild (s : Surroundings) (g : Given) : Except CommandFault BuildRequest := do
  let format := g.text "format" "text"
  if format ≠ "text" ∧ format ≠ "yaml" then throw (.unknownFormat format)
  let levelName := g.text "opt-level" "warm"
  let level ← match OptLevel.ofName? levelName with
    | some level => pure level
    | none => throw (.unknownLevel levelName)
  let options ← loadOptions s (g.text "config" "")
  let logLevel := g.text "log-level" ""
  let options := if logLevel = "" then options else { options with logLevel }
  let analysis := options.analysis
  let options :=
    if g.isSet "strict" then
      { options with analysis := { analysis with strictMode := g.switch "strict" } }
    else options
  let program ← loadProgram s (g.text "program" "")
  let root ← (program.find (g.text "method" "")).mapError CommandFault.method
  let budget := g.int "budget"
  let budget := if 0 < budget then budget else options.budgetFor level.code root.size
  return { format, level, options, program, root, budget }

/-- Builds, selects and reports. -/
def runBuild (s : Surroundings) (g : Given) : Outcome :=
  match readBuild s g with
  | .error e => { fault := some e }
  | .ok r =>
    let builder : Builder := { options := r.options, catalog := r.program.catalog }
    let build := builder.build (some r.root) r.budget
    let logger : Log.Logger :=
      { Log.Logger.ofLevelName r.options.logLevel with style := { layout := "" } }
    let log := build.state.log logger { seconds := 0 } s.compilation
    match build.outcome with
    | .error e => { log, fault := some (.build e) }
    | .ok tree =>
      match tree.select r.budget with
      | none => { log, fault := some .noSelection }
      | some p =>
        let report := Report.of s.compilation tree p r.budget build.state
        { log, output := if r.format = "yaml" then report.yaml else report.text }

/-- Lists the methods of a program. -/
def runList (s : Surroundings) (g : Given) : Outcome :=
  match loadProgram s (g.text "program" "") with
  | .error e => { fault := some e }
  | .ok p =>
    { output := String.join (p.methods.map fun e =>
        e.method.id ++ " size=" ++ toString e.method.size
          ++ (if e.graph.isSome then "" else " (no code)") ++ "\n") }

/-- The required flags that were not set. -/
def missingFlags (verb : Verb) (g : Given) : List String :=
  (verb.flags.filter fun f => f.required && !g.isSet f.name).map (·.name)

/-- Runs a command with its arguments. Flags are read first, then operands are refused, then
    required flags are asked for. -/
def runVerb (s : Surroundings) (verb : Verb) (args : List String) : Outcome :=
  match readArgs verb.flags args {} with
  | .error e => { fault := some (.flag e) }
  | .ok g =>
    if g.switch "help" then {}
    else match g.operands with
      | arg :: _ => { fault := some (.operand verb arg) }
      | [] =>
        match missingFlags verb g with
        | [] =>
          match verb with
          | .build => runBuild s g
          | .list => runList s g
        | names => { fault := some (.required names) }

/-- Runs the tool. Without a command it only checks its flags. -/
def run (s : Surroundings) (args : List String) : Outcome :=
  match splitOperand? args with
  | some ("build", rest) => runVerb s .build rest
  | some ("list", rest) => runVerb s .list rest
  | some ("help", _) | some ("completion", _) => {}
  | some (name, _) => { fault := some (.unknownCommand name) }
  | none =>
    match readArgs [helpFlag] args {} with
    | .error e => { fault := some (.flag e) }
    | .ok _ => {}

/-- The files that a command may read. -/
def paths (args : List String) : List String :=
  match splitOperand? args with
  | some (name, rest) =>
    let verb : Verb := if name = "build" then .build else .list
    match readArgs verb.flags rest {} with
    | .ok g => [g.text "program" "", g.text "config" ""].filter (· ≠ "")
    | .error _ => []
  | none => []

end InlinePlan.Command
