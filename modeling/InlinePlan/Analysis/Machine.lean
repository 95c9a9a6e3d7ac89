import InlinePlan.Analysis.Frame
import InlinePlan.Analysis.Summary
import InlinePlan.Bytecode.Instruction

set_option autoImplicit false

/-! # The analysing machine

While it goes through the code of a method, the analysis changes a frame and keeps three records:
the predicates found, the warnings, and the call sites reached. -/

namespace InlinePlan

/-- Switches of the analysis. A `maxStackDepth` that is not positive sets no limit. -/
structure AnalysisOptions where
  strictMode : Bool := false
  enableWarnings : Bool := true
  maxStackDepth : Int := 65535
  deriving Repr, DecidableEq

/-- A call that the analysis reached. `args` has one value for each argument, the receiver first. -/
structure CallSite where
  caller : Method
  block : Nat
  frequency : Int
  bci : Int
  kind : InvokeKind
  ref : SymbolRef
  args : List Value
  result : JavaType
  deriving Repr, DecidableEq

/-- Any value of the declared result type. -/
def CallSite.anyResult (c : CallSite) : Value := .top c.result.kind

/-- Says what a call returns, given the calls reached before it. The call itself stays as it is. -/
abbrev Visitor := List CallSite → CallSite → Value

/-- The visitor that knows nothing about results. -/
def Visitor.anyResult : Visitor := fun _ site => site.anyResult

/-- What stays fixed while one method is analysed. -/
structure Subject where
  options : AnalysisOptions
  oracle : Option SubtypeOracle
  visitor : Visitor
  method : Method

/-- The state of the analysis. -/
structure Machine where
  frame : Frame
  predicates : List Predicate := []
  warnings : List String := []
  calls : List CallSite := []
  deriving Repr, DecidableEq

/-- Steps of the analysis. -/
abbrev Step := EStateM Fault Machine

namespace Step

variable {α : Type}

/-- Runs an operation on the frame. -/
def onFrame (x : FrameM α) : Step α := fun m =>
  match x m.frame with
  | .ok a frame => .ok a { m with frame }
  | .error e frame => .error e { m with frame }

instance : MonadLift FrameM Step := ⟨onFrame⟩

/-- Records predicates. -/
def note (ps : List Predicate) : Step Unit :=
  modify fun m => { m with predicates := m.predicates ++ ps }

/-- Records predicates about the argument that a value is marked as. -/
def noteParam (v : Value) (ps : Nat → List Predicate) : Step Unit :=
  match v.param with
  | some k => note (ps k)
  | none => return ()

/-- Records a warning, unless warnings are off. -/
def warn (options : AnalysisOptions) (message : String) : Step Unit :=
  if options.enableWarnings then modify fun m => { m with warnings := m.warnings ++ [message] }
  else return ()

/-- Meets an unresolved reference: a fault in strict mode, else a warning. -/
def unresolved (options : AnalysisOptions) (ins : Instruction) (ref : SymbolRef) : Step Unit :=
  if options.strictMode then throw (.unresolvedRef ref)
  else warn options
    ("bci " ++ toString ins.bci ++ ": unresolved " ++ ref.text ++ ", widening to top")

/-- Reports a call to the visitor and returns its answer. -/
def visit (visitor : Visitor) (site : CallSite) : Step Value := do
  let m ← get
  set { m with calls := m.calls ++ [site] }
  return visitor m.calls site

end Step

end InlinePlan
