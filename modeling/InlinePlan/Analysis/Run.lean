import InlinePlan.Analysis.Transfer
import InlinePlan.Bytecode.FlowGraph

set_option autoImplicit false

/-! # Analysing a method

The blocks that the entry reaches are visited once each, in reverse postorder. A block starts from
its predecessors: from the arguments at the entry, from a copy of the only one, from the merge of
several, or from a widened frame where a predecessor comes later in the order, that is at the head
of a loop. -/

namespace InlinePlan

/-! ## Entry frames -/

/-- How the frame on entry to a block was made. -/
inductive EntryMode where
  | params
  | widened
  | copied
  | merged
  deriving Repr, DecidableEq

def EntryMode.name : EntryMode → String
  | .params => "params"
  | .widened => "widen"
  | .copied => "copy"
  | .merged => "merge"

/-- The locals that an instruction may overwrite. -/
def Instruction.writtenSlots (ins : Instruction) : List Int :=
  match ins.op.operation? with
  | some .increment => [ins.index]
  | some (.store k _) => if k.wide then [ins.slot, ins.slot + 1] else [ins.slot]
  | _ => []

namespace FlowGraph

/-- All locals that the code may overwrite. -/
def writtenSlots (g : FlowGraph) : List Int :=
  g.blocks.flatMap fun b => b.code.flatMap (·.writtenSlots)

/-- The number of locals up to the last one written. -/
def writtenCount (g : FlowGraph) : Nat := g.writtenSlots.foldl (fun n i => max n (i + 1).toNat) 0

/-- For each local up to the last one written whether it is written. -/
def writtenLocals (g : FlowGraph) : List Bool :=
  let slots := g.writtenSlots
  (List.range g.writtenCount).map fun (i : Nat) => slots.contains (i : Int)

end FlowGraph

/-- The exit frames of the blocks visited so far, by block. -/
abbrev Exits := List (Option Frame)

/-- The exit frames of the reachable predecessors of a block, and whether some are still to come. -/
def readyPreds (g : FlowGraph) (reachable : List Bool) (exits : Exits) (b : Nat) :
    List Frame × Bool :=
  let live := (g.preds b).filter fun p => reachable.getD p false
  let frames := live.map fun p => (exits.getD p none)
  (frames.filterMap id, frames.any (·.isNone))

/-- Merges the other frames into the first one by one. -/
def mergeAll : Frame → List Frame → Except Mismatch Frame
  | s, [] => .ok s
  | s, o :: os =>
    match s.merge o with
    | .error e => .error e
    | .ok s' => mergeAll s' os

/-- The frame on entry to block `b`. A block that no visited block leads to has none. -/
def entryFrame (m : Method) (g : FlowGraph) (written reachable : List Bool) (exits : Exits)
    (b : Nat) : Except Mismatch (Option (Frame × EntryMode)) :=
  let (ready, pending) := readyPreds g reachable exits b
  if b = g.entry then
    if pending || !ready.isEmpty then .ok (some ((Frame.entry m).widen written, .widened))
    else .ok (some (Frame.entry m, .params))
  else match ready with
    | [] => .ok none
    | s :: os =>
      if pending then .ok (some (s.widen written, .widened))
      else if os.isEmpty then .ok (some (s, .copied))
      else (mergeAll s os).map fun s' => some (s', .merged)

/-! ## Runs -/

/-- What the analysis of a method reports while it runs. -/
inductive RunEvent where
  | started (blocks reachable : Nat)
  | block (id : Nat) (mode : EntryMode) (depth : Nat)
  | aborted (bci : Int) (op : Opcode) (fault : Fault)
  | completed (predicates warnings : Nat)
  deriving Repr, DecidableEq

/-- Why a run has no result. -/
inductive RunFault where
  | cancelled
  | start (fault : Fault)
  | mismatch (m : Mismatch)
  | instruction (method : MethodId) (ins : Instruction) (fault : Fault)
  deriving Repr, DecidableEq

def RunFault.message : RunFault → String
  | .cancelled => "context canceled"
  | .start fault => fault.message
  | .mismatch m => m.message
  | .instruction method ins fault =>
    method ++ " at bci " ++ toString ins.bci ++ " (" ++ ins.op.mnemonic ++ "): " ++ fault.message

/-- What the analysis of a method found. `exits` has the exit frame of each reachable block. -/
structure RunResult where
  summary : Summary
  exits : Exits
  warnings : List String
  deriving Repr, DecidableEq

/-- A run: its outcome, and the calls and events up to its end. -/
structure Run where
  outcome : Except RunFault RunResult
  calls : List CallSite
  events : List RunEvent

/-- The progress of a run between two blocks. -/
structure Progress where
  exits : Exits
  predicates : List Predicate := []
  warnings : List String := []
  calls : List CallSite := []
  events : List RunEvent := []
  deriving Repr, DecidableEq

/-- Applies instructions in order; stops at the first fault. -/
def runCode (s : Subject) (block : Nat) (frequency : Int) :
    List Instruction → EStateM (Instruction × Fault) Machine Unit
  | [], m => .ok () m
  | ins :: rest, m =>
    match Step.step s block frequency ins m with
    | .ok _ m' => runCode s block frequency rest m'
    | .error e m' => .error (ins, e) m'

/-- Takes the records of a machine over into the progress. -/
def Progress.record (p : Progress) (m : Machine) : Progress :=
  { p with predicates := m.predicates, warnings := m.warnings, calls := m.calls }

/-- Visits one block. -/
def runBlock (s : Subject) (g : FlowGraph) (written reachable : List Bool) (b : Nat) :
    EStateM RunFault Progress Unit := fun p =>
  match entryFrame s.method g written reachable p.exits b with
  | .error e => .error (.mismatch e) p
  | .ok none => .ok () p
  | .ok (some (frame, mode)) =>
    let p := { p with events := p.events ++ [RunEvent.block b mode frame.depth] }
    let start : Machine :=
      { frame, predicates := p.predicates, warnings := p.warnings, calls := p.calls }
    let frequency := (g.blocks[b]?).elim 0 (·.frequency)
    match runCode s b frequency (g.code b) start with
    | .ok _ m => .ok () { p.record m with exits := p.exits.set b (some m.frame) }
    | .error (ins, e) m =>
      .error (.instruction s.method.id ins e)
        { p.record m with events := p.events ++ [RunEvent.aborted ins.bci ins.op e] }

/-- Visits blocks in order. -/
def runBlocks (s : Subject) (g : FlowGraph) (written reachable : List Bool) :
    List Nat → EStateM RunFault Progress Unit
  | [], p => .ok () p
  | b :: bs, p =>
    match runBlock s g written reachable b p with
    | .ok _ p' => runBlocks s g written reachable bs p'
    | .error e p' => .error e p'

/-- Visits the reachable blocks. -/
def Subject.runReachable (s : Subject) (g : FlowGraph) : Run :=
  let order := g.reversePostorder
  let start : Progress :=
    { exits := List.replicate g.size none, events := [.started g.size order.length] }
  match runBlocks s g g.writtenLocals g.reachable order start with
  | .error e p => { outcome := .error e, calls := p.calls, events := p.events }
  | .ok _ p =>
    { outcome := .ok
        { summary := ⟨s.method.id, p.predicates⟩, exits := p.exits, warnings := p.warnings }
      calls := p.calls
      events := p.events ++ [.completed p.predicates.length p.warnings.length] }

/-- Analyses a method over its graph. The locals written are marked in an array with a byte for each.
    The entry frame is made after the question whether the run is cancelled. -/
def Subject.run (s : Subject) (g : FlowGraph) (cancelled : Bool) : Run :=
  let locals := Frame.entrySize s.method
  let events := [RunEvent.started g.size g.reversePostorder.length]
  if maxEntries 1 < g.writtenCount then
    { outcome := .error (.start (.noRoom g.writtenCount)), calls := [], events := [] }
  else if cancelled then { outcome := .error .cancelled, calls := [], events }
  else if Frame.maxSlots < locals then
    { outcome := .error (.start (.noRoom locals)), calls := [], events }
  else s.runReachable g

end InlinePlan
