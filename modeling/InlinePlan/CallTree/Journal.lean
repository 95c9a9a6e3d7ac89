import InlinePlan.CallTree.Build
import InlinePlan.Log.Logger

set_option autoImplicit false

/-! # The journal of a build

What a build reports, as log entries. Entries of the build itself carry the name of the compilation;
those of an analysis carry the method only. -/

namespace InlinePlan

open Log

/-- The entry for an event of an analysis. -/
def RunEvent.entry (method : MethodId) : RunEvent → Entry
  | .started blocks reachable =>
    { level := .debug, message := "Starting abstract interpretation"
      fields := [("method", .text method), ("blocks", .int blocks), ("reachable", .int reachable)] }
  | .block id mode depth =>
    { level := .debug, message := "Interpreting block"
      fields := [("method", .text method), ("block", .int id), ("entry", .text mode.name),
        ("depth", .int depth)] }
  | .aborted bci op fault =>
    { level := .info, message := "Interpretation aborted: " ++ fault.message
      fields := [("method", .text method), ("bci", .int bci), ("op", .text op.mnemonic)] }
  | .completed predicates warnings =>
    { level := .debug, message := "Interpretation completed"
      fields := [("method", .text method), ("predicates", .int predicates),
        ("warnings", .int warnings)] }

/-- The fields that name a node. -/
def nodeFields (node : NodeId) (method : MethodId) : List (String × FieldValue) :=
  [("node", .int node), ("method", .text method)]

/-- The entry for an event of the build, without the compilation. -/
def BuildEvent.bareEntry : BuildEvent → Entry
  | .started root budget =>
    { level := .info, message := "Building inlining tree"
      fields := [("root", .text root), ("budget", .int budget)] }
  | .reused node method source =>
    { level := .debug, message := "Reusing memoized summary"
      fields := nodeFields node method ++ [("source", .int source)] }
  | .noCode node method reason =>
    { level := .debug, message := "No control flow graph: " ++ reason.message
      fields := nodeFields node method }
  | .analysis method event => event.entry method
  | .failed node method fault =>
    { level := .info, message := "Interpretation failed: " ++ fault.message
      fields := nodeFields node method }
  | .summarized node method predicates calls =>
    { level := .debug, message := "Method summarized"
      fields := nodeFields node method ++ [("predicates", .int predicates), ("calls", .int calls)] }
  | .cut node method =>
    { level := .debug, message := "Subtree cut by recursion, not memoized"
      fields := nodeFields node method }
  | .pruned parent callee reason =>
    { level := .debug, message := "Call pruned"
      fields := [("parent", .int parent), ("callee", .text callee),
        ("reason", .text reason.name)] }
  | .finished nodes remembered warnings =>
    { level := .info, message := "Inlining tree complete"
      fields := [("nodes", .int nodes), ("memoized", .int remembered),
        ("warnings", .int warnings)] }

/-- The entry for an event of a compilation. -/
def BuildEvent.entry (compilation : String) (e : BuildEvent) : Entry :=
  match e with
  | .analysis .. => e.bareEntry
  | _ => { e.bareEntry with fields := ("compilation", .text compilation) :: e.bareEntry.fields }

/-- The log of a build, whose events all happened at one time. -/
def BuildState.log (s : BuildState) (logger : Logger) (now : Instant) (compilation : String) :
    String :=
  String.join (s.events.map fun e => logger.line now (e.entry compilation))

end InlinePlan
