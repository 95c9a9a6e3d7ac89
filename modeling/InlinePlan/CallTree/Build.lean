import InlinePlan.Analysis.Run
import InlinePlan.CallTree.Benefit
import InlinePlan.CallTree.Catalog
import InlinePlan.CallTree.Forest
import InlinePlan.CallTree.Options

set_option autoImplicit false

/-! # Growing call trees

The tree of a root method is grown depth first. The method of a node is analysed once; each call
that the analysis reached is resolved, and each method it can reach becomes a child unless a rule
prunes it. A finished expansion is remembered, and later nodes of the same method replay it: the
calls below are admitted again under the new node's own budget, ratio, depth and path. An expansion
that was cut because a method above it would have recurred depends on its path and is not
remembered. -/

namespace InlinePlan

/-! ## Rules -/

/-- Why a call did not become a node. -/
inductive PruneReason where
  | coldBlock
  | budget
  | recursion
  | lowValue
  | depth
  | unresolved
  deriving Repr, DecidableEq

namespace PruneReason

/-- All reasons, by code. -/
def all : List PruneReason := [.coldBlock, .budget, .recursion, .lowValue, .depth, .unresolved]

def name : PruneReason → String
  | .coldBlock => "cold-block"
  | .budget => "budget"
  | .recursion => "recursion"
  | .lowValue => "low-value"
  | .depth => "depth"
  | .unresolved => "unresolved"

end PruneReason

/-- The place of a node whose calls are considered. `path` has the methods from the node up to the
    root, its own first. -/
structure Place where
  id : NodeId
  budget : Int
  rootCallRatio : Float
  depth : Nat
  path : List MethodId

namespace Place

/-- The methods above the node. -/
def above (p : Place) : List MethodId := p.path.tail

/-- The rule that keeps a call of a method out, if any; the first that applies counts. -/
def refusal? (o : Options) (p : Place) (callee : Method) (ratio : Float) : Option PruneReason :=
  if p.budget < callee.size then some .budget
  else if p.path.contains callee.id then some .recursion
  else if p.rootCallRatio * ratio < o.minRootCallRatio then some .lowValue
  else if 0 < o.maxDepth ∧ o.maxDepth < (p.depth : Int) + 1 then some .depth
  else none

/-- The place of a child. -/
def child (p : Place) (id : NodeId) (callee : Method) (ratio : Float) : Place where
  id := id
  budget := wrap 64 (p.budget - callee.size)
  rootCallRatio := p.rootCallRatio * ratio
  depth := p.depth + 1
  path := callee.id :: p.path

end Place

/-! ## Records of a build -/

/-- Why a build has no tree. -/
inductive BuildFault where
  | noRoot
  | cancelled
  | mismatch (m : Mismatch)
  | crashed (f : Fault)
  | endless
  | exhausted
  deriving Repr, DecidableEq

def BuildFault.message : BuildFault → String
  | .noRoot => "root method cannot be nil"
  | .cancelled => RunFault.cancelled.message
  | .mismatch m => m.message
  | .crashed f => f.message
  | .endless => "call resolution does not end"
  | .exhausted => "call path too long"

/-- What a build reports while it runs. -/
inductive BuildEvent where
  | started (root : MethodId) (budget : Int)
  | reused (node : NodeId) (method : MethodId) (source : NodeId)
  | noCode (node : NodeId) (method : MethodId) (reason : NoCode)
  | analysis (method : MethodId) (event : RunEvent)
  | failed (node : NodeId) (method : MethodId) (fault : RunFault)
  | summarized (node : NodeId) (method : MethodId) (predicates calls : Nat)
  | cut (node : NodeId) (method : MethodId)
  | pruned (parent : NodeId) (callee : MethodId) (reason : PruneReason)
  | finished (nodes remembered warnings : Nat)
  deriving Repr, DecidableEq

/-- Calls grown below a node. `hits` are the methods whose recurrence cut the growth. -/
structure Growth where
  forest : Forest Float := .empty
  hits : List MethodId := []

/-- Growth side by side. -/
def Growth.append (a b : Growth) : Growth := ⟨a.forest.append b.forest, a.hits ++ b.hits⟩

/-- What became of a node: its analysis and what grew below it. -/
structure Expansion where
  status : Status
  summary : Option Summary := none
  origin : Option NodeId := none
  growth : Growth := {}

/-- A remembered expansion and the node that had it. -/
structure Memo where
  source : NodeId
  expansion : Expansion

/-- The records of a build: nodes so far, remembered expansions by method, pruned calls, warnings,
    the requests for code, and what was reported, each in order of time. -/
structure BuildState where
  count : Nat := 0
  memo : List (MethodId × Memo) := []
  pruned : List PruneReason := []
  warnings : List String := []
  requests : List MethodId := []
  events : List BuildEvent := []

/-- Steps of a build. -/
abbrev BuildM := EStateM BuildFault BuildState

namespace BuildM

def report (e : BuildEvent) : BuildM Unit := modify fun s => { s with events := s.events ++ [e] }

def warn (message : String) : BuildM Unit :=
  modify fun s => { s with warnings := s.warnings ++ [message] }

/-- Counts pruned calls. -/
def prune (reason : PruneReason) (calls : Nat) : BuildM Unit :=
  modify fun s => { s with pruned := s.pruned ++ List.replicate calls reason }

/-- The number of the next node. -/
def fresh : BuildM NodeId :=
  modifyGet fun s => ((s.count : Int), { s with count := s.count + 1 })

def remember (method : MethodId) (source : NodeId) (expansion : Expansion) : BuildM Unit :=
  modify fun s => { s with memo := s.memo ++ [(method, { source, expansion })] }

/-- Admits a call below a place, which gives it a place of its own, or prunes it. -/
def consider (o : Options) (p : Place) (callee : Method) (ratio : Float) :
    BuildM (Except PruneReason Place) := do
  match p.refusal? o callee ratio with
  | some reason =>
    prune reason 1
    report (.pruned p.id callee.id reason)
    return .error reason
  | none => return .ok (p.child (← fresh) callee ratio)

end BuildM

/-- The growth of a call that was pruned. -/
def Growth.pruned (callee : Method) (reason : PruneReason) : Growth :=
  { hits := if reason = .recursion then [callee.id] else [] }

/-! ## Growth -/

/-- Grows a copy of a forest below a place. Every call has to be admitted there again. -/
def replay (o : Options) (p : Place) : Forest Float → BuildM Growth
  | .empty => return {}
  | .grow call below rest => do
    match ← BuildM.consider o p call.method call.callRatio with
    | .error reason =>
      let others ← replay o p rest
      return (Growth.pruned call.method reason).append others
    | .ok place =>
      let grown ← replay o place below
      let others ← replay o p rest
      let copy := { call with budget := place.budget, rootCallRatio := place.rootCallRatio }
      return ⟨.grow copy grown.forest others.forest, grown.hits ++ others.hits⟩

/-- What builds a tree. `reuse` says whether expansions are remembered. -/
structure Builder where
  options : Options := {}
  catalog : Catalog
  reuse : Bool := true

namespace Builder

/-- How a method is expanded at a place. -/
abbrev Expander := Place → Method → BuildM Expansion

/-- The call that an expanded method is. -/
def callAt (b : Builder) (p : Place) (callee : Method) (ratio : Float) (site : CallSite)
    (e : Expansion) : Call Float where
  method := callee
  budget := p.budget
  callSite := site.bci
  callRatio := ratio
  rootCallRatio := p.rootCallRatio
  staticBenefit := staticBenefit (some b.catalog.isSubtype) b.options.predicateWeight e.summary
    site.args
  summary := e.summary
  origin := e.origin
  args := site.args
  status := e.status

/-- Grows the methods that a call can reach. -/
def growCallees (b : Builder) (expand : Expander) (p : Place) (site : CallSite) (ratio : Float) :
    List Method → BuildM Growth
  | [] => return {}
  | callee :: callees => do
    match ← BuildM.consider b.options p callee ratio with
    | .error reason =>
      let others ← b.growCallees expand p site ratio callees
      return (Growth.pruned callee reason).append others
    | .ok place =>
      let e ← expand place callee
      let others ← b.growCallees expand p site ratio callees
      return ⟨.grow (b.callAt place callee ratio site e) e.growth.forest others.forest,
        e.growth.hits ++ others.hits⟩

/-- How often each of `callees` methods is called from a site per execution of the method that is
    entered `entryFrequency` times. -/
def siteRatio (frequency entryFrequency : Int) (callees : Nat) : Float :=
  let share :=
    if 0 < entryFrequency then Float.ofInt frequency / Float.ofInt entryFrequency else 1.0
  share / Float.ofNat callees

/-- Grows one call. -/
def growSite (b : Builder) (expand : Expander) (p : Place) (entryFrequency : Int)
    (site : CallSite) : BuildM Growth := do
  match b.catalog.resolve site.siteRef with
  | .endless => throw .endless
  | .failed reason =>
    BuildM.prune .unresolved 1
    BuildM.warn (site.caller.id ++ "@" ++ toString site.bci ++ ": " ++ reason)
    return {}
  | .methods [] =>
    BuildM.prune .unresolved 1
    return {}
  | .methods callees =>
    if site.frequency < b.options.coldBlockFrequency then
      BuildM.prune .coldBlock callees.length
      return {}
    else
      b.growCallees expand p site (siteRatio site.frequency entryFrequency callees.length) callees

/-- Grows the calls of a method in order. -/
def growSites (b : Builder) (expand : Expander) (p : Place) (entryFrequency : Int) :
    List CallSite → BuildM Growth
  | [] => return {}
  | site :: sites => do
    let first ← b.growSite expand p entryFrequency site
    let others ← b.growSites expand p entryFrequency sites
    return first.append others

/-- Asks for the code of a method. -/
def request (b : Builder) (m : Method) : BuildM (Except NoCode FlowGraph) := do
  modify fun s => { s with requests := s.requests ++ [m.id] }
  return b.catalog.graph m

/-- Whether the build was cancelled by now. -/
def isCancelled (b : Builder) : BuildM Bool := do
  let s ← get
  return b.catalog.cancelled s.requests.length

/-- The remembered expansion of a method. -/
def remembered? (b : Builder) (m : Method) : BuildM (Option Memo) := do
  let s ← get
  return if b.reuse then s.memo.lookup m.id else none

/-- Analyses a method over its graph. -/
def analyse (b : Builder) (m : Method) (g : FlowGraph) : BuildM Run := do
  let subject : Subject :=
    { options := b.options.analysis, oracle := some b.catalog.isSubtype, visitor := .anyResult,
      method := m }
  let run := subject.run g (← b.isCancelled)
  run.events.forM fun e => BuildM.report (.analysis m.id e)
  return run

/-- Takes note of a method without code. -/
def withoutCode (p : Place) (m : Method) (reason : NoCode) : BuildM Expansion := do
  match reason with
  | .broken _ => BuildM.warn (m.id ++ ": " ++ reason.message)
  | .unavailable _ => pure ()
  BuildM.report (.noCode p.id m.id reason)
  return { status := .noGraph }

/-- Takes note of a method whose analysis failed. Some failures end the build. -/
def afterFailure (p : Place) (m : Method) (fault : RunFault) : BuildM Expansion := do
  match fault with
  | .cancelled => throw .cancelled
  | .start e => throw (.crashed e)
  | .mismatch e => throw (.mismatch e)
  | .instruction _ _ e =>
    if e.faultClass = .crash then throw (.crashed e)
    BuildM.warn (m.id ++ ": interpretation failed: " ++ fault.message)
    BuildM.report (.failed p.id m.id fault)
    let e : Expansion := { status := .failed }
    BuildM.remember m.id p.id e
    return e

/-- Takes note of an analysis, grows its calls, and remembers the result unless it was cut. -/
def afterAnalysis (b : Builder) (expand : Expander) (p : Place) (m : Method) (g : FlowGraph)
    (r : RunResult) (calls : List CallSite) : BuildM Expansion := do
  r.warnings.forM fun w => BuildM.warn (m.id ++ ": " ++ w)
  BuildM.report (.summarized p.id m.id r.summary.length calls.length)
  let growth ← b.growSites expand p g.entryFrequency calls
  let e : Expansion :=
    { status := .summarized, summary := some r.summary, origin := some p.id, growth }
  if growth.hits.any p.above.contains then BuildM.report (.cut p.id m.id)
  else BuildM.remember m.id p.id e
  return e

/-- Expands a method at a place. No path of calls within the catalog is longer than the fuel. -/
def expand (b : Builder) : (fuel : Nat) → Expander
  | 0, _, _ => throw .exhausted
  | fuel + 1, p, m => do
    if ← b.isCancelled then throw .cancelled
    match ← b.remembered? m with
    | some memo =>
      BuildM.report (.reused p.id m.id memo.source)
      let growth ← replay b.options p memo.expansion.growth.forest
      return { memo.expansion with growth }
    | none =>
      match ← b.request m with
      | .error reason => withoutCode p m reason
      | .ok g =>
        let run ← b.analyse m g
        match run.outcome with
        | .error fault => afterFailure p m fault
        | .ok r => b.afterAnalysis (b.expand fuel) p m g r run.calls

/-- The place of the root. -/
def rootPlace (root : Method) (budget : Int) : Place :=
  { id := 0, budget, rootCallRatio := 1, depth := 0, path := [root.id] }

/-- The call that the root stands for. -/
def rootCall (root : Method) (budget : Int) (e : Expansion) : Call Float :=
  { method := root, budget, callRatio := 1, rootCallRatio := 1, summary := e.summary,
    origin := e.origin, status := e.status }

/-- Grows the tree of a root method within a budget. -/
def grow (b : Builder) (root : Option Method) (budget : Int) : BuildM (Tree Float) := do
  match root with
  | none => throw .noRoot
  | some root =>
    BuildM.report (.started root.id budget)
    let _ ← BuildM.fresh
    let e ← b.expand b.catalog.reach (rootPlace root budget) root
    let s ← get
    BuildM.report (.finished s.count s.memo.length s.warnings.length)
    return Tree.ofForest (rootCall root budget e) e.growth.forest

end Builder

/-- A build: its outcome and its records. -/
structure Build where
  outcome : Except BuildFault (Tree Float)
  state : BuildState

/-- Builds the call tree of a root method. -/
def Builder.build (b : Builder) (root : Option Method) (budget : Int) : Build :=
  match b.grow root budget {} with
  | .ok t s => ⟨.ok t, s⟩
  | .error e s => ⟨.error e, s⟩

/-- How many calls were pruned for a reason. -/
def BuildState.prunedFor (s : BuildState) (reason : PruneReason) : Nat := s.pruned.count reason

end InlinePlan
