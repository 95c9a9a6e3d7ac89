import InlinePlan.Program.Hierarchy

set_option autoImplicit false

/-! # Catalogs

What the growth of a call tree asks for: the code of a method, the methods that a call can reach,
and subtypes. A program is a catalog. Asking may fail, and a build may be cancelled from outside
after some number of requests for code. -/

namespace InlinePlan

/-- Why there is no graph of a method. -/
inductive NoCode where
  | unavailable (method : MethodId)
  | broken (reason : String)
  deriving Repr, DecidableEq

def NoCode.message : NoCode → String
  | .unavailable method => "control flow graph unavailable: " ++ method
  | .broken reason => reason

/-- The answer to the question which methods a call can reach. -/
inductive Resolution where
  | methods (ms : List Method)
  | failed (reason : String)
  | endless
  deriving Repr, DecidableEq

/-- What identifies a call: the method that it stands in, its position there, and what it names. -/
structure SiteRef where
  caller : Method
  bci : Int
  kind : InvokeKind
  ref : SymbolRef
  deriving Repr, DecidableEq

/-- The identity of a call that the analysis reached. -/
def CallSite.siteRef (c : CallSite) : SiteRef := ⟨c.caller, c.bci, c.kind, c.ref⟩

/-- Answers about methods, calls and classes. No path of calls has more than `reach` different
    methods. -/
structure Catalog where
  graph : Method → Except NoCode FlowGraph
  resolve : SiteRef → Resolution
  isSubtype : SubtypeOracle
  cancelled : (requests : Nat) → Bool := fun _ => false
  reach : Nat

namespace Program

/-- The code of a method. -/
def codeOf (p : Program) (m : Method) : Except NoCode FlowGraph :=
  match p.graph? m.id with
  | some g => .ok g
  | none => .error (.unavailable m.id)

/-- A program as a catalog. It answers alike wherever a call stands. -/
def catalog (p : Program) : Catalog where
  graph := p.codeOf
  resolve site :=
    match p.resolve site.kind (some site.ref) with
    | some ms => .methods ms
    | none => .endless
  isSubtype := p.isSubtype
  reach := p.methods.length + 1

end Program

end InlinePlan
