import InlinePlan.Analysis.Fact
import InlinePlan.Analysis.Machine
import InlinePlan.Bytecode.FlowGraph

set_option autoImplicit false

/-! # Programs

A program is a list of declared classes and of methods with their code. It answers which class is
assignable to which, and which methods a call can reach. Superclasses and interfaces are mere names:
they may be undeclared and may form cycles. -/

namespace InlinePlan

/-- A declared class or interface. -/
structure ClassDecl where
  name : String
  superclass : Option String := none
  interfaces : List String := []
  isInterface : Bool := false
  deriving Repr, DecidableEq

/-- The classes that a class names as its parents: interfaces first, then the superclass. -/
def ClassDecl.parents (c : ClassDecl) : List String := c.interfaces ++ c.superclass.toList

/-- A method and its code, if it has any. -/
structure MethodEntry where
  method : Method
  graph : Option FlowGraph

/-- Classes and methods in the order of their declaration. -/
structure Program where
  classes : List ClassDecl := [{ name := objectClass }]
  methods : List MethodEntry := []

namespace Program

/-- The declaration of a class. -/
def class? (p : Program) (name : String) : Option ClassDecl := p.classes.find? (·.name = name)

/-- The entry of a method. -/
def declared? (p : Program) (id : MethodId) : Option MethodEntry :=
  p.methods.find? (·.method.id = id)

def method? (p : Program) (id : MethodId) : Option Method := (p.declared? id).map (·.method)

/-- The control flow graph of a method that has code. -/
def graph? (p : Program) (id : MethodId) : Option FlowGraph := (p.declared? id).bind (·.graph)

/-! ## Subtypes -/

/-- The number of declared classes that are not in `seen`. -/
def unseen (p : Program) (seen : List String) : Nat := p.classes.countP (·.name ∉ seen)

theorem unseen_cons_lt {p : Program} {seen : List String} {c : ClassDecl} {name : String}
    (hs : name ∉ seen) (hc : p.class? name = some c) : p.unseen (name :: seen) < p.unseen seen := by
  have hmem : c ∈ p.classes := List.mem_of_find?_eq_some hc
  have hname : c.name = name := by simpa using List.find?_some hc
  have hle (l : List ClassDecl) :
      l.countP (·.name ∉ name :: seen) ≤ l.countP (·.name ∉ seen) :=
    List.countP_mono_left fun x _ h => by
      simp only [List.mem_cons, not_or, decide_eq_true_eq] at h ⊢
      exact h.2
  unfold unseen
  generalize p.classes = l at hmem
  induction l with
  | nil => simp at hmem
  | cons x xs ih =>
    by_cases hx : x = c
    · subst hx
      have h1 := hle xs
      have h2 : decide (x.name ∉ name :: seen) = false := by simp [hname]
      have h3 : decide (x.name ∉ seen) = true := by simpa [hname] using hs
      rw [List.countP_cons, List.countP_cons, h2, h3]
      simp only [Bool.false_eq_true, if_false, if_true]
      omega
    · have hxs : c ∈ xs := by
        rcases List.mem_cons.1 hmem with h | h
        · exact absurd h.symm hx
        · exact h
      have h1 := ih hxs
      have h2 : decide (x.name ∉ name :: seen) = true → decide (x.name ∉ seen) = true := by
        simp only [List.mem_cons, not_or, decide_eq_true_eq]
        exact And.right
      rw [List.countP_cons, List.countP_cons]
      split
      · rename_i h; rw [if_pos (h2 h)]; omega
      · split <;> omega

/-- Looks for a class among all that the names in `work` lead to. Without it, an undeclared class on
    the way leaves the question open. -/
def search (p : Program) (target : String) (work seen : List String) (complete : Bool) : Tristate :=
  match work with
  | [] => if complete then .no else .maybe
  | name :: rest =>
    if name = target then .yes
    else if _hs : name ∈ seen then p.search target rest seen complete
    else match _hc : p.class? name with
      | none => p.search target rest seen false
      | some c => p.search target (c.parents ++ rest) (name :: seen) complete
termination_by (p.unseen seen, work.length)
decreasing_by
  · exact Prod.Lex.right _ (by simp)
  · exact Prod.Lex.right _ (by simp)
  · exact Prod.Lex.left _ _ (unseen_cons_lt _hs _hc)

/-- The types other than arrays that every array is assignable to. -/
def arraySupertypes : List String := [objectClass, "java/lang/Cloneable", "java/io/Serializable"]

/-- Whether a name is that of an array type. -/
def isArrayName (name : String) : Bool := name.toList.head? = some '['

/-- Whether `sub` is assignable to `super`. -/
def isSubtype (p : Program) (sub super : String) : Tristate :=
  if sub = super ∨ super = objectClass then .yes
  else if isArrayName sub then
    if arraySupertypes.contains super then .yes
    else if isArrayName super then .maybe
    else .no
  else p.search super [sub] [] true

/-! ## Calls -/

/-- The outcome of walking up the superclasses of a class. -/
inductive Lookup where
  | found (m : Method)
  | missing
  | endless
  deriving Repr, DecidableEq

/-- Walks up at most `steps` classes to the first that has the method. -/
def lookupWithin (p : Program) (name descriptor : String) : (steps : Nat) → (cls : String) → Lookup
  | 0, _ => .endless
  | steps + 1, cls =>
    if cls = "" then .missing
    else match p.method? (MethodId.of cls name descriptor) with
      | some m => .found m
      | none =>
        match p.class? cls with
        | none => .missing
        | some c =>
          match c.superclass with
          | none => .missing
          | some s => p.lookupWithin name descriptor steps s

/-- The implementation of a method that a class sees. A walk longer than the number of classes has
    met some class twice, and so has no end. -/
def lookup (p : Program) (cls name descriptor : String) : Lookup :=
  p.lookupWithin name descriptor (p.classes.length + 1) cls

/-- The methods among the results of several look-ups that can be dispatched to, each once; none if
    a look-up has no end. -/
def dispatchable : List Lookup → (seen : List MethodId) → Option (List Method)
  | [], _ => some []
  | .endless :: _, _ => none
  | .missing :: ls, seen => dispatchable ls seen
  | .found m :: ls, seen =>
    if m.isAbstract || m.isStatic || seen.contains m.id then dispatchable ls seen
    else (dispatchable ls (m.id :: seen)).map (m :: ·)

/-- The methods that a call can reach; `none` if the search for them has no end. Static and special
    calls bind to the visible implementation, virtual and interface calls to that of every class
    assignable to the named one, in the order of declaration. -/
def resolve (p : Program) (kind : InvokeKind) (ref : Option SymbolRef) : Option (List Method) :=
  match ref with
  | none => some []
  | some r =>
    if r.kind ≠ .method ∨ r.unresolved then some []
    else match kind with
      | .staticCall | .specialCall =>
        match p.lookup r.cls r.name r.descriptor with
        | .endless => none
        | .missing => some []
        | .found m =>
          if m.isAbstract || m.isStatic != (kind == .staticCall) then some [] else some [m]
      | .virtualCall | .interfaceCall =>
        let targets := p.classes.filter fun c =>
          !c.isInterface && p.isSubtype c.name r.cls == .yes
        dispatchable (targets.map fun c => p.lookup c.name r.name r.descriptor) []
      | .dynamicCall => some []

/-! ## Names -/

/-- Why a name does not pick a method. -/
inductive FindFault where
  | notFound (name : String)
  | overloaded (name : String)
  deriving Repr, DecidableEq

def FindFault.message : FindFault → String
  | .notFound name => "method " ++ Text.quote name ++ " not found"
  | .overloaded name => "method " ++ Text.quote name ++ " is overloaded; give the descriptor"

/-- The identity of a method without its descriptor. -/
def shortName (m : Method) : String :=
  if m.id.toList.drop (m.id.length - m.descriptor.length) = m.descriptor.toList then
    String.ofList (m.id.toList.take (m.id.length - m.descriptor.length))
  else m.id

/-- Picks a method by its identity or, if that is unambiguous, by class and name. -/
def find (p : Program) (name : String) : Except FindFault Method :=
  match p.method? name with
  | some m => .ok m
  | none =>
    match (p.methods.map (·.method)).filter (shortName · = name) with
    | [] => .error (.notFound name)
    | [m] => .ok m
    | _ => .error (.overloaded name)

end Program

end InlinePlan
