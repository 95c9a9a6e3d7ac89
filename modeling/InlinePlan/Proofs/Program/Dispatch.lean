import InlinePlan.Program.Document
import InlinePlan.Proofs.Bytecode.Assembly
import Mathlib.Data.List.Perm.Subperm
import Mathlib.Logic.Relation

set_option autoImplicit false

/-! # Resolution of calls

A call resolves to methods that the program declares (`declares_of_mem_resolve`). A walk up the
superclasses that has no end comes to a circle (`circles_of_lookup`), and resolution has an end unless
one of its walks has none (`resolve_eq_none_iff`). So if no class is its own ancestor, every call
resolves (`Acyclic.resolve_ne_none`). -/

namespace InlinePlan

namespace Program

variable {p : Program} {id : MethodId} {m : Method} {name descriptor cls : String}

/-! ## Declared methods -/

/-- The identities of all methods. -/
def ids (p : Program) : List MethodId := p.methods.map (·.method.id)

/-- The program has the method under its identity. -/
def Declares (p : Program) (m : Method) : Prop := p.method? m.id = some m

theorem declared?_spec {entry : MethodEntry} (h : p.declared? id = some entry) :
    entry ∈ p.methods ∧ entry.method.id = id :=
  ⟨List.mem_of_find?_eq_some h, by simpa using List.find?_some h⟩

theorem id_of_method? (h : p.method? id = some m) : m.id = id := by
  obtain ⟨entry, hentry, rfl⟩ := Option.map_eq_some_iff.1 h
  exact (declared?_spec hentry).2

theorem declares_of_method? (h : p.method? id = some m) : p.Declares m := by
  rw [Declares, id_of_method? h, h]

theorem Declares.mem_ids (h : p.Declares m) : m.id ∈ p.ids := by
  obtain ⟨entry, hentry, hm⟩ := Option.map_eq_some_iff.1 h
  exact hm ▸ List.mem_map_of_mem (declared?_spec hentry).1

/-- Declared methods with one identity are one method. -/
theorem Declares.unique {m' : Method} (h : p.Declares m) (h' : p.Declares m') (hid : m.id = m'.id) :
    m = m' := by
  unfold Declares at h h'
  rw [hid, h'] at h
  exact (Option.some.inj h).symm

/-! ## Superclasses -/

/-- A declared class and the name of its superclass. -/
def Extends (p : Program) (cls super : String) : Prop :=
  ∃ c, p.class? cls = some c ∧ c.superclass = some super

/-- No class is its own ancestor. -/
def Acyclic (p : Program) : Prop := ∀ cls, ¬Relation.TransGen p.Extends cls cls

/-- Classes are acyclic if they can be ranked such that each is above its superclass. -/
theorem acyclic_of_rank (rank : String → Nat)
    (h : ∀ c ∈ p.classes, ∀ super ∈ c.superclass, rank super < rank c.name) : p.Acyclic := by
  have hstep (a b : String) (hab : p.Extends a b) : rank b < rank a := by
    obtain ⟨c, hc, hsuper⟩ := hab
    have hname : c.name = a := by simpa using List.find?_some hc
    exact hname ▸ h c (List.mem_of_find?_eq_some hc) b hsuper
  have hanc (a b : String) (hab : Relation.TransGen p.Extends a b) : rank b < rank a := by
    induction hab with
    | single hab => exact hstep _ _ hab
    | tail _ hbc ih => exact Nat.lt_trans (hstep _ _ hbc) ih
  exact fun a ha => Nat.lt_irrefl _ (hanc a a ha)

theorem mem_names_of_class? {c : ClassDecl} (h : p.class? cls = some c) :
    cls ∈ p.classes.map (·.name) := by
  have hname : c.name = cls := by simpa using List.find?_some h
  exact hname ▸ List.mem_map_of_mem (List.mem_of_find?_eq_some h)

/-! ## Walks up the superclasses -/

/-- A step of the walk that looks for a method: class `cls` does not have it, and `super` is next. -/
structure Climbs (p : Program) (name descriptor cls super : String) : Prop where
  named : cls ≠ ""
  lacks : p.method? (MethodId.of cls name descriptor) = none
  above : p.Extends cls super

/-- A walk that finds a method does so in its first class or after a step. -/
theorem lookupWithin_succ_eq_found {steps : Nat}
    (h : p.lookupWithin name descriptor (steps + 1) cls = .found m) :
    p.method? (MethodId.of cls name descriptor) = some m ∨
      ∃ super, p.Climbs name descriptor cls super
        ∧ p.lookupWithin name descriptor steps super = .found m := by
  unfold lookupWithin at h
  split at h
  · cases h
  · rename_i hnamed
    split at h
    · rename_i m' hm'
      cases h
      exact .inl hm'
    · rename_i hlacks
      split at h
      · cases h
      · rename_i c hc
        split at h
        · cases h
        · rename_i super hsuper
          exact .inr ⟨super, ⟨hnamed, hlacks, c, hc, hsuper⟩, h⟩

theorem declares_of_lookupWithin {steps : Nat}
    (h : p.lookupWithin name descriptor steps cls = .found m) : p.Declares m := by
  induction steps generalizing cls with
  | zero => cases h
  | succ steps ih =>
    rcases lookupWithin_succ_eq_found h with hm | ⟨super, -, h⟩
    · exact declares_of_method? hm
    · exact ih h

/-- A walk that has no end within some steps makes its first step and has none within the others. -/
theorem lookupWithin_succ_eq_endless_iff {steps : Nat} :
    p.lookupWithin name descriptor (steps + 1) cls = .endless ↔
      ∃ super, p.Climbs name descriptor cls super
        ∧ p.lookupWithin name descriptor steps super = .endless := by
  constructor
  · intro h
    unfold lookupWithin at h
    split at h
    · cases h
    · rename_i hnamed
      split at h
      · cases h
      · rename_i hlacks
        split at h
        · cases h
        · rename_i c hc
          split at h
          · cases h
          · rename_i super hsuper
            exact ⟨super, ⟨hnamed, hlacks, c, hc, hsuper⟩, h⟩
  · rintro ⟨super, ⟨hnamed, hlacks, c, hc, hsuper⟩, h⟩
    simp only [lookupWithin, if_neg hnamed, hlacks, hc, hsuper]
    exact h

/-- From the class a walk comes to a circle. -/
def Circles (p : Program) (name descriptor cls : String) : Prop :=
  ∃ c, Relation.ReflTransGen (p.Climbs name descriptor) cls c
    ∧ Relation.TransGen (p.Climbs name descriptor) c c

/-- A walk over more classes than there are has met some class twice. -/
theorem circles_of_lookupWithin {steps : Nat} {seen : List String} (hnodup : seen.Nodup)
    (hnames : seen ⊆ p.classes.map (·.name))
    (hseen : ∀ a ∈ seen, Relation.TransGen (p.Climbs name descriptor) a cls)
    (hsteps : p.classes.length < seen.length + steps)
    (h : p.lookupWithin name descriptor steps cls = .endless) : p.Circles name descriptor cls := by
  induction steps generalizing cls seen with
  | zero =>
    have hle := (List.subperm_of_subset hnodup hnames).length_le
    rw [List.length_map] at hle
    omega
  | succ steps ih =>
    by_cases hmem : cls ∈ seen
    · exact ⟨cls, .refl, hseen cls hmem⟩
    · obtain ⟨super, hclimbs, h⟩ := lookupWithin_succ_eq_endless_iff.1 h
      obtain ⟨c, hc, -⟩ := hclimbs.above
      have hseen' : ∀ a ∈ cls :: seen, Relation.TransGen (p.Climbs name descriptor) a super := by
        intro a ha
        rcases List.mem_cons.1 ha with rfl | ha
        · exact .single hclimbs
        · exact (hseen a ha).tail hclimbs
      obtain ⟨d, hreach, hcircle⟩ := ih (List.nodup_cons.2 ⟨hmem, hnodup⟩)
        (List.cons_subset.2 ⟨mem_names_of_class? hc, hnames⟩) hseen' (by grind) h
      exact ⟨d, .head hclimbs hreach, hcircle⟩

theorem circles_of_lookup (h : p.lookup cls name descriptor = .endless) :
    p.Circles name descriptor cls :=
  circles_of_lookupWithin .nil (List.nil_subset _) (fun _ ha => nomatch ha) (by simp) h

/-! ## Methods that a call reaches -/

/-- What comes out of the look-ups was found by one of them and can be dispatched to. -/
theorem dispatched_of_mem {ls : List Lookup} {seen : List MethodId} {ms : List Method}
    (h : dispatchable ls seen = some ms) (hm : m ∈ ms) :
    .found m ∈ ls ∧ m.isAbstract = false ∧ m.isStatic = false ∧ m.id ∉ seen := by
  fun_induction dispatchable ls seen generalizing ms with
  | case1 seen =>
    cases h
    cases hm
  | case2 => cases h
  | case3 ls seen ih | case4 m' ls seen _ ih =>
    exact (ih h hm).imp_left (List.mem_cons_of_mem _)
  | case5 m' ls seen hskip ih =>
    obtain ⟨others, hothers, rfl⟩ := Option.map_eq_some_iff.1 h
    rcases List.mem_cons.1 hm with rfl | hm
    · simpa [and_assoc] using hskip
    · obtain ⟨hfound, habstract, hstatic, hseen⟩ := ih hothers hm
      exact ⟨List.mem_cons_of_mem _ hfound, habstract, hstatic, mt (List.mem_cons_of_mem _) hseen⟩

/-- A call reaches a method that the named class or some declared class sees under the name and
    descriptor of the call. It has a receiver just if the call passes one. -/
theorem found_of_mem_resolve {kind : InvokeKind} {r : SymbolRef} {ms : List Method}
    (h : p.resolve kind (some r) = some ms) (hm : m ∈ ms) :
    m.isStatic = !kind.hasReceiver
      ∧ ∃ cls, (cls = r.cls ∨ ∃ c ∈ p.classes, c.name = cls)
        ∧ p.lookup cls r.name r.descriptor = .found m := by
  unfold resolve at h
  dsimp only at h
  split at h
  · cases h
    cases hm
  · split at h
    case h_5 =>
      cases h
      cases hm
    case h_3 | h_4 =>
      obtain ⟨hfound, -, hstatic, -⟩ := dispatched_of_mem h hm
      obtain ⟨c, hc, hlookup⟩ := List.mem_map.1 hfound
      exact ⟨hstatic, c.name, .inr ⟨c, (List.mem_filter.1 hc).1, rfl⟩, hlookup⟩
    all_goals
      split at h
      · cases h
      · cases h
        cases hm
      · rename_i hlookup
        split at h
        · cases h
          cases hm
        · rename_i hkind
          cases h
          obtain rfl := List.mem_singleton.1 hm
          refine ⟨?_, r.cls, .inl rfl, hlookup⟩
          simp only [Bool.or_eq_true, not_or, Bool.not_eq_true, bne_eq_false_iff_eq] at hkind
          exact hkind.2

/-- Whatever a call can reach is declared. -/
theorem declares_of_mem_resolve {kind : InvokeKind} {ref : Option SymbolRef} {ms : List Method}
    (h : p.resolve kind ref = some ms) (hm : m ∈ ms) : p.Declares m := by
  cases ref with
  | none =>
    cases h
    cases hm
  | some r =>
    obtain ⟨-, cls, -, hlookup⟩ := found_of_mem_resolve h hm
    exact declares_of_lookupWithin hlookup

theorem dispatchable_eq_none_iff {ls : List Lookup} {seen : List MethodId} :
    dispatchable ls seen = none ↔ .endless ∈ ls := by
  fun_induction dispatchable ls seen with
  | case1 => simp
  | case2 => simp
  | case3 ls seen ih => simp [ih]
  | case4 m ls seen _ ih => simp [ih]
  | case5 m ls seen _ ih => simp [ih]

/-- The classes from which a call looks for its methods. -/
def starts (p : Program) (kind : InvokeKind) (r : SymbolRef) : List String :=
  if r.kind ≠ .method ∨ r.unresolved then []
  else match kind with
    | .staticCall | .specialCall => [r.cls]
    | .virtualCall | .interfaceCall =>
      (p.classes.filter fun c => !c.isInterface && p.isSubtype c.name r.cls == .yes).map (·.name)
    | .dynamicCall => []

/-- The search for the methods that a call can reach has no end if one of its walks has none. -/
theorem resolve_eq_none_iff {kind : InvokeKind} {r : SymbolRef} :
    p.resolve kind (some r) = none ↔
      ∃ cls ∈ p.starts kind r, p.lookup cls r.name r.descriptor = .endless := by
  unfold resolve starts
  dsimp only
  by_cases href : r.kind ≠ .method ∨ r.unresolved = true
  · simp [if_pos href]
  · rw [if_neg href, if_neg href]
    cases kind with
    | dynamicCall => simp
    | virtualCall | interfaceCall => simp [dispatchable_eq_none_iff]
    | staticCall | specialCall =>
      simp only [List.mem_singleton, exists_eq_left]
      cases p.lookup r.cls r.name r.descriptor with
      | endless => simp
      | missing => simp
      | found m =>
        dsimp only
        split <;> simp

namespace Acyclic

theorem lookup_ne_endless (h : p.Acyclic) : p.lookup cls name descriptor ≠ .endless := by
  intro hendless
  obtain ⟨c, -, hcircle⟩ := circles_of_lookup hendless
  have hextends : p.Climbs name descriptor ≤ p.Extends := fun _ _ hclimbs => hclimbs.above
  exact h c (Relation.TransGen.mono hextends c c hcircle)

/-- The search for the methods that a call can reach has an end. -/
theorem resolve_ne_none (h : p.Acyclic) (kind : InvokeKind) (ref : Option SymbolRef) :
    p.resolve kind ref ≠ none := by
  cases ref with
  | none => exact nofun
  | some r =>
    rw [Ne, resolve_eq_none_iff]
    rintro ⟨cls, -, hendless⟩
    exact h.lookup_ne_endless hendless

end Acyclic

end Program

/-! ## Programs of calls -/

/-- Lines of code that call static methods of a class in order and return. -/
def callLines : (bci : Nat) → List String → List String
  | bci, [] => [toString bci ++ ": return"]
  | bci, callee :: callees =>
    (toString bci ++ ": invokestatic t/A." ++ callee ++ "()V") :: callLines (bci + 3) callees

/-- A static method that runs some lines of code. -/
def MethodRecord.running (name : String) (size : Int) (code : List String) : MethodRecord :=
  { cls := "t/A", name, descriptor := "()V", isStatic := true, size,
    blocks := [{ frequency := 1, code }] }

/-- A static method that does nothing but call others. -/
def MethodRecord.calling (name : String) (size : Int) (callees : List String) : MethodRecord :=
  .running name size (callLines 0 callees)

/-- The program of one class with some methods. -/
def Program.ofMethods (methods : List MethodRecord) : Program :=
  match ofRecord { classes := [{ name := "t/A" }], methods } with
  | .ok p => p
  | .error _ => {}

namespace Program

variable {p q : Program}

/-- What the declaration of a class keeps is kept by that of several. -/
theorem keeps_of_addClasses {motive : Program → Prop} {rs : List ClassRecord}
    (hstep : ∀ (p q : Program) (r : ClassRecord), p.addClass r = .ok q → motive p → motive q)
    (h : addClasses p rs = .ok q) (hp : motive p) : motive q := by
  induction rs generalizing p with
  | nil =>
    cases h
    exact hp
  | cons r rs ih =>
    obtain ⟨p', hp', h⟩ := Except.bind_eq_ok.1 h
    exact ih h (hstep p p' r hp' hp)

/-- What the declaration of a method keeps is kept by that of several. -/
theorem keeps_of_addMethods {motive : Program → Prop} {rs : List MethodRecord}
    (hstep : ∀ (p q : Program) (r : MethodRecord), p.addMethod r = .ok q → motive p → motive q)
    (h : addMethods p rs = .ok q) (hp : motive p) : motive q := by
  induction rs generalizing p with
  | nil =>
    cases h
    exact hp
  | cons r rs ih =>
    obtain ⟨p', hp', h⟩ := Except.bind_eq_ok.1 h
    exact ih h (hstep p p' r hp' hp)

theorem classes_of_addMethod {r : MethodRecord} (h : p.addMethod r = .ok q) :
    q.classes = p.classes := by
  unfold addMethod at h
  split at h
  · cases h
  · split at h
    · cases h
    · dsimp only at h
      split at h
      · cases h
      · obtain ⟨graph, -, rfl⟩ := Except.map_eq_ok.1 h
        rfl

/-- The declaration of methods leaves the classes as they are. -/
theorem classes_of_addMethods {rs : List MethodRecord} (h : addMethods p rs = .ok q) :
    q.classes = p.classes :=
  keeps_of_addMethods (motive := fun q => q.classes = p.classes)
    (fun _ _ _ hq hp => (classes_of_addMethod hq).trans hp) h rfl

theorem acyclic_ofMethods (methods : List MethodRecord) : (ofMethods methods).Acyclic := by
  refine acyclic_of_rank (fun name => if name = objectClass then 0 else 1) ?_
  unfold ofMethods
  split
  · rename_i p hp
    have hclasses : p.classes
        = [{ name := objectClass }, { name := "t/A", superclass := some objectClass }] :=
      classes_of_addMethods hp
    rw [hclasses]
    decide
  · decide

end Program

end InlinePlan
