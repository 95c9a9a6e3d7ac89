import InlinePlan.Proofs.Program.Naming
import InlinePlan.Proofs.Program.Subtype
import Mathlib.Data.List.Nodup

set_option autoImplicit false

/-! # Targets of virtual calls

A virtual or interface call reaches what its possible receivers see under its name and descriptor: for
every class that can be instantiated and is assignable to the class of the reference, the first such
method on the way up its superclasses (`Sees`), unless that is static or abstract. Looking methods up
by the text of their identity finds just these, since no two declarations have one identity and an
identity gives back class, name and descriptor (`lookup_eq_found_iff`). Classes are taken in the order
of declaration, and a method is listed where it is found first (`virtual_targets`). -/

namespace InlinePlan

/-! ## Identities -/

theorem List.append_cons_inj_right {α : Type} {a : α} {l l' r r' : List α} (hr : a ∉ r) (hr' : a ∉ r')
    (h : l ++ a :: r = l' ++ a :: r') : l = l' ∧ r = r' := by
  rcases List.append_eq_append_iff.1 h with ⟨m, rfl, heq⟩ | ⟨m, rfl, heq⟩
  all_goals
    cases m with
    | nil => simpa [eq_comm] using heq
    | cons b m =>
      simp only [List.cons_append, List.cons.injEq] at heq
      obtain ⟨rfl, rfl⟩ := heq
      simp at hr hr'

/-- A name that a method can have: there is neither a parenthesis nor a point in it. -/
structure MemberName (name : String) : Prop where
  plain : PlainName name
  undotted : '.' ∉ name.toList

instance (name : String) : Decidable (MemberName name) :=
  decidable_of_iff (PlainName name ∧ '.' ∉ name.toList) ⟨fun h => ⟨h.1, h.2⟩, fun h => ⟨h.1, h.2⟩⟩

/-- An identity gives back class, name and descriptor, where the descriptor is known to be one or at
    least has nothing in front of its parameters. -/
theorem MethodId.of_inj {cls cls' name name' desc desc' : String} {sig' : Signature}
    (hcls : PlainName cls) (hname : MemberName name)
    (hdesc : '(' ∈ desc.toList → desc.toList.head? = some '(')
    (hcls' : PlainName cls') (hname' : MemberName name') (hdesc' : Signature.parse desc' = .ok sig')
    (h : MethodId.of cls name desc = MethodId.of cls' name' desc') :
    cls = cls' ∧ name = name' ∧ desc = desc' := by
  obtain ⟨rest', hrest'⟩ := Signature.head_of_parse hdesc'
  have htext := congrArg String.toList h
  rw [toList_of, toList_of] at htext
  have hmem : '(' ∈ desc.toList := by
    have hmem' : '(' ∈ (cls.toList ++ '.' :: name.toList) ++ desc.toList := by simp [htext, hrest']
    rcases List.mem_append.1 hmem' with hmem' | hmem'
    · rcases List.mem_append.1 hmem' with hmem' | hmem'
      · exact absurd hmem' hcls
      · exact absurd ((List.mem_cons.1 hmem').resolve_left (by decide)) hname.plain
    · exact hmem'
  obtain ⟨rest, hrest⟩ := List.head?_eq_some_iff.1 (hdesc hmem)
  have hdrop := dropWhile_toList_of hcls hname.plain hrest
  rw [h, dropWhile_toList_of hcls' hname'.plain hrest'] at hdrop
  rw [hdrop, List.append_cancel_right_eq] at htext
  obtain ⟨hcls, hname⟩ := List.append_cons_inj_right hname.undotted hname'.undotted htext
  exact ⟨String.toList_inj.1 hcls, String.toList_inj.1 hname, (String.toList_inj.1 hdrop).symm⟩

/-! ## References -/

/-- A resolved reference to a method, whose descriptor has nothing in front of its parameters. -/
structure SymbolRef.NamesMethod (r : SymbolRef) : Prop where
  kind : r.kind = .method
  resolved : r.unresolved = false
  name : MemberName r.name
  descriptor : '(' ∈ r.descriptor.toList → r.descriptor.toList.head? = some '('

/-- The references of calls are split at their first parenthesis and at the last point before it. -/
theorem namesMethod_of_readMethodRef {operand : List Char} {r : SymbolRef}
    (h : readMethodRef operand = .ok r) (hresolved : r.unresolved = false) : r.NamesMethod := by
  have hplain := plain_of_readMethodRef h
  obtain ⟨cls, name, rest, -, -, hname, rfl⟩ := readMethodRef_eq_ok h
  exact ⟨rfl, hresolved, ⟨hplain.name, by simpa using hname⟩, fun _ => by simp⟩

namespace Program

variable {p q : Program} {m m' : Method} {name descriptor cls super : String} {r : SymbolRef}

/-! ## Declarations -/

/-- What loading makes sure of about the declarations as a whole: classes have names, and neither a
    class nor a method is declared twice. -/
structure Distinct (p : Program) : Prop where
  named : ∀ c ∈ p.classes, c.name ≠ ""
  classes : (p.classes.map (·.name)).Nodup
  ids : p.ids.Nodup

theorem ne_of_class? {c : ClassDecl} (h : p.class? name = none) (hc : c ∈ p.classes) : c.name ≠ name := by
  simpa using List.find?_eq_none.1 h c hc

theorem distinct_of_addClass {record : ClassRecord} (h : p.addClass record = .ok q) (hp : p.Distinct) :
    q.Distinct := by
  unfold addClass at h
  split at h
  · cases h
  · rename_i hname
    split at h
    · cases h
    · rename_i hfresh
      cases h
      rw [Bool.not_eq_true, Option.isSome_eq_false_iff, Option.isNone_iff_eq_none] at hfresh
      refine ⟨fun c hc => ?_, ?_, hp.ids⟩
      · rcases List.mem_append.1 hc with hc | hc
        · exact hp.named c hc
        · exact List.mem_singleton.1 hc ▸ hname
      · rw [List.map_append, List.nodup_append]
        refine ⟨hp.classes, List.nodup_singleton _, ?_⟩
        rintro _ hc _ hc' rfl
        obtain ⟨c, hc, hcname⟩ := List.mem_map.1 hc
        exact ne_of_class? hfresh hc (hcname.trans (List.mem_singleton.1 hc'))

theorem distinct_of_addMethod {record : MethodRecord} (h : p.addMethod record = .ok q)
    (hp : p.Distinct) : q.Distinct := by
  obtain ⟨e, rfl, -, hfresh⟩ := addMethod_ok h
  refine ⟨hp.named, hp.classes, ?_⟩
  rw [ids, List.map_append, List.nodup_append]
  refine ⟨hp.ids, List.nodup_singleton _, ?_⟩
  rintro _ hid _ hid' rfl
  obtain ⟨e', he', hid⟩ := List.mem_map.1 hid
  rw [method?, Option.map_eq_none_iff, declared?, List.find?_eq_none] at hfresh
  exact hfresh e' he' (by simpa using hid.trans (List.mem_singleton.1 hid'))

theorem distinct_of_ofRecord {record : ProgramRecord} (h : ofRecord record = .ok p) :
    p.Distinct := by
  obtain ⟨p', hclasses, hmethods⟩ := Except.bind_eq_ok.1 h
  refine keeps_of_addMethods (fun _ _ _ => distinct_of_addMethod) hmethods ?_
  refine keeps_of_addClasses (fun _ _ _ => distinct_of_addClass) hclasses ⟨?_, ?_, ?_⟩
  · decide
  · decide
  · exact List.nodup_nil

/-- A method declared in a class under a name and a descriptor. -/
structure Defines (p : Program) (cls name descriptor : String) (m : Method) : Prop where
  declared : ∃ e ∈ p.methods, e.method = m
  cls : m.cls = cls
  name : m.name = name
  descriptor : m.descriptor = descriptor

/-- The first method with a name and a descriptor on the way from a class up its superclasses. -/
inductive Sees (p : Program) (name descriptor : String) : String → Method → Prop where
  | own {cls : String} {m : Method} : p.Defines cls name descriptor m → Sees p name descriptor cls m
  | inherited {cls super : String} {m : Method} : (∀ m', ¬p.Defines cls name descriptor m') →
    p.Extends cls super → Sees p name descriptor super m → Sees p name descriptor cls m

/-- A class that can be instantiated and that the reference covers sees the method under the name and
    the descriptor of the reference, and a call can be dispatched to it. -/
structure Provides (p : Program) (r : SymbolRef) (c : ClassDecl) (m : Method) : Prop where
  instantiable : c.isInterface = false
  covered : r.cls = objectClass ∨ p.Reaches c.name r.cls
  sees : p.Sees r.name r.descriptor c.name m
  dispatched : m.isStatic = false ∧ m.isAbstract = false

/-! ## Look-ups -/

/-- A program in which identities can be told apart: it declares nothing twice, and no name runs into
    what stands next to it. -/
structure Separable (p : Program) : Prop where
  distinct : p.Distinct
  holds : ∀ e ∈ p.methods, p.Holds e
  plain : p.PlainNames
  members : ∀ e ∈ p.methods, MemberName e.method.name

theorem method?_of_mem (hids : p.ids.Nodup) {e : MethodEntry} (he : e ∈ p.methods) :
    p.method? e.method.id = some e.method := by
  cases hfind : p.declared? e.method.id with
  | none => exact absurd (List.find?_eq_none.1 hfind e he) (by simp)
  | some e' =>
    obtain ⟨hmem, hid⟩ := declared?_spec hfind
    rw [method?, hfind, List.inj_on_of_nodup_map hids hmem he hid]
    rfl

/-- What an identity picks is the method declared in that class under that name and descriptor. -/
theorem Separable.method?_eq_some_iff (hp : p.Separable) (hcls : PlainName cls) (hname : MemberName name)
    (hdesc : '(' ∈ descriptor.toList → descriptor.toList.head? = some '(') :
    p.method? (MethodId.of cls name descriptor) = some m ↔ p.Defines cls name descriptor m := by
  constructor
  · intro h
    obtain ⟨e, he, rfl⟩ := Option.map_eq_some_iff.1 h
    obtain ⟨hmem, hid⟩ := declared?_spec he
    have hold := hp.holds e hmem
    obtain ⟨c, hc, hcname⟩ := hold.cls
    rw [hold.id_eq] at hid
    obtain ⟨hcls, hname, hdesc⟩ := MethodId.of_inj hcls hname hdesc
      (hcname ▸ hp.plain.classes c hc) (hp.members e hmem) hold.signature hid.symm
    exact ⟨⟨e, hmem, rfl⟩, hcls.symm, hname.symm, hdesc.symm⟩
  · rintro ⟨⟨e, he, rfl⟩, rfl, rfl, rfl⟩
    rw [← (hp.holds e he).id_eq]
    exact method?_of_mem hp.distinct.ids he

/-- No class is nameless, so there is nothing to see from one. -/
theorem Separable.not_sees_nameless (hp : p.Separable) : ¬p.Sees name descriptor "" m := by
  rintro (⟨⟨e, he, rfl⟩, hcls, -, -⟩ | ⟨-, ⟨c, hc, -⟩, -⟩)
  · obtain ⟨c, hc, hcname⟩ := (hp.holds e he).cls
    exact hp.distinct.named c hc (hcname.trans hcls)
  · exact hp.distinct.named c (List.mem_of_find?_eq_some hc) (by simpa using List.find?_some hc)

/-- A class without the method sees what its superclass sees. -/
theorem sees_iff_of_extends (hlacks : ∀ m', ¬p.Defines cls name descriptor m')
    (hsuper : p.Extends cls super) :
    p.Sees name descriptor cls m ↔ p.Sees name descriptor super m := by
  refine ⟨?_, .inherited hlacks hsuper⟩
  rintro (hown | ⟨-, ⟨c, hc, hcsuper⟩, hsees⟩)
  · exact absurd hown (hlacks m)
  · obtain ⟨c', hc', hcsuper'⟩ := hsuper
    cases hc.symm.trans hc'
    cases hcsuper.symm.trans hcsuper'
    exact hsees

/-- A walk up the superclasses that ends finds what the class sees. -/
theorem Separable.lookupWithin_eq_found_iff (hp : p.Separable) (hcls : PlainName cls)
    (hname : MemberName name) (hdesc : '(' ∈ descriptor.toList → descriptor.toList.head? = some '(')
    {steps : Nat} (h : p.lookupWithin name descriptor steps cls ≠ .endless) :
    p.lookupWithin name descriptor steps cls = .found m ↔ p.Sees name descriptor cls m := by
  induction steps generalizing cls with
  | zero => exact absurd rfl h
  | succ steps ih =>
    have hmethod (m : Method) := hp.method?_eq_some_iff hcls hname hdesc (m := m)
    unfold lookupWithin at h ⊢
    split at h
    case isTrue hnameless =>
      rw [if_pos hnameless]
      exact iff_of_false (by simp) (hnameless ▸ hp.not_sees_nameless)
    case isFalse hnamed =>
      rw [if_neg hnamed]
      split at h
      · rename_i m' hm'
        have hown := (hmethod m').1 hm'
        constructor
        · rintro ⟨⟩
          exact .own hown
        · rintro (hother | ⟨hlacks, -, -⟩)
          · cases hm'.symm.trans ((hmethod m).2 hother)
            rfl
          · exact absurd hown (hlacks m')
      · rename_i hm'
        have hlacks (m' : Method) : ¬p.Defines cls name descriptor m' := fun hown => by
          cases hm'.symm.trans ((hmethod m').2 hown)
        have hstop (hsuper : ∀ super, ¬p.Extends cls super) : ¬p.Sees name descriptor cls m := by
          rintro (hown | ⟨-, hext, -⟩)
          · exact hlacks m hown
          · exact hsuper _ hext
        split at h
        · rename_i hc
          refine iff_of_false (by simp) (hstop fun super hext => ?_)
          obtain ⟨c, hc', -⟩ := hext
          cases hc.symm.trans hc'
        · rename_i c hc
          split at h
          · rename_i hsuper
            refine iff_of_false (by simp) (hstop fun super hext => ?_)
            obtain ⟨c', hc', hsuper'⟩ := hext
            cases hc.symm.trans hc'
            cases hsuper.symm.trans hsuper'
          · rename_i super hsuper
            have hplain := hp.plain.supers c (List.mem_of_find?_eq_some hc) super hsuper
            exact (ih hplain h).trans (sees_iff_of_extends hlacks ⟨c, hc, hsuper⟩).symm

theorem Separable.lookup_eq_found_iff (hp : p.Separable) (hacyclic : p.Acyclic) (hcls : PlainName cls)
    (hname : MemberName name) (hdesc : '(' ∈ descriptor.toList → descriptor.toList.head? = some '(') :
    p.lookup cls name descriptor = .found m ↔ p.Sees name descriptor cls m :=
  hp.lookupWithin_eq_found_iff hcls hname hdesc hacyclic.lookup_ne_endless

/-! ## Listing -/

variable {ls : List Lookup} {seen : List MethodId} {ms : List Method}

/-- All that the look-ups found and a call can be dispatched to comes out, if no two methods have one
    identity. -/
theorem mem_dispatchable (h : dispatchable ls seen = some ms)
    (hids : ∀ m, .found m ∈ ls → ∀ m', .found m' ∈ ls → m.id = m'.id → m = m')
    (hm : .found m ∈ ls) (hdispatched : m.isStatic = false ∧ m.isAbstract = false)
    (hseen : m.id ∉ seen) : m ∈ ms := by
  fun_induction dispatchable ls seen generalizing ms with
  | case1 seen => cases hm
  | case2 => cases h
  | case3 ls seen ih =>
    have hids' := fun m hm m' hm' => hids m (List.mem_cons_of_mem _ hm) m' (List.mem_cons_of_mem _ hm')
    exact ih h hids' ((List.mem_cons.1 hm).resolve_left (by simp)) hseen
  | case4 x ls seen hskip ih =>
    have hids' := fun m hm m' hm' => hids m (List.mem_cons_of_mem _ hm) m' (List.mem_cons_of_mem _ hm')
    rcases List.mem_cons.1 hm with heq | hm
    · cases heq
      simp [hdispatched, hseen] at hskip
    · exact ih h hids' hm hseen
  | case5 x ls seen _ ih =>
    obtain ⟨others, hothers, rfl⟩ := Option.map_eq_some_iff.1 h
    have hids' := fun m hm m' hm' => hids m (List.mem_cons_of_mem _ hm) m' (List.mem_cons_of_mem _ hm')
    by_cases hid : m.id = x.id
    · exact hids m hm x List.mem_cons_self hid ▸ List.mem_cons_self
    · have hm : .found m ∈ ls := (List.mem_cons.1 hm).resolve_left fun heq => by
        cases heq
        exact hid rfl
      exact List.mem_cons_of_mem _ (ih hothers hids' hm (mt List.mem_cons.1 (not_or.2 ⟨hid, hseen⟩)))

theorem nodup_dispatchable (h : dispatchable ls seen = some ms) : ms.Nodup := by
  fun_induction dispatchable ls seen generalizing ms with
  | case1 seen =>
    cases h
    exact List.nodup_nil
  | case2 => cases h
  | case3 ls seen ih | case4 m' ls seen _ ih => exact ih h
  | case5 m' ls seen _ ih =>
    obtain ⟨others, hothers, rfl⟩ := Option.map_eq_some_iff.1 h
    refine List.nodup_cons.2 ⟨fun hmem => ?_, ih hothers⟩
    exact (dispatched_of_mem hothers hmem).2.2.2 List.mem_cons_self

/-- One method was found before the first time that the other was. -/
def FoundBefore (ls : List Lookup) (m m' : Method) : Prop :=
  ∀ before after, ls = before ++ .found m' :: after → .found m ∈ before

theorem FoundBefore.cons {l : Lookup} (h : FoundBefore ls m m') (hne : l ≠ .found m') :
    FoundBefore (l :: ls) m m' := by
  intro before after heq
  rcases List.cons_eq_append_iff.1 heq with ⟨-, heq⟩ | ⟨before', rfl, hls⟩
  · cases heq
    exact absurd rfl hne
  · exact List.mem_cons_of_mem _ (h before' after hls)

theorem foundBefore_of_head (hne : m ≠ m') : FoundBefore (.found m :: ls) m m' := by
  intro before after heq
  rcases List.cons_eq_append_iff.1 heq with ⟨-, heq⟩ | ⟨before', rfl, -⟩
  · cases heq
    exact absurd rfl hne
  · exact List.mem_cons_self

/-- Methods come in the order in which they are found first. -/
theorem pairwise_dispatchable (h : dispatchable ls seen = some ms) : ms.Pairwise (FoundBefore ls) := by
  fun_induction dispatchable ls seen generalizing ms with
  | case1 seen =>
    cases h
    exact .nil
  | case2 => cases h
  | case3 ls seen ih => exact (ih h).imp fun hbefore => hbefore.cons (by simp)
  | case4 x ls seen hskip ih =>
    refine (ih h).imp_of_mem fun _ hm' hbefore => hbefore.cons fun heq => ?_
    obtain ⟨-, habstract, hstatic, hseen⟩ := dispatched_of_mem h hm'
    cases heq
    simp [habstract, hstatic, hseen] at hskip
  | case5 x ls seen _ ih =>
    obtain ⟨others, hothers, rfl⟩ := Option.map_eq_some_iff.1 h
    have hother : ∀ m' ∈ others, x ≠ m' := fun m' hm' heq =>
      (dispatched_of_mem hothers hm').2.2.2 (heq ▸ List.mem_cons_self)
    refine List.pairwise_cons.2 ⟨fun m' hm' => foundBefore_of_head (hother m' hm'), ?_⟩
    exact (ih hothers).imp_of_mem fun _ hm' hbefore => hbefore.cons fun heq =>
      hother _ hm' (Lookup.found.inj heq)

/-! ## Receivers -/

/-- Whether a class can be instantiated and is assignable to the class of the reference. -/
def isReceiver (p : Program) (r : SymbolRef) (c : ClassDecl) : Bool :=
  !c.isInterface && p.isSubtype c.name r.cls == .yes

theorem isReceiver_iff {c : ClassDecl} (hc : isArrayName c.name = false) :
    p.isReceiver r c ↔ c.isInterface = false ∧ (r.cls = objectClass ∨ p.Reaches c.name r.cls) := by
  rw [isReceiver, Bool.and_eq_true, Bool.not_eq_true', beq_iff_eq]
  refine and_congr_right fun _ => ?_
  by_cases hobject : r.cls = objectClass
  · simp [isSubtype, hobject]
  · rw [isSubtype_eq_iff hc hobject, Settles, leads_singleton, or_iff_right hobject]

theorem resolve_eq_dispatchable (hr : r.NamesMethod) {kind : InvokeKind}
    (hkind : kind = .virtualCall ∨ kind = .interfaceCall) :
    p.resolve kind (some r)
      = dispatchable ((p.classes.filter (p.isReceiver r)).map
          fun c => p.lookup c.name r.name r.descriptor) [] := by
  have hresolved : ¬(r.kind ≠ .method ∨ r.unresolved = true) := by simp [hr.kind, hr.resolved]
  rcases hkind with rfl | rfl <;> exact if_neg hresolved

/-- What receivers are found to see is what they provide. -/
theorem Separable.provides_iff (hp : p.Separable) (hacyclic : p.Acyclic)
    (harrays : ∀ c ∈ p.classes, isArrayName c.name = false) (hr : r.NamesMethod) {c : ClassDecl}
    (hc : c ∈ p.classes) :
    p.Provides r c m ↔ p.isReceiver r c ∧ p.lookup c.name r.name r.descriptor = .found m
      ∧ m.isStatic = false ∧ m.isAbstract = false := by
  rw [isReceiver_iff (harrays c hc), hp.lookup_eq_found_iff hacyclic (hp.plain.classes c hc) hr.name
    hr.descriptor]
  exact ⟨fun ⟨hclass, hcovered, hsees, hm⟩ => ⟨⟨hclass, hcovered⟩, hsees, hm⟩,
    fun ⟨⟨hclass, hcovered⟩, hsees, hm⟩ => ⟨hclass, hcovered, hsees, hm⟩⟩

end Program

/-- A virtual or interface call of a program in which no class is its own ancestor reaches exactly the
    methods that some class provides: the class can be instantiated, is the one of the reference or
    leads to it over superclasses and interfaces (or the reference is to the root class), and the
    method is the first one with the name and the descriptor on the way up its superclasses, and
    neither static nor abstract. Each method is listed once, where the first class that provides it is
    declared. -/
theorem virtual_targets {record : ProgramRecord} {p : Program}
    (hload : Program.ofRecord record = .ok p) (hacyclic : p.Acyclic) (hplain : p.PlainNames)
    (hmembers : ∀ e ∈ p.methods, MemberName e.method.name)
    (harrays : ∀ c ∈ p.classes, Program.isArrayName c.name = false) {r : SymbolRef} (hr : r.NamesMethod)
    {kind : InvokeKind} (hkind : kind = .virtualCall ∨ kind = .interfaceCall) :
    ∃ ms, p.resolve kind (some r) = some ms
      ∧ (∀ m, m ∈ ms ↔ ∃ c ∈ p.classes, p.Provides r c m)
      ∧ ms.Nodup
      ∧ ms.Pairwise fun m m' => ∀ before c after, p.classes = before ++ c :: after →
          p.Provides r c m' → ∃ d ∈ before, p.Provides r d m := by
  have hp : p.Separable :=
    ⟨Program.distinct_of_ofRecord hload, Program.holds_of_ofRecord hload, hplain, hmembers⟩
  have hprovides {c : ClassDecl} {m : Method} (hc : c ∈ p.classes) :=
    hp.provides_iff hacyclic harrays hr hc (m := m)
  obtain ⟨ms, hms⟩ := Option.ne_none_iff_exists'.1 (hacyclic.resolve_ne_none kind (some r))
  have hlist := hms
  rw [Program.resolve_eq_dispatchable hr hkind] at hlist
  refine ⟨ms, hms, fun m => ⟨fun hm => ?_, fun ⟨c, hc, hcm⟩ => ?_⟩,
    Program.nodup_dispatchable hlist, ?_⟩
  · obtain ⟨hfound, habstract, hstatic, -⟩ := Program.dispatched_of_mem hlist hm
    obtain ⟨c, hc, hlookup⟩ := List.mem_map.1 hfound
    obtain ⟨hc, hreceiver⟩ := List.mem_filter.1 hc
    exact ⟨c, hc, (hprovides hc).2 ⟨hreceiver, hlookup, hstatic, habstract⟩⟩
  · obtain ⟨hreceiver, hlookup, hm⟩ := (hprovides hc).1 hcm
    refine Program.mem_dispatchable hlist (fun m₁ hm₁ m₂ hm₂ hid => ?_)
      (List.mem_map.2 ⟨c, List.mem_filter.2 ⟨hc, hreceiver⟩, hlookup⟩) hm List.not_mem_nil
    obtain ⟨c₁, -, h₁⟩ := List.mem_map.1 hm₁
    obtain ⟨c₂, -, h₂⟩ := List.mem_map.1 hm₂
    exact (Program.declares_of_lookupWithin h₁).unique (Program.declares_of_lookupWithin h₂) hid
  · refine (Program.pairwise_dispatchable hlist).imp_of_mem fun {m m'} hm _ hbefore => ?_
    intro before c after hclasses hcm'
    have hc : c ∈ p.classes := hclasses ▸ List.mem_append_right _ List.mem_cons_self
    obtain ⟨hreceiver, hlookup, -⟩ := (hprovides hc).1 hcm'
    have hfound := hbefore _ _ (by
      rw [hclasses, List.filter_append, List.filter_cons_of_pos hreceiver, List.map_append,
        List.map_cons, hlookup])
    obtain ⟨d, hd, hdlookup⟩ := List.mem_map.1 hfound
    obtain ⟨hd, hdreceiver⟩ := List.mem_filter.1 hd
    obtain ⟨-, habstract, hstatic, -⟩ := Program.dispatched_of_mem hlist hm
    exact ⟨d, hd, (hprovides (hclasses ▸ List.mem_append_left _ hd)).2
      ⟨hdreceiver, hdlookup, hstatic, habstract⟩⟩

/-- An interface with an abstract class below it. Of the classes that extend that one, the second has
    the method, the first inherits it, and the third hides it with a static one. -/
def kinship : ProgramRecord where
  classes := [{ name := "t/I", isInterface := true }, { name := "t/A", interfaces := ["t/I"] },
    { name := "t/D", super := "t/B" }, { name := "t/B", super := "t/A" },
    { name := "t/C", super := "t/A" }]
  methods := [{ cls := "t/A", name := "f", descriptor := "()V", isAbstract := true },
    { cls := "t/B", name := "f", descriptor := "()V" },
    { cls := "t/C", name := "f", descriptor := "()V", isStatic := true }]

/-- The method of the second class. -/
def kinsman : Method where
  id := "t/B.f()V"
  cls := "t/B"
  name := "f"
  descriptor := "()V"
  maxLocals := 1

/-- Two receivers see the method, and it is listed once. -/
theorem virtual_targets_kinship : ∃ p ms, Program.ofRecord kinship = .ok p ∧ p.Acyclic
    ∧ p.PlainNames ∧ (∀ e ∈ p.methods, MemberName e.method.name)
    ∧ (∀ c ∈ p.classes, Program.isArrayName c.name = false)
    ∧ p.resolve .interfaceCall
        (some { kind := .method, cls := "t/I", name := "f", descriptor := "()V" }) = some ms
    ∧ kinsman ∈ ms ∧ ms.Nodup := by
  have hview : (Program.ofRecord kinship).toOption.map
      (fun p => (p.classes, p.methods.map (·.method)))
      = some
        ([{ name := objectClass }, { name := "t/I", isInterface := true },
          { name := "t/A", superclass := some objectClass, interfaces := ["t/I"] },
          { name := "t/D", superclass := some "t/B" }, { name := "t/B", superclass := some "t/A" },
          { name := "t/C", superclass := some "t/A" }],
        [{ kinsman with id := "t/A.f()V", cls := "t/A", isAbstract := true }, kinsman,
          { kinsman with id := "t/C.f()V", cls := "t/C", isStatic := true, maxLocals := 0 }]) := by
    decide +kernel
  cases hload : Program.ofRecord kinship with
  | error e =>
    rw [hload] at hview
    cases hview
  | ok p =>
    rw [hload] at hview
    obtain ⟨hclasses, hmethods⟩ := Prod.mk.inj (Option.some.inj hview)
    have hmember : ∀ e ∈ p.methods, MemberName e.method.name := by
      have h : ∀ m ∈ p.methods.map (·.method), MemberName m.name := by
        rw [hmethods]
        decide
      exact fun e he => h _ (List.mem_map_of_mem he)
    have hplain : p.PlainNames :=
      ⟨by rw [hclasses]; decide, by rw [hclasses]; decide, fun e he => (hmember e he).plain⟩
    have hacyclic : p.Acyclic := by
      refine Program.acyclic_of_rank
        (fun name => [objectClass, "t/A", "t/B", "t/C", "t/D"].idxOf name) ?_
      rw [hclasses]
      decide
    have harrays : ∀ c ∈ p.classes, Program.isArrayName c.name = false := by
      rw [hclasses]
      decide
    have hr : SymbolRef.NamesMethod { kind := .method, cls := "t/I", name := "f", descriptor := "()V" } :=
      ⟨rfl, rfl, by decide, by decide⟩
    obtain ⟨ms, hms, hmem, hnodup, -⟩ :=
      virtual_targets hload hacyclic hplain hmember harrays hr (.inr rfl)
    have hlink (name parent : String) (c : ClassDecl) (hc : p.classes.find? (·.name = name) = some c)
        (hparent : parent ∈ c.parents) : p.Links name parent := ⟨c, hc, hparent⟩
    have hreaches : p.Reaches "t/B" "t/I" :=
      .head (b := "t/A") (hlink _ _ { name := "t/B", superclass := some "t/A" }
          (by rw [hclasses]; decide) (by decide))
        (.single (hlink _ _ { name := "t/A", superclass := some objectClass, interfaces := ["t/I"] }
          (by rw [hclasses]; decide) (by decide)))
    have hdeclared : ∃ e ∈ p.methods, e.method = kinsman := by
      have h : kinsman ∈ p.methods.map (·.method) := by
        rw [hmethods]
        exact List.mem_cons_of_mem _ List.mem_cons_self
      exact List.mem_map.1 h
    refine ⟨p, ms, rfl, hacyclic, hplain, hmember, harrays, hms, (hmem kinsman).2 ?_, hnodup⟩
    exact ⟨{ name := "t/B", superclass := some "t/A" }, by rw [hclasses]; decide,
      rfl, .inr hreaches, .own ⟨hdeclared, rfl, rfl, rfl⟩, rfl, rfl⟩

end InlinePlan
