import InlinePlan.Program.Document
import Mathlib.Algebra.Order.BigOperators.Group.List
import Mathlib.Algebra.Order.Ring.Nat
import Mathlib.Logic.Relation

set_option autoImplicit false

/-! # Subtypes

Whether one class is assignable to another is decided by a search from the first over the links from
declared classes to their parents. The search keeps account of the classes it has gone through, so it
ends although links may form cycles (`exists_searches`), and what it has gone through hides nothing
from it: whatever lies behind is met again from the names that are still to be looked at
(`Explored.leads`). Hence the answer is reachability in the declared hierarchy, left open only by
classes that are not declared (`isSubtype_decides`). -/

namespace InlinePlan

namespace Program

variable {p : Program} {name parent target : String} {work seen : List String} {complete : Bool}

/-! ## Reachability -/

/-- A declared class and one of its parents. -/
def Links (p : Program) (name parent : String) : Prop :=
  ∃ c, p.class? name = some c ∧ parent ∈ c.parents

/-- One name leads to another over any number of links. -/
abbrev Reaches (p : Program) : String → String → Prop := Relation.ReflTransGen p.Links

/-- The class is declared. -/
def HasClass (p : Program) (name : String) : Prop := (p.class? name).isSome

theorem hasClass_of_class? {c : ClassDecl} (hc : p.class? name = some c) : p.HasClass name :=
  Option.isSome_iff_exists.2 ⟨c, hc⟩

theorem Links.hasClass (h : p.Links name parent) : p.HasClass name := by
  obtain ⟨c, hc, -⟩ := h
  exact hasClass_of_class? hc

theorem links_iff {c : ClassDecl} (hc : p.class? name = some c) :
    p.Links name parent ↔ parent ∈ c.parents :=
  ⟨fun ⟨_, hc', hmem⟩ => Option.some.inj (hc.symm.trans hc') ▸ hmem, fun hmem => ⟨c, hc, hmem⟩⟩

/-- One of the names leads to another one. -/
def Leads (p : Program) (work : List String) (name : String) : Prop := ∃ w ∈ work, p.Reaches w name

@[simp] theorem leads_nil : ¬p.Leads [] name := fun ⟨_, hw, _⟩ => nomatch hw

theorem leads_cons {other : String} :
    p.Leads (name :: work) other ↔ p.Reaches name other ∨ p.Leads work other := by
  simp [Leads]

/-- A declared class leads to itself and to what its parents lead to. -/
theorem reaches_iff {c : ClassDecl} (hc : p.class? name = some c) {other : String} :
    p.Reaches name other ↔ name = other ∨ p.Leads c.parents other := by
  refine Relation.ReflTransGen.cases_head_iff.trans ?_
  exact or_congr_right (exists_congr fun _ => and_congr_left' (links_iff hc))

/-- A class that is not declared leads to itself only. -/
theorem eq_of_reaches {other : String} (hname : ¬p.HasClass name) (h : p.Reaches name other) :
    name = other := by
  rcases h.cases_head with h | ⟨_, hlink, -⟩
  · exact h
  · exact absurd hlink.hasClass hname

/-! ## What a search has gone through -/

/-- What is known of the names a search has gone through: they are declared classes other than the
    target, and their parents have been gone through, or are still to be looked at, or are not
    declared and known to be missing. -/
structure Explored (p : Program) (target : String) (work seen : List String) (complete : Bool) :
    Prop where
  target_notMem : target ∉ seen
  hasClass : ∀ name ∈ seen, p.HasClass name
  parents : ∀ name ∈ seen, ∀ parent, p.Links name parent →
    parent ∈ seen ∨ parent ∈ work ∨ (parent ≠ target ∧ ¬p.HasClass parent ∧ complete = false)

theorem explored_nil : p.Explored target work [] complete :=
  ⟨List.not_mem_nil, nofun, nofun⟩

/-- Nothing that lies behind the names gone through is hidden: they lead to one another, to what the
    other names lead to, and to classes known to be missing. -/
theorem Explored.leads (h : p.Explored target work seen complete) {other : String} (hname : name ∈ seen)
    (hreach : p.Reaches name other) :
    other ∈ seen ∨ p.Leads work other
      ∨ (other ≠ target ∧ ¬p.HasClass other ∧ complete = false) := by
  induction hreach with
  | refl => exact .inl hname
  | tail _ hlink ih =>
    rcases ih with hseen | ⟨w, hw, hreach⟩ | ⟨-, hmissing, -⟩
    · exact (h.parents _ hseen _ hlink).imp_right (.imp_left fun hmem => ⟨_, hmem, .refl⟩)
    · exact .inr (.inl ⟨w, hw, hreach.tail hlink⟩)
    · exact absurd hlink.hasClass hmissing

theorem Explored.again (h : p.Explored target (name :: work) seen complete) (hname : name ∈ seen) :
    p.Explored target work seen complete := by
  refine ⟨h.target_notMem, h.hasClass, fun n hn parent hlink => ?_⟩
  rcases h.parents n hn parent hlink with hseen | hwork | hmissing
  · exact .inl hseen
  · rcases List.mem_cons.1 hwork with rfl | hwork
    · exact .inl hname
    · exact .inr (.inl hwork)
  · exact .inr (.inr hmissing)

theorem Explored.undeclared (h : p.Explored target (name :: work) seen complete)
    (htarget : name ≠ target) (hname : ¬p.HasClass name) : p.Explored target work seen false := by
  refine ⟨h.target_notMem, h.hasClass, fun n hn parent hlink => ?_⟩
  rcases h.parents n hn parent hlink with hseen | hwork | ⟨hne, hmissing, -⟩
  · exact .inl hseen
  · rcases List.mem_cons.1 hwork with rfl | hwork
    · exact .inr (.inr ⟨htarget, hname, rfl⟩)
    · exact .inr (.inl hwork)
  · exact .inr (.inr ⟨hne, hmissing, rfl⟩)

theorem Explored.declared (h : p.Explored target (name :: work) seen complete)
    (htarget : name ≠ target) {c : ClassDecl} (hc : p.class? name = some c) :
    p.Explored target (c.parents ++ work) (name :: seen) complete := by
  refine ⟨?_, ?_, ?_⟩
  · exact fun hmem => (List.mem_cons.1 hmem).elim (Ne.symm htarget) h.target_notMem
  · exact List.forall_mem_cons.2 ⟨hasClass_of_class? hc, h.hasClass⟩
  · refine List.forall_mem_cons.2 ⟨fun parent hlink => ?_, fun n hn parent hlink => ?_⟩
    · exact .inr (.inl (List.mem_append_left _ ((links_iff hc).1 hlink)))
    · rcases h.parents n hn parent hlink with hseen | hwork | hmissing
      · exact .inl (List.mem_cons_of_mem _ hseen)
      · rcases List.mem_cons.1 hwork with rfl | hwork
        · exact .inl List.mem_cons_self
        · exact .inr (.inl (List.mem_append_right _ hwork))
      · exact .inr (.inr hmissing)

/-! ## The answer -/

/-- A class that is not declared has been met or will be. -/
def Open (p : Program) (work : List String) (complete : Bool) : Prop :=
  complete = false ∨ ∃ other, p.Leads work other ∧ ¬p.HasClass other

/-- The answer that the hierarchy gives about a target and the names to start from. -/
def Settles (p : Program) (target : String) (work : List String) (complete : Bool) :
    Tristate → Prop
  | .yes => p.Leads work target
  | .no => ¬p.Leads work target ∧ ¬p.Open work complete
  | .maybe => ¬p.Leads work target ∧ p.Open work complete

theorem Settles.congr {work' : List String} {complete' : Bool} {answer : Tristate}
    (hleads : p.Leads work target ↔ p.Leads work' target)
    (hopen : p.Open work complete ↔ p.Open work' complete')
    (h : p.Settles target work' complete' answer) : p.Settles target work complete answer := by
  cases answer with
  | yes => exact hleads.2 h
  | no => exact ⟨mt hleads.1 h.1, mt hopen.1 h.2⟩
  | maybe => exact ⟨mt hleads.1 h.1, hopen.2 h.2⟩

/-- The search gives the answer of the hierarchy. -/
theorem settles_search (h : p.Explored target work seen complete) :
    p.Settles target work complete (p.search target work seen complete) := by
  fun_induction search p target work seen complete with
  | case1 seen => exact ⟨leads_nil, fun hopen => by simp [Open, leads_nil] at hopen⟩
  | case2 seen complete hcomplete => exact ⟨leads_nil, .inl (Bool.not_eq_true _ ▸ hcomplete)⟩
  | case3 seen complete work => exact ⟨target, List.mem_cons_self, .refl⟩
  | case4 seen complete name work htarget hname ih =>
    -- A name gone through leads nowhere that the other names do not lead.
    have h := h.again hname
    refine (ih h).congr (leads_cons.trans (or_iff_right_of_imp fun hreach => ?_)) ⟨?_, ?_⟩
    · rcases h.leads hname hreach with hseen | hleads | ⟨hne, -⟩
      · exact absurd hseen h.target_notMem
      · exact hleads
      · exact absurd rfl hne
    · rintro (hcomplete | ⟨other, hother, hmissing⟩)
      · exact .inl hcomplete
      · rcases leads_cons.1 hother with hreach | hleads
        · rcases h.leads hname hreach with hseen | hleads | ⟨-, -, hcomplete⟩
          · exact absurd (h.hasClass other hseen) hmissing
          · exact .inr ⟨other, hleads, hmissing⟩
          · exact .inl hcomplete
        · exact .inr ⟨other, hleads, hmissing⟩
    · exact Or.imp_right fun ⟨other, hleads, hmissing⟩ => ⟨other, leads_cons.2 (.inr hleads), hmissing⟩
  | case5 seen complete name work htarget hname hc ih =>
    have hmissing : ¬p.HasClass name := by simp [HasClass, hc]
    refine (ih (h.undeclared htarget hmissing)).congr
      (leads_cons.trans (or_iff_right_of_imp fun hreach => ?_)) ?_
    · exact absurd (eq_of_reaches hmissing hreach) htarget
    · exact iff_of_true (.inr ⟨name, leads_cons.2 (.inl .refl), hmissing⟩) (.inl rfl)
  | case6 seen complete name work htarget hname c hc ih =>
    have hleads (other : String) : p.Leads (name :: work) other
        ↔ name = other ∨ p.Leads (c.parents ++ work) other := by
      rw [leads_cons, reaches_iff hc, or_assoc]
      simp only [Leads, List.mem_append, or_and_right, exists_or]
    refine (ih (h.declared htarget hc)).congr ((hleads target).trans (or_iff_right htarget)) ?_
    refine or_congr_right (exists_congr fun other => and_congr_left fun hmissing => ?_)
    refine (hleads other).trans (or_iff_right ?_)
    rintro rfl
    exact hmissing (hasClass_of_class? hc)

/-! ## The end of a search -/

/-- The search as it goes from name to name, with the number of its steps and with nothing that
    would bound them. -/
inductive Searches (p : Program) (target : String) :
    (work seen : List String) → (complete : Bool) → (steps : Nat) → Tristate → Prop where
  | exhausted {seen : List String} {complete : Bool} :
    Searches p target [] seen complete 0 (if complete then .no else .maybe)
  | found {work seen : List String} {complete : Bool} :
    Searches p target (target :: work) seen complete 0 .yes
  | again {name : String} {work seen : List String} {complete : Bool} {steps : Nat}
    {answer : Tristate} : name ≠ target → name ∈ seen →
    Searches p target work seen complete steps answer →
    Searches p target (name :: work) seen complete (steps + 1) answer
  | undeclared {name : String} {work seen : List String} {complete : Bool} {steps : Nat}
    {answer : Tristate} : name ≠ target → name ∉ seen → p.class? name = none →
    Searches p target work seen false steps answer →
    Searches p target (name :: work) seen complete (steps + 1) answer
  | declared {name : String} {work seen : List String} {complete : Bool} {steps : Nat}
    {answer : Tristate} {c : ClassDecl} : name ≠ target → name ∉ seen → p.class? name = some c →
    Searches p target (c.parents ++ work) (name :: seen) complete steps answer →
    Searches p target (name :: work) seen complete (steps + 1) answer

/-- A search has one outcome. -/
theorem Searches.search_eq {steps : Nat} {answer : Tristate}
    (h : p.Searches target work seen complete steps answer) :
    p.search target work seen complete = answer := by
  induction h with
  | exhausted => rw [search]
  | found => rw [search, if_pos rfl]
  | again htarget hname _ ih => rw [search, if_neg htarget, dif_pos hname, ih]
  | undeclared htarget hname hc _ ih =>
    rw [search, if_neg htarget, dif_neg hname]
    split
    · exact ih
    · rename_i hc'
      cases hc.symm.trans hc'
  | declared htarget hname hc _ ih =>
    rw [search, if_neg htarget, dif_neg hname]
    split
    · rename_i hc'
      cases hc.symm.trans hc'
    · rename_i hc'
      cases hc.symm.trans hc'
      exact ih

/-- The number of links from classes that are not in `seen`. -/
def linksBeyond (p : Program) (seen : List String) : Nat :=
  ((p.classes.filter (·.name ∉ seen)).map (·.parents.length)).sum

/-- Going through a class uses up its links. -/
theorem linksBeyond_cons {c : ClassDecl} (hname : name ∉ seen) (hc : p.class? name = some c) :
    c.parents.length + p.linksBeyond (name :: seen) ≤ p.linksBeyond seen := by
  have hcname : c.name = name := by simpa using List.find?_some hc
  obtain ⟨before, after, hsplit⟩ := List.append_of_mem (List.mem_of_find?_eq_some hc)
  have hle (l : List ClassDecl) : ((l.filter (·.name ∉ name :: seen)).map (·.parents.length)).sum
      ≤ ((l.filter (·.name ∉ seen)).map (·.parents.length)).sum := by
    refine List.Sublist.sum_le_sum (.map _ (List.monotone_filter_right l fun d hd => ?_)) (by simp)
    simp only [List.mem_cons, not_or, decide_eq_true_eq] at hd ⊢
    exact hd.2
  have hbefore := hle before
  have hafter := hle after
  simp only [linksBeyond, hsplit, List.filter_append, List.map_append, List.sum_append]
  rw [List.filter_cons_of_neg (by simp [hcname]), List.filter_cons_of_pos (by simpa [hcname]),
    List.map_cons, List.sum_cons]
  omega

/-- A search ends, and takes at most one step for each name to look at and each link of a class that
    it has not gone through. -/
theorem exists_searches (p : Program) (target : String) (work seen : List String) (complete : Bool) :
    ∃ steps ≤ work.length + p.linksBeyond seen,
      p.Searches target work seen complete steps (p.search target work seen complete) := by
  fun_induction search p target work seen complete with
  | case1 seen => exact ⟨0, Nat.zero_le _, .exhausted⟩
  | case2 seen complete hcomplete =>
    obtain rfl := Bool.eq_false_of_not_eq_true hcomplete
    exact ⟨0, Nat.zero_le _, .exhausted⟩
  | case3 seen complete work => exact ⟨0, Nat.zero_le _, .found⟩
  | case4 seen complete name work htarget hname ih =>
    obtain ⟨steps, hle, hsearch⟩ := ih
    exact ⟨steps + 1, by grind, .again htarget hname hsearch⟩
  | case5 seen complete name work htarget hname hc ih =>
    obtain ⟨steps, hle, hsearch⟩ := ih
    exact ⟨steps + 1, by grind, .undeclared htarget hname hc hsearch⟩
  | case6 seen complete name work htarget hname c hc ih =>
    obtain ⟨steps, hle, hsearch⟩ := ih
    have hlinks := linksBeyond_cons hname hc
    exact ⟨steps + 1, by grind, .declared htarget hname hc hsearch⟩

/-! ## Subtype answers -/

theorem Settles.unique {answer answer' : Tristate} (h : p.Settles target work complete answer)
    (h' : p.Settles target work complete answer') : answer = answer' := by
  cases answer <;> cases answer' <;> first | rfl | (simp only [Settles] at h h'; tauto)

theorem isSubtype_eq_search {sub super : String} (hsub : isArrayName sub = false)
    (hsuper : super ≠ objectClass) : p.isSubtype sub super = p.search super [sub] [] true := by
  unfold isSubtype
  by_cases heq : sub = super
  · rw [if_pos (.inl heq), search, if_pos heq]
  · rw [if_neg (not_or.2 ⟨heq, hsuper⟩), hsub, if_neg Bool.false_ne_true]

theorem isSubtype_eq_iff {sub super : String} (hsub : isArrayName sub = false)
    (hsuper : super ≠ objectClass) (answer : Tristate) :
    p.isSubtype sub super = answer ↔ p.Settles super [sub] true answer := by
  have h : p.Settles super [sub] true (p.search super [sub] [] true) := settles_search p.explored_nil
  rw [← isSubtype_eq_search hsub hsuper] at h
  exact ⟨fun heq => heq ▸ h, h.unique⟩

theorem leads_singleton {other : String} : p.Leads [name] other ↔ p.Reaches name other := by
  simp [Leads]

theorem open_singleton : p.Open [name] true ↔ ∃ cls, p.Reaches name cls ∧ ¬p.HasClass cls := by
  simp [Open, leads_singleton]

end Program

/-- Of a class other than an array, and a class other than the root, the answer is yes just if the
    links from declared classes to their parents lead from the one to the other; no just if they do not,
    and all that they lead to is declared; and open otherwise. The search for it ends after at most one
    step more than there are links. -/
theorem isSubtype_decides (p : Program) {sub super : String}
    (hsub : Program.isArrayName sub = false) (hsuper : super ≠ objectClass) :
    (p.isSubtype sub super = .yes ↔ p.Reaches sub super)
    ∧ (p.isSubtype sub super = .no ↔
        ¬p.Reaches sub super ∧ ∀ cls, p.Reaches sub cls → p.HasClass cls)
    ∧ (p.isSubtype sub super = .maybe ↔
        ¬p.Reaches sub super ∧ ∃ cls, p.Reaches sub cls ∧ ¬p.HasClass cls)
    ∧ ∃ steps ≤ 1 + (p.classes.map (·.parents.length)).sum,
        p.Searches super [sub] [] true steps (p.isSubtype sub super) := by
  have hsettles := p.isSubtype_eq_iff hsub hsuper
  refine ⟨?_, ?_, ?_, ?_⟩
  · rw [hsettles, Program.Settles, Program.leads_singleton]
  · rw [hsettles, Program.Settles, Program.leads_singleton, Program.open_singleton]
    push Not
    rfl
  · rw [hsettles, Program.Settles, Program.leads_singleton, Program.open_singleton]
  · obtain ⟨steps, hle, hsteps⟩ := p.exists_searches super [sub] [] true
    rw [← Program.isSubtype_eq_search hsub hsuper] at hsteps
    exact ⟨steps, by simpa [Program.linksBeyond] using hle, hsteps⟩

/-- Two classes that name each other as their superclass. The first also has an interface that the
    second has as well, and the second has one that is not declared. -/
def roundabout : Program where
  classes := [{ name := objectClass },
    { name := "t/A", superclass := some "t/B", interfaces := ["t/I"] },
    { name := "t/B", superclass := some "t/A", interfaces := ["t/J", "t/I"] },
    { name := "t/I", isInterface := true }]

/-- The search goes around the circle once and meets the class that is not declared on the way. -/
theorem isSubtype_decides_roundabout :
    Program.isArrayName "t/A" = false ∧ "t/J" ≠ objectClass ∧ "t/K" ≠ objectClass
    ∧ roundabout.Reaches "t/A" "t/J" ∧ roundabout.isSubtype "t/A" "t/J" = .yes
    ∧ roundabout.isSubtype "t/A" "t/K" = .maybe
    ∧ ¬roundabout.Reaches "t/A" "t/K"
    ∧ ∃ cls, roundabout.Reaches "t/A" cls ∧ ¬roundabout.HasClass cls := by
  have hsub : Program.isArrayName "t/A" = false := by decide
  have hJ : "t/J" ≠ objectClass := by decide
  have hK : "t/K" ≠ objectClass := by decide
  have hreaches : roundabout.Reaches "t/A" "t/J" :=
    .head (b := "t/B") ⟨_, rfl, by decide⟩ (.single ⟨_, rfl, by decide⟩)
  have hmaybe : roundabout.isSubtype "t/A" "t/K" = .maybe := by
    have hsearch : roundabout.Searches "t/K" ["t/A"] [] true 6 .maybe := by
      refine .declared (by decide) (by decide) rfl ?_
      refine .declared (by decide) (by decide) rfl ?_
      refine .declared (by decide) (by decide) rfl ?_
      refine .undeclared (by decide) (by decide) rfl ?_
      refine .again (by decide) (by decide) ?_
      refine .again (by decide) (by decide) ?_
      exact .exhausted
    rw [Program.isSubtype_eq_search hsub hK, hsearch.search_eq]
  obtain ⟨hyes, -⟩ := isSubtype_decides roundabout hsub hJ
  obtain ⟨-, -, hopen, -⟩ := isSubtype_decides roundabout hsub hK
  exact ⟨hsub, hJ, hK, hreaches, hyes.2 hreaches, hmaybe, hopen.1 hmaybe⟩

end InlinePlan
