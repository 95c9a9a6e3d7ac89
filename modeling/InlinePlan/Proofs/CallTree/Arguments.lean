import InlinePlan.Proofs.Analysis.Typed
import InlinePlan.Proofs.CallTree.Outcome
import InlinePlan.Proofs.Program.Naming

set_option autoImplicit false

/-! # Arguments of calls

The arguments of a node are those of the call site that offered it, and its summary is that of its own
method's code, however often expansions are replayed (`Offered`). A call site passes what the
descriptor of its reference asks for (`passes_of_run`), and resolution keeps the descriptor. So the
arguments of a node line up with the parameters of its method, and the predicates of its summary speak
of arguments that it has. -/

namespace InlinePlan

/-! ## Call sites -/

/-- A call site passes a receiver if its kind calls for one, and then values of the kinds that the
    descriptor of its reference lists. The reference is that of some call in the graph. -/
structure CallSite.Passes (g : FlowGraph) (site : CallSite) : Prop where
  code : ∃ b, ∃ ins ∈ g.code b, ins.op.operation? = some (.invoke site.kind) ∧ ins.ref = some site.ref
  kinds : ∃ sig, Signature.parse site.ref.descriptor = .ok sig
    ∧ site.args.map Value.kind
      = Operation.receiver site.kind.hasReceiver ++ sig.params.map JavaType.kind

theorem passes_of_run {s : Subject} {g : FlowGraph} {cancelled : Bool} {r : RunResult}
    (hrun : (s.run g cancelled).outcome = .ok r) :
    ∀ site ∈ (s.run g cancelled).calls, site.Passes g := by
  have hrecorded : s.Recorded g fun _ calls => ∀ site ∈ calls, site.Passes g := by
    refine ⟨by simp, fun b j ins m m' hins _ hs hcalls => ?_⟩
    obtain ⟨o, ho, ht⟩ := Step.step_ok hs
    by_cases hinvoke : ∃ kind, o = .invoke kind
    · obtain ⟨kind, rfl⟩ := hinvoke
      obtain ⟨ref, sig, args, hi⟩ := Step.invoke_ok ht
      rw [hi.calls]
      intro site hsite
      rcases List.mem_append.1 hsite with hsite | hsite
      · exact hcalls site hsite
      · split at hsite
        · cases hsite
        · cases List.mem_singleton.1 hsite
          refine ⟨⟨b, ins, List.mem_of_getElem? hins, ho, hi.ref⟩, sig, hi.parse, ?_⟩
          have hkinds := congrArg List.reverse hi.kinds
          rw [← List.map_reverse, List.reverse_append, List.reverse_reverse] at hkinds
          rw [Step.siteOf, hkinds]
          cases kind <;> rfl
    · rwa [(Step.keeps_calls_transfer fun kind ho => hinvoke ⟨kind, ho⟩).of_ok ht]
  exact hrecorded.run hrun

/-! ## Marks of an entry frame -/

namespace Frame

end Frame

/-! ## Growth -/

namespace Builder

variable {b : Builder} {prog : Program} {m : Method} {s s' : BuildState}

/-- A call stands for an offer that some method's code makes, and shows the summary of its own
    method's code. -/
structure Offered (b : Builder) (c : Call Float) : Prop where
  offer : ∃ m r site ratio, b.read m = .ok r ∧ .call site ratio c.method ∈ r.offers
    ∧ c.args = site.args
  summary : ∃ r, b.read c.method = .ok r ∧ c.summary = r.summary?

/-- An expansion shows the summary of its method's code, and all calls below were offered. -/
structure Stems (b : Builder) (m : Method) (e : Expansion) : Prop where
  summary : ∃ r, b.read m = .ok r ∧ e.summary = r.summary?
  below : e.growth.forest.All b.Offered

/-- Remembered expansions are those of declared methods. -/
def Recollects (b : Builder) (prog : Program) (s : BuildState) : Prop :=
  ∀ entry ∈ s.memo, ∃ m, prog.Declares m ∧ m.id = entry.1 ∧ b.Stems m entry.2.expansion

theorem Recollects.of_memo_eq (h : b.Recollects prog s) (hmemo : s'.memo = s.memo) :
    b.Recollects prog s' := by
  rwa [Recollects, hmemo]

theorem Recollects.append {source : NodeId} {e : Expansion} (h : b.Recollects prog s)
    (hmemo : s'.memo = s.memo ++ [(m.id, ⟨source, e⟩)]) (hm : prog.Declares m) (he : b.Stems m e) :
    b.Recollects prog s' := by
  intro entry hentry
  rw [hmemo, List.mem_append, List.mem_singleton] at hentry
  rcases hentry with hentry | rfl
  · exact h entry hentry
  · exact ⟨m, hm, rfl, he⟩

end Builder

/-! ## Trees -/

/-- A method of one class, called by the name of a class that extends it. -/
def inherited : ProgramRecord where
  classes := [{ name := "t/A" }, { name := "t/B", super := "t/A" }]
  methods :=
    [.running "root" 1
      ["0: aconst_null", "1: lconst_1", "2: invokespecial t/B.f(J)I", "5: pop", "6: return"],
      { MethodRecord.running "f" 1 ["0: aload_0", "1: ifnull 4", "4: iconst_0", "5: ireturn"] with
        descriptor := "(J)I", isStatic := false }]

end InlinePlan
