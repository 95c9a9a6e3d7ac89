import InlinePlan.Proofs.Analysis.Effect
import InlinePlan.Proofs.Analysis.Trace
import Mathlib.Data.List.Forall2

set_option autoImplicit false

/-! # What a run visits and reports

A run visits every block that the entry reaches, once, and reports every call in it, unless the method
is unresolved. This is said of computations: what they add to a log of calls answers a list of calls
that are due (`Reports`). An instruction reports at most one call, code reports in order, and blocks
report in the order of their visits. A computation that fails has reported a beginning of what is due,
so the same statement covers the runs that fail. -/

namespace InlinePlan

/-! ## Computations that report -/

section Reports

variable {δ ε σ α β : Type}

/-- From state `s` to state `s'` the log grows by calls that answer those due, one by one. -/
def Logged (log : σ → List CallSite) (R : δ → CallSite → Prop) (due : List δ) (s s' : σ) : Prop :=
  ∃ new, log s' = log s ++ new ∧ List.Forall₂ R due new

/-- Computation `x` reports the calls that are due when it starts from `s`: all of them if it succeeds,
    else a beginning. -/
def Reports (log : σ → List CallSite) (R : δ → CallSite → Prop) (due : List δ)
    (x : EStateM ε σ α) (s : σ) : Prop :=
  match x s with
  | .ok _ s' => Logged log R due s s'
  | .error _ s' => ∃ pre, pre <+: due ∧ Logged log R pre s s'

variable {log : σ → List CallSite} {R : δ → CallSite → Prop} {due due' : List δ} {s s' s'' : σ}
  {x : EStateM ε σ α}

theorem Logged.nil (h : log s' = log s) : Logged log R ([] : List δ) s s' :=
  ⟨[], by rw [h, List.append_nil], .nil⟩

theorem Logged.trans (h : Logged log R due s s') (h' : Logged log R due' s' s'') :
    Logged log R (due ++ due') s s'' := by
  obtain ⟨new, hlog, hnew⟩ := h
  obtain ⟨new', hlog', hnew'⟩ := h'
  refine ⟨new ++ new', ?_, List.rel_append hnew hnew'⟩
  rw [hlog', hlog, List.append_assoc]

namespace Reports

theorem of_keeps {P : ε → Prop} (h : Keeps log P x) : Reports log R [] x s := by
  have hs := h s
  unfold Reports
  revert hs
  cases x s with
  | ok a s' => exact fun hlog => .nil hlog
  | error e s' => exact fun hlog => ⟨[], List.prefix_refl _, .nil hlog.1⟩

theorem throw {e : ε} : Reports log R due (throw e : EStateM ε σ α) s :=
  ⟨[], List.nil_prefix, .nil rfl⟩

/-- A check that fails with a fault. -/
theorem guard {c : Prop} [Decidable c] {e : ε} {f : β → EStateM ε σ α} (hx : Reports log R due x s) :
    Reports log R due (if c then MonadExcept.throw e >>= f else x) s := by
  split
  · exact ⟨[], List.nil_prefix, .nil rfl⟩
  · exact hx

theorem bind {f : α → EStateM ε σ β} (hx : Reports log R due x s)
    (hf : ∀ a s', x s = .ok a s' → Reports log R due' (f a) s') :
    Reports log R (due ++ due') (x >>= f) s := by
  unfold Reports at hx ⊢
  simp only [Bind.bind, EStateM.bind]
  revert hx hf
  cases x s with
  | error e s' =>
    rintro ⟨pre, hpre, hlogged⟩ -
    exact ⟨pre, hpre.trans (List.prefix_append due due'), hlogged⟩
  | ok a s' =>
    intro hlogged hf
    have hrest := hf a s' rfl
    unfold Reports at hrest
    revert hrest
    dsimp only
    cases f a s' with
    | ok b s'' => exact hlogged.trans
    | error e s'' =>
      rintro ⟨pre, hpre, hlogged'⟩
      exact ⟨due ++ pre, (List.prefix_append_right_inj due).2 hpre, hlogged.trans hlogged'⟩

/-- A first part that reports nothing. -/
theorem after {P : ε → Prop} {f : α → EStateM ε σ β} (hx : Keeps log P x)
    (hf : ∀ a s', Reports log R due (f a) s') : Reports log R due (x >>= f) s :=
  (of_keeps hx).bind fun a s' _ => hf a s'

/-- A last part that reports nothing. -/
theorem followed {P : ε → Prop} {f : α → EStateM ε σ β} (hx : Reports log R due x s)
    (hf : ∀ a, Keeps log P (f a)) : Reports log R due (x >>= f) s := by
  have hbind := hx.bind fun a s' _ => of_keeps (R := R) (s := s') (hf a)
  rwa [List.append_nil] at hbind

end Reports

end Reports

/-! ## Calls that are due -/

/-- Whether the analysis is to report the instruction: it is a call, and the method is not known to be
    unresolved. -/
def Instruction.isReported (ins : Instruction) : Bool :=
  match ins.op.operation? with
  | some (.invoke _) => ins.ref.all (!·.unresolved)
  | _ => false

namespace FlowGraph

/-- The calls to report in block `b`, in order. -/
def callsIn (g : FlowGraph) (b : Nat) : List (Nat × Instruction) :=
  ((g.code b).filter (·.isReported)).map (b, ·)

/-- All calls to report, in the order of the visits. -/
def reported (g : FlowGraph) : List (Nat × Instruction) := g.reversePostorder.flatMap g.callsIn

end FlowGraph

/-- The call site is that of an instruction of a block. -/
structure Subject.Answers (s : Subject) (g : FlowGraph) (due : Nat × Instruction)
    (site : CallSite) : Prop where
  caller : site.caller = s.method
  block : site.block = due.1
  frequency : site.frequency = g.frequency due.1
  bci : site.bci = due.2.bci
  kind : due.2.op.operation? = some (.invoke site.kind)
  ref : due.2.ref = some site.ref

/-! ## One instruction -/

namespace Step

open InlinePlan.Frame

variable {s : Subject} {g : FlowGraph} {b : Nat} {ins : Instruction} {m : Machine}

theorem reports_visit {site : CallSite} {due : Nat × Instruction} (h : s.Answers g due site) :
    Reports Machine.calls (s.Answers g) [due] (visit s.visitor site) m :=
  ⟨[site], rfl, .cons h .nil⟩

/-- A call is reported when its arguments have been taken, unless the method is unresolved. -/
theorem reports_callResult {site : CallSite} {due : Nat × Instruction} (h : s.Answers g due site) :
    Reports Machine.calls (s.Answers g) (if site.ref.unresolved then [] else [due])
      (callResult s ins site) m := by
  unfold callResult
  split
  case isTrue => exact .of_keeps (callless_unresolved.bind fun _ => .pure)
  case isFalse => exact (reports_visit h).followed fun _ => callless_intrinsic.bind fun _ => .pure

theorem reports_invoke {kind : InvokeKind} (hop : ins.op.operation? = some (.invoke kind)) :
    Reports Machine.calls (s.Answers g) (if ins.isReported then [(b, ins)] else [])
      (invoke s b (g.frequency b) ins kind) m := by
  unfold invoke
  refine .guard ?_
  cases hr : ins.ref with
  | none => exact .throw
  | some r =>
    refine .guard ?_
    cases Signature.parse r.descriptor with
    | error e => exact .throw
    | ok sig =>
      refine .after (keeps_liftM (lossless_popArgs _)) fun params m₁ => ?_
      refine .after callless_popReceiver fun receiver m₂ => ?_
      refine .followed ?_ fun _ => callless_pushResult
      have hdue : (if ins.isReported then [(b, ins)] else [])
          = if r.unresolved then [] else [(b, ins)] := by
        cases hu : r.unresolved <;> simp [Instruction.isReported, hop, hr, hu]
      rw [hdue]
      exact reports_callResult ⟨rfl, rfl, rfl, rfl, hop, hr⟩

theorem reports_step :
    Reports Machine.calls (s.Answers g) (if ins.isReported then [(b, ins)] else [])
      (step s b (g.frequency b) ins) m := by
  unfold step
  cases hop : ins.op.operation? with
  | none => exact .throw
  | some o =>
    -- the check of the depth comes after the report
    refine Reports.followed (P := fun _ => True) ?_ fun _ =>
      .bind .get fun _ => .ite (.throw trivial) .pure
    by_cases hinvoke : ∃ kind, o = .invoke kind
    · obtain ⟨kind, rfl⟩ := hinvoke
      exact reports_invoke hop
    · have hnot : ins.isReported = false := by
        unfold Instruction.isReported
        rw [hop]
        split
        case h_1 kind ho => exact absurd ⟨kind, Option.some.inj ho⟩ hinvoke
        case h_2 => rfl
      rw [hnot]
      exact .of_keeps (keeps_calls_transfer fun kind ho => hinvoke ⟨kind, ho⟩)

end Step

/-! ## Code and blocks -/

namespace Subject

open FlowGraph

variable {s : Subject} {g : FlowGraph} {b : Nat}

theorem reports_runCode (code : List Instruction) (m : Machine) :
    Reports Machine.calls (s.Answers g) ((code.filter (·.isReported)).map (b, ·))
      (runCode s b (g.frequency b) code) m := by
  induction code generalizing m with
  | nil => exact .nil rfl
  | cons ins code ih =>
    have hdue : ((ins :: code).filter (·.isReported)).map (b, ·)
        = (if ins.isReported then [(b, ins)] else [])
          ++ (code.filter (·.isReported)).map (b, ·) := by
      cases hr : ins.isReported <;> simp [hr]
    -- an instruction that fails names itself in the fault of the code
    have hbind : runCode s b (g.frequency b) (ins :: code)
        = (EStateM.adaptExcept (ins, ·) (Step.step s b (g.frequency b) ins)) >>= fun _ =>
            runCode s b (g.frequency b) code := by
      funext m
      simp only [runCode, Bind.bind, EStateM.bind, EStateM.adaptExcept]
      cases Step.step s b (g.frequency b) ins m <;> rfl
    rw [hdue, hbind]
    refine Reports.bind ?_ fun _ m' _ => ih m'
    have hstep : Reports Machine.calls (s.Answers g) _ (Step.step s b (g.frequency b) ins) m :=
      Step.reports_step
    unfold Reports at hstep ⊢
    simp only [EStateM.adaptExcept]
    revert hstep
    cases Step.step s b (g.frequency b) ins m <;> exact id

/-- A block that is entered reports its calls. -/
theorem reports_runBlock {p : Progress}
    (hf : entryFrame s.method g g.writtenLocals g.reachable p.exits b ≠ .ok none) :
    Reports Progress.calls (s.Answers g) (g.callsIn b)
      (runBlock s g g.writtenLocals g.reachable b) p := by
  unfold Reports runBlock
  cases hframe : entryFrame s.method g g.writtenLocals g.reachable p.exits b with
  | error e => exact ⟨[], List.nil_prefix, .nil rfl⟩
  | ok r =>
    cases r with
    | none => exact absurd hframe hf
    | some r =>
      obtain ⟨frame, mode⟩ := r
      have hcode : Reports Machine.calls (s.Answers g) (g.callsIn b)
          (runCode s b (g.frequency b) (g.code b)) (p.machine frame) := reports_runCode _ _
      unfold Reports at hcode
      generalize hrun : runCode s b (g.frequency b) (g.code b) (p.machine frame) = result at hcode
      have hrun' : runCode s b ((g.blocks[b]?).elim 0 (·.frequency)) (g.code b)
          { frame, predicates := p.predicates, warnings := p.warnings, calls := p.calls } = result :=
        hrun
      dsimp only
      rw [hrun']
      cases result with
      | ok a m => exact hcode
      | error e m => exact hcode

theorem runBlocks_cons {written reachable : List Bool} (bs : List Nat) :
    runBlocks s g written reachable (b :: bs)
      = runBlock s g written reachable b >>= fun _ => runBlocks s g written reachable bs := by
  funext p
  simp only [runBlocks, Bind.bind, EStateM.bind]
  cases runBlock s g written reachable b p <;> rfl

/-- After the blocks `pre`, the blocks `post` report their calls: none of them is passed over. -/
theorem reports_runBlocks {pre post : List Nat} {p : Progress}
    (hpre : pre ++ post <+: g.reversePostorder)
    (hp : runBlocks s g g.writtenLocals g.reachable pre (begin g) = .ok () p) :
    Reports Progress.calls (s.Answers g) (post.flatMap g.callsIn)
      (runBlocks s g g.writtenLocals g.reachable post) p := by
  induction post generalizing pre p with
  | nil => exact .nil rfl
  | cons b post ih =>
    rw [List.append_cons] at hpre
    have hvisited : pre ++ [b] <+: g.reversePostorder := (List.prefix_append _ post).trans hpre
    have hbefore : s.progressBefore g b = some p := progressBefore_of_visited hvisited hp
    have hentered : entryFrame s.method g g.writtenLocals g.reachable p.exits b ≠ .ok none := by
      refine entryFrame_ne_none hbefore (hvisited.subset (by simp)) ?_
      rw [takeWhile_of_visited hvisited]
      exact machineAfter_of_visited ((List.prefix_append pre [b]).trans hvisited) hp
    rw [runBlocks_cons, List.flatMap_cons]
    refine (reports_runBlock hentered).bind fun _ p' hb => ih hpre ?_
    exact runBlocks_append.2 ⟨p, hp, runBlocks_singleton.2 hb⟩

/-! ## Whole runs -/

/-- The log of a run that has done the blocks `pre`, or has failed at one of them. -/
theorem reports_visited {pre : List Nat} (hpre : pre <+: g.reversePostorder) :
    Reports Progress.calls (s.Answers g) (pre.flatMap g.callsIn)
      (runBlocks s g g.writtenLocals g.reachable pre) (begin g) := by
  have hstart : runBlocks s g g.writtenLocals g.reachable [] (begin g) = .ok () (begin g) := rfl
  refine reports_runBlocks ?_ hstart
  exact hpre

theorem calls_of_visited {pre : List Nat} {p : Progress} (hpre : pre <+: g.reversePostorder)
    (h : runBlocks s g g.writtenLocals g.reachable pre (begin g) = .ok () p) :
    List.Forall₂ (s.Answers g) (pre.flatMap g.callsIn) p.calls := by
  have hreports := reports_visited (s := s) hpre
  unfold Reports at hreports
  rw [h] at hreports
  obtain ⟨new, hcalls, hnew⟩ := hreports
  rw [hcalls]
  exact hnew

theorem calls_of_run_error {cancelled : Bool} {e : RunFault}
    (h : (s.run g cancelled).outcome = .error e) :
    ∃ pre, pre <+: g.reported ∧ List.Forall₂ (s.Answers g) pre (s.run g cancelled).calls := by
  rcases s.run_cases g cancelled with ⟨-, hnil, -⟩ | ⟨-, hnil, -⟩ | ⟨-, -, hrun⟩
  · exact ⟨[], List.nil_prefix, hnil ▸ .nil⟩
  · exact ⟨[], List.nil_prefix, hnil ▸ .nil⟩
  · have hreports : Reports Progress.calls (s.Answers g) g.reported
        (runBlocks s g g.writtenLocals g.reachable g.reversePostorder) (begin g) :=
      reports_visited (List.prefix_refl _)
    unfold Reports begin at hreports
    rw [hrun] at h ⊢
    simp only [runReachable] at h ⊢
    revert h hreports
    cases runBlocks s g g.writtenLocals g.reachable g.reversePostorder _ with
    | ok a p => simp
    | error f p =>
      rintro - ⟨pre, hpre, new, hcalls, hnew⟩
      refine ⟨pre, hpre, ?_⟩
      dsimp only at hcalls ⊢
      rw [hcalls]
      exact hnew

theorem exits_isSome_iff {cancelled : Bool} {r : RunResult} (b : Nat)
    (h : (s.run g cancelled).outcome = .ok r) :
    (r.exits.getD b none).isSome ↔ b ∈ g.reversePostorder := by
  obtain ⟨p, hp, hexits, -⟩ := run_ok h
  rw [hexits, (exits_of_visited (List.prefix_refl _) hp).2 b]
  constructor
  · intro hsome
    split at hsome
    case isTrue hb => exact hb
    case isFalse => cases hsome
  · intro hb
    obtain ⟨m, hm⟩ := machineAfter_of_mem h hb
    simp [hb, hm]

end Subject

/-- No reachable block and no call in one is lost or visited twice. The order of the visits has each
    reachable block once and no other. A run that succeeds knows the exit frames of exactly these
    blocks and has reported exactly their calls, in order. A run that fails has reported a beginning of
    these calls, and one that is stopped between two visits those of the blocks that it has done. -/
theorem run_visits_reachable (s : Subject) (g : FlowGraph) (cancelled : Bool) :
    (g.reversePostorder.Nodup ∧ ∀ b, b ∈ g.reversePostorder ↔ g.Reachable b)
      ∧ (∀ r, (s.run g cancelled).outcome = .ok r →
          r.exits.length = g.size
            ∧ (∀ b, (r.exits.getD b none).isSome ↔ g.Reachable b)
            ∧ List.Forall₂ (s.Answers g) g.reported (s.run g cancelled).calls)
      ∧ (∀ e, (s.run g cancelled).outcome = .error e →
          ∃ pre, pre <+: g.reported ∧ List.Forall₂ (s.Answers g) pre (s.run g cancelled).calls)
      ∧ (∀ pre p, pre <+: g.reversePostorder →
          runBlocks s g g.writtenLocals g.reachable pre (Subject.begin g) = .ok () p →
          List.Forall₂ (s.Answers g) (pre.flatMap g.callsIn) p.calls) := by
  refine ⟨⟨g.nodup_reversePostorder, fun b => g.mem_reversePostorder⟩, fun r hr => ?_,
    fun e he => Subject.calls_of_run_error he, fun pre p hpre hp => Subject.calls_of_visited hpre hp⟩
  obtain ⟨p, hp, hexits, -, hcalls⟩ := Subject.run_ok hr
  refine ⟨?_, fun b => ?_, ?_⟩
  · rw [hexits]
    exact (Subject.exits_of_visited (List.prefix_refl _) hp).1
  · rw [Subject.exits_isSome_iff b hr, g.mem_reversePostorder]
  · rw [hcalls]
    exact Subject.calls_of_visited (List.prefix_refl _) hp

/-! ## A graph of all sorts -/

/-- A method without arguments. With `strict` it must not meet an unresolved reference. -/
def wanderer (strict : Bool) : Subject :=
  { options := { strictMode := strict }
    oracle := none
    visitor := Visitor.anyResult
    method := { id := "C.m()V", cls := "C", name := "m", descriptor := "()V", isStatic := true,
                maxLocals := 0, signature := ⟨[], ⟨.void, ""⟩⟩ } }

/-- A static call of a method without arguments or result. -/
def voidCall (bci : Int) (name : String) (unresolved : Bool) : Instruction :=
  { bci
    op := ⟨184⟩
    ref := some { kind := .method, cls := "C", name, descriptor := "()V", unresolved } }

/-- The entry heads a loop, the loop of the blocks 1 and 2 has two entries, block 1 leads to itself,
    block 2 leads to the entry twice, and block 3 leads to block 2 but is not reached. -/
def tangle : FlowGraph :=
  { blocks :=
      [⟨1, [1, 2], [voidCall 0 "a" false, voidCall 3 "b" false]⟩,
        ⟨2, [2, 1], [voidCall 6 "c" true]⟩,
        ⟨3, [1, 0, 0], [voidCall 9 "d" false]⟩,
        ⟨4, [2], [voidCall 12 "e" false]⟩]
    entry := 0
    entry_lt := by decide
    succs_lt := by decide }

/-- The calls of the reachable blocks but for the unresolved one, and only those before it where it is
    a fault. -/
theorem run_visits_reachable_tangle :
    tangle.reported
        = [(0, voidCall 0 "a" false), (0, voidCall 3 "b" false), (2, voidCall 9 "d" false)]
      ∧ (∃ r, ((wanderer false).run tangle false).outcome = .ok r
          ∧ (∀ b, (r.exits.getD b none).isSome ↔ tangle.Reachable b)
          ∧ List.Forall₂ ((wanderer false).Answers tangle) tangle.reported
              ((wanderer false).run tangle false).calls)
      ∧ ∃ e, ((wanderer true).run tangle false).outcome = .error e
          ∧ ((wanderer true).run tangle false).calls.length = 2
          ∧ ∃ pre, pre <+: tangle.reported
            ∧ List.Forall₂ ((wanderer true).Answers tangle) pre
                ((wanderer true).run tangle false).calls := by
  have hview : tangle.reported
        = [(0, voidCall 0 "a" false), (0, voidCall 3 "b" false), (2, voidCall 9 "d" false)]
      ∧ ((wanderer false).run tangle false).outcome.toOption.isSome
      ∧ ((wanderer true).run tangle false).outcome.toOption.isNone
      ∧ ((wanderer true).run tangle false).calls.length = 2 := by
    decide +kernel
  obtain ⟨hreported, hok, herror, hcalls⟩ := hview
  refine ⟨hreported, ?_, ?_⟩
  · cases hr : ((wanderer false).run tangle false).outcome with
    | error e => simp [hr, Except.toOption] at hok
    | ok r => exact ⟨r, rfl, ((run_visits_reachable (wanderer false) tangle false).2.1 r hr).2⟩
  · cases he : ((wanderer true).run tangle false).outcome with
    | ok r => simp [he, Except.toOption] at herror
    | error e =>
      exact ⟨e, rfl, hcalls, (run_visits_reachable (wanderer true) tangle false).2.2.1 e he⟩

end InlinePlan
