import InlinePlan.Proofs.Analysis.Trace
import InlinePlan.Proofs.Execution.Transfer
import Mathlib

set_option autoImplicit false

/-! # Facts are sound

An execution follows the edges of the graph from the entry, any number of times around its loops. At
every point that it reaches, the frame of the analysis describes the activation: every slot has its
kind, and every fact about it holds. -/

namespace InlinePlan

open FlowGraph

/-- The points that executions of the method of `s` over `g` reach, with their activations. Executions
    start with arguments that the entry frame describes. On entry to a block they have the depth and
    the kinds that the analysis requires there. -/
inductive Reaches (C : ClassRelation) (s : Subject) (g : FlowGraph) :
    (b j : Nat) → Activation → Prop where
  | start (a : Activation) (ha : (Frame.entry s.method).Describes C a) : Reaches C s g g.entry 0 a
  | step (b j : Nat) (ins : Instruction) (a a' : Activation) (h : Reaches C s g b j a)
      (hins : (g.code b)[j]? = some ins) (hx : ins.Executes C a a') : Reaches C s g b (j + 1) a'
  | edge (b b' : Nat) (a : Activation) (h : Reaches C s g b (g.code b).length a)
      (hs : b' ∈ g.succs b) (hfit : ∀ m, s.machineAt g b' 0 = some m → m.frame.Fits a) :
      Reaches C s g b' 0 a

namespace Reaches

variable {C : ClassRelation} {s : Subject} {g : FlowGraph} {b j : Nat} {a : Activation}
  {r : RunResult} {cancelled : Bool}

theorem mem_reversePostorder (h : Reaches C s g b j a) : b ∈ g.reversePostorder := by
  induction h with
  | start a ha => exact entry_mem_reversePostorder g
  | step b j ins a a' h hins hx ih => exact ih
  | edge b b' a h hs hfit ih => exact succ_mem_reversePostorder ih hs

/-- The frame on entry to a block describes what comes from a predecessor. -/
theorem describes_entered {b' : Nat} {f : Frame} {m : Machine} (hf : s.Entered g b' f)
    (hb : b ∈ g.reversePostorder) (hs : b' ∈ g.succs b) (hm : s.machineAfter g b = some m)
    (hd : m.frame.Describes C a) (hfit : f.Fits a) : f.Describes C a := by
  cases hf with
  | params hb' hnone => exact absurd hs (hnone b hb)
  | restarted hb' => exact Frame.describes_widen hfit
  | widened hb' f hf => exact Frame.describes_widen hfit
  | merged hb' f fs f' hfs hall hmerge =>
    obtain ⟨m₁, hm₁, hmem⟩ := hall b hb hs
    obtain rfl : m = m₁ := Option.some.inj (hm.symm.trans hm₁)
    exact Frame.describes_mergeAll hmem hd hmerge

theorem describes_machineAt (hv : s.visitor = Visitor.anyResult)
    (hC : ∀ q ∈ s.oracle, C.Supports q) (hrun : (s.run g cancelled).outcome = .ok r)
    (h : Reaches C s g b j a) : ∃ m, s.machineAt g b j = some m ∧ m.frame.Describes C a := by
  induction h with
  | start a ha =>
    obtain ⟨m, hm, hentered⟩ := Subject.exists_entered hrun (entry_mem_reversePostorder g)
    refine ⟨m, hm, ?_⟩
    generalize m.frame = f at hentered
    cases hentered with
    | params hb hnone => exact ha
    | restarted hb => exact Frame.describes_widen (Frame.fits_widen ha)
    | widened hb => exact absurd rfl hb
    | merged hb => exact absurd rfl hb
  | step b j ins a a' h hins hx ih =>
    obtain ⟨m, hm, hd⟩ := ih
    obtain ⟨m', hm', hstep⟩ := Subject.exists_step hrun h.mem_reversePostorder hins hm
    exact ⟨m', hm', describes_step hv hC hd hstep hx⟩
  | edge b b' a h hs hfit ih =>
    obtain ⟨m, hm, hd⟩ := ih
    have hb := h.mem_reversePostorder
    obtain ⟨m', hm', hentered⟩ := Subject.exists_entered hrun (succ_mem_reversePostorder hb hs)
    exact ⟨m', hm', describes_entered hentered hb hs hm hd (hfit m' hm')⟩

end Reaches

/-- The analysis is sound: at every point that an execution reaches, the run has a frame, and it
    describes the activation; so does the exit frame that the run reports at the end of a block. -/
theorem facts_sound {C : ClassRelation} {s : Subject} {g : FlowGraph} {r : RunResult}
    {cancelled : Bool} (hv : s.visitor = Visitor.anyResult) (hC : ∀ q ∈ s.oracle, C.Supports q)
    (hrun : (s.run g cancelled).outcome = .ok r) {b j : Nat} {a : Activation}
    (h : Reaches C s g b j a) :
    (∃ m, s.machineAt g b j = some m ∧ m.frame.Describes C a)
      ∧ (j = (g.code b).length → ∃ f, r.exits.getD b none = some f ∧ f.Describes C a) := by
  obtain ⟨m, hm, hd⟩ := h.describes_machineAt hv hC hrun
  refine ⟨⟨m, hm, hd⟩, ?_⟩
  rintro rfl
  refine ⟨m.frame, ?_, hd⟩
  rw [Subject.exits_eq hrun h.mem_reversePostorder, Subject.machineAfter, hm, Option.map_some]

/-! ## A loop

A method that counts its argument down in a loop at its entry and then asks for the length of a new
array. -/

/-- A class is assignable to itself and to the root only. -/
def flatClasses : ClassRelation where
  sub c d := c = d ∨ d = objectClass
  refl _ := .inl rfl
  trans := by
    rintro c d e (rfl | rfl) (rfl | rfl)
    · exact .inl rfl
    · exact .inr rfl
    · exact .inr rfl
    · exact .inr rfl
  root _ := .inr rfl

def countdown : Subject :=
  { options := {}
    oracle := some fun c d => if c = d then .yes else .maybe
    visitor := Visitor.anyResult
    method := { id := "C.m(I)V", cls := "C", name := "m", descriptor := "(I)V", isStatic := true,
                maxLocals := 1, signature := ⟨[⟨.int, ""⟩], ⟨.void, ""⟩⟩ } }

def countdownGraph : FlowGraph :=
  { blocks :=
      [⟨1, [0, 1], [{ bci := 0, op := ⟨132⟩, imm := -1 }]⟩,
        ⟨1, [], [{ bci := 3, op := ⟨6⟩ }, { bci := 4, op := ⟨188⟩, imm := 10 },
          { bci := 6, op := ⟨190⟩ }]⟩]
    entry := 0
    entry_lt := by decide
    succs_lt := by decide }

/-- The locals after the argument has been set to an integer. -/
def countdownLocals (v : BitVec 32) : Nat → Datum := writeLocal (fun _ => .null) 0 (.int v)

theorem countdown_enters (b : Nat) (hb : b = 0 ∨ b = 1) :
    countdown.machineAt countdownGraph b 0 = some { frame := ⟨[.top .int], []⟩ } := by
  rcases hb with rfl | rfl
  · cbv
  · cbv

theorem countdown_fits (b : Nat) (hb : b = 0 ∨ b = 1) (locals : Nat → Datum) (v : BitVec 32) :
    ∀ m, countdown.machineAt countdownGraph b 0 = some m →
      m.frame.Fits ⟨writeLocal locals 0 (.int v), []⟩ := by
  intro m hm
  rw [countdown_enters b hb] at hm
  cases hm
  refine ⟨fun n => ?_, .nil⟩
  cases n with
  | zero => exact .inr rfl
  | succ n => exact .inl (by rw [Frame.localAt_natCast]; rfl)

/-- One round of the loop. -/
theorem countdown_round {locals : Nat → Datum} {v : BitVec 32}
    (h : Reaches flatClasses countdown countdownGraph 0 0 ⟨writeLocal locals 0 (.int v), []⟩) :
    Reaches flatClasses countdown countdownGraph 0 1
      ⟨writeLocal (writeLocal locals 0 (.int v)) 0 (.int (BitVec.ofInt 32 (v.toInt + -1))), []⟩ :=
  .step _ _ _ _ _ h rfl ⟨_, rfl, .increment _ _ 0 v rfl rfl⟩

theorem countdown_reaches : Reaches flatClasses countdown countdownGraph 1 3
    ⟨writeLocal (writeLocal (countdownLocals 2) 0 (.int 1)) 0 (.int 0), [.int 3]⟩ := by
  have hstart : Reaches flatClasses countdown countdownGraph 0 0 ⟨countdownLocals 2, []⟩ := by
    refine .start _ ⟨fun n => ?_, .nil⟩
    cases n with
    | zero => exact .inr ⟨rfl, nofun⟩
    | succ n => exact .inl (by rw [Frame.localAt_natCast]; rfl)
  have hagain : Reaches flatClasses countdown countdownGraph 0 0 _ :=
    .edge 0 0 _ (countdown_round hstart) (by decide) (countdown_fits 0 (.inl rfl) _ _)
  have hleft : Reaches flatClasses countdown countdownGraph 1 0 _ :=
    .edge 0 1 _ (countdown_round hagain) (by decide) (countdown_fits 1 (.inr rfl) _ _)
  have hconst : Reaches flatClasses countdown countdownGraph 1 1 _ :=
    .step _ _ _ _ _ hleft rfl ⟨_, rfl, .computes _ _ [] _ [] (.constInt 3)⟩
  have harray : Reaches flatClasses countdown countdownGraph 1 2 _ :=
    .step _ _ _ _ _ hconst rfl
      ⟨_, rfl, .computes _ _ [.int 3] _ [] (.newPrimitiveArray "[I" 3 3 rfl rfl)⟩
  exact .step _ _ _ _ _ harray rfl
    ⟨_, rfl, .computes _ _ [.array "[I" 3] _ [] (.arrayLength "[I" 3)⟩

theorem countdown_supports : ∀ q ∈ countdown.oracle, flatClasses.Supports q := by
  rintro q ⟨⟩ c d
  by_cases h : c = d
  · exact ⟨fun _ => .inl h, by simp [h]⟩
  · simp [h]

/-- What the analysis of the loop reports. -/
def countdownResult : RunResult :=
  { summary := ⟨"C.m(I)V", []⟩
    exits := [some ⟨[.top .int], []⟩, some ⟨[.top .int], [.intConst 3]⟩]
    warnings := [] }

theorem countdown_run : (countdown.run countdownGraph false).outcome = .ok countdownResult := by
  cbv

theorem facts_sound_countdown :
    (countdown.run countdownGraph false).outcome = .ok countdownResult
      ∧ Reaches flatClasses countdown countdownGraph 1 3
          ⟨writeLocal (writeLocal (countdownLocals 2) 0 (.int 1)) 0 (.int 0), [.int 3]⟩
      ∧ ∃ f, countdownResult.exits.getD 1 none = some f ∧ f.Describes flatClasses
          ⟨writeLocal (writeLocal (countdownLocals 2) 0 (.int 1)) 0 (.int 0), [.int 3]⟩ :=
  ⟨countdown_run, countdown_reaches,
    (facts_sound rfl countdown_supports countdown_run countdown_reaches).2 rfl⟩

end InlinePlan
