import InlinePlan.Proofs.Analysis.Marks
import InlinePlan.Proofs.Analysis.Trace
import Mathlib

set_option autoImplicit false

/-! # Marks are truthful

The analysis enters the head of a loop from one predecessor only and keeps the marks of the locals
that no instruction writes. A sequential run follows one walk through the graph and never merges or
widens. Whatever the analysis notes about an argument, every sequential run tests that argument at
the same place. -/

namespace InlinePlan

open FlowGraph InlinePlan.Frame

/-! ## Locals that no instruction writes -/

theorem le_foldl_max {i : Int} {slots : List Int} (h : i ∈ slots) (n : Nat) :
    (i + 1).toNat ≤ slots.foldl (fun n i => max n (i + 1).toNat) n := by
  have hmono (slots : List Int) (n : Nat) :
      n ≤ slots.foldl (fun n i => max n (i + 1).toNat) n := by
    induction slots generalizing n with
    | nil => exact Nat.le_refl n
    | cons x xs ih => exact Nat.le_trans (Nat.le_max_left _ _) (ih _)
  induction slots generalizing n with
  | nil => cases h
  | cons x xs ih =>
    rcases List.mem_cons.1 h with rfl | h
    · exact Nat.le_trans (Nat.le_max_right _ _) (hmono xs _)
    · exact ih h _

theorem FlowGraph.writtenLocals_getD {g : FlowGraph} {n : Nat} :
    g.writtenLocals.getD n false = true ↔ (n : Int) ∈ g.writtenSlots := by
  simp only [writtenLocals, List.getD, List.getElem?_map]
  by_cases hn : n < g.writtenCount
  · simp [List.getElem?_range hn]
  · have hnot : (n : Int) ∉ g.writtenSlots := by
      intro h
      have hle := le_foldl_max h 0
      rw [← writtenCount] at hle
      omega
    rw [List.getElem?_eq_none (by rwa [List.length_range, ← Nat.not_lt])]
    simpa using hnot

/-- A widened local has a mark only if no instruction writes it. -/
theorem param_of_widen {g : FlowGraph} {f : Frame} {i : Int} {k : Nat}
    (h : ((f.widen g.writtenLocals).localAt i).param = some k) :
    (f.localAt i).param = some k ∧ i ∉ g.writtenSlots := by
  rcases Int.lt_or_le i 0 with hi | hi
  · rw [localAt_of_neg hi] at h
    cases h
  · obtain ⟨n, rfl⟩ := Int.eq_ofNat_of_zero_le hi
    rw [localAt_widen] at h
    cases hv : f.localAt n with
    | pad =>
      rw [hv] at h
      cases h
    | slot kind fact p =>
      rw [hv] at h
      simp only [forget, Value.param] at h
      split at h
      case isTrue hn =>
        refine ⟨h, fun hmem => ?_⟩
        rw [writtenLocals_getD.2 hmem] at hn
        cases hn
      case isFalse => cases h

theorem FlowGraph.mem_writtenSlots {g : FlowGraph} {b : Nat} {ins : Instruction} {i : Int}
    (hins : ins ∈ g.code b) (hi : i ∈ ins.writtenSlots) : i ∈ g.writtenSlots := by
  obtain ⟨block, hblock, hins⟩ := exists_block hins
  exact List.mem_flatMap.2 ⟨block, hblock, List.mem_flatMap.2 ⟨ins, hins, hi⟩⟩

theorem Frame.Moves.localAt {ins : Instruction} {o : Operation} {f f' : Frame} {i : Int}
    (h : Moves ins f o f') (ho : ins.op.operation? = some o) (hi : i ∉ ins.writtenSlots) :
    f'.localAt i = f.localAt i ∨ f'.localAt i = .unusable := by
  cases h with
  | load => exact .inl rfl
  | store k slot v n f₁ f' ht hk hn hs =>
    have hwide : v.isWide = k.wide := by rw [Value.isWide, hk]
    rw [ht.frame]
    unfold Instruction.writtenSlots at hi
    simp only [ho, hn] at hi
    refine hs.other i ?_ fun hw => ?_
    · rintro rfl
      split at hi <;> simp at hi
    · rintro rfl
      rw [if_pos (hwide ▸ hw)] at hi
      simp at hi
  | increment n f' hk hn hs =>
    unfold Instruction.writtenSlots at hi
    simp only [ho, hn, List.mem_singleton] at hi
    refine hs.other i hi fun hw => ?_
    rw [Value.isWide, kind_constOrTop] at hw
    cases hw
  | pop v f' hf | dup v f' hf | shuffle p taken rest f' hlen hf hs =>
    rw [hf]
    exact .inl rfl
  | throwObject v f' ht =>
    rw [ht.frame]
    exact .inl rfl

/-- An instruction may spoil a local that it does not write, but not change it. -/
theorem step_localAt {s : Subject} {b : Nat} {fr : Int} {ins : Instruction} {m m' : Machine}
    {u : Unit} {i : Int} (hv : s.visitor = Visitor.anyResult)
    (h : Step.step s b fr ins m = .ok u m') (hi : i ∉ ins.writtenSlots) :
    m'.frame.localAt i = m.frame.localAt i ∨ m'.frame.localAt i = .unusable := by
  obtain ⟨o, ho, h⟩ := Step.step_ok h
  cases hplain : o.isPlain with
  | true =>
    obtain ⟨args, hk, hp⟩ := Step.transfer_performs hv hplain h
    obtain ⟨f₁, ht, hf'⟩ := hp.frame
    rw [ht.frame, hf']
    exact .inl rfl
  | false => exact (Step.transfer_moves hplain h).1.localAt ho hi

/-! ## Sequential runs -/

/-- The machines of sequential runs: they start with the arguments, follow edges from the entry and
    apply one instruction after another. -/
inductive Follows (s : Subject) (g : FlowGraph) : (b j : Nat) → Machine → Prop where
  | start : Follows s g g.entry 0 { frame := Frame.entry s.method }
  | step (b j : Nat) (ins : Instruction) (q q' : Machine) (h : Follows s g b j q)
      (hins : (g.code b)[j]? = some ins)
      (hstep : Step.step s b (g.frequency b) ins q = .ok () q') : Follows s g b (j + 1) q'
  | edge (b b' : Nat) (q : Machine) (h : Follows s g b (g.code b).length q)
      (hs : b' ∈ g.succs b) : Follows s g b' 0 q

variable {s : Subject} {g : FlowGraph} {b j k : Nat} {q : Machine} {i : Int}
  {r : RunResult} {cancelled : Bool}

/-- In the analysis, a local that no instruction writes has no other mark than at the entry. -/
theorem param_of_unwritten {m : Machine} (hv : s.visitor = Visitor.anyResult)
    (h : s.machineAt g b j = some m) (hi : i ∉ g.writtenSlots)
    (hk : (m.frame.localAt i).param = some k) :
    ((Frame.entry s.method).localAt i).param = some k := by
  have hkept : s.Kept g fun f => (f.localAt i).param = some k →
      ((Frame.entry s.method).localAt i).param = some k :=
    { entry := id
      widen := by
        intro f hf hw
        exact hf (param_of_widen hw).1
      merge := by
        intro f o f' hf _ hm hk'
        exact hf (param_merged (merge_ok hm) hk').1
      step := by
        intro b ins m m' hins hf hstep hk'
        rcases step_localAt hv hstep fun hi' => hi (mem_writtenSlots hins hi') with h | h
        · exact hf (h ▸ hk')
        · rw [h] at hk'
          cases hk' }
  exact hkept.machineAt h hk

namespace Follows

theorem mem_reversePostorder (h : Follows s g b j q) : b ∈ g.reversePostorder := by
  induction h with
  | start => exact entry_mem_reversePostorder g
  | step b j ins q q' h hins hstep ih => exact ih
  | edge b b' q h hs ih => exact succ_mem_reversePostorder ih hs

/-- In a sequential run, a local that no instruction writes is as at the entry, or spoilt. -/
theorem localAt_of_unwritten (hv : s.visitor = Visitor.anyResult) (h : Follows s g b j q)
    (hi : i ∉ g.writtenSlots) :
    q.frame.localAt i = (Frame.entry s.method).localAt i ∨ q.frame.localAt i = .unusable := by
  induction h with
  | start => exact .inl rfl
  | step b j ins q q' h hins hstep ih =>
    have hnot : i ∉ ins.writtenSlots :=
      fun hi' => hi (mem_writtenSlots (List.mem_of_getElem? hins) hi')
    rcases step_localAt hv hstep hnot with hq | hq
    · rw [hq]
      exact ih
    · exact .inr hq
  | edge b b' q h hs ih => exact ih

/-- A widened frame keeps only marks that no sequential run contradicts. -/
theorem truthful_widen {f : Frame} (hv : s.visitor = Visitor.anyResult)
    (hf : ∀ i k, i ∉ g.writtenSlots → (f.localAt i).param = some k →
      ((Frame.entry s.method).localAt i).param = some k) (h : Follows s g b j q) :
    (f.widen g.writtenLocals).Truthful q.frame where
  stack := by
    refine MarksAgree.of_unmarked fun v hv => ?_
    obtain ⟨w, -, rfl⟩ := List.mem_map.1 hv
    cases w <;> rfl
  locals := by
    intro i k hk
    obtain ⟨hfk, hi⟩ := param_of_widen hk
    rcases h.localAt_of_unwritten hv hi with hq | hq
    · rw [hq]
      exact .inl (hf i k hi hfk)
    · rw [hq]
      exact .inr rfl

/-- The marks on entry to a block are true of what comes along any edge. -/
theorem truthful_entered {b' : Nat} {f : Frame} {m : Machine}
    (hv : s.visitor = Visitor.anyResult) (hf : s.Entered g b' f)
    (h : Follows s g b (g.code b).length q) (hs : b' ∈ g.succs b)
    (hm : s.machineAfter g b = some m) (ht : m.frame.Truthful q.frame) : f.Truthful q.frame := by
  cases hf with
  | params hb' hnone => exact absurd hs (hnone b h.mem_reversePostorder)
  | restarted hb' => exact h.truthful_widen hv fun i k _ hk => hk
  | widened hb' f hf =>
    obtain ⟨p, -, -, m', hm', rfl⟩ := hf
    exact h.truthful_widen hv fun i k hi hk => param_of_unwritten hv hm' hi hk
  | merged hb' f fs f' hfs hall hmerge =>
    obtain ⟨m₁, hm₁, hmem⟩ := hall b h.mem_reversePostorder hs
    obtain rfl : m = m₁ := Option.some.inj (hm.symm.trans hm₁)
    exact of_mergeAll (fun _ _ _ => Truthful.merge) hmem ht hmerge

/-- At every point of a sequential run, the marks of the analysis are true of it. -/
theorem truthful_machineAt (hv : s.visitor = Visitor.anyResult)
    (hrun : (s.run g cancelled).outcome = .ok r) (h : Follows s g b j q) :
    ∃ m, s.machineAt g b j = some m ∧ m.frame.Truthful q.frame := by
  induction h with
  | start =>
    obtain ⟨m, hm, hentered⟩ := Subject.exists_entered hrun (entry_mem_reversePostorder g)
    refine ⟨m, hm, ?_⟩
    generalize m.frame = f at hentered
    cases hentered with
    | params => exact Truthful.refl _
    | restarted => exact Follows.start.truthful_widen hv fun i k _ hk => hk
    | widened hb => exact absurd rfl hb
    | merged hb => exact absurd rfl hb
  | step b j ins q q' h hins hstep ih =>
    obtain ⟨m, hm, ht⟩ := ih
    obtain ⟨m', hm', hstep'⟩ := Subject.exists_step hrun h.mem_reversePostorder hins hm
    exact ⟨m', hm', ht.step hv hstep' hstep⟩
  | edge b b' q h hs ih =>
    obtain ⟨m, hm, ht⟩ := ih
    have hb' := succ_mem_reversePostorder h.mem_reversePostorder hs
    obtain ⟨m', hm', hentered⟩ := Subject.exists_entered hrun hb'
    exact ⟨m', hm', h.truthful_entered hv hentered hs hm ht⟩

end Follows

/-! ## Predicates -/

/-- The operand that an instruction tests: the deepest of those it takes. -/
def Instruction.tested? (ins : Instruction) (f : Frame) : Option Value :=
  ins.op.operation?.bind fun o =>
    if o.isTest then f.stack[slotCount (o.inputs ins).dropLast]? else none

/-- Predicate `p` is noted when the analysis applies instruction `j` of block `b`. -/
def Subject.Noted (s : Subject) (g : FlowGraph) (b j : Nat) (p : Predicate) : Prop :=
  ∃ m m', s.machineAt g b j = some m ∧ s.machineAt g b (j + 1) = some m'
    ∧ p ∈ m'.predicates.drop m.predicates.length

theorem wide_of_isTest {ins : Instruction} {o : Operation} {kind : Kind} (ho : o.isTest = true)
    (hk : (o.inputs ins).getLast? = some kind) : kind.wide = false := by
  cases o with
  | testZero c | testNull c | arrayLength | checkCast | instanceOf =>
    cases hk
    rfl
  | readField ofObject | writeField ofObject =>
    obtain rfl : ofObject = true := ho
    simp only [Operation.inputs, Operation.receiver, if_true, List.getLast?_append,
      List.getLast?_singleton, Option.some_or, Option.some.injEq] at hk
    subst hk
    rfl
  | invoke call =>
    have hrec : call.hasReceiver = true := ho
    cases hsig : ins.signature? with
    | none => simp [Operation.inputs, hsig] at hk
    | some sig =>
      simp only [Operation.inputs, hsig, hrec, Operation.receiver, if_true, Option.elim_some,
        List.getLast?_append, List.getLast?_singleton, Option.some_or, Option.some.injEq] at hk
      subst hk
      rfl
  | _ => cases ho

/-- The last of some operands on the stack. -/
theorem getElem?_flatMap_cells {args : List Value} {v : Value} (h : args.getLast? = some v)
    (hw : v.isWide = false) (rest : List Value) :
    (args.flatMap cells ++ rest)[slotCount (args.map Value.kind).dropLast]? = some v := by
  obtain ⟨init, rfl⟩ := List.getLast?_eq_some_iff.1 h
  rw [List.map_append, List.map_singleton, List.dropLast_concat, ← length_flatMap_cells,
    List.flatMap_append, List.flatMap_singleton, cells_narrow hw, List.append_assoc,
    List.getElem?_append_right (Nat.le_refl _), Nat.sub_self]
  rfl

/-- The operand that an instruction tests is the last one that it takes. -/
theorem tested?_of_takes {ins : Instruction} {o : Operation} {f f₁ : Frame} {args : List Value}
    {v : Value} (ho : ins.op.operation? = some o) (htest : o.isTest = true)
    (hk : args.map Value.kind = o.inputs ins) (ht : Takes f args f₁)
    (hlast : args.getLast? = some v) : ins.tested? f = some v := by
  have hkind : (o.inputs ins).getLast? = some v.kind := by
    rw [← hk, List.getLast?_map, hlast, Option.map_some]
  rw [Instruction.tested?, ho, Option.bind_some, if_pos htest, ← hk, ht.frame]
  exact getElem?_flatMap_cells hlast (wide_of_isTest htest hkind) _

theorem step_predicates {fr : Int} {ins : Instruction} {m m' : Machine} {u : Unit}
    (hv : s.visitor = Visitor.anyResult) (h : Step.step s b fr ins m = .ok u m') :
    m.predicates <+: m'.predicates := by
  obtain ⟨o, ho, h⟩ := Step.step_ok h
  cases hplain : o.isPlain with
  | true =>
    obtain ⟨args, -, hp⟩ := Step.transfer_performs hv hplain h
    obtain ⟨ps, hps, -⟩ := hp.notes
    exact ⟨ps, hps.symm⟩
  | false =>
    exact (Step.transfer_moves hplain h).2 ▸ List.prefix_refl _

/-- What an instruction notes about an argument is true of the operand that it tests in any frame of
    which the marks are true. -/
theorem Frame.Truthful.tested {fr : Int} {ins : Instruction} {m m' q' : Machine} {p : Predicate}
    (hv : s.visitor = Visitor.anyResult) (h : Truthful m.frame q.frame)
    (hm : Step.step s b fr ins m = .ok () m') (hq : Step.step s b fr ins q = .ok () q')
    (hp : p ∈ m'.predicates.drop m.predicates.length) :
    ∃ v k, ins.tested? q.frame = some v ∧ v.param = some k ∧ p.param = (k : Int) := by
  obtain ⟨o, ho, hm⟩ := Step.step_ok hm
  obtain ⟨o', ho', hq⟩ := Step.step_ok hq
  obtain rfl : o = o' := Option.some.inj (ho.symm.trans ho')
  cases hplain : o.isPlain with
  | true =>
    obtain ⟨args, hk, hperforms⟩ := Step.transfer_performs hv hplain hm
    obtain ⟨args', hk', hperforms'⟩ := Step.transfer_performs hv hplain hq
    obtain ⟨ps, hps, hnotes⟩ := hperforms.notes
    rw [hps, List.drop_left] at hp
    obtain ⟨htest, v, hlast, k, hvk, hpk⟩ := hnotes p hp
    obtain ⟨f₁, ht, -⟩ := hperforms.frame
    obtain ⟨q₁, ht', -⟩ := hperforms'.frame
    -- the other run takes operands of the same kinds, so it has a last one too
    have hkind : args'.getLast?.map Value.kind = some v.kind := by
      rw [← List.getLast?_map, hk', ← hk, List.getLast?_map, hlast, Option.map_some]
    obtain ⟨w, hlast', -⟩ := Option.map_eq_some_iff.1 hkind
    have hvt := tested?_of_takes ho htest hk ht hlast
    have hwt := tested?_of_takes ho htest hk' ht' hlast'
    refine ⟨w, k, hwt, ?_, hpk⟩
    rw [Instruction.tested?, ho, Option.bind_some, if_pos htest] at hvt hwt
    exact h.stack _ v w k hvt hwt hvk
  | false =>
    rw [(Step.transfer_moves hplain hm).2, List.drop_length] at hp
    cases hp

/-! ## The summary -/

namespace Subject

theorem Noted.lt {p : Predicate} (h : s.Noted g b j p) : j < (g.code b).length := by
  by_contra hlt
  obtain ⟨m, m', hm, hm', hp⟩ := h
  rw [machineAt_succ_of_le (Nat.le_of_not_lt hlt), hm] at hm'
  cases hm'
  simp at hp

/-- What is noted up to a point of a block. -/
theorem mem_predicates_machineAt {m₀ m : Machine} {p : Predicate}
    (hv : s.visitor = Visitor.anyResult) (h₀ : s.machineOn g b = some m₀)
    (h : s.machineAt g b j = some m) :
    p ∈ m.predicates ↔ p ∈ m₀.predicates ∨ ∃ i < j, s.Noted g b i p := by
  induction j generalizing m with
  | zero =>
    rw [machineAt_zero, h₀] at h
    cases h
    simp
  | succ j ih =>
    cases hins : (g.code b)[j]? with
    | none =>
      have hle : (g.code b).length ≤ j := List.getElem?_eq_none_iff.1 hins
      have hnot : ¬s.Noted g b j p := fun hj => Nat.not_lt.2 hle hj.lt
      rw [machineAt_succ_of_le hle] at h
      rw [ih h, Nat.exists_lt_succ_right, or_iff_left hnot]
    | some ins =>
      obtain ⟨m₁, hm₁, hstep⟩ := (machineAt_succ hins).1 h
      obtain ⟨ps, hps⟩ := step_predicates hv hstep
      have hnoted : s.Noted g b j p ↔ p ∈ ps := by
        constructor
        · rintro ⟨n, n', hn, hn', hp⟩
          rw [hm₁] at hn
          rw [h] at hn'
          cases hn
          cases hn'
          rwa [← hps, List.drop_left] at hp
        · intro hp
          exact ⟨m₁, m, hm₁, h, by rwa [← hps, List.drop_left]⟩
      rw [← hps, List.mem_append, ih hm₁, ← hnoted, or_assoc, Nat.exists_lt_succ_right]

/-- What is noted in the blocks of a beginning of the order. -/
theorem mem_predicates_of_visited {pre : List Nat} {done : Progress} {p : Predicate}
    (hv : s.visitor = Visitor.anyResult) (hpre : pre <+: g.reversePostorder)
    (h : runBlocks s g g.writtenLocals g.reachable pre (begin g) = .ok () done) :
    p ∈ done.predicates ↔ ∃ b ∈ pre, ∃ j, s.Noted g b j p := by
  induction pre using List.reverseRecOn generalizing done with
  | nil =>
    cases h
    simp [begin]
  | append_singleton pre b ih =>
    obtain ⟨before, hbefore, -, hcases⟩ := visit_cases hpre h
    have hpred := ih ((List.prefix_append pre [b]).trans hpre) hbefore
    simp only [List.mem_append, List.mem_singleton, or_and_right, exists_or, exists_eq_left,
      ← hpred]
    rcases hcases with ⟨-, hnone, rfl⟩ | ⟨m₀, m, h₀, hafter, hstart, -, hend, -⟩
    · have hnot : ¬∃ j, s.Noted g b j p := by
        rintro ⟨j, m, -, hm, -⟩
        rw [machineAt_of_machineOn_none hnone] at hm
        cases hm
      rw [or_iff_left hnot]
    · rw [hend, mem_predicates_machineAt hv h₀ hafter, hstart]
      refine or_congr_right ⟨?_, ?_⟩
      · rintro ⟨j, -, hj⟩
        exact ⟨j, hj⟩
      · rintro ⟨j, hj⟩
        exact ⟨j, hj.lt, hj⟩

/-- The summary lists what is noted at the points of the run. -/
theorem mem_summary {p : Predicate} (hv : s.visitor = Visitor.anyResult)
    (hrun : (s.run g cancelled).outcome = .ok r) :
    p ∈ r.summary.predicates ↔ ∃ b j, s.Noted g b j p := by
  obtain ⟨done, hdone, -, hpreds, -⟩ := run_ok hrun
  rw [hpreds, mem_predicates_of_visited hv (List.prefix_refl _) hdone]
  refine ⟨fun ⟨b, _, j, h⟩ => ⟨b, j, h⟩, fun ⟨b, j, h⟩ => ⟨b, ?_, j, h⟩⟩
  obtain ⟨m, m', hm, -⟩ := h
  obtain ⟨m₀, h₀, -⟩ := machineAt_eq_some.1 hm
  exact mem_of_machineOn h₀

end Subject

/-- Marks are truthful: the predicates of the summary are those noted at the points of the run, and
    what is noted about an argument is, in every sequential run that gets through the instruction,
    about the operand that it tests. -/
theorem marks_truthful (hv : s.visitor = Visitor.anyResult)
    (hrun : (s.run g cancelled).outcome = .ok r) :
    (∀ p, p ∈ r.summary.predicates ↔ ∃ b j, s.Noted g b j p)
      ∧ ∀ b j p, s.Noted g b j p → ∃ ins, (g.code b)[j]? = some ins
          ∧ ∀ q q', Follows s g b j q → Step.step s b (g.frequency b) ins q = .ok () q' →
            ∃ v k, ins.tested? q.frame = some v ∧ v.param = some k ∧ p.param = (k : Int) := by
  refine ⟨fun p => Subject.mem_summary hv hrun, fun b j p hnoted => ?_⟩
  have hins := List.getElem?_eq_getElem hnoted.lt
  refine ⟨_, hins, fun q q' hq hstep => ?_⟩
  obtain ⟨m, m', hm, hm', hp⟩ := hnoted
  obtain ⟨m₁, hm₁, ht⟩ := hq.truthful_machineAt hv hrun
  obtain ⟨m₂, hm₂, hstep'⟩ := (Subject.machineAt_succ hins).1 hm'
  obtain rfl : m = m₁ := Option.some.inj (hm.symm.trans hm₁)
  obtain rfl : m = m₂ := Option.some.inj (hm.symm.trans hm₂)
  exact ht.tested hv hstep' hstep hp

/-! ## A branch after a loop

The loop at the entry counts its first argument down; the branch after it tests the second. -/

def skipper : Subject :=
  { options := {}
    oracle := none
    visitor := Visitor.anyResult
    method := { id := "C.m(II)V", cls := "C", name := "m", descriptor := "(II)V", isStatic := true,
                maxLocals := 2, signature := ⟨[⟨.int, ""⟩, ⟨.int, ""⟩], ⟨.void, ""⟩⟩ } }

def skipperGraph : FlowGraph :=
  { blocks :=
      [⟨1, [0, 1], [{ bci := 0, op := ⟨132⟩, imm := -1 }]⟩,
        ⟨1, [], [{ bci := 3, op := ⟨27⟩ }, { bci := 4, op := ⟨153⟩, target := 3 }]⟩]
    entry := 0
    entry_lt := by decide
    succs_lt := by decide }

/-- The frame of a sequential run after the loop, with some operands. -/
def skipperFrame (stack : List Value) : Frame := ⟨[.top .int, .slot .int none (some 1)], stack⟩

def skipperResult : RunResult :=
  { summary := ⟨"C.m(II)V", Predicate.branch 1 .eq⟩
    exits := [some (skipperFrame []), some (skipperFrame [])]
    warnings := [] }

theorem skipper_run : (skipper.run skipperGraph false).outcome = .ok skipperResult := by
  cbv

/-- Two rounds of the loop, and the load after it. -/
theorem skipper_follows : Follows skipper skipperGraph 1 1
    { frame := skipperFrame [.slot .int none (some 1)] } := by
  have hround : Follows skipper skipperGraph 0 1 { frame := skipperFrame [] } :=
    .step 0 0 _ _ _ .start rfl rfl
  have hagain : Follows skipper skipperGraph 0 1 { frame := skipperFrame [] } :=
    .step 0 0 _ _ _ (.edge 0 0 _ hround (by decide)) rfl rfl
  exact .step 1 0 _ _ _ (.edge 0 1 _ hagain (by decide)) rfl rfl

theorem skipper_noted : skipper.Noted skipperGraph 1 1 ⟨1, .zero .eq, some (.const 0)⟩ := by
  refine ⟨{ frame := skipperFrame [.slot .int none (some 1)] },
    { frame := skipperFrame [], predicates := Predicate.branch 1 .eq }, ?_, ?_, ?_⟩
  · cbv
  · cbv
  · decide

theorem marks_truthful_skipper :
    (skipper.run skipperGraph false).outcome = .ok skipperResult
      ∧ skipper.Noted skipperGraph 1 1 ⟨1, .zero .eq, some (.const 0)⟩
      ∧ ∃ ins, (skipperGraph.code 1)[1]? = some ins ∧ ∃ (v : Value) (k : Nat),
          ins.tested? (skipperFrame [.slot .int none (some 1)]) = some v ∧ v.param = some k
            ∧ (1 : Int) = k := by
  refine ⟨skipper_run, skipper_noted, ?_⟩
  obtain ⟨ins, hins, h⟩ := (marks_truthful rfl skipper_run).2 1 1 _ skipper_noted
  cases hins
  exact ⟨_, rfl, h _ _ skipper_follows rfl⟩

end InlinePlan
