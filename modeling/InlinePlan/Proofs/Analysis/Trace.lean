import InlinePlan.Analysis.Run
import InlinePlan.Proofs.Bytecode.Postorder

set_option autoImplicit false

/-! # Points of a run

A point of a run is a block and a number of its instructions that have been applied. This module
says which machine a run has at each point, how the machines of two points are related that follow
one another in the graph, and how to show a property of all frames of a run. -/

namespace InlinePlan

/-! ## Applying several instructions or blocks -/

theorem runCode_append {s : Subject} {b : Nat} {fr : Int} {c₁ c₂ : List Instruction}
    {m m'' : Machine} :
    runCode s b fr (c₁ ++ c₂) m = .ok () m''
      ↔ ∃ m', runCode s b fr c₁ m = .ok () m' ∧ runCode s b fr c₂ m' = .ok () m'' := by
  induction c₁ generalizing m with
  | nil => simp [runCode]
  | cons ins c₁ ih =>
    simp only [List.cons_append, runCode]
    cases Step.step s b fr ins m with
    | ok a m' => exact ih
    | error e m' => simp

theorem runCode_singleton {s : Subject} {b : Nat} {fr : Int} {ins : Instruction}
    {m m' : Machine} :
    runCode s b fr [ins] m = .ok () m' ↔ Step.step s b fr ins m = .ok () m' := by
  simp only [runCode]
  cases Step.step s b fr ins m <;> simp

theorem runBlocks_append {s : Subject} {g : FlowGraph} {written reachable : List Bool}
    {l₁ l₂ : List Nat} {p p'' : Progress} :
    runBlocks s g written reachable (l₁ ++ l₂) p = .ok () p''
      ↔ ∃ p', runBlocks s g written reachable l₁ p = .ok () p'
          ∧ runBlocks s g written reachable l₂ p' = .ok () p'' := by
  induction l₁ generalizing p with
  | nil => simp [runBlocks]
  | cons b l₁ ih =>
    simp only [List.cons_append, runBlocks]
    cases runBlock s g written reachable b p with
    | ok a p' => exact ih
    | error e p' => simp

theorem runBlocks_singleton {s : Subject} {g : FlowGraph} {written reachable : List Bool}
    {b : Nat} {p p' : Progress} :
    runBlocks s g written reachable [b] p = .ok () p'
      ↔ runBlock s g written reachable b p = .ok () p' := by
  simp only [runBlocks]
  cases runBlock s g written reachable b p <;> simp

/-! ## The machine at a point -/

/-- The frequency of block `b`. -/
def FlowGraph.frequency (g : FlowGraph) (b : Nat) : Int := (g.blocks[b]?).elim 0 (·.frequency)

/-- The machine that enters a block with a frame. -/
def Progress.machine (p : Progress) (frame : Frame) : Machine :=
  { frame, predicates := p.predicates, warnings := p.warnings, calls := p.calls }

namespace Subject

open FlowGraph

/-- The progress of a run before its first block. -/
def begin (g : FlowGraph) : Progress :=
  { exits := List.replicate g.size none
    events := [.started g.size g.reversePostorder.length] }

/-- The progress of a run of `s` over `g` when it comes to block `b`. -/
def progressBefore (s : Subject) (g : FlowGraph) (b : Nat) : Option Progress :=
  match runBlocks s g g.writtenLocals g.reachable (g.reversePostorder.takeWhile (· ≠ b))
      (begin g) with
  | .ok _ p => some p
  | .error _ _ => none

/-- The machine with which a run of `s` over `g` enters block `b`. -/
def machineOn (s : Subject) (g : FlowGraph) (b : Nat) : Option Machine :=
  (s.progressBefore g b).bind fun p =>
    match entryFrame s.method g g.writtenLocals g.reachable p.exits b with
    | .ok (some (frame, _)) => some (p.machine frame)
    | _ => none

/-- The machine of a run of `s` over `g` when `j` instructions of block `b` are done. -/
def machineAt (s : Subject) (g : FlowGraph) (b j : Nat) : Option Machine :=
  (s.machineOn g b).bind fun m =>
    match runCode s b (g.frequency b) ((g.code b).take j) m with
    | .ok _ m' => some m'
    | .error _ _ => none

/-- The machine of a run of `s` over `g` at the end of block `b`. -/
def machineAfter (s : Subject) (g : FlowGraph) (b : Nat) : Option Machine :=
  s.machineAt g b (g.code b).length

variable {s : Subject} {g : FlowGraph}

theorem progressBefore_eq_some {b : Nat} {p : Progress} :
    s.progressBefore g b = some p
      ↔ runBlocks s g g.writtenLocals g.reachable (g.reversePostorder.takeWhile (· ≠ b)) (begin g)
          = .ok () p := by
  unfold progressBefore
  cases runBlocks s g g.writtenLocals g.reachable (g.reversePostorder.takeWhile (· ≠ b)) (begin g)
    <;> simp

/-- The progress before a block is that of a run over the blocks in front of it. -/
theorem progressBefore_of_visited {pre : List Nat} {b : Nat} {p : Progress}
    (hpre : pre ++ [b] <+: g.reversePostorder)
    (hrun : runBlocks s g g.writtenLocals g.reachable pre (begin g) = .ok () p) :
    s.progressBefore g b = some p := by
  rw [progressBefore_eq_some, takeWhile_of_visited hpre]
  exact hrun

theorem machineOn_eq_some {b : Nat} {m : Machine} :
    s.machineOn g b = some m
      ↔ ∃ p frame mode, s.progressBefore g b = some p
          ∧ entryFrame s.method g g.writtenLocals g.reachable p.exits b = .ok (some (frame, mode))
          ∧ m = p.machine frame := by
  unfold machineOn
  cases s.progressBefore g b with
  | none => simp
  | some p =>
    simp only [Option.bind_some, Option.some.injEq, exists_eq_left', exists_and_left]
    split
    case h_1 frame mode h => simp [h, eq_comm]
    case h_2 h =>
      simp only [reduceCtorEq, false_iff, not_exists, not_and]
      intro frame mode hf
      exact absurd hf (h frame mode)

theorem machineAt_eq_some {b j : Nat} {m : Machine} :
    s.machineAt g b j = some m
      ↔ ∃ m₀, s.machineOn g b = some m₀
          ∧ runCode s b (g.frequency b) ((g.code b).take j) m₀ = .ok () m := by
  unfold machineAt
  cases s.machineOn g b with
  | none => simp
  | some m₀ =>
    simp only [Option.bind_some, Option.some.injEq, exists_eq_left']
    cases runCode s b (g.frequency b) ((g.code b).take j) m₀ <;> simp

theorem machineAt_zero (s : Subject) (g : FlowGraph) (b : Nat) :
    s.machineAt g b 0 = s.machineOn g b := by
  unfold machineAt
  cases s.machineOn g b <;> simp [runCode]

/-- One instruction leads from a point to the next. -/
theorem machineAt_succ {b j : Nat} {ins : Instruction} {m' : Machine}
    (hins : (g.code b)[j]? = some ins) :
    s.machineAt g b (j + 1) = some m'
      ↔ ∃ m, s.machineAt g b j = some m ∧ Step.step s b (g.frequency b) ins m = .ok () m' := by
  have htake : (g.code b).take (j + 1) = (g.code b).take j ++ [ins] := by
    rw [List.take_add_one, hins, Option.toList_some]
  simp only [machineAt_eq_some, htake, runCode_append, runCode_singleton]
  constructor
  · rintro ⟨m₀, h₀, m, hm, hstep⟩
    exact ⟨m, ⟨m₀, h₀, hm⟩, hstep⟩
  · rintro ⟨m, ⟨m₀, h₀, hm⟩, hstep⟩
    exact ⟨m₀, h₀, m, hm, hstep⟩

/-- There is nothing to do after the last instruction. -/
theorem machineAt_succ_of_le {b j : Nat} (h : (g.code b).length ≤ j) :
    s.machineAt g b (j + 1) = s.machineAt g b j := by
  unfold machineAt
  rw [List.take_of_length_le h, List.take_of_length_le (Nat.le_succ_of_le h)]

/-! ## The visit of a block -/

/-- What visiting a block does: nothing, or it applies the code and keeps the exit frame. -/
theorem runBlock_cases {b : Nat} {p p' : Progress}
    (h : runBlock s g g.writtenLocals g.reachable b p = .ok () p') :
    (entryFrame s.method g g.writtenLocals g.reachable p.exits b = .ok none ∧ p' = p)
      ∨ ∃ frame mode m,
          entryFrame s.method g g.writtenLocals g.reachable p.exits b = .ok (some (frame, mode))
          ∧ runCode s b (g.frequency b) (g.code b) (p.machine frame) = .ok () m
          ∧ p'.exits = p.exits.set b (some m.frame) ∧ p'.predicates = m.predicates
          ∧ p'.calls = m.calls ∧ p'.warnings = m.warnings := by
  unfold runBlock at h
  cases hf : entryFrame s.method g g.writtenLocals g.reachable p.exits b with
  | error e => simp [hf] at h
  | ok r =>
    cases r with
    | none =>
      simp only [hf, EStateM.Result.ok.injEq, true_and] at h
      exact .inl ⟨rfl, h.symm⟩
    | some r =>
      obtain ⟨frame, mode⟩ := r
      simp only [hf] at h
      have hcode : ∀ m, runCode s b (g.frequency b) (g.code b) (p.machine frame) = m →
          runCode s b ((g.blocks[b]?).elim 0 (·.frequency)) (g.code b)
            { frame, predicates := p.predicates, warnings := p.warnings, calls := p.calls } = m :=
        fun m hm => hm
      cases hm : runCode s b (g.frequency b) (g.code b) (p.machine frame) with
      | error e m =>
        rw [hcode _ hm] at h
        simp at h
      | ok a m =>
        rw [hcode _ hm] at h
        simp only [EStateM.Result.ok.injEq, true_and] at h
        subst h
        exact .inr ⟨frame, mode, m, rfl, hm, rfl, rfl, rfl, rfl⟩

/-- What the visit of block `b` does when it comes after the blocks `pre`. -/
theorem visit_cases {pre : List Nat} {b : Nat} {p : Progress}
    (hpre : pre ++ [b] <+: g.reversePostorder)
    (h : runBlocks s g g.writtenLocals g.reachable (pre ++ [b]) (begin g) = .ok () p) :
    ∃ p', runBlocks s g g.writtenLocals g.reachable pre (begin g) = .ok () p'
      ∧ s.progressBefore g b = some p'
      ∧ ((entryFrame s.method g g.writtenLocals g.reachable p'.exits b = .ok none
            ∧ s.machineOn g b = none ∧ p = p')
        ∨ ∃ m₀ m, s.machineOn g b = some m₀ ∧ s.machineAfter g b = some m
            ∧ m₀.predicates = p'.predicates ∧ p.exits = p'.exits.set b (some m.frame)
            ∧ p.predicates = m.predicates ∧ m₀.calls = p'.calls ∧ p.calls = m.calls
            ∧ m₀.warnings = p'.warnings ∧ p.warnings = m.warnings) := by
  obtain ⟨p', hp', hb⟩ := runBlocks_append.1 h
  rw [runBlocks_singleton] at hb
  have hbefore : s.progressBefore g b = some p' := progressBefore_of_visited hpre hp'
  refine ⟨p', hp', hbefore, ?_⟩
  rcases runBlock_cases hb with
    ⟨hf, rfl⟩ | ⟨frame, mode, m, hf, hm, hexits, hpreds, hcalls, hwarnings⟩
  · refine .inl ⟨hf, ?_, rfl⟩
    simp [machineOn, hbefore, hf]
  · have hon := machineOn_eq_some.2 ⟨p', frame, mode, hbefore, hf, rfl⟩
    refine .inr ⟨_, m, hon, ?_, rfl, hexits, hpreds, rfl, hcalls, rfl, hwarnings⟩
    exact machineAt_eq_some.2 ⟨_, hon, by rw [List.take_length]; exact hm⟩

theorem machineAt_of_machineOn_none {b : Nat} (h : s.machineOn g b = none) (j : Nat) :
    s.machineAt g b j = none := by
  rw [machineAt, h, Option.bind_none]

/-- After the blocks of a beginning of the order, the exits of exactly those blocks are known. -/
theorem exits_of_visited {pre : List Nat} {p : Progress} (hpre : pre <+: g.reversePostorder)
    (h : runBlocks s g g.writtenLocals g.reachable pre (begin g) = .ok () p) :
    p.exits.length = g.size ∧ ∀ x, p.exits.getD x none
      = if x ∈ pre then (s.machineAfter g x).map (·.frame) else none := by
  induction pre using List.reverseRecOn generalizing p with
  | nil =>
    simp only [runBlocks, EStateM.Result.ok.injEq, true_and] at h
    subst h
    refine ⟨by simp [begin], fun x => ?_⟩
    by_cases hx : x < g.size <;> simp [begin, List.getD, hx]
  | append_singleton pre b ih =>
    obtain ⟨p', hp', -, hcases⟩ := visit_cases hpre h
    have hlt : b < g.size :=
      lt_size_of_mem_reversePostorder (hpre.subset (List.mem_append_right pre List.mem_cons_self))
    obtain ⟨hlen, hex⟩ := ih ((List.prefix_append pre [b]).trans hpre) hp'
    have hnot : b ∉ pre := by
      intro hm
      have hnodup := hpre.sublist.nodup (nodup_reversePostorder g)
      exact (List.nodup_append.1 hnodup).2.2 b hm b (by simp) rfl
    rcases hcases with ⟨-, hnone, rfl⟩ | ⟨m₀, m, -, hafter, -, hexits, -⟩
    · -- a block that is not entered leaves its exit unknown
      refine ⟨hlen, fun x => ?_⟩
      rw [hex x]
      by_cases hx : x = b
      · subst hx
        simp [hnot, machineAfter, machineAt_of_machineOn_none hnone]
      · simp [hx]
    · refine ⟨by rw [hexits, List.length_set, hlen], fun x => ?_⟩
      rw [hexits, List.getD, List.getElem?_set]
      by_cases hx : b = x
      · subst hx
        simp [hlen, hlt, hafter]
      · have hx' := hex x
        rw [List.getD] at hx'
        simp [hx, Ne.symm hx, hx']

/-! ## Entering a block -/

/-- A visited predecessor of block `b` has exit frame `f`. -/
def Arrives (s : Subject) (g : FlowGraph) (b : Nat) (f : Frame) : Prop :=
  ∃ q ∈ g.reversePostorder.takeWhile (· ≠ b), b ∈ g.succs q
    ∧ ∃ m, s.machineAfter g q = some m ∧ m.frame = f

/-- How a block gets its entry frame. The frames that `merged` joins are those of all reachable
    predecessors. -/
inductive Entered (s : Subject) (g : FlowGraph) (b : Nat) : Frame → Prop where
  | params (hb : b = g.entry) (hnone : ∀ p ∈ g.reversePostorder, b ∉ g.succs p) :
      Entered s g b (Frame.entry s.method)
  | restarted (hb : b = g.entry) : Entered s g b ((Frame.entry s.method).widen g.writtenLocals)
  | widened (hb : b ≠ g.entry) (f : Frame) (hf : s.Arrives g b f) :
      Entered s g b (f.widen g.writtenLocals)
  | merged (hb : b ≠ g.entry) (f : Frame) (fs : List Frame) (frame : Frame)
      (hfs : ∀ x ∈ f :: fs, s.Arrives g b x)
      (hall : ∀ p ∈ g.reversePostorder, b ∈ g.succs p →
        ∃ m, s.machineAfter g p = some m ∧ m.frame ∈ f :: fs)
      (hm : mergeAll f fs = .ok frame) : Entered s g b frame

/-- The frames that are ready when the run comes to a block. -/
theorem mem_readyPreds {b : Nat} {p : Progress} (hp : s.progressBefore g b = some p) (f : Frame) :
    f ∈ (readyPreds g g.reachable p.exits b).1 ↔ s.Arrives g b f := by
  have hpre := List.takeWhile_prefix (l := g.reversePostorder) (· ≠ b)
  obtain ⟨-, hex⟩ := exits_of_visited hpre (progressBefore_eq_some.1 hp)
  simp only [readyPreds, List.mem_filterMap, List.mem_map, List.mem_filter, id_eq,
    exists_eq_right, mem_preds, reachable_getD, hex, Arrives]
  constructor
  · rintro ⟨q, ⟨hq, -⟩, h⟩
    split at h
    case isTrue hmem =>
      obtain ⟨m, hm, hf⟩ := Option.map_eq_some_iff.1 h
      exact ⟨q, hmem, hq, m, hm, hf⟩
    case isFalse => cases h
  · rintro ⟨q, hmem, hq, m, hm, hf⟩
    refine ⟨q, ⟨hq, ?_⟩, ?_⟩
    · simpa using hpre.subset hmem
    · rw [if_pos hmem, hm, ← hf, Option.map_some]

/-- If nothing is still to come, every reachable predecessor is ready. -/
theorem exit_ready {b q : Nat} {p : Progress} (hp : s.progressBefore g b = some p)
    (hpending : (readyPreds g g.reachable p.exits b).2 = false) (hq : q ∈ g.reversePostorder)
    (hb : b ∈ g.succs q) :
    ∃ m, s.machineAfter g q = some m ∧ m.frame ∈ (readyPreds g g.reachable p.exits b).1 := by
  have hpre := List.takeWhile_prefix (l := g.reversePostorder) (· ≠ b)
  obtain ⟨-, hex⟩ := exits_of_visited hpre (progressBefore_eq_some.1 hp)
  have hlive : q ∈ (g.preds b).filter fun p => g.reachable.getD p false := by
    rw [List.mem_filter, reachable_getD]
    exact ⟨mem_preds.2 hb, by simpa using hq⟩
  have hsome := List.any_eq_false.1 hpending _ (List.mem_map_of_mem hlive)
  rw [hex q] at hsome
  split at hsome
  case isTrue hmem =>
    cases hm : s.machineAfter g q with
    | none => simp [hm] at hsome
    | some m => exact ⟨m, rfl, (mem_readyPreds hp _).2 ⟨q, hmem, hb, m, hm, rfl⟩⟩
  case isFalse => simp at hsome

theorem entered_of_machineOn {b : Nat} {m : Machine} (h : s.machineOn g b = some m) :
    s.Entered g b m.frame := by
  obtain ⟨p, frame, mode, hp, hf, rfl⟩ := machineOn_eq_some.1 h
  show s.Entered g b frame
  have hready := mem_readyPreds hp
  have hexit := fun q => exit_ready (q := q) hp
  revert hf hready hexit
  unfold entryFrame
  obtain ⟨ready, pending⟩ := readyPreds g g.reachable p.exits b
  intro hf hready hexit
  simp only at hf hready hexit
  split at hf
  case isTrue hb =>
    split at hf
    case isTrue hsome =>
      cases hf
      exact .restarted hb
    case isFalse hnone =>
      simp only [Bool.or_eq_true, Bool.not_eq_true', List.isEmpty_eq_false_iff, not_or,
        Bool.not_eq_true, Decidable.not_not] at hnone
      cases hf
      refine .params hb fun q hq hs => ?_
      obtain ⟨m, -, hm⟩ := hexit q hnone.1 hq hs
      simp [hnone.2] at hm
  case isFalse hb =>
    cases ready with
    | nil => cases hf
    | cons f fs =>
      simp only at hf
      split at hf
      case isTrue =>
        cases hf
        exact .widened hb f ((hready f).1 List.mem_cons_self)
      case isFalse hpending =>
        have hall := fun q hq hs => hexit q (by simpa using hpending) hq hs
        have hfs : ∀ x ∈ f :: fs, s.Arrives g b x := fun x hx => (hready x).1 hx
        split at hf
        case isTrue hempty =>
          rw [List.isEmpty_iff] at hempty
          subst hempty
          cases hf
          exact .merged hb frame [] frame hfs hall rfl
        case isFalse =>
          cases hmerge : mergeAll f fs with
          | error e =>
            rw [hmerge] at hf
            cases hf
          | ok f' =>
            rw [hmerge] at hf
            cases hf
            exact .merged hb f fs frame hfs hall hmerge

/-! ## Runs that succeed -/

/-- There is room for what a run makes before its first block: the marks of the locals written and the
    locals of the entry frame. -/
structure HasRoom (s : Subject) (g : FlowGraph) : Prop where
  marks : g.writtenCount ≤ maxEntries 1
  locals : Frame.entrySize s.method ≤ Frame.maxSlots

/-- A run lacks room, is cancelled or visits the reachable blocks. -/
theorem run_cases (s : Subject) (g : FlowGraph) (cancelled : Bool) :
    (¬s.HasRoom g ∧ (s.run g cancelled).calls = []
      ∧ ∃ count, (s.run g cancelled).outcome = .error (.start (.noRoom count)))
    ∨ (cancelled = true ∧ (s.run g cancelled).calls = []
      ∧ (s.run g cancelled).outcome = .error .cancelled)
    ∨ (cancelled = false ∧ s.HasRoom g ∧ s.run g cancelled = s.runReachable g) := by
  unfold run
  dsimp only
  split
  · exact .inl ⟨fun h => absurd h.marks (by omega), rfl, _, rfl⟩
  split
  · exact .inr (.inl ⟨‹_›, rfl, rfl⟩)
  split
  · exact .inl ⟨fun h => absurd h.locals (by omega), rfl, _, rfl⟩
  · exact .inr (.inr ⟨by simpa using ‹¬cancelled = true›, ⟨by omega, by omega⟩, rfl⟩)

/-- A run that is cancelled says so, unless there is no room to ask. -/
theorem run_true_cases (s : Subject) (g : FlowGraph) : (s.run g true).outcome = .error .cancelled
    ∨ ∃ e, (s.run g true).outcome = .error (.start e) ∧ s.run g false = s.run g true := by
  unfold run
  dsimp only
  split
  · exact .inr ⟨_, rfl, rfl⟩
  · exact .inl rfl

theorem run_of_room (h : s.HasRoom g) : s.run g false = s.runReachable g := by
  have hmarks := h.marks
  have hlocals := h.locals
  unfold run
  dsimp only
  rw [if_neg (by omega), if_neg Bool.false_ne_true, if_neg (by omega)]

/-- A run that neither lacked room nor was cancelled has visited the reachable blocks. -/
theorem run_of_outcome {cancelled : Bool} {o : Except RunFault RunResult}
    (h : (s.run g cancelled).outcome = o) (hc : o ≠ .error .cancelled)
    (hstart : ∀ e, o ≠ .error (.start e)) :
    cancelled = false ∧ s.HasRoom g ∧ (s.runReachable g).outcome = o := by
  rcases s.run_cases g cancelled with ⟨-, -, _, hrun⟩ | ⟨-, -, hrun⟩ | ⟨hfalse, hroom, hrun⟩
  · exact absurd (h.symm.trans hrun) (hstart _)
  · exact absurd (h.symm.trans hrun) hc
  · exact ⟨hfalse, hroom, hrun ▸ h⟩

theorem runReachable_eq_ok {r : RunResult} : (s.runReachable g).outcome = .ok r
    ↔ ∃ p, runBlocks s g g.writtenLocals g.reachable g.reversePostorder (begin g) = .ok () p
      ∧ r = ⟨⟨s.method.id, p.predicates⟩, p.exits, p.warnings⟩ := by
  simp only [runReachable, begin]
  cases runBlocks s g g.writtenLocals g.reachable g.reversePostorder _ with
  | error e p => simp
  | ok a p => simp [eq_comm]

theorem run_eq_ok {r : RunResult} {cancelled : Bool} :
    (s.run g cancelled).outcome = .ok r ↔ cancelled = false ∧ s.HasRoom g
      ∧ ∃ p, runBlocks s g g.writtenLocals g.reachable g.reversePostorder (begin g) = .ok () p
        ∧ r = ⟨⟨s.method.id, p.predicates⟩, p.exits, p.warnings⟩ := by
  constructor
  · intro h
    obtain ⟨hc, hroom, hrun⟩ := run_of_outcome h nofun fun _ => nofun
    exact ⟨hc, hroom, runReachable_eq_ok.1 hrun⟩
  · rintro ⟨rfl, hroom, hp⟩
    rw [run_of_room hroom]
    exact runReachable_eq_ok.2 hp

theorem calls_of_run (hroom : s.HasRoom g) {p : Progress}
    (h : runBlocks s g g.writtenLocals g.reachable g.reversePostorder (begin g) = .ok () p) :
    (s.run g false).calls = p.calls := by
  rw [begin] at h
  rw [run_of_room hroom, runReachable, h]

theorem run_ok {r : RunResult} {cancelled : Bool} (h : (s.run g cancelled).outcome = .ok r) :
    ∃ p, runBlocks s g g.writtenLocals g.reachable g.reversePostorder (begin g) = .ok () p
      ∧ r.exits = p.exits ∧ r.summary.predicates = p.predicates
      ∧ (s.run g cancelled).calls = p.calls := by
  obtain ⟨rfl, hroom, p, hp, rfl⟩ := run_eq_ok.1 h
  exact ⟨p, hp, rfl, rfl, calls_of_run hroom hp⟩

/-- A block whose predecessor has come through is entered. -/
theorem entryFrame_ne_none {b : Nat} {p : Progress} (hp : s.progressBefore g b = some p)
    (hb : b ∈ g.reversePostorder)
    (hdone : ∀ x ∈ g.reversePostorder.takeWhile (· ≠ b), ∃ m, s.machineAfter g x = some m) :
    entryFrame s.method g g.writtenLocals g.reachable p.exits b ≠ .ok none := by
  intro hf
  have hne : b ≠ g.entry := by
    rintro rfl
    unfold entryFrame at hf
    simp only [if_true] at hf
    split at hf <;> cases hf
  obtain ⟨q, hq, hs⟩ := exists_pred_before hb hne
  obtain ⟨m, hm⟩ := hdone q hq
  have hready := (mem_readyPreds hp m.frame).2 ⟨q, hq, hs, m, hm, rfl⟩
  unfold entryFrame at hf
  simp only [if_neg hne] at hf
  split at hf
  case h_1 hnil => simp [hnil] at hready
  case h_2 f fs _ =>
    split at hf
    · cases hf
    · split at hf
      · cases hf
      · cases hmerge : mergeAll f fs <;> simp [hmerge, Except.map] at hf

/-- The visits of a run get through every block, since each starts from a predecessor. -/
theorem machineAfter_of_visited {pre : List Nat} {p : Progress}
    (hpre : pre <+: g.reversePostorder)
    (h : runBlocks s g g.writtenLocals g.reachable pre (begin g) = .ok () p) :
    ∀ x ∈ pre, ∃ m, s.machineAfter g x = some m := by
  induction pre using List.reverseRecOn generalizing p with
  | nil => simp
  | append_singleton pre b ih =>
    obtain ⟨p', hp', hbefore, hcases⟩ := visit_cases hpre h
    have hpred := ih ((List.prefix_append pre [b]).trans hpre) hp'
    intro x hx
    rcases List.mem_append.1 hx with hx | hx
    · exact hpred x hx
    · obtain rfl := List.mem_singleton.1 hx
      rcases hcases with ⟨hf, -, -⟩ | ⟨m₀, m, -, hafter, -⟩
      · refine absurd hf (entryFrame_ne_none hbefore (hpre.subset (by simp)) ?_)
        rwa [takeWhile_of_visited hpre]
      · exact ⟨m, hafter⟩

variable {r : RunResult} {cancelled : Bool}

theorem machineAfter_of_mem (h : (s.run g cancelled).outcome = .ok r) {b : Nat}
    (hb : b ∈ g.reversePostorder) : ∃ m, s.machineAfter g b = some m := by
  obtain ⟨p, hp, -, -⟩ := run_ok h
  exact machineAfter_of_visited (List.prefix_refl _) hp b hb

/-- A run that succeeds has a machine at every point of every reachable block. -/
theorem machineAt_of_mem (h : (s.run g cancelled).outcome = .ok r) {b : Nat}
    (hb : b ∈ g.reversePostorder) (j : Nat) : ∃ m, s.machineAt g b j = some m := by
  obtain ⟨m', hm'⟩ := machineAfter_of_mem h hb
  obtain ⟨m₀, h₀, hrun⟩ := machineAt_eq_some.1 hm'
  rw [List.take_length, ← List.take_append_drop j (g.code b), runCode_append] at hrun
  obtain ⟨m, hm, -⟩ := hrun
  exact ⟨m, machineAt_eq_some.2 ⟨m₀, h₀, hm⟩⟩

/-- Every reachable block of a run that succeeds is entered. -/
theorem exists_entered (h : (s.run g cancelled).outcome = .ok r) {b : Nat}
    (hb : b ∈ g.reversePostorder) : ∃ m, s.machineAt g b 0 = some m ∧ s.Entered g b m.frame := by
  obtain ⟨m, hm⟩ := machineAt_of_mem h hb 0
  exact ⟨m, hm, entered_of_machineOn (machineAt_zero s g b ▸ hm)⟩

/-- No instruction of a run that succeeds fails. -/
theorem exists_step (h : (s.run g cancelled).outcome = .ok r) {b j : Nat}
    (hb : b ∈ g.reversePostorder) {ins : Instruction} (hins : (g.code b)[j]? = some ins) {m : Machine}
    (hm : s.machineAt g b j = some m) :
    ∃ m', s.machineAt g b (j + 1) = some m'
      ∧ Step.step s b (g.frequency b) ins m = .ok () m' := by
  obtain ⟨m', hm'⟩ := machineAt_of_mem h hb (j + 1)
  obtain ⟨m₁, hm₁, hstep⟩ := (machineAt_succ hins).1 hm'
  obtain rfl : m = m₁ := Option.some.inj (hm.symm.trans hm₁)
  exact ⟨m', hm', hstep⟩

/-- The exit frames that a run reports are those at the ends of the blocks. -/
theorem exits_eq (h : (s.run g cancelled).outcome = .ok r) {b : Nat}
    (hb : b ∈ g.reversePostorder) :
    r.exits.getD b none = (s.machineAfter g b).map (·.frame) := by
  obtain ⟨p, hp, hexits, -⟩ := run_ok h
  rw [hexits, (exits_of_visited (List.prefix_refl _) hp).2 b, if_pos hb]

/-! ## Properties of all frames -/

/-- Only blocks that the entry reaches are entered. -/
theorem mem_of_machineOn {b : Nat} {m : Machine} (h : s.machineOn g b = some m) :
    b ∈ g.reversePostorder := by
  have hof {f : Frame} (hf : s.Arrives g b f) : b ∈ g.reversePostorder := by
    obtain ⟨q, hq, hs, -⟩ := hf
    exact succ_mem_reversePostorder ((List.takeWhile_prefix _).subset hq) hs
  have hentered := entered_of_machineOn h
  generalize m.frame = frame at hentered
  cases hentered with
  | params hb => exact hb ▸ entry_mem_reversePostorder g
  | restarted hb => exact hb ▸ entry_mem_reversePostorder g
  | widened _ f hf => exact hof hf
  | merged _ f fs frame hfs => exact hof (hfs f List.mem_cons_self)

/-- A property of frames that the entry frame has and that widening, merging and every instruction
    of the graph keep. -/
structure Kept (s : Subject) (g : FlowGraph) (P : Frame → Prop) : Prop where
  entry : P (Frame.entry s.method)
  widen : ∀ f, P f → P (f.widen g.writtenLocals)
  merge : ∀ f o f', P f → P o → f.merge o = .ok f' → P f'
  step : ∀ b ins m m', ins ∈ g.code b → P m.frame →
    Step.step s b (g.frequency b) ins m = .ok () m' → P m'.frame

theorem Kept.mergeAll {P : Frame → Prop} (hP : s.Kept g P) {f f' : Frame} {fs : List Frame}
    (hf : ∀ x ∈ f :: fs, P x) (h : InlinePlan.mergeAll f fs = .ok f') : P f' := by
  induction fs generalizing f with
  | nil =>
    cases h
    exact hf f' List.mem_cons_self
  | cons o fs ih =>
    rw [InlinePlan.mergeAll] at h
    cases hm : f.merge o with
    | error e => simp [hm] at h
    | ok f₁ =>
      simp only [hm] at h
      refine ih (fun x hx => ?_) h
      rcases List.mem_cons.1 hx with rfl | hx
      · exact hP.merge f o x (hf f (by simp)) (hf o (by simp)) hm
      · exact hf x (by simp [hx])

theorem Kept.runCode {P : Frame → Prop} (hP : s.Kept g P) {b : Nat} {code : List Instruction}
    (hcode : ∀ ins ∈ code, ins ∈ g.code b) {m m' : Machine} (hm : P m.frame)
    (h : InlinePlan.runCode s b (g.frequency b) code m = .ok () m') : P m'.frame := by
  induction code generalizing m with
  | nil =>
    cases h
    exact hm
  | cons ins code ih =>
    rw [InlinePlan.runCode] at h
    cases hs : Step.step s b (g.frequency b) ins m with
    | error e m₁ => simp [hs] at h
    | ok a m₁ =>
      simp only [hs] at h
      refine ih (fun x hx => hcode x (List.mem_cons_of_mem _ hx)) ?_ h
      exact hP.step b ins m m₁ (hcode ins List.mem_cons_self) hm hs

theorem Kept.entered {P : Frame → Prop} (hP : s.Kept g P) {b : Nat} {frame : Frame}
    (harrive : ∀ f, s.Arrives g b f → P f) (h : s.Entered g b frame) : P frame := by
  cases h with
  | params => exact hP.entry
  | restarted => exact hP.widen _ hP.entry
  | widened _ f hf => exact hP.widen f (harrive f hf)
  | merged _ f fs frame hfs _ hmerge =>
    exact hP.mergeAll (fun x hx => harrive x (hfs x hx)) hmerge

theorem Kept.of_visited {P : Frame → Prop} (hP : s.Kept g P) {pre : List Nat}
    (hpre : pre <+: g.reversePostorder) :
    ∀ b ∈ pre, ∀ j m, s.machineAt g b j = some m → P m.frame := by
  induction pre using List.reverseRecOn with
  | nil => simp
  | append_singleton pre b ih =>
    have hsub : pre <+: g.reversePostorder := (List.prefix_append pre [b]).trans hpre
    have harrive : ∀ f, s.Arrives g b f → P f := by
      rintro f ⟨q, hq, -, m, hm, rfl⟩
      exact ih hsub q (takeWhile_of_visited hpre ▸ hq) _ m hm
    intro x hx j m hm
    rcases List.mem_append.1 hx with hx | hx
    · exact ih hsub x hx j m hm
    · obtain rfl := List.mem_singleton.1 hx
      obtain ⟨m₀, h₀, hrun⟩ := machineAt_eq_some.1 hm
      refine hP.runCode (fun ins hins => List.mem_of_mem_take hins) ?_ hrun
      exact hP.entered harrive (entered_of_machineOn h₀)

/-- A kept property holds at every point. -/
theorem Kept.machineAt {P : Frame → Prop} (hP : s.Kept g P) {b j : Nat} {m : Machine}
    (h : s.machineAt g b j = some m) : P m.frame := by
  obtain ⟨m₀, h₀, -⟩ := machineAt_eq_some.1 h
  exact hP.of_visited (List.prefix_refl _) b (mem_of_machineOn h₀) j m h

/-! ## Records -/

/-- A property of the predicates and the calls that a run has recorded: it holds before the first
    block, and every instruction keeps it at the points of the run. -/
structure Recorded (s : Subject) (g : FlowGraph) (Q : List Predicate → List CallSite → Prop) :
    Prop where
  start : Q [] []
  step : ∀ b j ins m m', (g.code b)[j]? = some ins → s.machineAt g b j = some m →
    Step.step s b (g.frequency b) ins m = .ok () m' → Q m.predicates m.calls →
    Q m'.predicates m'.calls

theorem Recorded.machineAt {Q : List Predicate → List CallSite → Prop} (hQ : s.Recorded g Q)
    {b j : Nat} {m₀ m : Machine} (h₀ : s.machineOn g b = some m₀) (hm₀ : Q m₀.predicates m₀.calls)
    (h : s.machineAt g b j = some m) : Q m.predicates m.calls := by
  induction j generalizing m with
  | zero =>
    rw [machineAt_zero, h₀] at h
    cases h
    exact hm₀
  | succ j ih =>
    cases hins : (g.code b)[j]? with
    | none =>
      rw [machineAt_succ_of_le (List.getElem?_eq_none_iff.1 hins)] at h
      exact ih h
    | some ins =>
      obtain ⟨m₁, hm₁, hstep⟩ := (machineAt_succ hins).1 h
      exact hQ.step b j ins m₁ m hins hm₁ hstep (ih hm₁)

theorem Recorded.of_visited {Q : List Predicate → List CallSite → Prop} (hQ : s.Recorded g Q)
    {pre : List Nat} {p : Progress} (hpre : pre <+: g.reversePostorder)
    (h : runBlocks s g g.writtenLocals g.reachable pre (begin g) = .ok () p) :
    Q p.predicates p.calls := by
  induction pre using List.reverseRecOn generalizing p with
  | nil =>
    cases h
    exact hQ.start
  | append_singleton pre b ih =>
    obtain ⟨p', hp', -, hcases⟩ := visit_cases hpre h
    have hbefore := ih ((List.prefix_append pre [b]).trans hpre) hp'
    rcases hcases with ⟨-, -, rfl⟩ | ⟨m₀, m, h₀, hafter, hpreds₀, -, hpreds, hcalls₀, hcalls, -⟩
    · exact hbefore
    · rw [hpreds, hcalls]
      exact hQ.machineAt h₀ (by rwa [hpreds₀, hcalls₀]) hafter

/-- A recorded property holds of what a run reports. -/
theorem Recorded.run {Q : List Predicate → List CallSite → Prop} (hQ : s.Recorded g Q)
    (h : (s.run g cancelled).outcome = .ok r) :
    Q r.summary.predicates (s.run g cancelled).calls := by
  obtain ⟨p, hp, -, hpreds, hcalls⟩ := run_ok h
  rw [hpreds, hcalls]
  exact hQ.of_visited (List.prefix_refl _) hp

/-! ## Runs that fail -/

theorem runCode_error {b : Nat} {fr : Int} {code : List Instruction} {m m' : Machine}
    {ins : Instruction} {e : Fault} (h : runCode s b fr code m = .error (ins, e) m') :
    ∃ j m₁, code[j]? = some ins ∧ runCode s b fr (code.take j) m = .ok () m₁
      ∧ Step.step s b fr ins m₁ = .error e m' := by
  induction code generalizing m with
  | nil => cases h
  | cons ins' code ih =>
    rw [runCode] at h
    cases hs : Step.step s b fr ins' m with
    | error e' m₁ =>
      simp only [hs, EStateM.Result.error.injEq, Prod.mk.injEq] at h
      obtain ⟨⟨rfl, rfl⟩, rfl⟩ := h
      exact ⟨0, m, rfl, rfl, hs⟩
    | ok a m₁ =>
      simp only [hs] at h
      obtain ⟨j, m₂, hj, hrun, hstep⟩ := ih h
      exact ⟨j + 1, m₂, hj, by rw [List.take_succ_cons, runCode, hs]; exact hrun, hstep⟩

theorem runBlocks_error {written reachable : List Bool} {bs : List Nat} {p p' : Progress}
    {e : RunFault} (h : runBlocks s g written reachable bs p = .error e p') :
    ∃ pre b p₁, pre ++ [b] <+: bs ∧ runBlocks s g written reachable pre p = .ok () p₁
      ∧ runBlock s g written reachable b p₁ = .error e p' := by
  induction bs generalizing p with
  | nil => cases h
  | cons b bs ih =>
    rw [runBlocks] at h
    cases hb : runBlock s g written reachable b p with
    | error e' p₁ =>
      simp only [hb] at h
      cases h
      exact ⟨[], b, p, by simp, rfl, hb⟩
    | ok a p₁ =>
      simp only [hb] at h
      obtain ⟨pre, b', p₂, hpre, hrun, herror⟩ := ih h
      refine ⟨b :: pre, b', p₂, ?_, by rw [runBlocks, hb]; exact hrun, herror⟩
      rw [List.cons_append, List.prefix_cons_inj]
      exact hpre

/-- A block fails where frames do not merge or at an instruction. -/
theorem runBlock_error {b : Nat} {written reachable : List Bool} {p p' : Progress} {f : RunFault}
    (h : runBlock s g written reachable b p = .error f p') :
    (∃ e, f = .mismatch e)
      ∨ ∃ frame mode j ins e m m', f = .instruction s.method.id ins e
          ∧ entryFrame s.method g written reachable p.exits b = .ok (some (frame, mode))
          ∧ (g.code b)[j]? = some ins
          ∧ runCode s b (g.frequency b) ((g.code b).take j) (p.machine frame) = .ok () m
          ∧ Step.step s b (g.frequency b) ins m = .error e m' := by
  unfold runBlock at h
  split at h
  case h_1 e _ =>
    cases h
    exact .inl ⟨e, rfl⟩
  case h_2 => cases h
  case h_3 frame mode hframe =>
    dsimp only at h
    split at h
    case h_1 => cases h
    case h_2 ins e m' hcode =>
      cases h
      obtain ⟨j, m, hj, hrun, hstep⟩ := runCode_error hcode
      exact .inr ⟨frame, mode, j, ins, e, m, m', rfl, hframe, hj, hrun, hstep⟩

/-- A run that visits blocks fails in one of them. -/
theorem exists_failed_block {f : RunFault} (h : (s.runReachable g).outcome = .error f) :
    ∃ b p p', s.progressBefore g b = some p
      ∧ runBlock s g g.writtenLocals g.reachable b p = .error f p' := by
  rw [runReachable] at h
  split at h
  case h_2 => cases h
  case h_1 f' p' hp =>
    cases h
    obtain ⟨pre, b, p, hpre, hrun, hblock⟩ := runBlocks_error hp
    exact ⟨b, p, p', progressBefore_of_visited hpre hrun, hblock⟩

/-- A run fails where frames do not merge or at an instruction, once it visits blocks. -/
theorem fault_of_runReachable {f : RunFault} (h : (s.runReachable g).outcome = .error f) :
    (∃ e, f = .mismatch e) ∨ ∃ ins e, f = .instruction s.method.id ins e := by
  obtain ⟨_, _, _, -, hblock⟩ := exists_failed_block h
  rcases runBlock_error hblock with he | ⟨_, _, _, ins, e, _, _, hf, -⟩
  · exact .inl he
  · exact .inr ⟨ins, e, hf⟩

/-- An instruction that a run fails at fails at a point of the run. -/
theorem run_error {id : MethodId} {ins : Instruction} {e : Fault}
    (h : (s.run g cancelled).outcome = .error (.instruction id ins e)) :
    ∃ b j m m', (g.code b)[j]? = some ins ∧ s.machineAt g b j = some m
      ∧ Step.step s b (g.frequency b) ins m = .error e m' := by
  obtain ⟨-, -, hrun⟩ := run_of_outcome h nofun fun _ => nofun
  obtain ⟨b, p, p', hbefore, hblock⟩ := exists_failed_block hrun
  rcases runBlock_error hblock with
    ⟨_, hf⟩ | ⟨frame, mode, j, ins', e', m, m', hf, hframe, hj, hcode, hstep⟩
  · cases hf
  · cases hf
    have hon := machineOn_eq_some.2 ⟨p, frame, mode, hbefore, hframe, rfl⟩
    exact ⟨b, j, m, m', hj, machineAt_eq_some.2 ⟨_, hon, hcode⟩, hstep⟩

end Subject

end InlinePlan
