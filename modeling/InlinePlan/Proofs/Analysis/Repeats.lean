import InlinePlan.Proofs.Analysis.Semilattice
import InlinePlan.Proofs.Bytecode.Repeats

set_option autoImplicit false

/-! # Runs over repeated edges

A predecessor that leads to a block by several edges is merged as often into its entry frame. Since
a merge takes up what it has merged once (`Frame.Proper.absorb`), a run over the graph without the
repetitions goes through the same frames (`run_withoutRepeats`). It only reports a copy where a
frame had been merged with itself. -/

namespace InlinePlan

/-! ## Merging repeated frames -/

/-- What has been merged already changes nothing. -/
theorem Frame.Proper.absorb {a f x : Frame} (ha : a.Proper) (hx : x.Proper) (h : a.merge x = .ok f) :
    f.merge x = .ok f := by
  have hassoc := ha.join?_assoc hx hx
  rw [hx.join?_self, Option.bind_some, join?_eq_some.2 h, Option.bind_some] at hassoc
  exact join?_eq_some.1 hassoc

theorem mergeAll_of_stutters {a : Frame} {fs fs' : List Frame} (ha : a.Proper)
    (hfs : ∀ x ∈ fs, x.Proper) (h : Stutters fs fs') : mergeAll a fs = mergeAll a fs' := by
  induction h generalizing a with
  | nil => rfl
  | cons x _ ih =>
    rw [List.forall_mem_cons] at hfs
    rw [mergeAll, mergeAll]
    cases hm : a.merge x with
    | error e => rfl
    | ok f => exact ih (ha.merge hfs.1 hm) hfs.2
  | again x _ ih =>
    rw [List.forall_mem_cons] at hfs
    rw [← ih ha hfs.2, mergeAll, mergeAll]
    cases hm : a.merge x with
    | error e => rfl
    | ok f => simp only [mergeAll, ha.absorb hfs.1 hm]

/-- Repeated frames merge into the same as single ones. -/
theorem mergeAll_eq_of_stutters {f : Frame} {fs fs' : List Frame} (hfs : ∀ x ∈ f :: fs, x.Proper)
    (h : Stutters (f :: fs) (f :: fs')) : mergeAll f fs = mergeAll f fs' := by
  have hf := hfs f List.mem_cons_self
  have hstart (xs : List Frame) : mergeAll f (f :: xs) = mergeAll f xs := by
    rw [mergeAll, Frame.join?_eq_some.1 hf.join?_self]
  rw [← hstart fs, mergeAll_of_stutters hf hfs h, hstart]

/-! ## Entry frames -/

/-- The mode with no difference between a merge and a copy. -/
def EntryMode.plain : EntryMode → EntryMode
  | .merged => .copied
  | mode => mode

/-- The entry frame with no difference between a merge and a copy. -/
def plainEntry (entered : Except Mismatch (Option (Frame × EntryMode))) :
    Except Mismatch (Option (Frame × EntryMode)) :=
  entered.map (Option.map (Prod.map id EntryMode.plain))

theorem plainEntry_eq {entered entered' : Except Mismatch (Option (Frame × EntryMode))}
    (h : plainEntry entered = plainEntry entered') :
    (∃ e, entered = .error e ∧ entered' = .error e) ∨ (entered = .ok none ∧ entered' = .ok none)
      ∨ ∃ frame mode mode', entered = .ok (some (frame, mode))
        ∧ entered' = .ok (some (frame, mode')) ∧ mode.plain = mode'.plain := by
  match entered, entered' with
  | .error e, .error e' =>
    cases h
    exact .inl ⟨e, rfl, rfl⟩
  | .ok none, .ok none => exact .inr (.inl ⟨rfl, rfl⟩)
  | .ok (some (frame, mode)), .ok (some (frame', mode')) =>
    simp only [plainEntry, Except.map, Option.map_some, Except.ok.injEq, Option.some.injEq,
      Prod.map_apply, id_eq, Prod.mk.injEq] at h
    obtain ⟨rfl, hmode⟩ := h
    exact .inr (.inr ⟨frame, mode, mode', rfl, rfl, hmode⟩)
  | .error e, .ok _ => cases h
  | .ok _, .error e => cases h
  | .ok none, .ok (some _) => cases h
  | .ok (some _), .ok none => cases h

section Entry

variable {g : FlowGraph} {reachable : List Bool} {exits : Exits} {b : Nat}

theorem stutters_readyPreds (g : FlowGraph) (reachable : List Bool) (exits : Exits) (b : Nat) :
    Stutters (readyPreds g reachable exits b).1 (readyPreds g.withoutRepeats reachable exits b).1 :=
  (((g.stutters_preds b).filter _).map _).filterMap id

theorem pending_withoutRepeats (g : FlowGraph) (reachable : List Bool) (exits : Exits) (b : Nat) :
    (readyPreds g.withoutRepeats reachable exits b).2 = (readyPreds g reachable exits b).2 := by
  have h := ((g.stutters_preds b).filter fun p => reachable.getD p false).map fun p =>
    exits.getD p none
  rw [Bool.eq_iff_iff]
  simp only [readyPreds, List.any_eq_true, h.mem_iff]

/-- However many frames there are to merge, one or more. -/
theorem plainEntry_merged (f : Frame) (fs : List Frame) :
    plainEntry (if fs.isEmpty then .ok (some (f, .copied))
        else (mergeAll f fs).map fun f' => some (f', .merged))
      = (mergeAll f fs).map fun f' => some (f', .copied) := by
  cases fs with
  | nil => rfl
  | cons o fs => cases mergeAll f (o :: fs) <;> simp [plainEntry, Except.map, EntryMode.plain]

theorem entryFrame_withoutRepeats (m : Method) (written : List Bool)
    (hready : ∀ f ∈ (readyPreds g reachable exits b).1, f.Proper) :
    plainEntry (entryFrame m g.withoutRepeats written reachable exits b)
      = plainEntry (entryFrame m g written reachable exits b) := by
  have hstutters := stutters_readyPreds g reachable exits b
  unfold entryFrame
  dsimp only
  rw [pending_withoutRepeats, FlowGraph.entry_withoutRepeats]
  revert hready hstutters
  generalize (readyPreds g reachable exits b).1 = ready
  generalize (readyPreds g.withoutRepeats reachable exits b).1 = ready'
  intro hready hstutters
  obtain ⟨rfl, rfl⟩ | ⟨f, fs, fs', rfl, rfl⟩ := hstutters.head
  · rfl
  · split
    case isTrue => rfl
    case isFalse =>
      dsimp only
      split
      case isTrue => rfl
      case isFalse =>
        rw [plainEntry_merged, plainEntry_merged, mergeAll_eq_of_stutters hready hstutters]

end Entry

/-! ## Runs -/

namespace FlowGraph

theorem frequency_withoutRepeats (g : FlowGraph) (b : Nat) :
    g.withoutRepeats.frequency b = g.frequency b := by
  unfold frequency
  rw [getElem?_withoutRepeats]
  cases g.blocks[b]? <;> rfl

theorem writtenSlots_withoutRepeats (g : FlowGraph) :
    g.withoutRepeats.writtenSlots = g.writtenSlots := List.flatMap_map ..

theorem writtenCount_withoutRepeats (g : FlowGraph) :
    g.withoutRepeats.writtenCount = g.writtenCount := by
  rw [writtenCount, writtenSlots_withoutRepeats, ← writtenCount]

theorem writtenLocals_withoutRepeats (g : FlowGraph) :
    g.withoutRepeats.writtenLocals = g.writtenLocals := by
  unfold writtenLocals
  rw [writtenSlots_withoutRepeats, writtenCount_withoutRepeats]

end FlowGraph

/-- The event with no difference between a merge and a copy. -/
def RunEvent.plain : RunEvent → RunEvent
  | .block id mode depth => .block id mode.plain depth
  | event => event

/-- The progress with no difference between a merge and a copy. -/
def Progress.plain (p : Progress) : Progress := { p with events := p.events.map RunEvent.plain }

def plainResult : EStateM.Result RunFault Progress Unit → EStateM.Result RunFault Progress Unit
  | .ok a p => .ok a p.plain
  | .error e p => .error e p.plain

namespace Subject

open FlowGraph

variable {s : Subject} {g : FlowGraph} {p p' : Progress}

theorem runBlock_withoutRepeats (written reachable : List Bool) (b : Nat) (hp : p'.plain = p.plain)
    (hready : ∀ f ∈ (readyPreds g reachable p.exits b).1, f.Proper) :
    plainResult (runBlock s g.withoutRepeats written reachable b p')
      = plainResult (runBlock s g written reachable b p) := by
  obtain ⟨exits, predicates, warnings, calls, events⟩ := p
  obtain ⟨exits', predicates', warnings', calls', events'⟩ := p'
  simp only [Progress.plain, Progress.mk.injEq] at hp
  obtain ⟨rfl, rfl, rfl, rfl, hevents⟩ := hp
  have hentry := plainEntry_eq (entryFrame_withoutRepeats s.method written hready)
  unfold runBlock
  dsimp only
  rcases hentry with ⟨e, he, he'⟩ | ⟨he, he'⟩ | ⟨frame, mode, mode', he, he', hmode⟩
  · rw [he, he']
    simp [plainResult, Progress.plain, hevents]
  · rw [he, he']
    simp [plainResult, Progress.plain, hevents]
  · rw [he, he', code_withoutRepeats, ← frequency, ← frequency, frequency_withoutRepeats]
    dsimp only
    cases runCode s b (g.frequency b) (g.code b) _ with
    | ok a m => simp [plainResult, Progress.plain, Progress.record, RunEvent.plain, hevents, hmode]
    | error e m => simp [plainResult, Progress.plain, Progress.record, RunEvent.plain, hevents, hmode]

/-- After the blocks `pre`, the visits of the blocks `post` do the same over either graph. -/
theorem runBlocks_withoutRepeats (hvisitor : ∀ calls site, (s.visitor calls site).Made)
    (pre post : List Nat) (hpre : pre ++ post <+: g.reversePostorder)
    (hrun : runBlocks s g g.writtenLocals g.reachable pre (begin g) = .ok () p)
    (hp : p'.plain = p.plain) :
    plainResult (runBlocks s g.withoutRepeats g.writtenLocals g.reachable post p')
      = plainResult (runBlocks s g g.writtenLocals g.reachable post p) := by
  induction post generalizing pre p p' with
  | nil => exact congrArg (EStateM.Result.ok ()) hp
  | cons b post ih =>
    rw [List.append_cons] at hpre
    have hvisited : pre ++ [b] <+: g.reversePostorder := (List.prefix_append _ post).trans hpre
    have hbefore : s.progressBefore g b = some p := progressBefore_of_visited hvisited hrun
    have hblock := runBlock_withoutRepeats (s := s) g.writtenLocals g.reachable b hp <| by
      intro f hf
      obtain ⟨q, -, -, m, hm, rfl⟩ := (mem_readyPreds hbefore f).1 hf
      exact proper_machineAt hvisitor hm
    rw [runBlocks, runBlocks]
    cases hb : runBlock s g g.writtenLocals g.reachable b p with
    | error e q =>
      rw [hb] at hblock
      cases hb' : runBlock s g.withoutRepeats g.writtenLocals g.reachable b p' with
      | error e' q' => rwa [hb'] at hblock
      | ok a q' =>
        rw [hb'] at hblock
        cases hblock
    | ok a q =>
      rw [hb] at hblock
      cases hb' : runBlock s g.withoutRepeats g.writtenLocals g.reachable b p' with
      | error e' q' =>
        rw [hb'] at hblock
        cases hblock
      | ok a' q' =>
        rw [hb'] at hblock
        have hq : q'.plain = q.plain := (EStateM.Result.ok.inj hblock).2
        exact ih _ hpre (runBlocks_append.2 ⟨p, hrun, runBlocks_singleton.2 hb⟩) hq

/-- What a run over the graph without repeated edges has in common with the run over the graph. -/
structure SameRun (r r' : Run) : Prop where
  outcome : r'.outcome = r.outcome
  calls : r'.calls = r.calls
  events : r'.events.map RunEvent.plain = r.events.map RunEvent.plain

theorem sameRun_runReachable (hvisitor : ∀ calls site, (s.visitor calls site).Made) :
    SameRun (s.runReachable g) (s.runReachable g.withoutRepeats) := by
  have hblocks := runBlocks_withoutRepeats hvisitor [] g.reversePostorder (List.prefix_refl _) rfl
    (rfl : (begin g).plain = (begin g).plain)
  unfold begin at hblocks
  unfold runReachable
  rw [reversePostorder_withoutRepeats, reachable_withoutRepeats, writtenLocals_withoutRepeats,
    size_withoutRepeats]
  dsimp only
  revert hblocks
  generalize runBlocks s g g.writtenLocals g.reachable g.reversePostorder _ = result
  generalize runBlocks s g.withoutRepeats g.writtenLocals g.reachable g.reversePostorder _ = result'
  intro hblocks
  match result, result' with
  | .error e p, .error e' p' =>
    simp only [plainResult, Progress.plain, EStateM.Result.error.injEq, Progress.mk.injEq] at hblocks
    obtain ⟨rfl, -, -, -, hcalls, hevents⟩ := hblocks
    exact ⟨rfl, hcalls, hevents⟩
  | .ok a p, .ok a' p' =>
    simp only [plainResult, Progress.plain, EStateM.Result.ok.injEq, Progress.mk.injEq] at hblocks
    obtain ⟨-, hexits, hpredicates, hwarnings, hcalls, hevents⟩ := hblocks
    refine ⟨?_, hcalls, ?_⟩
    · simp only [hexits, hpredicates, hwarnings]
    · simp only [List.map_append, hevents, hpredicates, hwarnings]
  | .error e p, .ok a p' => cases hblocks
  | .ok a p, .error e p' => cases hblocks

theorem sameRun_withoutRepeats (hvisitor : ∀ calls site, (s.visitor calls site).Made)
    (cancelled : Bool) : SameRun (s.run g cancelled) (s.run g.withoutRepeats cancelled) := by
  unfold run
  rw [reversePostorder_withoutRepeats, writtenCount_withoutRepeats, size_withoutRepeats]
  dsimp only
  split
  · exact ⟨rfl, rfl, rfl⟩
  split
  · exact ⟨rfl, rfl, rfl⟩
  split
  · exact ⟨rfl, rfl, rfl⟩
  · exact sameRun_runReachable hvisitor

end Subject

theorem made_anyResult (calls : List CallSite) (site : CallSite) :
    (Visitor.anyResult calls site).Made := by
  rintro f ⟨⟩

/-- Repeated edges are harmless. Described blocks that make a graph make one as well with only the
    first of several edges between the same blocks. A run has the same outcome and calls over either,
    whether it succeeds, fails or finds stacks that do not match; only the merge of a frame with
    itself is reported as a copy. The answers of the visitor must be made, as those of
    `Visitor.anyResult` are. -/
theorem repeated_edges_harmless {blocks : List (Option BlockSpec)} {entry : Int} {g : FlowGraph}
    (h : FlowGraph.build blocks entry = .ok g) :
    ∃ g', FlowGraph.build (blocks.map (Option.map BlockSpec.withoutRepeats)) entry = .ok g'
      ∧ ∀ (s : Subject) cancelled,
        s.visitor = Visitor.anyResult ∨ (∀ calls site, (s.visitor calls site).Made) →
          (s.run g' cancelled).outcome = (s.run g cancelled).outcome
          ∧ (s.run g' cancelled).calls = (s.run g cancelled).calls
          ∧ (s.run g' cancelled).events.map RunEvent.plain
            = (s.run g cancelled).events.map RunEvent.plain := by
  refine ⟨g.withoutRepeats, FlowGraph.build_withoutRepeats h, fun s cancelled hvisitor => ?_⟩
  have hmade : ∀ calls site, (s.visitor calls site).Made := by
    rcases hvisitor with hany | hmade
    · rw [hany]
      exact made_anyResult
    · exact hmade
  have hsame := Subject.sameRun_withoutRepeats (g := g) hmade cancelled
  exact ⟨hsame.outcome, hsame.calls, hsame.events⟩

/-! ## A switch with shared targets -/

def switcher : Subject :=
  { options := {}
    oracle := none
    visitor := Visitor.anyResult
    method := { id := "C.m(I)I", cls := "C", name := "m", descriptor := "(I)I", isStatic := true,
                maxLocals := 2, signature := ⟨[⟨.int, ""⟩], ⟨.int, ""⟩⟩ } }

/-- Three cases of the switch lead to block 1, which leads to block 3 twice. -/
def switching : List (Option BlockSpec) :=
  [some { id := 0, succs := [1, 2, 1, 1], code := [{ bci := 0, op := ⟨26⟩ }, { bci := 1, op := ⟨170⟩ }] },
    some { id := 1, succs := [3, 3], code := [{ bci := 4, op := ⟨4⟩ }, { bci := 5, op := ⟨60⟩ }] },
    some { id := 2, succs := [3], code := [{ bci := 6, op := ⟨5⟩ }, { bci := 7, op := ⟨60⟩ }] },
    some { id := 3, code := [{ bci := 8, op := ⟨27⟩ }, { bci := 9, op := ⟨172⟩ }] }]

def switchGraph : FlowGraph where
  blocks := switching.filterMap (Option.map BlockSpec.toBlock)
  entry := 0
  entry_lt := by decide
  succs_lt := by decide

/-- Both runs have a result, and the same. Only one of them merges the frame of the switch. -/
theorem repeated_edges_harmless_switch :
    FlowGraph.build switching 0 = .ok switchGraph
      ∧ (switcher.run switchGraph false).events
        = [.started 4 4, .block 0 .params 0, .block 2 .copied 0, .block 1 .merged 0,
            .block 3 .merged 0, .completed 0 0]
      ∧ ∃ g', FlowGraph.build (switching.map (Option.map BlockSpec.withoutRepeats)) 0 = .ok g'
        ∧ (switcher.run g' false).events
          = [.started 4 4, .block 0 .params 0, .block 2 .copied 0, .block 1 .copied 0,
              .block 3 .merged 0, .completed 0 0]
        ∧ ∃ r, (switcher.run switchGraph false).outcome = .ok r
          ∧ (switcher.run g' false).outcome = .ok r := by
  have hbuild : FlowGraph.build switching 0 = .ok switchGraph := rfl
  have hok : (switcher.run switchGraph false).outcome.toOption.isSome := by cbv
  obtain ⟨g', hg', hrun⟩ := repeated_edges_harmless hbuild
  have hsame := (hrun switcher false (.inl rfl)).1
  obtain rfl : switchGraph.withoutRepeats = g' :=
    Except.ok.inj ((FlowGraph.build_withoutRepeats hbuild).symm.trans hg')
  refine ⟨hbuild, by cbv, _, hg', by cbv, ?_⟩
  cases hr : (switcher.run switchGraph false).outcome with
  | error e => simp [hr, Except.toOption] at hok
  | ok r => exact ⟨r, rfl, hsame.trans hr⟩

end InlinePlan
