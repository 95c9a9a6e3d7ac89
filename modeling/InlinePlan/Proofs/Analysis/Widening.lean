import InlinePlan.Proofs.Analysis.Trace
import InlinePlan.Proofs.Bytecode.DepthFirst

set_option autoImplicit false

/-! # Where a run widens

A run widens the entry frame of a block if a predecessor is still to come, and at the entry if there
is any predecessor. Both show a cycle through the block (`onCycle_of_widened`), so the events of a run,
whatever its end is, tell of widening at such blocks only (`widens_run`). The order of an
acyclic graph is topological, and its runs never widen. -/

namespace InlinePlan

open FlowGraph

namespace Subject

variable {s : Subject} {g : FlowGraph} {b : Nat} {p : Progress}

/-! ## Entering a block -/

/-- A predecessor that is still to come does not stand before the block. -/
theorem exists_pending (hp : s.progressBefore g b = some p)
    (hpending : (readyPreds g g.reachable p.exits b).2 = true) :
    ∃ q, g.Reachable q ∧ g.Edge q b ∧ ¬Before g.reversePostorder q b := by
  have hpre := List.takeWhile_prefix (l := g.reversePostorder) (· ≠ b)
  have hrun := progressBefore_eq_some.1 hp
  simp only [readyPreds, List.any_eq_true, List.mem_map, List.mem_filter, mem_preds, reachable_getD,
    List.contains_eq_mem, decide_eq_true_eq] at hpending
  obtain ⟨_, ⟨q, ⟨hedge, hq⟩, rfl⟩, hnone⟩ := hpending
  refine ⟨q, mem_reversePostorder.1 hq, hedge, fun (hbefore : q ∈ List.takeWhile _ _) => ?_⟩
  -- the exit frames of all blocks before are known
  obtain ⟨m, hm⟩ := machineAfter_of_visited hpre hrun q hbefore
  rw [(exits_of_visited hpre hrun).2 q, if_pos hbefore, hm] at hnone
  cases hnone

theorem onCycle_of_pending (hp : s.progressBefore g b = some p)
    (hpending : (readyPreds g g.reachable p.exits b).2 = true) : g.OnCycle b := by
  obtain ⟨q, hq, hedge, hnot⟩ := exists_pending hp hpending
  exact onCycle_of_not_before hq hedge hnot

/-- A block whose entry frame is widened lies on a cycle. -/
theorem onCycle_of_widened {frame : Frame} (hp : s.progressBefore g b = some p)
    (h : entryFrame s.method g g.writtenLocals g.reachable p.exits b
      = .ok (some (frame, .widened))) : g.OnCycle b := by
  have hready := mem_readyPreds hp
  have hcycle := onCycle_of_pending hp
  unfold entryFrame at h
  dsimp only at h
  split at h
  case isTrue hentry =>
    split at h
    case isFalse => cases h
    case isTrue hloop =>
      rcases Bool.or_eq_true _ _ ▸ hloop with hpending | hsome
      · exact hcycle hpending
      · -- the entry reaches a predecessor of its own
        obtain ⟨f, hf⟩ := List.exists_mem_of_ne_nil _ (by simpa using hsome)
        obtain ⟨q, hq, hedge, -⟩ := (hready f).1 hf
        have hq := mem_reversePostorder.1 ((List.takeWhile_prefix _).subset hq)
        rw [hentry] at hedge ⊢
        exact Relation.TransGen.tail' hq hedge
  case isFalse =>
    split at h
    case h_1 => cases h
    case h_2 f fs _ =>
      split at h
      case isTrue hpending => exact hcycle hpending
      case isFalse =>
        split at h
        · cases h
        · cases hmerge : mergeAll f fs <;> simp [hmerge, Except.map] at h

/-! ## The events of a run -/

/-- Events tell of widening only at reachable blocks on cycles. -/
def WidensOnCycles (g : FlowGraph) (events : List RunEvent) : Prop :=
  ∀ b depth, .block b .widened depth ∈ events → g.Reachable b ∧ g.OnCycle b

theorem WidensOnCycles.append {events events' : List RunEvent} (h : WidensOnCycles g events)
    (h' : WidensOnCycles g events') : WidensOnCycles g (events ++ events') := by
  intro b depth hmem
  rcases List.mem_append.1 hmem with hmem | hmem
  · exact h b depth hmem
  · exact h' b depth hmem

/-- The visit of a block keeps the events so, also if it fails. -/
theorem widens_runBlock (hb : g.Reachable b) (hp : s.progressBefore g b = some p)
    (h : WidensOnCycles g p.events) :
    match runBlock s g g.writtenLocals g.reachable b p with
    | .ok _ p' => WidensOnCycles g p'.events
    | .error _ p' => WidensOnCycles g p'.events := by
  unfold runBlock
  cases hf : entryFrame s.method g g.writtenLocals g.reachable p.exits b with
  | error e => exact h
  | ok entered =>
    cases entered with
    | none => exact h
    | some entered =>
      obtain ⟨frame, mode⟩ := entered
      have hblock : WidensOnCycles g (p.events ++ [.block b mode frame.depth]) := by
        refine h.append fun b' depth hmem => ?_
        cases List.mem_singleton.1 hmem
        exact ⟨hb, onCycle_of_widened hp hf⟩
      dsimp only
      generalize runCode s b _ (g.code b) _ = result
      cases result with
      | ok a m => exact hblock
      | error e m => exact hblock.append fun _ _ hmem => by cases List.mem_singleton.1 hmem

/-- After the blocks `pre`, the visits of the blocks `post` keep the events so. -/
theorem widens_runBlocks (pre post : List Nat) (hpre : pre ++ post <+: g.reversePostorder)
    (hp : runBlocks s g g.writtenLocals g.reachable pre (begin g) = .ok () p)
    (h : WidensOnCycles g p.events) :
    match runBlocks s g g.writtenLocals g.reachable post p with
    | .ok _ p' => WidensOnCycles g p'.events
    | .error _ p' => WidensOnCycles g p'.events := by
  induction post generalizing pre p with
  | nil => exact h
  | cons b post ih =>
    rw [List.append_cons] at hpre
    have hvisited : pre ++ [b] <+: g.reversePostorder := (List.prefix_append _ post).trans hpre
    have hbefore : s.progressBefore g b = some p := progressBefore_of_visited hvisited hp
    have hblock := widens_runBlock (reachable_of_visited hvisited b (by simp)) hbefore h
    rw [runBlocks]
    cases hb : runBlock s g g.writtenLocals g.reachable b p with
    | error e p' =>
      rw [hb] at hblock
      exact hblock
    | ok a p' =>
      rw [hb] at hblock
      exact ih _ hpre (runBlocks_append.2 ⟨p, hp, runBlocks_singleton.2 hb⟩) hblock

/-- Whatever the end of a run is, it widens only at blocks on cycles. -/
theorem widens_run (s : Subject) (g : FlowGraph) (cancelled : Bool) :
    WidensOnCycles g (s.run g cancelled).events := by
  have hstart : WidensOnCycles g (begin g).events :=
    fun _ _ hmem => by cases List.mem_singleton.1 hmem
  have hreachable : WidensOnCycles g (s.runReachable g).events := by
    have hblocks := widens_runBlocks (s := s) [] g.reversePostorder (List.prefix_refl _) rfl hstart
    unfold begin at hblocks
    simp only [runReachable]
    generalize runBlocks s g g.writtenLocals g.reachable g.reversePostorder _ = result at hblocks
    cases result with
    | error e p => exact hblocks
    | ok a p => exact hblocks.append fun _ _ hmem => by cases List.mem_singleton.1 hmem
  unfold run
  dsimp only
  split
  · exact fun _ _ hmem => absurd hmem List.not_mem_nil
  split
  · exact hstart
  split
  · exact hstart
  · exact hreachable

end Subject

/-- Reverse postorder is the order of a depth-first walk. The walk ends. Its order has every reachable
    block once and no other, first the entry, and every other block after one of its predecessors. An
    edge that does not lead forwards in the order leads to a block that reaches its source, and so
    closes a cycle. Runs, however they end, widen only at blocks on cycles. The order is topological
    exactly if the graph is acyclic, and no run widens there. -/
theorem reversePostorder_depthFirst (g : FlowGraph) :
    (∃ seen, g.Turns (.start g) ⟨[], seen, g.reversePostorder⟩)
      ∧ (g.reversePostorder.Nodup ∧ ∀ b, b ∈ g.reversePostorder ↔ g.Reachable b)
      ∧ g.reversePostorder.head? = some g.entry
      ∧ (∀ b ∈ g.reversePostorder, b ≠ g.entry →
          ∃ p, Before g.reversePostorder p b ∧ g.Edge p b)
      ∧ (∀ u v, g.Reachable u → g.Edge u v → ¬Before g.reversePostorder u v →
          Relation.ReflTransGen g.Edge v u)
      ∧ (∀ (s : Subject) cancelled b depth,
          .block b .widened depth ∈ (s.run g cancelled).events → g.Reachable b ∧ g.OnCycle b)
      ∧ (g.Acyclic ↔ ∀ u ∈ g.reversePostorder, ∀ v ∈ g.succs u, Before g.reversePostorder u v)
      ∧ (g.Acyclic → ∀ (s : Subject) cancelled b depth,
          .block b .widened depth ∉ (s.run g cancelled).events) := by
  refine ⟨turns_reversePostorder g, ⟨nodup_reversePostorder g, fun b => mem_reversePostorder⟩,
    head?_reversePostorder g, fun b hb he => exists_pred_before hb he,
    fun u v hu huv hnot => (before_or_reaches hu huv).resolve_left hnot,
    fun s cancelled => s.widens_run g cancelled, acyclic_iff, fun h s cancelled b depth hmem => ?_⟩
  obtain ⟨hreachable, hcycle⟩ := s.widens_run g cancelled b depth hmem
  exact h b hreachable hcycle

end InlinePlan
