import InlinePlan.Proofs.Bytecode.Postorder

set_option autoImplicit false

/-! # Edges that lead backwards

The walk behind reverse postorder is a loop over pending blocks (`WalkState.next?`); it ends, and what
it leaves is the order (`turns_reversePostorder`). A turn of the loop keeps that every pending block
reaches the inner ones and that an edge between blocks of the line either leads forwards or closes a
cycle (`Bracketed.next`). So the entry comes first, an edge that leads backwards in the order closes a
cycle, and the order of an acyclic graph is topological. -/

namespace InlinePlan

namespace FlowGraph

variable {g : FlowGraph}

/-- An edge leads from block `p` to block `s`. -/
abbrev Edge (g : FlowGraph) (p s : Nat) : Prop := s ∈ g.succs p

/-- Block `b` lies on a cycle. -/
def OnCycle (g : FlowGraph) (b : Nat) : Prop := Relation.TransGen g.Edge b b

/-- No reachable block lies on a cycle. -/
def Acyclic (g : FlowGraph) : Prop := ∀ b, g.Reachable b → ¬g.OnCycle b

/-- `u` stands before `v` in a list. -/
def Before (l : List Nat) (u v : Nat) : Prop := u ∈ l.takeWhile (· ≠ v)

instance (l : List Nat) (u v : Nat) : Decidable (Before l u v) :=
  inferInstanceAs (Decidable (u ∈ l.takeWhile (· ≠ v)))

theorem Before.idxOf_lt {l : List Nat} {u v : Nat} (h : Before l u v) : l.idxOf u < l.idxOf v := by
  induction l with
  | nil => cases h
  | cons x l ih =>
    unfold Before at h
    by_cases hxv : x = v
    · simp [hxv] at h
    · rw [List.takeWhile_cons_of_pos (by simpa using hxv)] at h
      have hv : (x :: l).idxOf v = l.idxOf v + 1 := by
        simp [List.idxOf_cons, beq_false_of_ne hxv]
      rw [hv]
      rcases List.mem_cons.1 h with rfl | h
      · rw [List.idxOf_cons_self]
        exact Nat.succ_pos _
      · have hu : (x :: l).idxOf u ≤ l.idxOf u + 1 := by
          rw [List.idxOf_cons]
          cases x == u <;> simp
        have := ih h
        omega

/-! ## The loop -/

/-- The state of the walk: the pending blocks, innermost first, with the successors not yet followed,
    the blocks that have been seen, and those that were left, the last one first. -/
structure WalkState where
  pending : List (Nat × List Nat)
  seen : List Nat
  order : List Nat

namespace WalkState

/-- One turn of the loop; there is none when no block is pending. -/
def next? (g : FlowGraph) : WalkState → Option WalkState
  | ⟨[], _, _⟩ => none
  | ⟨(b, []) :: rest, seen, order⟩ => some ⟨rest, seen, b :: order⟩
  | ⟨(b, s :: ss) :: rest, seen, order⟩ =>
    if s ∈ seen then some ⟨(b, ss) :: rest, seen, order⟩
    else some ⟨(s, g.succs s) :: (b, ss) :: rest, s :: seen, order⟩

/-- The loop begins at the entry. -/
def start (g : FlowGraph) : WalkState := ⟨[(g.entry, g.succs g.entry)], [g.entry], []⟩

end WalkState

/-- Some number of turns lead from one state of the walk to another. -/
def Turns (g : FlowGraph) : WalkState → WalkState → Prop :=
  Relation.ReflTransGen fun w w' => w.next? g = some w'

/-- The edges still to follow lead to blocks. -/
def Fits (g : FlowGraph) (pending : List (Nat × List Nat)) : Prop :=
  ∀ q ∈ pending, ∀ s ∈ q.2, s < g.size

section Fits

variable {b s : Nat} {ss : List Nat} {rest : List (Nat × List Nat)}

theorem fits_entry (g : FlowGraph) : g.Fits [(g.entry, g.succs g.entry)] := by
  simpa [Fits] using fun s hs => succs_lt_size hs

theorem Fits.leave (h : g.Fits ((b, ss) :: rest)) : g.Fits rest :=
  fun q hq => h q (List.mem_cons_of_mem _ hq)

theorem Fits.skip (h : g.Fits ((b, s :: ss) :: rest)) : g.Fits ((b, ss) :: rest) := by
  refine List.forall_mem_cons.2 ⟨fun t ht => ?_, h.leave⟩
  exact h _ List.mem_cons_self t (List.mem_cons_of_mem _ ht)

theorem Fits.push (h : g.Fits ((b, s :: ss) :: rest)) :
    g.Fits ((s, g.succs s) :: (b, ss) :: rest) :=
  List.forall_mem_cons.2 ⟨fun _ ht => succs_lt_size ht, h.skip⟩

/-- An edge is passed over because its target has been seen. -/
theorem Fits.mem_seen {seen : List Nat} (h : g.Fits ((b, s :: ss) :: rest))
    (hs : ¬(s ∉ seen ∧ s < g.size)) : s ∈ seen := by
  have hlt := h _ List.mem_cons_self s List.mem_cons_self
  exact Decidable.byContradiction fun hn => hs ⟨hn, hlt⟩

end Fits

/-- The loop ends, and what it has left then is the walk. -/
theorem turns_walk {pending : List (Nat × List Nat)} {seen order : List Nat}
    (hfits : g.Fits pending) :
    ∃ seen', g.Turns ⟨pending, seen, order⟩ ⟨[], seen', g.walk pending seen order⟩ := by
  fun_induction FlowGraph.walk g pending seen order with
  | case1 seen order => exact ⟨seen, .refl⟩
  | case2 seen order b rest ih =>
    obtain ⟨seen', h⟩ := ih hfits.leave
    exact ⟨seen', .head rfl h⟩
  | case3 seen order b s ss rest hs ih =>
    obtain ⟨seen', h⟩ := ih hfits.push
    exact ⟨seen', .head (if_neg hs.1) h⟩
  | case4 seen order b s ss rest hs ih =>
    obtain ⟨seen', h⟩ := ih hfits.skip
    exact ⟨seen', .head (if_pos (hfits.mem_seen hs)) h⟩

theorem turns_reversePostorder (g : FlowGraph) :
    ∃ seen, g.Turns (.start g) ⟨[], seen, g.reversePostorder⟩ :=
  turns_walk (fits_entry g)

/-! ## What a turn keeps -/

/-- What the loop maintains beyond `Walking`: every pending block reaches the inner ones, the entry is
    at the front of the line, and an edge leads forwards in the line or back to a block that reaches its
    source. -/
structure Bracketed (g : FlowGraph) (w : WalkState) : Prop
    extends Walking g w.pending w.seen w.order where
  fits : ∀ q ∈ w.pending, ∀ s ∈ q.2, g.Edge q.1 s
  nested : (w.pending.map Prod.fst).Pairwise fun inner outer =>
    Relation.ReflTransGen g.Edge outer inner
  head : (line w.pending w.order).head? = some g.entry
  back : ∀ u ∈ line w.pending w.order, ∀ v ∈ line w.pending w.order, g.Edge u v →
    Before (line w.pending w.order) u v ∨ Relation.ReflTransGen g.Edge v u

theorem bracketed_start (g : FlowGraph) : g.Bracketed (.start g) where
  toWalking := walking_entry g
  fits := by simp [WalkState.start]
  nested := List.pairwise_singleton _ _
  head := rfl
  back := by
    intro u hu v hv _
    obtain rfl : u = g.entry := by simpa [WalkState.start, line] using hu
    obtain rfl : v = g.entry := by simpa [WalkState.start, line] using hv
    exact .inr .refl

variable {b s : Nat} {ss : List Nat} {rest : List (Nat × List Nat)} {seen order : List Nat}

theorem Bracketed.leave (h : g.Bracketed ⟨(b, []) :: rest, seen, order⟩) :
    g.Bracketed ⟨rest, seen, b :: order⟩ where
  toWalking := h.toWalking.leave
  fits q hq := h.fits q (List.mem_cons_of_mem _ hq)
  nested := (List.pairwise_cons.1 h.nested).2
  head := line_leave b [] rest order ▸ h.head
  back := line_leave b [] rest order ▸ h.back

theorem Bracketed.skip (h : g.Bracketed ⟨(b, s :: ss) :: rest, seen, order⟩) (hs : s ∈ seen) :
    g.Bracketed ⟨(b, ss) :: rest, seen, order⟩ where
  toWalking := h.toWalking.skip hs
  fits := by
    intro q hq t ht
    rcases List.mem_cons.1 hq with rfl | hq
    · exact h.fits (b, s :: ss) List.mem_cons_self t (List.mem_cons_of_mem _ ht)
    · exact h.fits q (List.mem_cons_of_mem _ hq) t ht
  nested := h.nested
  head := h.head
  back := h.back

/-- A block that is pushed comes after all pending blocks and before all that were left. -/
theorem before_pushed {front back : List Nat} {u v : Nat} (hnodup : (front ++ s :: back).Nodup)
    (hu : u ∈ front ++ [s]) (hv : v ∈ s :: back) (huv : u ≠ v) :
    Before (front ++ s :: back) u v := by
  have hfront : ∀ x ∈ front, x ≠ v := fun x hx =>
    (List.nodup_append.1 hnodup).2.2 x hx v hv
  unfold Before
  rw [List.takeWhile_append_of_pos (by simpa using hfront)]
  rcases List.mem_append.1 hu with hu | hu
  · exact List.mem_append_left _ hu
  · obtain rfl := List.mem_singleton.1 hu
    refine List.mem_append_right _ ?_
    rw [List.takeWhile_cons_of_pos (by simpa using huv)]
    exact List.mem_cons_self

theorem Bracketed.push (h : g.Bracketed ⟨(b, s :: ss) :: rest, seen, order⟩) (hs : s ∉ seen) :
    g.Bracketed ⟨(s, g.succs s) :: (b, ss) :: rest, s :: seen, order⟩ := by
  have hedge : g.Edge b s := h.fits (b, s :: ss) List.mem_cons_self s List.mem_cons_self
  have hwalking := h.toWalking.push hedge hs (succs_lt_size hedge)
  obtain ⟨hrest, hnested⟩ := List.pairwise_cons.1 h.nested
  -- the line has the pending blocks in front, then the new block, then those that were left
  let front := (rest.map Prod.fst).reverse ++ [b]
  have hold : line ((b, s :: ss) :: rest) order = front ++ order := by simp [line, front]
  have hnew : line ((s, g.succs s) :: (b, ss) :: rest) order = front ++ s :: order := by
    simp [line, front]
  have hreach : ∀ x ∈ front, Relation.ReflTransGen g.Edge x s := by
    intro x hx
    rcases List.mem_append.1 hx with hx | hx
    · exact (hrest x (List.mem_reverse.1 hx)).tail hedge
    · obtain rfl := List.mem_singleton.1 hx
      exact .single hedge
  have hnodup : (front ++ s :: order).Nodup := hnew ▸ hwalking.nodup
  have hclosed : ∀ x ∈ order, ¬g.Edge x s := by
    intro x hx hxs
    exact hs ((h.seen_iff s).2 (h.closed x hx s hxs))
  refine ⟨hwalking, ?_, ?_, ?_, ?_⟩
  · intro q hq t ht
    rcases List.mem_cons.1 hq with rfl | hq
    · exact ht
    · rcases List.mem_cons.1 hq with rfl | hq
      · exact h.fits (b, s :: ss) List.mem_cons_self t (List.mem_cons_of_mem _ ht)
      · exact h.fits q (List.mem_cons_of_mem _ hq) t ht
  · refine List.pairwise_cons.2 ⟨fun x hx => hreach x ?_, h.nested⟩
    simpa [front, or_comm] using hx
  · have hhead := h.head
    simp only [hold, hnew] at hhead ⊢
    simpa [front, List.head?_append] using hhead
  · have hback := h.back
    simp only [hold, hnew] at hback ⊢
    intro u hu v hv huv
    rcases List.mem_append.1 hu with hu | hu
    · rcases List.mem_append.1 hv with hv | hv
      · -- both blocks were pending already
        refine (hback u (List.mem_append_left _ hu) v (List.mem_append_left _ hv) huv).imp_left ?_
        refine mem_takeWhile_insert ?_ _ _
        exact fun hsv => (List.nodup_append.1 hnodup).2.2 v hv s List.mem_cons_self hsv.symm
      · exact .inl (before_pushed hnodup (List.mem_append_left _ hu) hv
          ((List.nodup_append.1 hnodup).2.2 u hu v hv))
    · rcases List.mem_cons.1 hu with rfl | hleft
      · rcases List.mem_append.1 hv with hv | hv
        · exact .inr (hreach v hv)
        · by_cases hvu : u = v
          · exact .inr (hvu ▸ .refl)
          · exact .inl (before_pushed hnodup (by simp) hv hvu)
      · have hvs : v ≠ s := by
          rintro rfl
          exact hclosed u hleft huv
        have hv : v ∈ front ++ order := by
          simpa [hvs] using hv
        exact (hback u (List.mem_append_right _ hleft) v hv huv).imp_left
          (mem_takeWhile_insert hvs.symm _ _)

theorem Bracketed.next {w w' : WalkState} (h : g.Bracketed w) (hw : w.next? g = some w') :
    g.Bracketed w' := by
  obtain ⟨pending, seen, order⟩ := w
  match pending with
  | [] => cases hw
  | (b, []) :: rest =>
    cases hw
    exact h.leave
  | (b, s :: ss) :: rest =>
    simp only [WalkState.next?] at hw
    split at hw
    case isTrue hs =>
      cases hw
      exact h.skip hs
    case isFalse hs =>
      cases hw
      exact h.push hs

theorem Bracketed.turns {w w' : WalkState} (h : g.Bracketed w) (hw : g.Turns w w') :
    g.Bracketed w' := by
  induction hw with
  | refl => exact h
  | tail _ hnext ih => exact ih.next hnext

/-! ## The order -/

theorem bracketed_reversePostorder (g : FlowGraph) :
    ∃ seen, g.Bracketed ⟨[], seen, g.reversePostorder⟩ := by
  obtain ⟨seen, h⟩ := turns_reversePostorder g
  exact ⟨seen, (bracketed_start g).turns h⟩

theorem head?_reversePostorder (g : FlowGraph) : g.reversePostorder.head? = some g.entry := by
  obtain ⟨_, h⟩ := bracketed_reversePostorder g
  exact h.head

/-- An edge that does not lead forwards in the order leads back to a block that reaches its source. -/
theorem before_or_reaches {u v : Nat} (hu : g.Reachable u) (huv : g.Edge u v) :
    Before g.reversePostorder u v ∨ Relation.ReflTransGen g.Edge v u := by
  obtain ⟨_, h⟩ := bracketed_reversePostorder g
  have hu := mem_reversePostorder.2 hu
  exact h.back u hu v (succ_mem_reversePostorder hu huv) huv

theorem onCycle_of_not_before {u v : Nat} (hu : g.Reachable u) (huv : g.Edge u v)
    (hnot : ¬Before g.reversePostorder u v) : g.OnCycle v :=
  Relation.TransGen.tail' ((before_or_reaches hu huv).resolve_left hnot) huv

/-- The order is topological exactly if the graph is acyclic. -/
theorem acyclic_iff : g.Acyclic ↔ ∀ u ∈ g.reversePostorder, ∀ v ∈ g.succs u,
    Before g.reversePostorder u v := by
  constructor
  · intro h u hu v huv
    have hu := mem_reversePostorder.1 hu
    by_contra hnot
    exact h v (hu.tail huv) (onCycle_of_not_before hu huv hnot)
  · -- along edges the place in the order grows, so no way comes back
    intro h b hb hcycle
    have hgrows : ∀ v, Relation.TransGen g.Edge b v →
        g.Reachable v ∧ g.reversePostorder.idxOf b < g.reversePostorder.idxOf v := by
      intro v hv
      induction hv with
      | single hbv => exact ⟨hb.tail hbv, (h b (mem_reversePostorder.2 hb) _ hbv).idxOf_lt⟩
      | tail _ hvw ih =>
        have hlt := (h _ (mem_reversePostorder.2 ih.1) _ hvw).idxOf_lt
        exact ⟨ih.1.tail hvw, Nat.lt_trans ih.2 hlt⟩
    exact Nat.lt_irrefl _ (hgrows b hcycle).2

/-- Edges between the arms of a branch: block 2 comes before block 1. -/
example : Acyclic
    { blocks := [⟨1, [1, 2], []⟩, ⟨1, [3], []⟩, ⟨1, [3, 1], []⟩, ⟨1, [], []⟩]
      entry := 0
      entry_lt := by decide
      succs_lt := by decide } :=
  acyclic_iff.2 (by decide +kernel)

end FlowGraph

end InlinePlan
