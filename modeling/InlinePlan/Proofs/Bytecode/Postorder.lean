import InlinePlan.Bytecode.FlowGraph
import Mathlib.Data.List.Induction
import Mathlib.Logic.Relation

set_option autoImplicit false

/-! # The order of the blocks

Reverse postorder lists every block that the entry reaches once. Except for the entry, a block comes
after one of its predecessors. The walk that computes the order keeps an invariant about the list
that it would return if all pending blocks were left at once. -/

namespace InlinePlan

namespace FlowGraph

variable {g : FlowGraph}

/-! ## Building -/

theorem build_eq_ok {blocks : List (Option BlockSpec)} {entry : Int} :
    FlowGraph.build blocks entry = .ok g ↔ 0 ≤ entry ∧ entry < blocks.length
      ∧ ∃ specs, checkNumbers 0 blocks = .ok specs ∧ strayEdge? specs.length specs = none
        ∧ g.blocks = specs.map BlockSpec.toBlock ∧ g.entry = entry.toNat := by
  unfold FlowGraph.build
  obtain ⟨gblocks, gentry, -, -⟩ := g
  constructor
  · intro h
    split at h
    · cases h
    · split at h
      · cases h
      · rename_i specs hspecs
        split at h
        · cases h
        · rename_i hstray
          cases h
          exact ⟨by omega, by omega, specs, hspecs, hstray, rfl, rfl⟩
  · rintro ⟨h0, hlt, specs, hspecs, hstray, rfl, rfl⟩
    rw [dif_neg (by omega)]
    split
    · rename_i hspecs'
      rw [hspecs] at hspecs'
      cases hspecs'
    · rename_i hspecs'
      rw [hspecs] at hspecs'
      cases hspecs'
      split
      · rename_i hstray'
        rw [hstray] at hstray'
        cases hstray'
      · rfl

/-! ## Blocks and edges -/

theorem exists_block {b : Nat} {ins : Instruction} (h : ins ∈ g.code b) :
    ∃ block ∈ g.blocks, ins ∈ block.code := by
  unfold code at h
  cases hb : g.blocks[b]? with
  | none => simp [hb] at h
  | some block =>
    rw [hb] at h
    exact ⟨block, List.mem_of_getElem? hb, h⟩

theorem succs_lt_size {b s : Nat} (h : s ∈ g.succs b) : s < g.size := by
  unfold succs at h
  cases hb : g.blocks[b]? with
  | none => simp [hb] at h
  | some block =>
    rw [hb] at h
    exact g.succs_lt block (List.mem_of_getElem? hb) s h

theorem lt_size_of_mem_succs {b s : Nat} (h : s ∈ g.succs b) : b < g.size := by
  rcases Nat.lt_or_ge b g.size with hb | hb
  · exact hb
  · rw [succs, List.getElem?_eq_none hb] at h
    simp at h

theorem mem_preds {p b : Nat} : p ∈ g.preds b ↔ b ∈ g.succs p := by
  unfold preds
  constructor
  · intro h
    simp only [List.mem_flatMap, List.mem_map, List.mem_filter, decide_eq_true_eq] at h
    obtain ⟨q, -, s, ⟨hs, rfl⟩, rfl⟩ := h
    exact hs
  · intro h
    simp only [List.mem_flatMap, List.mem_map, List.mem_filter, decide_eq_true_eq]
    exact ⟨p, List.mem_range.2 (lt_size_of_mem_succs h), b, ⟨h, rfl⟩, rfl⟩

/-! ## The invariant of the walk -/

/-- The order that results if all pending blocks are left now. -/
def line (pending : List (Nat × List Nat)) (order : List Nat) : List Nat :=
  (pending.map Prod.fst).reverse ++ order

/-- What the walk maintains. A block is `led` by a predecessor that stands before it. -/
structure Walking (g : FlowGraph) (pending : List (Nat × List Nat)) (seen order : List Nat) :
    Prop where
  nodup : (line pending order).Nodup
  seen_iff : ∀ x, x ∈ seen ↔ x ∈ line pending order
  entry_mem : g.entry ∈ line pending order
  lt_size : ∀ x ∈ line pending order, x < g.size
  led : ∀ x ∈ line pending order,
    x = g.entry ∨ ∃ p ∈ (line pending order).takeWhile (· ≠ x), x ∈ g.succs p
  followed : ∀ q ∈ pending, ∀ s ∈ g.succs q.1, s ∈ q.2 ∨ s ∈ line pending order
  closed : ∀ x ∈ order, ∀ s ∈ g.succs x, s ∈ line pending order

theorem line_leave (b : Nat) (ss : List Nat) (rest : List (Nat × List Nat)) (order : List Nat) :
    line ((b, ss) :: rest) order = line rest (b :: order) := by
  simp [line]

theorem Walking.leave {b : Nat} {rest : List (Nat × List Nat)} {seen order : List Nat}
    (h : Walking g ((b, []) :: rest) seen order) : Walking g rest seen (b :: order) where
  nodup := line_leave b [] rest order ▸ h.nodup
  seen_iff := line_leave b [] rest order ▸ h.seen_iff
  entry_mem := line_leave b [] rest order ▸ h.entry_mem
  lt_size := line_leave b [] rest order ▸ h.lt_size
  led := line_leave b [] rest order ▸ h.led
  followed := by
    intro q hq s hs
    rw [← line_leave b [] rest order]
    exact h.followed q (List.mem_cons_of_mem _ hq) s hs
  closed := by
    intro x hx s hs
    rw [← line_leave b [] rest order]
    rcases List.mem_cons.1 hx with rfl | hx
    · simpa using h.followed (x, []) List.mem_cons_self s hs
    · exact h.closed x hx s hs

/-- An edge to a block that has been seen is passed over. -/
theorem Walking.skip {b s : Nat} {ss : List Nat} {rest : List (Nat × List Nat)}
    {seen order : List Nat} (h : Walking g ((b, s :: ss) :: rest) seen order) (hs : s ∈ seen) :
    Walking g ((b, ss) :: rest) seen order where
  nodup := h.nodup
  seen_iff := h.seen_iff
  entry_mem := h.entry_mem
  lt_size := h.lt_size
  led := h.led
  closed := h.closed
  followed := by
    intro q hq t ht
    rcases List.mem_cons.1 hq with rfl | hq
    · rcases h.followed (b, s :: ss) List.mem_cons_self t ht with ht | ht
      · rcases List.mem_cons.1 ht with rfl | ht
        · exact .inr ((h.seen_iff t).1 hs)
        · exact .inl ht
      · exact .inr ht
    · exact h.followed q (List.mem_cons_of_mem _ hq) t ht

theorem mem_takeWhile_insert {x s p : Nat} (hx : s ≠ x) (front back : List Nat)
    (h : p ∈ (front ++ back).takeWhile (· ≠ x)) :
    p ∈ (front ++ s :: back).takeWhile (· ≠ x) := by
  induction front with
  | nil =>
    rw [List.nil_append, List.takeWhile_cons_of_pos (by simpa using hx)]
    exact List.mem_cons_of_mem _ h
  | cons y ys ih =>
    by_cases hy : y = x
    · simp [hy] at h
    · simp only [List.cons_append, ne_eq, hy, not_false_eq_true, decide_true,
        List.takeWhile_cons_of_pos, List.mem_cons] at h ⊢
      exact h.imp_right ih

theorem mem_takeWhile_front {s p : Nat} {front : List Nat} (back : List Nat) (hs : s ∉ front)
    (hp : p ∈ front) : p ∈ (front ++ s :: back).takeWhile (· ≠ s) := by
  rw [List.takeWhile_append_of_pos]
  · exact List.mem_append_left _ hp
  · intro y hy
    simpa using fun h : y = s => hs (h ▸ hy)

/-- A new block enters the line right after the block that leads to it. -/
theorem Walking.push {b s : Nat} {ss : List Nat} {rest : List (Nat × List Nat)}
    {seen order : List Nat} (h : Walking g ((b, s :: ss) :: rest) seen order)
    (hb : s ∈ g.succs b) (hs : s ∉ seen) (hlt : s < g.size) :
    Walking g ((s, g.succs s) :: (b, ss) :: rest) (s :: seen) order := by
  have hold : line ((b, s :: ss) :: rest) order
      = ((rest.map Prod.fst).reverse ++ [b]) ++ order := by simp [line]
  have hnew : line ((s, g.succs s) :: (b, ss) :: rest) order
      = ((rest.map Prod.fst).reverse ++ [b]) ++ s :: order := by simp [line]
  have hfresh : s ∉ ((rest.map Prod.fst).reverse ++ [b]) ++ order := by
    rwa [h.seen_iff, hold] at hs
  have hmem : ∀ x, x ∈ line ((s, g.succs s) :: (b, ss) :: rest) order
      ↔ x = s ∨ x ∈ line ((b, s :: ss) :: rest) order := by
    intro x
    rw [hold, hnew]
    simp only [List.mem_append, List.mem_cons]
    grind
  refine ⟨?_, ?_, (hmem _).2 (.inr h.entry_mem), ?_, ?_, ?_, ?_⟩
  · rw [hnew]
    exact List.perm_middle.nodup_iff.2 (List.nodup_cons.2 ⟨hfresh, hold ▸ h.nodup⟩)
  · intro x
    rw [hmem, List.mem_cons, h.seen_iff]
  · intro x hx
    rcases (hmem x).1 hx with rfl | hx
    · exact hlt
    · exact h.lt_size x hx
  · intro x hx
    rw [hnew]
    by_cases hxs : s = x
    · subst hxs
      refine .inr ⟨b, mem_takeWhile_front _ (fun hm => hfresh ?_) (by simp), hb⟩
      exact List.mem_append_left _ hm
    · have hx := ((hmem x).1 hx).resolve_left (Ne.symm hxs)
      rcases h.led x hx with he | ⟨p, hp, hps⟩
      · exact .inl he
      · exact .inr ⟨p, mem_takeWhile_insert hxs _ _ (hold ▸ hp), hps⟩
  · intro q hq t ht
    rcases List.mem_cons.1 hq with rfl | hq
    · exact .inl ht
    · rw [hmem]
      rcases List.mem_cons.1 hq with rfl | hq
      · rcases h.followed (b, s :: ss) List.mem_cons_self t ht with ht | ht
        · rcases List.mem_cons.1 ht with rfl | ht
          · exact .inr (.inl rfl)
          · exact .inl ht
        · exact .inr (.inr ht)
      · exact (h.followed q (List.mem_cons_of_mem _ hq) t ht).imp_right .inr
  · intro x hx t ht
    exact (hmem t).2 (.inr (h.closed x hx t ht))

theorem Walking.walk {pending : List (Nat × List Nat)} {seen order : List Nat}
    (hp : ∀ q ∈ pending, ∀ s ∈ q.2, s ∈ g.succs q.1) (h : Walking g pending seen order) :
    ∃ seen', Walking g [] seen' (g.walk pending seen order) := by
  fun_induction FlowGraph.walk g pending seen order with
  | case1 seen order => exact ⟨seen, h⟩
  | case2 seen order b rest ih =>
    exact ih (fun q hq => hp q (List.mem_cons_of_mem _ hq)) h.leave
  | case3 seen order b s ss rest hs ih =>
    have hb : s ∈ g.succs b := hp _ List.mem_cons_self s List.mem_cons_self
    refine ih ?_ (h.push hb hs.1 hs.2)
    intro q hq t ht
    rcases List.mem_cons.1 hq with rfl | hq
    · exact ht
    · rcases List.mem_cons.1 hq with rfl | hq
      · exact hp _ List.mem_cons_self t (List.mem_cons_of_mem _ ht)
      · exact hp q (List.mem_cons_of_mem _ hq) t ht
  | case4 seen order b s ss rest hs ih =>
    have hb : s ∈ g.succs b := hp _ List.mem_cons_self s List.mem_cons_self
    refine ih ?_ (h.skip ?_)
    · intro q hq t ht
      rcases List.mem_cons.1 hq with rfl | hq
      · exact hp _ List.mem_cons_self t (List.mem_cons_of_mem _ ht)
      · exact hp q (List.mem_cons_of_mem _ hq) t ht
    · exact Decidable.byContradiction fun hn => hs ⟨hn, succs_lt_size hb⟩

/-! ## The order -/

theorem walking_entry (g : FlowGraph) :
    Walking g [(g.entry, g.succs g.entry)] [g.entry] [] where
  nodup := by simp [line]
  seen_iff := by simp [line]
  entry_mem := by simp [line]
  lt_size := by simpa [line, size] using g.entry_lt
  led := by simp [line]
  followed := by simp +contextual [line]
  closed := by simp

theorem walking_reversePostorder (g : FlowGraph) :
    ∃ seen, Walking g [] seen g.reversePostorder :=
  (walking_entry g).walk (by simp)

theorem nodup_reversePostorder (g : FlowGraph) : g.reversePostorder.Nodup := by
  obtain ⟨_, h⟩ := walking_reversePostorder g
  exact h.nodup

theorem entry_mem_reversePostorder (g : FlowGraph) : g.entry ∈ g.reversePostorder := by
  obtain ⟨_, h⟩ := walking_reversePostorder g
  exact h.entry_mem

theorem lt_size_of_mem_reversePostorder {b : Nat} (hb : b ∈ g.reversePostorder) : b < g.size := by
  obtain ⟨_, h⟩ := walking_reversePostorder g
  exact h.lt_size b hb

theorem succ_mem_reversePostorder {b s : Nat} (hb : b ∈ g.reversePostorder) (hs : s ∈ g.succs b) :
    s ∈ g.reversePostorder := by
  obtain ⟨_, h⟩ := walking_reversePostorder g
  exact h.closed b hb s hs

/-- Except for the entry, a block comes after one of its predecessors. -/
theorem exists_pred_before {b : Nat} (hb : b ∈ g.reversePostorder) (he : b ≠ g.entry) :
    ∃ p ∈ g.reversePostorder.takeWhile (· ≠ b), b ∈ g.succs p := by
  obtain ⟨_, h⟩ := walking_reversePostorder g
  exact (h.led b hb).resolve_left he

/-- The blocks before a block of the order. -/
theorem takeWhile_of_visited {b : Nat} {pre : List Nat}
    (h : pre ++ [b] <+: g.reversePostorder) : g.reversePostorder.takeWhile (· ≠ b) = pre := by
  obtain ⟨post, hpost⟩ := h
  have hnodup := nodup_reversePostorder g
  rw [← hpost, List.append_assoc] at hnodup ⊢
  have hb : b ∉ pre := by
    intro hb
    exact (List.nodup_append.1 hnodup).2.2 b hb b (by simp) rfl
  rw [List.takeWhile_append_of_pos]
  · simp
  · intro x hx
    simpa using fun he : x = b => hb (he ▸ hx)

/-- Some path of edges leads from the entry to block `b`. -/
def Reachable (g : FlowGraph) (b : Nat) : Prop :=
  Relation.ReflTransGen (fun p s => s ∈ g.succs p) g.entry b

theorem reachable_of_visited {pre : List Nat} (hpre : pre <+: g.reversePostorder) :
    ∀ b ∈ pre, g.Reachable b := by
  induction pre using List.reverseRecOn with
  | nil => simp
  | append_singleton pre b ih =>
    have hbefore := ih ((List.prefix_append pre [b]).trans hpre)
    intro x hx
    rcases List.mem_append.1 hx with hx | hx
    · exact hbefore x hx
    · obtain rfl := List.mem_singleton.1 hx
      by_cases he : x = g.entry
      · rw [he]
        exact .refl
      · obtain ⟨p, hp, hs⟩ := exists_pred_before (hpre.subset (by simp)) he
        rw [takeWhile_of_visited hpre] at hp
        exact (hbefore p hp).tail hs

/-- The order has the blocks that the entry reaches and no others. -/
theorem mem_reversePostorder {b : Nat} : b ∈ g.reversePostorder ↔ g.Reachable b := by
  constructor
  · exact reachable_of_visited (List.prefix_refl _) b
  · intro h
    induction h with
    | refl => exact entry_mem_reversePostorder g
    | tail _ hs ih => exact succ_mem_reversePostorder ih hs

theorem reachable_getD {b : Nat} : g.reachable.getD b false = g.reversePostorder.contains b := by
  unfold reachable
  by_cases hb : b < g.size
  · simp [List.getD, hb]
  · have hnot : b ∉ g.reversePostorder := fun h => hb (lt_size_of_mem_reversePostorder h)
    simp [List.getD, hb, hnot]

end FlowGraph

end InlinePlan
