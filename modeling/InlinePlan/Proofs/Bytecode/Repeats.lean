import InlinePlan.Proofs.Bytecode.Assembly
import InlinePlan.Proofs.Bytecode.DepthFirst
import Mathlib.Data.List.Forall2

set_option autoImplicit false

/-! # Repeated edges

A block may lead to another more than once, as a switch does whose cases share a target. Leaving out
the repetitions leaves the code, the frequencies and the order of the blocks as they are
(`reversePostorder_withoutRepeats`). The lists of predecessors lose repetitions that stand next to
each other (`stutters_preds`). -/

namespace InlinePlan

/-- The block with only the first of several edges to the same block. -/
def BlockSpec.withoutRepeats (b : BlockSpec) : BlockSpec := { b with succs := b.succs.eraseDups }

/-- The block with only the first of several edges to the same block. -/
def Block.withoutRepeats (b : Block) : Block := { b with succs := b.succs.eraseDups }

/-- The graph without repeated edges. -/
def FlowGraph.withoutRepeats (g : FlowGraph) : FlowGraph where
  blocks := g.blocks.map Block.withoutRepeats
  entry := g.entry
  entry_lt := by simpa using g.entry_lt
  succs_lt := by
    intro b hb s hs
    obtain ⟨c, hc, rfl⟩ := List.mem_map.1 hb
    rw [List.length_map]
    exact g.succs_lt c hc s (List.mem_eraseDups.1 hs)

/-! ## Building -/

theorem checkNumbers_withoutRepeats {index : Nat} {blocks : List (Option BlockSpec)}
    {specs : List BlockSpec} (h : checkNumbers index blocks = .ok specs) :
    checkNumbers index (blocks.map (Option.map BlockSpec.withoutRepeats))
      = .ok (specs.map BlockSpec.withoutRepeats) := by
  induction blocks generalizing index specs with
  | nil =>
    cases h
    rfl
  | cons block blocks ih =>
    cases block with
    | none => cases h
    | some block =>
      rw [checkNumbers] at h
      split at h
      case isTrue => cases h
      case isFalse hid =>
        obtain ⟨rest, hrest, rfl⟩ := Except.map_eq_ok.1 h
        rw [List.map_cons, Option.map_some, checkNumbers, ih hrest]
        exact if_neg hid

theorem strayEdge?_eq_none {n : Nat} {specs : List BlockSpec} :
    strayEdge? n specs = none ↔ ∀ b ∈ specs, ∀ s ∈ b.succs, 0 ≤ s ∧ s < n := by
  unfold strayEdge?
  rw [List.findSome?_eq_none_iff]
  simp only [Option.map_eq_none_iff, List.find?_eq_none, decide_eq_true_eq, not_or, Int.not_lt,
    Int.not_le]

/-- Numbers that are not negative repeat where their natural numbers do. -/
theorem map_toNat_eraseDups (l : List Int) (h : ∀ i ∈ l, 0 ≤ i) :
    l.eraseDups.map Int.toNat = (l.map Int.toNat).eraseDups := by
  match l with
  | [] => rfl
  | i :: l =>
    have hl : ∀ j ∈ l.filter fun j => !j == i, 0 ≤ j := fun j hj =>
      h j (List.mem_cons_of_mem _ (List.mem_filter.1 hj).1)
    have hfilter : (l.filter fun j => !j == i).map Int.toNat
        = (l.map Int.toNat).filter fun n => !n == i.toNat := by
      rw [List.filter_map]
      congr 1
      refine List.filter_congr fun j hj => ?_
      have hi := h i List.mem_cons_self
      have hj := h j (List.mem_cons_of_mem _ hj)
      by_cases hij : j = i
      · simp [hij]
      · have : j.toNat ≠ i.toNat := by omega
        simp [hij, this]
    rw [List.eraseDups_cons, List.map_cons, List.map_cons, List.eraseDups_cons,
      map_toNat_eraseDups _ hl, hfilter]
termination_by l.length
decreasing_by exact Nat.lt_succ_of_le (List.length_filter_le _ _)

theorem BlockSpec.toBlock_withoutRepeats {b : BlockSpec} (h : ∀ s ∈ b.succs, 0 ≤ s) :
    b.withoutRepeats.toBlock = b.toBlock.withoutRepeats := by
  show Block.mk _ _ _ = Block.mk _ _ _
  congr 1
  exact map_toNat_eraseDups _ h

namespace FlowGraph

variable {g : FlowGraph}

/-- Described blocks that make a graph also make one without their repeated edges. -/
theorem build_withoutRepeats {blocks : List (Option BlockSpec)} {entry : Int}
    (h : FlowGraph.build blocks entry = .ok g) :
    FlowGraph.build (blocks.map (Option.map BlockSpec.withoutRepeats)) entry
      = .ok g.withoutRepeats := by
  obtain ⟨h0, hlt, specs, hspecs, hstray, hblocks, hentry⟩ := build_eq_ok.1 h
  have hsuccs := strayEdge?_eq_none.1 hstray
  refine build_eq_ok.2 ⟨h0, by simpa using hlt, specs.map BlockSpec.withoutRepeats,
    checkNumbers_withoutRepeats hspecs, ?_, ?_, hentry⟩
  · rw [strayEdge?_eq_none, List.length_map]
    intro b hb s hs
    obtain ⟨c, hc, rfl⟩ := List.mem_map.1 hb
    exact hsuccs c hc s (List.mem_eraseDups.1 hs)
  · show g.blocks.map Block.withoutRepeats = _
    rw [hblocks, List.map_map, List.map_map]
    refine List.map_congr_left fun b hb => ?_
    exact (BlockSpec.toBlock_withoutRepeats fun s hs => (hsuccs b hb s hs).1).symm

/-! ## Parts -/

@[simp] theorem size_withoutRepeats (g : FlowGraph) : g.withoutRepeats.size = g.size := by
  simp [size, withoutRepeats]

@[simp] theorem entry_withoutRepeats (g : FlowGraph) : g.withoutRepeats.entry = g.entry := rfl

theorem getElem?_withoutRepeats (g : FlowGraph) (b : Nat) :
    g.withoutRepeats.blocks[b]? = g.blocks[b]?.map Block.withoutRepeats := List.getElem?_map

@[simp] theorem succs_withoutRepeats (g : FlowGraph) (b : Nat) :
    g.withoutRepeats.succs b = (g.succs b).eraseDups := by
  unfold succs
  rw [getElem?_withoutRepeats]
  cases g.blocks[b]? <;> rfl

@[simp] theorem code_withoutRepeats (g : FlowGraph) (b : Nat) :
    g.withoutRepeats.code b = g.code b := by
  unfold code
  rw [getElem?_withoutRepeats]
  cases g.blocks[b]? <;> rfl

/-! ## The order -/

/-- The second list leaves out of the first only what is in `seen` or stands in front of it. -/
inductive Thins : List Nat → List Nat → List Nat → Prop where
  | nil (seen : List Nat) : Thins seen [] []
  | keep {seen ss ss' : List Nat} (s : Nat) (h : Thins (s :: seen) ss ss') :
      Thins seen (s :: ss) (s :: ss')
  | drop {seen ss ss' : List Nat} {s : Nat} (hs : s ∈ seen) (h : Thins seen ss ss') :
      Thins seen (s :: ss) ss'

theorem Thins.mono {seen more ss ss' : List Nat} (h : Thins seen ss ss') (hsub : seen ⊆ more) :
    Thins more ss ss' := by
  induction h generalizing more with
  | nil seen => exact .nil more
  | keep s _ ih => exact .keep s (ih (List.cons_subset_cons s hsub))
  | drop hs _ ih => exact .drop (hsub hs) (ih hsub)

theorem Thins.sublist {seen ss ss' : List Nat} (h : Thins seen ss ss') : ss'.Sublist ss := by
  induction h with
  | nil seen => exact .slnil
  | keep s _ ih => exact ih.cons_cons s
  | drop _ _ ih => exact ih.cons _

theorem thins_eraseDups_filter (seen ss : List Nat) :
    Thins seen ss (ss.filter (· ∉ seen)).eraseDups := by
  induction ss generalizing seen with
  | nil => exact .nil seen
  | cons s ss ih =>
    by_cases hs : s ∈ seen
    · rw [List.filter_cons_of_neg (by simpa using hs)]
      exact .drop hs (ih seen)
    · rw [List.filter_cons_of_pos (by simpa using hs), List.eraseDups_cons, List.filter_filter]
      have hboth : (ss.filter fun t => !t == s && decide (t ∉ seen)) = ss.filter (· ∉ s :: seen) := by
        refine List.filter_congr fun t _ => ?_
        by_cases hts : t = s <;> simp [hts]
      rw [hboth]
      exact .keep s (ih (s :: seen))

theorem thins_eraseDups (seen ss : List Nat) : Thins seen ss ss.eraseDups := by
  have h := thins_eraseDups_filter [] ss
  rw [List.filter_eq_self.2 (by simp)] at h
  exact h.mono (List.nil_subset seen)

/-- Leaving out edges to blocks that have been seen leads the walk through the same blocks. -/
theorem walk_withoutRepeats {pending pending' : List (Nat × List Nat)} {seen order : List Nat}
    (hfits : g.Fits pending)
    (h : List.Forall₂ (fun q q' => q.1 = q'.1 ∧ Thins seen q.2 q'.2) pending pending') :
    g.withoutRepeats.walk pending' seen order = g.walk pending seen order := by
  fun_induction FlowGraph.walk g pending seen order generalizing pending' with
  | case1 seen order =>
    cases h
    rw [walk]
  | case2 seen order b rest ih =>
    obtain ⟨⟨b', ss'⟩, rest', ⟨hb, hthins⟩, hrest, rfl⟩ := List.forall₂_cons_left_iff.1 h
    obtain rfl : b = b' := hb
    cases hthins
    rw [walk]
    exact ih hfits.leave hrest
  | case3 seen order b s ss rest hs ih =>
    obtain ⟨⟨b', ss'⟩, rest', ⟨hb, hthins⟩, hrest, rfl⟩ := List.forall₂_cons_left_iff.1 h
    obtain rfl : b = b' := hb
    cases hthins with
    | drop hseen _ => exact absurd hseen hs.1
    | keep _ hthins =>
      rw [walk, dif_pos (by simpa using hs), succs_withoutRepeats]
      refine ih hfits.push (.cons ⟨rfl, thins_eraseDups _ _⟩ (.cons ⟨rfl, hthins⟩ ?_))
      exact hrest.imp fun q q' hq => ⟨hq.1, hq.2.mono (List.subset_cons_self s seen)⟩
  | case4 seen order b s ss rest hs ih =>
    obtain ⟨⟨b', ss'⟩, rest', ⟨hb, hthins⟩, hrest, rfl⟩ := List.forall₂_cons_left_iff.1 h
    obtain rfl : b = b' := hb
    cases hthins with
    | drop _ hthins => exact ih hfits.skip (.cons ⟨rfl, hthins⟩ hrest)
    | keep _ hthins =>
      have hsub : s :: seen ⊆ seen := List.cons_subset.2 ⟨hfits.mem_seen hs, List.Subset.refl seen⟩
      rw [walk, dif_neg (by simpa using hs)]
      exact ih hfits.skip (.cons ⟨rfl, hthins.mono hsub⟩ hrest)

theorem reversePostorder_withoutRepeats (g : FlowGraph) :
    g.withoutRepeats.reversePostorder = g.reversePostorder := by
  unfold reversePostorder
  rw [entry_withoutRepeats, succs_withoutRepeats]
  exact walk_withoutRepeats (fits_entry g) (.cons ⟨rfl, thins_eraseDups _ _⟩ .nil)

theorem reachable_withoutRepeats (g : FlowGraph) : g.withoutRepeats.reachable = g.reachable := by
  unfold reachable
  rw [reversePostorder_withoutRepeats, size_withoutRepeats]

end FlowGraph

/-! ## Predecessors -/

/-- The first list repeats elements of the second in place. -/
inductive Stutters {α : Type} : List α → List α → Prop where
  | nil : Stutters [] []
  | cons (x : α) {l l' : List α} (h : Stutters l l') : Stutters (x :: l) (x :: l')
  | again (x : α) {l l' : List α} (h : Stutters (x :: l) l') : Stutters (x :: x :: l) l'

namespace Stutters

variable {α β : Type} {l l' m m' : List α}

theorem refl (l : List α) : Stutters l l := by
  induction l with
  | nil => exact .nil
  | cons x l ih => exact .cons x ih

theorem append (h : Stutters l l') (h' : Stutters m m') : Stutters (l ++ m) (l' ++ m') := by
  induction h with
  | nil => exact h'
  | cons x _ ih => exact .cons x ih
  | again x _ ih => exact .again x ih

theorem replicate (x : α) (n : Nat) {k : Nat} (hk : k ≤ n) (hzero : k = 0 → n = 0) :
    Stutters (List.replicate n x) (List.replicate k x) := by
  induction n with
  | zero =>
    obtain rfl := Nat.le_zero.1 hk
    exact .nil
  | succ n ih =>
    rcases Nat.lt_or_ge n k with hnk | hnk
    · obtain rfl : k = n + 1 := Nat.le_antisymm hk hnk
      exact .refl _
    · match n with
      | 0 => exact absurd (hzero (Nat.le_zero.1 hnk)) (Nat.succ_ne_zero 0)
      | n + 1 => exact .again x (ih hnk fun h0 => absurd (hzero h0) (Nat.succ_ne_zero _))

theorem flatMap {f f' : β → List α} (xs : List β) (h : ∀ x, Stutters (f x) (f' x)) :
    Stutters (xs.flatMap f) (xs.flatMap f') := by
  induction xs with
  | nil => exact .nil
  | cons x xs ih =>
    rw [List.flatMap_cons, List.flatMap_cons]
    exact (h x).append ih

theorem filterMap (f : α → Option β) (h : Stutters l l') :
    Stutters (l.filterMap f) (l'.filterMap f) := by
  induction h with
  | nil => exact .nil
  | cons x _ ih =>
    rw [List.filterMap_cons, List.filterMap_cons]
    cases f x with
    | none => exact ih
    | some y => exact .cons y ih
  | again x _ ih =>
    rw [List.filterMap_cons] at ih ⊢
    cases hx : f x with
    | none => simpa [hx] using ih
    | some y =>
      rw [List.filterMap_cons]
      simp only [hx] at ih ⊢
      exact .again y ih

theorem map (f : α → β) (h : Stutters l l') : Stutters (l.map f) (l'.map f) := by
  simpa [List.filterMap_eq_map'] using h.filterMap fun x => some (f x)

theorem filter (p : α → Bool) (h : Stutters l l') : Stutters (l.filter p) (l'.filter p) := by
  simpa [List.filterMap_eq_filter] using h.filterMap (Option.guard p)

theorem head (h : Stutters l l') :
    (l = [] ∧ l' = []) ∨ ∃ x k k', l = x :: k ∧ l' = x :: k' := by
  induction h with
  | nil => exact .inl ⟨rfl, rfl⟩
  | cons x _ _ => exact .inr ⟨x, _, _, rfl, rfl⟩
  | again x _ ih =>
    obtain ⟨hnil, -⟩ | ⟨_, _, k', hx, rfl⟩ := ih
    · cases hnil
    · cases hx
      exact .inr ⟨x, _, k', rfl, rfl⟩

theorem mem_iff (h : Stutters l l') (x : α) : x ∈ l ↔ x ∈ l' := by
  induction h with
  | nil => rfl
  | cons y _ ih => rw [List.mem_cons, List.mem_cons, ih]
  | again y _ ih => rw [← ih, List.mem_cons, List.mem_cons, ← or_assoc, or_self]

end Stutters

namespace FlowGraph

/-- A predecessor with several edges stands as often in a row. -/
theorem preds_eq (g : FlowGraph) (b : Nat) :
    g.preds b = (List.range g.size).flatMap fun p => List.replicate ((g.succs p).count b) p := by
  unfold preds
  congr 1
  funext p
  rw [List.map_const', List.count_eq_length_filter]
  congr 3

theorem stutters_preds (g : FlowGraph) (b : Nat) :
    Stutters (g.preds b) (g.withoutRepeats.preds b) := by
  rw [preds_eq, preds_eq, size_withoutRepeats]
  refine .flatMap _ fun p => ?_
  rw [succs_withoutRepeats]
  refine .replicate p _ ((thins_eraseDups [] _).sublist.count_le b) fun hzero => ?_
  rw [List.count_eq_zero, List.mem_eraseDups] at hzero
  exact List.count_eq_zero.2 hzero

end FlowGraph

end InlinePlan
