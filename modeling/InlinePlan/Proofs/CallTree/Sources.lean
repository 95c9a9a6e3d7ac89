import InlinePlan.Proofs.CallTree.Course
import InlinePlan.Proofs.CallTree.Preorder
import Mathlib.Logic.Relation

set_option autoImplicit false

/-! # Sources of replays

A node that is replayed copies what stands below its source. All of that stands before the node, so
that it is complete when it is copied and never has the node in it. The number of nodes so far is the
number of the next one; what is remembered ends before it (`BuildState.Complete`), and stands in the
finished tree as it is remembered (`Leaves`, `Tree.leads_bounds`). -/

namespace InlinePlan

/-! ## Calls by number -/

namespace Forest

variable {R : Type} {i next : Nat} {c : Call R} {below f g : Forest R}

/-- Numbered from `next` on, a forest has call `c` under number `i`, and `below` stands below it. -/
inductive Has (i : Nat) (c : Call R) (below : Forest R) : Nat → Forest R → Prop where
  | here (rest : Forest R) : Has i c below i (.grow c below rest)
  | deeper (next : Nat) (call : Call R) (f rest : Forest R) :
      Has i c below (next + 1) f → Has i c below next (.grow call f rest)
  | later (next : Nat) (call : Call R) (f rest : Forest R) :
      Has i c below (next + 1 + f.size) rest → Has i c below next (.grow call f rest)

theorem Has.append_left (h : Has i c below next f) (g : Forest R) :
    Has i c below next (f.append g) := by
  induction h with
  | here rest => exact .here _
  | deeper next call f rest hf _ => exact .deeper _ _ _ _ hf
  | later next call f rest _ ih => exact .later _ _ _ _ ih

theorem Has.append_right (f : Forest R) (h : Has i c below (next + f.size) g) :
    Has i c below next (f.append g) := by
  induction f generalizing next with
  | empty => exact h
  | grow call f rest _ ihr =>
    refine .later _ _ _ _ (ihr ?_)
    rwa [size, Nat.add_assoc 1, ← Nat.add_assoc, ← Nat.add_assoc] at h

/-- The call is a node of the forest, and what stands below it are nodes of the forest too. -/
theorem Has.mem_nodes (h : Has i c below next f) (parent : NodeId) :
    (∃ above, { c with id := (i : Int), parent := above, children := below.roots (i + 1) }
        ∈ f.nodes parent next)
      ∧ ∀ n ∈ below.nodes i (i + 1), n ∈ f.nodes parent next := by
  induction h generalizing parent with
  | here rest =>
    refine ⟨⟨parent, mem_nodes_grow.2 (.inl rfl)⟩, fun n hn => ?_⟩
    exact mem_nodes_grow.2 (.inr (.inl hn))
  | deeper next call f rest _ ih =>
    obtain ⟨⟨above, hnode⟩, hbelow⟩ := ih next
    refine ⟨⟨above, mem_nodes_grow.2 (.inr (.inl hnode))⟩, fun n hn => ?_⟩
    exact mem_nodes_grow.2 (.inr (.inl (hbelow n hn)))
  | later next call f rest _ ih =>
    obtain ⟨⟨above, hnode⟩, hbelow⟩ := ih parent
    refine ⟨⟨above, mem_nodes_grow.2 (.inr (.inr hnode))⟩, fun n hn => ?_⟩
    exact mem_nodes_grow.2 (.inr (.inr (hbelow n hn)))

end Forest

namespace Tree

variable {R : Type}

/-- Links to children lead from node `i` to node `j`. -/
def Leads (t : Tree R) : NodeId → NodeId → Prop :=
  Relation.ReflTransGen fun i j => ∃ n, t.node? i = some n ∧ j ∈ n.children

variable {root c : Call R} {f below : Forest R} {i : Nat} {j : NodeId}

theorem node?_of_has (h : Forest.Has i c below 0 (.grow root f .empty)) :
    ∃ above, (ofForest root f).node? i
      = some { c with id := (i : Int), parent := above, children := below.roots (i + 1) } := by
  obtain ⟨⟨above, hnode⟩, -⟩ := h.mem_nodes noNode
  exact ⟨above, node?_ofForest.2 ⟨hnode, rfl⟩⟩

/-- Links lead from a call to itself and to what stands below it. -/
theorem mem_below_of_leads (h : Forest.Has i c below 0 (.grow root f .empty))
    (hj : (ofForest root f).Leads i j) : j = i ∨ ∃ n ∈ below.nodes i (i + 1), n.id = j := by
  have hlt : (i : Int) < ((i + 1 : Nat) : Int) := by grind
  induction hj with
  | refl => exact .inl rfl
  | tail _ hstep ih =>
    obtain ⟨n, hn, hmem⟩ := hstep
    refine .inr ?_
    rcases ih with rfl | ⟨m, hm, rfl⟩
    · obtain ⟨above, hnode⟩ := node?_of_has h
      obtain rfl := Option.some.inj (hn.symm.trans hnode)
      obtain ⟨k, hk, hid, -⟩ := (Forest.mem_roots_iff hlt).1 hmem
      exact ⟨k, hk, hid⟩
    · have hnode := node?_ofForest.2 ⟨(h.mem_nodes noNode).2 m hm, rfl⟩
      obtain rfl := Option.some.inj (hn.symm.trans hnode)
      obtain ⟨k, hk, hid, -⟩ := (Forest.mem_children_iff hlt hm).1 hmem
      exact ⟨k, hk, hid⟩

theorem leads_bounds (h : Forest.Has i c below 0 (.grow root f .empty))
    (hj : (ofForest root f).Leads i j) : (i : Int) ≤ j ∧ j ≤ i + below.size := by
  rcases mem_below_of_leads h hj with rfl | ⟨n, hn, rfl⟩
  · grind
  · have := Forest.id_bounds hn
    grind

end Tree

/-! ## What growth leaves behind -/

/-- All that is remembered stands before the next node. -/
def BuildState.Complete (s : BuildState) : Prop :=
  ∀ entry ∈ s.memo, 0 ≤ entry.2.source
    ∧ entry.2.source + entry.2.expansion.growth.forest.size < s.count

/-- A remembered expansion stands in a forest under the number of its source. -/
def Forest.Stores (next : Nat) (f : Forest Float) (entry : MethodId × Memo) : Prop :=
  ∃ i c, entry.2.source = ((i : Nat) : Int) ∧ c.method.id = entry.1
    ∧ Has i c entry.2.expansion.growth.forest next f

/-- A node of a forest was replayed from a remembered expansion of its method that stands before it. -/
def Forest.Copies (next : Nat) (f : Forest Float) (memos : List (MethodId × Memo))
    (reuse : NodeId × MethodId × NodeId) : Prop :=
  ∃ i c below memo, reuse = (((i : Nat) : Int), c.method.id, memo.source) ∧ Has i c below next f
    ∧ (c.method.id, memo) ∈ memos ∧ memo.source + memo.expansion.growth.forest.size < i

/-- The records after a forest has grown, numbered from the next node on: what is remembered since then
    stands in it, and what was reused since then are nodes of it. -/
structure Leaves (s : BuildState) (f : Forest Float) (s' : BuildState) : Prop where
  count_eq : s'.count = s.count + f.size
  memo_subset : s.memo ⊆ s'.memo
  complete : s.Complete → s'.Complete
  stores : ∀ entry ∈ s'.memo, entry ∈ s.memo ∨ f.Stores s.count entry
  copies : s.Complete → ∀ reuse ∈ s'.reuses, reuse ∈ s.reuses ∨ f.Copies s.count s'.memo reuse

namespace Leaves

variable {s s₁ s₂ s' : BuildState} {f g : Forest Float}

theorem of_moves (h : s.Moves 0 [] s') : Leaves s .empty s' where
  count_eq := h.count_eq
  memo_subset := h.memo_eq ▸ List.Subset.refl _
  complete := by
    intro hs
    unfold BuildState.Complete
    rw [h.memo_eq, h.count_eq]
    exact hs
  stores := by
    intro entry hentry
    rw [h.memo_eq] at hentry
    exact .inl hentry
  copies := by
    intro _ reuse hreuse
    rw [h.reuses_eq, List.append_nil] at hreuse
    exact .inl hreuse

theorem append (h : Leaves s f s₁) (h' : Leaves s₁ g s') : Leaves s (f.append g) s' where
  count_eq := by rw [h'.count_eq, h.count_eq, Forest.size_append, Nat.add_assoc]
  memo_subset := List.Subset.trans h.memo_subset h'.memo_subset
  complete := fun hs => h'.complete (h.complete hs)
  stores := by
    intro entry hentry
    rcases h'.stores entry hentry with hentry | ⟨i, c, hsource, hmethod, hhas⟩
    · rcases h.stores entry hentry with hentry | ⟨i, c, hsource, hmethod, hhas⟩
      · exact .inl hentry
      · exact .inr ⟨i, c, hsource, hmethod, hhas.append_left g⟩
    · rw [h.count_eq] at hhas
      exact .inr ⟨i, c, hsource, hmethod, hhas.append_right f⟩
  copies := by
    intro hs reuse hreuse
    rcases h'.copies (h.complete hs) reuse hreuse
      with hreuse | ⟨i, c, below, memo, hreuse, hhas, hmemo, hlt⟩
    · rcases h.copies hs reuse hreuse with hreuse | ⟨i, c, below, memo, hreuse, hhas, hmemo, hlt⟩
      · exact .inl hreuse
      · exact .inr ⟨i, c, below, memo, hreuse, hhas.append_left g, h'.memo_subset hmemo, hlt⟩
    · rw [h.count_eq] at hhas
      exact .inr ⟨i, c, below, memo, hreuse, hhas.append_right f, hmemo, hlt⟩

variable {c : Call Float} {m : Method} {p : Place} {r : Reading} {e : Expansion}

/-- A call that is expanded afresh. If its expansion is remembered, it ends before the next node. -/
theorem fresh (hopen : s.Moves 1 [] s₁) (h : Leaves s₁ e.growth.forest s₂)
    (hcloses : Builder.Closes p m r e s₂ s') (hid : p.id = s.count) (hc : c.method = m) :
    Leaves s (.grow c e.growth.forest .empty) s' := by
  have hcount : s'.count = s.count + 1 + e.growth.forest.size := by
    rw [hcloses.count_eq, h.count_eq, hopen.count_eq, Nat.add_zero]
  have hcomplete (hs : s.Complete) : s₁.Complete := by
    intro entry hentry
    rw [hopen.memo_eq] at hentry
    have := hs entry hentry
    rw [hopen.count_eq]
    grind
  have hmemo (entry : MethodId × Memo) (hentry : entry ∈ s'.memo) :
      entry ∈ s₂.memo ∨ entry = (m.id, ⟨p.id, e⟩) := by
    rcases hcloses.memo_cases with hmemo | hmemo
    · rw [hmemo] at hentry
      exact .inl hentry
    · rwa [hmemo, List.mem_append, List.mem_singleton] at hentry
  have hkept : s₂.memo ⊆ s'.memo := by
    rcases hcloses.memo_cases with hmemo | hmemo
    · exact hmemo ▸ List.Subset.refl _
    · exact hmemo ▸ List.subset_append_left _ _
  constructor
  case count_eq =>
    rw [hcount, Forest.size, Forest.size]
    omega
  case memo_subset =>
    refine List.Subset.trans ?_ hkept
    exact hopen.memo_eq ▸ h.memo_subset
  case complete =>
    intro hs entry hentry
    rcases hmemo entry hentry with hentry | rfl
    · have := h.complete (hcomplete hs) entry hentry
      rwa [hcloses.count_eq, Nat.add_zero]
    · rw [hcount]
      dsimp only
      grind
  case stores =>
    intro entry hentry
    rcases hmemo entry hentry with hentry | rfl
    · rcases h.stores entry hentry with hentry | ⟨i, c', hsource, hmethod, hhas⟩
      · exact .inl (hopen.memo_eq ▸ hentry)
      · rw [hopen.count_eq] at hhas
        exact .inr ⟨i, c', hsource, hmethod, .deeper _ _ _ _ hhas⟩
    · exact .inr ⟨s.count, c, hid, by rw [hc], .here _⟩
  case copies =>
    intro hs reuse hreuse
    rw [hcloses.reuses_eq, List.append_nil] at hreuse
    rcases h.copies (hcomplete hs) reuse hreuse
      with hreuse | ⟨i, c', below, memo, hreuse, hhas, hmem, hlt⟩
    · rw [hopen.reuses_eq, List.append_nil] at hreuse
      exact .inl hreuse
    · rw [hopen.count_eq] at hhas
      exact .inr ⟨i, c', below, memo, hreuse, .deeper _ _ _ _ hhas, hkept hmem, hlt⟩

/-- A call that replays what is remembered of its method. -/
theorem reused {memo : Memo} (hmemo : s.memo.lookup m.id = some memo)
    (h : s.Moves (1 + f.size) [((s.count : Int), m.id, memo.source)] s') (hc : c.method = m) :
    Leaves s (.grow c f .empty) s' := by
  obtain ⟨_, _, hsplit, -⟩ := List.lookup_eq_some_iff.1 hmemo
  have hmem : (m.id, memo) ∈ s.memo := by simp [hsplit]
  constructor
  case count_eq =>
    rw [h.count_eq, Forest.size, Forest.size]
    omega
  case memo_subset => exact h.memo_eq ▸ List.Subset.refl _
  case complete =>
    intro hs entry hentry
    rw [h.memo_eq] at hentry
    have := hs entry hentry
    rw [h.count_eq]
    grind
  case stores =>
    intro entry hentry
    rw [h.memo_eq] at hentry
    exact .inl hentry
  case copies =>
    intro hs reuse hreuse
    rw [h.reuses_eq, List.mem_append, List.mem_singleton] at hreuse
    rcases hreuse with hreuse | rfl
    · exact .inl hreuse
    · refine .inr ⟨s.count, c, f, memo, by rw [hc], .here _, ?_, (hs _ hmem).2⟩
      rw [h.memo_eq, hc]
      exact hmem

end Leaves

namespace Builder

variable {b : Builder} {p : Place} {s s' : BuildState}

theorem Grows.leaves {offers : List Offer} {g : Growth} (h : b.Grows p offers s g s') :
    Leaves s g.forest s' := by
  induction h with
  | nil p s => exact .of_moves ⟨⟨rfl, (List.append_nil _).symm⟩, rfl⟩
  | dropped p reason calls warning offers s s₁ g s' hmoves _ ih =>
    exact (Leaves.of_moves hmoves).append ih
  | refused p site ratio callee offers reason s s₁ g s' hmoves _ ih =>
    exact (Leaves.of_moves hmoves).append ih
  | fresh p site ratio callee offers r e s s₁ s₂ s₃ g s' _ _ hmoves _ hcloses _ ihb ihr =>
    exact (Leaves.fresh (c := b.callAt (p.child s.count callee ratio) callee ratio site e)
      hmoves ihb hcloses rfl rfl).append ihr
  | reused p site ratio callee offers memo e s s₁ g s' _ hmemo _ hmoves _ ih =>
    exact (Leaves.reused (c := b.callAt (p.child s.count callee ratio) callee ratio site e)
      hmemo hmoves rfl).append ih

/-- A finished build leaves its whole tree behind, root included. -/
theorem leaves_of_build {root : Method} {budget : Int} {t : Tree Float}
    (h : (b.build (some root) budget).outcome = .ok t) :
    ∃ e s, t = Tree.ofForest (rootCall root budget e) e.growth.forest
      ∧ Leaves {} (.grow (rootCall root budget e) e.growth.forest .empty) s
      ∧ (b.build (some root) budget).state.memo = s.memo
      ∧ (b.build (some root) budget).state.reuses = s.reuses := by
  obtain ⟨e, s, hexpands, ht, hmemo, hreuses⟩ := expands_of_build h
  refine ⟨e, s, ht, ?_, hmemo, hreuses⟩
  cases hexpands with
  | fresh r s₁ s₂ _ hmoves hgrows hcloses =>
    have hopen : BuildState.Moves {} 1 [] s₁ :=
      ⟨⟨hmoves.count_eq, hmoves.reuses_eq⟩, hmoves.memo_eq⟩
    exact Leaves.fresh hopen hgrows.leaves hcloses rfl rfl
  | reused memo hnone => cases hnone

/-- In a finished tree the source of a replayed node is a node of the same method, and everything below
    the source stands before the replayed node. -/
theorem source_of_reuse {root : Method} {budget : Int} {t : Tree Float}
    (h : (b.build (some root) budget).outcome = .ok t) {node source : NodeId} {method : MethodId}
    (hreuse : (node, method, source) ∈ (b.build (some root) budget).state.reuses) :
    (∃ n, t.node? node = some n ∧ n.method.id = method)
      ∧ (∃ n, t.node? source = some n ∧ n.method.id = method)
      ∧ ∀ j, t.Leads source j → j < node := by
  obtain ⟨e, s, rfl, hleaves, -, hreuses⟩ := b.leaves_of_build h
  rw [hreuses] at hreuse
  have hstart : BuildState.Complete {} := fun _ hentry => nomatch hentry
  rcases hleaves.copies hstart _ hreuse with hnone | ⟨i, c, below, memo, heq, hhas, hmemo, hlt⟩
  · cases hnone
  · simp only [Prod.mk.injEq] at heq
    obtain ⟨rfl, rfl, rfl⟩ := heq
    rcases hleaves.stores _ hmemo with hnone | ⟨k, c', hsource, hmethod, hhas'⟩
    · cases hnone
    · obtain ⟨_, hnode⟩ := Tree.node?_of_has hhas
      obtain ⟨_, hnode'⟩ := Tree.node?_of_has hhas'
      rw [hsource] at hlt ⊢
      refine ⟨⟨_, hnode, rfl⟩, ⟨_, hnode', hmethod⟩, fun j hj => ?_⟩
      have := Tree.leads_bounds hhas' hj
      grind

end Builder

end InlinePlan
