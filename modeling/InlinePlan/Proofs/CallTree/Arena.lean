import InlinePlan.CallTree.Tree

set_option autoImplicit false

/-! # Trees that were built by adding nodes

`Tree.add` is the only way in which the analysis makes trees. A tree that came about by additions is
`Built`; its links then agree in both directions, and they only lead from a node to nodes that were
added after it (`Tree.Linked`). Everything that is said about walks through a tree and about plans
rests on these few facts. -/

namespace InlinePlan

namespace Tree

variable {R : Type}

/-- A tree that came about by additions, from none on. -/
inductive Built : Tree R → Prop where
  | empty : Built {}
  | add {t t' : Tree R} {parent : NodeId} {call : Call R} :
      Built t → t.add parent call = .ok t' → Built t'

/-- The links of a tree agree: nodes are numbered by their place, the parent of a node came before
    it, and the children of a node are those whose parent it is. -/
structure Linked (t : Tree R) : Prop where
  id_eq : ∀ {i : NodeId} {n : Node R}, t.node? i = some n → n.id = i
  parent_root : ∀ {n : Node R}, t.node? 0 = some n → n.parent = noNode
  parent_lt : ∀ {i : NodeId} {n : Node R}, t.node? i = some n → i ≠ 0 → 0 ≤ n.parent ∧ n.parent < i
  mem_children : ∀ {i c : NodeId} {n : Node R}, t.node? i = some n →
    (c ∈ n.children ↔ ∃ m, t.node? c = some m ∧ m.parent = i)
  increasing : ∀ {i : NodeId} {n : Node R}, t.node? i = some n → n.children.Pairwise (· < ·)

/-! ## Nodes by number -/

theorem node?_eq_some_iff {t : Tree R} {i : NodeId} {n : Node R} :
    t.node? i = some n ↔ 0 ≤ i ∧ t.nodes[i.toNat]? = some n := by
  unfold node?
  split
  · constructor
    · intro h; cases h
    · rintro ⟨h, -⟩; grind
  · constructor
    · intro h; exact ⟨by grind, h⟩
    · exact And.right

theorem node?_isSome_iff {t : Tree R} {i : NodeId} :
    (t.node? i).isSome ↔ 0 ≤ i ∧ i < t.size := by
  unfold node? size
  split
  · simp only [Option.isSome_none, Bool.false_eq_true, false_iff, not_and]
    intro h; grind
  · rw [isSome_getElem?]
    grind

theorem node?_bounds {t : Tree R} {i : NodeId} {n : Node R} (h : t.node? i = some n) :
    0 ≤ i ∧ i < t.size :=
  node?_isSome_iff.1 (by rw [h]; rfl)

theorem exists_node? {t : Tree R} {i : NodeId} (h0 : 0 ≤ i) (h : i < t.size) :
    ∃ n, t.node? i = some n :=
  Option.isSome_iff_exists.1 (node?_isSome_iff.2 ⟨h0, h⟩)

theorem exists_root {t : Tree R} (h : 0 < t.size) : ∃ n, t.node? 0 = some n :=
  exists_node? (Int.le_refl 0) (Int.natCast_pos.2 h)

/-! ## Additions -/

theorem node?_push (t : Tree R) (n : Node R) (i : NodeId) :
    Tree.node? { nodes := t.nodes.push n } i = if i = t.size then some n else t.node? i := by
  unfold node? size
  rw [Array.getElem?_push]
  grind

theorem size_modify (t : Tree R) (p : NodeId) (f : Node R → Node R) :
    (t.modify p f).size = t.size := by
  unfold modify size
  split
  · rfl
  · simp

theorem node?_modify (t : Tree R) (p : NodeId) (f : Node R → Node R) (i : NodeId) :
    (t.modify p f).node? i = if i = p then (t.node? i).map f else t.node? i := by
  by_cases hi : i < 0
  · have hnone (u : Tree R) : u.node? i = none := if_pos hi
    simp [hnone]
  · have hget (u : Tree R) : u.node? i = u.nodes[i.toNat]? := if_neg hi
    rw [hget, hget]
    unfold modify
    split
    · rw [if_neg (by grind)]
    · rw [Array.getElem?_modify]
      grind

/-- The node that an addition puts at the end. -/
def added (t : Tree R) (parent : NodeId) (call : Call R) : Node R :=
  { call with id := t.size, parent }

/-- What an addition makes of the node at a place: the parent gets a child. -/
def linkChild (t : Tree R) (parent i : NodeId) (n : Node R) : Node R :=
  if i = parent then { n with children := n.children ++ [(t.size : NodeId)] } else n

/-- An addition succeeds for the first root and below a node of the tree. The new node stands at the
    end, and of the others only the parent changes. -/
theorem add_ok {t t' : Tree R} {parent : NodeId} {call : Call R} (h : t.add parent call = .ok t') :
    ((parent = noNode ∧ t.size = 0) ∨ (0 ≤ parent ∧ parent < t.size)) ∧
    t'.size = t.size + 1 ∧
    ∀ i, t'.node? i =
      if i = t.size then some (t.added parent call)
      else (t.node? i).map (t.linkChild parent i) := by
  unfold add at h
  dsimp only at h
  split at h
  case isTrue hroot =>
    split at h
    case isTrue hsize =>
      cases h
      refine ⟨Or.inl ⟨hroot, hsize⟩, by simp [size], ?_⟩
      intro i
      rw [node?_push]
      have hnone : t.node? i = none := by
        rw [← Option.not_isSome_iff_eq_none, node?_isSome_iff]
        grind
      rw [hnone]
      rfl
    case isFalse => cases h
  case isFalse hroot =>
    split at h
    case isTrue => cases h
    case isFalse hbounds =>
      cases h
      refine ⟨Or.inr (by grind), by simp [size, modify]; grind, ?_⟩
      intro i
      rw [node?_push, size_modify, node?_modify]
      unfold linkChild
      split
      · rfl
      · split
        · rfl
        · exact Option.map_id'.symm

/-! ## Links of built trees -/

theorem Linked.empty : Linked ({} : Tree R) := by
  have hnone (i : NodeId) : ({} : Tree R).node? i = none := by
    simp [node?]
  constructor
  case id_eq => intro i n h; simp [hnone] at h
  case parent_root => intro n h; simp [hnone] at h
  case parent_lt => intro i n h; simp [hnone] at h
  case mem_children => intro i c n h; simp [hnone] at h
  case increasing => intro i n h; simp [hnone] at h

/-- A node after an addition is the new one, or an old one that may have got the new one as a
    child. -/
theorem node?_of_add {t t' : Tree R} {parent i : NodeId} {call : Call R} {n : Node R}
    (h : t.add parent call = .ok t') (hn : t'.node? i = some n) :
    (i = t.size ∧ n = t.added parent call) ∨
    (i ≠ t.size ∧ ∃ m, t.node? i = some m ∧ n = t.linkChild parent i m) := by
  rw [(add_ok h).2.2 i] at hn
  split at hn
  case isTrue hi => exact Or.inl ⟨hi, (Option.some.inj hn).symm⟩
  case isFalse hi =>
    obtain ⟨m, hm, rfl⟩ := Option.map_eq_some_iff.1 hn
    exact Or.inr ⟨hi, m, hm, rfl⟩

@[simp]
theorem linkChild_id (t : Tree R) (parent i : NodeId) (n : Node R) :
    (t.linkChild parent i n).id = n.id := by
  unfold linkChild; split <;> rfl

@[simp]
theorem linkChild_parent (t : Tree R) (parent i : NodeId) (n : Node R) :
    (t.linkChild parent i n).parent = n.parent := by
  unfold linkChild; split <;> rfl

theorem linkChild_children (t : Tree R) (parent i : NodeId) (n : Node R) :
    (t.linkChild parent i n).children =
      if i = parent then n.children ++ [(t.size : NodeId)] else n.children := by
  unfold linkChild; split <;> rfl

/-- The children after an addition: those before it, and the new node below its parent. -/
theorem Linked.mem_children_add {t t' : Tree R} {parent i c : NodeId} {call : Call R} {n : Node R}
    (hl : Linked t) (h : t.add parent call = .ok t') (hn : t.node? i = some n) :
    c ∈ (t.linkChild parent i n).children ↔ ∃ m, t'.node? c = some m ∧ m.parent = i := by
  have hadd := (add_ok h).2.2
  have hold : c ∈ n.children ↔ ∃ m, t.node? c = some m ∧ m.parent = i := hl.mem_children hn
  have hlt : ∀ {k : NodeId} {m : Node R}, t.node? k = some m → k ≠ t.size := by
    intro k m hm
    have := node?_bounds hm
    grind
  rw [linkChild_children]
  constructor
  · intro hc
    by_cases hcs : c = t.size
    · refine ⟨t.added parent call, by rw [hadd, if_pos hcs], ?_⟩
      have hnot : c ∉ n.children := by
        intro hmem
        obtain ⟨m, hm, -⟩ := hold.1 hmem
        exact hlt hm hcs
      split at hc
      · rename_i hip; exact hip.symm
      · exact absurd hc hnot
    · have hmem : c ∈ n.children := by
        split at hc
        · simpa [hcs] using hc
        · exact hc
      obtain ⟨m, hm, hpar⟩ := hold.1 hmem
      refine ⟨t.linkChild parent c m, ?_, by rw [linkChild_parent, hpar]⟩
      rw [hadd, if_neg hcs, hm]
      rfl
  · rintro ⟨m, hm, hpar⟩
    rcases node?_of_add h hm with ⟨hc, rfl⟩ | ⟨hc, m', hm', rfl⟩
    · rw [if_pos (show i = parent from hpar.symm), hc]
      exact List.mem_append.2 (Or.inr (List.mem_singleton.2 rfl))
    · rw [linkChild_parent] at hpar
      have hmem := hold.2 ⟨m', hm', hpar⟩
      split
      · exact List.mem_append.2 (Or.inl hmem)
      · exact hmem

theorem Linked.add {t t' : Tree R} {parent : NodeId} {call : Call R} (hl : Linked t)
    (h : t.add parent call = .ok t') : Linked t' := by
  obtain ⟨hplace, hsize, hadd⟩ := add_ok h
  constructor
  case id_eq =>
    intro i n hn
    rcases node?_of_add h hn with ⟨hi, rfl⟩ | ⟨hi, m, hm, rfl⟩
    · exact hi.symm
    · rw [linkChild_id]; exact hl.id_eq hm
  case parent_root =>
    intro n hn
    rcases node?_of_add h hn with ⟨hi, rfl⟩ | ⟨hi, m, hm, rfl⟩
    · rcases hplace with ⟨hroot, -⟩ | hbounds
      · exact hroot
      · grind
    · rw [linkChild_parent]; exact hl.parent_root hm
  case parent_lt =>
    intro i n hn hne
    rcases node?_of_add h hn with ⟨hi, rfl⟩ | ⟨hi, m, hm, rfl⟩
    · rcases hplace with ⟨-, hzero⟩ | hbounds
      · grind
      · show 0 ≤ parent ∧ parent < i
        grind
    · rw [linkChild_parent]; exact hl.parent_lt hm hne
  case mem_children =>
    intro i c n hn
    rcases node?_of_add h hn with ⟨hi, rfl⟩ | ⟨hi, m, hm, rfl⟩
    · -- no node has the new one as its parent
      constructor
      · intro hc; exact absurd hc (by simp [Tree.added])
      · rintro ⟨m, hm, hpar⟩
        exfalso
        have hc := node?_bounds hm
        rcases node?_of_add h hm with ⟨hcs, rfl⟩ | ⟨hcs, m', hm', rfl⟩
        · have : parent = i := hpar
          rcases hplace with ⟨hroot, -⟩ | hbounds <;> grind [noNode]
        · rw [linkChild_parent] at hpar
          by_cases hzero : c = 0
          · subst hzero
            have := hl.parent_root hm'
            grind [noNode]
          · have := hl.parent_lt hm' hzero
            have := node?_bounds hm'
            grind
    · exact hl.mem_children_add h hm
  case increasing =>
    intro i n hn
    rcases node?_of_add h hn with ⟨hi, rfl⟩ | ⟨hi, m, hm, rfl⟩
    · exact List.Pairwise.nil
    · rw [linkChild_children]
      split
      · refine List.pairwise_append.2 ⟨hl.increasing hm, List.pairwise_singleton _ _, ?_⟩
        intro c hc d hd
        obtain ⟨k, hk, -⟩ := (hl.mem_children hm).1 hc
        have := node?_bounds hk
        rw [List.mem_singleton.1 hd]
        exact this.2
      · exact hl.increasing hm

theorem Built.linked {t : Tree R} (h : Built t) : Linked t := by
  induction h with
  | empty => exact Linked.empty
  | add _ hadd ih => exact ih.add hadd

/-! ## Several additions -/

/-- Adds calls one after another, each below its parent. -/
def addAll (t : Tree R) : List (NodeId × Call R) → Except TreeFault (Tree R)
  | [] => .ok t
  | (parent, call) :: rest =>
    match t.add parent call with
    | .error e => .error e
    | .ok t' => t'.addAll rest

theorem Built.addAll {t t' : Tree R} (hb : Built t) (calls : List (NodeId × Call R))
    (h : t.addAll calls = .ok t') : Built t' := by
  induction calls generalizing t with
  | nil => cases h; exact hb
  | cons c calls ih =>
    obtain ⟨parent, call⟩ := c
    rw [Tree.addAll] at h
    split at h
    · cases h
    · rename_i u hu
      exact ih (hb.add hu) h

end Tree

end InlinePlan
