import InlinePlan.Proofs.Plan.Proposal
import Mathlib.Data.List.Nodup
import Mathlib.Data.List.Pairwise

set_option autoImplicit false

/-! # What the check of a tree ensures

The check looks from every node at its parent (`Tree.Anchored`). It does not look at what else the
lists of children have, so it accepts a second entry for a child, an entry for the child of another
node and one that leads back up. The lists of children agree with the parents if nothing else is in
them, and that is a matter of counting: an accepted tree has an entry for each node but the root, so
its links agree just if it has no more entries than that (`Tree.UpLinked.agrees_iff_length`). The
nodes that a walk visits are the root and the entries of the nodes that it visits
(`Tree.perm_of_walkWithin`); with that the same count decides whether it visits every node once. -/

namespace InlinePlan

/-! ## Lists of results -/

theorem mapM_eq_some_iff {α β : Type} {f : α → Option β} {l : List α} {bs : List β} :
    l.mapM f = some bs ↔ List.Forall₂ (fun a b => f a = some b) l bs := by
  induction l generalizing bs with
  | nil =>
    rw [List.mapM_nil, List.forall₂_nil_left_iff]
    exact ⟨fun h => (Option.some.inj h).symm, fun h => congrArg some h.symm⟩
  | cons a l ih =>
    rw [List.mapM_cons, List.forall₂_cons_left_iff]
    constructor
    · intro h
      obtain ⟨b, hb, h⟩ := Option.bind_eq_some_iff.1 h
      obtain ⟨bs', hbs, h⟩ := Option.bind_eq_some_iff.1 h
      exact ⟨b, bs', hb, ih.1 hbs, (Option.some.inj h).symm⟩
    · rintro ⟨b, bs', hb, hbs, rfl⟩
      rw [hb, ih.2 hbs]
      rfl

theorem exists_mapM_iff {α β : Type} {f : α → Option β} {l : List α} :
    (∃ bs, l.mapM f = some bs) ↔ ∀ a ∈ l, ∃ b, f a = some b := by
  induction l with
  | nil => simp
  | cons a l ih =>
    rw [List.forall_mem_cons, ← ih]
    simp only [mapM_eq_some_iff, List.forall₂_cons_left_iff]
    constructor
    · rintro ⟨_, b, bs, hb, hbs, rfl⟩
      exact ⟨⟨b, hb⟩, bs, hbs⟩
    · rintro ⟨⟨b, hb⟩, bs, hbs⟩
      exact ⟨_, b, bs, hb, hbs, rfl⟩

/-- Lists that each consist of a head and of what `g` makes of their elements, one after another. -/
theorem flatten_perm {α : Type} {g : α → List α} {cs : List α} {ls : List (List α)}
    (h : List.Forall₂ (fun c l => List.Perm l (c :: l.flatMap g)) cs ls) :
    ls.flatten.Perm (cs ++ ls.flatten.flatMap g) := by
  induction h with
  | nil => exact .nil
  | @cons c l cs ls hc _ ih =>
    rw [List.flatten_cons, List.flatMap_append]
    calc (l ++ ls.flatten).Perm (c :: l.flatMap g ++ (cs ++ ls.flatten.flatMap g)) := hc.append ih
      _ |>.Perm (c :: cs ++ (l.flatMap g ++ ls.flatten.flatMap g)) :=
        .cons c (List.perm_append_comm_assoc _ _ _)

namespace Tree

variable {R : Type} {t : Tree R} {d : NodeId → Bool} {fuel k : Nat} {i c p : NodeId} {n : Node R}
  {l : List NodeId}

/-! ## Walks without a bound -/

theorem walkWithin_succ_eq_some_iff : t.walkWithin d (fuel + 1) i = some l ↔
    ∃ n, t.node? i = some n ∧ (d n.id = false ∧ l = [n.id] ∨ d n.id = true ∧
      ∃ ls, n.children.mapM (t.walkWithin d fuel) = some ls ∧ l = n.id :: ls.flatten) := by
  unfold walkWithin
  constructor
  · intro h
    obtain ⟨n, hn, h⟩ := Option.bind_eq_some_iff.1 h
    refine ⟨n, hn, ?_⟩
    split at h
    · rename_i hd
      obtain ⟨ls, hls, h⟩ := Option.bind_eq_some_iff.1 h
      exact .inr ⟨hd, ls, hls, (Option.some.inj h).symm⟩
    · rename_i hd
      exact .inl ⟨by simpa using hd, (Option.some.inj h).symm⟩
  · rintro ⟨n, hn, ⟨hd, rfl⟩ | ⟨hd, ls, hls, rfl⟩⟩
    · rw [hn]
      simp [hd]
    · rw [hn]
      simp [hd, hls]

theorem walkWithin_succ (h : t.walkWithin d fuel i = some l) :
    t.walkWithin d (fuel + 1) i = some l := by
  induction fuel generalizing i l with
  | zero => cases h
  | succ fuel ih =>
    rw [walkWithin_succ_eq_some_iff] at h ⊢
    obtain ⟨n, hn, hstop | ⟨hd, ls, hls, rfl⟩⟩ := h
    · exact ⟨n, hn, .inl hstop⟩
    · have hls' := (mapM_eq_some_iff.1 hls).imp fun _ _ => ih
      exact ⟨n, hn, .inr ⟨hd, ls, mapM_eq_some_iff.2 hls', rfl⟩⟩

theorem walkWithin_mono {fuel' : Nat} (h : t.walkWithin d fuel i = some l) (hle : fuel ≤ fuel') :
    t.walkWithin d fuel' i = some l := by
  induction hle with
  | refl => exact h
  | step _ ih => exact walkWithin_succ ih

/-- A walk from `i` ends within `k + 1` levels and not within `k`. -/
def HasHeight (t : Tree R) (d : NodeId → Bool) (k : Nat) (i : NodeId) : Prop :=
  (∃ l, t.walkWithin d (k + 1) i = some l) ∧ t.walkWithin d k i = none

theorem HasHeight.unique {k' : Nat} (h : t.HasHeight d k i) (h' : t.HasHeight d k' i) : k = k' := by
  obtain ⟨⟨l, hl⟩, hnone⟩ := h
  obtain ⟨⟨l', hl'⟩, hnone'⟩ := h'
  rcases Nat.lt_trichotomy k k' with hlt | heq | hlt
  · rw [walkWithin_mono hl hlt] at hnone'
    cases hnone'
  · exact heq
  · rw [walkWithin_mono hl' hlt] at hnone
    cases hnone

theorem HasHeight.node (h : t.HasHeight d k i) : ∃ n, t.node? i = some n := by
  obtain ⟨⟨l, hl⟩, -⟩ := h
  obtain ⟨n, hn, -⟩ := walkWithin_succ_eq_some_iff.1 hl
  exact ⟨n, hn⟩

/-- One of the children of a node is just one level less high. -/
theorem HasHeight.child (h : t.HasHeight d (k + 1) i) : ∃ c, t.HasHeight d k c := by
  obtain ⟨⟨l, hl⟩, hnone⟩ := h
  have hnot (l' : List NodeId) : t.walkWithin d (k + 1) i ≠ some l' := by
    rw [hnone]
    exact (Option.some_ne_none l').symm
  obtain ⟨n, hn, ⟨hd, -⟩ | ⟨hd, ls, hls, -⟩⟩ := walkWithin_succ_eq_some_iff.1 hl
  · exact absurd (walkWithin_succ_eq_some_iff.2 ⟨n, hn, .inl ⟨hd, rfl⟩⟩) (hnot _)
  · have hends := exists_mapM_iff.1 ⟨ls, hls⟩
    by_contra hno
    have hall : ∀ c ∈ n.children, ∃ l', t.walkWithin d k c = some l' := by
      intro c hc
      cases hw : t.walkWithin d k c with
      | none => exact absurd ⟨c, hends c hc, hw⟩ hno
      | some l' => exact ⟨l', rfl⟩
    obtain ⟨ls', hls'⟩ := exists_mapM_iff.2 hall
    exact hnot _ (walkWithin_succ_eq_some_iff.2 ⟨n, hn, .inr ⟨hd, ls', hls', rfl⟩⟩)

theorem nodup_allIds (t : Tree R) : t.allIds.Nodup :=
  List.nodup_range.map fun _ _ h => Int.ofNat.inj h

theorem mem_allIds_iff : i ∈ t.allIds ↔ ∃ n, t.node? i = some n := by
  rw [mem_allIds, ← node?_isSome_iff, Option.isSome_iff_exists]

/-- No node is higher than there are nodes: there is one of every lesser height. -/
theorem HasHeight.lt_size (h : t.HasHeight d k i) : k < t.size := by
  have hchain : ∃ is : List NodeId, is.length = k + 1 ∧ is.Nodup
      ∧ ∀ j ∈ is, ∃ k' ≤ k, t.HasHeight d k' j := by
    induction k generalizing i with
    | zero => exact ⟨[i], rfl, List.nodup_singleton i, by simpa using h⟩
    | succ k ih =>
      obtain ⟨c, hc⟩ := h.child
      obtain ⟨is, hlen, hnodup, his⟩ := ih hc
      refine ⟨i :: is, by rw [List.length_cons, hlen], List.nodup_cons.2 ⟨?_, hnodup⟩, ?_⟩
      · intro hi
        obtain ⟨k', hle, hk'⟩ := his i hi
        have := h.unique hk'
        omega
      · refine List.forall_mem_cons.2 ⟨⟨k + 1, Nat.le_refl _, h⟩, fun j hj => ?_⟩
        obtain ⟨k', hle, hk'⟩ := his j hj
        exact ⟨k', Nat.le_succ_of_le hle, hk'⟩
  obtain ⟨is, hlen, hnodup, his⟩ := hchain
  have hsub : is ⊆ t.allIds := by
    intro j hj
    obtain ⟨_, -, hj⟩ := his j hj
    exact mem_allIds_iff.2 hj.node
  have := (List.subperm_of_subset hnodup hsub).length_le
  rw [length_allIds, hlen] at this
  exact this

theorem exists_hasHeight (h : t.walkWithin d fuel i = some l) :
    ∃ k < fuel, t.HasHeight d k i := by
  induction fuel generalizing l with
  | zero => cases h
  | succ fuel ih =>
    cases hw : t.walkWithin d fuel i with
    | none => exact ⟨fuel, Nat.lt_succ_self _, ⟨l, h⟩, hw⟩
    | some l' =>
      obtain ⟨k, hlt, hk⟩ := ih hw
      exact ⟨k, Nat.lt_succ_of_lt hlt, hk⟩

/-- A walk ends if it ends within as many levels as there are nodes. -/
theorem walk_eq_some_iff (hsize : 0 < t.size) :
    t.walk d = some l ↔ ∃ fuel, t.walkWithin d fuel 0 = some l := by
  rw [walk, if_neg (by omega)]
  refine ⟨fun h => ⟨t.size, h⟩, fun ⟨fuel, h⟩ => ?_⟩
  obtain ⟨k, hlt, ⟨l', hl'⟩, hk⟩ := exists_hasHeight h
  have hkl : t.HasHeight d k 0 := ⟨⟨l', hl'⟩, hk⟩
  have heq : l' = l := Option.some.inj ((walkWithin_mono hl' hlt).symm.trans h)
  rw [← heq]
  exact walkWithin_mono hl' hkl.lt_size

/-! ## Checks -/

/-- What the check asks of the node at a place: its number, and that a node before it, its parent,
    has it among its children. The root has no parent. -/
structure Anchored (t : Tree R) (i : NodeId) (n : Node R) : Prop where
  id_eq : n.id = i
  root : i = 0 → n.parent = noNode
  up : i ≠ 0 → 0 ≤ n.parent ∧ n.parent < i ∧ ∃ p, t.node? n.parent = some p ∧ i ∈ p.children

theorem any_contains_iff : (t.node? p).any (·.children.contains c) = true ↔
    ∃ n, t.node? p = some n ∧ c ∈ n.children := by
  simp [Option.any_eq_true]

theorem checkNode_eq_ok_iff : t.checkNode k n = .ok () ↔ t.Anchored k n := by
  unfold checkNode
  split
  · rename_i hid
    exact ⟨by rintro ⟨⟩, fun h => absurd h.id_eq hid⟩
  · rename_i hid
    have hid : n.id = k := not_not.1 hid
    split
    · rename_i hk
      subst hk
      split
      · rename_i hroot
        exact ⟨fun _ => ⟨hid, fun _ => eq_of_beq hroot, fun h => absurd rfl h⟩, fun _ => rfl⟩
      · rename_i hroot
        exact ⟨by rintro ⟨⟩, fun h => absurd (beq_iff_eq.2 (h.root rfl)) hroot⟩
    · rename_i hk
      have hk : (k : NodeId) ≠ 0 := fun h => hk (Int.ofNat.inj h)
      split
      · rename_i hpar
        refine ⟨by rintro ⟨⟩, fun h => ?_⟩
        have := h.up hk
        grind
      · rename_i hpar
        split
        · rename_i hlisted
          rw [any_contains_iff, hid] at hlisted
          refine ⟨fun _ => ⟨hid, fun h => absurd h hk, fun _ => ?_⟩, fun _ => rfl⟩
          exact ⟨by grind, by grind, hlisted⟩
        · rename_i hlisted
          rw [any_contains_iff, hid] at hlisted
          exact ⟨by rintro ⟨⟩, fun h => absurd (h.up hk).2.2 hlisted⟩

theorem checkFrom_eq_ok_iff (ns : List (Node R)) (k : Nat) : t.checkFrom k ns = .ok () ↔
    ∀ j n, ns[j]? = some n → t.Anchored ((k + j : Nat) : NodeId) n := by
  induction ns generalizing k with
  | nil => simp [checkFrom]
  | cons m ns ih =>
    rw [checkFrom]
    constructor
    · intro h j n hn
      split at h
      · cases h
      · rename_i hm
        cases j with
        | zero =>
          obtain rfl := Option.some.inj hn
          exact checkNode_eq_ok_iff.1 hm
        | succ j =>
          have := (ih (k + 1)).1 h j n hn
          rwa [Nat.add_right_comm] at this
    · intro h
      have hm : t.checkNode k m = .ok () := checkNode_eq_ok_iff.2 (h 0 m rfl)
      rw [hm]
      refine (ih (k + 1)).2 fun j n hn => ?_
      rw [Nat.add_right_comm]
      exact h (j + 1) n hn

/-- Every node is where the check wants it. -/
structure UpLinked (t : Tree R) : Prop where
  size_pos : 0 < t.size
  anchored : ∀ {i : NodeId} {n : Node R}, t.node? i = some n → t.Anchored i n

theorem check_eq_ok_iff : t.check = .ok () ↔ t.UpLinked := by
  unfold check
  split
  · rename_i hsize
    exact ⟨by rintro ⟨⟩, fun h => absurd hsize (Nat.ne_of_gt h.size_pos)⟩
  · rename_i hsize
    rw [checkFrom_eq_ok_iff]
    constructor
    · intro h
      refine ⟨Nat.pos_of_ne_zero hsize, fun {i n} hn => ?_⟩
      obtain ⟨h0, hget⟩ := node?_eq_some_iff.1 hn
      have := h i.toNat n (by simpa using hget)
      rwa [Nat.zero_add, Int.toNat_of_nonneg h0] at this
    · intro h j n hn
      rw [Nat.zero_add]
      exact h.anchored (node?_eq_some_iff.2 ⟨Int.natCast_nonneg j, by simpa using hn⟩)

/-- What holds of the root, and of a node if it does of its parent, holds of every node. -/
theorem UpLinked.induction (h : t.UpLinked) {P : NodeId → Prop} (root : P 0)
    (child : ∀ i n p, t.node? i = some n → i ≠ 0 → t.node? n.parent = some p → i ∈ p.children →
      P n.parent → P i) (hn : t.node? i = some n) : P i := by
  -- parents come before their children
  have hbelow (k : Nat) : ∀ i n, t.node? i = some n → i < k → P i := by
    induction k with
    | zero =>
      intro i n hn hlt
      have := (node?_bounds hn).1
      grind
    | succ k ih =>
      intro i n hn hlt
      by_cases hne : i = 0
      · exact hne ▸ root
      · obtain ⟨-, hpar, p, hp, hmem⟩ := (h.anchored hn).up hne
        exact child i n p hn hne hp hmem (ih n.parent p hp (by grind))
  exact hbelow t.size i n hn (node?_bounds hn).2

/-- A node whose parent is a node is not the root. -/
theorem UpLinked.ne_zero (h : t.UpLinked) {m : Node R} (hm : t.node? c = some m)
    (hn : t.node? m.parent = some n) : c ≠ 0 := by
  rintro rfl
  have hroot := (h.anchored hm).root rfl
  have := (node?_bounds hn).1
  grind [noNode]

/-- The parent of a node has it among its children. -/
theorem UpLinked.mem_children (h : t.UpLinked) {m : Node R} (hm : t.node? c = some m)
    (hn : t.node? m.parent = some n) : c ∈ n.children := by
  obtain ⟨-, -, p, hp, hmem⟩ := (h.anchored hm).up (h.ne_zero hm hn)
  rwa [Option.some.inj (hn.symm.trans hp)]

/-! ## Entries -/

/-- The children of a node; none for a number that the tree does not have. -/
def childrenOf (t : Tree R) (i : NodeId) : List NodeId := (t.node? i).elim [] Node.children

/-- The entries of all lists of children. -/
def entries (t : Tree R) : List NodeId := t.nodes.toList.flatMap Node.children

/-- The links agree in both directions: a node is among the children of its parent once, and among
    those of no other. -/
def Agrees (t : Tree R) : Prop :=
  ∀ p n, t.node? p = some n → ∀ c,
    n.children.count c = if (t.node? c).map Node.parent = some p then 1 else 0

theorem childrenOf_eq (h : t.node? i = some n) : t.childrenOf i = n.children := by
  rw [childrenOf, h, Option.elim_some]

theorem mem_childrenOf : c ∈ t.childrenOf i ↔ ∃ n, t.node? i = some n ∧ c ∈ n.children := by
  unfold childrenOf
  cases t.node? i <;> simp

theorem flatMap_allIds (t : Tree R) : t.allIds.flatMap t.childrenOf = t.entries :=
  congrArg List.flatten (t.map_allIds [] Node.children)

theorem mem_entries : c ∈ t.entries ↔ ∃ p n, t.node? p = some n ∧ c ∈ n.children := by
  rw [← flatMap_allIds, List.mem_flatMap]
  simp only [mem_childrenOf]
  constructor
  · rintro ⟨p, -, n, hn, hc⟩
    exact ⟨p, n, hn, hc⟩
  · rintro ⟨p, n, hn, hc⟩
    exact ⟨p, mem_allIds_iff.2 ⟨n, hn⟩, n, hn, hc⟩

/-- The root and the entries take in all nodes. -/
theorem UpLinked.allIds_subset (h : t.UpLinked) : t.allIds ⊆ 0 :: t.entries := by
  intro i hi
  obtain ⟨n, hn⟩ := mem_allIds_iff.1 hi
  by_cases hne : i = 0
  · exact List.mem_cons.2 (.inl hne)
  · obtain ⟨-, -, p, hp, hmem⟩ := (h.anchored hn).up hne
    exact List.mem_cons_of_mem _ (mem_entries.2 ⟨n.parent, p, hp, hmem⟩)

/-! ## Agreement -/

/-- The links agree just if no node lists a child twice and each lists those whose parent it is. -/
theorem agrees_iff : t.Agrees ↔ ∀ p n, t.node? p = some n →
    n.children.Nodup ∧ ∀ c, c ∈ n.children ↔ (t.node? c).map Node.parent = some p := by
  refine forall₃_congr fun p n _ => ?_
  constructor
  · intro h
    refine ⟨List.nodup_iff_count_le_one.2 fun c => ?_, fun c => ?_⟩
    · rw [h]
      split <;> omega
    · rw [← List.count_pos_iff, h]
      split
      · rename_i hpar
        exact ⟨fun _ => hpar, fun _ => Nat.one_pos⟩
      · rename_i hpar
        exact ⟨fun hpos => absurd hpos (Nat.lt_irrefl 0), fun heq => absurd heq hpar⟩
  · rintro ⟨hnodup, hmem⟩ c
    split
    · rename_i hpar
      exact List.count_eq_one_of_mem hnodup ((hmem c).2 hpar)
    · rename_i hpar
      exact List.count_eq_zero_of_not_mem fun hc => hpar ((hmem c).1 hc)

/-- The links of a tree that came about by additions agree. -/
theorem Linked.agrees (hl : t.Linked) : t.Agrees := by
  refine agrees_iff.2 fun p n hn => ⟨(hl.increasing hn).imp Int.ne_of_lt, fun c => ?_⟩
  rw [hl.mem_children hn, Option.map_eq_some_iff]

theorem Agrees.mem_children (ha : t.Agrees) (hn : t.node? i = some n) :
    c ∈ n.children ↔ ∃ m, t.node? c = some m ∧ m.parent = i := by
  rw [(agrees_iff.1 ha i n hn).2, Option.map_eq_some_iff]

/-- The child of a node is a node after it. -/
theorem Agrees.lt_child (ha : t.Agrees) (h : t.UpLinked) (hn : t.node? i = some n)
    (hc : c ∈ n.children) : ∃ m, t.node? c = some m ∧ m.parent = i ∧ i < c := by
  obtain ⟨m, hm, rfl⟩ := (ha.mem_children hn).1 hc
  exact ⟨m, hm, rfl, ((h.anchored hm).up (h.ne_zero hm hn)).2.1⟩

/-- The root is nobody's child. -/
theorem Agrees.root_not_mem (ha : t.Agrees) (h : t.UpLinked) (l : List NodeId) :
    0 ∉ l.flatMap t.childrenOf := by
  intro hmem
  obtain ⟨p, -, hp⟩ := List.mem_flatMap.1 hmem
  obtain ⟨n, hn, hc⟩ := mem_childrenOf.1 hp
  obtain ⟨-, -, -, hlt⟩ := ha.lt_child h hn hc
  have := (node?_bounds hn).1
  grind

theorem Agrees.nodup_entries (ha : t.Agrees) : t.entries.Nodup := by
  rw [← flatMap_allIds]
  refine List.nodup_flatMap.2 ⟨fun p hp => ?_, ?_⟩
  · obtain ⟨n, hn⟩ := mem_allIds_iff.1 hp
    rw [childrenOf_eq hn]
    exact (agrees_iff.1 ha p n hn).1
  · refine t.nodup_allIds.imp fun {p q} hne c hp hq => hne ?_
    -- a common child would have both as its parent
    obtain ⟨n, hn, hp⟩ := mem_childrenOf.1 hp
    obtain ⟨n', hn', hq⟩ := mem_childrenOf.1 hq
    obtain ⟨m, hm, rfl⟩ := (ha.mem_children hn).1 hp
    obtain ⟨m', hm', rfl⟩ := (ha.mem_children hn').1 hq
    rw [Option.some.inj (hm.symm.trans hm')]

/-- If no entry is left over, whoever has `c` among its children is the parent of `c`. -/
theorem UpLinked.parent_eq (h : t.UpLinked) (hperm : t.allIds.Perm (0 :: t.entries))
    (hn : t.node? p = some n) (hc : c ∈ n.children) : (t.node? c).map Node.parent = some p := by
  obtain ⟨hroot, hnodup⟩ := List.nodup_cons.1 (hperm.nodup_iff.1 t.nodup_allIds)
  have hentry : c ∈ t.entries := mem_entries.2 ⟨p, n, hn, hc⟩
  have hne : c ≠ 0 := fun h => hroot (h ▸ hentry)
  obtain ⟨m, hm⟩ := mem_allIds_iff.1 (hperm.mem_iff.2 (List.mem_cons_of_mem _ hentry))
  obtain ⟨-, -, q, hq, hcq⟩ := (h.anchored hm).up hne
  rw [hm, Option.map_some]
  by_contra hother
  -- two nodes with the child would give it two entries
  rw [← flatMap_allIds] at hnodup
  have : Std.Symm (Function.onFun List.Disjoint t.childrenOf) := ⟨fun _ _ h _ hp hq => h hq hp⟩
  have hdisjoint := (List.nodup_flatMap.1 hnodup).2.forall (mem_allIds_iff.2 ⟨n, hn⟩)
    (mem_allIds_iff.2 ⟨q, hq⟩) fun h => hother (congrArg some h.symm)
  exact hdisjoint (mem_childrenOf.2 ⟨n, hn, hc⟩) (mem_childrenOf.2 ⟨q, hq, hcq⟩)

/-- The links agree just if the root and the entries are the nodes, each once. -/
theorem UpLinked.agrees_iff_perm (h : t.UpLinked) :
    t.Agrees ↔ t.allIds.Perm (0 :: t.entries) := by
  constructor
  · intro ha
    have hroot : 0 ∉ t.entries := t.flatMap_allIds ▸ ha.root_not_mem h t.allIds
    have hnodup : (0 :: t.entries).Nodup := List.nodup_cons.2 ⟨hroot, ha.nodup_entries⟩
    refine (List.perm_ext_iff_of_nodup t.nodup_allIds hnodup).2 fun i => ?_
    refine ⟨(h.allIds_subset ·), fun hi => mem_allIds_iff.2 ?_⟩
    rcases List.mem_cons.1 hi with rfl | hi
    · exact exists_root h.size_pos
    · obtain ⟨p, n, hn, hc⟩ := mem_entries.1 hi
      obtain ⟨m, hm, -⟩ := (ha.mem_children hn).1 hc
      exact ⟨m, hm⟩
  · intro hperm
    have hnodup := (List.nodup_cons.1 (hperm.nodup_iff.1 t.nodup_allIds)).2
    rw [← flatMap_allIds] at hnodup
    refine agrees_iff.2 fun p n hn => ⟨?_, fun c => ⟨h.parent_eq hperm hn, fun hc => ?_⟩⟩
    · rw [← childrenOf_eq hn]
      exact (List.nodup_flatMap.1 hnodup).1 p (mem_allIds_iff.2 ⟨n, hn⟩)
    · obtain ⟨m, hm, rfl⟩ := Option.map_eq_some_iff.1 hc
      exact h.mem_children hm hn

/-- An accepted tree has an entry for each node but the root, and its links agree just if it has no
    more. -/
theorem UpLinked.agrees_iff_length (h : t.UpLinked) :
    t.size ≤ t.entries.length + 1 ∧ (t.Agrees ↔ t.entries.length + 1 = t.size) := by
  have hsub := List.subperm_of_subset t.nodup_allIds h.allIds_subset
  have hle := hsub.length_le
  rw [length_allIds, List.length_cons] at hle
  refine ⟨hle, h.agrees_iff_perm.trans ⟨fun hperm => ?_, fun hlen => ?_⟩⟩
  · rw [← length_allIds, hperm.length_eq, List.length_cons]
  · refine hsub.perm_of_length_le ?_
    rw [length_allIds, List.length_cons, hlen]

/-! ## Walks through all nodes -/

/-- The nodes that a walk visits are the one that it starts from and the children of those that it
    visits. -/
theorem perm_of_walkWithin (hid : ∀ {i n}, t.node? i = some n → n.id = i)
    (h : t.walkWithin (fun _ => true) fuel i = some l) : l.Perm (i :: l.flatMap t.childrenOf) := by
  induction fuel generalizing i l with
  | zero => cases h
  | succ fuel ih =>
    obtain ⟨n, hn, ⟨hd, -⟩ | ⟨-, ls, hls, rfl⟩⟩ := walkWithin_succ_eq_some_iff.1 h
    · cases hd
    · rw [hid hn, List.flatMap_cons, childrenOf_eq hn]
      exact .cons i (flatten_perm ((mapM_eq_some_iff.1 hls).imp fun _ _ => ih))

theorem UpLinked.perm_of_walk (h : t.UpLinked) (hl : t.walk (fun _ => true) = some l) :
    l.Perm (0 :: l.flatMap t.childrenOf) := by
  obtain ⟨fuel, hl⟩ := (walk_eq_some_iff h.size_pos).1 hl
  exact perm_of_walkWithin (fun hn => (h.anchored hn).id_eq) hl

/-- A walk through an accepted tree leaves out no node. -/
theorem UpLinked.mem_walk (h : t.UpLinked) (hl : t.walk (fun _ => true) = some l)
    (hn : t.node? i = some n) : i ∈ l := by
  have hperm := h.perm_of_walk hl
  refine h.induction (hperm.mem_iff.2 List.mem_cons_self) (fun i n p _ _ hp hmem hparent => ?_) hn
  have hchild : i ∈ l.flatMap t.childrenOf :=
    List.mem_flatMap.2 ⟨n.parent, hparent, mem_childrenOf.2 ⟨p, hp, hmem⟩⟩
  exact hperm.mem_iff.2 (List.mem_cons_of_mem 0 hchild)

/-- If the links agree, a walk comes to an end, since children come after their parents. -/
theorem Agrees.exists_walk (ha : t.Agrees) (h : t.UpLinked) :
    ∃ l, t.walk (fun _ => true) = some l := by
  have hbelow (k : Nat) : ∀ i n, t.node? i = some n → t.size ≤ i + k →
      ∃ l, t.walkWithin (fun _ => true) k i = some l := by
    induction k with
    | zero =>
      intro i n hn hle
      have := (node?_bounds hn).2
      grind
    | succ k ih =>
      intro i n hn hle
      have hall : ∀ c ∈ n.children, ∃ l, t.walkWithin (fun _ => true) k c = some l := by
        intro c hc
        obtain ⟨m, hm, -, hlt⟩ := ha.lt_child h hn hc
        exact ih c m hm (by grind)
      obtain ⟨ls, hls⟩ := exists_mapM_iff.2 hall
      exact ⟨_, walkWithin_succ_eq_some_iff.2 ⟨n, hn, .inr ⟨rfl, ls, hls, rfl⟩⟩⟩
  obtain ⟨n, hn⟩ := exists_root h.size_pos
  obtain ⟨l, hl⟩ := hbelow t.size 0 n hn (by grind)
  exact ⟨l, (walk_eq_some_iff h.size_pos).2 ⟨_, hl⟩⟩

/-- In the lists of children of some nodes a node occurs as often as its parent is among them. -/
theorem Agrees.count_flatMap (ha : t.Agrees) {m q : Node R} (hm : t.node? c = some m)
    (hq : t.node? m.parent = some q) (l : List NodeId) :
    (l.flatMap t.childrenOf).count c = l.count m.parent := by
  induction l with
  | nil => rfl
  | cons p l ih =>
    rw [List.flatMap_cons, List.count_append, List.count_cons, ih, Nat.add_comm]
    congr 1
    cases hp : t.node? p with
    | none =>
      have hne : p ≠ m.parent := by
        rintro rfl
        rw [hq] at hp
        cases hp
      simp [childrenOf, hp, hne]
    | some n =>
      rw [childrenOf_eq hp, ha p n hp, hm]
      by_cases heq : p = m.parent
      · simp [heq]
      · simp [heq, Ne.symm heq]

/-- If the links agree, a walk visits every node once. -/
theorem Agrees.perm_walk (ha : t.Agrees) (h : t.UpLinked)
    (hl : t.walk (fun _ => true) = some l) : l.Perm t.allIds := by
  have hperm := h.perm_of_walk hl
  have hnode : ∀ i ∈ l, ∃ n, t.node? i = some n := by
    intro i hi
    rcases List.mem_cons.1 (hperm.mem_iff.1 hi) with rfl | hi
    · exact exists_root h.size_pos
    · obtain ⟨p, -, hp⟩ := List.mem_flatMap.1 hi
      obtain ⟨n, hn, hc⟩ := mem_childrenOf.1 hp
      obtain ⟨m, hm, -⟩ := ha.lt_child h hn hc
      exact ⟨m, hm⟩
  -- a node is visited as often as its parent is, and the root once
  have honce : ∀ i n, t.node? i = some n → l.count i ≤ 1 := by
    intro i n hn
    refine h.induction (P := fun i => l.count i ≤ 1) ?_ (fun i n p hn hne hp _ hparent => ?_) hn
    · rw [hperm.count_eq, List.count_cons_self, List.count_eq_zero_of_not_mem (ha.root_not_mem h l)]
    · rw [hperm.count_eq, List.count_cons_of_ne (Ne.symm hne), ha.count_flatMap hn hp]
      exact hparent
  have hnodup : l.Nodup := by
    refine List.nodup_iff_count_le_one.2 fun i => ?_
    by_cases hi : i ∈ l
    · obtain ⟨n, hn⟩ := hnode i hi
      exact honce i n hn
    · rw [List.count_eq_zero_of_not_mem hi]
      omega
  refine (List.perm_ext_iff_of_nodup hnodup t.nodup_allIds).2 fun i => ?_
  rw [mem_allIds_iff]
  exact ⟨hnode i, fun ⟨n, hn⟩ => h.mem_walk hl hn⟩

theorem UpLinked.agrees_iff_walk (h : t.UpLinked) :
    t.Agrees ↔ ∃ l, t.walk (fun _ => true) = some l ∧ l.Perm t.allIds := by
  constructor
  · intro ha
    obtain ⟨l, hl⟩ := ha.exists_walk h
    exact ⟨l, hl, ha.perm_walk h hl⟩
  · rintro ⟨l, hl, hall⟩
    rw [h.agrees_iff_perm, ← flatMap_allIds]
    exact hall.symm.trans ((h.perm_of_walk hl).trans (.cons 0 (hall.flatMap_right _)))

end Tree

/-- The check accepts a tree just if every node is where it belongs as seen from below. A walk
    through such a tree leaves out no node, and there are entries for all nodes but the root.
    Whether the links agree in the other direction, too, is left open: they do just if there are no
    more entries than these, and just if the walk ends and visits every node once. -/
theorem checked_links_agree_iff {R : Type} (t : Tree R) :
    (t.check = .ok () ↔ 0 < t.size ∧ ∀ i n, t.node? i = some n → t.Anchored i n)
    ∧ (t.check = .ok () →
      (∀ l, t.walk (fun _ => true) = some l → t.allIds ⊆ l)
      ∧ t.size ≤ t.entries.length + 1
      ∧ (t.Agrees ↔ t.entries.length + 1 = t.size)
      ∧ (t.Agrees ↔ ∃ l, t.walk (fun _ => true) = some l ∧ l.Perm t.allIds)) := by
  constructor
  · rw [Tree.check_eq_ok_iff]
    exact ⟨fun h => ⟨h.size_pos, fun i n hn => h.anchored hn⟩,
      fun ⟨hsize, h⟩ => ⟨hsize, fun hn => h _ _ hn⟩⟩
  · intro hcheck
    have h := Tree.check_eq_ok_iff.1 hcheck
    refine ⟨fun l hl i hi => ?_, h.agrees_iff_length.1, h.agrees_iff_length.2, h.agrees_iff_walk⟩
    obtain ⟨n, hn⟩ := Tree.mem_allIds_iff.1 hi
    exact h.mem_walk hl hn

/-- A tree with the given parents and children, numbered in order. -/
def Tree.ofLinks (links : List (NodeId × List NodeId)) : Tree Float where
  nodes := (links.zipIdx.map fun ((parent, children), id) =>
    { method := { id := "t/N.m()V", cls := "t/N", name := "m", descriptor := "()V" }
      callRatio := 1, rootCallRatio := 1, id := (id : Nat), parent, children }).toArray

/-- A root that lists its child twice. -/
def doubledChild : Tree Float := .ofLinks [(noNode, [1, 1]), (0, [])]

/-- A child that lists the root. -/
def circularChild : Tree Float := .ofLinks [(noNode, [1]), (0, [0])]

/-- The check accepts an entry too many. A walk visits the doubled child twice, and it goes from the
    circular child back up and down again without an end. -/
theorem check_accepts_stray_children :
    (doubledChild.check = .ok () ∧ ¬doubledChild.Agrees
      ∧ doubledChild.walk (fun _ => true) = some [0, 1, 1])
    ∧ circularChild.check = .ok () ∧ ¬circularChild.Agrees
      ∧ ∀ fuel, circularChild.walkWithin (fun _ => true) fuel 0 = none := by
  refine ⟨⟨by decide, fun h => ?_, by decide⟩, by decide, fun h => ?_, fun fuel => ?_⟩
  · have : (2 : Nat) = 1 := h 0 _ rfl 1
    omega
  · have : (1 : Nat) = 0 := h 1 _ rfl 0
    omega
  · have hnone : circularChild.walk (fun _ => true) = none := by decide
    refine Option.eq_none_iff_forall_ne_some.2 fun l hl => ?_
    rw [(Tree.walk_eq_some_iff (by decide)).2 ⟨fuel, hl⟩] at hnone
    cases hnone

end InlinePlan
