import InlinePlan.Proofs.CallTree.Links
import InlinePlan.Proofs.CallTree.Preorder

set_option autoImplicit false

/-! # Trees under additions that may fail

An addition changes the tree in place: it first looks for a place, then gives the parent a child and
then puts the node at the end (`Tree.adding`). It fails only while it looks for a place, so a failure
leaves the tree as it was, and whoever goes on after failures has a tree that was made by the
additions that succeeded (`Tree.built_attempts`). What holds of built trees holds of it, and a walk
through it goes down before it goes on (`Tree.Visits`). -/

namespace InlinePlan

namespace Tree

variable {R : Type} {t t' : Tree R} {parent c i : NodeId} {call : Call R} {n : Node R}

/-! ## Additions in place -/

/-- Adds a call to a tree that is changed step by step, and returns the number of its node. -/
def adding (parent : NodeId) (call : Call R) : EStateM TreeFault (Tree R) NodeId := do
  let size := (← get).size
  if parent = noNode then
    if size ≠ 0 then throw (.secondRoot call.method.id)
  else
    if parent < 0 ∨ size ≤ parent then throw (.noParent parent call.method.id)
    modifyGet fun t => ((), t.modify parent fun p =>
      { p with children := p.children ++ [(size : NodeId)] })
  modifyGet fun t => ((size : NodeId), { nodes := t.nodes.push { call with id := size, parent } })

/-- An addition in place does what `add` does, and where that fails it has changed nothing yet. -/
theorem adding_eq (t : Tree R) (parent : NodeId) (call : Call R) :
    adding parent call t = match t.add parent call with
      | .ok t' => .ok (t.size : NodeId) t'
      | .error e => .error e t := by
  unfold adding add
  dsimp only [get, getThe, MonadStateOf.get, bind, EStateM.bind, EStateM.get]
  by_cases hroot : parent = noNode
  · rw [if_pos hroot, if_pos hroot]
    by_cases hsize : t.size = 0
    · rw [if_neg (not_not.2 hsize), if_pos hsize]
      rfl
    · rw [if_pos hsize, if_neg hsize]
      rfl
  · rw [if_neg hroot, if_neg hroot]
    by_cases hplace : parent < 0 ∨ t.size ≤ parent
    · rw [if_pos hplace, if_pos hplace]
      rfl
    · rw [if_neg hplace, if_neg hplace]
      rfl

/-- An addition fails for a second root and below a parent that does not exist. -/
theorem add_eq_error_iff {e : TreeFault} : t.add parent call = .error e ↔
    parent = noNode ∧ 0 < t.size ∧ e = .secondRoot call.method.id
    ∨ parent ≠ noNode ∧ (parent < 0 ∨ t.size ≤ parent) ∧ e = .noParent parent call.method.id := by
  unfold add
  by_cases hroot : parent = noNode
  · by_cases hsize : t.size = 0
    · simp [hroot, hsize]
    · simp [hroot, hsize, Nat.pos_of_ne_zero hsize, eq_comm]
  · by_cases hplace : parent < 0 ∨ t.size ≤ parent
    · simp [hroot, hplace, eq_comm]
    · simp [hroot, hplace]

/-- The calls with the parents below which they were added. -/
def placements (t : Tree R) : List (NodeId × Call R) :=
  t.nodes.toList.map fun n => (n.parent, n.toCall)

theorem getElem?_placements (t : Tree R) (k : Nat) :
    t.placements[k]? = (t.node? k).map fun n => (n.parent, n.toCall) := by
  have hnode : t.node? k = t.nodes[k]? := if_neg (Int.not_lt.2 (Int.natCast_nonneg k))
  rw [placements, List.getElem?_map, Array.getElem?_toList, hnode]

/-- An addition changes nothing but its parent's list of children, and puts the call at the end. -/
theorem placements_add (h : t.add parent call = .ok t') :
    t'.placements = t.placements ++ [(parent, call)] := by
  have hlength : t.placements.length = t.size := List.length_map _
  refine List.ext_getElem? fun k => ?_
  rw [getElem?_placements, (add_ok h).2.2]
  split
  · rename_i hk
    obtain rfl : k = t.size := Int.ofNat.inj hk
    rw [List.getElem?_append_right (Nat.le_of_eq hlength), hlength, Nat.sub_self]
    rfl
  · rename_i hk
    have hsame : (fun n : Node R => (n.parent, n.toCall)) ∘ t.linkChild parent k
        = fun n => (n.parent, n.toCall) := by
      funext n
      show ((t.linkChild parent k n).parent, (t.linkChild parent k n).toCall) = _
      unfold linkChild
      split <;> rfl
    rw [Option.map_map, hsame, ← getElem?_placements]
    rcases Nat.lt_or_ge k t.size with hlt | hge
    · rw [List.getElem?_append_left (hlength ▸ hlt)]
    · have hlt : t.size < k := Nat.lt_of_le_of_ne hge fun heq => hk (congrArg Int.ofNat heq.symm)
      rw [List.getElem?_eq_none (hlength ▸ hge), List.getElem?_eq_none]
      rw [List.length_append, hlength]
      exact hlt

/-! ## Additions one after another -/

/-- Goes on with what an addition has left, whether it failed or not. -/
def attempt (t : Tree R) (placement : NodeId × Call R) : Tree R :=
  match adding placement.1 placement.2 t with
  | .ok _ t' => t'
  | .error _ t' => t'

/-- Additions one after another, from no nodes on. -/
def attempts (calls : List (NodeId × Call R)) : Tree R := calls.foldl attempt {}

theorem Built.attempt (h : t.Built) (placement : NodeId × Call R) :
    (t.attempt placement).Built := by
  unfold Tree.attempt
  rw [adding_eq]
  cases hadd : t.add placement.1 placement.2 with
  | ok t' => exact h.add hadd
  | error e => exact h

theorem built_attempts (calls : List (NodeId × Call R)) : (attempts calls).Built := by
  unfold attempts
  suffices hall : ∀ t : Tree R, t.Built → (calls.foldl Tree.attempt t).Built from hall {} .empty
  induction calls with
  | nil => exact fun _ h => h
  | cons placement calls ih => exact fun t h => ih _ (h.attempt placement)

/-! ## Walks -/

/-- The nodes that are visited from some nodes on: from each of them, in order, the node itself and
    then what is visited from its children on. -/
inductive Visits (t : Tree R) : List NodeId → List NodeId → Prop where
  | nil : Visits t [] []
  | cons {i : NodeId} {n : Node R} {rest below others : List NodeId} :
      t.node? i = some n → Visits t n.children below → Visits t rest others →
      Visits t (i :: rest) (i :: (below ++ others))

theorem Visits.unique {is l l' : List NodeId} (h : t.Visits is l) (h' : t.Visits is l') :
    l = l' := by
  induction h generalizing l' with
  | nil =>
    cases h'
    rfl
  | cons hn _ _ ihb ihr =>
    cases h' with
    | cons hn' hb hr =>
      obtain rfl := Option.some.inj (hn.symm.trans hn')
      rw [ihb hb, ihr hr]

theorem Visits.append {is js l m : List NodeId} (hi : t.Visits is l) (hj : t.Visits js m) :
    t.Visits (is ++ js) (l ++ m) := by
  induction hi with
  | nil => exact hj
  | cons hn hb _ _ ihr =>
    rw [List.cons_append, List.cons_append, List.append_assoc]
    exact .cons hn hb ihr

theorem Visits.flatten {cs : List NodeId} {ls : List (List NodeId)}
    (h : List.Forall₂ (fun c l => t.Visits [c] l) cs ls) : t.Visits cs ls.flatten := by
  induction h with
  | nil => exact .nil
  | cons hc _ ih => exact hc.append ih

/-- A walk goes down before it goes on. -/
theorem visits_of_walkWithin (hid : ∀ {i n}, t.node? i = some n → n.id = i) {fuel : Nat}
    {l : List NodeId} (h : t.walkWithin (fun _ => true) fuel i = some l) : t.Visits [i] l := by
  induction fuel generalizing i l with
  | zero => cases h
  | succ fuel ih =>
    obtain ⟨n, hn, ⟨hd, -⟩ | ⟨-, ls, hls, rfl⟩⟩ := walkWithin_succ_eq_some_iff.1 h
    · cases hd
    · have hbelow := Visits.flatten ((mapM_eq_some_iff.1 hls).imp fun _ _ => ih)
      rw [hid hn, ← List.append_nil ls.flatten]
      exact .cons hn hbelow .nil

/-- A walk through a tree that came about by additions visits every node once, in preorder. -/
theorem Linked.exists_visits (hl : t.Linked) (hsize : 0 < t.size) :
    ∃ l, t.walk (fun _ => true) = some l ∧ l.Perm t.allIds ∧ t.Visits [0] l := by
  have hup := check_eq_ok_iff.1 (hl.check_eq hsize)
  obtain ⟨l, hwalk⟩ := hl.agrees.exists_walk hup
  obtain ⟨fuel, hwithin⟩ := (walk_eq_some_iff hsize).1 hwalk
  exact ⟨l, hwalk, hl.agrees.perm_walk hup hwalk, visits_of_walkWithin hl.id_eq hwithin⟩

/-! ## Depths -/

theorem Linked.exists_line (hl : t.Linked) (hn : t.node? i = some n) : ∃ ns, t.Line i ns := by
  obtain ⟨root, hroot⟩ : ∃ root, t.node? 0 = some root :=
    exists_root (by have := node?_bounds hn; grind)
  have hup := check_eq_ok_iff.1 (hl.check_eq (by have := node?_bounds hn; grind))
  refine hup.induction (P := fun i => ∃ ns, t.Line i ns) ?_ (fun i n p hn hne hp _ ih => ?_) hn
  · exact ⟨[root], .root 0 root hroot (beq_iff_eq.2 (hl.parent_root hroot))⟩
  · obtain ⟨ns, hline⟩ := ih
    have hinner : n.parent ≠ noNode := by
      have := (hl.parent_lt hn hne).1
      grind [noNode]
    exact ⟨n :: ns, .step i n ns hn (beq_eq_false_iff_ne.2 hinner) hline⟩

/-- The root is at depth 0, and every other node one deeper than its parent. -/
theorem Linked.depth_eq (hl : t.Linked) (hn : t.node? i = some n) :
    n.parent = noNode ∧ t.depth i = some 0
    ∨ n.parent ≠ noNode ∧ ∃ d, t.depth n.parent = some d ∧ t.depth i = some (d + 1) := by
  obtain ⟨ns, hline⟩ := hl.exists_line hn
  cases hline with
  | root _ m hm hroot =>
    obtain rfl := Option.some.inj (hn.symm.trans hm)
    exact .inl ⟨eq_of_beq hroot, hl.depth_of_line (.root i n hn hroot)⟩
  | step _ m ms hm hinner hline =>
    obtain rfl := Option.some.inj (hn.symm.trans hm)
    refine .inr ⟨ne_of_beq_false hinner, _, hl.depth_of_line hline, ?_⟩
    have := (hl.length_line hline).1
    rw [hl.depth_of_line (.step i n ms hn hinner hline), List.length_cons]
    congr 1
    omega

end Tree

/-- Whatever calls are added one after another, and whichever of the additions fail: an addition
    fails just for a second root and below a parent that does not exist, and leaves the tree as it
    was; one that succeeds returns the next number and puts the call at the end. Nodes have the
    numbers of their places and come after their parents, a node is among the children of its parent
    once and among those of no other, and children are in the order in which they were added. The
    check accepts the tree unless it is empty, a walk visits every node once, each before its
    children and those in their order, and the way up from a node ends and is one step longer than
    that from its parent. -/
theorem additions_well_formed {R : Type} (calls : List (NodeId × Call R)) :
    ∃ t, Tree.attempts calls = t
    ∧ (∀ parent call e t', Tree.adding parent call t = .error e t' ↔
        t' = t ∧ (parent = noNode ∧ 0 < t.size ∧ e = .secondRoot call.method.id
          ∨ parent ≠ noNode ∧ (parent < 0 ∨ t.size ≤ parent)
            ∧ e = .noParent parent call.method.id))
    ∧ (∀ parent call id t', Tree.adding parent call t = .ok id t' →
        id = t.size ∧ t'.placements = t.placements ++ [(parent, call)])
    ∧ (∀ i n, t.node? i = some n → n.id = i ∧ n.children.Pairwise (· < ·)
        ∧ (i = 0 → n.parent = noNode) ∧ (i ≠ 0 → 0 ≤ n.parent ∧ n.parent < i))
    ∧ (∀ p n, t.node? p = some n → ∀ c,
        n.children.count c = if (t.node? c).map Node.parent = some p then 1 else 0)
    ∧ t.check = (if t.size = 0 then .error .empty else .ok ())
    ∧ (∃ l, t.walk (fun _ => true) = some l ∧ l.Perm t.allIds
        ∧ t.Visits (if t.size = 0 then [] else [0]) l)
    ∧ ∀ i n, t.node? i = some n →
        n.parent = noNode ∧ t.depth i = some 0
        ∨ n.parent ≠ noNode ∧ ∃ d, t.depth n.parent = some d ∧ t.depth i = some (d + 1) := by
  have hl := (Tree.built_attempts calls).linked
  refine ⟨_, rfl, fun parent call e t' => ?_, fun parent call id t' h => ?_, fun i n hn => ?_,
    hl.agrees, ?_, ?_, fun i n hn => hl.depth_eq hn⟩
  · rw [Tree.adding_eq, ← Tree.add_eq_error_iff]
    cases (Tree.attempts calls).add parent call with
    | ok t' => simp
    | error e' => simp [and_comm, eq_comm]
  · rw [Tree.adding_eq] at h
    cases hadd : (Tree.attempts calls).add parent call with
    | error e =>
      rw [hadd] at h
      cases h
    | ok t'' =>
      rw [hadd] at h
      cases h
      exact ⟨rfl, Tree.placements_add hadd⟩
  · refine ⟨hl.id_eq hn, hl.increasing hn, ?_, hl.parent_lt hn⟩
    rintro rfl
    exact hl.parent_root hn
  · split
    · rename_i hsize
      exact if_pos hsize
    · rename_i hsize
      exact hl.check_eq (Nat.pos_of_ne_zero hsize)
  · split
    · rename_i hsize
      refine ⟨[], if_pos hsize, ?_, .nil⟩
      rw [Tree.allIds, hsize]
      exact .nil
    · rename_i hsize
      exact hl.exists_visits (Nat.pos_of_ne_zero hsize)

/-- Calls of one method below the given parents, not all of which can be placed. -/
def strayCalls : List (NodeId × Call Float) :=
  [3, noNode, noNode, 0, -5, 0, 1, 9].map fun parent =>
    (parent, { method := { id := "t/N.m()V" }, callRatio := 1, rootCallRatio := 1 })

/-- The walk through what is left by all additions, and what the next one makes of a place that does
    not exist. -/
theorem additions_well_formed_stray :
    ∃ t, Tree.attempts strayCalls = t ∧ t.size = 4
      ∧ t.nodes.toList.map (·.children) = [[1, 2], [3], [], []]
      ∧ t.walk (fun _ => true) = some [0, 1, 3, 2] ∧ t.check = .ok ()
      ∧ ∀ call, Tree.adding 4 call t = .error (.noParent 4 call.method.id) t := by
  obtain ⟨t, rfl, hfails, -, -, -, hcheck, -⟩ := additions_well_formed strayCalls
  have hsize : (Tree.attempts strayCalls).size = 4 := by decide
  rw [hsize] at hcheck
  refine ⟨_, rfl, hsize, by decide, by decide, hcheck, fun call => (hfails _ _ _ _).2 ⟨rfl, .inr ?_⟩⟩
  exact ⟨by decide, .inr (by rw [hsize]; decide), rfl⟩

end InlinePlan
