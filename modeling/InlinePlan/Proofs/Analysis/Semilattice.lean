import InlinePlan.Proofs.Analysis.Joins
import Mathlib.Data.List.GetD
import Mathlib.Data.Option.NAry
import Mathlib.Order.Lattice

set_option autoImplicit false

/-! # Merging is a semilattice

Merging frames is idempotent, commutative and associative, failures included, so it does not matter
in which order the predecessors of a block are merged. Slot by slot this holds of joins. Dropping the
pairs that a merge breaks looks at neighbouring slots as well. It comes down to dropping lone padding,
because paired locals never leave a 64-bit value alone (`getD_joinLocals`), and lone padding can as
well be dropped once at the end as after each merge (`mend_mergeLocal`). -/

namespace InlinePlan

open InlinePlan.Frame

namespace Frame

/-! ## Locals -/

/-- Makes padding unusable that follows no 64-bit value. -/
def mend (slots : Nat → Value) : Nat → Value
  | 0 => slots 0
  | i + 1 => if (slots (i + 1)).isPad && !(slots i).isWide then .unusable else slots (i + 1)

theorem mend_succ (slots : Nat → Value) (i : Nat) : mend slots (i + 1)
    = if (slots (i + 1)).isPad && !(slots i).isWide then .unusable else slots (i + 1) := rfl

theorem mend_of_lone {slots : Nat → Value} {i : Nat} (hpad : (slots (i + 1)).isPad = true)
    (hwide : (slots i).isWide = false) : mend slots (i + 1) = .unusable := by
  simp [mend, hpad, hwide]

theorem mend_of_not_pad {slots : Nat → Value} {i : Nat} (hpad : (slots i).isPad = false) :
    mend slots i = slots i := by
  cases i with
  | zero => rfl
  | succ i => simp [mend, hpad]

theorem isWide_mend (slots : Nat → Value) (i : Nat) : (mend slots i).isWide = (slots i).isWide := by
  cases i with
  | zero => rfl
  | succ i =>
    rw [mend_succ]
    split
    case isTrue hlone =>
      rw [Bool.and_eq_true] at hlone
      rw [Value.eq_pad hlone.1]
      rfl
    case isFalse => rfl

/-- Mending between two merges changes nothing. -/
theorem mend_mergeLocal (slots others : Nat → Value) :
    mend (fun i => mergeLocal (mend slots i) (others i))
      = mend fun i => mergeLocal (slots i) (others i) := by
  have hwide (i : Nat) : (mergeLocal (mend slots i) (others i)).isWide
      = (mergeLocal (slots i) (others i)).isWide := by
    cases hpad : (slots i).isPad with
    | false => rw [mend_of_not_pad hpad]
    | true =>
      have hnot : (slots i).isWide = false := by rw [Value.eq_pad hpad]; rfl
      rw [mergeLocal_not_wide ((isWide_mend slots i).trans hnot), mergeLocal_not_wide hnot]
  funext i
  cases i with
  | zero => rfl
  | succ i =>
    by_cases hlone : (slots (i + 1)).isPad = true ∧ (slots i).isWide = false
    · -- lone padding is lost either way: if it meets padding, it is still alone after the merge
      have hlost : mend (fun i => mergeLocal (mend slots i) (others i)) (i + 1) = .unusable := by
        rw [mend_succ, mend_of_lone hlone.1 hlone.2, unusable_mergeLocal]
        rfl
      rw [hlost]
      cases hother : (others (i + 1)).isPad with
      | true =>
        symm
        refine mend_of_lone ?_ (mergeLocal_not_wide hlone.2)
        rw [isPad_mergeLocal, hlone.1, hother, Bool.and_true]
      | false => rw [mend_succ, mergeLocal_of_isPad hlone.1 hother, ite_self]
    · have hkeep : mend slots (i + 1) = slots (i + 1) := by
        rw [mend_succ, if_neg (by simpa using hlone)]
      rw [mend_succ fun i => mergeLocal (mend slots i) (others i), hkeep, hwide]
      rfl

end Frame

theorem SlotsPaired.isPad_getD_zero {vs : List Value} (h : SlotsPaired vs) :
    (vs.getD 0 .unusable).isPad = false :=
  (pairedFrom_iff.1 (slotsPaired_iff.1 h)).1

theorem SlotsPaired.isPad_getD_succ {vs : List Value} (h : SlotsPaired vs) (i : Nat) :
    (vs.getD (i + 1) .unusable).isPad = (vs.getD i .unusable).isWide :=
  (pairedFrom_iff.1 (slotsPaired_iff.1 h)).2 i

theorem SlotsPaired.mend_eq {vs : List Value} (h : SlotsPaired vs) :
    mend (vs.getD · .unusable) = (vs.getD · .unusable) := by
  funext i
  cases i with
  | zero => rfl
  | succ i => rw [mend_succ, h.isPad_getD_succ, Bool.and_not_self, if_neg Bool.false_ne_true]

namespace Frame

variable {as bs cs : List Value}

theorem length_mergeLocals (as bs : List Value) :
    (mergeLocals as bs).length = max as.length bs.length := by
  fun_induction mergeLocals as bs with
  | case1 => rfl
  | case2 a as ih | case3 b bs ih | case4 a as b bs ih =>
    simp only [List.length_cons, ih, List.length_nil]
    omega

theorem length_dropLonePads (afterWide : Bool) (vs : List Value) :
    (dropLonePads afterWide vs).length = vs.length := by
  induction vs generalizing afterWide with
  | nil => rfl
  | cons v vs ih => rw [dropLonePads, List.length_cons, List.length_cons, ih]

/-- Nothing is dropped where all 64-bit values have their padding. -/
theorem dropLoneValues_eq_self {vs : List Value}
    (h : ∀ i, (vs.getD i .unusable).isWide = true → (vs.getD (i + 1) .unusable).isPad = true) :
    dropLoneValues vs = vs := by
  fun_induction dropLoneValues vs with
  | case1 => rfl
  | case2 v =>
    have hv : v.isWide = false := by
      by_contra hw
      cases h 0 (Bool.not_eq_false _ ▸ hw)
    rw [hv, if_neg Bool.false_ne_true]
  | case3 v w vs ih =>
    have hv : (v.isWide && !w.isPad) = false := by
      cases hw : v.isWide with
      | false => rfl
      | true => rw [show w.isPad = true from h 0 hw]; rfl
    rw [hv, if_neg Bool.false_ne_true, ih fun i => h (i + 1)]

theorem getD_dropLonePads_succ (afterWide : Bool) (vs : List Value) (i : Nat) :
    (dropLonePads afterWide vs).getD (i + 1) .unusable = mend (vs.getD · .unusable) (i + 1) := by
  induction vs generalizing afterWide i with
  | nil => rfl
  | cons v vs ih =>
    cases i with
    | zero => cases vs <;> rfl
    | succ i => exact ih v.isWide i

/-- The locals of a merge. -/
def joinLocals (as bs : List Value) : List Value := dropBrokenPairs (mergeLocals as bs)

/-- Merging paired locals leaves no 64-bit value without padding. -/
theorem getD_joinLocals (ha : SlotsPaired as) (hb : SlotsPaired bs) :
    ((joinLocals as bs).getD · .unusable)
      = mend fun i => mergeLocal (as.getD i .unusable) (bs.getD i .unusable) := by
  have hmerge := getD_mergeLocals as bs
  have hlone : dropLoneValues (mergeLocals as bs) = mergeLocals as bs := by
    refine dropLoneValues_eq_self fun i hw => ?_
    rw [hmerge] at hw
    obtain ⟨hwa, hwb⟩ := isWide_of_mergeLocal hw
    rw [hmerge, isPad_mergeLocal, ha.isPad_getD_succ, hb.isPad_getD_succ, hwa, hwb]
    rfl
  funext i
  rw [joinLocals, dropBrokenPairs, hlone]
  cases i with
  | zero =>
    have hfirst : ((mergeLocals as bs).getD 0 .unusable).isPad = false := by
      rw [hmerge, isPad_mergeLocal, ha.isPad_getD_zero, Bool.false_and]
    rw [mend, ← hmerge]
    cases hm : mergeLocals as bs with
    | nil => rfl
    | cons v vs =>
      rw [hm, List.getD_cons_zero] at hfirst
      simp [dropLonePads, hfirst]
  | succ i =>
    rw [getD_dropLonePads_succ]
    simp only [hmerge]

/-- Locals are told apart by how many they are and by what can be read from them. -/
theorem eq_of_getD {vs ws : List Value} (hlen : vs.length = ws.length)
    (h : (vs.getD · .unusable) = (ws.getD · .unusable)) : vs = ws := by
  refine List.ext_getElem hlen fun i hv hw => ?_
  have hi : vs.getD i .unusable = ws.getD i .unusable := congrFun h i
  rwa [List.getD_eq_getElem _ _ hv, List.getD_eq_getElem _ _ hw] at hi

theorem length_dropLoneValues (vs : List Value) : (dropLoneValues vs).length = vs.length := by
  fun_induction dropLoneValues vs with
  | case1 | case2 => rfl
  | case3 v w vs ih => rw [List.length_cons, List.length_cons, ih]

theorem length_joinLocals (as bs : List Value) :
    (joinLocals as bs).length = max as.length bs.length := by
  rw [joinLocals, dropBrokenPairs, length_dropLonePads, length_dropLoneValues, length_mergeLocals]

theorem slotsPaired_joinLocals (as bs : List Value) : SlotsPaired (joinLocals as bs) :=
  slotsPaired_dropBrokenPairs _

theorem made_getD {vs : List Value} (h : ∀ v ∈ vs, v.Made) (i : Nat) :
    (vs.getD i .unusable).Made := by
  rw [List.getD]
  cases hv : vs[i]? with
  | none => exact Value.made_unusable
  | some v => exact h v (List.mem_of_getElem? hv)

theorem joinLocals_self (ha : SlotsPaired as) : joinLocals as as = as := by
  refine eq_of_getD (by rw [length_joinLocals, Nat.max_self]) ?_
  rw [getD_joinLocals ha ha]
  simp only [mergeLocal_self]
  exact ha.mend_eq

theorem joinLocals_comm (ha : SlotsPaired as) (hb : SlotsPaired bs) (hma : ∀ v ∈ as, v.Made)
    (hmb : ∀ v ∈ bs, v.Made) : joinLocals as bs = joinLocals bs as := by
  refine eq_of_getD (by rw [length_joinLocals, length_joinLocals, Nat.max_comm]) ?_
  rw [getD_joinLocals ha hb, getD_joinLocals hb ha]
  simp only [mergeLocal_comm (made_getD hma _) (made_getD hmb _)]

/-- The locals of two merges, one after the other. -/
theorem getD_joinLocals_joinLocals (ha : SlotsPaired as) (hb : SlotsPaired bs)
    (hc : SlotsPaired cs) :
    ((joinLocals (joinLocals as bs) cs).getD · .unusable)
      = mend fun i =>
          mergeLocal (mergeLocal (as.getD i .unusable) (bs.getD i .unusable)) (cs.getD i .unusable) := by
  have hab (i : Nat) := congrFun (getD_joinLocals ha hb) i
  rw [getD_joinLocals (slotsPaired_joinLocals as bs) hc]
  simp only [hab]
  exact mend_mergeLocal _ _

theorem made_joinLocals (hma : ∀ v ∈ as, v.Made) (hmb : ∀ v ∈ bs, v.Made) :
    ∀ v ∈ joinLocals as bs, v.Made := by
  intro v hv
  obtain ⟨i, hi, rfl⟩ := List.mem_iff_getElem.1 hv
  rw [← List.getD_eq_getElem _ .unusable hi]
  rcases getD_dropBrokenPairs (mergeLocals as bs) i with h | h
  · rw [joinLocals, h, getD_mergeLocals]
    exact made_mergeLocal (made_getD hma i) (made_getD hmb i)
  · rw [joinLocals, h]
    exact Value.made_unusable

theorem joinLocals_assoc (ha : SlotsPaired as) (hb : SlotsPaired bs) (hc : SlotsPaired cs)
    (hma : ∀ v ∈ as, v.Made) (hmb : ∀ v ∈ bs, v.Made) (hmc : ∀ v ∈ cs, v.Made) :
    joinLocals (joinLocals as bs) cs = joinLocals as (joinLocals bs cs) := by
  rw [joinLocals_comm ha (slotsPaired_joinLocals bs cs) hma (made_joinLocals hmb hmc)]
  refine eq_of_getD ?_ ?_
  · simp only [length_joinLocals]
    omega
  · rw [getD_joinLocals_joinLocals ha hb hc, getD_joinLocals_joinLocals hb hc ha]
    congr 1
    funext i
    have hai := made_getD hma i
    have hbi := made_getD hmb i
    have hci := made_getD hmc i
    rw [mergeLocal_assoc hai hbi hci, mergeLocal_comm hai (made_mergeLocal hbi hci)]

/-! ## Operands -/

/-- The operands of a merge, if there are as many on either side and their kinds agree. -/
def joinOperands : List Value → List Value → Option (List Value)
  | [], [] => some []
  | a :: as, b :: bs => Option.map₂ List.cons (a.join? b) (joinOperands as bs)
  | _, _ => none

theorem joinOperands_eq_some :
    joinOperands as bs = some cs ↔ as.length = bs.length ∧ mergeOperands as bs = .ok cs := by
  induction as generalizing bs cs with
  | nil =>
    cases bs with
    | nil => simp [joinOperands, mergeOperands]
    | cons b bs => simp [joinOperands]
  | cons a as ih =>
    cases bs with
    | nil => simp [joinOperands]
    | cons b bs =>
      rw [joinOperands, mergeOperands, Option.map₂_eq_some_iff]
      simp only [Option.mem_def, Value.join?_eq_some, ih, List.length_cons, Nat.succ_inj]
      constructor
      · rintro ⟨c, cs, hc, ⟨hlen, hcs⟩, rfl⟩
        rw [hc, hcs]
        exact ⟨hlen, rfl⟩
      · rintro ⟨hlen, h⟩
        cases hc : a.join b with
        | error e => simp [hc] at h
        | ok c =>
          cases hcs : mergeOperands as bs with
          | error e => simp [hc, hcs] at h
          | ok cs =>
            simp only [hc, hcs, Except.ok.injEq] at h
            exact ⟨c, cs, rfl, ⟨hlen, rfl⟩, h⟩

theorem joinOperands_self (as : List Value) : joinOperands as as = some as := by
  induction as with
  | nil => rfl
  | cons a as ih => rw [joinOperands, Value.join?_self, ih, Option.map₂_some_some]

theorem joinOperands_comm (hma : ∀ v ∈ as, v.Made) (hmb : ∀ v ∈ bs, v.Made) :
    joinOperands as bs = joinOperands bs as := by
  induction as generalizing bs with
  | nil => cases bs <;> rfl
  | cons a as ih =>
    cases bs with
    | nil => rfl
    | cons b bs =>
      rw [List.forall_mem_cons] at hma hmb
      rw [joinOperands, joinOperands, Value.join?_comm hma.1 hmb.1, ih hma.2 hmb.2]

theorem joinOperands_assoc (hma : ∀ v ∈ as, v.Made) (hmb : ∀ v ∈ bs, v.Made)
    (hmc : ∀ v ∈ cs, v.Made) :
    (joinOperands as bs).bind (joinOperands · cs) = (joinOperands bs cs).bind (joinOperands as ·) := by
  induction as generalizing bs cs with
  | nil =>
    cases bs with
    | nil => cases cs <;> rfl
    | cons b bs =>
      cases cs with
      | nil => rfl
      | cons c cs =>
        simp only [joinOperands]
        cases b.join? c <;> cases joinOperands bs cs <;> rfl
  | cons a as ih =>
    cases bs with
    | nil => cases cs <;> rfl
    | cons b bs =>
      cases cs with
      | nil =>
        simp only [joinOperands]
        cases a.join? b <;> cases joinOperands as bs <;> rfl
      | cons c cs =>
        rw [List.forall_mem_cons] at hma hmb hmc
        calc (Option.map₂ List.cons (a.join? b) (joinOperands as bs)).bind (joinOperands · (c :: cs))
          _ = Option.map₂ List.cons ((a.join? b).bind (·.join? c))
                ((joinOperands as bs).bind (joinOperands · cs)) := by
            cases a.join? b with
            | none => rfl
            | some x => cases joinOperands as bs <;> simp [joinOperands]
          _ = Option.map₂ List.cons ((b.join? c).bind (a.join? ·))
                ((joinOperands bs cs).bind (joinOperands as ·)) := by
            rw [Value.join?_assoc hma.1 hmb.1 hmc.1, ih hma.2 hmb.2 hmc.2]
          _ = (Option.map₂ List.cons (b.join? c) (joinOperands bs cs)).bind
                (joinOperands (a :: as) ·) := by
            cases b.join? c with
            | none => rfl
            | some x => cases joinOperands bs cs <;> simp [joinOperands]

/-! ## Frames -/

/-- A paired frame with facts that the constructors make. -/
structure Proper (f : Frame) : Prop extends f.Paired where
  made_locals : ∀ v ∈ f.locals, v.Made
  made_stack : ∀ v ∈ f.stack, v.Made

variable {a b c f : Frame}

/-- The merge of two frames, if there is one. -/
def join? (a b : Frame) : Option Frame := (a.merge b).toOption

theorem join?_eq_some : a.join? b = some f ↔ a.merge b = .ok f := by
  unfold join?
  cases a.merge b <;> simp [Except.toOption]

theorem join?_eq (a b : Frame) :
    a.join? b = (joinOperands a.stack.reverse b.stack.reverse).map fun stack =>
      ⟨joinLocals a.locals b.locals, stack.reverse⟩ := by
  ext f
  rw [join?_eq_some, merge_eq_ok, Option.map_eq_some_iff]
  simp only [joinOperands_eq_some, List.length_reverse]
  constructor
  · rintro ⟨hlen, hlocals, hstack⟩
    exact ⟨f.stack.reverse, ⟨hlen, hstack⟩, by rw [List.reverse_reverse, joinLocals, ← hlocals]⟩
  · rintro ⟨stack, ⟨hlen, hstack⟩, rfl⟩
    exact ⟨hlen, rfl, by rw [List.reverse_reverse, hstack]⟩

theorem Proper.merge (ha : a.Proper) (hb : b.Proper) (hm : a.merge b = .ok f) : f.Proper := by
  refine ⟨ha.toPaired.merge hm, ?_, fun u hu => ?_⟩
  · rw [(merge_eq_ok.1 hm).2.1]
    exact made_joinLocals ha.made_locals hb.made_locals
  · obtain ⟨i, hi⟩ := List.getElem?_of_mem hu
    obtain ⟨v, w, hv, hw, hj⟩ := (merge_ok hm).stack i u hi
    exact (ha.made_stack v (List.mem_of_getElem? hv)).join Fact.factClass_made
      (hb.made_stack w (List.mem_of_getElem? hw)) hj

theorem Proper.join?_self (ha : a.Proper) : a.join? a = some a := by
  rw [join?_eq, joinOperands_self, joinLocals_self ha.locals, Option.map_some, List.reverse_reverse]

theorem Proper.made_reverse (ha : a.Proper) : ∀ v ∈ a.stack.reverse, v.Made :=
  fun v hv => ha.made_stack v (List.mem_reverse.1 hv)

theorem Proper.join?_comm (ha : a.Proper) (hb : b.Proper) : a.join? b = b.join? a := by
  rw [join?_eq, join?_eq, joinOperands_comm ha.made_reverse hb.made_reverse,
    joinLocals_comm ha.locals hb.locals ha.made_locals hb.made_locals]

theorem Proper.join?_assoc (ha : a.Proper) (hb : b.Proper) (hc : c.Proper) :
    (a.join? b).bind (·.join? c) = (b.join? c).bind (a.join? ·) := by
  have hstack := joinOperands_assoc ha.made_reverse hb.made_reverse hc.made_reverse
  have hlocals := joinLocals_assoc ha.locals hb.locals hc.locals ha.made_locals hb.made_locals
    hc.made_locals
  calc (a.join? b).bind (·.join? c)
    _ = ((joinOperands a.stack.reverse b.stack.reverse).bind
          (joinOperands · c.stack.reverse)).map fun stack =>
            ⟨joinLocals (joinLocals a.locals b.locals) c.locals, stack.reverse⟩ := by
      rw [join?_eq]
      cases joinOperands a.stack.reverse b.stack.reverse with
      | none => rfl
      | some stack =>
        rw [Option.map_some, Option.bind_some, Option.bind_some, join?_eq, List.reverse_reverse]
    _ = ((joinOperands b.stack.reverse c.stack.reverse).bind
          (joinOperands a.stack.reverse ·)).map fun stack =>
            ⟨joinLocals a.locals (joinLocals b.locals c.locals), stack.reverse⟩ := by
      rw [hstack, hlocals]
    _ = (b.join? c).bind (a.join? ·) := by
      rw [join?_eq b c]
      cases joinOperands b.stack.reverse c.stack.reverse with
      | none => rfl
      | some stack =>
        rw [Option.map_some, Option.bind_some, Option.bind_some, join?_eq, List.reverse_reverse]

end Frame

/-! ## Order and grouping -/

/-- What merging proper frames can give: such a frame, or nothing if their stacks disagree. -/
@[ext] structure Merges where
  frame? : Option Frame
  proper : ∀ f ∈ frame?, f.Proper

namespace Merges

def of (f : Frame) (hf : f.Proper) : Merges := ⟨some f, by rintro _ ⟨⟩; exact hf⟩

/-- Nothing comes of merging nothing. -/
def join (x y : Merges) : Merges where
  frame? := x.frame?.bind fun a => y.frame?.bind fun b => a.join? b
  proper f hf := by
    obtain ⟨a, ha, hf⟩ := Option.bind_eq_some_iff.1 hf
    obtain ⟨b, hb, hf⟩ := Option.bind_eq_some_iff.1 hf
    exact (x.proper a ha).merge (y.proper b hb) (join?_eq_some.1 hf)

theorem join_self (x : Merges) : x.join x = x := by
  obtain ⟨x, hx⟩ := x
  ext1
  cases x with
  | none => rfl
  | some a => exact (hx a rfl).join?_self

theorem join_comm (x y : Merges) : x.join y = y.join x := by
  obtain ⟨x, hx⟩ := x
  obtain ⟨y, hy⟩ := y
  ext1
  cases x with
  | none => cases y <;> rfl
  | some a =>
    cases y with
    | none => rfl
    | some b => exact (hx a rfl).join?_comm (hy b rfl)

theorem join_assoc (x y z : Merges) : (x.join y).join z = x.join (y.join z) := by
  obtain ⟨x, hx⟩ := x
  obtain ⟨y, hy⟩ := y
  obtain ⟨z, hz⟩ := z
  ext1
  cases x with
  | none => rfl
  | some a =>
    cases y with
    | none => rfl
    | some b =>
      cases z with
      | none => simp [join]
      | some c => exact (hx a rfl).join?_assoc (hy b rfl) (hz c rfl)

instance : Max Merges := ⟨join⟩

instance : SemilatticeSup Merges := SemilatticeSup.mk' join_comm join_assoc join_self

end Merges

/-- A way to merge frames two by two. -/
inductive Grouping where
  | frame (f : Frame)
  | merge (left right : Grouping)

namespace Grouping

/-- The frames to merge, in order. -/
def frames : Grouping → List Frame
  | .frame f => [f]
  | .merge left right => left.frames ++ right.frames

/-- The merge of all frames; a mismatch anywhere is a mismatch of the whole. -/
def merged : Grouping → Except Mismatch Frame
  | .frame f => .ok f
  | .merge left right => do
    let a ← left.merged
    let b ← right.merged
    a.merge b

theorem toOption_merged_merge (left right : Grouping) :
    (Grouping.merge left right).merged.toOption
      = left.merged.toOption.bind fun a => right.merged.toOption.bind fun b => a.join? b := by
  rw [merged]
  cases left.merged with
  | error e => rfl
  | ok a => cases right.merged <;> rfl

/-- Whatever the grouping, the merge is the least upper bound of the frames. -/
theorem exists_merges (g : Grouping) (h : ∀ f ∈ g.frames, f.Proper) :
    ∃ x : Merges, x.frame? = g.merged.toOption
      ∧ ∀ y, x ≤ y ↔ ∀ f (hf : f ∈ g.frames), Merges.of f (h f hf) ≤ y := by
  induction g with
  | frame f =>
    refine ⟨.of f (h f List.mem_cons_self), rfl, fun y => ⟨fun hy f' hf' => ?_, fun hy => hy f ?_⟩⟩
    · cases List.mem_singleton.1 hf'
      exact hy
    · exact List.mem_cons_self
  | merge left right ihl ihr =>
    obtain ⟨x, hx, hxle⟩ := ihl fun f hf => h f (List.mem_append_left _ hf)
    obtain ⟨y, hy, hyle⟩ := ihr fun f hf => h f (List.mem_append_right _ hf)
    refine ⟨x ⊔ y, ?_, fun z => ?_⟩
    · rw [toOption_merged_merge, ← hx, ← hy]
      rfl
    · rw [sup_le_iff, hxle, hyle]
      refine ⟨fun hz f hf => ?_, fun hz => ⟨fun f hf => ?_, fun f hf => ?_⟩⟩
      · exact (List.mem_append.1 hf).elim (hz.1 f) (hz.2 f)
      · exact hz f (List.mem_append_left _ hf)
      · exact hz f (List.mem_append_right _ hf)

/-- How often, in which order and how grouped frames are merged does not matter. -/
theorem toOption_merged_congr {g g' : Grouping} (h : ∀ f ∈ g.frames, f.Proper)
    (hframes : ∀ f, f ∈ g.frames ↔ f ∈ g'.frames) :
    g.merged.toOption = g'.merged.toOption := by
  obtain ⟨x, hx, hxle⟩ := g.exists_merges h
  obtain ⟨y, hy, hyle⟩ := g'.exists_merges fun f hf => h f ((hframes f).2 hf)
  have hxy : x = y := eq_of_forall_ge_iff fun z => by
    rw [hxle, hyle]
    exact forall_congr' fun f => ⟨fun hz hf => hz ((hframes f).2 hf), fun hz hf => hz ((hframes f).1 hf)⟩
  rw [← hx, hxy, hy]

/-- Merges further frames one after the other. -/
def chain (g : Grouping) : List Frame → Grouping
  | [] => g
  | f :: fs => chain (.merge g (.frame f)) fs

theorem frames_chain (g : Grouping) (fs : List Frame) : (g.chain fs).frames = g.frames ++ fs := by
  induction fs generalizing g with
  | nil => rw [chain, List.append_nil]
  | cons f fs ih => rw [chain, ih, frames, frames, List.append_assoc, List.singleton_append]

theorem merged_chain (g : Grouping) (fs : List Frame) :
    (g.chain fs).merged = g.merged.bind (mergeAll · fs) := by
  induction fs generalizing g with
  | nil => cases hg : g.merged <;> simp [chain, hg, mergeAll, Except.bind]
  | cons f fs ih =>
    rw [chain, ih, merged]
    cases g.merged with
    | error e => rfl
    | ok a =>
      show (a.merge f).bind (mergeAll · fs) = mergeAll a (f :: fs)
      rw [mergeAll]
      cases a.merge f <;> rfl

end Grouping

/-- The frames of a run are proper if the answers of its visitor are made. -/
theorem proper_machineAt {s : Subject} {g : FlowGraph}
    (hvisitor : ∀ calls site, (s.visitor calls site).Made) {b j : Nat} {m : Machine}
    (hm : s.machineAt g b j = some m) : m.frame.Proper := by
  have htyped := (kept_typed Fact.factClass_made hvisitor).machineAt hm
  exact ⟨(kept_paired s g).machineAt hm, fun v hv => (htyped.locals v hv).within,
    fun v hv => (htyped.stack v hv).within⟩

/-- Merging frames as they occur in runs is a semilattice join. It is idempotent, commutative and
    associative, and merging any number of frames gives the same, failures included, in every order
    and grouping; so the order does not matter in which a run merges the predecessors of a block. -/
theorem merge_semilattice {a b c : Frame} (ha : a.Proper) (hb : b.Proper) (hc : c.Proper) :
    a.merge a = .ok a
      ∧ (a.merge b).toOption = (b.merge a).toOption
      ∧ ((a.merge b).toOption.bind fun x => (x.merge c).toOption)
          = ((b.merge c).toOption.bind fun x => (a.merge x).toOption)
      ∧ (∀ g g' : Grouping, (∀ f ∈ g.frames, f.Proper) → (∀ f, f ∈ g.frames ↔ f ∈ g'.frames) →
          g.merged.toOption = g'.merged.toOption)
      ∧ (∀ (f f' : Frame) (fs fs' : List Frame), (∀ x ∈ f :: fs, x.Proper) →
          (f :: fs).Perm (f' :: fs') → (mergeAll f fs).toOption = (mergeAll f' fs').toOption)
      ∧ ∀ (s : Subject) (g : FlowGraph) (i j : Nat) (m : Machine),
          (∀ calls site, (s.visitor calls site).Made) → s.machineAt g i j = some m →
          m.frame.Proper := by
  refine ⟨join?_eq_some.1 ha.join?_self, ha.join?_comm hb, ha.join?_assoc hb hc,
    fun g g' h hframes => Grouping.toOption_merged_congr h hframes, fun f f' fs fs' h hperm => ?_,
    fun s g i j m hvisitor hm => proper_machineAt hvisitor hm⟩
  have hchain (x : Frame) (xs : List Frame) : ((Grouping.frame x).chain xs).merged = mergeAll x xs :=
    Grouping.merged_chain _ _
  rw [← hchain, ← hchain]
  refine Grouping.toOption_merged_congr ?_ fun x => ?_
  · rwa [Grouping.frames_chain]
  · rw [Grouping.frames_chain, Grouping.frames_chain]
    exact hperm.mem_iff

/-! ## Shifted pairs

Three frames that agree in no slot of their pairs, and in no text of their only operand. -/

def earlyLong : Frame :=
  ⟨[.slot .long (some (.range 1 5)) none, .pad, .slot .int none (some 1)],
    [.slot .ref (some (.string [97])) none]⟩

def earlyDouble : Frame := ⟨[.slot .double none (some 0), .pad], [.slot .ref (some (.string [98])) none]⟩

def lateLong : Frame :=
  ⟨[.slot .int none none, .slot .long none none, .pad],
    [.slot .ref (some (.object stringClass true)) none]⟩

/-- Their merge has no local left, and only the class of the operand. -/
def shifted : Frame :=
  ⟨[.unusable, .unusable, .unusable], [.slot .ref (some (.object stringClass true)) none]⟩

theorem proper_earlyLong : earlyLong.Proper where
  locals := slotsPaired_iff.2 rfl
  stack := slotsPaired_iff.2 rfl
  made_locals := by
    refine List.forall_mem_cons.2 ⟨?_, ?_⟩
    · rintro f ⟨⟩
      exact .long 1 5 (by decide) (by decide)
    · simp [Value.Made, Value.Within, Value.fact]
  made_stack := List.forall_mem_singleton.2 (by rintro f ⟨⟩; exact .string [97])

theorem proper_earlyDouble : earlyDouble.Proper where
  locals := slotsPaired_iff.2 rfl
  stack := slotsPaired_iff.2 rfl
  made_locals := by simp [earlyDouble, Value.Made, Value.Within, Value.fact]
  made_stack := List.forall_mem_singleton.2 (by rintro f ⟨⟩; exact .string [98])

theorem proper_lateLong : lateLong.Proper where
  locals := slotsPaired_iff.2 rfl
  stack := slotsPaired_iff.2 rfl
  made_locals := by simp [lateLong, Value.Made, Value.Within, Value.fact]
  made_stack := List.forall_mem_singleton.2 (by rintro f ⟨⟩; exact .object stringClass true)

theorem merge_semilattice_shifted :
    mergeAll earlyLong [earlyDouble, lateLong] = .ok shifted
      ∧ (mergeAll lateLong [earlyLong, earlyDouble]).toOption = some shifted
      ∧ earlyLong.merge earlyLong = .ok earlyLong := by
  obtain ⟨hself, -, -, -, horder, -⟩ :=
    merge_semilattice proper_earlyLong proper_earlyDouble proper_lateLong
  have hmerge : mergeAll earlyLong [earlyDouble, lateLong] = .ok shifted := by cbv
  refine ⟨hmerge, ?_, hself⟩
  rw [← horder earlyLong lateLong [earlyDouble, lateLong] [earlyLong, earlyDouble] ?_ ?_, hmerge]
  · rfl
  · simp [proper_earlyLong, proper_earlyDouble, proper_lateLong]
  · decide

end InlinePlan
