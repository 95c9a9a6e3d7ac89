import InlinePlan.Proofs.Analysis.Results
import InlinePlan.Proofs.Analysis.Trace
import Mathlib

set_option autoImplicit false

/-! # Pairs of slots

A 64-bit value takes two slots, itself and the padding after it. No operation of the analysis tears
the two apart: entry frames have whole pairs, widening and merging keep them, and so does every
instruction, the ones that shuffle single slots and the ones that store over one half of a pair
included. A load therefore never finds a second word lost. -/

namespace InlinePlan

open InlinePlan.Frame

/-! ## Slots -/

/-- Every 64-bit value is followed by padding, and all padding follows a 64-bit value. -/
structure SlotsPaired (vs : List Value) : Prop where
  second : ∀ (i : Nat) (v : Value), vs[i]? = some v → v.isWide = true → vs[i + 1]? = some .pad
  first : ∀ i : Nat, vs[i]? = some .pad →
    ∃ (j : Nat) (v : Value), i = j + 1 ∧ vs[j]? = some v ∧ v.isWide = true

/-- Whether slots are paired that come after a slot which is the first of two if `afterWide`. -/
def pairedFrom : (afterWide : Bool) → List Value → Bool
  | afterWide, [] => !afterWide
  | afterWide, v :: vs => v.isPad == afterWide && pairedFrom v.isWide vs

@[simp] theorem Value.isPad_pad : Value.pad.isPad = true := rfl

@[simp] theorem Value.isWide_pad : Value.pad.isWide = false := rfl

@[simp] theorem Value.isPad_unusable : Value.unusable.isPad = false := rfl

@[simp] theorem Value.isWide_unusable : Value.unusable.isWide = false := rfl

theorem Value.eq_pad {v : Value} (h : v.isPad = true) : v = .pad := by
  cases v with
  | pad => rfl
  | slot => cases h

/-- A slot is padding just if the slot before is the first of two. -/
theorem pairedFrom_iff {afterWide : Bool} {vs : List Value} :
    pairedFrom afterWide vs = true ↔ (vs.getD 0 .unusable).isPad = afterWide
      ∧ ∀ i, (vs.getD (i + 1) .unusable).isPad = (vs.getD i .unusable).isWide := by
  induction vs generalizing afterWide with
  | nil => cases afterWide <;> simp [pairedFrom]
  | cons v vs ih =>
    simp only [pairedFrom, Bool.and_eq_true, beq_iff_eq, ih, List.getD_cons_zero,
      List.getD_cons_succ]
    refine and_congr_right fun _ => ⟨fun h i => ?_, fun h => ⟨h 0, fun i => h (i + 1)⟩⟩
    cases i with
    | zero => exact h.1
    | succ i => exact h.2 i

theorem getD_eq_pad_iff {vs : List Value} {i : Nat} :
    (vs.getD i .unusable).isPad = true ↔ vs[i]? = some .pad := by
  rw [List.getD]
  cases vs[i]? with
  | none => simp
  | some v => cases v <;> simp [Value.isPad]

theorem getD_isWide_iff {vs : List Value} {i : Nat} :
    (vs.getD i .unusable).isWide = true ↔ ∃ v, vs[i]? = some v ∧ v.isWide = true := by
  rw [List.getD]
  cases vs[i]? <;> simp

theorem slotsPaired_iff {vs : List Value} : SlotsPaired vs ↔ pairedFrom false vs = true := by
  have hnext (i : Nat) : (vs.getD (i + 1) .unusable).isPad = (vs.getD i .unusable).isWide
      ↔ (vs[i + 1]? = some .pad ↔ ∃ v, vs[i]? = some v ∧ v.isWide = true) := by
    rw [Bool.eq_iff_iff, getD_eq_pad_iff, getD_isWide_iff]
  rw [pairedFrom_iff, ← Bool.not_eq_true, getD_eq_pad_iff]
  simp only [hnext]
  constructor
  · intro h
    refine ⟨fun h₀ => ?_, fun i => ⟨fun hi => ?_, fun ⟨v, hv, hw⟩ => h.second i v hv hw⟩⟩
    · obtain ⟨j, v, hj, -⟩ := h.first 0 h₀
      omega
    · obtain ⟨j, v, hj, hv, hw⟩ := h.first (i + 1) hi
      obtain rfl : i = j := by omega
      exact ⟨v, hv, hw⟩
  · rintro ⟨h₀, h⟩
    refine ⟨fun i v hv hw => (h i).2 ⟨v, hv, hw⟩, fun i hi => ?_⟩
    cases i with
    | zero => exact absurd hi h₀
    | succ i =>
      obtain ⟨v, hv, hw⟩ := (h i).1 hi
      exact ⟨i, v, rfl, hv, hw⟩

/-- Slots can be cut in two where no pair is torn. -/
theorem pairedFrom_append {afterWide : Bool} {vs ws : List Value}
    (hws : ws.head?.any Value.isPad = false) :
    pairedFrom afterWide (vs ++ ws) = (pairedFrom afterWide vs && pairedFrom false ws) := by
  induction vs generalizing afterWide with
  | nil =>
    cases ws with
    | nil => simp [pairedFrom]
    | cons w ws =>
      rw [List.head?_cons, Option.any_some] at hws
      cases afterWide <;> simp [pairedFrom, hws]
  | cons v vs ih => simp [pairedFrom, ih, Bool.and_assoc]

/-- Only the places of padding and of 64-bit values matter. -/
theorem pairedFrom_congr {afterWide : Bool} {vs : List Value} (ws : List Value)
    (hpad : vs.map Value.isPad = ws.map Value.isPad)
    (hwide : vs.map Value.isWide = ws.map Value.isWide) :
    pairedFrom afterWide vs = pairedFrom afterWide ws := by
  induction vs generalizing afterWide ws with
  | nil => rw [List.map_eq_nil_iff.1 hpad.symm]
  | cons v vs ih =>
    cases ws with
    | nil => cases hpad
    | cons w ws =>
      simp only [List.map_cons, List.cons.injEq] at hpad hwide
      rw [pairedFrom, pairedFrom, hpad.1, hwide.1, ih ws hpad.2 hwide.2]

theorem pairedFrom_slotsOf {v : Value} (hv : v.isPad = false) :
    pairedFrom false (slotsOf v) = true := by
  unfold slotsOf
  split
  case isTrue hw => simp [pairedFrom, hv, hw]
  case isFalse hw => simp [pairedFrom, hv, hw]

theorem head?_slotsOf {v : Value} (hv : v.isPad = false) (vs : List Value) :
    (slotsOf v ++ vs).head?.any Value.isPad = false := by
  unfold slotsOf
  split <;> simpa using hv

/-- Values that are no padding, each with its own padding, are paired. -/
theorem pairedFrom_flatMap_slotsOf (vs : List Value) (h : ∀ v ∈ vs, v.isPad = false) :
    pairedFrom false (vs.flatMap slotsOf) = true
      ∧ (vs.flatMap slotsOf).head?.any Value.isPad = false := by
  induction vs with
  | nil => exact ⟨rfl, rfl⟩
  | cons v vs ih =>
    have hv := h v List.mem_cons_self
    obtain ⟨hpaired, hhead⟩ := ih fun w hw => h w (List.mem_cons_of_mem _ hw)
    rw [List.flatMap_cons]
    refine ⟨?_, head?_slotsOf hv _⟩
    rw [pairedFrom_append hhead, pairedFrom_slotsOf hv, hpaired]
    rfl

/-! ## Frames -/

/-- The locals and the operands are paired; a pair of operands has its padding on top. -/
structure Frame.Paired (f : Frame) : Prop where
  locals : SlotsPaired f.locals
  stack : SlotsPaired f.stack.reverse

namespace Frame

variable {f f' f₁ o : Frame} {v : Value} {args results : List Value}

theorem reverse_flatMap_cells (vs : List Value) :
    (vs.flatMap cells).reverse = vs.reverse.flatMap slotsOf := by
  simp [List.reverse_flatMap, cells, Function.comp_def]

/-! ### Entry, widening and merging -/

theorem slotsPaired_paramSlots (position : Nat) (ts : List JavaType) :
    pairedFrom false (paramSlots position ts) = true
      ∧ (paramSlots position ts).head?.any Value.isPad = false := by
  induction ts generalizing position with
  | nil => exact ⟨rfl, rfl⟩
  | cons t ts ih =>
    have hv : ((Value.top t.kind).withParam position).isPad = false := rfl
    obtain ⟨hpaired, hhead⟩ := ih (position + 1)
    rw [paramSlots]
    refine ⟨?_, head?_slotsOf hv _⟩
    rw [pairedFrom_append hhead, pairedFrom_slotsOf hv, hpaired]
    rfl

theorem pairedFrom_replicate_unusable (n : Nat) :
    pairedFrom false (List.replicate n .unusable) = true
      ∧ (List.replicate n Value.unusable).head?.any Value.isPad = false := by
  induction n with
  | zero => exact ⟨rfl, rfl⟩
  | succ n ih => exact ⟨by simpa [List.replicate_succ, pairedFrom] using ih.1, rfl⟩

theorem paired_entry (m : Method) : (Frame.entry m).Paired where
  locals := by
    rw [slotsPaired_iff, Frame.entry, pairedFrom_append (pairedFrom_replicate_unusable _).2,
      (pairedFrom_replicate_unusable _).1, Bool.and_true, argSlots]
    split
    · exact (slotsPaired_paramSlots 0 _).1
    · rw [← List.singleton_append, pairedFrom_append (slotsPaired_paramSlots 1 _).2,
        (slotsPaired_paramSlots 1 _).1]
      rfl
  stack := slotsPaired_iff.2 rfl

theorem isPad_forget (keepMark : Bool) (v : Value) : (forget keepMark v).isPad = v.isPad := by
  cases v <;> rfl

theorem isWide_forget (keepMark : Bool) (v : Value) : (forget keepMark v).isWide = v.isWide := by
  cases v <;> rfl

theorem Paired.widen (h : f.Paired) (written : List Bool) : (f.widen written).Paired where
  locals := by
    have hlocals := slotsPaired_iff.1 h.locals
    rw [slotsPaired_iff, pairedFrom_iff]
    simp only [← localAt_natCast, localAt_widen, isPad_forget, isWide_forget]
    simpa only [localAt_natCast] using pairedFrom_iff.1 hlocals
  stack := by
    have hstack := slotsPaired_iff.1 h.stack
    rwa [slotsPaired_iff, pairedFrom_congr f.stack.reverse]
    · simp [stack_widen, isPad_forget, Function.comp_def]
    · simp [stack_widen, isWide_forget, Function.comp_def]

/-- Padding stays just where the slot before calls for it. -/
theorem pairedFrom_keep {afterWide : Bool} {v : Value} {rest : List Value}
    (hv : afterWide = true → v = .pad) (hrest : pairedFrom v.isWide rest = true) :
    pairedFrom afterWide ((if v.isPad && !afterWide then .unusable else v) :: rest) = true := by
  cases afterWide with
  | true =>
    cases hv rfl
    exact hrest
  | false =>
    cases v with
    | pad => exact hrest
    | slot k f p => exact hrest

/-- Dropping broken pairs leaves whole ones only, whatever the slots were. -/
theorem pairedFrom_dropLonePads {afterWide : Bool} {vs : List Value}
    (h : afterWide = true → vs.head? = some .pad) :
    pairedFrom afterWide (dropLonePads afterWide (dropLoneValues vs)) = true := by
  fun_induction dropLoneValues vs generalizing afterWide with
  | case1 =>
    cases afterWide with
    | false => rfl
    | true => cases h rfl
  | case2 v =>
    refine pairedFrom_keep (fun ha => ?_) ?_
    · cases h ha
      rfl
    · cases hw : v.isWide <;> simp [pairedFrom, dropLonePads, hw]
  | case3 v w vs ih =>
    refine pairedFrom_keep (fun ha => ?_) (ih fun hw => ?_)
    · cases h ha
      rfl
    · -- the first of two has only stayed if padding follows
      split at hw
      case isTrue => cases hw
      case isFalse hlone =>
        rw [hw, Bool.true_and, Bool.not_eq_true, Bool.not_eq_false'] at hlone
        rw [List.head?_cons, Value.eq_pad hlone]

theorem slotsPaired_dropBrokenPairs (vs : List Value) : SlotsPaired (dropBrokenPairs vs) :=
  slotsPaired_iff.2 (pairedFrom_dropLonePads nofun)

theorem Paired.merge (h : f.Paired) (hm : f.merge o = .ok f') : f'.Paired where
  locals := by
    rw [(merge_eq_ok.1 hm).2.1]
    exact slotsPaired_dropBrokenPairs _
  stack := by
    have hmerged := merge_ok hm
    have hstack := slotsPaired_iff.1 h.stack
    rwa [slotsPaired_iff, pairedFrom_congr f.stack.reverse]
    · rw [List.map_reverse, List.map_reverse, hmerged.map_stack fun _ _ _ => Value.isPad_join]
    · rw [List.map_reverse, List.map_reverse, hmerged.map_stack fun v w u hj => ?_]
      rw [Value.isWide, Value.isWide, Value.kind_join hj]

/-! ### Operands -/

/-- Above a paired stack, values with their padding are paired, and they can be taken off again. -/
theorem slotsPaired_push_iff {vs stack : List Value} (hvs : ∀ v ∈ vs, v.isPad = false) :
    SlotsPaired (vs.flatMap cells ++ stack).reverse ↔ SlotsPaired stack.reverse := by
  obtain ⟨hpaired, hhead⟩ := pairedFrom_flatMap_slotsOf vs.reverse (by simpa using hvs)
  rw [slotsPaired_iff, slotsPaired_iff, List.reverse_append, reverse_flatMap_cells,
    pairedFrom_append hhead, hpaired, Bool.and_true]

theorem Paired.takes (h : f.Paired) (ht : Takes f args f') : f'.Paired := by
  rw [ht.frame] at h
  exact ⟨h.locals, (slotsPaired_push_iff ht.solid).1 h.stack⟩

theorem Paired.push (h : f.Paired) (hr : ∀ v ∈ results, v.isPad = false) :
    (Frame.mk f.locals (results.flatMap cells ++ f.stack)).Paired :=
  ⟨h.locals, (slotsPaired_push_iff hr).2 h.stack⟩

/-- What a shuffle pushes is paired if what it takes is, since no operand begins with padding. -/
theorem pairedFrom_pattern {p : Shuffle} {taken : List Value} (hlen : taken.length = p.count)
    (hb : ∀ i ∈ p.bottoms, (taken[i]?).any Value.isPad = false)
    (h : pairedFrom false taken.reverse = true) :
    pairedFrom false (p.pattern.filterMap (taken[·]?)) = true
      ∧ (p.pattern.filterMap (taken[·]?)).head?.any Value.isPad = false := by
  cases p with
  | pop2 => exact ⟨rfl, rfl⟩
  | dupX1 | dup2 | swap =>
    obtain ⟨a, b, rfl⟩ := List.length_eq_two.1 hlen
    simp_all [Shuffle.bottoms, Shuffle.pattern, pairedFrom]
  | dupX2 | dup2X1 =>
    obtain ⟨a, b, c, rfl⟩ := List.length_eq_three.1 hlen
    simp_all [Shuffle.bottoms, Shuffle.pattern, pairedFrom]
  | dup2X2 =>
    obtain ⟨a, taken, rfl⟩ := List.exists_cons_of_length_eq_add_one hlen
    obtain ⟨b, c, d, rfl⟩ := List.length_eq_three.1 (Nat.succ.inj hlen)
    simp_all [Shuffle.bottoms, Shuffle.pattern, pairedFrom]

theorem slotsPaired_shuffle {p : Shuffle} {taken rest : List Value} (hlen : taken.length = p.count)
    (hb : ∀ i ∈ p.bottoms, (taken[i]?).any Value.isPad = false)
    (h : SlotsPaired (taken ++ rest).reverse) :
    SlotsPaired ((p.pattern.filterMap (taken[·]?)).reverse ++ rest).reverse := by
  have hdeepest : (taken.reverse).head?.any Value.isPad = false := by
    rw [List.head?_reverse, List.getLast?_eq_getElem?, hlen]
    exact hb _ (by cases p <;> decide)
  rw [slotsPaired_iff, List.reverse_append, pairedFrom_append hdeepest, Bool.and_eq_true] at h
  obtain ⟨hpaired, hhead⟩ := pairedFrom_pattern hlen hb h.2
  rw [slotsPaired_iff, List.reverse_append, List.reverse_reverse, pairedFrom_append hhead, h.1,
    hpaired]
  rfl

/-! ### Stores -/

theorem getD_spoil_eq (p : Value → Bool) (i : Int) (n : Nat) (locals : List Value) :
    (spoil p i locals).getD n .unusable
      = if (n : Int) = i ∧ p (locals.getD n .unusable) then .unusable
        else locals.getD n .unusable := by
  unfold spoil
  split
  case isTrue hi => rw [if_neg (by omega)]
  case isFalse hi =>
    rw [List.getD, List.getD, List.getElem?_modify]
    cases locals[n]? with
    | none => simp
    | some v =>
      by_cases hn : (n : Int) = i
      · have : i.toNat = n := by omega
        by_cases hp : p v <;> simp [hn, this, hp]
      · have : i.toNat ≠ n := by omega
        simp [hn, this]

/-- The locals after a store, one by one. -/
theorem Stores.getD_locals {n : Nat} (h : Stores f n v f') (i : Nat) :
    f'.locals.getD i .unusable
      = if i = n then v
        else if v.isWide ∧ i = n + 1 then .pad
        else if i + 1 = n ∧ (f.locals.getD i .unusable).isWide then .unusable
        else if i = n + (slotsOf v).length ∧ (f.locals.getD i .unusable).isPad then .unusable
        else f.locals.getD i .unusable := by
  split
  case isTrue hi =>
    rw [← localAt_natCast, hi]
    exact h.self
  case isFalse hi =>
    split
    case isTrue hw =>
      rw [← localAt_natCast, hw.2]
      exact h.second hw.1
    case isFalse hw =>
      have hroom : f'.locals.getD i .unusable
          = (makeRoom n (slotsOf v).length f.locals).getD i .unusable := by
        rw [h.locals_eq]
        unfold slotsOf
        split
        case isTrue hv =>
          have hi' : n + 1 ≠ i := fun he => hw ⟨hv, he.symm⟩
          simp only [writeSlots, List.getD, List.getElem?_set_ne hi', List.getElem?_set_ne (Ne.symm hi)]
        case isFalse =>
          simp only [writeSlots, List.getD, List.getElem?_set_ne (Ne.symm hi)]
      rw [hroom, makeRoom, getD_spoil_eq, getD_spoil_eq, getD_grow]
      have hbefore : (i : Int) = n - 1 ↔ i + 1 = n := by omega
      have hafter : (i : Int) = n + (slotsOf v).length ↔ i = n + (slotsOf v).length := by omega
      simp only [hbefore, hafter]
      by_cases hlow : i + 1 = n
      · have hhigh : i ≠ n + (slotsOf v).length := by omega
        simp [hlow, hhigh]
      · simp [hlow]

theorem Paired.stores {n : Nat} (h : f.Paired) (hv : v.isPad = false) (hs : Stores f n v f') :
    f'.Paired where
  locals := by
    obtain ⟨h₀, hnext⟩ := pairedFrom_iff.1 (slotsPaired_iff.1 h.locals)
    have hlen : (slotsOf v).length = if v.isWide then 2 else 1 := by
      unfold slotsOf
      split <;> rfl
    have hlocals := hs.getD_locals
    rw [slotsPaired_iff, pairedFrom_iff]
    -- what matters are the slots before and after, no longer where they come from
    generalize f.locals.getD = before at h₀ hnext hlocals
    generalize f'.locals.getD = after at hlocals ⊢
    have hpad := fun v => Value.eq_pad (v := v)
    refine ⟨?_, fun i => ?_⟩
    · rw [hlocals]
      grind [Value.isPad_unusable]
    · have hi := hnext i
      rw [hlocals, hlocals]
      grind [Value.isPad_unusable, Value.isPad_pad, Value.isWide_unusable, Value.isWide_pad]
  stack := by
    rw [hs.stack]
    exact h.stack

/-! ### Instructions -/

theorem Paired.moves {ins : Instruction} {op : Operation} (h : f.Paired)
    (hm : Moves ins f op f') : f'.Paired := by
  cases hm with
  | load k slot hread hk =>
    have hsolid : (f.localAt ins.slot).isPad = false := by
      simp only [Value.isReadable, Bool.and_eq_true, Bool.not_eq_true'] at hread
      exact hread.1
    have hpush := h.push (List.forall_mem_singleton.2 hsolid)
    simpa using hpush
  | store k slot v n f₁ f' ht hk hn hs =>
    exact (h.takes ht).stores (ht.solid v List.mem_cons_self) hs
  | increment n f' hk hn hs =>
    refine h.stores ?_ hs
    cases (f.localAt ins.index).const? <;> rfl
  | pop v f' hf hv =>
    rw [hf] at h
    refine ⟨h.locals, ?_⟩
    have hstack := slotsPaired_iff.1 h.stack
    rw [List.reverse_cons, pairedFrom_append (by simpa using hv), Bool.and_eq_true] at hstack
    exact slotsPaired_iff.2 hstack.1
  | dup v f' hf hv =>
    rw [hf] at h
    refine ⟨h.locals, ?_⟩
    have hstack := slotsPaired_iff.1 h.stack
    rw [List.reverse_cons, pairedFrom_append (by simpa using hv), Bool.and_eq_true] at hstack
    rw [slotsPaired_iff, List.reverse_cons, List.reverse_cons, pairedFrom_append (by simpa using hv),
      pairedFrom_append (by simpa using hv), hstack.1, hstack.2]
    rfl
  | shuffle p taken rest f' hlen hf hs hb =>
    rw [hf] at h
    refine ⟨h.locals, ?_⟩
    rw [hs]
    exact slotsPaired_shuffle hlen hb h.stack
  | throwObject v f' ht => exact ⟨(h.takes ht).locals, slotsPaired_iff.2 rfl⟩

theorem Paired.step {s : Subject} {b : Nat} {fr : Int} {ins : Instruction} {m m' : Machine}
    {u : Unit} (h : m.frame.Paired) (hs : Step.step s b fr ins m = .ok u m') :
    m'.frame.Paired := by
  obtain ⟨op, hop, ht⟩ := Step.step_ok hs
  cases hplain : op.isPlain with
  | true =>
    have hvisitor (calls : List CallSite) (site : CallSite) :
        (s.visitor calls site).Within fun _ _ => True := fun _ _ => trivial
    obtain ⟨args, results, hp, hresults⟩ := Step.transfer_results .all hvisitor hop hplain ht
    obtain ⟨f₁, htakes, hframe⟩ := hp.frame
    rw [hframe]
    exact (h.takes htakes).push fun v hv => (hresults (fun _ _ _ _ => trivial) v hv).solid
  | false => exact h.moves (Step.transfer_moves hplain ht).1

/-- A 64-bit local of a paired frame has its second word. -/
theorem Paired.load_not_lost (h : f.Paired) {i j : Int} {k : Kind} :
    Frame.load i k f ≠ .error (.lostSecondWord j) f' := by
  intro hload
  unfold Frame.load at hload
  have hget : (get : FrameM Frame) f = .ok f f := rfl
  simp only [bind, EStateM.bind, hget] at hload
  split at hload
  case isTrue => cases hload
  case isFalse hread =>
    split at hload
    case isTrue hlost =>
      simp only [Bool.or_eq_true, Bool.not_eq_true', decide_eq_true_eq, not_or, Bool.not_eq_false,
        ne_eq, Decidable.not_not, Bool.and_eq_true] at hread hlost
      rcases Int.lt_or_le i 0 with hi | hi
      · rw [localAt_of_neg hi] at hread
        cases hread.1
      · obtain ⟨n, rfl⟩ := Int.eq_ofNat_of_zero_le hi
        have hnext := (pairedFrom_iff.1 (slotsPaired_iff.1 h.locals)).2 n
        have hsecond : (f.localAt ((n : Int) + 1)).isPad = (f.localAt n).isWide := by
          rw [localAt_natCast, ← hnext, ← localAt_natCast]
          rfl
        rw [Value.isWide, hread.2, hlost.1, hlost.2] at hsecond
        cases hsecond
    case isFalse => cases hload

end Frame

/-! ## Runs -/

theorem kept_paired (s : Subject) (g : FlowGraph) : s.Kept g Frame.Paired where
  entry := paired_entry s.method
  widen _ h := h.widen g.writtenLocals
  merge _ _ _ h _ hm := h.merge hm
  step _ _ _ _ _ h hs := h.step hs

/-- No operation tears the two slots of a 64-bit value apart: the entry frame is paired, widening,
    merging and every instruction keep frames paired, so the frames at all points of a run are, and
    no load of the run finds a second word lost. -/
theorem frames_paired (s : Subject) (g : FlowGraph) :
    (Frame.entry s.method).Paired
      ∧ (∀ (f : Frame) (written : List Bool), f.Paired → (f.widen written).Paired)
      ∧ (∀ (f f' : Frame) (fs : List Frame), (∀ x ∈ f :: fs, x.Paired) → mergeAll f fs = .ok f' →
          f'.Paired)
      ∧ (∀ b fr ins (m m' : Machine), m.frame.Paired → Step.step s b fr ins m = .ok () m' →
          m'.frame.Paired)
      ∧ (∀ b j m, s.machineAt g b j = some m → m.frame.Paired)
      ∧ ∀ cancelled id ins i,
          (s.run g cancelled).outcome ≠ .error (.instruction id ins (.lostSecondWord i)) := by
  have hkept := kept_paired s g
  refine ⟨hkept.entry, fun f written h => h.widen written, fun f f' fs h hm => hkept.mergeAll h hm,
    fun b fr ins m m' h hs => h.step hs, fun b j m hm => hkept.machineAt hm, ?_⟩
  intro cancelled id ins i hfail
  obtain ⟨b, j, m, m', -, hm, hstep⟩ := Subject.run_error hfail
  obtain ⟨k, f, hload⟩ := Step.load_of_loss rfl hstep
  exact (hkept.machineAt hm).load_not_lost hload

/-! ## A store over one half

One of two ways stores an int over the second slot of a long; the other leaves the long alone. -/

def halver : Subject :=
  { options := {}
    oracle := none
    visitor := Visitor.anyResult
    method := { id := "C.m(JI)V", cls := "C", name := "m", descriptor := "(JI)V", isStatic := true,
                maxLocals := 3, signature := ⟨[⟨.long, ""⟩, ⟨.int, ""⟩], ⟨.void, ""⟩⟩ } }

def halverGraph : FlowGraph :=
  { blocks :=
      [⟨1, [1, 2], [{ bci := 0, op := ⟨28⟩ }, { bci := 1, op := ⟨153⟩, target := 6 }]⟩,
        ⟨1, [3], [{ bci := 4, op := ⟨3⟩ }, { bci := 5, op := ⟨60⟩ }]⟩,
        ⟨1, [3], [{ bci := 6, op := ⟨0⟩ }]⟩,
        ⟨1, [], [{ bci := 7, op := ⟨177⟩ }]⟩]
    entry := 0
    entry_lt := by decide
    succs_lt := by decide }

/-- Where the ways meet, neither half of the long can be read. -/
def halverMeeting : Machine :=
  { frame := ⟨[.unusable, .unusable, .slot .int none (some 1)], []⟩
    predicates := Predicate.branch 1 .eq }

theorem halver_meeting : halver.machineAt halverGraph 3 0 = some halverMeeting := by
  cbv

theorem frames_paired_halver :
    halver.machineAt halverGraph 3 0 = some halverMeeting ∧ halverMeeting.frame.Paired
      ∧ ∀ id ins i, (halver.run halverGraph false).outcome
          ≠ .error (.instruction id ins (.lostSecondWord i)) := by
  obtain ⟨-, -, -, -, hpoints, hloss⟩ := frames_paired halver halverGraph
  exact ⟨halver_meeting, hpoints 3 0 halverMeeting halver_meeting, hloss false⟩

end InlinePlan
