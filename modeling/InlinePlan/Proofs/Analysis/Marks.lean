import InlinePlan.Proofs.Analysis.Merge
import InlinePlan.Proofs.Analysis.Moves

set_option autoImplicit false

/-! # Marks

A mark says that a slot still holds an argument of the method. Results are never marked, merging
only loses marks, and a local that no instruction writes keeps the argument it had at the entry.
Two runs of the same instruction treat the marks of their frames alike. -/

namespace InlinePlan

open InlinePlan.Frame

/-! ## Results -/

@[simp] theorem Value.param_top (k : Kind) : (Value.top k).param = none := rfl

@[simp] theorem Value.kind_top (k : Kind) : (Value.top k).kind = k := rfl

@[simp] theorem Value.param_known (k : Kind) (f : Fact) : (Value.known k f).param = none := rfl

@[simp] theorem Value.kind_known (k : Kind) (f : Fact) : (Value.known k f).kind = k := rfl

theorem Value.param_unmarked (v : Value) : v.unmarked.param = none := by
  cases v <;> rfl

theorem Value.kind_unmarked (v : Value) : v.unmarked.kind = v.kind := by
  cases v <;> rfl

theorem param_constOrTop (k : Kind) (c : Option Int) : (constOrTop k c).param = none := by
  cases c <;> rfl

theorem kind_constOrTop (k : Kind) (c : Option Int) : (constOrTop k c).kind = k := by
  cases c <;> rfl

theorem param_castResult (oracle : Option SubtypeOracle) (r : SymbolRef) (v : Value) :
    (Step.castResult oracle r v).param = none := by
  unfold Step.castResult
  split
  · exact v.param_unmarked
  · split
    · exact v.param_unmarked
    · split <;> rfl

theorem kind_castResult (oracle : Option SubtypeOracle) (r : SymbolRef) {v : Value}
    (hv : v.kind = .ref) : (Step.castResult oracle r v).kind = .ref := by
  unfold Step.castResult
  split
  · exact v.kind_unmarked.trans hv
  · split
    · exact v.kind_unmarked.trans hv
    · split <;> rfl

theorem testResult_eq (oracle : Option SubtypeOracle) (cls : String) (f : Option Fact) :
    ∃ g, Step.testResult oracle cls f = .known .int g := by
  unfold Step.testResult
  split
  · exact ⟨_, rfl⟩
  · split <;> exact ⟨_, rfl⟩

theorem compareResult_eq (a b : Value) : ∃ g, compareResult a b = .known .int g := by
  unfold compareResult
  cases a.const? with
  | none => exact ⟨_, rfl⟩
  | some x => cases b.const? <;> exact ⟨_, rfl⟩

theorem constantValue?_param {ins : Instruction} {r : SymbolRef} {v : Value}
    (h : Step.constantValue? ins r = some v) : v.param = none := by
  unfold Step.constantValue? at h
  cases hk : r.kind with
  | cls =>
    simp only [hk, Option.some.injEq] at h
    subst h
    split <;> rfl
  | _ =>
    simp only [hk] at h
    cases h
    try rfl

theorem param_callOutput {t : JavaType} {answer v : Value}
    (h : v ∈ Operation.callOutput t answer) : v.param = none := by
  unfold Operation.callOutput at h
  split at h
  · cases h
  · obtain rfl := List.mem_singleton.1 h
    split
    · exact answer.param_unmarked
    · rfl

theorem kind_callOutput (t : JavaType) (answer : Value) :
    (Operation.callOutput t answer).map Value.kind
      = if t.category = .void then [] else [t.kind] := by
  unfold Operation.callOutput
  split
  · rfl
  · split
    case isTrue hfit =>
      simp only [Step.fitsResult, Bool.and_eq_true, decide_eq_true_eq] at hfit
      simp [Value.kind_unmarked, hfit.1]
    case isFalse => rfl

theorem args_one {args : List Value} {k : Kind} (h : args.map Value.kind = [k]) :
    ∃ v, args = [v] ∧ v.kind = k := by
  obtain ⟨v, rest, rfl, hv, hrest⟩ := List.map_eq_cons_iff.1 h
  obtain rfl := List.map_eq_nil_iff.1 hrest
  exact ⟨v, rfl, hv⟩

theorem args_two {args : List Value} {k k' : Kind} (h : args.map Value.kind = [k, k']) :
    ∃ v w, args = [v, w] ∧ v.kind = k ∧ w.kind = k' := by
  obtain ⟨v, rest, rfl, hv, hrest⟩ := List.map_eq_cons_iff.1 h
  obtain ⟨w, rfl, hw⟩ := args_one hrest
  exact ⟨v, w, rfl, hv, hw⟩

/-- What can be said about results without their facts: they are not marked, and their kinds depend
    on the instruction only. -/
def Operation.Fresh (s : Subject) (ins : Instruction) (o : Operation) (kinds : List Kind) : Prop :=
  ∀ args : List Value, args.map Value.kind = o.inputs ins →
    (∀ v ∈ o.outputs s ins args, v.param = none) ∧ (o.outputs s ins args).map Value.kind = kinds

theorem fresh_outputs (s : Subject) (ins : Instruction) (o : Operation) :
    ∃ kinds, o.Fresh s ins kinds := by
  cases o with
  | arith w f =>
    refine ⟨[w.kind], fun args hk => ?_⟩
    obtain ⟨b, a, rfl, -, -⟩ := args_two hk
    simp [Operation.outputs, arithResult, param_constOrTop, kind_constOrTop]
  | shift w f =>
    refine ⟨[w.kind], fun args hk => ?_⟩
    obtain ⟨n, a, rfl, -, -⟩ := args_two hk
    simp [Operation.outputs, shiftResult, param_constOrTop, kind_constOrTop]
  | negate w =>
    refine ⟨[w.kind], fun args hk => ?_⟩
    obtain ⟨a, rfl, -⟩ := args_one hk
    simp [Operation.outputs, negateResult, param_constOrTop, kind_constOrTop]
  | convert c =>
    refine ⟨[c.target], fun args hk => ?_⟩
    obtain ⟨a, rfl, -⟩ := args_one hk
    simp [Operation.outputs, convertResult, param_constOrTop, kind_constOrTop]
  | compareLong =>
    refine ⟨[.int], fun args hk => ?_⟩
    obtain ⟨b, a, rfl, -, -⟩ := args_two hk
    obtain ⟨g, hg⟩ := compareResult_eq a b
    simp [Operation.outputs, hg]
  | loadConstant =>
    refine ⟨(ins.ref.bind (Step.constantValue? ins)).toList.map Value.kind, fun args _ => ⟨?_, rfl⟩⟩
    intro v hv
    obtain ⟨r, hr, hv⟩ := Option.bind_eq_some_iff.1 (Option.mem_toList.1 hv)
    exact constantValue?_param hv
  | arrayLoad e =>
    refine ⟨[e.value.kind], fun args _ => ⟨?_, rfl⟩⟩
    intro v hv
    obtain rfl := List.mem_singleton.1 hv
    cases e <;> rfl
  | readField ofObject =>
    refine ⟨ins.fieldType?.toList.map JavaType.kind, fun args _ => ?_⟩
    simp [Operation.outputs, Function.comp_def]
  | invoke kind =>
    cases hr : ins.ref with
    | none => exact ⟨[], fun args _ => by simp [Operation.outputs, hr]⟩
    | some r =>
      cases hsig : ins.signature? with
      | none => exact ⟨[], fun args _ => by simp [Operation.outputs, hr, hsig]⟩
      | some sig =>
        refine ⟨if sig.result.category = .void then [] else [sig.result.kind], fun args _ => ?_⟩
        simp only [Operation.outputs, hr, hsig, Option.elim_some]
        exact ⟨fun v => param_callOutput, kind_callOutput _ _⟩
  | newObject =>
    refine ⟨ins.ref.toList.map fun _ => .ref, fun args _ => ?_⟩
    have hnew (r : SymbolRef) : (Step.newValue r).param = none ∧ (Step.newValue r).kind = .ref := by
      unfold Step.newValue
      split <;> exact ⟨rfl, rfl⟩
    simp [Operation.outputs, hnew, Function.comp_def]
  | newPrimitiveArray =>
    refine ⟨(primitiveArrayDescriptor? ins.imm).toList.map fun _ => .ref, fun args hk => ?_⟩
    obtain ⟨n, rfl, -⟩ := args_one hk
    simp [Operation.outputs, arrayOf, Function.comp_def]
  | newObjectArray =>
    refine ⟨ins.ref.toList.map fun _ => .ref, fun args hk => ?_⟩
    obtain ⟨n, rfl, -⟩ := args_one hk
    simp [Operation.outputs, arrayOf, Function.comp_def]
  | newMultiArray =>
    refine ⟨ins.ref.toList.map fun _ => .ref, fun args _ => ?_⟩
    simp [Operation.outputs, arrayOf, Function.comp_def]
  | arrayLength =>
    refine ⟨[.int], fun args hk => ?_⟩
    obtain ⟨v, rfl, -⟩ := args_one hk
    simp [Operation.outputs, Step.lengthValue]
  | checkCast =>
    refine ⟨ins.ref.toList.map fun _ => .ref, fun args hk => ?_⟩
    obtain ⟨v, rfl, hv⟩ := args_one hk
    simp [Operation.outputs, param_castResult, kind_castResult _ _ hv, Function.comp_def]
  | instanceOf =>
    refine ⟨ins.ref.toList.map fun _ => .int, fun args hk => ?_⟩
    obtain ⟨v, rfl, -⟩ := args_one hk
    have htest (r : SymbolRef) : (Step.testResult s.oracle r.cls v.fact).param = none
        ∧ (Step.testResult s.oracle r.cls v.fact).kind = .int := by
      obtain ⟨g, hg⟩ := testResult_eq s.oracle r.cls v.fact
      rw [hg]
      exact ⟨rfl, rfl⟩
    simp [Operation.outputs, htest, Function.comp_def]
  | constNull => exact ⟨[.ref], fun args _ => by simp [Operation.outputs, Value.nullRef]⟩
  | constInt v => exact ⟨[.int], fun args _ => by simp [Operation.outputs, Value.intConst]⟩
  | constLong v => exact ⟨[.long], fun args _ => by simp [Operation.outputs, Value.longConst]⟩
  | pushImmediate => exact ⟨[.int], fun args _ => by simp [Operation.outputs, Value.intConst]⟩
  | constFloating k | floatArith k => exact ⟨[k], fun args _ => by simp [Operation.outputs]⟩
  | compareFloating k => exact ⟨[.int], fun args _ => by simp [Operation.outputs, anyOrder]⟩
  | _ => exact ⟨[], fun args _ => by simp [Operation.outputs]⟩

/-! ## Marks of two stacks -/

/-- Where both stacks have a slot, counted from the top, the marks of the first are those of the
    second. -/
def MarksAgree (as bs : List Value) : Prop :=
  ∀ (i : Nat) (v w : Value) (k : Nat), as[i]? = some v → bs[i]? = some w → v.param = some k →
    w.param = some k

namespace MarksAgree

variable {as bs as' bs' : List Value}

theorem left (h : MarksAgree (as ++ as') (bs ++ bs')) (hlen : as.length = bs.length) :
    MarksAgree as bs := by
  intro i v w k hv hw
  have hi := (List.getElem?_eq_some_iff.1 hv).1
  refine h i v w k ?_ ?_
  · rw [List.getElem?_append_left hi, hv]
  · rw [List.getElem?_append_left (hlen ▸ hi), hw]

theorem right (h : MarksAgree (as ++ as') (bs ++ bs')) (hlen : as.length = bs.length) :
    MarksAgree as' bs' := by
  intro i v w k hv hw
  refine h (as.length + i) v w k ?_ ?_
  · rw [List.getElem?_append_right (Nat.le_add_right _ _), Nat.add_sub_cancel_left, hv]
  · rw [hlen, List.getElem?_append_right (Nat.le_add_right _ _), Nat.add_sub_cancel_left, hw]

theorem append (h : MarksAgree as bs) (h' : MarksAgree as' bs') (hlen : as.length = bs.length) :
    MarksAgree (as ++ as') (bs ++ bs') := by
  intro i v w k hv hw
  rw [List.getElem?_append] at hv hw
  by_cases hi : i < as.length
  · rw [if_pos hi] at hv
    rw [if_pos (hlen ▸ hi)] at hw
    exact h i v w k hv hw
  · rw [if_neg hi] at hv
    rw [if_neg (hlen ▸ hi), ← hlen] at hw
    exact h' _ v w k hv hw

theorem of_unmarked (h : ∀ v ∈ as, v.param = none) : MarksAgree as bs := by
  intro i v w k hv _ hk
  rw [h v (List.mem_of_getElem? hv)] at hk
  cases hk

theorem singleton {v w : Value} (h : ∀ k, v.param = some k → w.param = some k) :
    MarksAgree [v] [w] := by
  intro i a b k ha hb hk
  cases i with
  | zero =>
    cases ha
    cases hb
    exact h k hk
  | succ i => cases ha

/-- Picking slots by position keeps the marks. -/
theorem pick (h : MarksAgree as bs) (hlen : as.length = bs.length) (positions : List Nat) :
    (positions.filterMap (as[·]?)).length = (positions.filterMap (bs[·]?)).length
      ∧ MarksAgree (positions.filterMap (as[·]?)).reverse (positions.filterMap (bs[·]?)).reverse := by
  induction positions with
  | nil => exact ⟨rfl, of_unmarked (by simp)⟩
  | cons i positions ih =>
    simp only [List.filterMap_cons]
    by_cases hi : i < as.length
    · have hi' : i < bs.length := hlen ▸ hi
      rw [List.getElem?_eq_getElem hi, List.getElem?_eq_getElem hi']
      refine ⟨by simp [ih.1], ?_⟩
      rw [List.reverse_cons, List.reverse_cons]
      refine ih.2.append (singleton fun k => ?_) (by simp [ih.1])
      exact h i _ _ k (List.getElem?_eq_getElem hi) (List.getElem?_eq_getElem hi')
    · rw [List.getElem?_eq_none (by omega), List.getElem?_eq_none (by omega)]
      exact ih

end MarksAgree

/-- The number of slots that values of some kinds take. -/
def slotCount (ks : List Kind) : Nat := ks.length + ks.countP Kind.wide

theorem length_cells (v : Value) : (cells v).length = slotCount [v.kind] := by
  cases hw : v.isWide with
  | true => simp [cells_wide hw, slotCount, show v.kind.wide = true from hw]
  | false => simp [cells_narrow hw, slotCount, show v.kind.wide = false from hw]

theorem length_flatMap_cells (vs : List Value) :
    (vs.flatMap cells).length = slotCount (vs.map Value.kind) := by
  induction vs with
  | nil => rfl
  | cons v vs ih =>
    simp only [List.flatMap_cons, List.length_append, ih, length_cells, slotCount, List.map_cons,
      List.length_cons, List.countP_cons, List.length_nil, List.countP_nil]
    omega

theorem unmarked_cells {v : Value} (h : v.param = none) : ∀ w ∈ cells v, w.param = none := by
  intro w hw
  cases hv : v.isWide with
  | true =>
    rw [cells_wide hv] at hw
    rcases List.mem_cons.1 hw with rfl | hw
    · rfl
    · rw [List.mem_singleton.1 hw, h]
  | false =>
    rw [cells_narrow hv] at hw
    rw [List.mem_singleton.1 hw, h]

theorem marksAgree_cells {v w : Value} (hk : v.kind = w.kind) :
    MarksAgree (cells v) (cells w) ↔ ∀ k, v.param = some k → w.param = some k := by
  cases hv : v.isWide with
  | true =>
    have hw : w.isWide = true := by rwa [Value.isWide, ← hk]
    rw [cells_wide hv, cells_wide hw]
    constructor
    · intro h k
      exact h 1 v w k rfl rfl
    · intro h
      have hpad : MarksAgree [.pad] [.pad] := MarksAgree.of_unmarked (by simp [Value.param])
      exact hpad.append (MarksAgree.singleton h) rfl
  | false =>
    have hw : w.isWide = false := by rwa [Value.isWide, ← hk]
    rw [cells_narrow hv, cells_narrow hw]
    constructor
    · intro h k
      exact h 0 v w k rfl rfl
    · exact MarksAgree.singleton

/-! ## Merging -/

theorem Value.param_join {v w u : Value} {k : Nat} (h : v.join w = .ok u)
    (hk : u.param = some k) : v.param = some k ∧ w.param = some k := by
  obtain ⟨-, -, rfl⟩ | ⟨_, f, p, f', p', rfl, rfl, rfl⟩ := join_eq_ok.1 h
  · cases hk
  · simp only [Value.param] at hk ⊢
    split at hk
    case isTrue hp => exact ⟨hk, hp ▸ hk⟩
    case isFalse => cases hk

/-- A local of a merged frame has a mark only if both frames have it. -/
theorem Frame.param_merged {f o f' : Frame} {i : Int} {k : Nat} (h : Merged f o f')
    (hk : (f'.localAt i).param = some k) :
    (f.localAt i).param = some k ∧ (o.localAt i).param = some k := by
  rcases Int.lt_or_le i 0 with hi | hi
  · rw [localAt_of_neg hi] at hk
    cases hk
  · obtain ⟨n, rfl⟩ := Int.eq_ofNat_of_zero_le hi
    rcases h.locals n with hn | hn
    · rw [hn] at hk
      unfold mergeLocal at hk
      split at hk
      case h_1 u hj => exact Value.param_join hj hk
      case h_2 => cases hk
    · rw [hn] at hk
      cases hk

/-! ## Marks of two frames -/

/-- The marks of `f` are true of `q`: what is marked in `f` has the same mark in `q`. A local may also
    be unreadable in `q`. -/
structure Frame.Truthful (f q : Frame) : Prop where
  stack : MarksAgree f.stack q.stack
  locals : ∀ (i : Int) (k : Nat), (f.localAt i).param = some k →
    (q.localAt i).param = some k ∨ (q.localAt i).isReadable = false

namespace Frame.Truthful

variable {f q f' q' : Frame}

theorem refl (f : Frame) : Truthful f f where
  stack := by
    intro i v w k hv hw hk
    obtain rfl : v = w := Option.some.inj (hv.symm.trans hw)
    exact hk
  locals := fun _ _ hk => .inl hk

/-- Popping values of the same kinds keeps the marks, and those of the values agree. -/
theorem takes {args args' : List Value} (h : Truthful f q) (hf : Takes f args f')
    (hq : Takes q args' q') (hk : args.map Value.kind = args'.map Value.kind) :
    Truthful f' q' ∧ MarksAgree (args.flatMap cells) (args'.flatMap cells) := by
  have hlen : (args.flatMap cells).length = (args'.flatMap cells).length := by
    rw [length_flatMap_cells, length_flatMap_cells, hk]
  rw [hf.frame, hq.frame] at h
  exact ⟨⟨h.stack.right hlen, h.locals⟩, h.stack.left hlen⟩

theorem takes_one {v w : Value} (h : Truthful f q) (hf : Takes f [v] f') (hq : Takes q [w] q')
    (hk : v.kind = w.kind) : Truthful f' q' ∧ ∀ k, v.param = some k → w.param = some k := by
  obtain ⟨hrest, hmarks⟩ := h.takes hf hq (by simp [hk])
  rw [List.flatMap_singleton, List.flatMap_singleton] at hmarks
  exact ⟨hrest, (marksAgree_cells hk).1 hmarks⟩

theorem exchanges {args args' results results' : List Value} (h : Truthful f q)
    (hf : Exchanges f args results f') (hq : Exchanges q args' results' q')
    (hk : args.map Value.kind = args'.map Value.kind)
    (hr : results.map Value.kind = results'.map Value.kind)
    (hfresh : ∀ v ∈ results, v.param = none) : Truthful f' q' := by
  obtain ⟨f₁, htf, rfl⟩ := hf
  obtain ⟨q₁, htq, rfl⟩ := hq
  obtain ⟨h₁, -⟩ := h.takes htf htq hk
  refine ⟨MarksAgree.append (MarksAgree.of_unmarked ?_) h₁.stack ?_, h₁.locals⟩
  · intro v hv
    obtain ⟨r, hr, hv⟩ := List.mem_flatMap.1 hv
    exact unmarked_cells (hfresh r hr) v hv
  · rw [length_flatMap_cells, length_flatMap_cells, hr]

/-- Storing values whose marks agree keeps the marks; what a store spoils is unmarked. -/
theorem stores {n : Nat} {v w : Value} (h : Truthful f q) (hf : Stores f n v f')
    (hq : Stores q n w q') (hk : v.kind = w.kind)
    (hmarks : ∀ k, v.param = some k → w.param = some k) : Truthful f' q' where
  stack := by
    rw [hf.stack, hq.stack]
    exact h.stack
  locals := by
    intro i k hi
    have hwide : v.isWide = w.isWide := by rw [Value.isWide, Value.isWide, hk]
    by_cases hn : i = n
    · subst hn
      rw [hf.self] at hi
      rw [hq.self]
      exact .inl (hmarks k hi)
    · by_cases hsecond : v.isWide = true ∧ i = n + 1
      · rw [hsecond.2, hf.second hsecond.1] at hi
        cases hi
      · have hother (hw : v.isWide = true) : i ≠ n + 1 := fun he => hsecond ⟨hw, he⟩
        rcases hf.other i hn hother with hfi | hfi
        · rw [hfi] at hi
          rcases hq.other i hn (hwide ▸ hother) with hqi | hqi
          · rw [hqi]
            exact h.locals i k hi
          · rw [hqi]
            exact .inr rfl
        · rw [hfi] at hi
          cases hi

/-- The same move in two frames keeps the marks. -/
theorem moves {ins : Instruction} {o : Operation} (h : Truthful f q) (hf : Moves ins f o f')
    (hq : Moves ins q o q') : Truthful f' q' := by
  cases hf with
  | load k slot hread hk =>
    cases hq with
    | load _ _ hread' hk' =>
      have hkinds := hk.trans hk'.symm
      refine ⟨MarksAgree.append ((marksAgree_cells hkinds).2 fun p hp => ?_) h.stack ?_, h.locals⟩
      · exact (h.locals _ p hp).resolve_right (by simp [hread'])
      · rw [length_cells, length_cells, hkinds]
  | store k slot v n f₁ f' ht hk hn hs =>
    cases hq with
    | store _ _ w n' q₁ q' ht' hk' hn' hs' =>
      obtain rfl : n = n' := by omega
      obtain ⟨hrest, hmarks⟩ := h.takes_one ht ht' (hk.trans hk'.symm)
      exact hrest.stores hs hs' (hk.trans hk'.symm) hmarks
  | increment n f' hk hn hs =>
    cases hq with
    | increment n' q' hk' hn' hs' =>
      obtain rfl : n = n' := by omega
      refine h.stores hs hs' ?_ fun k hmark => ?_
      · rw [kind_constOrTop, kind_constOrTop]
      · rw [param_constOrTop] at hmark
        cases hmark
  | pop v f' hf =>
    cases hq with
    | pop w q' hq =>
      rw [hf, hq] at h
      have hstack : MarksAgree ([v] ++ f'.stack) ([w] ++ q'.stack) := h.stack
      exact ⟨hstack.right rfl, h.locals⟩
  | dup v f' hf =>
    cases hq with
    | dup w q' hq =>
      rw [hf, hq] at h
      have hstack : MarksAgree ([v] ++ f'.stack) ([w] ++ q'.stack) := h.stack
      exact ⟨(hstack.left rfl).append h.stack rfl, h.locals⟩
  | shuffle p taken rest f' hlen hf hs =>
    cases hq with
    | shuffle _ taken' rest' q' hlen' hq hs' =>
      rw [hf, hq] at h
      have hlength := hlen.trans hlen'.symm
      obtain ⟨hcount, hpick⟩ := (h.stack.left hlength).pick hlength p.pattern
      refine ⟨?_, h.locals⟩
      rw [hs, hs']
      exact hpick.append (h.stack.right hlength) (by simpa using hcount)
  | throwObject v f' ht =>
    cases hq with
    | throwObject w q' ht' =>
      refine ⟨MarksAgree.of_unmarked (by simp), ?_⟩
      rw [ht.frame, ht'.frame] at h
      exact h.locals

/-- A merge has no mark that one of the two frames lacks. -/
theorem merge {o : Frame} (h : Truthful f q ∨ Truthful o q) (hm : f.merge o = .ok f') :
    Truthful f' q := by
  have hmerged := merge_ok hm
  refine ⟨fun i u w k hu hw hk => ?_, fun i k hk => ?_⟩
  · obtain ⟨a, b, ha, hb, hj⟩ := hmerged.stack i u hu
    obtain ⟨hka, hkb⟩ := Value.param_join hj hk
    rcases h with h | h
    · exact h.stack i a w k ha hw hka
    · exact h.stack i b w k hb hw hkb
  · obtain ⟨hkf, hko⟩ := param_merged hmerged hk
    rcases h with h | h
    · exact h.locals i k hkf
    · exact h.locals i k hko

/-- The same instruction in two machines keeps the marks. -/
theorem step {s : Subject} {ins : Instruction} {b b' : Nat} {fr fr' : Int} {u u' : Unit}
    {m m' n n' : Machine} (hv : s.visitor = Visitor.anyResult) (h : Truthful m.frame n.frame)
    (hm : Step.step s b fr ins m = .ok u m') (hn : Step.step s b' fr' ins n = .ok u' n') :
    Truthful m'.frame n'.frame := by
  obtain ⟨o, ho, hm⟩ := Step.step_ok hm
  obtain ⟨o', ho', hn⟩ := Step.step_ok hn
  obtain rfl : o = o' := Option.some.inj (ho.symm.trans ho')
  cases hplain : o.isPlain with
  | true =>
    obtain ⟨args, hk, hp⟩ := Step.transfer_performs hv hplain hm
    obtain ⟨args', hk', hp'⟩ := Step.transfer_performs hv hplain hn
    obtain ⟨kinds, hfresh⟩ := fresh_outputs s ins o
    refine h.exchanges hp.frame hp'.frame (hk.trans hk'.symm) ?_ (hfresh args hk).1
    rw [(hfresh args hk).2, (hfresh args' hk').2]
  | false =>
    exact h.moves (Step.transfer_moves hplain hm).1 (Step.transfer_moves hplain hn).1

end Frame.Truthful

end InlinePlan
