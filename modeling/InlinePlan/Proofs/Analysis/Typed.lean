import InlinePlan.Proofs.Analysis.Results
import InlinePlan.Proofs.Analysis.Trace

set_option autoImplicit false

/-! # Types of slots

The fact of a slot is one about values of its kind, and the mark of a slot names an argument of its
kind. Both hold in every frame of a run, so constants never leave the range of their kind, and
predicates are about arguments that the method has. -/

namespace InlinePlan

open InlinePlan.Frame

/-! ## Facts about values of a kind -/

/-- Whether a fact is about values of a kind: integers within the range of the kind, or a reference;
    the length of an array is one that arrays have. -/
def Kind.Admits : Kind → Fact → Prop
  | .int, f => f.kind = .range ∧ minInt32 ≤ f.lo ∧ f.lo ≤ f.hi ∧ f.hi ≤ maxInt32
  | .long, f => f.kind = .range ∧ -2 ^ 63 ≤ f.lo ∧ f.lo ≤ f.hi ∧ f.hi < 2 ^ 63
  | .ref, f => f.kind = .null ∨ f.kind = .object ∨ f.kind = .string
      ∨ f.kind = .array ∧ 0 ≤ f.lo ∧ f.lo ≤ f.hi ∧ f.hi ≤ maxInt32
  | .untyped, _ | .float, _ | .double, _ => False

theorem Fact.array_bounds (desc : String) (lo hi : Int) :
    0 ≤ (Fact.array desc lo hi).lo ∧ (Fact.array desc lo hi).lo ≤ (Fact.array desc lo hi).hi
      ∧ (Fact.array desc lo hi).hi ≤ maxInt32 := by
  simp only [Fact.array]
  unfold maxInt32
  omega

/-- What the join of two facts is. -/
inductive Fact.Joins (f g : Fact) : Fact → Prop where
  | self : Joins f g f
  | range (hf : f.kind = .range) (hg : g.kind = .range) :
      Joins f g (.range (min f.lo g.lo) (max f.hi g.hi))
  | exactObject (cls : String) (hf : f.kind = .object ∨ f.kind = .string) :
      Joins f g (.exactObject cls)
  | object (cls : String) (nonNull : Bool) (hf : f.kind = .object ∨ f.kind = .string) :
      Joins f g (.object cls nonNull)
  | array (hf : f.kind = .array) (hg : g.kind = .array) :
      Joins f g (.array f.cls (min f.lo g.lo) (max f.hi g.hi))

theorem Fact.asObject_cases (f : Fact) :
    f.asObject = f ∧ f.kind ≠ .string ∨ f.asObject = .exactObject stringClass ∧ f.kind = .string := by
  unfold asObject
  split
  case isTrue hf => exact .inr ⟨rfl, hf⟩
  case isFalse hf => exact .inl ⟨rfl, hf⟩

theorem Fact.joinPlain_eq_some {f g j : Fact} (h : f.joinPlain g = some j) :
    f.kind = g.kind ∧ (j = f
      ∨ f.kind = .range ∧ j = .range (min f.lo g.lo) (max f.hi g.hi)
      ∨ f.kind = .object ∧ j = .object f.cls f.nonNull
      ∨ f.kind = .array ∧ j = .array f.cls (min f.lo g.lo) (max f.hi g.hi)) := by
  unfold joinPlain at h
  split at h
  case isTrue => cases h
  case isFalse hk =>
    refine ⟨Decidable.not_not.1 hk, ?_⟩
    split at h
    case h_1 hf =>
      cases h
      exact .inr (.inl ⟨hf, rfl⟩)
    case h_2 =>
      cases h
      exact .inl rfl
    case h_3 hf =>
      split at h
      case isTrue => cases h
      case isFalse =>
        split at h
        case isTrue =>
          cases h
          exact .inl rfl
        case isFalse =>
          cases h
          exact .inr (.inr (.inl ⟨hf, rfl⟩))
    case h_4 hf =>
      split at h
      case isTrue => cases h
      case isFalse =>
        cases h
        exact .inr (.inr (.inr ⟨hf, rfl⟩))
    case h_5 => cases h
    case h_6 => cases h

theorem Fact.joins_of_join {f g j : Fact} (h : f.join g = some j) : f.Joins g j := by
  unfold join at h
  split at h
  case isTrue =>
    cases h
    exact .self
  case isFalse =>
    split at h
    case isTrue hs =>
      cases h
      exact .exactObject _ (.inr hs.1)
    case isFalse hs =>
      obtain ⟨hk, hj⟩ := joinPlain_eq_some h
      obtain ⟨hf, hfk⟩ | ⟨hf, hfk⟩ := f.asObject_cases
      · rw [hf] at hk hj
        -- a string on the right makes an object of the other
        have hg : f.kind ≠ .object → g.asObject = g := by
          intro hne
          obtain ⟨hg, -⟩ | ⟨hg, -⟩ := g.asObject_cases
          · exact hg
          · exact absurd (hk.trans (by rw [hg]; rfl)) hne
        obtain rfl | ⟨hr, rfl⟩ | ⟨ho, rfl⟩ | ⟨ha, rfl⟩ := hj
        · exact .self
        · rw [hg (by simp [hr])] at hk ⊢
          exact .range hr (hk ▸ hr)
        · exact .object _ _ (.inl ho)
        · rw [hg (by simp [ha])] at hk ⊢
          exact .array ha (hk ▸ ha)
      · rw [hf] at hj
        obtain rfl | ⟨hr, -⟩ | ⟨-, rfl⟩ | ⟨ha, -⟩ := hj
        · exact .exactObject _ (.inr hfk)
        · cases hr
        · exact .object _ _ (.inr hfk)
        · cases ha

theorem Fact.const?_eq_some {f : Fact} {c : Int} (h : f.const? = some c) :
    f.kind = .range ∧ f.lo = c ∧ f.hi = c := by
  unfold Fact.const? at h
  split at h
  case isTrue hf =>
    cases h
    exact ⟨hf.1, rfl, hf.2.symm⟩
  case isFalse => cases h

theorem Fact.Made.admits {k : Kind} {f : Fact} (h : f.Made k) : k.Admits f := by
  cases h with
  | int a b ha hb =>
    refine ⟨rfl, ?_, ?_, ?_⟩ <;> simp only [Fact.range] <;> omega
  | long a b ha hb =>
    refine ⟨rfl, ?_, ?_, ?_⟩ <;> simp only [Fact.range] <;> omega
  | null => exact .inl rfl
  | exactObject cls => exact .inr (.inl rfl)
  | object cls nonNull => exact .inr (.inl rfl)
  | array desc lo hi => exact .inr (.inr (.inr ⟨rfl, Fact.array_bounds desc lo hi⟩))
  | string s => exact .inr (.inr (.inl rfl))

/-- The kinds of the arguments of a method, the receiver first. -/
def Method.argKinds (m : Method) : List Kind :=
  Operation.receiver (!m.isStatic) ++ m.signature.params.map JavaType.kind

/-- A slot whose fact is in a class, and whose mark names one of some kinds: its own. -/
structure Value.Typed (P : Kind → Fact → Prop) (kinds : List Kind) (v : Value) : Prop where
  within : v.Within P
  mark : ∀ k, v.param = some k → kinds[k]? = some v.kind

/-- All slots are typed. -/
structure Frame.Typed (P : Kind → Fact → Prop) (kinds : List Kind) (f : Frame) : Prop where
  locals : ∀ v ∈ f.locals, v.Typed P kinds
  stack : ∀ v ∈ f.stack, v.Typed P kinds

section Slots

variable {P : Kind → Fact → Prop} {kinds : List Kind} {v w u : Value}

namespace Value

theorem typed_pad : Value.pad.Typed P kinds := ⟨nofun, nofun⟩

theorem typed_unusable : Value.unusable.Typed P kinds := ⟨nofun, nofun⟩

theorem Fresh.typed (h : v.Fresh P) : v.Typed P kinds :=
  ⟨h.within, fun k hk => by rw [h.unmarked] at hk; cases hk⟩

theorem Typed.forget (h : v.Typed P kinds) (keepMark : Bool) :
    (Frame.forget keepMark v).Typed P kinds := by
  cases v with
  | pad => exact typed_pad
  | slot k f p =>
    refine ⟨nofun, fun i hi => ?_⟩
    cases keepMark with
    | false => cases hi
    | true => exact h.mark i hi

theorem Within.join (hP : FactClass P) (hv : v.Within P) (hw : w.Within P)
    (h : v.join w = .ok u) : u.Within P := by
  intro j hj
  obtain ⟨-, -, rfl⟩ | ⟨k, f, p, f', p', rfl, rfl, rfl⟩ := join_eq_ok.1 h
  · cases hj
  · cases f with
    | none => cases hj
    | some f =>
      cases f' with
      | none => cases hj
      | some g => exact hP.join (hv f rfl) (hw g rfl) hj

theorem Typed.join (hP : FactClass P) (hv : v.Typed P kinds) (hw : w.Typed P kinds)
    (h : v.join w = .ok u) : u.Typed P kinds := by
  refine ⟨hv.within.join hP hw.within h, fun k hk => ?_⟩
  rw [kind_join h]
  exact hv.mark k (param_join h hk).1

theorem Typed.cells (h : v.Typed P kinds) : ∀ w ∈ Frame.cells v, w.Typed P kinds := by
  intro w hw
  cases hwide : v.isWide with
  | true =>
    rw [cells_wide hwide] at hw
    rcases List.mem_cons.1 hw with rfl | hw
    · exact typed_pad
    · exact List.mem_singleton.1 hw ▸ h
  | false =>
    rw [cells_narrow hwide] at hw
    exact List.mem_singleton.1 hw ▸ h

end Value

namespace Frame

variable {f f' o : Frame} {args results : List Value}

theorem Typed.localAt (h : f.Typed P kinds) (i : Int) : (f.localAt i).Typed P kinds := by
  unfold Frame.localAt
  split
  · exact Value.typed_unusable
  · rw [List.getD]
    cases hi : f.locals[i.toNat]? with
    | none => exact Value.typed_unusable
    | some v => exact h.locals v (List.mem_of_getElem? hi)

theorem typed_locals (h : ∀ n : Nat, (f.localAt n).Typed P kinds) :
    ∀ v ∈ f.locals, v.Typed P kinds := by
  intro v hv
  obtain ⟨n, hn⟩ := List.getElem?_of_mem hv
  have hlocal := h n
  rwa [localAt_natCast, List.getD, hn, Option.getD_some] at hlocal

/-! ### Entry, widening and merging -/

theorem typed_paramSlots {position : Nat} {ts : List JavaType}
    (h : kinds.drop position = ts.map JavaType.kind) :
    ∀ v ∈ paramSlots position ts, v.Typed P kinds := by
  induction ts generalizing position with
  | nil => exact fun v hv => absurd hv List.not_mem_nil
  | cons t ts ih =>
    intro v hv
    rw [paramSlots, List.mem_append] at hv
    have hrest : kinds.drop (position + 1) = ts.map JavaType.kind := by
      rw [← List.drop_drop, h]
      rfl
    have hfirst : ((Value.top t.kind).withParam position).Typed P kinds := by
      refine ⟨nofun, ?_⟩
      rintro k ⟨⟩
      show kinds[position]? = some t.kind
      have hget := congrArg (·[0]?) h
      simpa using hget
    rcases hv with hv | hv
    · exact hfirst.cells v (List.mem_reverse.2 hv)
    · exact ih hrest v hv

theorem typed_entry (hP : FactClass P) (m : Method) : (Frame.entry m).Typed P m.argKinds where
  locals := by
    intro v hv
    rw [Frame.entry, List.mem_append] at hv
    rcases hv with hv | hv
    · unfold argSlots at hv
      split at hv
      case isTrue hm =>
        refine typed_paramSlots ?_ v hv
        simp [Method.argKinds, hm, Operation.receiver]
      case isFalse hm =>
        rcases List.mem_cons.1 hv with rfl | hv
        · refine ⟨?_, ?_⟩
          · rintro f ⟨⟩
            exact hP.made (.object m.cls true)
          · rintro k ⟨⟩
            simp [Method.argKinds, hm, Operation.receiver, Value.withParam, Value.known, Value.kind]
        · refine typed_paramSlots ?_ v hv
          simp [Method.argKinds, hm, Operation.receiver]
    · rw [List.eq_of_mem_replicate hv]
      exact Value.typed_unusable
  stack := fun _ hv => absurd hv List.not_mem_nil

theorem Typed.widen (h : f.Typed P kinds) (written : List Bool) :
    (f.widen written).Typed P kinds where
  locals := typed_locals fun n => by
    rw [localAt_widen]
    exact (h.localAt n).forget _
  stack := by
    intro v hv
    obtain ⟨w, hw, rfl⟩ := List.mem_map.1 hv
    exact (h.stack w hw).forget false

theorem Typed.merge (hP : FactClass P) (hf : f.Typed P kinds) (ho : o.Typed P kinds)
    (hm : f.merge o = .ok f') : f'.Typed P kinds where
  locals := typed_locals fun n => by
    rcases (merge_ok hm).locals n with hn | hn
    · rw [hn, mergeLocal]
      split
      case h_1 u hj => exact (hf.localAt n).join hP (ho.localAt n) hj
      case h_2 => exact Value.typed_unusable
    · rw [hn]
      exact Value.typed_unusable
  stack := by
    intro u hu
    obtain ⟨i, hi⟩ := List.getElem?_of_mem hu
    obtain ⟨v, w, hv, hw, hj⟩ := (merge_ok hm).stack i u hi
    exact (hf.stack v (List.mem_of_getElem? hv)).join hP (ho.stack w (List.mem_of_getElem? hw)) hj

/-! ### Instructions -/

theorem Typed.takes (h : f.Typed P kinds) (ht : Takes f args f') :
    f'.Typed P kinds ∧ ∀ v ∈ args, v.Typed P kinds := by
  rw [ht.frame] at h
  refine ⟨⟨h.locals, fun v hv => h.stack v (List.mem_append_right _ hv)⟩, fun v hv => ?_⟩
  refine h.stack v (List.mem_append_left _ (List.mem_flatMap.2 ⟨v, hv, ?_⟩))
  cases hw : v.isWide with
  | true => simp [cells_wide hw]
  | false => simp [cells_narrow hw]

theorem Typed.push (h : f.Typed P kinds) (hr : ∀ v ∈ results, v.Typed P kinds) :
    (Frame.mk f.locals (results.flatMap cells ++ f.stack)).Typed P kinds := by
  refine ⟨h.locals, fun v hv => ?_⟩
  rcases List.mem_append.1 hv with hv | hv
  · obtain ⟨r, hr', hv⟩ := List.mem_flatMap.1 hv
    exact (hr r hr').cells v hv
  · exact h.stack v hv

theorem Typed.stores {n : Nat} (h : f.Typed P kinds) (hv : v.Typed P kinds)
    (hs : Stores f n v f') : f'.Typed P kinds where
  locals := typed_locals fun i => by
    by_cases hn : (i : Int) = n
    · rw [hn, hs.self]
      exact hv
    · by_cases hsecond : v.isWide = true ∧ (i : Int) = n + 1
      · rw [hsecond.2, hs.second hsecond.1]
        exact Value.typed_pad
      · rcases hs.other i hn fun hw he => hsecond ⟨hw, he⟩ with hi | hi
        · rw [hi]
          exact h.localAt i
        · rw [hi]
          exact Value.typed_unusable
  stack := by
    rw [hs.stack]
    exact h.stack

theorem Typed.moves {ins : Instruction} {op : Operation} (hP : FactClass P)
    (h : f.Typed P kinds) (hm : Moves ins f op f') : f'.Typed P kinds := by
  cases hm with
  | load k slot hread hk =>
    have hpush := h.push (List.forall_mem_singleton.2 (h.localAt ins.slot))
    simpa using hpush
  | store k slot v n f₁ f' ht hk hn hs =>
    obtain ⟨hrest, hv⟩ := h.takes ht
    exact hrest.stores (hv v List.mem_cons_self) hs
  | increment n f' hk hn hs =>
    refine h.stores (Value.Fresh.typed (fresh_constOrTop fun c hc => ?_)) hs
    obtain ⟨x, -, rfl⟩ := Option.map_eq_some_iff.1 hc
    exact hP.made (Fact.made_word (w := .int) _)
  | pop v f' hf hv =>
    rw [hf] at h
    exact ⟨h.locals, fun w hw => h.stack w (List.mem_cons_of_mem v hw)⟩
  | dup v f' hf hv =>
    rw [hf] at h
    refine ⟨h.locals, fun w hw => ?_⟩
    rcases List.mem_cons.1 hw with rfl | hw
    · exact h.stack w List.mem_cons_self
    · exact h.stack w hw
  | shuffle p taken rest f' hlen hf hs hb =>
    rw [hf] at h
    refine ⟨h.locals, fun w hw => ?_⟩
    rw [hs, List.mem_append, List.mem_reverse, List.mem_filterMap] at hw
    rcases hw with ⟨i, -, hi⟩ | hw
    · exact h.stack w (List.mem_append_left _ (List.mem_of_getElem? hi))
    · exact h.stack w (List.mem_append_right _ hw)
  | throwObject v f' ht => exact ⟨(h.takes ht).1.locals, by simp⟩

/-- An instruction keeps slots typed, and the predicates that it notes are about an argument of one
    of the kinds. -/
theorem Typed.step (hP : FactClass P) {s : Subject} {b : Nat} {fr : Int} {ins : Instruction}
    {m m' : Machine} {u : Unit} (hvisitor : ∀ calls site, (s.visitor calls site).Within P)
    (h : m.frame.Typed P kinds) (hs : Step.step s b fr ins m = .ok u m') :
    m'.frame.Typed P kinds ∧ ∃ ps, m'.predicates = m.predicates ++ ps
      ∧ ∀ p ∈ ps, ∃ k : Nat, p.param = k ∧ k < kinds.length := by
  obtain ⟨op, hop, ht⟩ := Step.step_ok hs
  cases hplain : op.isPlain with
  | true =>
    obtain ⟨args, results, hp, hresults⟩ := Step.transfer_results hP hvisitor hop hplain ht
    obtain ⟨f₁, htakes, hframe⟩ := hp.frame
    obtain ⟨hrest, hargs⟩ := h.takes htakes
    refine ⟨?_, ?_⟩
    · rw [hframe]
      exact hrest.push fun v hv => (hresults (fun w hw => (hargs w hw).within) v hv).typed
    · obtain ⟨ps, hps, hc⟩ := hp.notes
      refine ⟨ps, hps, fun p hp' => ?_⟩
      obtain ⟨-, v, hv, k, hk, hpk⟩ := hc p hp'
      have hkind := (hargs v (List.mem_of_getLast? hv)).mark k hk
      exact ⟨k, hpk, (List.getElem?_eq_some_iff.1 hkind).1⟩
  | false =>
    obtain ⟨hmoves, hpreds⟩ := Step.transfer_moves hplain ht
    exact ⟨h.moves hP hmoves, [], by rw [hpreds, List.append_nil], by simp⟩

end Frame

end Slots

/-! ## Runs -/

section Runs

variable {P : Kind → Fact → Prop} {s : Subject} {g : FlowGraph}

theorem kept_typed (hP : FactClass P) (hvisitor : ∀ calls site, (s.visitor calls site).Within P) :
    s.Kept g (Frame.Typed P s.method.argKinds) where
  entry := typed_entry hP s.method
  widen _ h := h.widen g.writtenLocals
  merge _ _ _ hf ho hm := hf.merge hP ho hm
  step _ _ _ _ _ h hs := (h.step hP hvisitor hs).1

end Runs

end InlinePlan
