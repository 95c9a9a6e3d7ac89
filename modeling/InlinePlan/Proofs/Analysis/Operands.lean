import InlinePlan.Analysis.Transfer

set_option autoImplicit false

/-! # Operations on frames, inverted

What a frame operation has done when it succeeds: which slots the frame had before, and which it has
afterwards. -/

namespace InlinePlan

/-! ## Computations that succeed -/

section Computations

variable {ε σ α β : Type}

@[simp] theorem bind_eq_ok {x : EStateM ε σ α} {f : α → EStateM ε σ β} {s s' : σ} {b : β} :
    (x >>= f) s = .ok b s' ↔ ∃ a s₁, x s = .ok a s₁ ∧ f a s₁ = .ok b s' := by
  simp only [bind, EStateM.bind]
  cases x s with
  | ok a s₁ =>
    constructor
    · exact fun h => ⟨a, s₁, rfl, h⟩
    · rintro ⟨_, _, ⟨⟩, h⟩
      exact h
  | error e s₁ => simp

@[simp] theorem pure_eq_ok {a b : α} {s s' : σ} :
    (pure a : EStateM ε σ α) s = .ok b s' ↔ a = b ∧ s = s' := by
  show EStateM.Result.ok a s = .ok b s' ↔ _
  simp

@[simp] theorem throw_eq_ok {e : ε} {b : α} {s s' : σ} :
    (throw e : EStateM ε σ α) s = .ok b s' ↔ False := by
  show EStateM.Result.error e s = .ok b s' ↔ _
  simp

@[simp] theorem get_eq_ok {a s s' : σ} :
    (get : EStateM ε σ σ) s = .ok a s' ↔ s = a ∧ s = s' := by
  show EStateM.Result.ok s s = .ok a s' ↔ _
  simp

@[simp] theorem set_eq_ok {a s s' : σ} {u : PUnit} :
    (set a : EStateM ε σ PUnit) s = .ok u s' ↔ a = s' := by
  show EStateM.Result.ok () a = .ok u s' ↔ _
  simp

@[simp] theorem modify_eq_ok {f : σ → σ} {s s' : σ} {u : PUnit} :
    (modify f : EStateM ε σ PUnit) s = .ok u s' ↔ f s = s' := by
  show EStateM.Result.ok () (f s) = .ok u s' ↔ _
  simp

@[simp] theorem discard_eq_ok {x : EStateM ε σ α} {s s' : σ} {u : PUnit} :
    (discard x : EStateM ε σ PUnit) s = .ok u s' ↔ ∃ a, x s = .ok a s' := by
  simp only [discard, Functor.discard, Functor.mapConst, EStateM.map, Function.comp]
  cases x s <;> simp

/-- A check that fails with a fault. -/
@[simp] theorem guard_eq_ok {c : Prop} [Decidable c] {e : ε} {x : α → EStateM ε σ β}
    {y : EStateM ε σ β} {s s' : σ} {b : β} :
    (if c then throw e >>= x else y) s = .ok b s' ↔ ¬c ∧ y s = .ok b s' := by
  split
  · simp [*]
  · simp [*]

end Computations

namespace Frame

/-! ## Operands -/

/-- The slots of a value as the stack holds them, the topmost first. -/
def cells (v : Value) : List Value := (slotsOf v).reverse

variable {f f' : Frame} {v : Value} {k : Kind}

@[simp] theorem push_eq_ok {u : Unit} :
    push v f = .ok u f' ↔ f' = ⟨f.locals, cells v ++ f.stack⟩ := by
  simp only [push, modify_eq_ok, cells]
  exact eq_comm

@[simp] theorem pushSlot_eq_ok {u : Unit} :
    pushSlot v f = .ok u f' ↔ f' = ⟨f.locals, v :: f.stack⟩ := by
  simp only [pushSlot, modify_eq_ok]
  exact eq_comm

@[simp] theorem popSlot_eq_ok :
    popSlot f = .ok v f' ↔ f = ⟨f'.locals, v :: f'.stack⟩ := by
  obtain ⟨locals, stack⟩ := f
  obtain ⟨locals', stack'⟩ := f'
  cases stack with
  | nil => simp [popSlot]
  | cons w ws =>
    simp only [popSlot, EStateM.Result.ok.injEq, mk.injEq, List.cons.injEq]
    exact ⟨fun ⟨h₁, h₂, h₃⟩ => ⟨h₂, h₁, h₃⟩, fun ⟨h₁, h₂, h₃⟩ => ⟨h₂, h₁, h₃⟩⟩

theorem isPad_of_kind (hv : v.kind = k) (hk : k ≠ .untyped) : v.isPad = false := by
  cases v with
  | pad => exact absurd hv.symm hk
  | slot => rfl

theorem cells_wide (h : v.isWide = true) : cells v = [.pad, v] := by simp [cells, slotsOf, h]

theorem cells_narrow (h : v.isWide = false) : cells v = [v] := by simp [cells, slotsOf, h]

@[simp] theorem pop_eq_ok :
    pop k f = .ok v f'
      ↔ v.isPad = false ∧ v.kind = k ∧ f = ⟨f'.locals, cells v ++ f'.stack⟩ := by
  unfold pop
  obtain ⟨locals, stack⟩ := f
  obtain ⟨locals', stack'⟩ := f'
  have hcheck : ∀ w : Value, ¬((w.isPad || decide (w.kind ≠ k)) = true)
      ↔ w.isPad = false ∧ w.kind = k := by simp
  cases hk : k.wide with
  | true =>
    -- the padding comes off first
    simp only [if_true, bind_eq_ok, popSlot_eq_ok, guard_eq_ok, pure_eq_ok, hcheck]
    constructor
    · rintro ⟨p, f₁, h, hp, w, f₂, rfl, ⟨hpad, hkind⟩, rfl, rfl⟩
      refine ⟨hpad, hkind, ?_⟩
      cases p with
      | pad => rw [h, cells_wide (by rw [Value.isWide, hkind, hk])]; rfl
      | slot => simp [Value.isPad] at hp
    · rintro ⟨hpad, hkind, h⟩
      rw [h, cells_wide (by rw [Value.isWide, hkind, hk])]
      exact ⟨.pad, ⟨locals', v :: stack'⟩, rfl, by simp [Value.isPad], v, ⟨locals', stack'⟩, rfl,
        ⟨hpad, hkind⟩, rfl, rfl⟩
  | false =>
    simp only [Bool.false_eq_true, if_false, bind_eq_ok, popSlot_eq_ok, guard_eq_ok, pure_eq_ok,
      hcheck]
    constructor
    · rintro ⟨w, f₂, h, ⟨hpad, hkind⟩, rfl, rfl⟩
      rw [cells_narrow (by simpa [Value.isWide, hkind] using hk)]
      exact ⟨hpad, hkind, h⟩
    · rintro ⟨hpad, hkind, h⟩
      rw [cells_narrow (by simpa [Value.isWide, hkind] using hk)] at h
      exact ⟨v, ⟨locals', stack'⟩, h, ⟨hpad, hkind⟩, rfl, rfl⟩

/-! ## Several operands -/

/-- Taking the values `args`, the topmost first, leads from `f` to `f'`. -/
structure Takes (f : Frame) (args : List Value) (f' : Frame) : Prop where
  solid : ∀ v ∈ args, v.isPad = false
  frame : f = ⟨f'.locals, args.flatMap cells ++ f'.stack⟩

theorem Takes.nil (f : Frame) : Takes f [] f := ⟨by simp, rfl⟩

theorem Takes.append {f₁ : Frame} {as bs : List Value} (ha : Takes f as f₁)
    (hb : Takes f₁ bs f') : Takes f (as ++ bs) f' where
  solid := by
    intro v hv
    exact (List.mem_append.1 hv).elim (ha.solid v) (hb.solid v)
  frame := by
    rw [ha.frame, hb.frame]
    simp

theorem pop_takes (h : pop k f = .ok v f') : Takes f [v] f' ∧ v.kind = k := by
  obtain ⟨hpad, hkind, rfl⟩ := pop_eq_ok.1 h
  exact ⟨⟨by simpa using hpad, by simp⟩, hkind⟩

theorem popKinds_takes {ks : List Kind} {u : Unit} (h : popKinds ks f = .ok u f') :
    ∃ args, Takes f args f' ∧ args.map Value.kind = ks.reverse := by
  induction ks generalizing f' with
  | nil =>
    simp only [popKinds, pure_eq_ok, true_and] at h
    exact ⟨[], h ▸ Takes.nil f, rfl⟩
  | cons k ks ih =>
    simp only [popKinds, bind_eq_ok, discard_eq_ok] at h
    obtain ⟨_, f₁, hks, v, hv⟩ := h
    obtain ⟨args, hargs, hkinds⟩ := ih hks
    obtain ⟨hpop, hkind⟩ := pop_takes hv
    exact ⟨args ++ [v], hargs.append hpop, by simp [hkinds, hkind]⟩

theorem popMany_takes {count : Nat} {above vs : List Value}
    (h : popMany k count above f = .ok vs f') :
    ∃ args, Takes f args f' ∧ args.map Value.kind = List.replicate count k
      ∧ vs = args.reverse ++ above := by
  induction count generalizing f above with
  | zero =>
    simp only [popMany, pure_eq_ok] at h
    obtain ⟨rfl, rfl⟩ := h
    exact ⟨[], Takes.nil f, rfl, rfl⟩
  | succ count ih =>
    simp only [popMany, bind_eq_ok] at h
    obtain ⟨v, f₁, hv, hrest⟩ := h
    obtain ⟨hpop, hkind⟩ := pop_takes hv
    obtain ⟨args, hargs, hkinds, rfl⟩ := ih hrest
    exact ⟨v :: args, hpop.append hargs, by simp [hkinds, hkind, List.replicate_succ], by simp⟩

theorem popArray_takes {count : Int} {vs : List Value} (h : popArray k count f = .ok vs f') :
    ∃ args, Takes f args f' ∧ args.map Value.kind = List.replicate count.toNat k
      ∧ vs = args.reverse := by
  simp only [popArray, guard_eq_ok] at h
  obtain ⟨args, hargs, hkinds, rfl⟩ := popMany_takes h.2
  exact ⟨args, hargs, hkinds, List.append_nil _⟩

theorem popArgs_takes {ts : List JavaType} {vs : List Value}
    (h : Step.popArgs ts f = .ok vs f') :
    Takes f vs.reverse f' ∧ vs.map Value.kind = ts.map JavaType.kind := by
  induction ts generalizing f' vs with
  | nil =>
    simp only [Step.popArgs, pure_eq_ok] at h
    obtain ⟨rfl, rfl⟩ := h
    exact ⟨Takes.nil f, rfl⟩
  | cons t ts ih =>
    simp only [Step.popArgs, bind_eq_ok, pure_eq_ok] at h
    obtain ⟨rest, f₁, hrest, v, f₂, hv, rfl, rfl⟩ := h
    obtain ⟨htakes, hkinds⟩ := ih hrest
    obtain ⟨hpop, hkind⟩ := pop_takes hv
    exact ⟨by simpa using htakes.append hpop, by simp [hkinds, hkind]⟩

/-! ## Single slots -/

theorem popSlots_eq_ok {count : Nat} {vs : List Value} :
    popSlots count f = .ok vs f' ↔ vs.length = count ∧ f = ⟨f'.locals, vs ++ f'.stack⟩ := by
  induction count generalizing f f' vs with
  | zero =>
    simp only [popSlots, pure_eq_ok, List.length_eq_zero_iff]
    constructor
    · rintro ⟨rfl, rfl⟩
      exact ⟨rfl, rfl⟩
    · rintro ⟨rfl, h⟩
      exact ⟨rfl, h⟩
  | succ count ih =>
    simp only [popSlots, bind_eq_ok, popSlot_eq_ok, ih, pure_eq_ok]
    constructor
    · rintro ⟨v, f₁, rfl, ws, f₂, ⟨hlen, rfl⟩, rfl, rfl⟩
      exact ⟨by simp [hlen], rfl⟩
    · rintro ⟨hlen, h⟩
      cases vs with
      | nil => simp at hlen
      | cons v vs =>
        exact ⟨v, ⟨f'.locals, vs ++ f'.stack⟩, h, vs, f', ⟨by simpa using hlen, rfl⟩, rfl, rfl⟩

theorem pushSlots_eq_ok {vs : List Value} {u : Unit} :
    pushSlots vs f = .ok u f' ↔ f' = ⟨f.locals, vs.reverse ++ f.stack⟩ := by
  induction vs generalizing f with
  | nil =>
    simp only [pushSlots, pure_eq_ok, true_and, List.reverse_nil, List.nil_append]
    exact eq_comm
  | cons v vs ih =>
    simp only [pushSlots, bind_eq_ok, pushSlot_eq_ok, ih]
    constructor
    · rintro ⟨_, f₁, rfl, rfl⟩
      simp
    · rintro rfl
      exact ⟨(), _, rfl, by simp⟩

/-- A shuffle puts some of the topmost slots in place of all of them. None of its operands begins
    with padding. -/
theorem shuffle_ok {op : Opcode} {s : Shuffle} {u : Unit} (h : shuffle op s f = .ok u f') :
    ∃ taken rest, taken.length = s.count ∧ f = ⟨f'.locals, taken ++ rest⟩
      ∧ f'.stack = (s.pattern.filterMap (taken[·]?)).reverse ++ rest
      ∧ ∀ i ∈ s.bottoms, (taken[i]?).any Value.isPad = false := by
  simp only [shuffle, bind_eq_ok, popSlots_eq_ok, guard_eq_ok, pushSlots_eq_ok] at h
  obtain ⟨taken, f₁, ⟨hlen, rfl⟩, hbottoms, rfl⟩ := h
  exact ⟨taken, f₁.stack, hlen, rfl, rfl, by simpa using hbottoms⟩

theorem popSingle_ok {op : Opcode} (h : popSingle op f = .ok v f') :
    f = ⟨f'.locals, v :: f'.stack⟩ ∧ v.isPad = false := by
  simp only [popSingle, bind_eq_ok, popSlot_eq_ok, guard_eq_ok, pure_eq_ok] at h
  obtain ⟨w, f₁, rfl, hpad, rfl, rfl⟩ := h
  exact ⟨rfl, by simpa using hpad⟩

/-! ## Locals -/

theorem load_eq_ok {i : Int} :
    load i k f = .ok v f' ↔ f' = f ∧ v = f.localAt i ∧ v.isReadable = true ∧ v.kind = k
      ∧ (k.wide = true → (f.localAt (i + 1)).isPad = true) := by
  simp only [load, bind_eq_ok, get_eq_ok, guard_eq_ok, pure_eq_ok]
  constructor
  · rintro ⟨_, _, ⟨rfl, rfl⟩, hkind, hpad, rfl, rfl⟩
    simp only [Bool.or_eq_true, Bool.not_eq_true', decide_eq_true_eq, not_or, Bool.not_eq_false,
      Decidable.not_not, ne_eq] at hkind
    refine ⟨rfl, rfl, hkind.1, hkind.2, fun hk => ?_⟩
    simpa [hk] using hpad
  · rintro ⟨rfl, rfl, hread, hkind, hpad⟩
    refine ⟨_, _, ⟨rfl, rfl⟩, by simp [hread, hkind], ?_, rfl, rfl⟩
    simpa using hpad

theorem localAt_of_neg {i : Int} (h : i < 0) : f.localAt i = .unusable := by
  simp [localAt, h]

theorem localAt_natCast (n : Nat) : f.localAt n = f.locals.getD n .unusable := by
  rw [localAt, if_neg (Int.not_lt.2 (Int.natCast_nonneg n)), Int.toNat_natCast]

theorem getD_grow (n length : Nat) (locals : List Value) :
    (grow length locals).getD n .unusable = locals.getD n .unusable := by
  unfold grow
  rw [List.getD, List.getD, List.getElem?_append]
  split
  case isTrue => rfl
  case isFalse hn =>
    rw [List.getElem?_eq_none (Nat.le_of_not_lt hn), List.getElem?_replicate]
    split <;> rfl

theorem length_grow (length : Nat) (locals : List Value) : length ≤ (grow length locals).length := by
  simp only [grow, List.length_append, List.length_replicate]
  omega

theorem getD_spoil (p : Value → Bool) (i : Int) (n : Nat) (locals : List Value) :
    (spoil p i locals).getD n .unusable = locals.getD n .unusable
      ∨ (spoil p i locals).getD n .unusable = .unusable := by
  unfold spoil
  split
  · exact .inl rfl
  · rw [List.getD, List.getD, List.getElem?_modify]
    cases locals[n]? with
    | none => simp
    | some v =>
      simp only [Option.map_eq_map, Option.map_some, Option.getD_some]
      split
      · split <;> simp
      · simp

theorem length_spoil (p : Value → Bool) (i : Int) (locals : List Value) :
    (spoil p i locals).length = locals.length := by
  unfold spoil
  split <;> simp

/-- Making room only loses values. -/
theorem getD_makeRoom (i : Int) (width n : Nat) (locals : List Value) :
    (makeRoom i width locals).getD n .unusable = locals.getD n .unusable
      ∨ (makeRoom i width locals).getD n .unusable = .unusable := by
  unfold makeRoom
  rcases getD_spoil Value.isPad (i + width) n
    (spoil Value.isWide (i - 1) (grow (i + width).toNat locals)) with h | h
  · rw [h]
    rcases getD_spoil Value.isWide (i - 1) n (grow (i + width).toNat locals) with h' | h'
    · rw [h', getD_grow]
      exact .inl rfl
    · exact .inr h'
  · exact .inr h

theorem length_makeRoom (i : Int) (width : Nat) (locals : List Value) :
    (i + width).toNat ≤ (makeRoom i width locals).length := by
  rw [makeRoom, length_spoil, length_spoil]
  exact length_grow _ _

/-- What a store does to the locals: it writes the slots of the value and may spoil others. -/
structure Stores (f : Frame) (n : Nat) (v : Value) (f' : Frame) : Prop where
  stack : f'.stack = f.stack
  self : f'.localAt n = v
  second : v.isWide = true → f'.localAt (n + 1) = .pad
  other : ∀ i : Int, i ≠ n → (v.isWide = true → i ≠ n + 1) →
    f'.localAt i = f.localAt i ∨ f'.localAt i = .unusable
  locals_eq : f'.locals = writeSlots n (slotsOf v) (makeRoom n (slotsOf v).length f.locals)

theorem store_ok {i : Int} {u : Unit} (h : store i v f = .ok u f') :
    ∃ n : Nat, i = n ∧ Stores f n v f' := by
  simp only [store, bind_eq_ok, get_eq_ok, modify_eq_ok, guard_eq_ok] at h
  obtain ⟨_, _, ⟨rfl, rfl⟩, -, _, f₁, rfl, hi, rfl⟩ := h
  obtain ⟨n, rfl⟩ := Int.eq_ofNat_of_zero_le (Int.not_lt.1 hi)
  refine ⟨n, rfl, ?_⟩
  have hlen := length_makeRoom (n : Int) (slotsOf v).length f.locals
  have hroom := fun i => getD_makeRoom (n : Int) (slotsOf v).length i f.locals
  generalize hlocals : makeRoom (n : Int) (slotsOf v).length f.locals = locals at hlen hroom
  cases hw : v.isWide with
  | true =>
    simp only [slotsOf, hw, if_true, List.length_cons, List.length_nil, writeSlots,
      Int.toNat_natCast] at hlen ⊢
    refine ⟨rfl, ?_, fun _ => ?_, fun i hi hi' => ?_, ?_⟩
    · rw [localAt_natCast, List.getD, List.getElem?_set_ne (by omega), List.getElem?_set_self
        (by omega), Option.getD_some]
    · have hn : ((n : Int) + 1) = ((n + 1 : Nat) : Int) := by omega
      rw [hn, localAt_natCast, List.getD, List.getElem?_set_self (by rw [List.length_set]; omega),
        Option.getD_some]
    · have hi' := hi' hw
      rcases Int.lt_or_le i 0 with hneg | hpos
      · exact .inr (localAt_of_neg hneg)
      · obtain ⟨k, rfl⟩ := Int.eq_ofNat_of_zero_le hpos
        rw [localAt_natCast, localAt_natCast, List.getD, List.getElem?_set_ne (by omega),
          List.getElem?_set_ne (by omega)]
        exact hroom k
    · rw [hlocals, slotsOf, if_pos hw]
      rfl
  | false =>
    simp only [slotsOf, hw, Bool.false_eq_true, if_false, List.length_cons, List.length_nil,
      writeSlots, Int.toNat_natCast] at hlen ⊢
    refine ⟨rfl, ?_, fun h => absurd h (by simp [hw]), fun i hi _ => ?_, ?_⟩
    · rw [localAt_natCast, List.getD, List.getElem?_set_self (by omega), Option.getD_some]
    · rcases Int.lt_or_le i 0 with hneg | hpos
      · exact .inr (localAt_of_neg hneg)
      · obtain ⟨k, rfl⟩ := Int.eq_ofNat_of_zero_le hpos
        rw [localAt_natCast, localAt_natCast, List.getD, List.getElem?_set_ne (by omega)]
        exact hroom k
    · rw [hlocals, slotsOf, if_neg (by simp [hw])]
      rfl

end Frame

end InlinePlan
