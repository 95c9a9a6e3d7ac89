import InlinePlan.Proofs.Analysis.Operands

set_option autoImplicit false

/-! # What operations leave alone, and how they fail

Only a call adds to the calls that the analysis has reached, and all operations fail in the same few
ways but for some: only a load can find that a local has lost its second word, only a store meets a
negative slot, and so on. Both hold however the operation ends, so they are said of computations as a
whole: `Keeps`. -/

namespace InlinePlan

/-! ## Computations -/

/-- However computation `x` ends, what `view` shows of the state stays the same, and a fault
    satisfies `P`. -/
def Keeps {ε σ α γ : Type} (view : σ → γ) (P : ε → Prop) (x : EStateM ε σ α) : Prop :=
  ∀ s, match x s with
    | .ok _ s' => view s' = view s
    | .error e s' => view s' = view s ∧ P e

namespace Keeps

variable {ε σ α β γ : Type} {view : σ → γ} {P : ε → Prop} {x : EStateM ε σ α} {y : EStateM ε σ β}

theorem of_ok {s s' : σ} {a : α} (h : Keeps view P x) (hx : x s = .ok a s') : view s' = view s := by
  have hs := h s
  rwa [hx] at hs

theorem of_error {s s' : σ} {e : ε} (h : Keeps view P x) (hx : x s = .error e s') :
    view s' = view s ∧ P e := by
  have hs := h s
  rwa [hx] at hs

theorem pure {a : α} : Keeps view P (pure a : EStateM ε σ α) := fun _ => rfl

theorem throw {e : ε} (he : P e) : Keeps view P (throw e : EStateM ε σ α) := fun _ => ⟨rfl, he⟩

theorem get : Keeps view P (get : EStateM ε σ σ) := fun _ => rfl

theorem modify {f : σ → σ} (hf : ∀ s, view (f s) = view s) :
    Keeps view P (modify f : EStateM ε σ PUnit) := fun s => hf s

/-- A second part that may rely on what the first returns. -/
theorem chain {f : α → EStateM ε σ β} (hx : Keeps view P x)
    (hf : ∀ s a s', x s = .ok a s' → Keeps view P (f a)) : Keeps view P (x >>= f) := by
  intro s
  simp only [Bind.bind, EStateM.bind]
  have hs := hx s
  have hf := hf s
  revert hs hf
  cases x s with
  | ok a s₁ =>
    intro hview hf
    have hrest := hf a s₁ rfl s₁
    revert hrest
    dsimp only
    cases f a s₁ with
    | ok b s₂ => exact fun h₂ => h₂.trans hview
    | error e s₂ => exact fun h₂ => ⟨h₂.1.trans hview, h₂.2⟩
  | error e s₁ => exact fun hs _ => hs

theorem bind {f : α → EStateM ε σ β} (hx : Keeps view P x) (hf : ∀ a, Keeps view P (f a)) :
    Keeps view P (x >>= f) := hx.chain fun _ a _ _ => hf a

theorem discard (hx : Keeps view P x) : Keeps view P (discard x : EStateM ε σ PUnit) := by
  intro s
  have hs := hx s
  simp only [Functor.discard, Functor.mapConst, EStateM.map, Function.comp]
  revert hs
  cases x s <;> exact id

theorem ite {c : Prop} [Decidable c] {y : EStateM ε σ α} (hx : Keeps view P x)
    (hy : Keeps view P y) : Keeps view P (if c then x else y) := by
  split
  · exact hx
  · exact hy

/-- A check that fails with a fault. -/
theorem check {c : Prop} [Decidable c] {e : ε} {f : α → EStateM ε σ β} (he : c → P e)
    (hy : ¬c → Keeps view P y) : Keeps view P (if c then MonadExcept.throw e >>= f else y) := by
  split
  case isTrue hc => exact fun _ => ⟨rfl, he hc⟩
  case isFalse hc => exact hy hc

theorem guard {c : Prop} [Decidable c] {e : ε} {f : α → EStateM ε σ β} (he : P e)
    (hy : Keeps view P y) : Keeps view P (if c then MonadExcept.throw e >>= f else y) :=
  .check (fun _ => he) fun _ => hy

theorem mono {P' : ε → Prop} (h : Keeps view P x) (hP : ∀ e, P e → P' e) : Keeps view P' x := by
  intro s
  have hs := h s
  revert hs
  cases x s with
  | ok a s' => exact id
  | error e s' => exact fun hs => ⟨hs.1, hP e hs.2⟩

/-- A fault that the second part cannot have comes from the first. -/
theorem bind_error {f : α → EStateM ε σ β} {s s' : σ} {e : ε} (hf : ∀ a, Keeps view P (f a))
    (he : ¬P e) (h : (x >>= f) s = .error e s') : x s = .error e s' := by
  simp only [Bind.bind, EStateM.bind] at h
  cases hx : x s with
  | ok a s₁ =>
    simp only [hx] at h
    exact absurd ((hf a).of_error h).2 he
  | error e' s₁ =>
    simp only [hx] at h
    cases h
    rfl

/-- Nothing is seen of the state. -/
theorem blind (h : Keeps view P x) : Keeps (fun _ => ()) P x := by
  intro s
  have hs := h s
  revert hs
  cases x s with
  | ok a s' => exact fun _ => rfl
  | error e s' => exact fun hs => ⟨rfl, hs.2⟩

end Keeps

/-! ## Faults -/

namespace Fault

/-- The fault of a local that has lost its second word. -/
def isLoss : Fault → Bool
  | .lostSecondWord _ => true
  | _ => false

/-- A fault of code that does not verify, other than a loss. Such faults may arise anywhere. -/
def isPlain (e : Fault) : Bool := e.faultClass = .verify && !e.isLoss

/-- What a fault says about the operation at which it arises. -/
def Arises (s : Subject) (ins : Instruction) (o : Operation) : Fault → Prop
  | .lostSecondWord _ => ∃ k slot, o = .load k slot
  | .unresolvedRef r => s.options.strictMode = true ∧ r.unresolved = true ∧ ins.ref = some r
  | .dynamicCall => o = .invoke .dynamicCall
  | .subroutine _ => o = .callSubroutine ∨ o = .returnSubroutine
  | .negativeSlot i =>
    i < 0 ∧ ((∃ k slot, o = .store k slot ∧ i = ins.slot) ∨ o = .increment ∧ i = ins.index)
  | .noReceiver =>
    o = .invoke .staticCall
      ∧ ∃ r, ins.ref = some r ∧ r.kind = .method ∧ Step.isStringLength r = true
  | .noSuchOperand _ => False
  | .noRoom count => Frame.maxSlots < count ∧ ((∃ k slot, o = .store k slot ∧ count ≤ ins.slot + 2)
      ∨ (o = .increment ∧ count ≤ ins.index + 2) ∨ o = .newMultiArray ∧ count = ins.imm)
  | _ => True

/-- A fault of a store to slot `i`. -/
def OfStore (i : Int) : Fault → Prop
  | .negativeSlot j => i < 0 ∧ j = i
  | .noRoom count => Frame.maxSlots < count ∧ count ≤ i + 2
  | _ => False

theorem arises_of_isPlain {s : Subject} {ins : Instruction} {o : Operation} {e : Fault}
    (h : e.isPlain = true) : e.Arises s ins o := by
  cases e <;> first | exact trivial | cases h

theorem OfStore.arises {s : Subject} {ins : Instruction} {o : Operation} {e : Fault} {i : Int}
    (h : e.OfStore i)
    (ho : (∃ k slot, o = .store k slot ∧ i = ins.slot) ∨ o = .increment ∧ i = ins.index) :
    e.Arises s ins o := by
  cases e with
  | negativeSlot j =>
    obtain ⟨hi, rfl⟩ := h
    exact ⟨hi, ho⟩
  | noRoom count =>
    obtain ⟨hroom, hcount⟩ := h
    refine ⟨hroom, ?_⟩
    rcases ho with ⟨k, slot, ho, rfl⟩ | ⟨ho, rfl⟩
    · exact .inl ⟨k, slot, ho, hcount⟩
    · exact .inr (.inl ⟨ho, hcount⟩)
  | _ => cases h

end Fault

/-! ## Frames -/

namespace Frame

/-- An operation on frames that has only plain faults. -/
abbrev Lossless {α : Type} (x : FrameM α) : Prop := Keeps (fun _ => ()) (·.isPlain = true) x

variable {k : Kind} {v : Value}

theorem lossless_push : Lossless (push v) := .modify fun _ => rfl

theorem lossless_pushSlot : Lossless (pushSlot v) := .modify fun _ => rfl

theorem lossless_popSlot : Lossless popSlot := by
  rintro ⟨locals, stack⟩
  cases stack with
  | nil => exact ⟨rfl, rfl⟩
  | cons v vs => exact rfl

theorem lossless_pop : Lossless (pop k) := by
  have hrest : Lossless (do
      let v ← popSlot
      if v.isPad || v.kind ≠ k then throw (.wrongKind k v)
      return v) :=
    lossless_popSlot.bind fun _ => .guard rfl .pure
  unfold pop
  refine .ite (lossless_popSlot.bind fun _ => .guard rfl hrest) hrest

theorem lossless_popMany (count : Nat) (above : List Value) : Lossless (popMany k count above) := by
  induction count generalizing above with
  | zero => exact .pure
  | succ count ih => exact lossless_pop.bind fun v => ih (v :: above)

theorem lossless_popKinds (ks : List Kind) : Lossless (popKinds ks) := by
  induction ks with
  | nil => exact .pure
  | cons k ks ih => exact ih.bind fun _ => lossless_pop.discard

theorem lossless_popArgs (ts : List JavaType) : Lossless (Step.popArgs ts) := by
  induction ts with
  | nil => exact .pure
  | cons t ts ih => exact ih.bind fun _ => lossless_pop.bind fun _ => .pure

theorem lossless_popSlots (count : Nat) : Lossless (popSlots count) := by
  induction count with
  | zero => exact .pure
  | succ count ih => exact lossless_popSlot.bind fun _ => ih.bind fun _ => .pure

theorem lossless_pushSlots (vs : List Value) : Lossless (pushSlots vs) := by
  induction vs with
  | nil => exact .pure
  | cons v vs ih => exact lossless_pushSlot.bind fun _ => ih

theorem lossless_popSingle (op : Opcode) : Lossless (popSingle op) :=
  lossless_popSlot.bind fun _ => .guard rfl .pure

theorem lossless_shuffle (op : Opcode) (s : Shuffle) : Lossless (shuffle op s) :=
  (lossless_popSlots _).bind fun _ => .guard rfl (lossless_pushSlots _)

theorem length_slotsOf_le (v : Value) : (slotsOf v).length ≤ 2 := by
  unfold slotsOf
  split <;> simp

theorem keeps_store (i : Int) :
    Keeps (fun _ => ()) (fun e => e.isPlain = true ∨ e.OfStore i) (store i v) := by
  have hle := length_slotsOf_le v
  refine .bind .get fun f => .check (fun hroom => .inr ⟨hroom.2, by omega⟩) fun _ => ?_
  exact .bind (.modify fun _ => rfl) fun _ =>
    .check (fun hi => .inr ⟨hi, rfl⟩) fun _ => .modify fun _ => rfl

theorem keeps_load (i : Int) :
    Keeps (fun _ => ()) (fun e => e.isPlain = true ∨ e.isLoss = true) (load i k) :=
  .bind .get fun _ => .guard (.inl rfl) (.guard (.inr rfl) .pure)

/-- A local of one slot has no second word to lose. -/
theorem lossless_load (i : Int) (hk : k.wide = false) : Lossless (load i k) := by
  unfold load
  refine .bind .get fun f => .guard rfl ?_
  rw [hk, Bool.false_and, if_neg (by simp)]
  exact .pure

theorem keeps_increment (slot step : Int) :
    Keeps (fun _ => ()) (fun e => e.isPlain = true ∨ e.OfStore slot) (increment slot step) :=
  ((lossless_load slot rfl).mono fun _ => .inl).bind fun _ => keeps_store slot

theorem lossless_unary {r : Value → Value} : Lossless (do let a ← pop k; push (r a)) :=
  lossless_pop.bind fun _ => lossless_push

theorem lossless_binary {k' : Kind} {r : Value → Value → Value} :
    Lossless (do let b ← pop k; let a ← pop k'; push (r a b)) :=
  lossless_pop.bind fun _ => lossless_unary

theorem lossless_arrayStore : Lossless (arrayStore k) :=
  lossless_pop.discard.bind fun _ => lossless_pop.discard.bind fun _ => lossless_pop.discard

theorem lossless_newPrimitiveArray (code : Int) : Lossless (newPrimitiveArray code) := by
  unfold newPrimitiveArray
  split
  · exact .throw rfl
  · exact lossless_unary

theorem keeps_newMultiArray (cls : String) (dimensions : Int) :
    Keeps (fun _ => ())
      (fun e => e.isPlain = true ∨ maxSlots < dimensions ∧ e = .noRoom dimensions)
      (newMultiArray cls dimensions) := by
  refine .check (fun _ => .inl rfl) fun hpos => .bind ?_ fun _ => lossless_push.mono fun _ => .inl
  refine .check (fun hroom => .inr ⟨by omega, rfl⟩) fun _ => ?_
  exact (lossless_popMany _ _).mono fun _ => .inl

end Frame

/-! ## Machines -/

namespace Step

open InlinePlan.Frame

/-- A step that reaches no call and has only plain faults. -/
abbrev Callless {α : Type} (x : Step α) : Prop := Keeps Machine.calls (·.isPlain = true) x

variable {α : Type} {s : Subject} {ins : Instruction} {o : Operation} {k : Kind} {v : Value}

/-- Operations on the frame leave the records alone. -/
theorem keeps_liftM {P : Fault → Prop} {x : FrameM α} (hx : Keeps (fun _ => ()) P x) :
    Keeps Machine.calls P (liftM x : Step α) := by
  intro m
  have hm := hx m.frame
  have hlift : (liftM x : Step α) m = onFrame x m := rfl
  rw [hlift, onFrame]
  revert hm
  cases x m.frame with
  | ok a f => exact fun _ => rfl
  | error e f => exact fun hm => ⟨rfl, hm.2⟩

theorem callless_pop : Callless (liftM (Frame.pop k) : Step Value) := keeps_liftM lossless_pop

theorem callless_push : Callless (liftM (push v) : Step Unit) := keeps_liftM lossless_push

theorem callless_noteParam {ps : Nat → List Predicate} : Callless (noteParam v ps) := by
  unfold noteParam note
  split
  · exact .modify fun _ => rfl
  · exact .pure

theorem callless_warn {options : AnalysisOptions} {message : String} :
    Callless (warn options message) := .ite (.modify fun _ => rfl) .pure

theorem callless_classRef : Callless (classRef ins) := by
  unfold classRef
  split
  · exact .ite .pure (.throw rfl)
  · exact .throw rfl

theorem classRef_ok {r : SymbolRef} {m m' : Machine} (h : classRef ins m = .ok r m') :
    ins.ref = some r ∧ m' = m := by
  unfold classRef at h
  cases hr : ins.ref with
  | none => simp [hr] at h
  | some r' =>
    simp only [hr] at h
    split at h
    · obtain ⟨rfl, rfl⟩ := pure_eq_ok.1 h
      exact ⟨rfl, rfl⟩
    · exact absurd h (by simp)

theorem callless_newObjectArray : Callless (newObjectArray ins) :=
  callless_classRef.bind fun _ => callless_pop.bind fun _ => callless_push

theorem callless_arrayLength : Callless arrayLength :=
  callless_pop.bind fun _ => callless_noteParam.bind fun _ => callless_push

/-! ## References -/

theorem callless_unresolved {options : AnalysisOptions} {r : SymbolRef} :
    Keeps Machine.calls
      (fun e => e.isPlain = true ∨ options.strictMode = true ∧ e = .unresolvedRef r)
      (unresolved options ins r) := by
  unfold unresolved
  split
  case isTrue hstrict => exact .throw (.inr ⟨hstrict, rfl⟩)
  case isFalse => exact callless_warn.mono fun _ => .inl

/-- A step that reaches no call and fails as the operation may. -/
abbrev Fails (s : Subject) (ins : Instruction) (o : Operation) (x : Step α) : Prop :=
  Keeps Machine.calls (Fault.Arises s ins o) x

theorem Callless.fails {x : Step α} (h : Callless x) : Fails s ins o x :=
  h.mono fun _ => Fault.arises_of_isPlain

theorem fails_checkResolved {r : SymbolRef} (hr : ins.ref = some r) :
    Fails s ins o (checkResolved s ins r) := by
  unfold checkResolved
  split
  case isTrue hu =>
    refine callless_unresolved.mono ?_
    rintro e (he | ⟨hstrict, rfl⟩)
    · exact Fault.arises_of_isPlain he
    · exact ⟨hstrict, hu, hr⟩
  case isFalse => exact .pure

theorem fails_loadConstant : Fails s ins o (loadConstant s ins) := by
  unfold loadConstant
  split
  case h_1 => exact .throw trivial
  case h_2 r hr =>
    split
    · exact .throw trivial
    · exact .ite ((fails_checkResolved hr).bind fun _ => callless_push.fails) callless_push.fails

theorem fails_fieldAccess (ofObject isWrite : Bool) :
    Fails s ins o (fieldAccess s ins ofObject isWrite) := by
  have hpush (t : JavaType) : Callless (do
      if !isWrite then push (.top t.kind) : Step Unit) := .ite callless_push .pure
  have hobject (t : JavaType) : Callless (do
      if ofObject then
        let obj ← pop .ref
        noteParam obj Predicate.nullCheck
      if !isWrite then push (.top t.kind) : Step Unit) :=
    .ite (callless_pop.bind fun _ => callless_noteParam.bind fun _ => hpush t) (hpush t)
  have hvalue (t : JavaType) : Callless (do
      if isWrite then discard (pop t.kind)
      if ofObject then
        let obj ← pop .ref
        noteParam obj Predicate.nullCheck
      if !isWrite then push (.top t.kind) : Step Unit) :=
    .ite (callless_pop.discard.bind fun _ => hobject t) (hobject t)
  unfold fieldAccess
  split
  case h_1 => exact .throw trivial
  case h_2 r hr =>
    refine .guard trivial ?_
    split
    · exact .throw trivial
    · exact (fails_checkResolved hr).bind fun _ => (hvalue _).fails

/-- What is done with a class once its reference is checked. -/
theorem fails_checked {f : SymbolRef → Step Unit} (hf : ∀ r, Callless (f r)) :
    Fails s ins o (do let r ← classRef ins; checkResolved s ins r; f r) :=
  callless_classRef.fails.chain fun _ r _ hr =>
    (fails_checkResolved (classRef_ok hr).1).bind fun _ => (hf r).fails

theorem fails_newObject : Fails s ins o (newObject s ins) := fails_checked fun _ => callless_push

theorem fails_checkCast : Fails s ins o (checkCast s ins) :=
  fails_checked fun _ => callless_pop.bind fun _ => callless_noteParam.bind fun _ => callless_push

theorem fails_instanceOf : Fails s ins o (instanceOf s ins) :=
  fails_checked fun _ => callless_pop.bind fun _ => callless_noteParam.bind fun _ => callless_push

/-! ## Calls -/

theorem callless_popReceiver {kind : InvokeKind} : Callless (popReceiver kind) :=
  .ite (callless_pop.bind fun _ => callless_noteParam.bind fun _ => .pure) .pure

theorem popReceiver_ne_nil {kind : InvokeKind} {vs : List Value} {m m' : Machine}
    (hkind : kind.hasReceiver = true) (h : popReceiver kind m = .ok vs m') : vs ≠ [] := by
  simp only [popReceiver, hkind, if_true, bind_eq_ok, pure_eq_ok] at h
  obtain ⟨v, _, _, _, _, _, rfl, _⟩ := h
  exact List.cons_ne_nil _ _

theorem callless_intrinsic {site : CallSite} :
    Keeps Machine.calls
      (fun e => e = .noReceiver ∧ isStringLength site.ref = true ∧ site.args = [])
      (intrinsic site) := by
  unfold intrinsic
  split
  case isTrue hlen =>
    split
    case h_1 hargs => exact .throw ⟨rfl, hlen, hargs⟩
    case h_2 => exact .pure
  case isFalse => exact .ite .pure .pure

theorem callless_pushResult {t : JavaType} : Callless (pushResult s ins t v) :=
  .ite .pure (.ite (callless_warn.bind fun _ => callless_push) callless_push)

/-- A static call is the only one without a receiver that gets as far as its result. -/
theorem keeps_callResult {kind : InvokeKind} {site : CallSite} (hkind : kind ≠ .dynamicCall)
    (href : ins.ref = some site.ref) (hmethod : site.ref.kind = .method)
    (hargs : kind.hasReceiver = true → site.args ≠ []) :
    Keeps (fun _ => ()) (Fault.Arises s ins (.invoke kind)) (callResult s ins site) := by
  unfold callResult
  split
  case isTrue hu =>
    refine .bind (callless_unresolved.blind.mono ?_) fun _ => .pure
    rintro e (he | ⟨hstrict, rfl⟩)
    · exact Fault.arises_of_isPlain he
    · exact ⟨hstrict, hu, href⟩
  case isFalse =>
    refine .bind (fun _ => rfl) fun _ => (callless_intrinsic.blind.mono ?_).bind fun _ => .pure
    rintro e ⟨rfl, hlen, hnil⟩
    have hstatic : kind = .staticCall := by
      cases kind <;> first | rfl | exact absurd rfl hkind | exact absurd hnil (hargs rfl)
    exact ⟨by rw [hstatic], site.ref, href, hmethod, hlen⟩

theorem keeps_invoke {b : Nat} {fr : Int} {kind : InvokeKind} :
    Keeps (fun _ => ()) (Fault.Arises s ins (.invoke kind)) (invoke s b fr ins kind) := by
  have plain {α : Type} {x : Step α} (hx : Callless x) :
      Keeps (fun _ => ()) (Fault.Arises s ins (.invoke kind)) x := hx.fails.blind
  unfold invoke
  refine .check (fun hkind => by rw [hkind]; rfl) fun hkind => ?_
  split
  case h_1 => exact .throw trivial
  case h_2 r hr =>
    refine .check (fun _ => trivial) fun hmethod => ?_
    split
    · exact .throw trivial
    · refine (plain (keeps_liftM (lossless_popArgs _))).bind fun params => ?_
      refine (plain callless_popReceiver).chain fun _ receiver _ hreceiver => ?_
      refine .bind (keeps_callResult hkind hr (Decidable.not_not.1 hmethod) fun hk => ?_) fun _ =>
        plain callless_pushResult
      exact List.append_ne_nil_of_left_ne_nil (popReceiver_ne_nil hk hreceiver) _

/-! ## All operations -/

theorem fails_newMultiArray : Fails s ins .newMultiArray (newMultiArray ins) := by
  refine callless_classRef.fails.bind fun _ => (keeps_liftM (keeps_newMultiArray _ _)).mono ?_
  rintro e (he | ⟨hroom, rfl⟩)
  · exact Fault.arises_of_isPlain he
  · exact ⟨hroom, .inr (.inr ⟨rfl, rfl⟩)⟩

/-- All operations but calls. -/
theorem fails_transfer {b : Nat} {fr : Int} (hinvoke : ∀ kind, o ≠ .invoke kind) :
    Fails s ins o (transfer s b fr ins o) := by
  have plain {α : Type} {x : FrameM α} (hx : Lossless x) : Fails s ins o (liftM x : Step α) :=
    Callless.fails (keeps_liftM hx)
  cases o with
  | invoke kind => exact absurd rfl (hinvoke kind)
  | nop | jump | returnVoid => exact .pure
  | constNull | constInt v | constLong v | constFloating k | pushImmediate =>
    exact callless_push.fails
  | loadConstant => exact fails_loadConstant
  | load k slot =>
    refine .bind ((keeps_liftM (keeps_load _)).mono ?_) fun _ => callless_push.fails
    rintro e (he | he)
    · exact Fault.arises_of_isPlain he
    · cases e with
      | lostSecondWord i => exact ⟨k, slot, rfl⟩
      | _ => cases he
  | store k slot =>
    refine callless_pop.fails.bind fun _ => (keeps_liftM (keeps_store _)).mono ?_
    rintro e (he | he)
    · exact Fault.arises_of_isPlain he
    · exact he.arises (.inl ⟨k, slot, rfl, rfl⟩)
  | arrayLoad e => exact plain (lossless_binary (r := fun _ _ => e.value))
  | arrayStore k => exact plain lossless_arrayStore
  | pop => exact (plain (lossless_popSingle _)).discard
  | dup =>
    exact (plain (lossless_popSingle _)).bind fun _ =>
      (plain lossless_pushSlot).bind fun _ => plain lossless_pushSlot
  | shuffle p => exact plain (lossless_shuffle _ _)
  | arith w f => exact plain lossless_binary
  | shift w f => exact plain lossless_binary
  | negate w => exact plain lossless_unary
  | floatArith k => exact plain (lossless_binary (r := fun _ _ => .top k))
  | increment =>
    refine (keeps_liftM (keeps_increment _ _)).mono ?_
    rintro e (he | he)
    · exact Fault.arises_of_isPlain he
    · exact he.arises (.inr ⟨rfl, rfl⟩)
  | convert c => exact plain lossless_unary
  | compareLong => exact plain lossless_binary
  | compareFloating k => exact plain (lossless_binary (r := fun _ _ => anyOrder))
  | testZero c | testNull isNull =>
    exact Callless.fails (callless_pop.bind fun _ => callless_noteParam)
  | testInts c | testRefs c | switch | returnValue k | monitor => exact plain (lossless_popKinds _)
  | callSubroutine => exact .throw (.inl rfl)
  | returnSubroutine => exact .throw (.inr rfl)
  | widePrefix => exact .throw trivial
  | readField ofObject | writeField ofObject => exact fails_fieldAccess _ _
  | newObject => exact fails_newObject
  | newPrimitiveArray => exact plain (lossless_newPrimitiveArray _)
  | newObjectArray => exact callless_newObjectArray.fails
  | newMultiArray => exact fails_newMultiArray
  | arrayLength => exact callless_arrayLength.fails
  | throwObject =>
    exact (Callless.fails callless_pop.discard).bind fun _ => plain (.modify fun _ => rfl)
  | checkCast => exact fails_checkCast
  | instanceOf => exact fails_instanceOf

/-- Only a call is reported. -/
theorem keeps_calls_transfer {b : Nat} {fr : Int} (hinvoke : ∀ kind, o ≠ .invoke kind) :
    Keeps Machine.calls (fun _ => True) (transfer s b fr ins o) :=
  (fails_transfer hinvoke).mono fun _ _ => trivial

theorem arises_of_transfer {b : Nat} {fr : Int} {m m' : Machine} {e : Fault}
    (h : transfer s b fr ins o m = .error e m') : e.Arises s ins o := by
  by_cases hinvoke : ∃ kind, o = .invoke kind
  · obtain ⟨kind, rfl⟩ := hinvoke
    exact (keeps_invoke.of_error h).2
  · exact ((fails_transfer fun kind ho => hinvoke ⟨kind, ho⟩).of_error h).2

/-- Checking the depth of the stack fails in a way of its own. -/
theorem callless_depth : Callless (do
    let m ← get
    if 0 < s.options.maxStackDepth ∧ s.options.maxStackDepth < m.frame.depth then
      throw (.tooDeep m.frame.depth s.options.maxStackDepth) : Step Unit) :=
  .bind .get fun _ => .ite (.throw rfl) .pure

/-- An instruction fails since its opcode is not defined, or as its operation may. -/
theorem step_error {b : Nat} {fr : Int} {m m' : Machine} {e : Fault}
    (h : step s b fr ins m = .error e m') :
    e.isPlain = true ∨ ∃ o, ins.op.operation? = some o ∧ e.Arises s ins o
      ∧ transfer s b fr ins o m = .error e m' := by
  unfold step at h
  cases ho : ins.op.operation? with
  | none =>
    simp only [ho] at h
    cases h
    exact .inl rfl
  | some o =>
    simp only [ho] at h
    by_cases he : e.isPlain = true
    · exact .inl he
    · have h := Keeps.bind_error (fun _ => callless_depth) he h
      exact .inr ⟨o, rfl, arises_of_transfer h, h⟩

/-- Only a load finds a second word lost. -/
theorem load_of_loss {b : Nat} {fr : Int} {m m' : Machine} {e : Fault} (he : e.isLoss = true)
    (h : step s b fr ins m = .error e m') :
    ∃ k f, Frame.load ins.slot k m.frame = .error e f := by
  have hplain : ¬e.isPlain = true := by simp [Fault.isPlain, he]
  rcases step_error h with hp | ⟨o, -, harises, h⟩
  · exact absurd hp hplain
  · obtain ⟨k, slot, rfl⟩ : ∃ k slot, o = .load k slot := by
      cases e with
      | lostSecondWord i => exact harises
      | _ => cases he
    have h := Keeps.bind_error (fun _ => callless_push) hplain h
    have hlift : (liftM (Frame.load ins.slot k) : Step Value) m
        = onFrame (Frame.load ins.slot k) m := rfl
    rw [hlift, onFrame] at h
    cases hf : Frame.load ins.slot k m.frame with
    | ok v f => simp [hf] at h
    | error e' f =>
      simp only [hf] at h
      cases h
      exact ⟨k, f, hf⟩

end Step

end InlinePlan
