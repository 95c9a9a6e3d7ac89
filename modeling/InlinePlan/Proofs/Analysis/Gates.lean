import InlinePlan.Proofs.Analysis.Effect
import InlinePlan.Proofs.Analysis.Trace

set_option autoImplicit false

/-! # What the options decide

The options of the analysis only decide whether an instruction may pass. Compared with the run under
options that rule nothing out, a run under any options does the same, instruction by instruction, up
to the first one that its options hold up: one that meets an unresolved reference in strict mode, or
one that leaves too deep a stack. Only the warnings differ. `Gated` says so of a computation and its
free counterpart; the instructions `due` are those that meet an unresolved reference. -/

namespace InlinePlan

/-! ## Warnings about unresolved references -/

/-- The warning about the unresolved reference of an instruction. -/
def Instruction.notice (ins : Instruction) : String :=
  "bci " ++ toString ins.bci ++ ": unresolved " ++ SymbolRef.textOf ins.ref ++ ", widening to top"

/-- Whether a warning is about an unresolved reference. The text after the first colon says so. -/
def isNotice (warning : String) : Bool :=
  ": unresolved ".toList.isPrefixOf (warning.toList.dropWhile (· ≠ ':'))

theorem colon_notMem_toString (n : Int) : ':' ∉ (toString n).toList := by
  have hdigits (k : Nat) : ':' ∉ (Nat.repr k).toList := by
    rw [Nat.toList_repr]
    intro hmem
    have hdigit := Nat.isDigit_of_mem_toDigits (by decide) (by decide) hmem
    exact absurd hdigit (by decide)
  rw [Int.toString_eq_repr, Int.repr_eq_if]
  split
  · exact hdigits _
  · rw [String.toList_append, List.mem_append, not_or]
    exact ⟨by decide, hdigits _⟩

/-- The colon after the offset is the first one. -/
theorem dropWhile_offset (n : Int) (text : String) (htext : text.toList.head? = some ':')
    (rest : String) :
    ("bci " ++ toString n ++ text ++ rest).toList.dropWhile (· ≠ ':')
      = text.toList ++ rest.toList := by
  have hpre : ∀ c ∈ ("bci " ++ toString n).toList, decide (c ≠ ':') = true := by
    intro c hc
    rw [String.toList_append, List.mem_append] at hc
    rw [decide_eq_true_eq]
    rintro rfl
    exact hc.elim (by decide) (colon_notMem_toString n)
  rw [String.toList_append, String.toList_append, List.append_assoc,
    List.dropWhile_append_of_pos hpre]
  cases hcs : text.toList with
  | nil => simp [hcs] at htext
  | cons c cs =>
    rw [hcs, List.head?_cons, Option.some.injEq] at htext
    rw [htext]
    rfl

theorem isNotice_notice (ins : Instruction) : isNotice ins.notice = true := by
  unfold isNotice Instruction.notice
  rw [String.append_assoc, dropWhile_offset _ ": unresolved " rfl, List.isPrefixOf_iff_prefix]
  exact List.prefix_append _ _

/-- The other warning, about the answer of a visitor, is no notice. -/
theorem isNotice_answer (n : Int) (rest : String) :
    isNotice ("bci " ++ toString n ++ ": visitor returned " ++ rest) = false := by
  unfold isNotice
  rw [dropWhile_offset _ ": visitor returned " rfl]
  rfl

/-! ## Computations that ignore the warnings -/

/-- The machine without its warnings. -/
def Machine.quiet (m : Machine) : Machine := { m with warnings := [] }

theorem Machine.quiet_eq_iff {m n : Machine} :
    m.quiet = n.quiet ↔ m.frame = n.frame ∧ m.predicates = n.predicates ∧ m.calls = n.calls := by
  simp [quiet]

/-- A computation that neither reads nor writes the warnings. -/
def Blind {α : Type} (x : Step α) : Prop :=
  ∀ m ws, x { m with warnings := ws } = match x m with
    | .ok a m' => .ok a { m' with warnings := ws }
    | .error e m' => .error e { m' with warnings := ws }

namespace Blind

variable {α β : Type} {x : Step α}

theorem pure {a : α} : Blind (pure a) := fun _ _ => rfl

theorem throw {e : Fault} : Blind (throw e : Step α) := fun _ _ => rfl

theorem bind {f : α → Step β} (hx : Blind x) (hf : ∀ a, Blind (f a)) : Blind (x >>= f) := by
  intro m ws
  simp only [Bind.bind, EStateM.bind, hx m ws]
  cases x m with
  | ok a m' => exact hf a m' ws
  | error e m' => rfl

theorem discard (hx : Blind x) : Blind (discard x) := by
  intro m ws
  simp only [Functor.discard, Functor.mapConst, EStateM.map, Function.comp, hx m ws]
  cases x m <;> rfl

theorem ite {c : Prop} [Decidable c] {y : Step α} (hx : Blind x) (hy : Blind y) :
    Blind (if c then x else y) := by
  split
  · exact hx
  · exact hy

/-- Operations on the frame do not see the records. -/
theorem liftM {x : FrameM α} : Blind (liftM x : Step α) := by
  intro m ws
  show Step.onFrame x _ = match Step.onFrame x m with
    | .ok a m' => .ok a { m' with warnings := ws }
    | .error e m' => .error e { m' with warnings := ws }
  unfold Step.onFrame
  dsimp only
  cases x m.frame <;> rfl

/-- The warnings stay as they are. -/
theorem warnings {m m' : Machine} {a : α} (h : Blind x) (hx : x m = .ok a m') :
    m'.warnings = m.warnings := by
  have hm := h m m.warnings
  rw [hx] at hm
  simp only [EStateM.Result.ok.injEq, true_and] at hm
  have hwarnings := congrArg Machine.warnings hm
  exact hwarnings

/-- The same happens to a machine with other warnings. -/
theorem quiet {m m₀ m' : Machine} {a : α} (h : Blind x) (hm : m.quiet = m₀.quiet)
    (hx : x m = .ok a m') : ∃ m₀', x m₀ = .ok a m₀' ∧ m'.quiet = m₀'.quiet := by
  have heq : m₀ = { m with warnings := m₀.warnings } := by
    obtain ⟨hframe, hpreds, hcalls⟩ := Machine.quiet_eq_iff.1 hm
    rw [hframe, hpreds, hcalls]
  rw [heq, h m m₀.warnings, hx]
  exact ⟨_, rfl, rfl⟩

end Blind

namespace Step

variable {s : Subject} {ins : Instruction} {v : Value}

theorem blind_noteParam {ps : Nat → List Predicate} : Blind (noteParam v ps) := by
  unfold noteParam note
  split
  · exact fun _ _ => rfl
  · exact .pure

theorem blind_classRef : Blind (classRef ins) := by
  unfold classRef
  split
  · exact .ite .pure .throw
  · exact .throw

theorem blind_popReceiver {kind : InvokeKind} : Blind (popReceiver kind) :=
  .ite (Blind.liftM.bind fun _ => blind_noteParam.bind fun _ => .pure) .pure

theorem blind_intrinsic {site : CallSite} : Blind (intrinsic site) := by
  unfold intrinsic
  split
  · split
    · exact .throw
    · exact .pure
  · exact .ite .pure .pure

end Step

/-! ## Computations under options and without -/

/-- The options that rule nothing out and report nothing. -/
def AnalysisOptions.free : AnalysisOptions :=
  { strictMode := false, enableWarnings := false, maxStackDepth := 0 }

/-- The subject under other options. -/
def Subject.under (s : Subject) (options : AnalysisOptions) : Subject := { s with options }

/-- The notices among the warnings grow by those of the instructions `due`, if warnings are on. -/
def Told (options : AnalysisOptions) (due : List Instruction) (ws ws' : List String) : Prop :=
  ws'.filter isNotice
    = ws.filter isNotice ++ if options.enableWarnings then due.map (·.notice) else []

theorem Told.nil {options : AnalysisOptions} {ws : List String} : Told options [] ws ws := by
  simp [Told]

theorem Told.trans {options : AnalysisOptions} {due due' : List Instruction}
    {ws ws' ws'' : List String} (h : Told options due ws ws') (h' : Told options due' ws' ws'') :
    Told options (due ++ due') ws ws'' := by
  unfold Told at h h' ⊢
  rw [h', h]
  split <;> simp

/-- Computation `x` under some options and its free counterpart `x₀` differ in their warnings only,
    unless `x` is held up since instructions are `due` in strict mode. -/
structure Gated {α : Type} (options : AnalysisOptions) (due : List Instruction)
    (x x₀ : Step α) : Prop where
  freed : ∀ m m₀ a m', m.quiet = m₀.quiet → x m = .ok a m' →
    (options.strictMode = true → due = []) ∧ Told options due m.warnings m'.warnings
      ∧ ∃ m₀', x₀ m₀ = .ok a m₀' ∧ m'.quiet = m₀'.quiet
  bound : ∀ m m₀ a m₀', m.quiet = m₀.quiet → (options.strictMode = true → due = []) →
    x₀ m₀ = .ok a m₀' → ∃ m', x m = .ok a m' ∧ m'.quiet = m₀'.quiet

namespace Gated

variable {α β : Type} {options : AnalysisOptions} {due due' : List Instruction} {x x₀ : Step α}

theorem of_blind (h : Blind x) : Gated options [] x x where
  freed m m₀ a m' hm hx := by
    refine ⟨fun _ => rfl, ?_, h.quiet hm hx⟩
    rw [h.warnings hx]
    exact Told.nil
  bound m m₀ a m₀' hm _ hx := by
    obtain ⟨m', hx', hm'⟩ := h.quiet hm.symm hx
    exact ⟨m', hx', hm'.symm⟩

theorem throw {e : Fault} : Gated options due (throw e : Step α) (MonadExcept.throw e) where
  freed _ _ _ _ _ hx := absurd hx (by simp)
  bound _ _ _ _ _ _ hx := absurd hx (by simp)

/-- A check that fails with a fault. -/
theorem guard {c : Prop} [Decidable c] {e : Fault} {f f₀ : β → Step α} (hx : Gated options due x x₀) :
    Gated options due (if c then MonadExcept.throw e >>= f else x)
      (if c then MonadExcept.throw e >>= f₀ else x₀) := by
  split
  · exact ⟨fun _ _ _ _ _ h => absurd h (by simp), fun _ _ _ _ _ _ h => absurd h (by simp)⟩
  · exact hx

/-- The second part may rely on what the first returns. -/
theorem bind {f f₀ : α → Step β} (hx : Gated options due x x₀)
    (hf : ∀ a m m', x m = .ok a m' → Gated options due' (f a) (f₀ a)) :
    Gated options (due ++ due') (x >>= f) (x₀ >>= f₀) where
  freed m m₀ b m'' hm h := by
    obtain ⟨a, m', hx', h⟩ := bind_eq_ok.1 h
    obtain ⟨hnil, htold, m₀', hx₀, hm'⟩ := hx.freed m m₀ a m' hm hx'
    obtain ⟨hnil', htold', m₀'', hf₀, hm''⟩ := (hf a m m' hx').freed m' m₀' b m'' hm' h
    refine ⟨fun hs => ?_, htold.trans htold', m₀'', bind_eq_ok.2 ⟨a, m₀', hx₀, hf₀⟩, hm''⟩
    rw [hnil hs, hnil' hs, List.append_nil]
  bound m m₀ b m₀'' hm hdue h := by
    have hnil : options.strictMode = true → due = [] := fun hs =>
      (List.append_eq_nil_iff.1 (hdue hs)).1
    have hnil' : options.strictMode = true → due' = [] := fun hs =>
      (List.append_eq_nil_iff.1 (hdue hs)).2
    obtain ⟨a, m₀', hx₀, h⟩ := bind_eq_ok.1 h
    obtain ⟨m', hx', hm'⟩ := hx.bound m m₀ a m₀' hm hnil hx₀
    obtain ⟨m'', hf', hm''⟩ := (hf a m m' hx').bound m' m₀' b m₀'' hm' hnil' h
    exact ⟨m'', bind_eq_ok.2 ⟨a, m', hx', hf'⟩, hm''⟩

/-- A first part that the options do not concern. -/
theorem after {f f₀ : α → Step β} (hx : Blind x)
    (hf : ∀ a m m', x m = .ok a m' → Gated options due (f a) (f₀ a)) :
    Gated options due (x >>= f) (x >>= f₀) := (of_blind hx).bind hf

/-- A last part that the options do not concern. -/
theorem followed {f : α → Step β} (hx : Gated options due x x₀) (hf : ∀ a, Blind (f a)) :
    Gated options due (x >>= f) (x₀ >>= f) := by
  have hbind := hx.bind fun a _ _ _ => of_blind (hf a)
  rwa [List.append_nil] at hbind

end Gated

/-! ## References -/

namespace Instruction

/-- Whether the operation of the instruction looks at the reference and finds it unresolved. -/
def meetsUnresolved (ins : Instruction) : Operation → Bool
  | .loadConstant => ins.ref.any fun r => r.kind = .cls && r.unresolved
  | .readField _ | .writeField _ | .invoke _ | .newObject | .checkCast | .instanceOf =>
    ins.ref.any (·.unresolved)
  | _ => false

/-- The instruction if its operation meets an unresolved reference. -/
def dueAt (ins : Instruction) (o : Operation) : List Instruction :=
  if ins.meetsUnresolved o then [ins] else []

/-- Whether the instruction meets an unresolved reference. -/
def isDoubtful (ins : Instruction) : Bool := ins.op.operation?.any ins.meetsUnresolved

end Instruction

namespace Step

open InlinePlan.Frame

variable {s : Subject} {options : AnalysisOptions} {ins : Instruction} {b : Nat} {fr : Int}

theorem gated_warn {message : String} (h : isNotice message = false) :
    Gated options [] (warn options message) (warn .free message) := by
  show Gated options [] (warn options message) (pure ())
  unfold warn
  split
  · refine ⟨fun m m₀ _ m' hm hx => ?_, fun m m₀ _ m₀' hm _ hx => ?_⟩
    · rw [modify_eq_ok] at hx
      subst hx
      exact ⟨fun _ => rfl, by simp [Told, h], m₀, rfl, hm⟩
    · obtain ⟨-, rfl⟩ := pure_eq_ok.1 hx
      exact ⟨_, rfl, hm⟩
  · exact .of_blind .pure

/-- An unresolved reference is a fault or a notice. -/
theorem gated_unresolved {r : SymbolRef} (hr : ins.ref = some r) :
    Gated options [ins] (unresolved options ins r) (unresolved .free ins r) := by
  have hnotice : "bci " ++ toString ins.bci ++ ": unresolved " ++ r.text ++ ", widening to top"
      = ins.notice := by rw [Instruction.notice, hr]; rfl
  have hfree : unresolved .free ins r = pure () := rfl
  rw [hfree]
  unfold unresolved
  rw [hnotice]
  split
  case isTrue hstrict =>
    exact ⟨fun _ _ _ _ _ hx => absurd hx (by simp), fun _ _ _ _ _ hdue => nomatch hdue hstrict⟩
  case isFalse hlax =>
    unfold warn
    split
    case isTrue hwarn =>
      refine ⟨fun m m₀ _ m' hm hx => ?_, fun m m₀ _ m₀' hm _ hx => ?_⟩
      · rw [modify_eq_ok] at hx
        subst hx
        exact ⟨fun hs => absurd hs hlax, by simp [Told, isNotice_notice, hwarn], m₀, rfl, hm⟩
      · obtain ⟨-, rfl⟩ := pure_eq_ok.1 hx
        exact ⟨_, rfl, hm⟩
    case isFalse hwarn =>
      refine ⟨fun m m₀ _ m' hm hx => ?_, fun m m₀ _ m₀' hm _ hx => ?_⟩
      · obtain ⟨-, rfl⟩ := pure_eq_ok.1 hx
        exact ⟨fun hs => absurd hs hlax, by simp [Told, hwarn], m₀, rfl, hm⟩
      · obtain ⟨-, rfl⟩ := pure_eq_ok.1 hx
        exact ⟨m, rfl, hm⟩

theorem gated_checkResolved {r : SymbolRef} (hr : ins.ref = some r) :
    Gated options (if r.unresolved then [ins] else []) (checkResolved (s.under options) ins r)
      (checkResolved (s.under .free) ins r) := by
  unfold checkResolved
  split
  · exact gated_unresolved hr
  · exact .of_blind .pure

theorem gated_loadConstant :
    Gated options (ins.dueAt .loadConstant) (loadConstant (s.under options) ins)
      (loadConstant (s.under .free) ins) := by
  unfold loadConstant
  cases hr : ins.ref with
  | none => exact .throw
  | some r =>
    dsimp only
    cases constantValue? ins r with
    | none => exact .throw
    | some v =>
      have hdue : ins.dueAt .loadConstant
          = if r.kind = .cls then (if r.unresolved then [ins] else []) else [] := by
        by_cases hk : r.kind = .cls <;> simp [Instruction.dueAt, Instruction.meetsUnresolved, hr, hk]
      rw [hdue]
      dsimp only
      split
      · exact (gated_checkResolved hr).followed fun _ => .liftM
      · exact .of_blind .liftM

/-- The instructions that are due where the reference is always looked at. -/
theorem dueAt_of_any {o : Operation} {r : SymbolRef}
    (ho : ins.meetsUnresolved o = ins.ref.any (·.unresolved)) (hr : ins.ref = some r) :
    ins.dueAt o = if r.unresolved then [ins] else [] := by
  rw [Instruction.dueAt, ho, hr, Option.any_some]

theorem gated_fieldAccess {o : Operation} (ofObject isWrite : Bool)
    (ho : ins.meetsUnresolved o = ins.ref.any (·.unresolved)) :
    Gated options (ins.dueAt o) (fieldAccess (s.under options) ins ofObject isWrite)
      (fieldAccess (s.under .free) ins ofObject isWrite) := by
  have hpush (t : JavaType) : Blind (do
      if !isWrite then push (.top t.kind) : Step Unit) := .ite .liftM .pure
  have hobject (t : JavaType) : Blind (do
      if ofObject then
        let obj ← pop .ref
        noteParam obj Predicate.nullCheck
      if !isWrite then push (.top t.kind) : Step Unit) :=
    .ite (Blind.liftM.bind fun _ => blind_noteParam.bind fun _ => hpush t) (hpush t)
  unfold fieldAccess
  cases hr : ins.ref with
  | none => exact .throw
  | some r =>
    refine .guard ?_
    cases JavaType.parse r.descriptor with
    | error e => exact .throw
    | ok t =>
      rw [dueAt_of_any ho hr]
      exact (gated_checkResolved hr).followed fun _ =>
        .ite (Blind.liftM.discard.bind fun _ => hobject t) (hobject t)

/-- What is done with a class once its reference is checked. -/
theorem gated_checked {o : Operation} {f : SymbolRef → Step Unit}
    (ho : ins.meetsUnresolved o = ins.ref.any (·.unresolved)) (hf : ∀ r, Blind (f r)) :
    Gated options (ins.dueAt o)
      (do let r ← classRef ins; checkResolved (s.under options) ins r; f r)
      (do let r ← classRef ins; checkResolved (s.under .free) ins r; f r) := by
  refine .after blind_classRef fun r m m' hclass => ?_
  obtain ⟨hr, -⟩ := classRef_ok hclass
  rw [dueAt_of_any ho hr]
  exact (gated_checkResolved hr).followed fun _ => hf r

/-! ## Calls -/

theorem gated_callResult {site : CallSite} {r : SymbolRef} (hsite : site.ref = r)
    (hr : ins.ref = some r) :
    Gated options (if r.unresolved then [ins] else [])
      (callResult (s.under options) ins site) (callResult (s.under .free) ins site) := by
  subst hsite
  unfold callResult
  split
  · exact (gated_unresolved hr).followed fun _ => .pure
  · refine .of_blind (Blind.bind (fun _ _ => rfl) fun _ => ?_)
    exact blind_intrinsic.bind fun _ => .pure

theorem gated_pushResult {t : JavaType} {v : Value} :
    Gated options [] (pushResult (s.under options) ins t v) (pushResult (s.under .free) ins t v) := by
  have hnotice : isNotice ("bci " ++ toString ins.bci ++ ": visitor returned " ++ v.text ++ " for "
      ++ t.text ++ ", using top") = false := by
    rw [String.append_assoc, String.append_assoc, String.append_assoc]
    exact isNotice_answer _ _
  unfold pushResult
  generalize (if fitsResult t v then v.unmarked else .top t.kind) = result
  split
  · exact .of_blind .pure
  · split
    · exact (gated_warn hnotice).followed fun _ => .liftM
    · exact .of_blind .liftM

theorem gated_invoke {kind : InvokeKind} :
    Gated options (ins.dueAt (.invoke kind)) (invoke (s.under options) b fr ins kind)
      (invoke (s.under .free) b fr ins kind) := by
  unfold invoke
  refine .guard ?_
  cases hr : ins.ref with
  | none => exact .throw
  | some r =>
    refine .guard ?_
    cases Signature.parse r.descriptor with
    | error e => exact .throw
    | ok sig =>
      rw [dueAt_of_any rfl hr]
      refine .after .liftM fun params _ _ _ => .after blind_popReceiver fun receiver _ _ _ => ?_
      rw [← List.append_nil (ite _ _ _)]
      exact .bind (gated_callResult rfl hr) fun _ _ _ _ => gated_pushResult

/-! ## All operations -/

theorem gated_transfer {o : Operation} :
    Gated options (ins.dueAt o) (transfer (s.under options) b fr ins o)
      (transfer (s.under .free) b fr ins o) := by
  cases o with
  | loadConstant => exact gated_loadConstant
  | readField ofObject | writeField ofObject => exact gated_fieldAccess _ _ rfl
  | invoke kind => exact gated_invoke
  | newObject => exact gated_checked rfl fun _ => .liftM
  | checkCast | instanceOf =>
    exact gated_checked rfl fun _ =>
      Blind.liftM.bind fun _ => blind_noteParam.bind fun _ => .liftM
  -- the other operations do not look at the options
  | nop | jump | returnVoid => exact .of_blind .pure
  | callSubroutine | returnSubroutine | widePrefix => exact .of_blind .throw
  | load k slot | store k slot => exact .of_blind (Blind.liftM.bind fun _ => .liftM)
  | pop => exact .of_blind (Blind.discard .liftM)
  | dup => exact .of_blind (Blind.liftM.bind fun _ => Blind.liftM.bind fun _ => .liftM)
  | testZero c | testNull isNull => exact .of_blind (Blind.liftM.bind fun _ => blind_noteParam)
  | newObjectArray =>
    exact .of_blind (blind_classRef.bind fun _ => Blind.liftM.bind fun _ => .liftM)
  | newMultiArray => exact .of_blind (blind_classRef.bind fun _ => .liftM)
  | arrayLength =>
    exact .of_blind (Blind.liftM.bind fun _ => blind_noteParam.bind fun _ => .liftM)
  | throwObject => exact .of_blind ((Blind.discard .liftM).bind fun _ => .liftM)
  | _ => exact .of_blind .liftM

/-! ## Instructions -/

theorem step_eq_ok {u : Unit} {m m' : Machine} :
    step s b fr ins m = .ok u m' ↔ ∃ o, ins.op.operation? = some o
      ∧ transfer s b fr ins o m = .ok () m'
      ∧ (0 < s.options.maxStackDepth → m'.frame.depth ≤ s.options.maxStackDepth) := by
  unfold step
  cases ho : ins.op.operation? with
  | none => simp
  | some o =>
    simp only [bind_eq_ok, get_eq_ok, Option.some.injEq, exists_eq_left']
    constructor
    · rintro ⟨_, m₁, ht, _, _, ⟨rfl, rfl⟩, h⟩
      split at h
      · exact absurd h (by simp)
      case isFalse hdepth =>
        obtain ⟨-, rfl⟩ := pure_eq_ok.1 h
        exact ⟨ht, fun hpos => Int.not_lt.1 fun hlt => hdepth ⟨hpos, hlt⟩⟩
    · rintro ⟨ht, hdepth⟩
      refine ⟨(), m', ht, m', m', ⟨rfl, rfl⟩, ?_⟩
      rw [if_neg fun h => Int.not_lt.2 (hdepth h.1) h.2]
      rfl

end Step

/-- What passes under the options: an instruction that leaves a stack of the given depth. -/
structure AnalysisOptions.Passes (options : AnalysisOptions) (ins : Instruction) (depth : Nat) :
    Prop where
  resolved : options.strictMode = true → ins.isDoubtful = false
  shallow : 0 < options.maxStackDepth → depth ≤ options.maxStackDepth

section Steps

variable {s : Subject} {options options' : AnalysisOptions} {ins : Instruction} {b : Nat} {fr : Int}
  {m n m₀ m' m₀' : Machine} {u : Unit}

theorem isDoubtful_of_operation? {o : Operation} (ho : ins.op.operation? = some o) :
    ins.isDoubtful = ins.meetsUnresolved o := by
  rw [Instruction.isDoubtful, ho, Option.any_some]

theorem dueAt_eq_nil_iff {o : Operation} : ins.dueAt o = [] ↔ ins.meetsUnresolved o = false := by
  unfold Instruction.dueAt
  split <;> simp_all

/-- An instruction that passes under some options does the same without. -/
theorem step_freed (hm : m.quiet = m₀.quiet)
    (h : Step.step (s.under options) b fr ins m = .ok u m') :
    options.Passes ins m'.frame.depth
      ∧ Told options (if ins.isDoubtful then [ins] else []) m.warnings m'.warnings
      ∧ ∃ m₀', Step.step (s.under .free) b fr ins m₀ = .ok u m₀' ∧ m'.quiet = m₀'.quiet := by
  obtain ⟨o, ho, ht, hdepth⟩ := Step.step_eq_ok.1 h
  obtain ⟨hnil, htold, m₀', ht₀, hm'⟩ := Step.gated_transfer.freed m m₀ () m' hm ht
  have hdoubtful := isDoubtful_of_operation? ho
  refine ⟨⟨fun hs => ?_, hdepth⟩, ?_, m₀', ?_, hm'⟩
  · rw [hdoubtful]
    exact dueAt_eq_nil_iff.1 (hnil hs)
  · rw [hdoubtful]
    exact htold
  · refine Step.step_eq_ok.2 ⟨o, ho, ht₀, fun hpos => ?_⟩
    cases hpos

/-- An instruction does the same under options that let it pass. -/
theorem step_bound (hm : m.quiet = m₀.quiet)
    (h : Step.step (s.under .free) b fr ins m₀ = .ok u m₀')
    (hpass : options.Passes ins m₀'.frame.depth) :
    ∃ m', Step.step (s.under options) b fr ins m = .ok u m' ∧ m'.quiet = m₀'.quiet := by
  obtain ⟨o, ho, ht, -⟩ := Step.step_eq_ok.1 h
  have hnil : options.strictMode = true → ins.dueAt o = [] := fun hs => by
    rw [dueAt_eq_nil_iff, ← isDoubtful_of_operation? ho]
    exact hpass.resolved hs
  obtain ⟨m', ht', hm'⟩ := Step.gated_transfer.bound m m₀ () m₀' hm hnil ht
  have hframe := (Machine.quiet_eq_iff.1 hm').1
  exact ⟨m', Step.step_eq_ok.2 ⟨o, ho, ht', by rw [hframe]; exact hpass.shallow⟩, hm'⟩

theorem step_transport (hpass : ∀ d, options.Passes ins d → options'.Passes ins d)
    (hm : m.quiet = n.quiet) (h : Step.step (s.under options) b fr ins m = .ok u m') :
    ∃ n', Step.step (s.under options') b fr ins n = .ok u n' ∧ m'.quiet = n'.quiet := by
  obtain ⟨hpassed, -, m₀', h₀, hm'⟩ := step_freed rfl h
  rw [(Machine.quiet_eq_iff.1 hm').1] at hpassed
  obtain ⟨n', hn', hq⟩ := step_bound hm.symm h₀ (hpass _ hpassed)
  exact ⟨n', hn', hm'.trans hq.symm⟩

end Steps

/-! ## Code and blocks -/

/-- What two runs know alike after some blocks. Their events and warnings may differ. -/
structure Progress.Alike (p q : Progress) : Prop where
  exits : p.exits = q.exits
  predicates : p.predicates = q.predicates
  calls : p.calls = q.calls

namespace Subject

variable {s : Subject} {g : FlowGraph} {options options' : AnalysisOptions} {b : Nat}

theorem runCode_transport {fr : Int} {code : List Instruction} {m n m' : Machine}
    (hpass : ∀ ins ∈ code, ∀ d, options.Passes ins d → options'.Passes ins d)
    (hm : m.quiet = n.quiet) (h : runCode (s.under options) b fr code m = .ok () m') :
    ∃ n', runCode (s.under options') b fr code n = .ok () n' ∧ m'.quiet = n'.quiet := by
  induction code generalizing m n with
  | nil =>
    cases h
    exact ⟨n, rfl, hm⟩
  | cons ins code ih =>
    rw [runCode] at h
    cases hs : Step.step (s.under options) b fr ins m with
    | error e m₁ => simp [hs] at h
    | ok a m₁ =>
      simp only [hs] at h
      obtain ⟨n₁, hn₁, hm₁⟩ := step_transport (hpass ins List.mem_cons_self) hm hs
      obtain ⟨n', hn', hm'⟩ := ih (fun x hx => hpass x (List.mem_cons_of_mem _ hx)) hm₁ h
      exact ⟨n', by rw [runCode, hn₁]; exact hn', hm'⟩

theorem runBlock_of_none {p : Progress}
    (hf : entryFrame s.method g g.writtenLocals g.reachable p.exits b = .ok none) :
    runBlock s g g.writtenLocals g.reachable b p = .ok () p := by
  unfold runBlock
  rw [hf]

theorem runBlock_of_some {p : Progress} {frame : Frame} {mode : EntryMode} {m : Machine}
    (hf : entryFrame s.method g g.writtenLocals g.reachable p.exits b = .ok (some (frame, mode)))
    (hm : runCode s b (g.frequency b) (g.code b) (p.machine frame) = .ok () m) :
    ∃ p', runBlock s g g.writtenLocals g.reachable b p = .ok () p'
      ∧ p'.exits = p.exits.set b (some m.frame) ∧ p'.predicates = m.predicates
      ∧ p'.calls = m.calls := by
  rw [Progress.machine, FlowGraph.frequency] at hm
  unfold runBlock
  simp only [hf, hm]
  exact ⟨_, rfl, rfl, rfl, rfl⟩

theorem runBlock_transport {p q p' : Progress}
    (hpass : ∀ ins ∈ g.code b, ∀ d, options.Passes ins d → options'.Passes ins d)
    (hp : p.Alike q)
    (h : runBlock (s.under options) g g.writtenLocals g.reachable b p = .ok () p') :
    ∃ q', runBlock (s.under options') g g.writtenLocals g.reachable b q = .ok () q'
      ∧ p'.Alike q' := by
  rcases runBlock_cases h with ⟨hf, rfl⟩ | ⟨frame, mode, m, hf, hm, hexits, hpreds, hcalls, -⟩
  · rw [hp.exits] at hf
    exact ⟨q, runBlock_of_none (s := s.under options') hf, hp⟩
  · have hstart : (p.machine frame).quiet = (q.machine frame).quiet :=
      Machine.quiet_eq_iff.2 ⟨rfl, hp.predicates, hp.calls⟩
    obtain ⟨n, hn, hquiet⟩ := runCode_transport hpass hstart hm
    obtain ⟨hframe, hpreds', hcalls'⟩ := Machine.quiet_eq_iff.1 hquiet
    rw [hp.exits] at hf hexits
    obtain ⟨q', hq', hexits', hpq, hcq⟩ := runBlock_of_some (s := s.under options') hf hn
    exact ⟨q', hq', by rw [hexits, hexits', hframe], by rw [hpreds, hpq, hpreds'],
      by rw [hcalls, hcq, hcalls']⟩

theorem runBlocks_transport {bs : List Nat} {p q p' : Progress}
    (hpass : ∀ b ∈ bs, ∀ ins ∈ g.code b, ∀ d, options.Passes ins d → options'.Passes ins d)
    (hp : p.Alike q)
    (h : runBlocks (s.under options) g g.writtenLocals g.reachable bs p = .ok () p') :
    ∃ q', runBlocks (s.under options') g g.writtenLocals g.reachable bs q = .ok () q'
      ∧ p'.Alike q' := by
  induction bs generalizing p q with
  | nil =>
    cases h
    exact ⟨q, rfl, hp⟩
  | cons b bs ih =>
    rw [runBlocks] at h
    cases hb : runBlock (s.under options) g g.writtenLocals g.reachable b p with
    | error e p₁ => simp [hb] at h
    | ok a p₁ =>
      simp only [hb] at h
      obtain ⟨q₁, hq₁, hp₁⟩ := runBlock_transport (hpass b List.mem_cons_self) hp hb
      obtain ⟨q', hq', hp'⟩ := ih (fun x hx => hpass x (List.mem_cons_of_mem _ hx)) hp₁ h
      exact ⟨q', by rw [runBlocks, hq₁]; exact hq', hp'⟩

/-! ## Whole runs -/

/-- A run under other options that let everything pass which passed before. -/
theorem run_transport (options options' : AnalysisOptions) {cancelled : Bool} {r : RunResult}
    (hpass : ∀ b ∈ g.reversePostorder, ∀ ins ∈ g.code b, ∀ d,
      options.Passes ins d → options'.Passes ins d)
    (h : ((s.under options).run g cancelled).outcome = .ok r) :
    ∃ r', ((s.under options').run g cancelled).outcome = .ok r' ∧ r'.summary = r.summary
      ∧ r'.exits = r.exits
      ∧ ((s.under options').run g cancelled).calls = ((s.under options).run g cancelled).calls := by
  obtain ⟨rfl, hroom, p, hp, rfl⟩ := run_eq_ok.1 h
  have hroom' : (s.under options').HasRoom g := ⟨hroom.marks, hroom.locals⟩
  obtain ⟨q, hq, halike⟩ := runBlocks_transport hpass (p := begin g) ⟨rfl, rfl, rfl⟩ hp
  refine ⟨_, run_eq_ok.2 ⟨rfl, hroom', q, hq, rfl⟩, ?_, halike.exits.symm, ?_⟩
  · show (⟨s.method.id, q.predicates⟩ : Summary) = ⟨s.method.id, p.predicates⟩
    rw [halike.predicates]
  · rw [calls_of_run hroom hp, calls_of_run hroom' hq, halike.calls]

end Subject

/-! ## Relaxing the options -/

namespace AnalysisOptions

/-- Strict mode stays or is turned off, and the limit of the depth is raised or taken away. A limit that
    is not there cannot be raised, since any positive number would set one. -/
structure Relaxes (options' options : AnalysisOptions) : Prop where
  strict : options'.strictMode = true → options.strictMode = true
  depth : options'.maxStackDepth ≤ 0
    ∨ (0 < options.maxStackDepth ∧ options.maxStackDepth ≤ options'.maxStackDepth)

variable {options options' : AnalysisOptions} {ins : Instruction} {depth : Nat}

theorem Passes.relax (h : options.Passes ins depth) (hrelax : options'.Relaxes options) :
    options'.Passes ins depth where
  resolved hs := h.resolved (hrelax.strict hs)
  shallow hpos := by
    rcases hrelax.depth with hnone | ⟨hlimit, hle⟩
    · omega
    · have hdepth := h.shallow hlimit
      omega

theorem relaxes_free (options : AnalysisOptions) : free.Relaxes options :=
  ⟨nofun, .inl (Int.le_refl 0)⟩

end AnalysisOptions

/-- The options only gate failure. A run that succeeds also succeeds when they are relaxed, and then it
    finds the same: the same summary, exit frames and calls. Whatever the options are, two runs that
    both succeed find the same. -/
theorem options_only_gate (s : Subject) (g : FlowGraph) (cancelled : Bool) (r : RunResult)
    (h : (s.run g cancelled).outcome = .ok r) (options' : AnalysisOptions) :
    (options'.Relaxes s.options →
        ∃ r', ((s.under options').run g cancelled).outcome = .ok r' ∧ r'.summary = r.summary
          ∧ r'.exits = r.exits
          ∧ ((s.under options').run g cancelled).calls = (s.run g cancelled).calls)
      ∧ ∀ r', ((s.under options').run g cancelled).outcome = .ok r' → r'.summary = r.summary
          ∧ r'.exits = r.exits
          ∧ ((s.under options').run g cancelled).calls = (s.run g cancelled).calls := by
  have hrelaxed (options₀ : AnalysisOptions) {options₁ : AnalysisOptions}
      (hrelax : options₁.Relaxes options₀) {r₀ : RunResult}
      (h₀ : ((s.under options₀).run g cancelled).outcome = .ok r₀) :=
    Subject.run_transport options₀ options₁
      (fun _ _ _ _ _ hpass => AnalysisOptions.Passes.relax hpass hrelax) h₀
  refine ⟨fun hrelax => hrelaxed s.options hrelax h, fun r' h' => ?_⟩
  -- both do what the free run does
  obtain ⟨r₁, h₁, hsummary₁, hexits₁, hcalls₁⟩ :=
    hrelaxed s.options (AnalysisOptions.relaxes_free _) h
  obtain ⟨r₂, h₂, hsummary₂, hexits₂, hcalls₂⟩ :=
    hrelaxed options' (AnalysisOptions.relaxes_free _) h'
  obtain rfl : r₁ = r₂ := Except.ok.inj (h₁.symm.trans h₂)
  exact ⟨hsummary₂.symm.trans hsummary₁, hexits₂.symm.trans hexits₁, hcalls₂.symm.trans hcalls₁⟩

/-- A method without arguments under a limit of the depth. -/
def stacker (maxStackDepth : Int) : Subject :=
  { options := { strictMode := true, maxStackDepth }
    oracle := none
    visitor := Visitor.anyResult
    method := { id := "t/A.m()V", cls := "t/A", name := "m", descriptor := "()V", isStatic := true } }

/-- It pushes a long and drops it. -/
def stacking : FlowGraph :=
  { blocks := [⟨1, [], [{ bci := 0, op := ⟨9⟩ }, { bci := 1, op := ⟨88⟩ }, { bci := 2, op := ⟨177⟩ }]⟩]
    entry := 0
    entry_lt := by decide
    succs_lt := by decide }

/-- A limit of two slots is enough, and so is none. -/
theorem options_only_gate_stacking :
    ∃ r r', ((stacker 2).run stacking false).outcome = .ok r
      ∧ (((stacker 2).under .free).run stacking false).outcome = .ok r'
      ∧ r'.summary = r.summary ∧ r'.exits = r.exits := by
  have hview : ((stacker 2).run stacking false).outcome.toOption.isSome := by decide +kernel
  cases hr : ((stacker 2).run stacking false).outcome with
  | error e => simp [hr, Except.toOption] at hview
  | ok r =>
    obtain ⟨r', hr', hsummary, hexits, -⟩ :=
      (options_only_gate (stacker 2) stacking false r hr .free).1
        (AnalysisOptions.relaxes_free _)
    exact ⟨r, r', rfl, hr', hsummary, hexits⟩

/-- A limit that is raised from zero to one is set for the first time, and the same run fails. -/
theorem limit_raised_from_zero :
    (∃ r, ((stacker 0).run stacking false).outcome = .ok r)
      ∧ (stacker 0).options.maxStackDepth < (stacker 1).options.maxStackDepth
      ∧ ((stacker 1).run stacking false).outcome
          = .error (.instruction "t/A.m()V" { bci := 0, op := ⟨9⟩ } (.tooDeep 2 1)) := by
  have hview : ((stacker 0).run stacking false).outcome.toOption.isSome := by decide +kernel
  refine ⟨?_, by decide, by decide +kernel⟩
  cases hr : ((stacker 0).run stacking false).outcome with
  | error e => simp [hr, Except.toOption] at hview
  | ok r => exact ⟨r, rfl⟩

end InlinePlan
