import InlinePlan.Bytecode.Instruction

set_option autoImplicit false

/-! # Control flow graphs

The basic blocks of one method, numbered from zero, with their successors. A graph is built from a
list of described blocks; building checks that the numbers fit, so inside a graph every successor is
a block. -/

namespace InlinePlan

/-- A basic block of a graph. `frequency` is an execution count relative to the other blocks. -/
structure Block where
  frequency : Int
  succs : List Nat
  code : List Instruction
  deriving Repr, DecidableEq

/-- A block as it is described, before its numbers are checked. -/
structure BlockSpec where
  id : Int
  frequency : Int := 0
  succs : List Int := []
  code : List Instruction := []
  deriving Repr, DecidableEq

/-- The control flow graph of one method. -/
structure FlowGraph where
  blocks : List Block
  entry : Nat
  entry_lt : entry < blocks.length
  succs_lt : ∀ b ∈ blocks, ∀ s ∈ b.succs, s < blocks.length

/-! ## Building -/

/-- Why a list of blocks is no graph. -/
inductive GraphFault where
  | entryOutOfRange (entry : Int) (count : Nat)
  | missingBlock (index : Nat)
  | wrongId (index : Nat) (id : Int)
  | strayEdge (block successor : Int)
  deriving Repr, DecidableEq

def GraphFault.message : GraphFault → String
  | .entryOutOfRange entry count =>
    "entry block " ++ toString entry ++ " out of range [0," ++ toString count ++ ")"
  | .missingBlock index => "block " ++ toString index ++ " is nil"
  | .wrongId index id => "block at index " ++ toString index ++ " has id " ++ toString id
  | .strayEdge block successor =>
    "block " ++ toString block ++ ": successor " ++ toString successor ++ " out of range"

/-- Checks that every block is there and numbered by its position, counted from `index`. -/
def checkNumbers : (index : Nat) → List (Option BlockSpec) → Except GraphFault (List BlockSpec)
  | _, [] => .ok []
  | index, none :: _ => .error (.missingBlock index)
  | index, some b :: bs =>
    if b.id ≠ index then .error (.wrongId index b.id)
    else (checkNumbers (index + 1) bs).map (b :: ·)

/-- The first edge that leaves a graph of `n` blocks. -/
def strayEdge? (n : Nat) (bs : List BlockSpec) : Option (Int × Int) :=
  bs.findSome? fun b => (b.succs.find? fun (s : Int) => decide (s < 0 ∨ n ≤ s)).map (b.id, ·)

def BlockSpec.toBlock (b : BlockSpec) : Block :=
  { frequency := b.frequency, succs := b.succs.map Int.toNat, code := b.code }

theorem succs_lt_of_strayEdge? {bs : List BlockSpec} (h : strayEdge? bs.length bs = none) :
    ∀ b ∈ bs.map BlockSpec.toBlock, ∀ s ∈ b.succs, s < (bs.map BlockSpec.toBlock).length := by
  intro b hb s hs
  obtain ⟨spec, hspec, rfl⟩ := List.mem_map.1 hb
  obtain ⟨i, hi, rfl⟩ := List.mem_map.1 hs
  have hnone := List.findSome?_eq_none_iff.1 h spec hspec
  rw [Option.map_eq_none_iff, List.find?_eq_none] at hnone
  have := hnone i hi
  simp only [decide_eq_true_eq, not_or, Int.not_lt, Int.not_le] at this
  simp only [List.length_map]
  omega

theorem checkNumbers_length {index : Nat} {blocks : List (Option BlockSpec)} {bs : List BlockSpec}
    (h : checkNumbers index blocks = .ok bs) : bs.length = blocks.length := by
  induction blocks generalizing index bs with
  | nil => cases h; rfl
  | cons b blocks ih =>
    cases b with
    | none => cases h
    | some b =>
      rw [checkNumbers] at h
      split at h
      case isTrue => cases h
      case isFalse =>
        cases hrest : checkNumbers (index + 1) blocks with
        | error e => rw [hrest] at h; cases h
        | ok rest =>
          rw [hrest] at h
          cases h
          simp [ih hrest]

/-- Checks described blocks and makes them a graph. The faults are looked for in this order: the
    entry, missing or misnumbered blocks, stray edges. -/
def FlowGraph.build (blocks : List (Option BlockSpec)) (entry : Int) :
    Except GraphFault FlowGraph :=
  if he : entry < 0 ∨ blocks.length ≤ entry then .error (.entryOutOfRange entry blocks.length)
  else match hn : checkNumbers 0 blocks with
    | .error e => .error e
    | .ok bs =>
      match hs : strayEdge? bs.length bs with
      | some (b, s) => .error (.strayEdge b s)
      | none =>
        .ok { blocks := bs.map BlockSpec.toBlock
              entry := entry.toNat
              entry_lt := by have := checkNumbers_length hn; rw [List.length_map]; omega
              succs_lt := succs_lt_of_strayEdge? hs }

namespace FlowGraph

/-! ## Blocks and edges -/

def size (g : FlowGraph) : Nat := g.blocks.length

/-- The successors of block `b`, in order and with repetitions. -/
def succs (g : FlowGraph) (b : Nat) : List Nat := (g.blocks[b]?).elim [] (·.succs)

/-- The instructions of block `b`. -/
def code (g : FlowGraph) (b : Nat) : List Instruction := (g.blocks[b]?).elim [] (·.code)

/-- The predecessors of block `b` by number, one for each edge. -/
def preds (g : FlowGraph) (b : Nat) : List Nat :=
  (List.range g.size).flatMap fun p => ((g.succs p).filter (· = b)).map fun _ => p

/-- The frequency of the entry block. -/
def entryFrequency (g : FlowGraph) : Int := (g.blocks.get ⟨g.entry, g.entry_lt⟩).frequency

/-- The block that holds the instruction at an offset. -/
def blockAt? (g : FlowGraph) (bci : Int) : Option Nat :=
  g.blocks.findIdx? fun b => b.code.any (·.bci = bci)

/-! ## Reverse postorder -/

/-- The edges still to follow and the blocks still to leave. -/
def work (pending : List (Nat × List Nat)) : Nat :=
  (pending.map fun p => p.2.length + 1).foldr (· + ·) 0

/-- The work that the blocks of a list bring that are not in `seen`. -/
def ahead (g : FlowGraph) (seen : List Nat) : List Nat → Nat
  | [] => 0
  | b :: bs => (if b ∈ seen then 0 else (g.succs b).length + 1) + g.ahead seen bs

theorem ahead_cons_le (g : FlowGraph) (s : Nat) (seen l : List Nat) :
    g.ahead (s :: seen) l ≤ g.ahead seen l := by
  induction l with
  | nil => exact Nat.le_refl _
  | cons b bs ih =>
    simp only [ahead, List.mem_cons]
    by_cases hb : b ∈ seen
    · rw [if_pos hb, if_pos (.inr hb)]
      omega
    · rw [if_neg hb]
      split <;> omega

/-- A block that is seen brings its work no more. -/
theorem ahead_cons_lt {g : FlowGraph} {s : Nat} {seen l : List Nat} (hs : s ∉ seen) (hl : s ∈ l) :
    g.ahead (s :: seen) l + (g.succs s).length < g.ahead seen l := by
  induction l with
  | nil => cases hl
  | cons b bs ih =>
    simp only [ahead, List.mem_cons]
    by_cases hb : b = s
    · subst hb
      have := g.ahead_cons_le b seen bs
      rw [if_pos (.inl rfl), if_neg hs]
      omega
    · have := ih ((List.mem_cons.1 hl).resolve_left fun h => hb h.symm)
      simp only [hb, false_or]
      omega

/-- A depth-first walk that follows successors in order. `pending` holds the blocks between the
    entry and the current one, innermost first, with the successors not yet followed; a block joins
    the front of `order` when it is left. -/
def walk (g : FlowGraph) (pending : List (Nat × List Nat)) (seen order : List Nat) : List Nat :=
  match pending with
  | [] => order
  | (b, []) :: rest => g.walk rest seen (b :: order)
  | (b, s :: ss) :: rest =>
    if _h : s ∉ seen ∧ s < g.size then
      g.walk ((s, g.succs s) :: (b, ss) :: rest) (s :: seen) order
    else g.walk ((b, ss) :: rest) seen order
termination_by g.ahead seen (List.range g.size) + work pending
decreasing_by
  · simp [work]
  · have := g.ahead_cons_lt _h.1 (List.mem_range.2 _h.2)
    simp only [work, List.map_cons, List.foldr_cons, List.length_cons]
    omega
  · simp [work]

/-- The blocks reachable from the entry, in reverse postorder. -/
def reversePostorder (g : FlowGraph) : List Nat :=
  g.walk [(g.entry, g.succs g.entry)] [g.entry] []

/-- For each block whether it is reachable from the entry. -/
def reachable (g : FlowGraph) : List Bool :=
  let order := g.reversePostorder
  (List.range g.size).map order.contains

end FlowGraph

end InlinePlan
