import InlinePlan.Analysis.Arithmetic
import InlinePlan.Analysis.Machine
import InlinePlan.Decimal.Shortest
import InlinePlan.Text.CaseFold
import InlinePlan.Text.Quoted
import InlinePlan.Yaml.Reader
import InlinePlan.Yaml.Record

set_option autoImplicit false

/-! # Options

What bounds a call tree, how much a predicate is worth, and how many bytes may be inlined into a
method of some size at some optimisation level. Options are read from a YAML document on top of the
defaults. -/

namespace InlinePlan

/-! ## Levels -/

/-- How much effort a compilation is worth. -/
inductive OptLevel where
  | cold
  | warm
  | hot
  | veryHot
  | scorching
  deriving Repr, DecidableEq

namespace OptLevel

/-- All levels, by code. -/
def all : List OptLevel := [.cold, .warm, .hot, .veryHot, .scorching]

def name : OptLevel → String
  | .cold => "cold"
  | .warm => "warm"
  | .hot => "hot"
  | .veryHot => "veryhot"
  | .scorching => "scorching"

def code : OptLevel → Int
  | .cold => 0
  | .warm => 1
  | .hot => 2
  | .veryHot => 3
  | .scorching => 4

/-- The name that belongs to a code, which may be that of no level. -/
def nameOfCode (code : Int) : String :=
  match all.find? (·.code = code) with
  | some level => level.name
  | none => "OptLevel(" ++ toString code ++ ")"

/-- The level with a name in any case. -/
def ofName? (name : String) : Option OptLevel := all.find? fun l => Text.equalFold name l.name

end OptLevel

/-- What is said of a name that no level has. -/
def unknownLevel (name : String) : String := "unknown optimization level " ++ Text.quote name

/-! ## Options -/

/-- The default for the least ratio: one call in 400 executions of the root. -/
def defaultLeastRatio : Float := 1.0 / 400.0

/-- Options of a build. A `maxDepth` that is not positive sets no limit. -/
structure Options where
  minRootCallRatio : Float := defaultLeastRatio
  coldBlockFrequency : Int := 0
  maxDepth : Int := 0
  predicateWeight : Int := 1
  hotBudgetFloor : Int := 1500
  hotBudgetFactor : Int := 2
  warmSizeThreshold : Int := 250
  warmBudget : Int := 250
  coldBudget : Int := 10
  analysis : AnalysisOptions := {}
  logLevel : String := ""

/-- Why a document has no options. -/
inductive OptionsFault where
  | undecodable
  | collectionKey
  | ratioOutside (ratio : Float)
  | negativeWeight (weight : Int)

def OptionsFault.message : OptionsFault → String
  | .undecodable => "failed to decode options"
  | .collectionKey => "failed to decode options: " ++ Yaml.collectionKeyText
  | .ratioOutside ratio =>
    "min_root_call_ratio " ++ Decimal.floatText {} ratio ++ " outside [0,1]"
  | .negativeWeight weight => "predicate_weight " ++ toString weight ++ " is negative"

namespace Options

/-- The budget for a method of some size. From the hot levels on it is a multiple of the size, but
    at least the floor; a warm compilation gets a fixed budget for small methods only. -/
def budgetFor (o : Options) (level size : Int) : Int :=
  if OptLevel.hot.code ≤ level then max o.hotBudgetFloor (wrap 64 (o.hotBudgetFactor * size))
  else if level = OptLevel.warm.code ∧ size < o.warmSizeThreshold then o.warmBudget
  else o.coldBudget

open Yaml in
def analysisFields : List (RecordField AnalysisOptions) :=
  [field "strict_mode" decodeBool fun v o => { o with strictMode := v },
    field "enable_warnings" decodeBool fun v o => { o with enableWarnings := v },
    field "max_stack_depth" decodeInt fun v o => { o with maxStackDepth := v }]

open Yaml in
def fields : List (RecordField Options) :=
  [field "min_root_call_ratio" decodeFloat fun v o => { o with minRootCallRatio := v },
    field "cold_block_frequency" decodeInt fun v o => { o with coldBlockFrequency := v },
    field "max_depth" decodeInt fun v o => { o with maxDepth := v },
    field "predicate_weight" decodeInt fun v o => { o with predicateWeight := v },
    field "hot_budget_floor" decodeInt fun v o => { o with hotBudgetFloor := v },
    field "hot_budget_factor" decodeInt fun v o => { o with hotBudgetFactor := v },
    field "warm_size_threshold" decodeInt fun v o => { o with warmSizeThreshold := v },
    field "warm_budget" decodeInt fun v o => { o with warmBudget := v },
    field "cold_budget" decodeInt fun v o => { o with coldBudget := v },
    nested "interpreter" analysisFields (·.analysis) fun v o => { o with analysis := v },
    field "log_level" decodeText fun v o => { o with logLevel := v }]

/-- Options out of their range are refused, the ratio first. -/
def check (o : Options) : Except OptionsFault Options :=
  if o.minRootCallRatio < 0 || 1 < o.minRootCallRatio then
    .error (.ratioOutside o.minRootCallRatio)
  else if o.predicateWeight < 0 then .error (.negativeWeight o.predicateWeight)
  else .ok o

/-- Loads options from the text of a document; an empty one changes nothing. -/
def load (text : String) : Except OptionsFault Options :=
  match Yaml.Document.parse? text.toList with
  | none => .error .undecodable
  | some .absent => check {}
  | some (.present root) =>
    match Yaml.decodeRoot fields {} root with
    | .error .malformed => .error .undecodable
    | .error .collectionKey => .error .collectionKey
    | .ok found => check found

end Options

end InlinePlan
