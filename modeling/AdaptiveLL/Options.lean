import AdaptiveLL.Json.Record
/-!
Options of parsers and of the diagnostics about predictions. Every option has a default, so
that a partial table reads as a complete set.
-/
namespace AdaptiveLL

open Json (Value)

/-- How hard prediction works to settle a conflict between alternatives. -/
inductive PredictionMode where
  /-- Never look at the real call stack; a conflict goes to the least alternative. -/
  | sll
  /-- On a conflict, start again with the real call stack. -/
  | ll
  /-- As `ll`, and read on until an ambiguity is certain. -/
  | exactAmbiguity
  deriving DecidableEq, Repr, Inhabited

namespace PredictionMode

def tags : List (String × PredictionMode) :=
  [("sll", .sll), ("ll", .ll), ("ll-exact-ambig", .exactAmbiguity)]

def tag : PredictionMode → String
  | sll => "sll"
  | ll => "ll"
  | exactAmbiguity => "ll-exact-ambig"

end PredictionMode

inductive ErrorStrategy where
  /-- Report an error, repair the input and go on. -/
  | repair
  /-- End the parse at the first error. -/
  | bail
  deriving DecidableEq, Repr, Inhabited

namespace ErrorStrategy

def tags : List (String × ErrorStrategy) :=
  [("default", .repair), ("bail", .bail)]

def tag : ErrorStrategy → String
  | repair => "default"
  | bail => "bail"

end ErrorStrategy

structure ParserOptions where
  predictionMode : PredictionMode := .ll
  /-- Without trees, tokens are not attached to the rule nodes. -/
  buildTrees : Bool := true
  trimTrees : Bool := false
  trace : Bool := false
  /-- How deep rules may call each other. -/
  maxDepth : Nat := 1000
  errorStrategy : ErrorStrategy := .repair
  deriving DecidableEq, Repr, Inhabited

namespace ParserOptions

def fieldNames : List String :=
  ["prediction-mode", "build-parse-trees", "trim-parse-trees", "trace", "max-rule-depth",
    "error-strategy"]

def toJson (o : ParserOptions) : Value :=
  .object (fieldNames.zip [.text o.predictionMode.tag, .bool o.buildTrees, .bool o.trimTrees,
    .bool o.trace, .ofNat o.maxDepth, .text o.errorStrategy.tag])

def ofJson? (v : Value) : Option ParserOptions := do
  let base : ParserOptions := {}
  match ← v.fields? fieldNames with
  | [mode, build, trim, trace, depth, strategy] =>
      some {
        predictionMode := ← Value.orElse? base.predictionMode (Value.asName? PredictionMode.tags) mode
        buildTrees := ← Value.orElse? base.buildTrees Value.asBool? build
        trimTrees := ← Value.orElse? base.trimTrees Value.asBool? trim
        trace := ← Value.orElse? base.trace Value.asBool? trace
        maxDepth := ← Value.orElse? base.maxDepth Value.asNat? depth
        errorStrategy := ← Value.orElse? base.errorStrategy (Value.asName? ErrorStrategy.tags) strategy }
  | _ => none

end ParserOptions

/-- Which events of predictions are shown as diagnostics. -/
structure DiagnosticOptions where
  /-- Pass over ambiguities that full-context prediction only guessed. -/
  exactOnly : Bool := true
  contextSensitivity : Bool := true
  fullContext : Bool := false
  deriving DecidableEq, Repr, Inhabited

namespace DiagnosticOptions

def fieldNames : List String :=
  ["exact-ambiguity-only", "report-context-sensitivity", "report-full-context"]

def toJson (o : DiagnosticOptions) : Value :=
  .object (fieldNames.zip [.bool o.exactOnly, .bool o.contextSensitivity, .bool o.fullContext])

def ofJson? (v : Value) : Option DiagnosticOptions := do
  let base : DiagnosticOptions := {}
  match ← v.fields? fieldNames with
  | [exact, sensitivity, fullContext] =>
      some {
        exactOnly := ← Value.orElse? base.exactOnly Value.asBool? exact
        contextSensitivity := ← Value.orElse? base.contextSensitivity Value.asBool? sensitivity
        fullContext := ← Value.orElse? base.fullContext Value.asBool? fullContext }
  | _ => none

end DiagnosticOptions

end AdaptiveLL
