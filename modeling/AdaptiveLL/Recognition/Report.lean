import AdaptiveLL.Options
import AdaptiveLL.Recognition.Error
/-!
Reports: what a recognizer tells about an input. Mistakes of the input are counted; events
of predictions are for information only.
-/
namespace AdaptiveLL

/-- A mistake of the input. Lexers report mistakes without a token. -/
structure Mistake where
  /-- The name of the input. -/
  source : String
  token : Option Token
  line : Nat
  column : Nat
  message : String
  error : Option RecognitionError
  deriving Repr

namespace Mistake

def render (m : Mistake) : String :=
  "line " ++ toString m.line ++ ":" ++ toString m.column ++ " " ++ m.message

end Mistake

inductive PredictionEvent where
  /-- Prediction starts again with the full context. -/
  | fullContext (conflicting : Option AltSet)
  /-- Several alternatives match the input. The event is exact if this is certain. -/
  | ambiguity (exact : Bool) (alts : AltSet)
  /-- With the full context, the conflict is none. -/
  | contextSensitivity (prediction : Nat)
  deriving DecidableEq, Repr

/-- An event of a prediction over the tokens from `start` to `stop`. -/
structure PredictionReport where
  decision : Nat
  ruleName : String
  start : Nat
  stop : Nat
  text : String
  event : PredictionEvent
  configs : ConfigurationSet
  deriving Repr

namespace PredictionReport

def place (r : PredictionReport) : String :=
  "d=" ++ toString r.decision ++ (if r.ruleName = "" then "" else " (" ++ r.ruleName ++ ")")

/-- The line that shows the event, if the options ask for it. -/
def diagnostic? (options : DiagnosticOptions) (r : PredictionReport) : Option String :=
  let input := ", input='" ++ r.text ++ "'"
  match r.event with
  | .fullContext _ =>
      if options.fullContext then some ("reportAttemptingFullContext " ++ r.place ++ input)
      else none
  | .ambiguity exact alts =>
      if options.exactOnly && !exact then none
      else some ("reportAmbiguity " ++ r.place ++ ": ambigAlts=" ++ alts.render ++ input)
  | .contextSensitivity _ =>
      if options.contextSensitivity then some ("reportContextSensitivity " ++ r.place ++ input)
      else none

end PredictionReport

inductive Report where
  | mistake (m : Mistake)
  | prediction (r : PredictionReport)
  deriving Repr

namespace Report

def mistake? : Report → Option Mistake
  | mistake m => some m
  | prediction _ => none

def prediction? : Report → Option PredictionReport
  | mistake _ => none
  | prediction r => some r

end Report

end AdaptiveLL
