import AdaptiveLL.Prediction.Configuration
import AdaptiveLL.Token
/-!
What can go wrong while an input is recognized. A recognition error says that the input does
not match the grammar; it is reported and repaired. A parse error ends a parse without a
result.
-/
namespace AdaptiveLL

/-- A node of a parse tree. -/
abbrev NodeId := Nat

inductive ErrorKind where
  /-- No alternative of a decision matches the input from the token `start` on. The set
  holds the last threads that were alive. -/
  | noViableAlt (start : Token) (deadEnd : Option ConfigurationSet)
  /-- The current token does not fit, and repairing one token does not help. -/
  | inputMismatch
  | failedPredicate (rule : Nat) (index : Option Nat) (text : String)
  /-- No token begins at the character `start`. -/
  | noToken (start : Nat) (deadEnd : Option ConfigurationSet)
  deriving DecidableEq, Repr

structure RecognitionError where
  kind : ErrorKind
  /-- The token that does not fit. -/
  token : Option Token := none
  /-- The state of the network where the error was found. -/
  state : Option Nat := none
  /-- The rule context in which the error was found. -/
  node : Option NodeId := none
  /-- The tokens that would have fitted. -/
  expected : Option IntervalSet := none
  /-- A text that takes the place of the one for the kind. -/
  text? : Option String := none
  deriving DecidableEq, Repr

namespace RecognitionError

def message (e : RecognitionError) : String :=
  match e.text?, e.kind with
  | some text, _ => text
  | none, .noViableAlt start _ => "no viable alternative starting at '" ++ start.text ++ "'"
  | none, .inputMismatch =>
      match e.token with
      | some t => "mismatched input '" ++ t.text ++ "'"
      | none => "mismatched input"
  | none, .failedPredicate _ _ text => "failed predicate: \x7b" ++ text ++ "\x7d?"
  | none, .noToken start _ => "no viable token at character " ++ toString start

end RecognitionError

/-- Why a parse has no result. -/
inductive ParseError where
  | network (error : NetworkError)
  /-- The first recognition error ends the parse. -/
  | cancelled (error : RecognitionError)
  /-- The call of `rule` would be nested too deep. -/
  | tooDeep (depth rule : Nat)
  deriving DecidableEq, Repr

namespace ParseError

def message : ParseError → String
  | network error => "ATN error: " ++ error.message
  | cancelled error => "parse cancelled: " ++ error.message
  | tooDeep depth rule =>
      "rule nesting depth " ++ toString depth ++ " exceeded the limit while entering rule " ++
        toString rule

/-- The text of the error behind this one. -/
def source? : ParseError → Option String
  | network error => some error.message
  | cancelled error => some error.message
  | tooDeep .. => none

end ParseError

/-- Why a step of a recognizer did not come to its end. -/
inductive Failure where
  /-- The rule it happened in ends, and recognition goes on behind it. -/
  | recoverable (error : RecognitionError)
  /-- Recognition ends. -/
  | fatal (error : ParseError)
  /-- The step asked the network for something that it does not have. -/
  | fault (fault : Fault)
  deriving DecidableEq, Repr

instance : Inhabited Failure := ⟨.fault .exhausted⟩

/-- A step of a recognizer with states in `σ`. A step that fails leaves the state that it
had come to. -/
abbrev Step (σ : Type) := ExceptT Failure (StateM σ)

namespace Step

variable {σ α : Type}

/-- The result of a question about the network. -/
def ofQuestion (answer : Except Fault α) : Step σ α :=
  match answer with
  | .ok a => pure a
  | .error fault => throw (.fault fault)

/-- A part of a network that has to be there. -/
def required (error : NetworkError) : Option α → Step σ α
  | some a => pure a
  | none => throw (.fatal (.network error))

/-- The outcome of a step, which is not passed on. -/
def attempt (step : Step σ α) : Step σ (Except Failure α) :=
  ExceptT.mk (do return .ok (← step.run))

/-- Pass on an outcome. -/
def ofOutcome (outcome : Except Failure α) : Step σ α :=
  match outcome with
  | .ok a => pure a
  | .error failure => throw failure

end Step

end AdaptiveLL
