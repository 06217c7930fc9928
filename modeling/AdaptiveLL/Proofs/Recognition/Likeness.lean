import AdaptiveLL.Proofs.Prediction.Likeness
import AdaptiveLL.Recognition.Report
/-!
Errors and reports that differ in nothing but the numbers of stacks. They carry the threads that
were alive last, or those that were in conflict.
-/
namespace AdaptiveLL

variable {R R' : Nat → Nat → Prop}

theorem optionRel_imp {α : Type} {S S' : α → α → Prop} {a a' : Option α} (h : Option.Rel S a a')
    (weaker : ∀ x x', S x x' → S' x x') : Option.Rel S' a a' := by
  cases h with
  | some same => exact .some (weaker _ _ same)
  | none => exact .none

inductive ErrorKind.Like (R : Nat → Nat → Prop) : ErrorKind → ErrorKind → Prop
  | noViableAlt (start : Token) {deadEnd deadEnd' : Option ConfigurationSet}
      (sets : Option.Rel (ConfigurationSet.Like R) deadEnd deadEnd') :
      Like R (.noViableAlt start deadEnd) (.noViableAlt start deadEnd')
  | inputMismatch : Like R .inputMismatch .inputMismatch
  | failedPredicate (rule : Nat) (index : Option Nat) (text : String) :
      Like R (.failedPredicate rule index text) (.failedPredicate rule index text)
  | noToken (start : Nat) {deadEnd deadEnd' : Option ConfigurationSet}
      (sets : Option.Rel (ConfigurationSet.Like R) deadEnd deadEnd') :
      Like R (.noToken start deadEnd) (.noToken start deadEnd')

def RecognitionError.Like (R : Nat → Nat → Prop) (e e' : RecognitionError) : Prop :=
  ∃ kind, e.kind.Like R kind ∧ e' = { e with kind }

inductive ParseError.Like (R : Nat → Nat → Prop) : ParseError → ParseError → Prop
  | network (error : NetworkError) : Like R (.network error) (.network error)
  | cancelled {error error' : RecognitionError} (same : error.Like R error') :
      Like R (.cancelled error) (.cancelled error')
  | tooDeep (depth rule : Nat) : Like R (.tooDeep depth rule) (.tooDeep depth rule)

inductive Failure.Like (R : Nat → Nat → Prop) : Failure → Failure → Prop
  | recoverable {error error' : RecognitionError} (same : error.Like R error') :
      Like R (.recoverable error) (.recoverable error')
  | fatal {error error' : ParseError} (same : error.Like R error') :
      Like R (.fatal error) (.fatal error')
  | fault (fault : Fault) : Like R (.fault fault) (.fault fault)

def Mistake.Like (R : Nat → Nat → Prop) (m m' : Mistake) : Prop :=
  ∃ error, Option.Rel (RecognitionError.Like R) m.error error ∧ m' = { m with error }

def PredictionReport.Like (R : Nat → Nat → Prop) (r r' : PredictionReport) : Prop :=
  ∃ configs, r.configs.Like R configs ∧ r' = { r with configs }

inductive Report.Like (R : Nat → Nat → Prop) : Report → Report → Prop
  | mistake {m m' : Mistake} (same : m.Like R m') : Like R (.mistake m) (.mistake m')
  | prediction {r r' : PredictionReport} (same : r.Like R r') :
      Like R (.prediction r) (.prediction r')

section

variable (weaker : ∀ a b, R a b → R' a b)

include weaker

theorem ErrorKind.Like.imp {kind kind' : ErrorKind} (h : kind.Like R kind') : kind.Like R' kind' := by
  cases h with
  | noViableAlt start sets => exact .noViableAlt start (optionRel_imp sets fun _ _ h => h.imp weaker)
  | inputMismatch => exact .inputMismatch
  | failedPredicate rule index text => exact .failedPredicate rule index text
  | noToken start sets => exact .noToken start (optionRel_imp sets fun _ _ h => h.imp weaker)

theorem RecognitionError.Like.imp {e e' : RecognitionError} (h : e.Like R e') : e.Like R' e' := by
  obtain ⟨kind, same, rfl⟩ := h
  exact ⟨kind, same.imp weaker, rfl⟩

theorem ParseError.Like.imp {e e' : ParseError} (h : e.Like R e') : e.Like R' e' := by
  cases h with
  | network error => exact .network error
  | cancelled same => exact .cancelled (same.imp weaker)
  | tooDeep depth rule => exact .tooDeep depth rule

theorem Failure.Like.imp {e e' : Failure} (h : e.Like R e') : e.Like R' e' := by
  cases h with
  | recoverable same => exact .recoverable (same.imp weaker)
  | fatal same => exact .fatal (same.imp weaker)
  | fault fault => exact .fault fault

theorem Report.Like.imp {r r' : Report} (h : r.Like R r') : r.Like R' r' := by
  cases h with
  | mistake same =>
      obtain ⟨error, same, rfl⟩ := same
      exact .mistake ⟨error, optionRel_imp same fun _ _ h => h.imp weaker, rfl⟩
  | prediction same =>
      obtain ⟨configs, same, rfl⟩ := same
      exact .prediction ⟨configs, same.imp weaker, rfl⟩

end

/-- The message of an error does not show its stacks. -/
theorem RecognitionError.Like.message {e e' : RecognitionError} (h : e.Like R e') :
    e'.message = e.message := by
  obtain ⟨kind, same, rfl⟩ := h
  obtain ⟨kind₀, token, state, node, expected, text?⟩ := e
  cases text? <;> cases same <;> rfl

/-- Outcomes with answers that `P` relates, or with failures that are the same up to stacks. -/
inductive Outcome.Like {α : Type} (R : Nat → Nat → Prop) (P : α → α → Prop) :
    Except Failure α → Except Failure α → Prop
  | ok {a a' : α} (same : P a a') : Like R P (.ok a) (.ok a')
  | error {e e' : Failure} (same : e.Like R e') : Like R P (.error e) (.error e')

end AdaptiveLL
