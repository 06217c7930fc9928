import AdaptiveLL.Text.Quoted
/-!
What can be wrong with a network, and what a question about a network can run into.
-/
namespace AdaptiveLL

/-- A rule for well-formed networks that a state breaks. -/
inductive Defect where
  | foreignStop (rule stop : Nat)
  | noRuleStart (rule : Nat)
  | callTarget (rule : Nat)
  | noBlockEnd (stop : Nat)
  | undefinedRule (rule : Nat)
  | mixedTransitions
  | plusWithoutLoopBack
  | entryWithoutLoopBack
  | entryArity
  | greedyOrder
  | nonGreedyOrder
  | entryTargets
  | loopBackTarget
  | loopEndTarget
  | blockEndWithoutStart
  | unnumberedDecision
  | branching
  | decisionNumber
  deriving DecidableEq, Repr

def Defect.message : Defect → String
  | foreignStop rule stop =>
      "rule " ++ toString rule ++ " stop state " ++ toString stop ++ " is not its rule stop"
  | noRuleStart rule => "rule " ++ toString rule ++ " does not begin at a rule start state"
  | callTarget rule => "call of rule " ++ toString rule ++ " does not target its start state"
  | noBlockEnd stop => "block end " ++ toString stop ++ " is not a block end state"
  | undefinedRule rule => "rule " ++ toString rule ++ " was declared but never defined"
  | mixedTransitions => "multiple transitions must all be epsilon"
  | plusWithoutLoopBack => "plus block without loop-back state"
  | entryWithoutLoopBack => "star loop entry without loop-back state"
  | entryArity => "star loop entry needs exactly two transitions"
  | greedyOrder => "greedy star loop must enter the block first"
  | nonGreedyOrder => "non-greedy star loop must exit first"
  | entryTargets => "star loop entry must lead to its block and loop end"
  | loopBackTarget => "star loop-back must return to its loop entry"
  | loopEndTarget => "loop end must reference a loop-back state"
  | blockEndWithoutStart => "block end without block start"
  | unnumberedDecision => "decision state with several transitions has no decision number"
  | branching => "only decision and rule stop states may branch"
  | decisionNumber => "decision state without a decision number"

inductive NetworkError where
  | verification (state : Nat) (defect : Defect)
  | invalidState (state : Nat)
  | invalidRule (rule : Nat)
  | unknownRuleName (name : String)
  | invalidDecision (decision : Nat)
  /-- The parser cannot leave `state` by the edge it found there. -/
  | unexpectedTransition (state : Nat) (found : String)
  /-- A left-recursive rule ended that was never entered. -/
  | contextStackUnderflow (state : Nat)
  deriving DecidableEq, Repr

def NetworkError.message : NetworkError → String
  | verification state defect =>
      "ATN verification failed at state " ++ toString state ++ ": " ++ defect.message
  | invalidState state => "reference to unknown ATN state " ++ toString state
  | invalidRule rule => "reference to unknown rule " ++ toString rule
  | unknownRuleName name => "no rule named " ++ Text.doubleQuoted name
  | invalidDecision decision => "reference to unknown decision " ++ toString decision
  | unexpectedTransition state found =>
      "unexpected " ++ found ++ " transition at ATN state " ++ toString state
  | contextStackUnderflow state =>
      "no recursion context to return to from ATN state " ++ toString state

/-- Why a question about a network has no answer. -/
inductive Fault where
  /-- The question refers to a state that the network does not have. -/
  | noSuchState (state : Nat)
  /-- The question refers to a rule that the network does not have. -/
  | noSuchRule (rule : Nat)
  /-- The number of steps allowed for the answer was not enough. -/
  | exhausted
  deriving DecidableEq, Repr

end AdaptiveLL
