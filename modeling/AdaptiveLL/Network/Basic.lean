import AdaptiveLL.Network.State
import AdaptiveLL.Network.LexerAction
import AdaptiveLL.Network.Error
/-!
Networks. A grammar is a graph with one part per rule, entered at the start state of the
rule and left through its stop state; a reference to a rule is an edge that calls it. A
network is built from a blueprint, which holds what has to be written down; the rest is
derived when the blueprint is assembled.
-/
namespace AdaptiveLL

inductive GrammarKind where
  | lexer
  | parser
  deriving DecidableEq, Repr, Inhabited

/-- The start state of a rule and, for a token rule of a lexer, the type of its tokens. -/
structure RulePlan where
  start : Nat
  tokenType : Option Symbol := none
  deriving DecidableEq, Repr, Inhabited

/-- What is written down of a state. -/
structure StatePlan where
  rule : Nat
  kind : StateKind
  nonGreedy : Bool := false
  transitions : List Transition := []
  deriving DecidableEq, Repr, Inhabited

/-- What is written down of a network. -/
structure Blueprint where
  maxToken : Symbol
  states : List StatePlan
  rules : List RulePlan
  modes : List Nat := []
  decisions : List Nat := []
  actions : List LexerAction := []
  deriving DecidableEq, Repr, Inhabited

structure Network where
  kind : GrammarKind
  maxToken : Symbol
  states : Array State
  decisions : Array Nat
  ruleStarts : Array Nat
  ruleStops : Array Nat
  ruleTokens : Array Symbol
  modes : Array Nat
  actions : Array LexerAction
  deriving DecidableEq, Repr, Inhabited

namespace Network

/-- The state with this number, for questions that make no sense without it. -/
def state (n : Network) (number : Nat) : Except Fault State :=
  match n.states[number]? with
  | some s => .ok s
  | none => .error (.noSuchState number)

def decisionState? (n : Network) (decision : Nat) : Option State :=
  n.decisions[decision]? >>= fun s => n.states[s]?

def isLeftRecursiveRule (n : Network) (rule : Nat) : Bool :=
  match n.ruleStarts[rule]? >>= fun s => n.states[s]? with
  | some s => s.isLeftRecursiveStart
  | none => false

/-- Where the caller goes on after the call made from `invoking`. -/
def followState? (n : Network) (invoking : Nat) : Option Nat :=
  match n.states[invoking]?.bind (·.transitions.head?) with
  | some (.call _ _ _ follow) => some follow
  | _ => none

/-- The follow states of a chain of calls, given by their invoking states from the
innermost outwards, up to the first one that is not a call. -/
def followStates (n : Network) : List Nat → List Nat
  | [] => []
  | invoking :: rest =>
      match n.followState? invoking with
      | some follow => follow :: n.followStates rest
      | none => []

/-- What has to be written down to assemble the network again. Stop states are written
without their return edges. -/
def blueprint (n : Network) : Blueprint where
  maxToken := n.maxToken
  states := n.states.toList.map fun s =>
    { rule := s.rule, kind := s.kind, nonGreedy := s.nonGreedy
      transitions := if s.isRuleStop then [] else s.transitions }
  rules := n.ruleStarts.toList.mapIdx fun rule start =>
    { start, tokenType := if n.kind = .lexer then n.ruleTokens[rule]? else none }
  modes := n.modes.toList
  decisions := n.decisions.toList
  actions := n.actions.toList

end Network

end AdaptiveLL
