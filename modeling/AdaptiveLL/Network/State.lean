import AdaptiveLL.Network.Transition
/-!
States: the nodes of a network. A state belongs to a rule and has a kind, which also names
the states that it is paired with when a grammar is written down. What can be derived from
the transitions is filled in when the network is assembled.
-/
namespace AdaptiveLL

/-- What a block of alternatives is repeated by. -/
inductive BlockShape where
  | choice
  | plus
  | star
  deriving DecidableEq, Repr, Inhabited

inductive StateKind where
  | basic
  | ruleStart (stop : Nat) (leftRecursive : Bool)
  | ruleStop
  | blockStart (shape : BlockShape) (stop : Nat)
  | blockEnd
  | plusLoopBack
  | starLoopBack
  | starLoopEntry
  | loopEnd (loopBack : Nat)
  /-- The entry of a lexer mode, with one edge to each of its token rules. -/
  | tokensStart
  deriving DecidableEq, Repr, Inhabited

namespace StateKind

def name : StateKind → String
  | basic => "basic"
  | ruleStart .. => "rule-start"
  | ruleStop => "rule-stop"
  | blockStart .choice _ => "block-start"
  | blockStart .plus _ => "plus-block-start"
  | blockStart .star _ => "star-block-start"
  | blockEnd => "block-end"
  | plusLoopBack => "plus-loop-back"
  | starLoopBack => "star-loop-back"
  | starLoopEntry => "star-loop-entry"
  | loopEnd _ => "loop-end"
  | tokensStart => "tokens-start"

/-- Whether states of this kind may choose among several edges. -/
def isDecision : StateKind → Bool
  | blockStart .. | plusLoopBack | starLoopEntry | tokensStart => true
  | _ => false

end StateKind

structure State where
  rule : Nat
  kind : StateKind
  /-- A decision of a non-greedy loop prefers to leave it. -/
  nonGreedy : Bool := false
  transitions : List Transition := []
  /-- The number under which the state is a decision. -/
  decision : Option Nat := none
  /-- A block end knows its block start; a plus block and a star loop entry know their
  loop-back state. -/
  partner : Option Nat := none
  /-- Whether this is the entry of the operator loop of a left-recursive rule. -/
  precedenceLoop : Bool := false
  deriving DecidableEq, Repr, Inhabited

namespace State

/-- Whether the state has edges and all of them are crossed without reading. -/
def isEpsilonOnly (s : State) : Bool :=
  !s.transitions.isEmpty && s.transitions.all Transition.isEpsilon

def isRuleStop (s : State) : Bool :=
  s.kind == .ruleStop

def isLeftRecursiveStart (s : State) : Bool :=
  match s.kind with
  | .ruleStart _ leftRecursive => leftRecursive
  | _ => false

def isLoopEnd (s : State) : Bool :=
  match s.kind with
  | .loopEnd _ => true
  | _ => false

def isStarLoopEntry (s : State) : Bool :=
  s.kind == .starLoopEntry

def isStarBlock (s : State) : Bool :=
  match s.kind with
  | .blockStart .star _ => true
  | _ => false

def isDecision (s : State) : Bool :=
  s.kind.isDecision

/-- Insert an edge in front of all others. -/
def addFirst (s : State) (t : Transition) : State :=
  { s with transitions := t :: s.transitions }

/-- Insert an edge behind all others. -/
def addLast (s : State) (t : Transition) : State :=
  { s with transitions := s.transitions ++ [t] }

end State

end AdaptiveLL
