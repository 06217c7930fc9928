import AdaptiveLL.IntervalSet
/-!
Transitions: the edges of a network. An edge either reads one symbol or is crossed without
reading; the latter are the plain edges, calls, guards and actions.
-/
namespace AdaptiveLL

inductive Transition where
  /-- A plain edge. `outermost` is set on the return edge of a call with precedence 0 into
  a left-recursive rule, and names that rule. -/
  | epsilon (target : Nat) (outermost : Option Nat)
  | atom (target : Nat) (label : Symbol)
  | range (target : Nat) (low high : Symbol)
  | set (target : Nat) (labels : IntervalSet)
  | notSet (target : Nat) (labels : IntervalSet)
  | wildcard (target : Nat)
  /-- A call of a rule, whose start state is the target. The caller goes on at `follow`. -/
  | call (target rule : Nat) (precedence : Int) (follow : Nat)
  | predicate (target rule index : Nat) (contextual : Bool)
  | precedence (target : Nat) (level : Int)
  /-- An action of the host; one without an index is never run. -/
  | action (target rule : Nat) (index : Option Nat) (contextual : Bool)
  deriving DecidableEq, Repr, Inhabited

namespace Transition

def plain (target : Nat) : Transition :=
  .epsilon target none

def target : Transition → Nat
  | epsilon t _ | atom t _ | range t _ _ | set t _ | notSet t _ | wildcard t
  | call t _ _ _ | predicate t _ _ _ | precedence t _ | action t _ _ _ => t

/-- The same edge to another state. -/
def retarget (t : Nat) : Transition → Transition
  | epsilon _ o => epsilon t o
  | atom _ l => atom t l
  | range _ l h => range t l h
  | set _ s => set t s
  | notSet _ s => notSet t s
  | wildcard _ => wildcard t
  | call _ r p f => call t r p f
  | predicate _ r i c => predicate t r i c
  | precedence _ l => precedence t l
  | action _ r i c => action t r i c

/-- Whether the edge is crossed without reading a symbol. -/
def isEpsilon : Transition → Bool
  | epsilon .. | call .. | predicate .. | precedence .. | action .. => true
  | _ => false

/-- Whether the edge reads `symbol`. A wildcard and a negated set range over the symbols
from `low` to `high`. -/
def reads (t : Transition) (symbol low high : Symbol) : Bool :=
  let inAlphabet := decide (low ≤ symbol) && decide (symbol ≤ high)
  match t with
  | atom _ label => label == symbol
  | range _ l h => decide (l ≤ symbol) && decide (symbol ≤ h)
  | set _ labels => labels.contains symbol
  | notSet _ labels => inAlphabet && !labels.contains symbol
  | wildcard _ => inAlphabet
  | _ => false

/-- The symbols written on the edge. -/
def label? : Transition → Option IntervalSet
  | atom _ l => some (IntervalSet.singleton l)
  | range _ l h => some (IntervalSet.ofRange l h)
  | set _ s | notSet _ s => some s
  | _ => none

def kindName : Transition → String
  | epsilon .. => "epsilon"
  | atom .. => "atom"
  | range .. => "range"
  | set .. => "set"
  | notSet .. => "not-set"
  | wildcard .. => "wildcard"
  | call .. => "rule"
  | predicate .. => "predicate"
  | precedence .. => "precedence"
  | action .. => "action"

end Transition

end AdaptiveLL
