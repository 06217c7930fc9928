import AdaptiveLL.Network.Basic
/-!
Lookahead sets: the symbols that can come next from a state, found by following the edges
that read nothing until every path has met one that does. Guards are crossed freely, since
the set describes what the grammar allows and not what the host allows at the moment.
-/
namespace AdaptiveLL

namespace Lookahead

/-- Where a lookahead walk has been and what it has found. -/
structure Walk where
  visited : List (Nat × List Nat) := []
  found : IntervalSet := ∅
  deriving Repr, Inhabited

/-- The rule of a state, for walks that keep a mark for each rule. -/
def ruleOf (n : Network) (state : Nat) : Except Fault Nat := do
  let s ← n.state state
  if s.rule < n.ruleStarts.size then .ok s.rule else .error (.noSuchRule s.rule)

/-- Walk on from `state`. `frames` holds the follow states of the calls that the walk is
in, innermost first, and `called` the rules that it must not call again. When no frame is
left at a rule stop, or at the state `stop`, the symbol `ended` is found. A pair of a state
and frames is visited once. -/
def visit (n : Network) (stop : Option Nat) (ended : Symbol) :
    Nat → List Nat → List Nat → Nat → Walk → Except Fault Walk
  | 0, _, _, _, _ => .error .exhausted
  | fuel + 1, called, frames, state, w => do
      if w.visited.contains (state, frames) then return w
      let w := { w with visited := (state, frames) :: w.visited }
      if some state = stop ∧ frames = [] then return { w with found := w.found.add ended }
      let s ← n.state state
      if s.isRuleStop then
        match frames with
        | [] => return { w with found := w.found.add ended }
        | resume :: outer =>
            let rule ← ruleOf n resume
            visit n stop ended fuel (called.filter (· ≠ rule)) outer resume w
      else
        s.transitions.foldlM (fun w t =>
          match t with
          | .call target rule _ follow =>
              if n.ruleStarts.size ≤ rule then .error (.noSuchRule rule)
              else if called.contains rule then .ok w
              else visit n stop ended fuel (rule :: called) (follow :: frames) target w
          | .wildcard _ =>
              .ok { w with found := w.found.addRange Symbol.firstToken n.maxToken }
          | .notSet _ labels =>
              .ok { w with
                found := w.found.addSet (labels.complement Symbol.firstToken n.maxToken) }
          | t =>
              match t.label? with
              | some labels => .ok { w with found := w.found.addSet labels }
              | none => visit n stop ended fuel called frames t.target w) w

/-- What is known about the callers of the rule where a walk starts. -/
inductive Callers where
  /-- Nothing; the end of the rule is recorded as `epsilon`. -/
  | unknown
  /-- The follow states of all calls, innermost first. The outermost rule is the start
  rule, whose end is recorded as `eof`. -/
  | chain (frames : List Nat)
  deriving DecidableEq, Repr

def Callers.frames : Callers → List Nat
  | unknown => []
  | chain frames => frames

def Callers.ended : Callers → Symbol
  | unknown => Symbol.epsilon
  | chain _ => Symbol.eof

/-- More than the number of pairs of a state and frames that a walk can meet: frames are
never more than the initial ones and one for each rule. -/
def bound (n : Network) (frames : List Nat) : Nat :=
  Nat.pow (n.states.size + frames.length + 2) (frames.length + n.ruleStarts.size + 2)

end Lookahead

namespace Network

/-- The symbols that can follow `state` below the frames of its callers. Paths end at
`stop`, if given. -/
def look (n : Network) (state : Nat) (stop : Option Nat) (callers : Lookahead.Callers) :
    Except Fault IntervalSet :=
  let frames := callers.frames
  (Lookahead.visit n stop callers.ended (Lookahead.bound n frames) [] frames state {}).map
    Lookahead.Walk.found

/-- The symbols that can follow `state` inside its rule. -/
def nextTokens (n : Network) (state : Nat) : Except Fault IntervalSet :=
  n.look state none .unknown

/-- The symbols that can follow `state` below the calls made from `invoking`, innermost
first. -/
def nextTokensInContext (n : Network) (state : Nat) (invoking : List Nat) :
    Except Fault IntervalSet :=
  n.look state none (.chain (n.followStates invoking))

/-- Climb out of rules as long as their ends can be reached, collecting what can follow. -/
def climb (n : Network) (found : IntervalSet) : List Nat → Except Fault IntervalSet
  | [] => .ok (found.add Symbol.eof)
  | invoking :: outer =>
      match n.followState? invoking with
      | none => .ok (found.add Symbol.eof)
      | some follow => do
          let following ← n.nextTokens follow
          let found := (found.addSet following).remove Symbol.epsilon
          if following.contains Symbol.epsilon then n.climb found outer else .ok found

/-- The symbols that a parser could accept at `state` below the calls made from `invoking`. -/
def expectedTokens (n : Network) (state : Nat) (invoking : List Nat) :
    Except Fault IntervalSet := do
  let following ← n.nextTokens state
  if following.contains Symbol.epsilon then n.climb (following.remove Symbol.epsilon) invoking
  else .ok following

/-- One lookahead set for each edge of a state. An alternative whose set is empty can only
be taken by a guard. -/
def decisionLookahead (n : Network) (state : Nat) : Except Fault (List IntervalSet) := do
  let s ← n.state state
  s.transitions.mapM fun t => n.look t.target none .unknown

end Network

end AdaptiveLL
