import AdaptiveLL.Prediction.Simulation
/-!
Closures: the threads that can be reached from a thread without reading a symbol. A thread that
ends its rule returns to the caller on top of its stacks. With the full context, the end of the
last rule is kept; without, the thread goes on behind every call of its rule.

Without context, guards are put to the guard of the thread. With the full context they are
evaluated at once, with the input back at the decision.
-/
namespace AdaptiveLL

/-- A closure under construction. -/
structure Closure where
  configs : ConfigurationSet
  /-- Threads that need not be followed again. -/
  busy : List Configuration := []
  deriving Repr

namespace Prediction

variable {σ τ : Type} [TokenSource σ]

/-- What does not change during a closure. -/
structure ClosureMode where
  fullContext : Bool
  /-- Whether edges that read the end of the input are crossed. -/
  crossEof : Bool
  deriving DecidableEq, Repr

/-- Cross a guard. The answer is nothing if it certainly does not hold. -/
def crossGuard (q : Problem τ) (full collect : Bool) (c : Configuration) (target : Nat)
    (g : Guard) : Prediction σ τ (Option Configuration) := do
  let moved := { c with state := target }
  if !collect then return some moved
  if full then
    let here ← index
    seek q.start
    let answer ← holds q g
    seek here
    return if answer then some moved else none
  return some { moved with guard := c.guard.and g }

/-- Cross an edge without reading, if that is possible. `inRule` says whether the thread is
still in the rule of the decision. -/
def cross (q : Problem τ) (mode : ClosureMode) (collect inRule : Bool) (c : Configuration)
    (t : Transition) : Prediction σ τ (Option Configuration) := do
  match t with
  | .call target _ _ follow =>
      let stack ← pushFrame c.stack follow
      return some { c with state := target, stack }
  | .precedence target level =>
      crossGuard q mode.fullContext (collect && inRule) c target (.precedence level)
  | .predicate target rule index contextual =>
      crossGuard q mode.fullContext (collect && (!contextual || inRule)) c target
        (.predicate rule index contextual)
  | .action target .. | .epsilon target _ => return some { c with state := target }
  | .atom target _ | .range target .. | .set target _ =>
      return if mode.crossEof && t.reads Symbol.eof 0 1 then some { c with state := target } else none
  | .notSet .. | .wildcard _ => return none

/-- Whether the edge returns from the outermost call of the left-recursive rule that the
decision belongs to. -/
def leavesOperatorRule (q : Problem τ) (rule : Nat) : Transition → Bool
  | .epsilon _ (some outermost) => q.byPrecedence && outermost == rule
  | _ => false

def isAction : Transition → Bool
  | .action .. => true
  | _ => false

def isCall : Transition → Bool
  | .call .. => true
  | _ => false

/-- Follow one edge of the state of `c`, where `decisionRule` is the rule of the decision. -/
def followEdge (q : Problem τ) (mode : ClosureMode) (decisionRule : Nat)
    (close : Bool → Int → Configuration → Closure → Prediction σ τ Closure)
    (collect : Bool) (depth : Int) (c : Configuration) (s : State) (acc : Closure)
    (t : Transition) : Prediction σ τ Closure := do
  let collect := collect && !isAction t
  match ← cross q mode collect (depth == 0) c t with
  | none => return acc
  | some target =>
      if s.isRuleStop then
        let target := { target with
          suppressed := target.suppressed || leavesOperatorRule q decisionRule t
          outerDepth := target.outerDepth + 1 }
        if acc.busy.any target.same then return acc
        close collect (depth - 1) target
          { configs := { acc.configs with dipsOutside := true }, busy := target :: acc.busy }
      else
        let depth := if isCall t && decide (0 ≤ depth) then depth + 1 else depth
        if t.isEpsilon then close collect depth target acc
        else if acc.busy.any target.same then return acc
        else close collect depth target { acc with busy := target :: acc.busy }

/-- Keep the thread if its state reads something, and follow the edges. -/
def expand (q : Problem τ) (mode : ClosureMode)
    (close : Bool → Int → Configuration → Closure → Prediction σ τ Closure)
    (collect : Bool) (depth : Int) (c : Configuration) (acc : Closure) :
    Prediction σ τ Closure := do
  let n := q.grammar.network
  let s ← Step.ofQuestion (n.state c.state)
  let acc ←
    if s.isEpsilonOnly then pure acc
    else do pure { acc with configs := ← addTo acc.configs c }
  let decisionRule := (← Step.ofQuestion (n.state q.decisionState)).rule
  s.transitions.foldlM (followEdge q mode decisionRule close collect depth c s) acc

/-- Close over one thread, to a depth of at most `fuel`. `collect` says whether guards
count, and `depth` how many calls the thread is away from the rule of the decision. -/
def close (q : Problem τ) (mode : ClosureMode) :
    Nat → Bool → Int → Configuration → Closure → Prediction σ τ Closure
  | 0, _, _, _, _ => throw (.fault .exhausted)
  | fuel + 1, collect, depth, c, acc => do
      let s ← Step.ofQuestion (q.grammar.network.state c.state)
      let onward := expand q mode (close q mode fuel) collect depth
      if !s.isRuleStop then onward c acc
      else if c.stack = 0 then
        if mode.fullContext then return { acc with configs := ← addTo acc.configs c }
        else onward c acc
      else
        let node := (← get).tables.graph.node c.stack
        node.entries.foldlM
          (fun acc (parent, resume) => do
            if resume = noState then
              if mode.fullContext then
                return { acc with configs := ← addTo acc.configs { c with stack := 0 } }
              else onward c acc
            else
              close q mode fuel collect (depth - 1)
                { c with state := resume, stack := parent, actions := none, passedNonGreedy := false }
                acc)
          acc

/-- The threads with which a prediction starts: one for each alternative, closed. -/
def startConfigs (q : Problem τ) (fullContext : Bool) (stack : Nat) :
    Prediction σ τ ConfigurationSet := do
  let s ← Step.ofQuestion (q.grammar.network.state q.decisionState)
  let mode : ClosureMode := { fullContext, crossEof := false }
  s.transitions.zipIdx.foldlM
    (fun configs (t, i) => do
      let c := { state := t.target, alt := i + 1, stack }
      return (← close q mode q.fuel true 0 c { configs }).configs)
    { fullContext }

end Prediction

end AdaptiveLL
