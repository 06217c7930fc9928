import AdaptiveLL.Network.Lookahead
import AdaptiveLL.Prediction.Closure
/-!
Reaching on: the threads of a set that read the next symbol, closed again. At the end of the
input, only threads count that have finished their rules.
-/
namespace AdaptiveLL.Prediction

variable {σ τ : Type} [TokenSource σ]

/-- The threads behind the edges that read the symbol, and the threads that have nothing
left to read. The latter survive the end of the input, and with the full context any
symbol. -/
def moved (q : Problem τ) (configs : ConfigurationSet) (symbol : Symbol) (fullContext : Bool) :
    Prediction σ τ (ConfigurationSet × List Configuration) := do
  let n := q.grammar.network
  configs.toList.foldlM
    (fun (moved, finished) c => do
      let s ← Step.ofQuestion (n.state c.state)
      if s.isRuleStop then
        if fullContext || symbol == Symbol.eof then return (moved, finished ++ [c])
        else return (moved, finished)
      else
        let moved ← s.transitions.foldlM
          (fun moved t =>
            if t.reads symbol 0 n.maxToken then addTo moved { c with state := t.target }
            else pure moved)
          moved
        return (moved, finished))
    ({ fullContext }, [])

/-- The threads that have finished their rules. If the set was not closed, threads that can
finish without reading are moved to the end. -/
def finishedOnly (q : Problem τ) (configs : ConfigurationSet) (unclosed : Bool) :
    Prediction σ τ ConfigurationSet := do
  let n := q.grammar.network
  if ← Step.ofQuestion (configs.allInRuleStop n) then return configs
  configs.toList.foldlM
    (fun result c => do
      let s ← Step.ofQuestion (n.state c.state)
      if s.isRuleStop then addTo result c
      else if unclosed && s.isEpsilonOnly then
        let following ← Step.ofQuestion (n.nextTokens c.state)
        match n.ruleStops[s.rule]?, following.contains Symbol.epsilon with
        | some stop, true => addTo result { c with state := stop }
        | _, _ => return result
      else return result)
    { fullContext := configs.fullContext }

/-- The set reached by a symbol, or nothing if all threads end. -/
def reach (q : Problem τ) (configs : ConfigurationSet) (symbol : Symbol) (fullContext : Bool) :
    Prediction σ τ (Option ConfigurationSet) := do
  let n := q.grammar.network
  let atEnd := symbol == Symbol.eof
  let (moved, finished) ← moved q configs symbol fullContext
  -- A single alternative is settled, so that its threads need not be closed.
  let settled := finished.isEmpty && !atEnd && (moved.size == 1 || moved.agreedAlt != noAlt)
  let reached ←
    if settled then pure moved
    else do
      let closure ← moved.toList.foldlM
        (fun acc c => close q { fullContext, crossEof := atEnd } q.fuel false 0 c acc)
        { configs := { fullContext } }
      pure closure.configs
  let reached ← if atEnd then finishedOnly q reached settled else pure reached
  let ended ← Step.ofQuestion (reached.anyInRuleStop n)
  let reached ← if fullContext && ended then pure reached else finished.foldlM addTo reached
  return if reached.isEmpty then none else some reached

end AdaptiveLL.Prediction
