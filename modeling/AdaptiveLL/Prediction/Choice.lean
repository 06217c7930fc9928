import AdaptiveLL.Prediction.Conflict
import AdaptiveLL.Prediction.Simulation
/-!
Choosing among threads: by guards at the states where prediction stops, by precedence at the
start of an operator loop, and by what has been finished where prediction runs into a dead
end.
-/
namespace AdaptiveLL.Prediction

variable {σ τ : Type}

/-- The guard of an alternative, which holds if the guard of one of its threads does. -/
def guardOf (configs : ConfigurationSet) (alt : Nat) : Guard :=
  match (configs.toList.filter (·.alt == alt)).map Configuration.guard with
  | [] => .always
  | first :: rest => rest.foldl Guard.or first

/-- The guards of alternatives, if one of them has any. -/
def guardsOf (alts : AltSet) (configs : ConfigurationSet) (altCount : Nat) :
    Option (List (Guard × Nat)) :=
  let listed := alts.filter fun alt => decide (1 ≤ alt) && decide (alt ≤ altCount)
  let guards := listed.map fun alt => (guardOf configs alt, alt)
  if guards.all (·.1.isAlways) then none else some guards

/-- Complete a state where prediction stops: by the guards of its alternatives, or without
guards by the least alternative. -/
def withGuards (altCount : Nat) (d : TableState) : TableState :=
  let alts :=
    if d.configs.uniqueAlt ≠ noAlt then [d.configs.uniqueAlt] else d.configs.conflicting.getD []
  match guardsOf alts d.configs altCount with
  | some guards => { d with guards := some guards, prediction := noAlt }
  | none => { d with prediction := alts.head?.getD noAlt }

/-- The alternatives whose guards hold. -/
def viable (q : Problem τ) (guards : List (Guard × Nat)) : Prediction σ τ AltSet :=
  guards.foldlM
    (fun alts (g, alt) => do return if ← admits q g then alts.insert alt else alts) []

/-- The threads of the first alternative with their precedence predicates evaluated, without
those whose guards are certainly false. The first alternative of an operator loop takes
another operator. -/
def operatorThreads (q : Problem τ) (configs : ConfigurationSet) :
    Prediction σ τ (List Configuration) := do
  let threads ← (configs.toList.filter (·.alt == 1)).mapM fun c => do
    let remaining ← c.guard.evalPrecedence (evaluator q) q.situation.node
    return remaining.map fun guard => { c with guard }
  return threads.filterMap id

/-- The stack with which the last of the threads reached a state. -/
def stackAt? (threads : List Configuration) (state : Nat) : Option Nat :=
  (threads.reverse.find? (·.state == state)).map Configuration.stack

/-- Drop the operators that the current precedence rules out. Of the other alternatives,
drop the threads that stand where an operator thread stands, unless they have left the
outermost call of the rule. -/
def filterByPrecedence (q : Problem τ) (configs : ConfigurationSet) :
    Prediction σ τ ConfigurationSet := do
  let operators ← operatorThreads q configs
  let others := configs.toList.filter fun c =>
    c.alt ≠ 1 && (c.suppressed || stackAt? operators c.state != some c.stack)
  (operators ++ others).foldlM addTo { fullContext := configs.fullContext }

/-- Whether the thread has finished the rule of the decision. -/
def hasFinished (n : Network) (graph : StackGraph) (c : Configuration) : Bool :=
  0 < c.outerDepth ||
    ((n.states[c.state]?.map State.isRuleStop).getD false && (graph.node c.stack).hasEmptyStack)

/-- The least alternative that has finished the rule of the decision. -/
def finishedAlt (n : Network) (graph : StackGraph) (threads : List Configuration) : Nat :=
  ((AltSet.ofList ((threads.filter (hasFinished n graph)).map Configuration.alt)).head?).getD noAlt

/-- At a dead end, the alternative that has finished the rule of the decision, if there is
one. Threads whose guards hold come first. -/
def fallback (q : Problem τ) (configs : ConfigurationSet) : Prediction σ τ Nat := do
  let judged ← configs.toList.mapM fun c => do return (c, ← admits q c.guard)
  let n := q.grammar.network
  let graph := (← get).tables.graph
  let pick := fun (valid : Bool) =>
    finishedAlt n graph ((judged.filter (·.2 == valid)).map Prod.fst)
  return if pick true ≠ noAlt then pick true else pick false

end AdaptiveLL.Prediction
