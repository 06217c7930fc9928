import AdaptiveLL.Options
import AdaptiveLL.Prediction.Configuration
/-!
Conflicts: two or more alternatives that reach the same state with the same call stacks.
Prediction without context stops on a set in which no alternative has a state of its own;
prediction with the full context stops as soon as the conflicts agree on an alternative.
-/
namespace AdaptiveLL

namespace Conflict

def hasConflict (subsets : List AltSet) : Bool :=
  subsets.any (1 < ·.length)

def hasSettled (subsets : List AltSet) : Bool :=
  subsets.any (·.length == 1)

def allConflict (subsets : List AltSet) : Bool :=
  !hasSettled subsets

def allEqual : List AltSet → Bool
  | [] => true
  | first :: rest => rest.all (· == first)

/-- Every alternative of the subsets. -/
def alts (subsets : List AltSet) : AltSet :=
  .ofList subsets.flatten

/-- The only alternative of the subsets, if there is just one. -/
def uniqueAlt (subsets : List AltSet) : Nat :=
  match alts subsets with
  | [alt] => alt
  | _ => noAlt

/-- The least alternative of each subset, if they agree on it. -/
def viableAlt (subsets : List AltSet) : Nat :=
  match subsets.filterMap List.head? with
  | [] => noAlt
  | first :: rest => if rest.all (· == first) then first else noAlt

/-- Whether some state is reached by one alternative alone. -/
def hasOwnState (set : ConfigurationSet) : Bool :=
  set.stateAlts.any (·.2.length == 1)

/-- The threads without their guards. -/
def stripped (set : ConfigurationSet) (graph : StackGraph) : ConfigurationSet × StackGraph :=
  let (bare, s) := set.toList.foldl
    (fun (acc, s) c => acc.insert { c with guard := .always } s)
    ({ fullContext := set.fullContext : ConfigurationSet }, { graph := graph : Stacks })
  (bare, s.graph)

/-- Whether prediction without context stops on the set: all threads have finished the
rule, or alternatives are in conflict and none has a state of its own. In the mode that
never looks at the call stack, guards do not tell threads apart. -/
def stops (mode : PredictionMode) (n : Network) (set : ConfigurationSet) (graph : StackGraph) :
    Except Fault (Bool × StackGraph) := do
  if ← set.allInRuleStop n then return (true, graph)
  let (set, graph) := if mode == .sll && set.hasGuards then stripped set graph else (set, graph)
  return (hasConflict set.altSubsets && !hasOwnState set, graph)

end Conflict

end AdaptiveLL
