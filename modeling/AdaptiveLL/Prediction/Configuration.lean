import AdaptiveLL.Prediction.Guard
import AdaptiveLL.Prediction.StackGraph
/-!
Configurations: the threads of a simulation. A thread stands in a state of the network, was
started for one alternative of the decision, and carries its call stacks and the guards it
has crossed. In a parser set the threads that agree in state, alternative and guard are one,
with the union of their stacks. In a lexer set the order of the threads is their priority,
and a thread that is there already is not added again.
-/
namespace AdaptiveLL

/-- A set of alternatives in ascending order. Alternatives are counted from 1. -/
abbrev AltSet := List Nat

namespace AltSet

def insert (alt : Nat) : AltSet → AltSet
  | [] => [alt]
  | a :: rest =>
      if alt < a then alt :: a :: rest else if alt = a then a :: rest else a :: insert alt rest

def ofList (alts : List Nat) : AltSet :=
  alts.foldl (fun acc a => insert a acc) []

def render (alts : AltSet) : String :=
  "\x7b" ++ String.intercalate ", " (alts.map toString) ++ "\x7d"

end AltSet

/-- Stands for "no alternative". -/
def noAlt : Nat := 0

structure Configuration where
  state : Nat
  alt : Nat
  /-- The node of the stack graph that holds the call stacks of the thread. -/
  stack : Nat := 0
  guard : Guard := .always
  /-- How often the thread left a rule without knowing its caller. -/
  outerDepth : Nat := 0
  /-- Whether the thread returned from the outermost call of the left-recursive rule that
  the decision belongs to, so that the precedence filter has to keep it. -/
  suppressed : Bool := false
  /-- The lexer commands that the thread has crossed. -/
  actions : Option ActionList := none
  /-- Whether the thread passed a decision of a non-greedy loop. -/
  passedNonGreedy : Bool := false
  deriving DecidableEq, Repr, Inhabited

namespace Configuration

/-- Equality of threads, which does not ask how they came to leave their rules. -/
def same (a b : Configuration) : Bool :=
  a.state == b.state && a.alt == b.alt && a.stack == b.stack && a.guard == b.guard &&
    a.suppressed == b.suppressed && a.passedNonGreedy == b.passedNonGreedy &&
    a.actions == b.actions

/-- Whether the two threads share one place in a parser set. -/
def sameKey (a b : Configuration) : Bool :=
  a.state == b.state && a.alt == b.alt && a.guard == b.guard

def render (c : Configuration) : String :=
  "(" ++ toString c.state ++ "," ++ toString c.alt ++ ",ctx#" ++ toString c.stack ++
    (if c.guard.isAlways then "" else "," ++ c.guard.render) ++
    (if c.outerDepth = 0 then "" else ",up=" ++ toString c.outerDepth) ++ ")"

end Configuration

structure ConfigurationSet where
  items : Array Configuration := #[]
  /-- Whether the stacks are exact, so that the empty stack is no wildcard. -/
  fullContext : Bool := false
  /-- Whether this is a lexer set. -/
  ordered : Bool := false
  /-- The alternative of all threads, once prediction has settled on it. -/
  uniqueAlt : Nat := noAlt
  /-- The alternatives in conflict, once prediction has stopped on this set. -/
  conflicting : Option AltSet := none
  hasGuards : Bool := false
  dipsOutside : Bool := false
  deriving DecidableEq, Repr, Inhabited

namespace ConfigurationSet

/-- Put the stacks of `c` to those of a thread with the same place. -/
def absorb (merged : Nat) (c : Configuration) (existing : Configuration) : Configuration :=
  { existing with
    stack := merged
    outerDepth := max existing.outerDepth c.outerDepth
    suppressed := existing.suppressed || c.suppressed }

/-- Add a thread. The first answer says whether the set grew. -/
def add (set : ConfigurationSet) (c : Configuration) (s : Stacks) :
    Bool × ConfigurationSet × Stacks :=
  let set := { set with
    hasGuards := set.hasGuards || !c.guard.isAlways
    dipsOutside := set.dipsOutside || 0 < c.outerDepth }
  let known := if set.ordered then Configuration.same c else Configuration.sameKey c
  match set.items.findIdx? known with
  | none => (true, { set with items := set.items.push c }, s)
  | some k =>
      if set.ordered then (false, set, s)
      else
        let existing := set.items[k]?.getD c
        let (merged, s) := s.merge (!set.fullContext) existing.stack c.stack
        (false, { set with items := set.items.modify k (absorb merged c) }, s)

/-- Add a thread, whether or not it is new. -/
def insert (set : ConfigurationSet) (c : Configuration) (s : Stacks) : ConfigurationSet × Stacks :=
  (set.add c s).2

def toList (set : ConfigurationSet) : List Configuration :=
  set.items.toList

def size (set : ConfigurationSet) : Nat :=
  set.items.size

def isEmpty (set : ConfigurationSet) : Bool :=
  set.items.isEmpty

def contains (set : ConfigurationSet) (c : Configuration) : Bool :=
  set.toList.any (·.same c)

/-- Equality of sets, thread by thread. -/
def same (a b : ConfigurationSet) : Bool :=
  a.size == b.size && (a.toList.zip b.toList).all (fun (x, y) => x.same y) &&
    a.fullContext == b.fullContext && a.uniqueAlt == b.uniqueAlt &&
    a.conflicting == b.conflicting && a.hasGuards == b.hasGuards &&
    a.dipsOutside == b.dipsOutside

def alts (set : ConfigurationSet) : AltSet :=
  .ofList (set.toList.map Configuration.alt)

/-- Add an alternative to the group with a key; groups are kept in the order of keys. -/
def group (lt : Nat × Nat → Nat × Nat → Bool) (key : Nat × Nat) (alt : Nat) :
    List ((Nat × Nat) × AltSet) → List ((Nat × Nat) × AltSet)
  | [] => [(key, [alt])]
  | (k, alts) :: rest =>
      if key = k then (k, alts.insert alt) :: rest
      else if lt key k then (key, [alt]) :: (k, alts) :: rest
      else (k, alts) :: group lt key alt rest

def keyLt (a b : Nat × Nat) : Bool :=
  a.1 < b.1 || (a.1 == b.1 && a.2 < b.2)

def groupBy (set : ConfigurationSet) (key : Configuration → Nat × Nat) :
    List ((Nat × Nat) × AltSet) :=
  set.toList.foldl (fun acc c => group keyLt (key c) c.alt acc) []

/-- The alternatives that reach each pair of a state and stacks. From there on they cannot
be told apart. -/
def altSubsets (set : ConfigurationSet) : List AltSet :=
  (set.groupBy fun c => (c.state, c.stack)).map Prod.snd

/-- The alternatives that reach each state. -/
def stateAlts (set : ConfigurationSet) : List (Nat × AltSet) :=
  (set.groupBy fun c => (c.state, 0)).map fun (key, alts) => (key.1, alts)

/-- The alternative of all threads, if they agree. -/
def agreedAlt (set : ConfigurationSet) : Nat :=
  match set.toList.map Configuration.alt with
  | [] => noAlt
  | first :: rest => if rest.all (· == first) then first else noAlt

/-- Whether some thread has finished its rule. -/
def anyInRuleStop (set : ConfigurationSet) (n : Network) : Except Fault Bool :=
  set.toList.anyM fun c => return (← n.state c.state).isRuleStop

/-- Whether all threads have finished their rules. -/
def allInRuleStop (set : ConfigurationSet) (n : Network) : Except Fault Bool :=
  set.toList.allM fun c => return (← n.state c.state).isRuleStop

def render (set : ConfigurationSet) : String :=
  "[" ++ String.intercalate "," (set.toList.map Configuration.render) ++ "]" ++
    (if set.hasGuards then ",hasSemanticContext" else "") ++
    (if set.uniqueAlt = noAlt then "" else ",uniqueAlt=" ++ toString set.uniqueAlt) ++
    (match set.conflicting with
      | some alts => ",conflictingAlts=" ++ alts.render
      | none => "") ++
    (if set.dipsOutside then ",dipsIntoOuterContext" else "")

end ConfigurationSet

end AdaptiveLL
