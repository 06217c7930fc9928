import AdaptiveLL.Prediction.Configuration
import AdaptiveLL.Vocabulary
/-!
Prediction tables. What a simulation finds out about a decision is kept in an automaton:
its states are the configuration sets that were reached, its edges the symbols that lead
from one to the next.

A table can be cleared while states of it are still held. A state belongs to the generation
of its table in which it was added; one of an earlier generation reads nothing from the
table and writes nothing to it.
-/
namespace AdaptiveLL

structure TableState where
  /-- The place of the state in its table. -/
  number : Nat := noState
  generation : Nat := 0
  configs : ConfigurationSet
  isAccept : Bool := false
  /-- The alternative of an accept state, unless guards decide. -/
  prediction : Nat := noAlt
  /-- In a lexer, the token type and the commands of the rule that won. -/
  tokenType : Option Symbol := none
  actions : Option ActionList := none
  /-- Whether prediction has to start again with the full context. -/
  needsFullContext : Bool := false
  /-- The guards that decide between the alternatives of an accept state. -/
  guards : Option (List (Guard × Nat)) := none
  deriving DecidableEq, Repr, Inhabited

/-- Where an edge leads; a symbol that ends every thread leads nowhere. -/
inductive TableTarget where
  | state (s : TableState)
  | dead
  deriving DecidableEq, Repr, Inhabited

namespace TableState

/-- What an accept state predicts. -/
def verdict (s : TableState) : String :=
  match s.guards, s.tokenType with
  | some guards, _ =>
      "[" ++ String.intercalate ", "
        (guards.map fun (g, alt) => "(" ++ g.render ++ ", " ++ toString alt ++ ")") ++ "]"
  | none, some t => toString t
  | none, none => toString s.prediction

def label (s : TableState) : String :=
  (if s.isAccept then ":" else "") ++ "s" ++ toString s.number ++
    (if s.needsFullContext then "^" else "") ++
    (if s.isAccept then "=>" ++ s.verdict else "")

end TableState

structure PredictionTable where
  decision : Nat
  /-- The decision state or the start state of the lexer mode. -/
  startState : Nat
  byPrecedence : Bool := false
  generation : Nat := 0
  states : Array TableState := #[]
  /-- Edges by source and symbol; an edge to no state is a dead end. -/
  edges : List ((Nat × Symbol) × Option Nat) := []
  start : Option Nat := none
  precedenceStarts : List (Int × Nat) := []
  deriving Repr, Inhabited

namespace PredictionTable

/-- Whether the state is the one that the table has now under its number: that one was added in the
same generation. -/
def holds (t : PredictionTable) (s : TableState) : Bool :=
  t.states[s.number]?.any (·.generation == s.generation)

theorem holds_of_stored {t : PredictionTable} {s : TableState}
    (here : t.states[s.number]? = some s) : t.holds s = true := by
  simp [holds, here]

def start? (t : PredictionTable) : Option TableState :=
  t.start.bind (t.states[·]?)

def setStart (t : PredictionTable) (s : TableState) : PredictionTable :=
  if t.holds s then { t with start := some s.number } else t

def precedenceStart? (t : PredictionTable) (precedence : Int) : Option TableState :=
  (t.precedenceStarts.lookup precedence).bind (t.states[·]?)

def setPrecedenceStart (t : PredictionTable) (precedence : Int) (s : TableState) :
    PredictionTable :=
  if t.holds s then
    { t with
      precedenceStarts :=
        (precedence, s.number) :: t.precedenceStarts.filter (·.1 ≠ precedence) }
  else t

/-- Add a state, unless there is one with equal configurations. The answer is the state
that is in the table. -/
def addState (t : PredictionTable) (s : TableState) : TableState × PredictionTable :=
  match t.states.find? fun existing => existing.configs.same s.configs with
  | some existing => (existing, t)
  | none =>
      let s := { s with number := t.states.size, generation := t.generation }
      (s, { t with states := t.states.push s })

def edge? (t : PredictionTable) (source : TableState) (symbol : Symbol) : Option TableTarget :=
  if t.holds source then
    match t.edges.lookup (source.number, symbol) with
    | none => none
    | some none => some .dead
    | some (some target) => (t.states[target]?).map .state
  else none

def addEdge (t : PredictionTable) (source : TableState) (symbol : Symbol) (target : TableTarget) :
    PredictionTable :=
  let write := fun entry =>
    let key := (source.number, symbol)
    if t.holds source then { t with edges := (key, entry) :: t.edges.filter (·.1 ≠ key) } else t
  match target with
  | .dead => write none
  | .state s => if t.holds s then write (some s.number) else t

/-- Forget every state and edge. -/
def clear (t : PredictionTable) : PredictionTable :=
  { decision := t.decision, startState := t.startState, byPrecedence := t.byPrecedence,
    generation := t.generation + 1 }

/-- The edges that lead to states, by source, symbol and target. -/
def sortedEdges (t : PredictionTable) : List (Nat × Symbol × Nat) :=
  let live := t.edges.filterMap fun ((source, symbol), target) =>
    target.map fun target => (source, symbol, target)
  live.mergeSort fun (s, x, _) (s', x', _) => s < s' || (s == s' && decide (x ≤ x'))

/-- One line for each edge. -/
def render (t : PredictionTable) (name : Symbol → String) : String :=
  let label := fun k => (t.states[k]?.map TableState.label).getD ""
  String.join (t.sortedEdges.map fun (source, symbol, target) =>
    label source ++ "-" ++ name symbol ++ "->" ++ label target ++ "\n")

/-- The rendering of a parser table, with the names of token types. -/
def renderWith (t : PredictionTable) (v : Vocabulary) : String :=
  t.render v.displayName

/-- The rendering of a lexer table, with the characters themselves. -/
def renderChars (t : PredictionTable) : String :=
  t.render fun x =>
    if 0 ≤ x ∧ x.toNat.isValidChar then "'" ++ (Char.ofNat x.toNat).toString ++ "'"
    else toString x

end PredictionTable

/-- The tables of a grammar, one for each decision or lexer mode, and the stacks that their
configurations refer to. -/
structure Tables where
  tables : Array PredictionTable
  arena : Stacks := {}
  deriving Repr, Inhabited

namespace Tables

/-- Empty tables for a network. -/
def ofNetwork (n : Network) : Tables where
  tables :=
    match n.kind with
    | .parser => n.decisions.mapIdx fun decision state =>
        { decision, startState := state
          byPrecedence := (n.states[state]?.map State.precedenceLoop).getD false }
    | .lexer => n.modes.mapIdx fun mode state => { decision := mode, startState := state }

/-- The number of states in all tables. -/
def stateCount (t : Tables) : Nat :=
  t.tables.foldl (fun n table => n + table.states.size) 0

/-- The call stacks that the configurations of the tables refer to. -/
def graph (t : Tables) : StackGraph :=
  t.arena.graph

/-- Forget the merges made so far. -/
def forgetMerges (t : Tables) : Tables :=
  { t with arena := { t.arena with memo := [] } }

def modifyTable (t : Tables) (number : Nat) (f : PredictionTable → PredictionTable) : Tables :=
  { t with tables := t.tables.modify number f }

/-- Clear every table. The stacks stay. -/
def clear (t : Tables) : Tables :=
  { t with tables := t.tables.map PredictionTable.clear }

end Tables

end AdaptiveLL
