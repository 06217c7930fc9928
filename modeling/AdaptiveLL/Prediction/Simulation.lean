import AdaptiveLL.Grammar.Basic
import AdaptiveLL.Prediction.Table
import AdaptiveLL.Recognition.Report
import AdaptiveLL.Stream.TokenStream
/-!
The state of a simulation, and what one prediction depends on besides that state.

Predicates are answered by the host of the parser, which keeps a state of its own. Every
predicate is asked with the input back at the decision; the question names the position of
the input, so that this can be observed.
-/
namespace AdaptiveLL

/-- How a decision was predicted so far. -/
structure DecisionStats where
  decision : Nat
  invocations : Nat := 0
  /-- The number of tokens looked at without context. -/
  localLookahead : Nat := 0
  /-- The number of tokens looked at with the full context. -/
  fullLookahead : Nat := 0
  fallbacks : Nat := 0
  ambiguities : Nat := 0
  contextSensitivities : Nat := 0
  errors : Nat := 0
  deriving DecidableEq, Repr, Inhabited

/-- A question to the host. -/
structure Question where
  /-- The place of the input's cursor. -/
  position : Nat
  /-- The rule context, if the predicate depends on it. -/
  node : Option NodeId
  rule : Nat
  index : Nat
  deriving DecidableEq, Repr

/-- What predictions read and change, for sources of type `σ` and hosts with states of
type `τ`. -/
structure Simulation (σ τ : Type) where
  input : TokenStream σ
  host : τ
  tables : Tables
  stats : Array DecisionStats
  reports : Array Report := #[]
  deriving Repr

namespace Simulation

variable {σ τ : Type}

def ofInput (n : Network) (tables : Tables) (input : TokenStream σ) (host : τ) :
    Simulation σ τ where
  input
  host
  tables
  stats := n.decisions.mapIdx fun decision _ => { decision }

def modifyStats (s : Simulation σ τ) (decision : Nat) (f : DecisionStats → DecisionStats) :
    Simulation σ τ :=
  { s with stats := s.stats.modify decision f }

def report (s : Simulation σ τ) (r : Report) : Simulation σ τ :=
  { s with reports := s.reports.push r }

end Simulation

/-- What the parser that asks for a prediction contributes to it. -/
structure Situation (τ : Type) where
  /-- The current rule context. -/
  node : Option NodeId
  /-- The states that made the calls which the parser is in, innermost first. -/
  invoking : List Nat
  /-- The precedence of the innermost call of a left-recursive rule. -/
  precedence : Int
  /-- The state of the parser. -/
  state : Nat
  /-- The answer of the host to a predicate. -/
  ask : Question → τ → Bool × τ

/-- One decision to be predicted. -/
structure Problem (τ : Type) where
  grammar : Grammar
  mode : PredictionMode
  /-- A bound on the depth of closures and on the number of tokens looked at. -/
  fuel : Nat
  decision : Nat
  decisionState : Nat
  /-- Whether the decision is the operator loop of a left-recursive rule. -/
  byPrecedence : Bool
  /-- The place of the input where the decision stands. -/
  start : Nat
  situation : Situation τ

/-- A step of a prediction. -/
abbrev Prediction (σ τ : Type) := Step (Simulation σ τ)

namespace Prediction

variable {σ τ : Type}

/-- Change the configuration set and the stacks it refers to. -/
def addTo (set : ConfigurationSet) (c : Configuration) : Prediction σ τ ConfigurationSet := do
  let s ← get
  let (set, arena) := set.insert c s.tables.arena
  modify fun s => { s with tables := { s.tables with arena } }
  return set

def pushFrame (parent resume : Nat) : Prediction σ τ Nat := do
  let s ← get
  let (id, arena) := s.tables.arena.push parent resume
  modify fun s => { s with tables := { s.tables with arena } }
  return id

/-- Ask the host. -/
def ask (q : Problem τ) (node : Option NodeId) (rule index : Nat) : Prediction σ τ Bool := do
  let s ← get
  let (holds, host) := q.situation.ask { position := s.input.index, node, rule, index } s.host
  set { s with host }
  return holds

/-- Predicates are answered by the host, levels by the current precedence. -/
def evaluator (q : Problem τ) : Guard.Evaluator (Prediction σ τ) where
  predicate := ask q
  precedence _ level := pure (decide (q.situation.precedence ≤ level))

def holds (q : Problem τ) (g : Guard) : Prediction σ τ Bool :=
  g.eval (evaluator q) q.situation.node

/-- Whether a thread without guards, or whose guards hold. -/
def admits (q : Problem τ) (g : Guard) : Prediction σ τ Bool :=
  if g.isAlways then pure true else holds q g

variable [TokenSource σ]

/-- Use the token stream. -/
def onInput {α : Type} (f : TokenStream σ → α × TokenStream σ) : Prediction σ τ α := do
  let s ← get
  let (a, input) := f s.input
  set { s with input }
  return a

def current : Prediction σ τ Symbol :=
  onInput (TokenStream.lookahead 1)

def index : Prediction σ τ Nat := do
  return (← get).input.index

def seek (place : Nat) : Prediction σ τ Unit :=
  onInput fun input => ((), input.seek place)

def consume : Prediction σ τ Unit :=
  onInput fun input => ((), input.consume)

/-- Go on to the next token, unless `symbol` is the end of the input. -/
def advance (symbol : Symbol) : Prediction σ τ Symbol := do
  if symbol = Symbol.eof then return symbol
  consume
  current

end Prediction

end AdaptiveLL
