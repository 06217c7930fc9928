import AdaptiveLL.Grammar.Basic
import AdaptiveLL.Prediction.Table
import AdaptiveLL.Recognition.Error
import AdaptiveLL.Stream.CharStream
/-!
Matching one token. All rules of the current mode are followed at once, one thread for each,
in the order of their priority. The longest match wins, and of equally long ones the first
rule; once a rule has finished, its threads that went through a non-greedy loop end there.

Sets that depend on the answer to a predicate are not entered into the prediction table as
targets of edges.
-/
namespace AdaptiveLL

/-- What the host of a lexer answers and does, given the text matched so far. -/
structure LexerHost (τ : Type) where
  predicate : String → Nat → Nat → τ → Bool × τ := fun _ _ _ host => (true, host)
  action : String → Nat → Nat → τ → τ := fun _ _ _ host => host

/-- What a lexer depends on besides its state. -/
structure LexerSetup (τ : Type) where
  grammar : Grammar
  host : LexerHost τ
  /-- A bound on the depth of closures, and on the matches that give no token. -/
  fuel : Nat

structure Scanner (τ : Type) where
  input : CharStream
  host : τ
  tables : Tables
  /-- Where the current match began. -/
  start : Nat := 0
  line : Nat := 1
  column : Nat := 0
  deriving Repr

/-- The last position where a rule was finished. -/
structure Acceptance where
  position : Nat
  line : Nat
  column : Nat
  state : TableState
  deriving Repr

/-- The type of a token and the commands of its rule. -/
structure Match where
  type : Symbol
  actions : Option ActionList := none
  deriving DecidableEq, Repr

/-- A step of a scanner. -/
abbrev Scan (τ : Type) := Step (Scanner τ)

namespace Scanner

variable {τ : Type}

/-- Back to the first line, without a match. The input stays where it is. -/
def reset (s : Scanner τ) : Scanner τ :=
  { s with start := 0, line := 1, column := 0 }

/-- Step over one character and keep count of lines and columns. -/
def consume (s : Scanner τ) : Scanner τ :=
  let s :=
    if s.input.lookahead 1 = 10 then { s with line := s.line + 1, column := 0 }
    else { s with column := s.column + 1 }
  { s with input := s.input.consume }

/-- The text of the current match so far. -/
def text (s : Scanner τ) : String :=
  s.input.text s.start s.input.position

end Scanner

namespace Scan

variable {τ : Type}

/-- The same thread in another state. -/
def move (n : Network) (c : Configuration) (state : Nat) : Scan τ Configuration := do
  let s ← Step.ofQuestion (n.state state)
  return { c with state, passedNonGreedy := c.passedNonGreedy || (s.isDecision && s.nonGreedy) }

/-- Ask a predicate. Between two characters the current one counts as matched already. -/
def ask (u : LexerSetup τ) (speculative : Bool) (rule index : Nat) : Scan τ Bool := do
  let s ← get
  let shown := if speculative then s.consume else s
  let (answer, host) := u.host.predicate shown.text rule index s.host
  set { s with host }
  return answer

/-- What does not change during a closure. -/
structure ClosureMode where
  /-- Whether the closure is made between two characters. -/
  speculative : Bool
  /-- Whether edges that read the end of the input are crossed. -/
  crossEof : Bool
  deriving DecidableEq, Repr

/-- Whether the thread is in its token rule, and in no rule called from there. -/
def inTokenRule (c : Configuration) : Scan τ Bool := do
  return c.stack == 0 || ((← get).tables.graph.node c.stack).hasEmptyStack

/-- Cross an edge without reading, if that is possible. -/
def cross (u : LexerSetup τ) (mode : ClosureMode) (c : Configuration) (t : Transition) :
    Scan τ (Option Configuration) := do
  let n := u.grammar.network
  match t with
  | .call target _ _ follow =>
      let s ← get
      let (stack, arena) := s.tables.arena.push c.stack follow
      set { s with tables := { s.tables with arena } }
      return some { ← move n c target with stack }
  | .precedence .. => return none
  | .predicate target rule index _ =>
      if ← ask u mode.speculative rule index then return some (← move n c target) else return none
  | .action target _ index _ =>
      let moved ← move n c target
      match ← inTokenRule c, index.bind (n.actions[·]?) with
      | true, some action => return some { moved with actions := some (.push c.actions action) }
      | _, _ => return some moved
  | .epsilon target _ => return some (← move n c target)
  | .atom target _ | .range target .. | .set target _ =>
      if mode.crossEof && t.reads Symbol.eof 0 Symbol.lastChar then return some (← move n c target)
      else return none
  | .notSet .. | .wildcard _ => return none

def isPredicate : Transition → Bool
  | .predicate .. => true
  | _ => false

/-- Lexer sets merge no stacks. -/
def add (set : ConfigurationSet) (c : Configuration) : ConfigurationSet :=
  (set.insert c {}).1

/-- Close over one thread, to a depth of at most `fuel`. `accepted` says whether the rule of
the thread has finished before; the answer says whether it has finished now. -/
def close (u : LexerSetup τ) (mode : ClosureMode) :
    Nat → Configuration → Bool → ConfigurationSet → Scan τ (Bool × ConfigurationSet)
  | 0, _, _, _ => throw (.fault .exhausted)
  | fuel + 1, c, accepted, configs => do
      let n := u.grammar.network
      let s ← Step.ofQuestion (n.state c.state)
      if s.isRuleStop then
        if c.stack = 0 then return (true, add configs c)
        let node := (← get).tables.graph.node c.stack
        let (accepted, configs) :=
          if node.hasEmptyStack then (true, add configs { c with stack := 0 })
          else (accepted, configs)
        (node.entries.filter (·.2 ≠ noState)).foldlM
          (fun (accepted, configs) (parent, resume) => do
            let returned ← move n c resume
            close u mode fuel { returned with stack := parent } accepted configs)
          (accepted, configs)
      else
        let configs :=
          if !s.isEpsilonOnly && (!accepted || !c.passedNonGreedy) then add configs c else configs
        s.transitions.foldlM
          (fun (accepted, configs) t => do
            let configs := { configs with hasGuards := configs.hasGuards || isPredicate t }
            match ← cross u mode c t with
            | none => return (accepted, configs)
            | some target => close u mode fuel target accepted configs)
          (accepted, configs)

/-- The threads at the start of a match, one for each rule of the mode. -/
def startConfigs (u : LexerSetup τ) (state : Nat) : Scan τ ConfigurationSet := do
  let s ← Step.ofQuestion (u.grammar.network.state state)
  s.transitions.zipIdx.foldlM
    (fun configs (t, i) => do
      let c := { state := t.target, alt := i + 1 }
      return (← close u ⟨false, false⟩ u.fuel c false configs).2)
    { ordered := true }

/-- Let one thread read a symbol. Its edges are tried in order until the rule finishes. -/
def advanceThread (u : LexerSetup τ) (symbol : Symbol) (c : Configuration) (accepted : Bool) :
    List Transition → ConfigurationSet → Scan τ (Bool × ConfigurationSet)
  | [], configs => return (false, configs)
  | t :: rest, configs => do
      if !t.reads symbol 0 Symbol.lastChar then return ← advanceThread u symbol c accepted rest configs
      let s ← get
      let moved ← move u.grammar.network c t.target
      let moved := { moved with actions := c.actions.map (·.pin (s.input.position - s.start)) }
      let (finished, configs) ← close u ⟨true, symbol == Symbol.eof⟩ u.fuel moved accepted configs
      if finished then return (true, configs)
      advanceThread u symbol c accepted rest configs

/-- Let the threads read a symbol. Threads of a rule that has just finished are passed over
if they went through a non-greedy loop. -/
def reach (u : LexerSetup τ) (configs : ConfigurationSet) (symbol : Symbol) :
    Scan τ ConfigurationSet := do
  let n := u.grammar.network
  let (_, reached) ← configs.toList.foldlM
    (fun (finishedAlt, reached) c => do
      let accepted := finishedAlt == some c.alt
      if accepted && c.passedNonGreedy then return (finishedAlt, reached)
      let s ← Step.ofQuestion (n.state c.state)
      let (finished, reached) ← advanceThread u symbol c accepted s.transitions reached
      return (if finished then some c.alt else finishedAlt, reached))
    ((none, { ordered := true }) : Option Nat × ConfigurationSet)
  return reached

/-- Read and change the table of a mode. -/
def onTable {α : Type} [Inhabited α] (mode : Nat) (f : PredictionTable → α × PredictionTable) :
    Scan τ α := do
  let s ← get
  match s.tables.tables[mode]? with
  | none => return default
  | some table =>
      let (a, table) := f table
      set { s with tables := s.tables.modifyTable mode fun _ => table }
      return a

/-- The state of the table for a set of threads. The first thread that has finished decides
what the token is. -/
def addState (u : LexerSetup τ) (mode : Nat) (configs : ConfigurationSet) : Scan τ TableState := do
  let n := u.grammar.network
  let finished := configs.toList.findSome? fun c =>
    (n.states[c.state]?.filter State.isRuleStop).map fun s => (c, s.rule)
  let proposed : TableState := match finished with
    | some (c, rule) =>
        { configs, isAccept := true, tokenType := n.ruleTokens[rule]?, actions := c.actions }
    | none => { configs }
  onTable mode (·.addState proposed)

/-- The state for a set that may depend on predicates, and whether it does. -/
def enter (u : LexerSetup τ) (mode : Nat) (configs : ConfigurationSet) :
    Scan τ (TableState × Bool) := do
  let s ← addState u mode { configs with hasGuards := false }
  return (s, configs.hasGuards)

/-- Compute where a symbol leads. The end of the input is not entered into the table. -/
def computeTarget (u : LexerSetup τ) (mode : Nat) (source : TableState) (symbol : Symbol) :
    Scan τ TableTarget := do
  let configs ← reach u source.configs symbol
  let isChar := decide (0 ≤ symbol)
  if configs.isEmpty then
    if !configs.hasGuards && isChar then
      onTable mode fun table => ((), table.addEdge source symbol .dead)
    return .dead
  let (s, guarded) ← enter u mode configs
  if !guarded && isChar then
    onTable mode fun table => ((), table.addEdge source symbol (.state s))
  return .state s

def target (u : LexerSetup τ) (mode : Nat) (source : TableState) (symbol : Symbol) :
    Scan τ TableTarget := do
  let known ← onTable mode fun table =>
    (if 0 ≤ symbol then table.edge? source symbol else none, table)
  match known with
  | some known => return known
  | none => computeTarget u mode source symbol

def startState (u : LexerSetup τ) (mode : Nat) : Scan τ TableState := do
  let known ← onTable mode fun table => (table.start?, table)
  match known with
  | some s => return s
  | none =>
      let start ← onTable mode fun table => (table.startState, table)
      let (s, guarded) ← enter u mode (← startConfigs u start)
      if !guarded then onTable mode fun table => ((), table.setStart s)
      return s

/-- Remember the current position, if the state accepts. -/
def acceptance (s : TableState) (last : Option Acceptance) : Scan τ (Option Acceptance) := do
  if !s.isAccept then return last
  let here ← get
  return some { position := here.input.position, line := here.line, column := here.column, state := s }

/-- All threads have ended: go back to the last position where a rule was finished. -/
def conclude (source : TableState) (symbol : Symbol) (last : Option Acceptance) :
    Scan τ Match := do
  let s ← get
  match last with
  | some a =>
      set { s with input := s.input.seek a.position, line := a.line, column := a.column }
      return { type := a.state.tokenType.getD Symbol.eof, actions := a.state.actions }
  | none =>
      if symbol = Symbol.eof ∧ s.input.position = s.start then return { type := Symbol.eof }
      throw (.recoverable { kind := .noToken s.start (some source.configs) })

/-- Read on from a state of the table. -/
def readOn (u : LexerSetup τ) (mode : Nat) :
    Nat → TableState → Option Acceptance → Scan τ Match
  | 0, _, _ => throw (.fault .exhausted)
  | fuel + 1, source, last => do
      let symbol := (← get).input.lookahead 1
      match ← target u mode source symbol with
      | .dead => conclude source symbol last
      | .state s =>
          if symbol = Symbol.eof then
            if s.isAccept then conclude source symbol (← acceptance s last)
            else readOn u mode fuel s last
          else
            modify Scanner.consume
            readOn u mode fuel s (← acceptance s last)

/-- Match the token at the current position. At the end of the input the type is `eof`. -/
def matchToken (u : LexerSetup τ) (mode : Nat) : Scan τ Match := do
  modify fun s =>
    { s with start := s.input.position, input := s.input.mark, tables := s.tables.forgetMerges }
  let s ← get
  let outcome ← Step.attempt do
    if mode < s.tables.tables.size then
      let start ← startState u mode
      readOn u mode u.fuel start (← acceptance start none)
    else
      throw (.recoverable {
        kind := .noToken s.start none, text? := some ("no such lexer mode: " ++ toString mode) })
  modify fun s => { s with input := s.input.release }
  Step.ofOutcome outcome

end Scan

end AdaptiveLL
