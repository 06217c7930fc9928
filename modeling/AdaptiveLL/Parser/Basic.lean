import AdaptiveLL.Prediction.Adaptive
import AdaptiveLL.Tree.Walk
/-!
Parsers: what a parse reads and changes, and the moves that it is made of. A rule node of the
tree is the context of each call; entering a rule makes a node the current context, leaving
it goes back to the parent.

Whenever a left-recursive rule finds an operator, what has been built so far becomes the first
child of a new context of the same rule; the outermost one is attached to the caller in the end.
-/
namespace AdaptiveLL

/-- What the host of a parser answers and does, and what it listens to. -/
structure ParserHost (τ : Type) where
  predicate : ParseTree → Question → τ → Bool × τ := fun _ _ host => (true, host)
  action : ParseTree → Option NodeId → Nat → Nat → τ → τ := fun _ _ _ _ host => host
  listeners : List (TreeEvent → ParseTree → τ → τ) := []

/-- What a parser depends on besides its state. -/
structure ParserSetup (τ : Type) where
  grammar : Grammar
  options : ParserOptions := {}
  host : ParserHost τ := {}
  /-- A bound on the number of states visited, and on the depth of closures. -/
  fuel : Nat

/-- What recovery is told of. -/
inductive Notice where
  /-- A mistake has been reported. -/
  | reported
  /-- The match of a token is acknowledged. -/
  | matched
  /-- A recognition error has ended the visit of a state. -/
  | caught
  deriving DecidableEq, Repr

/-- What recovery remembers between errors. -/
structure Recovery where
  /-- Set when an error has been reported, until the next token is matched. -/
  active : Bool := false
  /-- Where the last recovery left the input. -/
  lastIndex : Option Nat := none
  /-- The states of the recoveries since the last match. -/
  lastStates : List Nat := []
  /-- The state and context where the rule could have ended, for a later mismatch. -/
  endedAt : Option (Nat × Option NodeId) := none
  /-- The reports, the acknowledged matches and the errors, in their order. -/
  log : Array Notice := #[]
  deriving DecidableEq, Repr, Inhabited

/-- A prediction that is prescribed: at a decision, when the input stands at a place. -/
structure Prescription where
  decision : Nat
  place : Nat
  alt : Nat
  used : Bool := false
  deriving DecidableEq, Repr

structure Parser (σ τ : Type) where
  simulation : Simulation σ τ
  tree : ParseTree := {}
  /-- The current context. -/
  context : Option NodeId := none
  state : Nat := noState
  /-- The precedences of the active calls of left-recursive rules, innermost first. -/
  precedences : List Int := [0]
  /-- For each active call of a left-recursive rule, the context to attach it to and the
  state that made the call, innermost first. -/
  recursions : List (Option NodeId × Option Nat) := []
  /-- The number of active calls. -/
  depth : Nat := 0
  matchedEof : Bool := false
  /-- The tokens that have been consumed, in their order, ends of the input included. -/
  consumed : Array Token := #[]
  errorCount : Nat := 0
  recovery : Recovery := {}
  /-- The root of the tree of the last parse. -/
  root : Option NodeId := none
  prescription : Option Prescription := none
  deriving Repr

/-- A step of a parser. -/
abbrev Parsing (σ τ : Type) := Step (Parser σ τ)

namespace Parser

variable {σ τ : Type}

def ofInput (n : Network) (tables : Tables) (input : TokenStream σ) (host : τ) : Parser σ τ where
  simulation := .ofInput n tables input host

def input (p : Parser σ τ) : TokenStream σ :=
  p.simulation.input

/-- The precedence of the innermost call of a left-recursive rule, -1 outside of all. -/
def precedence (p : Parser σ τ) : Int :=
  p.precedences.head?.getD (-1)

/-- The states that made the active calls, innermost first. -/
def invokingStates (p : Parser σ τ) : List Nat :=
  p.tree.invokingStates p.context

/-- The rule of the current context. -/
def contextRule? (p : Parser σ τ) : Option RuleNode :=
  p.context.bind p.tree.rule?

/-- The names of the rules from the current context to the root. -/
def ruleNames (p : Parser σ τ) (names : GrammarNames) : List String :=
  ((p.tree.chain p.context).map p.tree.rule?).takeWhile Option.isSome |>.filterMap
    (·.map fun node => names.rule node.rule)

/-- Back to the start of the input, without a tree. Statistics and reports stay. -/
def reset [TokenSource σ] (p : Parser σ τ) : Parser σ τ where
  simulation := { p.simulation with input := p.simulation.input.seek 0 }
  prescription := p.prescription.map fun r => { r with used := false }

end Parser

namespace Parsing

variable {σ τ : Type}

def modifyTree (f : ParseTree → ParseTree) : Parsing σ τ Unit :=
  modify fun p => { p with tree := f p.tree }

def setState (state : Nat) : Parsing σ τ Unit :=
  modify fun p => { p with state }

def setContext (context : Option NodeId) : Parsing σ τ Unit :=
  modify fun p => { p with context }

def modifyRecovery (f : Recovery → Recovery) : Parsing σ τ Unit :=
  modify fun p => { p with recovery := f p.recovery }

/-- Change the state of the host. -/
def modifyHost (f : ParseTree → τ → τ) : Parsing σ τ Unit :=
  modify fun p => { p with simulation := { p.simulation with host := f p.tree p.simulation.host } }

/-- Tell the listeners, in order. -/
def notify (u : ParserSetup τ) (event : TreeEvent) : Parsing σ τ Unit :=
  modifyHost fun tree host => u.host.listeners.foldl (fun host l => l event tree host) host

/-- Tell the listeners, the last one first. -/
def notifyReversed (u : ParserSetup τ) (event : TreeEvent) : Parsing σ τ Unit :=
  modifyHost fun tree host => u.host.listeners.foldr (fun l host => l event tree host) host

/-- Ask the host, with the context as it is. -/
def ask (u : ParserSetup τ) (rule index : Nat) : Parsing σ τ Bool := do
  let p ← get
  let question := { position := p.input.index, node := p.context, rule, index }
  let (answer, host) := u.host.predicate p.tree question p.simulation.host
  set { p with simulation := { p.simulation with host } }
  return answer

/-- Whether operators of this level may follow. -/
def allows (level : Int) : Parsing σ τ Bool := do
  return decide ((← get).precedence ≤ level)

/-- Let the host act, with the context as it is. -/
def act (u : ParserSetup τ) (rule index : Nat) : Parsing σ τ Unit := do
  let context := (← get).context
  modifyHost fun tree host => u.host.action tree context rule index host

/-- A new context, which is not yet among the children of its parent. -/
def newContext (parent : Option NodeId) (invoking : Option Nat) (rule : Nat) :
    Parsing σ τ NodeId := do
  let p ← get
  let (id, tree) := p.tree.addRule rule parent invoking
  set { p with tree := tree.modifyRule id fun node => { node with alt := 1 } }
  return id

/-- Count one more call, unless there are too many. -/
def deepen (u : ParserSetup τ) (rule : Nat) : Parsing σ τ Unit := do
  let p ← get
  if u.options.maxDepth ≤ p.depth then throw (.fatal (.tooDeep (p.depth + 1) rule))
  set { p with depth := p.depth + 1 }

variable [TokenSource σ]

/-- Use the token stream. -/
def onInput {α : Type} (f : TokenStream σ → α × TokenStream σ) : Parsing σ τ α := do
  let p ← get
  let (a, input) := f p.simulation.input
  set { p with simulation := { p.simulation with input } }
  return a

def lookahead (k : Int) : Parsing σ τ Symbol :=
  onInput (·.lookahead k)

def index : Parsing σ τ Nat := do
  return (← get).input.index

def currentToken : Parsing σ τ Token := do
  return (← onInput (·.lookahead? 1)).getD (.endOfInput none 0 0 0)

def previousToken : Parsing σ τ (Option Token) :=
  onInput (·.lookahead? (-1))

/-- Consume the current token and put it under the current context: as an error node during
recovery, else as a terminal. Without trees, the listeners alone are told. -/
def consume (u : ParserSetup τ) : Parsing σ τ Token := do
  let token ← currentToken
  if !token.isEof then onInput fun input => ((), input.consume)
  modify fun p => { p with consumed := p.consumed.push token }
  let build := u.options.buildTrees
  let p ← get
  match p.context with
  | none => return token
  | some context =>
      if !build && u.host.listeners.isEmpty then return token
      let isError := p.recovery.active
      let (id, tree) :=
        if build then p.tree.addToken context token isError
        else p.tree.addDetached context token isError
      set { p with tree }
      notify u (if isError then .error id else .terminal id)
      return token

/-- Report a mistake at a token. -/
def reportMistake (token : Option Token) (message : String) (error : Option RecognitionError) :
    Parsing σ τ Unit :=
  modify fun p =>
    let mistake : Mistake := {
      source := TokenSource.name p.simulation.input.source, token, message, error
      line := (token.map Token.line).getD 0, column := (token.map Token.column).getD 0 }
    { p with
      errorCount := p.errorCount + 1
      simulation := p.simulation.report (.mistake mistake)
      recovery := { p.recovery with log := p.recovery.log.push .reported } }

/-- Enter a rule; `state` is its start. -/
def enterRule (u : ParserSetup τ) (context state rule : Nat) : Parsing σ τ Unit := do
  deepen u rule
  setState state
  setContext (some context)
  let start ← onInput (·.lookahead? 1)
  modifyTree fun t =>
    let t := t.modifyRule context fun node => { node with start }
    match t.parent? context, u.options.buildTrees with
    | some parent, true => t.addChild parent context
    | _, _ => t
  notify u (.enter context)

/-- Leave the rule of the current context; the parser is where the call was made. -/
def exitRule (u : ParserSetup τ) : Parsing σ τ Unit := do
  match (← get).context with
  | none => return
  | some context =>
      let stop ← onInput (·.lookahead? (if (← get).matchedEof then 1 else -1))
      modifyTree (·.modifyRule context fun node => { node with stop })
      notifyReversed u (.exit context)
      modify fun p =>
        let node := p.tree.rule? context
        { p with
          depth := p.depth - 1
          state := (node.bind RuleNode.invoking).getD noState
          context := node.bind RuleNode.parent }

/-- Note the alternative that a context takes, and make the context current. -/
def takeAlternative (u : ParserSetup τ) (context alt : Nat) : Parsing σ τ Unit := do
  modifyTree (·.modifyRule context fun node => { node with alt })
  let p ← get
  if u.options.buildTrees && p.context != some context then
    match p.tree.parent? context with
    | some parent => modifyTree fun t => (t.popChild parent).2.addChild parent context
    | none => pure ()
  setContext (some context)

/-- Enter a left-recursive rule. The context is attached when the rule ends, since operators
may still wrap it. -/
def enterRecursiveRule (u : ParserSetup τ) (context state rule : Nat) (precedence : Int) :
    Parsing σ τ Unit := do
  deepen u rule
  modify fun p =>
    { p with state, precedences := precedence :: p.precedences, context := some context }
  let start ← onInput (·.lookahead? 1)
  modifyTree (·.modifyRule context fun node => { node with start })
  notify u (.enter context)

/-- Wrap the current context: it becomes the first child of `context`, which is made
current. -/
def wrapContext (u : ParserSetup τ) (context state : Nat) : Parsing σ τ Unit := do
  match (← get).context with
  | none => return
  | some previous =>
      let stop ← previousToken
      modifyTree (·.modifyRule previous fun node => { node with stop })
      notifyReversed u (.exit previous)
      modify fun p =>
        let start := (p.tree.rule? previous).bind RuleNode.start
        let tree := p.tree.modifyRule previous fun node =>
          { node with parent := some context, invoking := some state }
        let tree := tree.modifyRule context fun node => { node with start }
        { p with
          context := some context
          tree := if u.options.buildTrees then tree.addChild context previous else tree }
      notify u (.enter context)

/-- End a left-recursive rule: attach the outermost context to `parent`, which is made
current. -/
def unwrapContexts (u : ParserSetup τ) (parent : Option NodeId) : Parsing σ τ Unit := do
  modify fun p => { p with precedences := p.precedences.tail, depth := p.depth - 1 }
  match (← get).context with
  | none => setContext parent
  | some context =>
      let stop ← previousToken
      modifyTree (·.modifyRule context fun node => { node with stop })
      let active := ((← get).tree.chain (some context)).takeWhile fun id => some id != parent
      active.forM fun id => notifyReversed u (.exit id)
      modify fun p =>
        let tree := p.tree.setParent context parent
        { p with
          context := parent
          tree := match parent, u.options.buildTrees with
            | some parent, true => tree.addChild parent context
            | _, _ => tree }

/-- The tokens that can follow in the current context. -/
def expectedTokens (u : ParserSetup τ) : Parsing σ τ IntervalSet := do
  let p ← get
  Step.ofQuestion (u.grammar.network.expectedTokens p.state p.invokingStates)

/-- The tokens that can follow without leaving the current rule. -/
def expectedInRule (u : ParserSetup τ) : Parsing σ τ IntervalSet := do
  let tokens ← Step.ofQuestion (u.grammar.network.nextTokens (← get).state)
  return tokens.remove Symbol.epsilon

/-- Predict a decision, with the calls of `node` as the outer context. -/
def predict (u : ParserSetup τ) (decision : Nat) (node : Option NodeId) : Parsing σ τ Nat := do
  let p ← get
  let situation : Situation τ := {
    node, invoking := p.tree.invokingStates node, precedence := p.precedence, state := p.state
    ask := u.host.predicate p.tree }
  let question := Prediction.adaptivePredict u.grammar u.options.predictionMode u.fuel decision situation
  let (outcome, simulation) := StateT.run (ExceptT.run question) p.simulation
  set { p with simulation }
  Step.ofOutcome outcome

end Parsing

end AdaptiveLL
