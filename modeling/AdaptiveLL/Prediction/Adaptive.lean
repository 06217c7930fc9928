import AdaptiveLL.Prediction.Choice
import AdaptiveLL.Prediction.Reach
/-!
Adaptive prediction: which alternative of a decision to take, given the input and the calls
that the parser is in.

The first stage knows nothing of the callers, so that what it finds out can be kept in the
prediction table of the decision. On a conflict the second stage starts again with the real
call stack; it is exact, and nothing of it is kept. The input is left where it was found.
-/
namespace AdaptiveLL.Prediction

variable {σ τ : Type}

/-- Read and change the table of the decision. -/
def onTable {α : Type} [Inhabited α] (q : Problem τ)
    (f : PredictionTable → α × PredictionTable) : Prediction σ τ α := do
  let s ← get
  match s.tables.tables[q.decision]? with
  | none => return default
  | some table =>
      let (a, table) := f table
      set { s with tables := s.tables.modifyTable q.decision fun _ => table }
      return a

def addState (q : Problem τ) (s : TableState) : Prediction σ τ TableState :=
  onTable q (·.addState s)

def addEdge (q : Problem τ) (source : TableState) (symbol : Symbol) (target : TableTarget) :
    Prediction σ τ Unit :=
  onTable q fun table => ((), table.addEdge source symbol target)

def count (q : Problem τ) (f : DecisionStats → DecisionStats) : Prediction σ τ Unit :=
  modify (·.modifyStats q.decision f)

/-- The alternatives that a set predicts, if prediction without context stops on it. -/
def settle (q : Problem τ) (configs : ConfigurationSet) : Prediction σ τ TableState := do
  let n := q.grammar.network
  if configs.agreedAlt ≠ noAlt then
    let alt := configs.agreedAlt
    return { configs := { configs with uniqueAlt := alt }, isAccept := true, prediction := alt }
  let s ← get
  let (stop, graph) ← Step.ofQuestion (Conflict.stops q.mode n configs s.tables.graph)
  set { s with tables := { s.tables with arena := { s.tables.arena with graph } } }
  if stop then
    let alts := Conflict.alts configs.altSubsets
    return {
      configs := { configs with conflicting := some alts }
      isAccept := true
      needsFullContext := true
      prediction := alts.head?.getD noAlt }
  return { configs }

/-- Complete a state where prediction stops, if its threads have crossed guards. -/
def concluded (q : Problem τ) (d : TableState) : TableState :=
  if d.isAccept && d.configs.hasGuards then
    let transitions := (q.grammar.network.states[q.decisionState]?.map State.transitions).getD []
    withGuards transitions.length d
  else d

variable [TokenSource σ]

/-- Compute where a symbol leads from a state of the table, and enter it into the table. -/
def computeTarget (q : Problem τ) (source : TableState) (symbol : Symbol) :
    Prediction σ τ TableTarget := do
  match ← reach q source.configs symbol false with
  | none =>
      addEdge q source symbol .dead
      return .dead
  | some configs =>
      let d ← addState q (concluded q (← settle q configs))
      addEdge q source symbol (.state d)
      return .state d

def target (q : Problem τ) (source : TableState) (symbol : Symbol) :
    Prediction σ τ TableTarget := do
  match ← onTable q fun table => (table.edge? source symbol, table) with
  | some known => return known
  | none => computeTarget q source symbol

/-- The state of the table where a prediction starts. -/
def startState (q : Problem τ) : Prediction σ τ TableState := do
  let level := q.situation.precedence
  let known ← onTable q fun table =>
    (if q.byPrecedence then table.precedenceStart? level else table.start?, table)
  match known with
  | some s => return s
  | none =>
      let configs ← startConfigs q false 0
      if q.byPrecedence then
        let s ← addState q { configs := ← filterByPrecedence q configs }
        onTable q fun table => ((), table.setPrecedenceStart level s)
        return s
      else
        let s ← addState q { configs }
        onTable q fun table => ((), table.setStart s)
        return s

def report (q : Problem τ) (event : PredictionEvent) (stop : Nat) (configs : ConfigurationSet) :
    Prediction σ τ Unit := do
  let text ← onInput (·.textRange q.start (stop + 1))
  let rule := (← Step.ofQuestion (q.grammar.network.state q.decisionState)).rule
  modify (·.report (.prediction {
    decision := q.decision, ruleName := q.grammar.names.rule rule, start := q.start, stop, text
    event, configs }))

def reportAmbiguity (q : Problem τ) (exact : Bool) (alts : AltSet) (stop : Nat)
    (configs : ConfigurationSet) : Prediction σ τ Unit := do
  count q fun i => { i with ambiguities := i.ambiguities + 1 }
  report q (.ambiguity exact alts) stop configs

/-- The error that no alternative matches, at the token under the cursor. -/
def noViableAlt (q : Problem τ) (configs : ConfigurationSet) :
    Prediction σ τ RecognitionError := do
  let start := ((← get).input.get? q.start).getD (.endOfInput none 0 0 0)
  let token ← onInput (·.lookahead? 1)
  return {
    kind := .noViableAlt start (some configs), token
    state := some q.situation.state, node := q.situation.node }

/-- All threads have ended: an alternative that has finished the rule is taken, so that the
error is found where the rule goes on. -/
def deadEnd (q : Problem τ) (configs : ConfigurationSet) : Prediction σ τ Nat := do
  let error ← noViableAlt q configs
  seek q.start
  let alt ← fallback q configs
  if alt ≠ noAlt then return alt else throw (.recoverable error)

/-- The stage with the full context, where `symbol` is the current token. -/
def predictFully (q : Problem τ) : Nat → ConfigurationSet → Symbol → Prediction σ τ Nat
  | 0, _, _ => throw (.fault .exhausted)
  | fuel + 1, previous, symbol => do
      count q fun i => { i with fullLookahead := i.fullLookahead + 1 }
      match ← reach q previous symbol true with
      | none => deadEnd q previous
      | some configs =>
          let subsets := configs.altSubsets
          let configs := { configs with uniqueAlt := configs.agreedAlt }
          if configs.uniqueAlt ≠ noAlt then
            count q fun i => { i with contextSensitivities := i.contextSensitivities + 1 }
            report q (.contextSensitivity configs.uniqueAlt) (← index) configs
            return configs.uniqueAlt
          let exact := q.mode == .exactAmbiguity
          let certain := exact && Conflict.allConflict subsets && Conflict.allEqual subsets
          let alt := Conflict.viableAlt subsets
          if certain || (!exact && alt ≠ noAlt) then
            reportAmbiguity q certain configs.alts (← index) configs
            return alt
          predictFully q fuel configs (← advance symbol)

/-- Alternatives are in conflict. Their guards may leave only one of them; if not, start
again with the full context. -/
def resolve (q : Problem τ) (d : TableState) : Prediction σ τ Nat := do
  let here ← index
  let conflicting ← match d.guards with
    | none => pure d.configs.conflicting
    | some guards => do
        seek q.start
        let alts ← viable q guards
        pure (some alts)
  match d.guards, conflicting with
  | some _, some [alt] => return alt
  | _, _ =>
      seek here
      count q fun i => { i with fallbacks := i.fallbacks + 1 }
      let s ← get
      let (stack, graph) := s.tables.graph.ofInvoking q.grammar.network q.situation.invoking
      set { s with tables := { s.tables with arena := { s.tables.arena with graph } } }
      let configs ← startConfigs q true stack
      report q (.fullContext conflicting) here d.configs
      seek q.start
      predictFully q q.fuel configs (← current)

/-- The alternative of an accept state, or the least one whose guard holds. -/
def accept (q : Problem τ) (d : TableState) : Prediction σ τ Nat := do
  match d.guards with
  | none => return d.prediction
  | some guards =>
      let stop ← index
      seek q.start
      let alts ← viable q guards
      match alts with
      | [] => throw (.recoverable (← noViableAlt q d.configs))
      | [alt] => return alt
      | alt :: _ =>
          reportAmbiguity q false alts stop d.configs
          return alt

/-- The stage without context, where `symbol` is the current token. -/
def predictLocally (q : Problem τ) : Nat → TableState → Symbol → Prediction σ τ Nat
  | 0, _, _ => throw (.fault .exhausted)
  | fuel + 1, previous, symbol => do
      count q fun i => { i with localLookahead := i.localLookahead + 1 }
      match ← target q previous symbol with
      | .dead => deadEnd q previous.configs
      | .state d =>
          if d.needsFullContext && q.mode != .sll then resolve q d
          else if d.isAccept then accept q d
          else predictLocally q fuel d (← advance symbol)

def predict (q : Problem τ) : Prediction σ τ Nat := do
  let s ← startState q
  predictLocally q q.fuel s (← current)

/-- Predict the alternative to take at a decision. Alternatives are counted from 1. -/
def adaptivePredict (grammar : Grammar) (mode : PredictionMode) (fuel decision : Nat)
    (situation : Situation τ) : Prediction σ τ Nat := do
  let s ← get
  match s.tables.tables[decision]? with
  | none => throw (.fatal (.network (.invalidDecision decision)))
  | some table =>
      let start := s.input.index
      let q : Problem τ := {
        grammar, mode, fuel, decision, start, situation
        decisionState := table.startState, byPrecedence := table.byPrecedence }
      set { s with input := s.input.mark, tables := s.tables.forgetMerges }
      count q fun i => { i with invocations := i.invocations + 1 }
      let outcome ← (predict q).attempt
      seek start
      modify fun s => { s with input := s.input.release }
      if outcome matches .error _ then count q fun i => { i with errors := i.errors + 1 }
      Step.ofOutcome outcome

end AdaptiveLL.Prediction
