import AdaptiveLL.Parser.Recovery
/-!
Parsing: walking the network state by state. At a decision the alternative is predicted; an
edge that reads matches the current token; a call pushes a context, and at the stop of a rule
the walk goes on behind the call.

A recognition error ends the rule in which it happened: it is noted in the context and
reported, the input is mended, and the walk goes on at the stop of the rule.
-/
namespace AdaptiveLL.Parsing

variable {σ τ : Type} [TokenSource σ]

/-- Enter a left-recursive rule and remember where to attach it. -/
def beginRecursion (u : ParserSetup τ) (context state rule : Nat) (precedence : Int) :
    Parsing σ τ Unit := do
  modify fun p =>
    let invoking := (p.tree.rule? context).bind RuleNode.invoking
    { p with recursions := (p.context, invoking) :: p.recursions }
  enterRecursiveRule u context state rule precedence

/-- Enter the rule of a new context. -/
def enterCall (u : ParserSetup τ) (context start rule : Nat) (precedence : Int) :
    Parsing σ τ Unit :=
  if u.grammar.network.isLeftRecursiveRule rule then beginRecursion u context start rule precedence
  else enterRule u context start rule

def failedPredicate (rule : Nat) (index : Option Nat) (text : String) :
    Parsing σ τ RecognitionError := do
  let p ← get
  let token ← currentToken
  return {
    kind := .failedPredicate rule index text, token := some token, state := some p.state
    node := p.context }

/-- Whether the state is the block of the alternatives of a whole rule. -/
def isRuleBlock (n : Network) (s : State) (number : Nat) : Bool :=
  let first := (n.ruleStarts[s.rule]?.bind (n.states[·]?)).bind (·.transitions.head?)
  first.map Transition.target == some number

/-- The prescribed alternative, if there is one for this decision and place. -/
def prescribed? (decision place : Nat) : Parsing σ τ (Option Nat) := do
  match (← get).prescription with
  | some r =>
      if r.decision = decision ∧ r.place = place ∧ !r.used then
        modify fun p => { p with prescription := some { r with used := true } }
        return some r.alt
      return none
  | none => return none

/-- The alternative to take at a decision state. -/
def choose (u : ParserSetup τ) (number : Nat) (s : State) : Parsing σ τ Nat := do
  if s.transitions.length ≤ 1 then return 1
  let decision ← Step.required (.verification number .decisionNumber) s.decision
  sync u
  let alt ← match ← prescribed? decision (← index) with
    | some alt => pure alt
    | none => do predict u decision (← get).context
  if isRuleBlock u.grammar.network s number then
    match (← get).context with
    | some context => takeAlternative u context alt
    | none => pure ()
  return alt

/-- Take another turn of an operator loop: the operand built so far gets a new context
around it. -/
def continueRecursion (u : ParserSetup τ) (s : State) : Parsing σ τ Unit := do
  let p ← get
  let (parent, invoking) := p.recursions.head?.getD (none, none)
  let rule := (p.contextRule?.map RuleNode.rule).getD s.rule
  let context ← newContext parent invoking rule
  let start ← Step.required (.invalidRule s.rule) u.grammar.network.ruleStarts[s.rule]?
  wrapContext u context start

/-- Take an edge of a state, without going to its target. -/
def takeEdge (u : ParserSetup τ) (number : Nat) (s : State) (t : Transition) :
    Parsing σ τ Unit := do
  let n := u.grammar.network
  match t with
  | .epsilon target _ =>
      if s.precedenceLoop && !(← Step.ofQuestion (n.state target)).isLoopEnd then
        continueRecursion u s
  | .atom _ label =>
      let _ ← matchToken u label
  | .range .. | .set .. | .notSet .. =>
      let _ ← matchWhere u fun symbol => t.reads symbol Symbol.firstToken n.maxToken
  | .wildcard _ =>
      let _ ← matchAny u
  | .call target _ precedence _ =>
      let rule := (← Step.ofQuestion (n.state target)).rule
      let context ← newContext (← get).context (some number) rule
      enterCall u context target rule precedence
  | .predicate _ rule index _ =>
      if !(← ask u rule index) then
        let text := toString rule ++ ":" ++ toString index
        throw (.recoverable (← failedPredicate rule (some index) text))
  | .precedence _ level =>
      if !(← allows level) then
        let rule := ((← get).contextRule?.map RuleNode.rule).getD s.rule
        let text := "precpred(_ctx, " ++ toString level ++ ")"
        throw (.recoverable (← failedPredicate rule none text))
  | .action _ rule index _ =>
      match index with
      | some index => act u rule index
      | none => pure ()

/-- Go from a state to the next one. -/
def visitState (u : ParserSetup τ) (number : Nat) (s : State) : Parsing σ τ Unit := do
  let alt ← if s.isDecision then choose u number s else pure 1
  let missing := NetworkError.unexpectedTransition number "missing"
  let t ← Step.required missing (if alt = 0 then none else s.transitions[alt - 1]?)
  takeEdge u number s t
  setState t.target

/-- Return from a rule, and go on behind its call. -/
def visitRuleStop (u : ParserSetup τ) (number : Nat) (s : State) : Parsing σ τ Unit := do
  let n := u.grammar.network
  if n.isLeftRecursiveRule s.rule then
    match (← get).recursions with
    | [] => throw (.fatal (.network (.contextStackUnderflow number)))
    | (parent, invoking) :: recursions =>
        modify fun p => { p with recursions }
        unwrapContexts u parent
        setState (invoking.getD noState)
  else exitRule u
  let invoking := (← get).state
  let follow ←
    Step.required (.unexpectedTransition invoking "non-rule") (n.followState? invoking)
  setState follow

/-- An error node at the place of an error, if recovery consumed nothing. It keeps the error
visible in the tree. -/
def markError (error : RecognitionError) : Parsing σ τ Unit := do
  let type := match error.kind, error.expected with
    | .inputMismatch, some expected => expected.min?.getD Symbol.invalid
    | _, _ => Symbol.invalid
  let anchor ← match error.token with
    | some token => pure token
    | none => currentToken
  let token : Token := {
    type, text? := some anchor.text, line := anchor.line, column := anchor.column }
  match (← get).context with
  | some context => modifyTree fun t => (t.addToken context token true).2
  | none => pure ()

/-- End the rule in which an error happened. -/
def abandonRule (u : ParserSetup τ) (s : State) (error : RecognitionError) :
    Parsing σ τ Unit := do
  modifyRecovery fun r => { r with log := r.log.push .caught }
  let stop ← Step.required (.invalidRule s.rule) u.grammar.network.ruleStops[s.rule]?
  setState stop
  match (← get).context with
  | some context => modifyTree (·.modifyRule context fun node => { node with error := some error })
  | none => pure ()
  reportError u error
  let here ← index
  recover u error
  if (← index) = here ∧ u.options.buildTrees then markError error

/-- Whether the current context is the one of the start rule. -/
def isOutermost : Parsing σ τ Bool := do
  return ((← get).contextRule?.bind RuleNode.invoking).isNone

/-- The start rule has ended: the answer is the root of the tree. -/
def conclude (u : ParserSetup τ) (leftRecursive : Bool) (root : NodeId) : Parsing σ τ NodeId := do
  if leftRecursive then
    let p ← get
    let result := p.context.getD root
    modify fun p => { p with recursions := p.recursions.tail }
    unwrapContexts u ((p.recursions.head?.map Prod.fst).getD none)
    modify fun p => { p with root := some result }
    return result
  exitRule u
  return root

/-- Visit states until the start rule ends, at most `fuel` of them. -/
def visitStates (u : ParserSetup τ) (leftRecursive : Bool) (root : NodeId) : Nat → Parsing σ τ NodeId
  | 0 => throw (.fault .exhausted)
  | fuel + 1 => do
      let number := (← get).state
      let s ← Step.required (.invalidState number) u.grammar.network.states[number]?
      if s.isRuleStop then
        if ← isOutermost then return ← conclude u leftRecursive root
        visitRuleStop u number s
      else
        match ← (visitState u number s).attempt with
        | .ok () => pure ()
        | .error (.recoverable error) => abandonRule u s error
        | .error failure => throw failure
      visitStates u leftRecursive root fuel

/-- Parse the input with a start rule. The answer is the root of the tree; errors of the
input are reported and mended. -/
def parse (u : ParserSetup τ) (rule : Nat) : Parsing σ τ NodeId := do
  let n := u.grammar.network
  let start ← Step.required (.invalidRule rule) n.ruleStarts[rule]?
  let root ← newContext none none rule
  modify fun p => { p with root := some root }
  enterCall u root start rule 0
  visitStates u (n.isLeftRecursiveRule rule) root u.fuel

/-- Parse with the rule of a name. -/
def parseNamed (u : ParserSetup τ) (name : String) : Parsing σ τ NodeId := do
  let rule ← Step.required (.unknownRuleName name) (u.grammar.names.ruleIndex? name)
  parse u rule

end AdaptiveLL.Parsing
