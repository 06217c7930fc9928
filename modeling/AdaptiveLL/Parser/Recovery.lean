import AdaptiveLL.Parser.Basic
/-!
Recovery from errors. The strategy `repair` reports an error and mends the input: at a token
it tries to delete one token, then to make one up; at a decision it skips tokens until one
can follow some active call. The strategy `bail` ends the parse at the first error and marks
every active context with it.
-/
namespace AdaptiveLL.Parsing

variable {σ τ : Type} [TokenSource σ]

/-- A mismatch at a state and in a context, with the tokens that would have fitted. -/
def mismatch (u : ParserSetup τ) (state : Nat) (node : Option NodeId) :
    Parsing σ τ RecognitionError := do
  let invoking := (← get).tree.invokingStates node
  let expected ← Step.ofQuestion (u.grammar.network.expectedTokens state invoking)
  let token ← currentToken
  return {
    kind := .inputMismatch, token := some token, state := some state, node
    expected := some expected }

def beginRecovery : Parsing σ τ Unit :=
  modifyRecovery fun r => { r with active := true }

/-- Acknowledge that a token has been matched. -/
def endRecovery : Parsing σ τ Unit :=
  modifyRecovery fun r =>
    { r with active := false, lastStates := [], lastIndex := none, log := r.log.push .matched }

/-- Whether an error has been reported since the last match. -/
def isRecovering : Parsing σ τ Bool := do
  return (← get).recovery.active

def renderTokens (u : ParserSetup τ) (tokens : IntervalSet) : String :=
  tokens.renderWith u.grammar.names.vocabulary.elementName

/-- The message for an error. -/
def describe (u : ParserSetup τ) (e : RecognitionError) : Parsing σ τ String := do
  match e.kind with
  | .noViableAlt start _ =>
      let text ←
        if start.isEof then pure "<EOF>"
        else
          let first := start.index.getD 0
          let last := (e.token.bind Token.index).getD first
          onInput (·.textRange first (last + 1))
      return "no viable alternative at input " ++ Text.quoted text
  | .inputMismatch =>
      let expected ← match e.expected with
        | some expected => pure expected
        | none => expectedTokens u
      return "mismatched input " ++ Token.quoted e.token ++ " expecting " ++ renderTokens u expected
  | .failedPredicate rule _ _ => return "rule " ++ u.grammar.names.rule rule ++ " " ++ e.message
  | .noToken .. => return e.message

/-- Report an error, unless recovery is still going on. -/
def reportError (u : ParserSetup τ) (e : RecognitionError) : Parsing σ τ Unit := do
  if ← isRecovering then return
  beginRecovery
  let message ← describe u e
  reportMistake e.token message (some e)

/-- Report that the current token does not belong here. -/
def reportUnwanted (u : ParserSetup τ) : Parsing σ τ Unit := do
  if ← isRecovering then return
  beginRecovery
  let token ← currentToken
  let expected ← expectedTokens u
  reportMistake (some token)
    ("extraneous input " ++ Token.quoted (some token) ++ " expecting " ++ renderTokens u expected) none

/-- Report that a token is missing before the current one. -/
def reportMissing (u : ParserSetup τ) : Parsing σ τ Unit := do
  if ← isRecovering then return
  beginRecovery
  let token ← currentToken
  let expected ← expectedTokens u
  reportMistake (some token)
    ("missing " ++ renderTokens u expected ++ " at " ++ Token.quoted (some token)) none

/-- Delete the current token if the next one is what can follow here. The answer is the
token that is then current. -/
def deleteToken (u : ParserSetup τ) : Parsing σ τ (Option Token) := do
  let next ← lookahead 2
  if !(← expectedTokens u).contains next then return none
  reportUnwanted u
  let _ ← consume u
  let matched ← currentToken
  endRecovery
  return some matched

/-- Whether making up the missing token mends the input: the current one can follow it. -/
def insertToken (u : ParserSetup τ) : Parsing σ τ Bool := do
  let current ← lookahead 1
  let p ← get
  let n := u.grammar.network
  match (← Step.ofQuestion (n.state p.state)).transitions.head? with
  | none => return false
  | some t =>
      let following ← Step.ofQuestion (n.nextTokensInContext t.target p.invokingStates)
      if following.contains current then
        reportMissing u
        return true
      return false

/-- A token made up for the least type that is expected, at the place of the current token. -/
def missingToken (u : ParserSetup τ) : Parsing σ τ Token := do
  let type := (← expectedTokens u).min?.getD Symbol.invalid
  let name := if type = Symbol.eof then "EOF" else u.grammar.names.vocabulary.displayName type
  let current ← currentToken
  let anchor ← if current.isEof then do pure ((← previousToken).getD current) else pure current
  return {
    type, text? := some ("<missing " ++ name ++ ">"), line := anchor.line, column := anchor.column }

/-- The tokens that can follow one of the active calls. -/
def followers (u : ParserSetup τ) : Parsing σ τ IntervalSet := do
  let n := u.grammar.network
  let found ← ((← get).invokingStates.filterMap n.followState?).foldlM
    (fun (found : IntervalSet) follow => do
      return found.addSet (← Step.ofQuestion (n.nextTokens follow)))
    ∅
  return found.remove Symbol.epsilon

/-- Skip tokens until one is in the set, at most `fuel` of them. -/
def consumeUntil (u : ParserSetup τ) (stop : IntervalSet) : Nat → Parsing σ τ Unit
  | 0 => throw (.fault .exhausted)
  | fuel + 1 => do
      let symbol ← lookahead 1
      if symbol = Symbol.eof ∨ stop.contains symbol then return
      let _ ← consume u
      consumeUntil u stop fuel

/-- Mark every active context with an error. -/
def markContexts (error : RecognitionError) : Parsing σ τ Unit :=
  modify fun p =>
    { p with
      tree := (p.tree.chain p.context).foldl
        (fun t id => t.modifyRule id fun node => { node with error := some error }) p.tree }

/-- Mend a token that does not match. The answer is the token that stands for the expected
one. -/
def recoverInline (u : ParserSetup τ) : Parsing σ τ Token := do
  match u.options.errorStrategy with
  | .repair =>
      match ← deleteToken u with
      | some matched =>
          let _ ← consume u
          return matched
      | none =>
          if ← insertToken u then return ← missingToken u
          let p ← get
          let (state, node) := p.recovery.endedAt.getD (p.state, p.context)
          throw (.recoverable (← mismatch u state node))
  | .bail =>
      let p ← get
      let error ← mismatch u p.state p.context
      markContexts error
      throw (.fatal (.cancelled error))

/-- Go on after an error that has been reported: skip tokens until one can follow an active
call. If the last recovery stopped at the same token and state, skip that token first. -/
def recover (u : ParserSetup τ) (error : RecognitionError) : Parsing σ τ Unit := do
  match u.options.errorStrategy with
  | .repair =>
      let here ← index
      let p ← get
      if p.recovery.lastIndex == some here && p.recovery.lastStates.contains p.state then
        let _ ← consume u
      let here ← index
      modifyRecovery fun r =>
        { r with
          lastIndex := some here
          lastStates := if r.lastStates.contains p.state then r.lastStates else p.state :: r.lastStates }
      consumeUntil u (← followers u) u.fuel
  | .bail =>
      markContexts error
      throw (.fatal (.cancelled error))

/-- Before a decision, catch an error where the input goes wrong. -/
def sync (u : ParserSetup τ) : Parsing σ τ Unit := do
  if u.options.errorStrategy = .bail then return
  if ← isRecovering then return
  let n := u.grammar.network
  let p ← get
  let current ← lookahead 1
  let following ← Step.ofQuestion (n.nextTokens p.state)
  if following.contains current then
    modifyRecovery fun r => { r with endedAt := none }
  else if following.contains Symbol.epsilon then
    modifyRecovery fun r => { r with endedAt := r.endedAt <|> some (p.state, p.context) }
  else
    match (← Step.ofQuestion (n.state p.state)).kind with
    | .blockStart .. | .starLoopEntry =>
        match ← deleteToken u with
        | some _ => return
        | none => throw (.recoverable (← mismatch u p.state p.context))
    | .plusLoopBack | .starLoopBack =>
        reportUnwanted u
        let stop := (← expectedTokens u).union (← followers u)
        consumeUntil u stop u.fuel
    | _ => return

/-- Match the current token if `accept` holds of its type; else mend the input. A token that
was made up becomes an error node. -/
def matchWhere (u : ParserSetup τ) (accept : Symbol → Bool) : Parsing σ τ Token := do
  if accept (← lookahead 1) then
    endRecovery
    consume u
  else
    let token ← recoverInline u
    if u.options.buildTrees && token.index.isNone then
      match (← get).context with
      | some context => modifyTree fun t => (t.addToken context token true).2
      | none => pure ()
    return token

def matchToken (u : ParserSetup τ) (type : Symbol) : Parsing σ τ Token := do
  let token ← matchWhere u (· == type)
  if type == Symbol.eof && token.isEof then modify fun p => { p with matchedEof := true }
  return token

/-- Match any token but the end of the input. -/
def matchAny (u : ParserSetup τ) : Parsing σ τ Token :=
  matchWhere u fun type => decide (0 < type)

end AdaptiveLL.Parsing
