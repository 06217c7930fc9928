import AdaptiveLL.Proofs.Parser.Walk
import AdaptiveLL.Proofs.Prediction.InRange
/-!
A parse asks for nothing that is not there. Whenever it asks the network about a state, or has a
decision predicted, it stands at a state of the network; and what it remembers of states is about
states of the network as well. So a parse that ends in a fault has run out of fuel
(`Parsing.parse_finds`).
-/
namespace AdaptiveLL

variable {σ τ α : Type}

namespace Parser

/-- The parser remembers states below the bound alone: in its tables, and of the state where it left
a rule because the input went on behind it. -/
structure InRange (size : Nat) (p : Parser σ τ) : Prop where
  tables : p.simulation.tables.InRange size
  ended : ∀ place ∈ p.recovery.endedAt, place.1 < size

/-- Besides, it stands at one. -/
structure Inside (size : Nat) (p : Parser σ τ) : Prop extends p.InRange size where
  state : p.state < size

/-- Whether it holds depends on states alone: on that of the parser and on those it remembers. -/
def OfStates (Inv : Parser σ τ → Prop) : Prop :=
  ∀ {p p' : Parser σ τ}, Inv p → p'.state = p.state →
    p'.recovery.endedAt = p.recovery.endedAt → p'.simulation.tables = p.simulation.tables → Inv p'

variable {size : Nat}

/-- What the parser remembers depends on no more than that. -/
theorem inRange_ofStates : OfStates (InRange (σ := σ) (τ := τ) size) :=
  fun inRange _ ended tables => ⟨tables ▸ inRange.tables, ended ▸ inRange.ended⟩

/-- So does whether the parser is inside the network. -/
theorem inside_ofStates : OfStates (Inside (σ := σ) (τ := τ) size) :=
  fun inside state ended tables =>
    ⟨inRange_ofStates inside.toInRange state ended tables, state ▸ inside.state⟩

/-- The parser may move to another state of the network. -/
theorem Inside.setState {p : Parser σ τ} {state : Nat} (h : p.InRange size) (lt : state < size) :
    { p with state }.Inside size :=
  ⟨⟨h.tables, h.ended⟩, lt⟩

end Parser

open AdaptiveLL.Parser (Inside InRange OfStates)

namespace Parsing

open Step (Finds)

variable {u : ParserSetup τ} {Inv : Parser σ τ → Prop}

section OfStates

variable (h : OfStates Inv)

include h

/-- The tree holds no states that are asked about. -/
theorem modifyTree_finds (f : ParseTree → ParseTree) : Finds Inv (modifyTree f) fun _ => True :=
  .modify fun _ inv => h inv rfl rfl rfl

theorem setContext_finds (context : Option NodeId) : Finds Inv (setContext context) fun _ => True :=
  .modify fun _ inv => h inv rfl rfl rfl

/-- The host is no part of the network. -/
theorem modifyHost_finds (f : ParseTree → τ → τ) : Finds Inv (modifyHost f) fun _ => True :=
  .modify fun _ inv => h inv rfl rfl rfl

/-- Of what is remembered for recovery, only the state where a rule was left matters. -/
theorem modifyRecovery_finds {f : Recovery → Recovery} (same : ∀ r, (f r).endedAt = r.endedAt) :
    Finds Inv (modifyRecovery f) fun _ => True :=
  .modify fun p inv => h inv rfl (same p.recovery) rfl

omit h in
theorem index_finds [TokenSource σ] : Finds Inv index fun _ => True :=
  .bind .get fun _ _ => .pure trivial

omit h in
theorem isRecovering_finds : Finds Inv isRecovering fun _ => True :=
  .bind .get fun _ _ => .pure trivial

omit h in
theorem isOutermost_finds [TokenSource σ] : Finds Inv isOutermost fun _ => True :=
  .bind .get fun _ _ => .pure trivial

omit h in
theorem allows_finds (level : Int) : Finds Inv (allows level) fun _ => True :=
  .bind .get fun _ _ => .pure trivial

theorem ask_finds (rule index : Nat) : Finds Inv (ask u rule index) fun _ => True :=
  .bind .get fun _ inv => .bind (.set (h inv rfl rfl rfl)) fun _ _ => .pure trivial

theorem act_finds (rule index : Nat) : Finds Inv (act u rule index) fun _ => True :=
  .bind .get fun _ _ => modifyHost_finds h _

/-- A context notes the state of its call, but nothing is asked about that state alone. -/
theorem newContext_finds (parent : Option NodeId) (invoking : Option Nat) (rule : Nat) :
    Finds Inv (newContext parent invoking rule) fun _ => True :=
  .bind .get fun _ inv => .bind (.set (h inv rfl rfl rfl)) fun _ _ => .pure trivial

/-- Too many calls are no question. -/
theorem deepen_finds (rule : Nat) : Finds Inv (deepen u rule) fun _ => True := by
  refine .bind .get fun p inv => .ite (fun _ => ?_) fun _ => .set (h inv rfl rfl rfl)
  exact .throw_bind id

/-- The input has nothing to do with states. -/
theorem onInput_finds (f : TokenStream σ → α × TokenStream σ) :
    Finds Inv (onInput f) fun _ => True :=
  .bind .get fun _ inv => .bind (.set (h inv rfl rfl rfl)) fun _ _ => .pure trivial

theorem reportMistake_finds [TokenSource σ] (token : Option Token) (message : String)
    (error : Option RecognitionError) :
    Finds Inv (reportMistake token message error) fun _ => True :=
  .modify fun _ inv => h inv rfl rfl rfl

variable [TokenSource σ]

theorem currentToken_finds : Finds Inv currentToken fun _ => True :=
  .bind (onInput_finds h _) fun _ _ => .pure trivial

/-- A token is put into the tree, and the listeners are told. -/
theorem consume_finds : Finds Inv (consume u) fun _ => True := by
  rw [consume_eq]
  refine .bind (currentToken_finds h) fun token _ => ?_
  have puts : Finds Inv (putToken u token) fun _ => True := by
    refine .bind (.modify fun _ inv => h inv rfl rfl rfl) fun _ _ => .bind .get fun p inv => ?_
    split
    · exact .pure trivial
    · refine .ite (fun _ => .pure trivial) fun _ => .bind (.set (h inv rfl rfl rfl)) fun _ _ => ?_
      exact .bind (modifyHost_finds h _) fun _ _ => .pure trivial
  exact .ite (fun _ => puts) fun _ => .bind (onInput_finds h _) fun _ _ => puts

/-- A call goes to the start of its rule, wherever that is. -/
theorem enterCall_finds {start : Nat} (moves : ∀ p, Inv p → Inv { p with state := start })
    (context rule : Nat) (precedence : Int) :
    Finds Inv (enterCall u context start rule precedence) fun _ => True := by
  refine .ite (fun _ => ?_) fun _ => ?_
  · refine .bind (.modify fun _ inv => h inv rfl rfl rfl) fun _ _ => ?_
    refine .bind (deepen_finds h rule) fun _ _ => ?_
    refine .bind (.modify fun p inv => h (moves p inv) rfl rfl rfl) fun _ _ => ?_
    refine .bind (onInput_finds h _) fun _ _ => .bind (modifyTree_finds h _) fun _ _ => ?_
    exact modifyHost_finds h _
  · refine .bind (deepen_finds h rule) fun _ _ => .bind (.modify moves) fun _ _ => ?_
    refine .bind (setContext_finds h _) fun _ _ => .bind (onInput_finds h _) fun _ _ => ?_
    exact .bind (modifyTree_finds h _) fun _ _ => modifyHost_finds h _

omit [TokenSource σ] in
/-- The alternative is noted in the tree. -/
theorem takeAlternative_finds (context alt : Nat) :
    Finds Inv (takeAlternative u context alt) fun _ => True := by
  refine .bind (modifyTree_finds h _) fun _ _ => .bind .get fun p _ => ?_
  refine .ite (fun _ => ?_) fun _ => setContext_finds h _
  split
  · exact .bind (modifyTree_finds h _) fun _ _ => setContext_finds h _
  · exact setContext_finds h _

/-- Another turn of an operator loop stays where it is. -/
theorem wrapContext_finds (context state : Nat) :
    Finds Inv (wrapContext u context state) fun _ => True := by
  refine .bind .get fun p _ => ?_
  split
  · exact .pure trivial
  · refine .bind (onInput_finds h _) fun _ _ => .bind (modifyTree_finds h _) fun _ _ => ?_
    refine .bind (modifyHost_finds h _) fun _ _ => ?_
    refine .bind (.modify fun _ inv => h inv rfl rfl rfl) fun _ _ => ?_
    exact modifyHost_finds h _

/-- The contexts of a left-recursive rule are attached, and the parser stays where it is. -/
theorem unwrapContexts_finds (parent : Option NodeId) :
    Finds Inv (unwrapContexts u parent) fun _ => True := by
  refine .bind (.modify fun _ inv => h inv rfl rfl rfl) fun _ _ => .bind .get fun p _ => ?_
  split
  · exact setContext_finds h _
  · refine .bind (onInput_finds h _) fun _ _ => .bind (modifyTree_finds h _) fun _ _ => ?_
    refine .bind .get fun _ _ => .bind (.forM fun id _ => modifyHost_finds h _) fun _ _ => ?_
    exact .modify fun _ inv => h inv rfl rfl rfl

omit [TokenSource σ] in
/-- An alternative that is prescribed is used up. -/
theorem prescribed?_finds (decision place : Nat) :
    Finds Inv (prescribed? decision place) fun _ => True := by
  refine .bind .get fun p _ => ?_
  split
  · refine .ite (fun _ => ?_) fun _ => .pure trivial
    exact .bind (.modify fun _ inv => h inv rfl rfl rfl) fun _ _ => .pure trivial
  · exact .pure trivial

theorem continueRecursion_finds (s : State) : Finds Inv (continueRecursion u s) fun _ => True :=
  .bind .get fun _ _ => .bind (newContext_finds h _ _ _) fun _ _ => .bind (.required id) fun _ _ =>
    wrapContext_finds h _ _

theorem failedPredicate_finds (rule : Nat) (index : Option Nat) (text : String) :
    Finds Inv (failedPredicate rule index text) fun _ => True :=
  .bind .get fun _ _ => .bind (currentToken_finds h) fun _ _ => .pure trivial

omit [TokenSource σ] in
/-- Contexts are marked with an error. -/
theorem markContexts_finds (error : RecognitionError) :
    Finds Inv (markContexts error) fun _ => True :=
  .modify fun _ inv => h inv rfl rfl rfl

/-- An error is made visible in the tree. -/
theorem markError_finds (error : RecognitionError) : Finds Inv (markError error) fun _ => True := by
  unfold markError
  extract_lets type mark
  have marks (anchor : Token) : Finds Inv (mark anchor) fun _ => True := by
    refine .bind .get fun p _ => ?_
    split
    · exact modifyTree_finds h _
    · exact .pure trivial
  split
  · exact .pure_bind (marks _)
  · exact .bind (currentToken_finds h) fun _ _ => marks _

end OfStates

/-- Inside the network all that the step asks is answered, and the parser stays inside. -/
abbrev Answered (u : ParserSetup τ) (x : Parsing σ τ α) : Prop :=
  Finds (Inside u.grammar.network.states.size) x fun _ => True

/-- Behind such a step, what the parser has stored is still about states of the network. -/
theorem Answered.ensures {x : Parsing σ τ α} {p : Parser σ τ} (h : Answered u x)
    (inside : p.Inside u.grammar.network.states.size) :
    x.Ensures p (fun _ p' => p'.InRange u.grammar.network.states.size ∧ True)
      fun e p' => p'.InRange u.grammar.network.states.size ∧ ¬ e.IsStray :=
  (h p inside).imp (fun _ _ => And.imp_left (·.toInRange)) fun _ _ => And.imp_left (·.toInRange)

section Inside

variable (entire : u.grammar.network.Entire)

include entire

/-- What can follow is asked of the state where the parser stands. -/
theorem expectedTokens_answered : Answered u (expectedTokens u : Parsing σ τ _) :=
  .bind .get fun _ inside => .ofAnswer <| entire.exists_ok <|
    Network.expectedTokens_answers entire.toWellFormed inside.state _

/-- The states behind the calls of the network are states of the network. -/
theorem followers_answered : Answered u (followers u : Parsing σ τ _) := by
  refine .bind .get fun p _ => ?_
  refine .bind (.foldlM (R := fun _ => True) trivial ?_) fun _ _ => .pure trivial
  intro found _ follow mem
  obtain ⟨invoking, -, next⟩ := List.mem_filterMap.1 mem
  have answers := Network.nextTokens_answers entire.toWellFormed
    ((Network.followState_follows next).lt entire.toWellFormed)
  exact .bind (.ofAnswer (entire.exists_ok answers)) fun _ _ => .pure trivial

variable [TokenSource σ]

/-- A mismatch asks what would have fitted at its state. -/
theorem mismatch_answered {state : Nat} (lt : state < u.grammar.network.states.size)
    (node : Option NodeId) : Answered u (mismatch u state node : Parsing σ τ _) := by
  refine .bind .get fun p inside => ?_
  have answers := Network.expectedTokens_answers entire.toWellFormed lt (p.tree.invokingStates node)
  refine .bind (.ofAnswer (entire.exists_ok answers)) fun _ _ => ?_
  exact .bind (currentToken_finds Parser.inside_ofStates) fun _ _ => .pure trivial

/-- A message asks for what was expected, unless the error says so. -/
theorem describe_answered (e : RecognitionError) : Answered u (describe u e : Parsing σ τ _) := by
  unfold describe
  cases e.kind with
  | noViableAlt start =>
      dsimp -zeta only
      extract_lets answer first last
      split
      · exact .pure_bind (.pure trivial)
      · exact .bind (onInput_finds Parser.inside_ofStates _) fun _ _ => .pure trivial
  | inputMismatch =>
      dsimp -zeta only
      extract_lets answer
      split
      · exact .pure_bind (.pure trivial)
      · exact .bind (expectedTokens_answered entire) fun _ _ => .pure trivial
  | failedPredicate => exact .pure trivial
  | noToken => exact .pure trivial

/-- An error is reported where the parser stands. -/
theorem reportError_answered (e : RecognitionError) :
    Answered u (reportError u e : Parsing σ τ _) := by
  refine .bind isRecovering_finds fun _ _ => .ite (fun _ => .pure trivial) fun _ => ?_
  refine .bind (modifyRecovery_finds Parser.inside_ofStates fun _ => rfl) fun _ _ => ?_
  exact .bind (describe_answered entire e) fun _ _ =>
    reportMistake_finds Parser.inside_ofStates _ _ _

theorem reportUnwanted_answered : Answered u (reportUnwanted u : Parsing σ τ _) := by
  refine .bind isRecovering_finds fun _ _ => .ite (fun _ => .pure trivial) fun _ => ?_
  refine .bind (modifyRecovery_finds Parser.inside_ofStates fun _ => rfl) fun _ _ => ?_
  refine .bind (currentToken_finds Parser.inside_ofStates) fun _ _ => ?_
  exact .bind (expectedTokens_answered entire) fun _ _ =>
    reportMistake_finds Parser.inside_ofStates _ _ _

theorem reportMissing_answered : Answered u (reportMissing u : Parsing σ τ _) := by
  refine .bind isRecovering_finds fun _ _ => .ite (fun _ => .pure trivial) fun _ => ?_
  refine .bind (modifyRecovery_finds Parser.inside_ofStates fun _ => rfl) fun _ _ => ?_
  refine .bind (currentToken_finds Parser.inside_ofStates) fun _ _ => ?_
  exact .bind (expectedTokens_answered entire) fun _ _ =>
    reportMistake_finds Parser.inside_ofStates _ _ _

/-- A token is deleted where the parser stands. -/
theorem deleteToken_answered : Answered u (deleteToken u : Parsing σ τ _) := by
  refine .bind (onInput_finds Parser.inside_ofStates _) fun _ _ => ?_
  refine .bind (expectedTokens_answered entire) fun _ _ => .ite (fun _ => .pure trivial) fun _ => ?_
  refine .bind (reportUnwanted_answered entire) fun _ _ => ?_
  refine .bind (consume_finds Parser.inside_ofStates) fun _ _ => ?_
  refine .bind (currentToken_finds Parser.inside_ofStates) fun _ _ => ?_
  exact .bind (modifyRecovery_finds Parser.inside_ofStates fun _ => rfl) fun _ _ => .pure trivial

/-- The state behind the first edge is one of the network as well. -/
theorem insertToken_answered : Answered u (insertToken u : Parsing σ τ _) := by
  refine .bind (onInput_finds Parser.inside_ofStates _) fun _ _ => .bind .get fun p inside => ?_
  refine .bind (.ofQuestion (Prediction.state_known inside.state) fun s =>
    Lookahead.state_eq_ok.1) fun s here => ?_
  split
  case h_1 => exact .pure trivial
  case h_2 t first =>
      have answers := Network.nextTokensInContext_answers entire.toWellFormed
        (entire.target_lt here (List.mem_of_head? first)) p.invokingStates
      refine .bind (.ofAnswer (entire.exists_ok answers)) fun _ _ => ?_
      refine .ite (fun _ => ?_) fun _ => .pure trivial
      exact .bind (reportMissing_answered entire) fun _ _ => .pure trivial

/-- A token is made up for what the state of the parser expects. -/
theorem missingToken_answered : Answered u (missingToken u : Parsing σ τ _) := by
  refine .bind (expectedTokens_answered entire) fun set _ => ?_
  extract_lets type name made
  refine .bind (currentToken_finds Parser.inside_ofStates) fun current _ => ?_
  refine .ite (fun _ => ?_) fun _ => .pure_bind (.pure trivial)
  refine .bind (onInput_finds Parser.inside_ofStates _) fun _ _ => ?_
  exact .pure_bind (.pure trivial)

omit entire in
/-- Tokens are skipped as long as there is fuel. -/
theorem consumeUntil_finds (h : OfStates Inv) (stop : IntervalSet) (fuel : Nat) :
    Finds Inv (consumeUntil u stop fuel) fun _ => True := by
  induction fuel with
  | zero => exact .throw fun stray => stray rfl
  | succ fuel ih =>
      refine .bind (onInput_finds h _) fun _ _ => .ite (fun _ => .pure trivial) fun _ => ?_
      exact .bind (consume_finds h) fun _ _ => ih

/-- A mismatch is about the state where the parser stands, or the one where it left a rule. -/
theorem recoverInline_answered : Answered u (recoverInline u : Parsing σ τ _) := by
  unfold recoverInline
  split
  · refine .bind (deleteToken_answered entire) fun deleted _ => ?_
    split
    · exact .bind (consume_finds Parser.inside_ofStates) fun _ _ => .pure trivial
    · refine .bind (insertToken_answered entire) fun _ _ => ?_
      refine .ite (fun _ => missingToken_answered entire) fun _ => .bind .get fun p inside => ?_
      refine .bind (mismatch_answered entire ?_ _) fun _ _ => .throw id
      cases left : p.recovery.endedAt with
      | none => exact inside.state
      | some place => exact inside.ended place left
  · refine .bind .get fun p inside => .bind (mismatch_answered entire inside.state _) fun _ _ => ?_
    exact .bind (markContexts_finds Parser.inside_ofStates _) fun _ _ => .throw id

/-- After an error, the states behind the open calls are asked for what can follow there. -/
theorem recover_answered (error : RecognitionError) :
    Answered u (recover u error : Parsing σ τ _) := by
  unfold recover
  split
  · refine .bind index_finds fun here _ => .bind .get fun p _ => ?_
    extract_lets resync
    have resyncs (x : PUnit) : Answered u (resync x : Parsing σ τ _) := by
      refine .bind index_finds fun _ _ => ?_
      refine .bind (modifyRecovery_finds Parser.inside_ofStates fun _ => rfl) fun _ _ => ?_
      exact .bind (followers_answered entire) fun _ _ =>
        consumeUntil_finds Parser.inside_ofStates _ _
    refine .ite (fun _ => ?_) fun _ => resyncs ⟨⟩
    exact .bind (consume_finds Parser.inside_ofStates) fun _ _ => resyncs ⟨⟩
  · exact .bind (markContexts_finds Parser.inside_ofStates _) fun _ _ => .throw id

/-- Where the input goes on behind the rule, the state that is remembered is that of the parser. -/
theorem sync_answered : Answered u (sync u : Parsing σ τ _) := by
  refine .ite (fun _ => .pure trivial) fun _ => .bind isRecovering_finds fun _ _ => ?_
  refine .ite (fun _ => .pure trivial) fun _ => .bind .get fun p inside => ?_
  refine .bind (onInput_finds Parser.inside_ofStates _) fun _ _ => ?_
  have answers := Network.nextTokens_answers entire.toWellFormed inside.state
  refine .bind (.ofAnswer (entire.exists_ok answers)) fun _ _ => .ite (fun _ => ?_) fun _ =>
    .ite (fun _ => ?_) fun _ => ?_
  · exact .modify fun p inside => ⟨⟨inside.tables, by simp⟩, inside.state⟩
  · refine .modify fun p' inside' => ⟨⟨inside'.tables, fun place mem => ?_⟩, inside'.state⟩
    rcases (Option.orElse_eq_some _ _ _).1 mem with left | ⟨-, here⟩
    · exact inside'.ended place left
    · cases here
      exact inside.state
  refine .bind (.asks (Prediction.state_known inside.state)) fun s _ => ?_
  have deletes {k : Option Token → Parsing σ τ Unit} (goOn : ∀ token, k (some token) = pure ())
      (giveUp : k none = do throw (.recoverable (← mismatch u p.state p.context))) :
      Answered u (deleteToken u >>= k) := by
    refine .bind (deleteToken_answered entire) fun deleted _ => ?_
    cases deleted with
    | some token => exact goOn token ▸ .pure trivial
    | none =>
        rw [giveUp]
        exact .bind (mismatch_answered entire inside.state _) fun _ _ => .throw id
  have skips : Answered u (do
      reportUnwanted u
      let stop := (← expectedTokens u).union (← followers u)
      consumeUntil u stop u.fuel : Parsing σ τ Unit) := by
    refine .bind (reportUnwanted_answered entire) fun _ _ => ?_
    refine .bind (expectedTokens_answered entire) fun _ _ => ?_
    exact .bind (followers_answered entire) fun _ _ => consumeUntil_finds Parser.inside_ofStates _ _
  split
  · exact deletes (fun _ => rfl) rfl
  · exact deletes (fun _ => rfl) rfl
  · exact skips
  · exact skips
  · exact .pure trivial

/-- A match leaves the parser where it is. -/
theorem matchWhere_answered (accept : Symbol → Bool) :
    Answered u (matchWhere u accept : Parsing σ τ _) := by
  refine .bind (onInput_finds Parser.inside_ofStates _) fun _ _ => .ite (fun _ => ?_) fun _ => ?_
  · exact .bind (modifyRecovery_finds Parser.inside_ofStates fun _ => rfl) fun _ _ =>
      consume_finds Parser.inside_ofStates
  · refine .bind (recoverInline_answered entire) fun token _ => ?_
    refine .ite (fun _ => .bind .get fun p _ => ?_) fun _ => .pure trivial
    split
    · exact .bind (modifyTree_finds Parser.inside_ofStates _) fun _ _ => .pure trivial
    · exact .pure trivial

theorem matchToken_answered (type : Symbol) : Answered u (matchToken u type : Parsing σ τ _) := by
  refine .bind (matchWhere_answered entire _) fun token _ => ?_
  refine .ite (fun _ => ?_) fun _ => .pure trivial
  refine .bind (.modify fun _ inside => ?_) fun _ _ => .pure trivial
  exact Parser.inside_ofStates inside rfl rfl rfl

/-- A prediction is about the tables alone. -/
theorem predict_answered (decision : Nat) (node : Option NodeId) :
    Answered u (predict u decision node : Parsing σ τ _) := by
  intro p inside
  have finds := Prediction.adaptivePredict_finds entire u.options.predictionMode u.fuel decision
    (p.situation u node) p.simulation inside.tables
  obtain ⟨outcome, s', run⟩ : ∃ outcome s', (p.question u decision node).run p.simulation =
    (outcome, s') := ⟨_, _, rfl⟩
  cases outcome with
  | ok alt =>
      obtain ⟨tables, -⟩ := finds.ok run
      exact .of_ok (Parser.run_predict run) ⟨⟨⟨tables, inside.ended⟩, inside.state⟩, trivial⟩
  | error e =>
      obtain ⟨tables, mild⟩ := finds.error run
      exact .of_error (Parser.run_predict run) ⟨⟨⟨tables, inside.ended⟩, inside.state⟩, mild⟩

/-- An alternative is chosen where the parser stands. -/
theorem choose_answered (number : Nat) (s : State) :
    Answered u (choose u number s : Parsing σ τ _) := by
  refine .ite (fun _ => .pure trivial) fun _ => .bind (.required id) fun d _ => ?_
  refine .bind (sync_answered entire) fun _ _ => ?_
  refine .bind index_finds fun here _ => ?_
  refine .bind (prescribed?_finds Parser.inside_ofStates _ _) fun given _ => ?_
  extract_lets chosen
  have chooses (alt : Nat) : Answered u (chosen alt : Parsing σ τ _) := by
    refine .ite (fun _ => .bind .get fun p _ => ?_) fun _ => .pure trivial
    split
    · exact .bind (takeAlternative_finds Parser.inside_ofStates _ _) fun _ _ => .pure trivial
    · exact .pure trivial
  split
  · exact .pure_bind (chooses _)
  · exact .bind .get fun _ _ => .bind (predict_answered entire _ _) fun _ _ => chooses _

/-- The edges of a state lead to states of the network. -/
theorem takeEdge_answered {number : Nat} {s : State} {t : Transition}
    (here : u.grammar.network.states[number]? = some s) (mem : t ∈ s.transitions) :
    Answered u (takeEdge u number s t : Parsing σ τ _) := by
  have target := entire.target_lt here mem
  have known := Prediction.state_known target
  cases t with
  | epsilon target =>
      refine .bind (.asks known) fun _ _ => ?_
      exact .ite (fun _ => continueRecursion_finds Parser.inside_ofStates s) fun _ => .pure trivial
  | atom => exact .bind (matchToken_answered entire _) fun _ _ => .pure trivial
  | range | set | notSet => exact .bind (matchWhere_answered entire _) fun _ _ => .pure trivial
  | wildcard => exact .bind (matchWhere_answered entire _) fun _ _ => .pure trivial
  | call =>
      refine .bind (.asks known) fun _ _ => .bind .get fun p _ => ?_
      refine .bind (newContext_finds Parser.inside_ofStates _ _ _) fun _ _ => ?_
      refine enterCall_finds Parser.inside_ofStates (fun p inside => ?_) _ _ _
      exact .setState inside.toInRange target
  | predicate =>
      refine .bind (ask_finds Parser.inside_ofStates _ _) fun _ _ => ?_
      refine .ite (fun _ => ?_) fun _ => .pure trivial
      exact .bind (failedPredicate_finds Parser.inside_ofStates _ _ _) fun _ _ => .throw id
  | precedence =>
      refine .bind (allows_finds _) fun _ _ => ?_
      refine .ite (fun _ => .bind .get fun p _ => ?_) fun _ => .pure trivial
      exact .bind (failedPredicate_finds Parser.inside_ofStates _ _ _) fun _ _ => .throw id
  | action target rule index =>
      cases index with
      | none => exact .pure trivial
      | some index => exact act_finds Parser.inside_ofStates _ _

/-- From a state of the network the parser goes to a state of the network. -/
theorem visitState_answered {number : Nat} {s : State}
    (here : u.grammar.network.states[number]? = some s) :
    Answered u (visitState u number s : Parsing σ τ _) := by
  unfold visitState
  extract_lets missing goOn
  have goesOn (alt : Nat) : Answered u (goOn alt : Parsing σ τ _) := by
    refine .bind (.required id) fun t found => ?_
    have mem : t ∈ s.transitions := by
      split at found
      · cases found
      · exact List.mem_of_getElem? found
    refine .bind (takeEdge_answered entire here mem) fun _ _ => .modify fun p inside => ?_
    exact .setState inside.toInRange (entire.target_lt here mem)
  refine .ite (fun _ => ?_) fun _ => .pure_bind (goesOn _)
  exact .bind (choose_answered entire number s) fun _ _ => goesOn _

/-- The stop of a rule is a state of the network. -/
theorem abandonRule_answered (s : State) (error : RecognitionError) :
    Answered u (abandonRule u s error : Parsing σ τ _) := by
  refine .bind (modifyRecovery_finds Parser.inside_ofStates fun _ => rfl) fun _ _ => ?_
  refine .bind (.required id) fun stop stops => ?_
  have lt : stop < u.grammar.network.states.size := by
    obtain ⟨s, here, -⟩ := entire.stop_rule stops
    exact (Array.getElem?_eq_some_iff.1 here).1
  refine .bind (.modify fun p inside => .setState inside.toInRange lt) fun _ _ => ?_
  refine .bind .get fun p _ => ?_
  extract_lets settle
  have settles (x : PUnit) : Answered u (settle x : Parsing σ τ _) := by
    refine .bind (reportError_answered entire error) fun _ _ => ?_
    refine .bind index_finds fun here _ => ?_
    refine .bind (recover_answered entire error) fun _ _ => ?_
    refine .bind index_finds fun _ _ => ?_
    exact .ite (fun _ => markError_finds Parser.inside_ofStates error) fun _ => .pure trivial
  split
  · exact .bind (modifyTree_finds Parser.inside_ofStates _) fun _ _ => settles ⟨⟩
  · exact settles ⟨⟩

end Inside

section Outside

variable [TokenSource σ] {size : Nat}

/-- Behind a rule the parser stands where the call was made, if there was one. -/
theorem exitRule_finds : Finds (InRange size) (exitRule u : Parsing σ τ _) fun _ => True := by
  refine .bind .get fun p _ => ?_
  split
  · exact .pure trivial
  · refine .bind .get fun _ _ => .bind (onInput_finds Parser.inRange_ofStates _) fun _ _ => ?_
    refine .bind (modifyTree_finds Parser.inRange_ofStates _) fun _ _ => ?_
    refine .bind (modifyHost_finds Parser.inRange_ofStates _) fun _ _ => ?_
    exact .modify fun p inRange => ⟨inRange.tables, inRange.ended⟩

/-- Behind a call there is a state of the network, or the network has a defect. -/
theorem visitRuleStop_finds (number : Nat) (s : State) :
    Finds (InRange size) (visitRuleStop u number s : Parsing σ τ _) fun _ => True := by
  unfold visitRuleStop
  extract_lets n goOn
  have moves (state : Nat) : Finds (InRange size) (setState state : Parsing σ τ _) fun _ => True :=
    .modify fun p inRange => ⟨inRange.tables, inRange.ended⟩
  have goesOn (x : PUnit) : Finds (InRange size) (goOn x : Parsing σ τ _) fun _ => True :=
    .bind .get fun _ _ => .bind (.required id) fun _ _ => moves _
  refine .ite (fun _ => .bind .get fun p _ => ?_) fun _ => .bind exitRule_finds fun _ _ => goesOn ⟨⟩
  split
  · exact .throw_bind id
  · refine .bind (.modify fun p inRange => ⟨inRange.tables, inRange.ended⟩) fun _ _ => ?_
    refine .bind (unwrapContexts_finds Parser.inRange_ofStates _) fun _ _ => ?_
    exact .bind (moves _) fun _ _ => goesOn ⟨⟩

/-- Behind the start rule nothing is asked. -/
theorem conclude_finds (leftRecursive : Bool) (root : NodeId) :
    Finds (InRange size) (conclude u leftRecursive root : Parsing σ τ _) fun _ => True := by
  refine .ite (fun _ => .bind .get fun p _ => ?_) fun _ =>
    .bind exitRule_finds fun _ _ => .pure trivial
  refine .bind (.modify fun p inRange => ⟨inRange.tables, inRange.ended⟩) fun _ _ => ?_
  refine .bind (unwrapContexts_finds Parser.inRange_ofStates _) fun _ _ => ?_
  exact .bind (.modify fun p inRange => ⟨inRange.tables, inRange.ended⟩) fun _ _ => .pure trivial

/-- The start of a rule is gone to before anything is asked. -/
theorem enter_finds (rule : Nat) :
    Finds (InRange size) (enter u rule : Parsing σ τ _) fun _ => True := by
  refine .bind (.required id) fun start _ => ?_
  refine .bind (newContext_finds Parser.inRange_ofStates _ _ _) fun _ _ => ?_
  refine .bind (.modify fun p inRange => ⟨inRange.tables, inRange.ended⟩) fun _ _ => ?_
  have moves (p : Parser σ τ) (inRange : p.InRange size) : { p with state := start }.InRange size :=
    ⟨inRange.tables, inRange.ended⟩
  exact .bind (enterCall_finds Parser.inRange_ofStates moves _ _ _) fun _ _ => .pure trivial

/-- A turn is made at a state of the network, or not at all. -/
theorem turn_finds (entire : u.grammar.network.Entire) (leftRecursive : Bool) (root : NodeId) :
    Finds (InRange u.grammar.network.states.size) (turn u leftRecursive root : Parsing σ τ _)
      fun _ => True := by
  intro p inRange
  unfold turn
  refine .bind (.of_ok (a := p) (t := p) rfl ?_)
  extract_lets number ended
  obtain missing | ⟨s, here⟩ := Option.eq_none_or_eq_some u.grammar.network.states[number]?
  · rw [missing]
    exact .of_error rfl ⟨inRange, id⟩
  rw [here]
  refine .bind (.of_ok (a := s) (t := p) rfl ?_)
  have ends : Finds (InRange u.grammar.network.states.size) (ended ⟨⟩) fun _ => True :=
    .pure trivial
  split
  case isTrue =>
      have returns : Finds (InRange u.grammar.network.states.size) (do
          if ← isOutermost then return some (← conclude u leftRecursive root)
          visitRuleStop u number s
          ended ⟨⟩) fun _ => True := by
        refine .bind isOutermost_finds fun _ _ => ?_
        refine .ite (fun _ => .bind (conclude_finds _ _) fun _ _ => .pure trivial) fun _ => ?_
        exact .bind (visitRuleStop_finds number s) fun _ _ => ends
      exact returns p inRange
  case isFalse =>
      have lt : p.state < u.grammar.network.states.size := (Array.getElem?_eq_some_iff.1 here).1
      refine Answered.ensures (.bind_attempt (visitState_answered entire here) ?_) ⟨inRange, lt⟩
      rintro ((error | error | fault) | ⟨⟩) mild
      · exact .bind (abandonRule_answered entire s error) fun _ _ => .pure trivial
      · exact .throw_bind id
      · exact .throw_bind (mild _ rfl)
      · exact .pure trivial

/-- Turn by turn, a parse comes to states of the network alone. -/
theorem visitStates_finds (entire : u.grammar.network.Entire) (leftRecursive : Bool) (root : NodeId)
    (fuel : Nat) : Finds (InRange u.grammar.network.states.size)
      (visitStates u leftRecursive root fuel : Parsing σ τ _) fun _ => True := by
  induction fuel with
  | zero => exact .throw fun stray => stray rfl
  | succ fuel ih =>
      rw [visitStates_succ]
      refine .bind (turn_finds entire leftRecursive root) fun answer _ => ?_
      cases answer with
      | some => exact .pure trivial
      | none => exact ih

/-- A parse comes to states of the network alone. If it ends in a fault, it has run out of fuel. -/
theorem parse_finds (entire : u.grammar.network.Entire) (rule : Nat) :
    Finds (InRange u.grammar.network.states.size) (parse u rule : Parsing σ τ _) fun _ => True := by
  rw [parse_eq]
  exact .bind (enter_finds rule) fun _ _ => visitStates_finds entire _ _ _

end Outside

end Parsing

end AdaptiveLL
