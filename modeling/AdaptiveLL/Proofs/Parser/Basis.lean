import AdaptiveLL.Proofs.Parser.Moves
import AdaptiveLL.Proofs.Step.Invariant
/-!
Invariants of a parser within a rule. The moves that enter and leave no rule are made of a few basic
ones. What all of these keep is kept by recovery, by the choice of an alternative and by the end of a
rule after an error, whatever the outcome is.
-/
namespace AdaptiveLL

theorem Parser.begun_behind {σ τ : Type} [TokenSource σ] {p : Parser σ τ} (h : p.input.Sound) :
    p.behind.Begun := by
  have here := (current?_eq p).symm.trans (currentToken_of_placed h.toPlaced)
  unfold behind
  split
  case isTrue => exact h.begun_start
  case isFalse more =>
      have next := TokenStream.consume_next h.toPlaced here (Bool.eq_false_iff.2 more)
      exact ⟨p.input.consume_leads.sound h, _, by rw [next.2]; rfl⟩

namespace Parsing

variable {σ τ α : Type} [TokenSource σ] {u : ParserSetup τ} {I J : Parser σ τ → Prop}

/-! What only reads the state of the parser keeps every invariant. -/

omit [TokenSource σ] in
theorem index_preserves : index.Preserves I :=
  .bind .get fun _ => .pure _

omit [TokenSource σ] in
theorem isRecovering_preserves : isRecovering.Preserves I :=
  .bind .get fun _ => .pure _

omit [TokenSource σ] in
theorem allows_preserves (level : Int) : (allows level).Preserves I :=
  .bind .get fun _ => .pure _

omit [TokenSource σ] in
theorem expectedTokens_preserves : (expectedTokens u).Preserves I :=
  .bind .get fun _ => .ofQuestion _

omit [TokenSource σ] in
theorem followers_preserves : (followers u).Preserves I := by
  refine .bind .get fun _ => .bind (.foldlM (fun _ _ => ?_) _ _) fun _ => .pure _
  exact .bind (.ofQuestion _) fun _ => .pure _

/-- The basic moves within a rule keep the invariant. -/
structure Basis (u : ParserSetup τ) (I : Parser σ τ → Prop) : Prop where
  look {p : Parser σ τ} (k : Int) : I p → I (p.withInput (p.input.lookahead? k).2)
  textRange {p : Parser σ τ} (i j : Nat) : I p → I (p.withInput (p.input.textRange i j).2)
  consume : (consume u).Preserves I
  conjure {p : Parser σ τ} {token : Token} {context : NodeId} (index : token.index = none)
    (here : p.context = some context) : I p → I { p with tree := (p.tree.addToken context token true).2 }
  note {p : Parser σ τ} (id : NodeId) {f : RuleNode → RuleNode}
    (keeps : ∀ node, (f node).start = node.start ∧ (f node).stop = node.stop ∧
      (f node).outline = node.outline) :
    I p → I { p with tree := p.tree.modifyRule id f }
  report {p : Parser σ τ} (report : Report) : I p → I { p with
    errorCount := p.errorCount + 1, simulation := p.simulation.report report }
  settle {p : Parser σ τ} (state : Nat) (recovery : Recovery) (prescription : Option Prescription) :
    I p → I { p with state, recovery, prescription }
  ask (rule index : Nat) : (ask u rule index).Preserves I
  act (rule index : Nat) : (act u rule index).Preserves I
  predict (decision : Nat) (node : Option NodeId) : (predict u decision node).Preserves I

namespace Basis

theorem and (h : Basis u I) (h' : Basis u J) : Basis u fun p => I p ∧ J p where
  look k both := ⟨h.look k both.1, h'.look k both.2⟩
  textRange i j both := ⟨h.textRange i j both.1, h'.textRange i j both.2⟩
  consume p both := ⟨h.consume p both.1, h'.consume p both.2⟩
  conjure index here both := ⟨h.conjure index here both.1, h'.conjure index here both.2⟩
  note id _ keeps both := ⟨h.note id keeps both.1, h'.note id keeps both.2⟩
  report report both := ⟨h.report report both.1, h'.report report both.2⟩
  settle state recovery prescription both :=
    ⟨h.settle state recovery prescription both.1, h'.settle state recovery prescription both.2⟩
  ask rule index p both := ⟨h.ask rule index p both.1, h'.ask rule index p both.2⟩
  act rule index p both := ⟨h.act rule index p both.1, h'.act rule index p both.2⟩
  predict decision node p both := ⟨h.predict decision node p both.1, h'.predict decision node p both.2⟩

variable (h : Basis u I)

include h

section Recovery

theorem lookahead?_preserves (k : Int) :
    (onInput (·.lookahead? k) : Parsing σ τ (Option Token)).Preserves I :=
  fun _ => h.look k

theorem lookahead_preserves (k : Int) : (lookahead k).Preserves I :=
  fun _ => h.look k

theorem currentToken_preserves : currentToken.Preserves I :=
  .bind (h.lookahead?_preserves 1) fun _ => .pure _

theorem setState_preserves (state : Nat) : (setState state).Preserves I :=
  fun p => h.settle state p.recovery p.prescription

theorem modifyRecovery_preserves (f : Recovery → Recovery) : (modifyRecovery f).Preserves I :=
  fun p => h.settle p.state (f p.recovery) p.prescription

theorem mismatch_preserves (state : Nat) (node : Option NodeId) :
    (mismatch u state node).Preserves I :=
  .bind .get fun _ => .bind (.ofQuestion _) fun _ => .bind h.currentToken_preserves fun _ => .pure _

theorem failedPredicate_preserves (rule : Nat) (index : Option Nat) (text : String) :
    (failedPredicate rule index text).Preserves I :=
  .bind .get fun _ => .bind h.currentToken_preserves fun _ => .pure _

theorem describe_preserves (e : RecognitionError) : (describe u e).Preserves I := by
  unfold describe
  cases e.kind with
  | noViableAlt start =>
      dsimp -zeta only
      extract_lets answer first last
      split
      · exact .bind (.pure _) fun _ => .pure _
      · exact .bind (fun _ => h.textRange first (last + 1)) fun _ => .pure _
  | inputMismatch =>
      dsimp -zeta only
      extract_lets answer
      split
      · exact .bind (.pure _) fun _ => .pure _
      · exact .bind expectedTokens_preserves fun _ => .pure _
  | failedPredicate => exact .pure _
  | noToken => exact .pure _

theorem reportMistake_preserves (token : Option Token) (message : String)
    (error : Option RecognitionError) : (reportMistake token message error).Preserves I :=
  fun _ inv => h.settle _ _ _ (h.report _ inv)

theorem reportError_preserves (e : RecognitionError) : (reportError u e).Preserves I := by
  refine .bind isRecovering_preserves fun _ => .ite (.pure _) ?_
  refine .bind (h.modifyRecovery_preserves _) fun _ => ?_
  exact .bind (h.describe_preserves e) fun _ => h.reportMistake_preserves _ _ _

theorem reportUnwanted_preserves : (reportUnwanted u).Preserves I := by
  refine .bind isRecovering_preserves fun _ => .ite (.pure _) ?_
  refine .bind (h.modifyRecovery_preserves _) fun _ => .bind h.currentToken_preserves fun _ => ?_
  exact .bind expectedTokens_preserves fun _ => h.reportMistake_preserves _ _ _

theorem reportMissing_preserves : (reportMissing u).Preserves I := by
  refine .bind isRecovering_preserves fun _ => .ite (.pure _) ?_
  refine .bind (h.modifyRecovery_preserves _) fun _ => .bind h.currentToken_preserves fun _ => ?_
  exact .bind expectedTokens_preserves fun _ => h.reportMistake_preserves _ _ _

theorem deleteToken_preserves : (deleteToken u).Preserves I := by
  refine .bind (h.lookahead_preserves 2) fun _ => .bind expectedTokens_preserves fun _ => ?_
  refine .ite (.pure _) (.bind h.reportUnwanted_preserves fun _ => ?_)
  refine .bind h.consume fun _ => .bind h.currentToken_preserves fun _ => ?_
  exact .bind (h.modifyRecovery_preserves _) fun _ => .pure _

theorem insertToken_preserves : (insertToken u).Preserves I := by
  refine .bind (h.lookahead_preserves 1) fun _ => .bind .get fun p => .bind (.ofQuestion _) fun s => ?_
  split
  · exact .pure _
  · refine .bind (.ofQuestion _) fun _ => .ite ?_ (.pure _)
    exact .bind h.reportMissing_preserves fun _ => .pure _

theorem missingToken_preserves : (missingToken u).Preserves I := by
  refine .bind expectedTokens_preserves fun set => ?_
  extract_lets type name made
  refine .bind h.currentToken_preserves fun current => .ite ?_ ?_
  · exact .bind (h.lookahead?_preserves _) fun _ => .bind (.pure _) fun _ => .pure _
  · exact .bind (.pure _) fun _ => .pure _

theorem consumeUntil_preserves (stop : IntervalSet) (fuel : Nat) :
    (consumeUntil u stop fuel).Preserves I := by
  induction fuel with
  | zero => exact .throw _
  | succ fuel ih =>
      refine .bind (h.lookahead_preserves 1) fun _ => .ite (.pure _) ?_
      exact .bind h.consume fun _ => ih

theorem markContexts_preserves (error : RecognitionError) : (markContexts error).Preserves I := by
  let note (node : RuleNode) := { node with error := some error }
  have marks (ids : List NodeId) (p : Parser σ τ) (inv : I p) :
      I { p with tree := ids.foldl (fun t id => t.modifyRule id note) p.tree } := by
    induction ids generalizing p with
    | nil => exact inv
    | cons id rest ih => exact ih _ (h.note id (f := note) (fun _ => ⟨rfl, rfl, rfl⟩) inv)
  exact fun p => marks _ p

theorem cancel_preserves (error : RecognitionError) (failure : Failure) :
    (markContexts error >>= fun _ => throw failure : Parsing σ τ α).Preserves I :=
  .bind (h.markContexts_preserves error) fun _ => .throw _

theorem recoverInline_preserves : (recoverInline u).Preserves I := by
  unfold recoverInline
  split
  · refine .bind h.deleteToken_preserves fun deleted => ?_
    split
    · exact .bind h.consume fun _ => .pure _
    · refine .bind h.insertToken_preserves fun _ => .ite h.missingToken_preserves ?_
      exact .bind .get fun p => .bind (h.mismatch_preserves _ _) fun _ => .throw _
  · exact .bind .get fun p => .bind (h.mismatch_preserves _ _) fun _ => h.cancel_preserves _ _

theorem recover_preserves (error : RecognitionError) : (recover u error).Preserves I := by
  unfold recover
  split
  · refine .bind index_preserves fun here => .bind .get fun p => ?_
    extract_lets resync
    have resyncs (x : PUnit) : (resync x).Preserves I := by
      refine .bind index_preserves fun _ => .bind (h.modifyRecovery_preserves _) fun _ => ?_
      exact .bind followers_preserves fun _ => h.consumeUntil_preserves _ _
    refine .ite ?_ (resyncs ⟨⟩)
    exact .bind h.consume fun _ => resyncs ⟨⟩
  · exact h.cancel_preserves _ _

theorem sync_preserves : (sync u).Preserves I := by
  refine .ite (.pure _) (.bind isRecovering_preserves fun _ => .ite (.pure _) ?_)
  refine .bind .get fun p => .bind (h.lookahead_preserves 1) fun _ => .bind (.ofQuestion _) fun _ => ?_
  refine .ite (h.modifyRecovery_preserves _) (.ite (h.modifyRecovery_preserves _) ?_)
  refine .bind (.ofQuestion _) fun s => ?_
  have skips : Step.Preserves I (do
      reportUnwanted u
      let stop := (← expectedTokens u).union (← followers u)
      consumeUntil u stop u.fuel) := by
    refine .bind h.reportUnwanted_preserves fun _ => .bind expectedTokens_preserves fun _ => ?_
    exact .bind followers_preserves fun _ => h.consumeUntil_preserves _ _
  split
  · refine .bind h.deleteToken_preserves fun deleted => ?_
    split
    · exact .pure _
    · exact .bind (h.mismatch_preserves _ _) fun _ => .throw _
  · refine .bind h.deleteToken_preserves fun deleted => ?_
    split
    · exact .pure _
    · exact .bind (h.mismatch_preserves _ _) fun _ => .throw _
  · exact skips
  · exact skips
  · exact .pure _

end Recovery

section States

theorem matchWhere_preserves (accept : Symbol → Bool) : (matchWhere u accept).Preserves I := by
  refine .bind (h.lookahead_preserves 1) fun _ => .ite ?_ ?_
  · exact .bind (h.modifyRecovery_preserves _) fun _ => h.consume
  · refine .bind h.recoverInline_preserves fun token => ?_
    extract_lets answer
    split
    case isTrue conjured =>
        have index : token.index = none := by
          rw [← Option.isNone_iff_eq_none]
          exact (Bool.and_eq_true_iff.1 conjured).2
        refine .bind_get fun p inv => ?_
        split
        case h_1 context here => exact h.conjure index here inv
        case h_2 => exact inv
    case isFalse => exact .pure _

/-- A match of the end of the input is noted. -/
theorem matchToken_preserves (type : Symbol)
    (ended : type = Symbol.eof → ∀ p, I p → I { p with matchedEof := true }) :
    (matchToken u type).Preserves I := by
  refine .bind (h.matchWhere_preserves _) fun token => ?_
  split
  case isTrue eof =>
      obtain ⟨same, -⟩ := Bool.and_eq_true_iff.1 eof
      exact .bind (.modify (ended (beq_iff_eq.1 same))) fun _ => .pure _
  case isFalse => exact .pure _

theorem prescribed?_preserves (decision place : Nat) : (prescribed? decision place).Preserves I := by
  refine .bind .get fun p => ?_
  split
  · refine .ite ?_ (.pure _)
    exact .bind (.modify fun p => h.settle p.state p.recovery _) fun _ => .pure _
  · exact .pure _

theorem takeAlternative_preserves {p : Parser σ τ} {context : NodeId} (alt : Nat)
    (here : p.context = some context) (inv : I p) :
    I ((takeAlternative u context alt).run p).2 := by
  have run : (takeAlternative u context alt).run p =
      (.ok (), { p with tree := p.tree.modifyRule context fun node => { node with alt } }) := by
    simp only [takeAlternative, modifyTree, Step.run_bind, Step.run_modify, Step.run_get]
    simp only [here, bne_self_eq_false, Bool.and_false, Bool.false_eq_true, if_false]
    rfl
  rw [run]
  exact h.note context (fun _ => ⟨rfl, rfl, rfl⟩) inv

theorem choose_preserves (number : Nat) (s : State) : (choose u number s).Preserves I := by
  refine .ite (.pure _) (.bind (.required _ _) fun d => .bind h.sync_preserves ?_)
  refine fun _ => .bind index_preserves fun _ => .bind (h.prescribed?_preserves _ _) fun given => ?_
  extract_lets chosen
  have chooses (alt : Nat) : (chosen alt).Preserves I := by
    refine .ite (.bind_get fun p inv => ?_) (.pure _)
    split
    case h_1 context here =>
        exact Step.Preserves.bind_run (h.takeAlternative_preserves alt here inv) fun _ => .pure _
    case h_2 => exact inv
  split
  · exact .bind (.pure _) chooses
  · exact .bind .get fun _ => .bind (h.predict _ _) chooses

theorem markError_preserves (error : RecognitionError) : (markError error).Preserves I := by
  unfold markError
  extract_lets type mark
  have marks (anchor : Token) : (mark anchor).Preserves I := by
    refine .bind_get fun p inv => ?_
    split
    case h_1 context here => exact h.conjure rfl here inv
    case h_2 => exact inv
  split
  · exact .bind (.pure _) marks
  · exact .bind h.currentToken_preserves marks

theorem abandonRule_preserves (s : State) (error : RecognitionError) :
    (abandonRule u s error).Preserves I := by
  refine .bind (h.modifyRecovery_preserves _) fun _ => .bind (.required _ _) fun stop => ?_
  refine .bind (h.setState_preserves stop) fun _ => .bind .get fun p => ?_
  extract_lets settle
  have settles (x : PUnit) : (settle x).Preserves I := by
    refine .bind (h.reportError_preserves error) fun _ => .bind index_preserves fun here => ?_
    refine .bind (h.recover_preserves error) fun _ => .bind index_preserves fun _ => ?_
    exact .ite (h.markError_preserves error) (.pure _)
  split
  · exact .bind (fun _ => h.note _ fun _ => ⟨rfl, rfl, rfl⟩) fun _ => settles ⟨⟩
  · exact settles ⟨⟩

end States

end Basis

section Consumption

variable {p : Parser σ τ}

/-- Outside of all calls a token that is consumed is put nowhere. -/
theorem consume_outside (here : p.context = none) :
    (consume u).run p = (.ok p.currentToken,
      { p.withInput p.behind with consumed := p.consumed.push p.currentToken }) := by
  rw [consume_run]
  simp [putToken, Step.run_bind, Parser.withInput, here]

/-- A token that is consumed stands under the current context, and the listeners are told. -/
theorem consume_under (build : u.options.buildTrees = true) {context : NodeId}
    (here : p.context = some context) :
    let tree := (p.tree.addToken context p.currentToken p.recovery.active).2
    let event := if p.recovery.active then TreeEvent.error p.tree.size else .terminal p.tree.size
    let host := u.host.listeners.foldl (fun host l => l event tree host) p.simulation.host
    (consume u).run p = (.ok p.currentToken,
      { p with
        tree, consumed := p.consumed.push p.currentToken
        simulation := { p.simulation with input := p.behind, host } }) := by
  intro tree event host
  rw [consume_run]
  simp only [putToken, Step.run_bind, Step.run_modify, Step.run_get, Parser.withInput, here, build]
  rfl

end Consumption

/-- A prediction changes the simulation alone. -/
theorem predict_run (decision : Nat) (node : Option NodeId) (p : Parser σ τ) :
    ∃ s', ((predict u decision node).run p).2 = { p with simulation := s' } ∧
      Prediction.Predicted (fun _ _ => True) (p.situation u node) p.simulation s' := by
  have offers : u.grammar.network.Offers fun _ _ => True := fun _ _ _ _ _ _ => trivial
  have ensures := Prediction.adaptivePredict_ensures u.options.predictionMode u.fuel decision
    (p.situation u node) (Tables.within_true p.simulation.tables) offers
  obtain ⟨outcome, s', run⟩ : ∃ outcome s', (p.question u decision node).run p.simulation = (outcome, s') :=
    ⟨_, _, rfl⟩
  refine ⟨s', by rw [Parser.run_predict run], ?_⟩
  cases outcome with
  | ok alt => exact (ensures.ok run).1
  | error e => exact (ensures.error run).1

/-- A parser that has begun to read its input goes on reading it. -/
theorem begun_basis : Basis u fun p : Parser σ τ => p.input.Begun where
  look k begun := begun.sound.begun_lookahead? k
  textRange i j begun := begun.sound.begun_textRange i j
  consume p begun := by
    obtain ⟨tree, host, run, -⟩ := putToken_run (u := u) p.currentToken (p.withInput p.behind)
    rw [consume_run, run]
    exact p.begun_behind begun.sound
  conjure _ _ begun := begun
  note _ _ _ begun := begun
  report _ begun := begun
  settle _ _ _ begun := begun
  ask _ _ _ begun := begun
  act _ _ _ begun := begun
  predict decision node p begun := by
    obtain ⟨s', run, predicted⟩ := predict_run (u := u) decision node p
    obtain ⟨place, here⟩ := begun.position
    rw [run]
    exact ⟨predicted.input.sound begun.sound, place, predicted.position begun.sound here⟩

end Parsing

end AdaptiveLL
