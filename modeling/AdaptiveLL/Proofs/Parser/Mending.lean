import AdaptiveLL.Proofs.Parser.Moves
/-!
What recovery does. Tokens that it skips and tokens that it makes up become error nodes under
the current context, and nothing else is put there but the token that is matched.
-/
namespace AdaptiveLL

open AdaptiveLL.Parser (Acts Fails Looks)

variable {σ τ α β : Type} [TokenSource σ] {u : ParserSetup τ} {N R : Prop} {p p' : Parser σ τ}

/-- The token is of a type that can follow where the parser stands. -/
def Parser.Expects (u : ParserSetup τ) (p : Parser σ τ) (token : Token) : Prop :=
  ∃ set, u.grammar.network.expectedTokens p.state p.invokingStates = .ok set ∧
    set.contains token.type = true

/-- The parser once a token that was made up has been put under the current context. -/
def Parser.withConjured (p : Parser σ τ) (token : Token) : Parser σ τ :=
  match p.context with
  | some context => { p with tree := (p.tree.addToken context token true).2 }
  | none => p

omit [TokenSource σ] in
theorem Parser.withConjured_of_some {c : NodeId} {token : Token} (here : p.context = some c) :
    p.withConjured token = { p with tree := (p.tree.addToken c token true).2 } := by
  simp only [withConjured, here]

omit [TokenSource σ] in
theorem Parser.withConjured_of_none {token : Token} (here : p.context = none) :
    p.withConjured token = p := by
  simp only [withConjured, here]

omit [TokenSource σ] in
theorem Parser.recovery_withConjured (p : Parser σ τ) (token : Token) :
    (p.withConjured token).recovery = p.recovery := by
  unfold withConjured
  split <;> rfl

namespace Parsing

/-- One token is skipped, or nothing is done. -/
theorem deleteToken_does : Does u N R (deleteToken u) p fun answer p' leaves =>
    match answer with
    | none => leaves = []
    | some matched => matched = p'.currentToken ∧ (p.input.Sound → p.Expects u matched) ∧
        p'.recovery.active = false ∧ ∃ skipped, leaves = [⟨skipped, true⟩] := by
  unfold deleteToken
  refine .ask (lookahead_asks 2 (.ask (expectedTokens_asks fun set expected => .ite ?_ ?_)))
  · exact fun _ => .pure rfl
  intro contains
  refine .bind (reportUnwanted_does.imp ?_)
  rintro _ p₁ _ acts ⟨rfl, alarmed⟩
  refine ⟨.nil, .bind (consume_does.imp ?_)⟩
  rintro _ p₂ _ acts' ⟨rfl, rfl, -, input⟩
  refine ⟨alarmed ▸ .one p₁.currentToken, .ask (currentToken_asks ?_)⟩
  refine .step rfl (.of_recovery fun _ => rfl) (.pure ⟨?_, fun sound => ?_, rfl, ?_⟩)
  · change p₂.currentToken = ((p₂.input.start.lookahead? 1).1).getD _
    rw [TokenStream.lookahead?_one, TokenStream.start_start, ← p₂.current?_eq]
    rfl
  · have sound₁ := acts.input.sound ((p.input.lookahead_passes 2).sound sound)
    have two := TokenStream.consume_lookahead_two sound acts.passes
    rw [← p₁.behind_of_placed sound₁.toPlaced, ← input] at two
    have current := p₂.currentToken_of_placed (acts'.input.placed sound₁.toPlaced)
    refine ⟨set, expected, ?_⟩
    have type : (p.input.lookahead 2).1 = p₂.currentToken.type := by
      rw [TokenStream.lookahead_fst, ← two, ← Parser.current?, current]
      rfl
    rw [← type]
    simpa using contains
  · exact ⟨p₁.currentToken, by rw [alarmed]; rfl⟩

/-- If a token is made up, recovery goes on. -/
theorem insertToken_does : Does u N R (insertToken u) p fun answer p' leaves =>
    leaves = [] ∧ (answer = true → p'.recovery.active = true) := by
  refine .ask (lookahead_one_asks (.step rfl (.refl u _) ?_))
  refine .query (.ofQuestion fun s _ => ⟨rfl, ?_⟩)
  split
  · exact .pure ⟨rfl, by simp⟩
  refine .query (.ofQuestion fun following _ => ⟨rfl, .ite (fun _ => ?_) fun _ => ?_⟩)
  · refine .query (reportMissing_does.imp fun _ _ _ _ ⟨empty, active⟩ => ⟨empty, .pure ⟨rfl, ?_⟩⟩)
    exact fun _ => active
  · exact .pure ⟨rfl, by simp⟩

theorem missingToken_asks : Asks (missingToken u) p fun token _ => token.index = none := by
  refine .bind (expectedTokens_asks fun set _ => ?_)
  extract_lets type name made
  refine .bind (currentToken_asks ?_)
  have answers (anchor : Token) (p : Parser σ τ) :
      Asks (made anchor) p fun (token : Token) _ => token.index = none := .pure rfl
  split
  · exact .bind (previousToken_asks fun _ _ _ => .bind (.pure (answers _ _)))
  · exact .bind (.pure (answers _ _))

theorem followers_asks : Asks (followers u) p fun _ _ => True := by
  refine .step rfl (.refl p) (.bind (Asks.imp (.foldlM fun found follow p => ?_) ?_))
  · exact .bind (.ofQuestion fun _ _ => .pure trivial)
  · exact fun _ _ _ _ => .pure trivial

/-- Tokens are skipped. -/
theorem consumeUntil_does (stop : IntervalSet) (fuel : Nat) (active : p.recovery.active = true) :
    Does u N R (consumeUntil u stop fuel) p fun _ p' leaves =>
      Leaf.AllErrors leaves ∧ p'.recovery.active = true := by
  induction fuel generalizing p with
  | zero => exact .fault
  | succ fuel ih =>
      refine .ask (lookahead_one_asks (.ite (fun _ => .pure ⟨.nil, active⟩) fun _ => ?_))
      refine .bind (consume_does.imp ?_)
      rintro _ p₁ _ - ⟨rfl, rfl, recovery, -⟩
      have active₁ : p₁.recovery.active = true := by rw [recovery]; exact active
      have skipped := Leaf.AllErrors.one (p.withInput p.input.start).currentToken
      simp only [show (p.withInput p.input.start).recovery.active = true from active]
      exact ⟨skipped, (ih active₁).imp fun _ _ _ _ more => more.imp_left skipped.append⟩

theorem markContexts_run (error : RecognitionError) (p : Parser σ τ) :
    ∃ p', (markContexts error).run p = (.ok (), p') ∧ Acts u p p' [] :=
  let note (node : RuleNode) := { node with error := some error }
  ⟨_, rfl, .of_tree (.foldl_modify (f := note) (fun _ => rfl) _ _)
    (ParseTree.outline_foldl_note (f := note) (fun _ => rfl) _ _)⟩

/-- The first error ends the parse. -/
theorem cancel_does (error : RecognitionError) {Done : α → Parser σ τ → List Leaf → Prop} :
    Does u N R (markContexts error >>= fun _ => throw (.fatal (.cancelled error))) p Done := by
  obtain ⟨p', run, acts⟩ := markContexts_run (u := u) error p
  exact .step run acts (.fatal (by simp))

/-- A token that does not match is mended by skipping it, if the next one is expected, or by
making up a token before it. -/
theorem recoverInline_does (placed : p.input.Placed) (possible : R) :
    Does u N R (recoverInline u) p fun token p' leaves =>
      (∃ skipped, leaves = [⟨skipped, true⟩, ⟨token, false⟩] ∧ token.index ≠ none ∧
        (p.input.Sound → p.Expects u token)) ∨
      (leaves = [] ∧ token.index = none ∧ p'.recovery.active = true) := by
  unfold recoverInline
  split
  · refine .bind (deleteToken_does.imp ?_)
    rintro (_ | matched) p₁ leaves acts
    · rintro rfl
      refine ⟨.nil, .query (insertToken_does.imp ?_)⟩
      rintro inserted p₂ _ - ⟨rfl, active⟩
      refine ⟨rfl, .ite (fun yes => ?_) fun _ => .step rfl (.refl u _) (.ask ?_)⟩
      · have asks := (missingToken_asks (u := u) (p := p₂)).imp fun token p' looks index =>
          (⟨index, looks.recovery⟩ : token.index = none ∧ p'.recovery = p₂.recovery)
        refine asks.does.imp ?_
        rintro token p₃ _ - ⟨rfl, index, recovery⟩
        exact .inr ⟨rfl, index, recovery ▸ active yes⟩
      · exact mismatch_asks _ _ fun _ _ _ => .recoverable possible
    · rintro ⟨current, expected, idle, skipped, rfl⟩
      refine ⟨.one skipped, .ending (consume_does.imp ?_)⟩
      rintro _ p₂ _ - ⟨rfl, rfl, -, -⟩
      refine ⟨matched, p₂, [], rfl, .refl u p₂, .inl ⟨skipped, ?_, ?_, expected⟩⟩
      · rw [idle, current]
        rfl
      · rw [current]
        exact Parser.index_currentToken (acts.input.placed placed)
  · exact .step rfl (.refl u p) (.ask (mismatch_asks _ _ fun _ _ _ => cancel_does _))

/-- Going on after an error skips tokens. -/
theorem recover_does (error : RecognitionError) (active : p.recovery.active = true) :
    Does u N R (recover u error) p fun _ p' leaves =>
      Leaf.AllErrors leaves ∧ p'.recovery.active = true := by
  unfold recover
  split
  · refine .ask (index_asks (.step rfl (.refl u p) ?_))
    extract_lets resync
    have resyncs (q : Parser σ τ) (active : q.recovery.active = true) :
        Does u N R (resync ⟨⟩) q fun _ p' leaves =>
          Leaf.AllErrors leaves ∧ p'.recovery.active = true :=
      .ask (index_asks (.step rfl (.of_recovery fun idle => idle) (.ask (followers_asks.imp
        fun _ _ looks _ => consumeUntil_does _ _ (looks.recovery ▸ active)))))
    refine .ite (fun _ => .bind (consume_does.imp ?_)) fun _ => resyncs p active
    rintro _ p₁ _ - ⟨rfl, rfl, recovery, -⟩
    rw [active]
    have skipped := Leaf.AllErrors.one p.currentToken
    exact ⟨skipped, (resyncs p₁ (recovery ▸ active)).imp fun _ _ _ _ more =>
      more.imp_left skipped.append⟩
  · exact cancel_does _

theorem sync_does (possible : R) :
    Does u N R (sync u) p fun _ _ leaves => Leaf.AllErrors leaves := by
  unfold sync
  refine .ite (fun _ => .pure .nil) fun _ => .ask (isRecovering_asks (.ite ?_ ?_))
  · exact fun _ => .pure .nil
  intro _
  refine .step rfl (.refl u p) (.ask (lookahead_one_asks ?_))
  refine .query (.ofQuestion fun following _ => ⟨rfl, .ite (fun _ => ?_) fun _ => .ite ?_ ?_⟩)
  · exact .of_ok rfl (.of_recovery fun idle => idle) .nil
  · exact fun _ => .of_ok rfl (.of_recovery fun idle => idle) .nil
  intro _
  refine .query (.ofQuestion fun s _ => ⟨rfl, ?_⟩)
  let q := p.withInput p.input.start
  have deletes {k : Option Token → Parsing σ τ Unit} (goOn : ∀ matched, k (some matched) = pure ())
      (giveUp : k none = do throw (.recoverable (← mismatch u p.state p.context))) :
      Does u N R (deleteToken u >>= k) q fun _ _ leaves => Leaf.AllErrors leaves := by
    refine .bind (deleteToken_does.imp ?_)
    rintro (_ | matched) p₁ leaves -
    · rintro rfl
      rw [giveUp]
      exact ⟨.nil, .ask (mismatch_asks _ _ fun _ _ _ => .recoverable possible)⟩
    · rintro ⟨-, -, -, skipped, rfl⟩
      rw [goOn]
      exact ⟨.one skipped, .pure (.one skipped)⟩
  have skips : Does u N R
      (do
        reportUnwanted u
        let stop := (← expectedTokens u).union (← followers u)
        consumeUntil u stop u.fuel)
      q fun _ _ leaves => Leaf.AllErrors leaves := by
    refine .query (reportUnwanted_does.imp fun _ p₁ _ _ ⟨empty, active⟩ => ⟨empty, ?_⟩)
    refine .ask (expectedTokens_asks fun _ _ => .ask (followers_asks.imp fun _ _ looks _ => ?_))
    exact (consumeUntil_does _ _ (looks.recovery ▸ active)).imp fun _ _ _ _ skipped => skipped.1
  split
  · exact deletes (fun _ => rfl) rfl
  · exact deletes (fun _ => rfl) rfl
  · exact skips
  · exact skips
  · exact .pure .nil

/-- How a token is matched: it is accepted, or it is the expected one behind a token that is
skipped, or it is made up. -/
inductive Matches (u : ParserSetup τ) (p : Parser σ τ) (accept : Symbol → Bool) (token : Token) :
    List Leaf → Prop
  | accepted (index : token.index ≠ none) (fits : accept token.type = true) :
      Matches u p accept token [⟨token, false⟩]
  | skipping (skipped : Token) (index : token.index ≠ none)
      (expected : p.input.Sound → p.Expects u token) :
      Matches u p accept token [⟨skipped, true⟩, ⟨token, false⟩]
  | conjured (index : token.index = none) : Matches u p accept token [⟨token, true⟩]

/-- During recovery a token that was made up may be put under the current context. Without
trees, it is put nowhere. -/
theorem conjured_acts (active : p.recovery.active = true) {token : Token}
    (index : token.index = none) {t : ParseTree} (keeps : p.tree.Keeps t)
    (grafts : u.options.buildTrees = true →
      t.outline = p.tree.outline.graft p.context [⟨token, true⟩]) :
    Acts u p { p with tree := t } [⟨token, true⟩] := { Acts.refl u p with
  input := .refl _
  starts := rfl
  within := fun _ _ => id
  prescription := id
  keeps
  grafts
  calm := fun _ idle => by simp [active] at idle
  passes := by
    have none : [Leaf.mk token true].filterMap Leaf.passed? = [] := by simp [Leaf.passed?, index]
    exact none ▸ .refl _ }

theorem withConjured_acts (active : p.recovery.active = true) {token : Token}
    (index : token.index = none) : Acts u p (p.withConjured token) [⟨token, true⟩] := by
  obtain here | ⟨c, here⟩ := Option.eq_none_or_eq_some p.context
  · rw [Parser.withConjured_of_none here]
    exact conjured_acts active index (.refl _) fun _ => by rw [here]; rfl
  · rw [Parser.withConjured_of_some here]
    refine conjured_acts active index (.addToken p.tree c token true) fun _ => ?_
    rw [here]
    exact ParseTree.outline_addToken _ _ _ _

theorem matchWhere_does (placed : p.input.Placed) (possible : R) (accept : Symbol → Bool) :
    Does u N R (matchWhere u accept) p fun token _ leaves => Matches u p accept token leaves := by
  refine .ask (lookahead_one_asks (.ite (fun accepted => ?_) fun _ => ?_))
  · refine .step rfl (.of_recovery fun _ => rfl) (consume_does.imp ?_)
    rintro _ _ _ - ⟨rfl, rfl, -⟩
    rw [Parser.currentToken_of_start (q := { p.withInput p.input.start with recovery := _ }) rfl]
    refine .accepted (Parser.index_currentToken placed) ?_
    rw [← Parser.currentType_of_placed placed]
    exact accepted
  · let q := p.withInput p.input.start
    have placed' : q.input.Placed := p.input.start_passes.placed placed
    refine .ending ((recoverInline_does placed' possible).imp ?_)
    rintro token p₁ leaves acts (⟨skipped, rfl, index, expected⟩ | ⟨rfl, index, active⟩)
    · refine ⟨token, p₁, [], ?_, .refl u p₁, .skipping skipped index fun sound => ?_⟩
      · simp [index]
      · exact expected (p.input.start_passes.sound sound)
    · cases build : u.options.buildTrees with
      | false =>
          have acts' := conjured_acts (u := u) active index (.refl _) (by simp [build])
          exact ⟨token, p₁, _, rfl, acts', .conjured index⟩
      | true =>
          refine ⟨token, _, _, ?_, withConjured_acts active index, .conjured index⟩
          simp only [index, Option.isNone_none, Bool.and_self, if_true, Step.run_bind, Step.run_get]
          obtain here | ⟨c, here⟩ := Option.eq_none_or_eq_some p₁.context
          · rw [Parser.withConjured_of_none here, here]
            rfl
          · rw [Parser.withConjured_of_some here]
            conv_lhs => rw [here]
            rfl

end Parsing

end AdaptiveLL
