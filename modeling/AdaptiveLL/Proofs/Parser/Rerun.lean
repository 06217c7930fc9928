import AdaptiveLL.Parser.Parse
import AdaptiveLL.Proofs.Parser.Alongside
/-!
The same parse by two parsers: errors are found, reported and mended alike, and the walk through
the network goes the same way.
-/
namespace AdaptiveLL.Parsing

variable {σ τ : Type} [TokenSource σ] {lag : Nat} {older : List Report} {p p' : Parser σ τ}
  {u : ParserSetup τ}

section Recovery

variable (alike : p.Alike lag older p')

include alike

/-- Like mismatches come of like states and contexts. -/
theorem mismatch_together (state : Nat) (node : Option NodeId) :
    Together lag older p p' (mismatch u state node) (mismatch u state node) RecognitionError.Like := by
  refine .get ?_
  rw [alike.tree.invokingStates]
  refine .bind (.question alike alike rfl) ?_
  rintro expected _ q q' later rfl
  refine .bind (currentToken_together later.like) ?_
  rintro token _ q q' later rfl
  exact .pure later.like ⟨_, .inputMismatch, rfl⟩

theorem isRecovering_together :
    Together lag older p p' isRecovering isRecovering fun _ => Eq := by
  refine .get (.pure alike ?_)
  rw [alike.rest]

/-- The messages do not show stacks. -/
theorem describe_together {e e' : RecognitionError} (same : e.Like (p.simulation.Same p'.simulation) e') :
    Together lag older p p' (describe u e) (describe u e') fun _ => Eq := by
  have message := same.message
  obtain ⟨kind, same, rfl⟩ := same
  unfold describe
  generalize e.kind = kind₀ at same
  cases same with
  | noViableAlt start =>
      refine .ite .rfl (fun _ => ?_) fun _ => ?_
      · refine .bind (P := fun _ => Eq) (.pure alike rfl) ?_
        rintro text _ q q' later rfl
        exact .pure later.like rfl
      · refine .bind (textRange_together alike _ _) ?_
        rintro text _ q q' later rfl
        exact .pure later.like rfl
  | inputMismatch =>
      dsimp only
      split
      · refine .bind (P := fun _ => Eq) (.pure alike rfl) ?_
        rintro expected _ q q' later rfl
        exact .pure later.like rfl
      · refine .bind (expectedTokens_together alike) ?_
        rintro expected _ q q' later rfl
        exact .pure later.like rfl
  | failedPredicate => exact .pure alike (by rw [message])
  | noToken => exact .pure alike message.symm

variable [TokenSource.Steady σ]

/-- Like errors are reported alike. -/
theorem reportError_together {e e' : RecognitionError} (same : e.Like (p.simulation.Same p'.simulation) e') :
    Together lag older p p' (reportError u e) (reportError u e') fun _ => Eq := by
  unfold reportError
  refine .bind (isRecovering_together alike) ?_
  rintro active _ q q' later rfl
  refine .ite .rfl (fun _ => .pure later.like rfl) fun _ => ?_
  refine .bind (modifyRecovery_together later.like _) fun _ _ r r' later₁ _ => ?_
  have same := same.imp (later.trans later₁).same
  refine .bind (describe_together later₁.like same) ?_
  rintro message _ v v' later₂ rfl
  have token : e'.token = e.token := by
    obtain ⟨_, -, rfl⟩ := same
    rfl
  rw [token]
  exact reportMistake_together later₂.like _ _ (.some (same.imp later₂.same))

/-- What is reported about the current token, unless recovery is under way already. -/
theorem reportOnce_together (message : Token → IntervalSet → String) :
    let once : Parsing σ τ Unit := do
      if ← isRecovering then return
      beginRecovery
      let token ← currentToken
      let expected ← expectedTokens u
      reportMistake (some token) (message token expected) none
    Together lag older p p' once once fun _ => Eq := by
  refine .bind (isRecovering_together alike) ?_
  rintro active _ q q' later rfl
  refine .ite .rfl (fun _ => .pure later.like rfl) fun _ => ?_
  refine .bind (modifyRecovery_together later.like _) fun _ _ q q' later _ => ?_
  refine .bind (currentToken_together later.like) ?_
  rintro token _ q q' later rfl
  refine .bind (expectedTokens_together later.like) ?_
  rintro expected _ q q' later rfl
  exact reportMistake_together later.like _ _ .none

theorem reportUnwanted_together :
    Together lag older p p' (reportUnwanted u) (reportUnwanted u) fun _ => Eq :=
  reportOnce_together alike _

theorem reportMissing_together :
    Together lag older p p' (reportMissing u) (reportMissing u) fun _ => Eq :=
  reportOnce_together alike _

theorem deleteToken_together :
    Together lag older p p' (deleteToken u) (deleteToken u) fun _ => Eq := by
  refine .bind (lookahead_together alike 2) ?_
  rintro next _ q q' later rfl
  refine .bind (expectedTokens_together later.like) ?_
  rintro expected _ q q' later rfl
  refine .ite .rfl (fun _ => .pure later.like rfl) fun _ => ?_
  refine .bind (reportUnwanted_together later.like) fun _ _ q q' later _ => ?_
  refine .bind (consume_together later.like) fun _ _ q q' later _ => ?_
  refine .bind (currentToken_together later.like) ?_
  rintro matched _ q q' later rfl
  refine .bind (modifyRecovery_together later.like _) fun _ _ q q' later _ => ?_
  exact .pure later.like rfl

theorem insertToken_together :
    Together lag older p p' (insertToken u) (insertToken u) fun _ => Eq := by
  refine .bind (lookahead_together alike 1) ?_
  rintro current _ q q' later rfl
  refine .get ?_
  have state : q'.state = q.state := by rw [later.like.rest]
  dsimp only
  rw [state, later.like.invokingStates]
  refine .bind (.question later.like later.like rfl) ?_
  rintro here _ r r' later rfl
  cases here.transitions.head? with
  | none => exact .pure later.like rfl
  | some t =>
      refine .bind (.question later.like later.like rfl) ?_
      rintro following _ v v' later rfl
      refine .ite .rfl (fun _ => ?_) fun _ => .pure later.like rfl
      refine .bind (reportMissing_together later.like) fun _ _ w w' later _ => ?_
      exact .pure later.like rfl

omit [TokenSource.Steady σ] in
theorem missingToken_together :
    Together lag older p p' (missingToken u) (missingToken u) fun _ => Eq := by
  unfold missingToken
  refine .bind (expectedTokens_together alike) ?_
  rintro expected _ q q' later rfl
  extract_lets type name make
  refine .bind (currentToken_together later.like) ?_
  rintro current _ q q' later rfl
  have makes {r r' : Parser σ τ} (alike : r.Alike lag older r') (anchor : Token) :
      Together lag older r r' (Pure.pure anchor >>= make) (Pure.pure anchor >>= make) fun _ => Eq := by
    refine .bind (P := fun _ => Eq) (.pure alike rfl) ?_
    rintro anchor _ v v' later rfl
    exact .pure later.like rfl
  refine .ite .rfl (fun _ => ?_) fun _ => makes later.like current
  refine .bind (previousToken_together later.like) ?_
  rintro previous _ r r' later rfl
  exact makes later.like _

omit [TokenSource.Steady σ] in
theorem followers_together :
    Together lag older p p' (followers u) (followers u) fun _ => Eq := by
  refine .get ?_
  rw [alike.invokingStates]
  refine .bind (P := fun _ => Eq) (.foldlM_same alike rfl ?_) ?_
  · rintro q q' later found _ rfl follow -
    refine .bind (.question later.like later.like rfl) ?_
    rintro following _ r r' later rfl
    exact .pure later.like rfl
  · rintro found _ q q' later rfl
    exact .pure later.like rfl

omit [TokenSource.Steady σ] in
/-- The same tokens are skipped. -/
theorem consumeUntil_together (stop : IntervalSet) (fuel : Nat) :
    Together lag older p p' (consumeUntil u stop fuel) (consumeUntil u stop fuel) fun _ => Eq := by
  induction fuel generalizing p p' with
  | zero => exact .throw alike (.fault .exhausted)
  | succ fuel ih =>
      refine .bind (lookahead_together alike 1) ?_
      rintro symbol _ q q' later rfl
      refine .ite .rfl (fun _ => .pure later.like rfl) fun _ => ?_
      exact .bind (consume_together later.like) fun _ _ q q' later _ => ih later.like

omit [TokenSource.Steady σ] in
/-- The contexts of both trees are marked with errors that are alike. -/
theorem markContexts_together {e e' : RecognitionError}
    (same : e.Like (p.simulation.Same p'.simulation) e') :
    Together lag older p p' (markContexts e) (markContexts e') fun _ => Eq := by
  refine .modify (alike.moves rfl rfl ?_ ?_ alike.free) rfl
  · have context : p'.context = p.context := by rw [alike.rest]
    have marks (ids : List NodeId) {t t' : ParseTree} (like : t.Like (p.simulation.Same p'.simulation) t') :
        ParseTree.Like (p.simulation.Same p'.simulation)
          (ids.foldl (fun t id => t.modifyRule id fun node => { node with error := some e }) t)
          (ids.foldl (fun t id => t.modifyRule id fun node => { node with error := some e' }) t') := by
      induction ids generalizing t t' with
      | nil => exact like
      | cons id ids ih => exact ih (like.noteError id same)
    dsimp only
    rw [context, alike.tree.chain]
    exact marks _ alike.tree
  · obtain ⟨_, _, rfl⟩ := alike.fields
    rfl

theorem recoverInline_together :
    Together lag older p p' (recoverInline u) (recoverInline u) fun _ => Eq := by
  have ended {q q' : Parser σ τ} (alike : q.Alike lag older q') :
      q'.recovery.endedAt.getD (q'.state, q'.context) = q.recovery.endedAt.getD (q.state, q.context) := by
    rw [alike.rest]
  unfold recoverInline
  split
  · refine .bind (deleteToken_together alike) ?_
    rintro deleted _ q q' later rfl
    cases deleted with
    | some matched => exact .bind (consume_together later.like) fun _ _ q q' later _ => .pure later.like rfl
    | none =>
        refine .bind (insertToken_together later.like) ?_
        rintro inserted _ r r' later rfl
        refine .ite .rfl (fun _ => missingToken_together later.like) fun _ => .get ?_
        rw [ended later.like]
        refine .bind (mismatch_together later.like _ _) fun e e' v v' later same => ?_
        exact .throw later.like (.recoverable same)
  · refine .get ?_
    have here : p'.state = p.state ∧ p'.context = p.context := by
      rw [alike.rest]
      exact ⟨rfl, rfl⟩
    rw [here.1, here.2]
    refine .bind (mismatch_together alike _ _) fun e e' q q' later same => ?_
    refine .bind (markContexts_together later.like same) fun _ _ r r' later _ => ?_
    exact .throw later.like (.fatal (.cancelled (same.imp later.same)))

omit [TokenSource.Steady σ] in
/-- Like errors are recovered from alike. -/
theorem recover_together {e e' : RecognitionError} (same : e.Like (p.simulation.Same p'.simulation) e') :
    Together lag older p p' (recover u e) (recover u e') fun _ => Eq := by
  unfold recover
  split
  · refine .bind (index_together alike) ?_
    rintro here _ q q' later rfl
    refine .get ?_
    have fields : q'.recovery = q.recovery ∧ q'.state = q.state := by
      rw [later.like.rest]
      exact ⟨rfl, rfl⟩
    rw [fields.1, fields.2]
    extract_lets skip
    have skips {r r' : Parser σ τ} (alike : r.Alike lag older r') :
        Together lag older r r' (skip ()) (skip ()) fun _ => Eq := by
      refine .bind (index_together alike) ?_
      rintro here _ v v' later rfl
      refine .bind (modifyRecovery_together later.like _) fun _ _ v v' later _ => ?_
      refine .bind (followers_together later.like) ?_
      rintro stop _ v v' later rfl
      exact consumeUntil_together later.like stop u.fuel
    refine .ite .rfl (fun _ => ?_) fun _ => skips later.like
    exact .bind (consume_together later.like) fun _ _ r r' later _ => skips later.like
  · refine .bind (markContexts_together alike same) fun _ _ r r' later _ => ?_
    exact .throw later.like (.fatal (.cancelled (same.imp later.same)))

theorem sync_together : Together lag older p p' (sync u) (sync u) fun _ => Eq := by
  unfold sync
  refine .ite .rfl (fun _ => .pure alike rfl) fun _ => ?_
  refine .bind (isRecovering_together alike) ?_
  rintro active _ q q' later rfl
  refine .ite .rfl (fun _ => .pure later.like rfl) fun _ => .get ?_
  have fields : q'.state = q.state ∧ q'.context = q.context := by
    rw [later.like.rest]
    exact ⟨rfl, rfl⟩
  dsimp only
  rw [fields.1, fields.2]
  refine .bind (lookahead_together later.like 1) ?_
  rintro current _ r r' later rfl
  refine .bind (.question later.like later.like rfl) ?_
  rintro following _ v v' later rfl
  refine .ite .rfl (fun _ => modifyRecovery_together later.like _) fun _ => ?_
  refine .ite .rfl (fun _ => modifyRecovery_together later.like _) fun _ => ?_
  refine .bind (.question later.like later.like rfl) ?_
  rintro here _ w w' later rfl
  have mends (rest : Option Token → Parsing σ τ Unit) (done : ∀ t, rest (some t) = pure ())
      (failed : rest none = do throw (.recoverable (← mismatch u q.state q.context))) :
      Together lag older w w' (deleteToken u >>= rest) (deleteToken u >>= rest) fun _ => Eq := by
    refine .bind (deleteToken_together later.like) ?_
    rintro deleted _ x x' later rfl
    cases deleted with
    | some t =>
        rw [done]
        exact .pure later.like rfl
    | none =>
        rw [failed]
        refine .bind (mismatch_together later.like _ _) fun e e' y y' later same => ?_
        exact .throw later.like (.recoverable same)
  have skips : Together lag older w w'
      (do
        reportUnwanted u
        let stop := (← expectedTokens u).union (← followers u)
        consumeUntil u stop u.fuel)
      (do
        reportUnwanted u
        let stop := (← expectedTokens u).union (← followers u)
        consumeUntil u stop u.fuel) fun _ => Eq := by
    refine .bind (reportUnwanted_together later.like) fun _ _ x x' later _ => ?_
    refine .bind (expectedTokens_together later.like) ?_
    rintro expected _ y y' later rfl
    refine .bind (followers_together later.like) ?_
    rintro stop _ z z' later rfl
    exact consumeUntil_together later.like _ u.fuel
  split
  · exact mends _ (fun _ => rfl) rfl
  · exact mends _ (fun _ => rfl) rfl
  · exact skips
  · exact skips
  · exact .pure later.like rfl

theorem matchWhere_together (accept : Symbol → Bool) :
    Together lag older p p' (matchWhere u accept) (matchWhere u accept) fun _ => Eq := by
  unfold matchWhere
  refine .bind (lookahead_together alike 1) ?_
  rintro symbol _ q q' later rfl
  refine .ite .rfl (fun _ => ?_) fun _ => ?_
  · refine .bind (modifyRecovery_together later.like _) fun _ _ r r' later _ => ?_
    exact consume_together later.like
  · refine .bind (recoverInline_together later.like) ?_
    rintro token _ r r' later rfl
    refine .ite .rfl (fun _ => .get ?_) fun _ => .pure later.like rfl
    have context : r'.context = r.context := by rw [later.like.rest]
    rw [context]
    cases r.context with
    | none => exact .pure later.like rfl
    | some context =>
        refine .bind (modifyTree_together later.like (later.like.tree.addToken context token true).2) ?_
        exact fun _ _ v v' later _ => .pure later.like rfl

theorem matchToken_together (type : Symbol) :
    Together lag older p p' (matchToken u type) (matchToken u type) fun _ => Eq := by
  refine .bind (matchWhere_together alike _) ?_
  rintro token _ q q' later rfl
  refine .ite .rfl (fun _ => ?_) fun _ => .pure later.like rfl
  refine .bind (modify_together later.like (fun _ _ _ => rfl) fun _ => id) ?_
  exact fun _ _ r r' later _ => .pure later.like rfl

end Recovery

section Calls

variable {I : TokenStream σ → TokenStream σ → Prop} (alike : p.AlikeFrom I lag older p')
  (starts : ∀ i i', I i i' → i.Starts i')

include alike starts

/-- The outer context of a left-recursive rule is made alike, and the two trees stay alike from
there on. -/
theorem beginRecursion_together (context state rule : Nat) (precedence : Int) :
    Step.Alongside (Parser.Alike lag older) (Parser.AlikeFrom I lag older) p p'
      (beginRecursion u context state rule precedence)
      (beginRecursion u context state rule precedence) fun _ => Eq := by
  have invoking := alike.tree.rule?_bind context RuleNode.invoking fun _ _ => rfl
  refine .bind (.modify (R := fun _ => Eq) (alike.moves rfl rfl alike.tree ?_ alike.free) rfl)
    fun _ _ q q' later _ => enterRecursiveRule_together later.like starts context state rule precedence
  obtain ⟨_, _, rfl⟩ := alike.fields
  simp only [invoking]

theorem enterCall_together (context start rule : Nat) (precedence : Int) :
    Step.Alongside (Parser.Alike lag older) (Parser.AlikeFrom I lag older) p p'
      (enterCall u context start rule precedence) (enterCall u context start rule precedence)
      fun _ => Eq :=
  .ite .rfl (fun _ => beginRecursion_together alike starts context start rule precedence) fun _ =>
    enterRule_together alike starts context start rule

end Calls

section Walk

variable (alike : p.Alike lag older p')

include alike

theorem failedPredicate_together (rule : Nat) (index : Option Nat) (text : String) :
    Together lag older p p' (failedPredicate rule index text) (failedPredicate rule index text)
      RecognitionError.Like := by
  refine .get ?_
  have fields : p'.state = p.state ∧ p'.context = p.context := by
    rw [alike.rest]
    exact ⟨rfl, rfl⟩
  rw [fields.1, fields.2]
  refine .bind (currentToken_together alike) ?_
  rintro token _ q q' later rfl
  exact .pure later.like ⟨_, .failedPredicate rule index text, rfl⟩

theorem contextRule?_like :
    Option.Rel (RuleNode.Like (p.simulation.Same p'.simulation)) p.contextRule? p'.contextRule? := by
  have context : p'.context = p.context := by rw [alike.rest]
  rw [Parser.contextRule?, Parser.contextRule?, context]
  cases p.context with
  | none => exact .none
  | some context => exact alike.tree.rule? context

/-- The rule of the current context. -/
theorem contextRule_eq :
    p'.contextRule?.map RuleNode.rule = p.contextRule?.map RuleNode.rule := by
  have same := contextRule?_like alike
  generalize p.contextRule? = n, p'.contextRule? = n' at same
  cases same with
  | none => rfl
  | some same =>
      obtain ⟨_, -, rfl⟩ := same
      rfl

/-- Nothing is prescribed. -/
theorem prescribed?_together (decision place : Nat) :
    Together lag older p p' (prescribed? decision place) (prescribed? decision place) fun _ => Eq := by
  have free : p'.prescription = none := by
    rw [alike.rest]
    exact alike.free
  refine .get ?_
  rw [alike.free, free]
  exact .pure alike rfl

variable [TokenSource.Steady σ] (fair : u.host.Pure)

include fair in
/-- The same alternative is chosen, by a table that is alike or by the same prescription. -/
theorem choose_together (number : Nat) (s : State) :
    Together lag older p p' (choose u number s) (choose u number s) fun _ => Eq := by
  unfold choose
  refine .ite .rfl (fun _ => .pure alike rfl) fun _ => ?_
  refine .bind (.required _ alike alike rfl) ?_
  rintro decision _ q q' later rfl
  refine .bind (sync_together later.like) fun _ _ q q' later _ => ?_
  refine .bind (index_together later.like) ?_
  rintro place _ q q' later rfl
  refine .bind (prescribed?_together later.like decision place) ?_
  rintro known _ q q' later rfl
  extract_lets note
  have notes (alt : Nat) {r r' : Parser σ τ} (alike : r.Alike lag older r') :
      Together lag older r r' (note alt) (note alt) fun _ => Eq := by
    refine .ite .rfl (fun _ => .get ?_) fun _ => .pure alike rfl
    have context : r'.context = r.context := by rw [alike.rest]
    rw [context]
    cases r.context with
    | none => exact .pure alike rfl
    | some context =>
        refine .bind (takeAlternative_together alike context alt) ?_
        exact fun _ _ v v' later _ => .pure later.like rfl
  cases known with
  | some alt =>
      refine .bind (P := fun _ => Eq) (.pure later.like rfl) ?_
      rintro alt _ r r' later rfl
      exact notes alt later.like
  | none =>
      refine .get ?_
      have context : q'.context = q.context := by rw [later.like.rest]
      rw [context]
      refine .bind (predict_together later.like fair decision q.context) ?_
      rintro alt _ r r' later rfl
      exact notes alt later.like

omit [TokenSource.Steady σ] in
theorem continueRecursion_together (s : State) :
    Together lag older p p' (continueRecursion u s) (continueRecursion u s) fun _ => Eq := by
  unfold continueRecursion
  refine .get ?_
  have recursions : p'.recursions = p.recursions := by rw [alike.rest]
  dsimp only
  rw [recursions, contextRule_eq alike]
  refine .bind (newContext_together alike _ _ _) ?_
  rintro context _ q q' later rfl
  refine .bind (.required _ later.like later.like rfl) ?_
  rintro start _ r r' later rfl
  exact wrapContext_together later.like context start

include fair in
theorem takeEdge_together (number : Nat) (s : State) (t : Transition) :
    Together lag older p p' (takeEdge u number s t) (takeEdge u number s t) fun _ => Eq := by
  unfold takeEdge
  have matches_ (accept : Symbol → Bool) :
      Together lag older p p' (do let _ ← matchWhere u accept) (do let _ ← matchWhere u accept)
        fun _ => Eq :=
    .bind (matchWhere_together alike accept) fun _ _ q q' later _ => .pure later.like rfl
  cases t with
  | epsilon target =>
      refine .bind (.question alike alike rfl) ?_
      rintro next _ q q' later rfl
      exact .ite .rfl (fun _ => continueRecursion_together later.like s) fun _ => .pure later.like rfl
  | atom _ label => exact .bind (matchToken_together alike label) fun _ _ q q' later _ => .pure later.like rfl
  | range => exact matches_ _
  | set => exact matches_ _
  | notSet => exact matches_ _
  | wildcard => exact matches_ _
  | call target rule precedence follow =>
      refine .bind (.question alike alike rfl) ?_
      rintro start _ q q' later rfl
      refine .get ?_
      have context : q'.context = q.context := by rw [later.like.rest]
      rw [context]
      refine .bind (newContext_together later.like _ _ _) ?_
      rintro context _ r r' later rfl
      exact enterCall_together later.like (fun _ _ even => even.starts) context target _ precedence
  | predicate target rule index contextual =>
      refine .bind (ask_together alike fair rule index) ?_
      rintro holds _ q q' later rfl
      refine .ite .rfl (fun _ => ?_) fun _ => .pure later.like rfl
      refine .bind (failedPredicate_together later.like _ _ _) fun e e' r r' later same => ?_
      exact .throw later.like (.recoverable same)
  | precedence target level =>
      refine .bind (allows_together alike level) ?_
      rintro holds _ q q' later rfl
      refine .ite .rfl (fun _ => .get ?_) fun _ => .pure later.like rfl
      rw [contextRule_eq later.like]
      refine .bind (failedPredicate_together later.like _ _ _) fun e e' r r' later same => ?_
      exact .throw later.like (.recoverable same)
  | action target rule index contextual =>
      cases index with
      | some index => exact act_together alike rule index
      | none => exact .pure alike rfl

include fair in
theorem visitState_together (number : Nat) (s : State) :
    Together lag older p p' (visitState u number s) (visitState u number s) fun _ => Eq := by
  unfold visitState
  extract_lets missing take
  have takes (alt : Nat) {q q' : Parser σ τ} (alike : q.Alike lag older q') :
      Together lag older q q' (take alt) (take alt) fun _ => Eq := by
    refine .bind (.required _ alike alike rfl) ?_
    rintro t _ r r' later rfl
    refine .bind (takeEdge_together later.like fair number s t) fun _ _ r r' later _ => ?_
    exact setState_together later.like t.target
  refine .ite .rfl (fun _ => ?_) fun _ => ?_
  · refine .bind (choose_together alike fair number s) ?_
    rintro alt _ q q' later rfl
    exact takes alt later.like
  · refine .bind (P := fun _ => Eq) (.pure alike rfl) ?_
    rintro alt _ q q' later rfl
    exact takes alt later.like

omit [TokenSource.Steady σ] in
theorem visitRuleStop_together (number : Nat) (s : State) :
    Together lag older p p' (visitRuleStop u number s) (visitRuleStop u number s) fun _ => Eq := by
  unfold visitRuleStop
  extract_lets n follow
  have follows {q q' : Parser σ τ} (alike : q.Alike lag older q') :
      Together lag older q q' (follow ()) (follow ()) fun _ => Eq := by
    refine .get ?_
    have state : q'.state = q.state := by rw [alike.rest]
    dsimp only
    rw [state]
    refine .bind (.required _ alike alike rfl) ?_
    rintro next _ r r' later rfl
    exact setState_together later.like next
  refine .ite .rfl (fun _ => .get ?_) fun _ => ?_
  · have recursions : p'.recursions = p.recursions := by rw [alike.rest]
    rw [recursions]
    split
    · exact .bind (P := fun _ => Eq) (.throw alike (.fatal (.network _))) fun _ _ q q' later _ =>
        follows later.like
    · refine .bind (modify_together alike (fun _ _ _ => rfl) fun _ => id) fun _ _ q q' later _ => ?_
      refine .bind (unwrapContexts_together later.like _) fun _ _ q q' later _ => ?_
      exact .bind (setState_together later.like _) fun _ _ q q' later _ => follows later.like
  · exact .bind (exitRule_together alike) fun _ _ q q' later _ => follows later.like

omit [TokenSource.Steady σ] in
theorem markError_together {e e' : RecognitionError} (same : e.Like (p.simulation.Same p'.simulation) e') :
    Together lag older p p' (markError e) (markError e') fun _ => Eq := by
  unfold markError
  obtain ⟨kind, same, rfl⟩ := same
  extract_lets type mark type' mark'
  have types : type' = type := by
    dsimp only [type, type']
    generalize e.kind = kind₀ at same
    cases same <;> rfl
  have marks (anchor : Token) {q q' : Parser σ τ} (alike : q.Alike lag older q') :
      Together lag older q q' (mark anchor) (mark' anchor) fun _ => Eq := by
    dsimp only [mark, mark']
    rw [types]
    refine .get ?_
    have context : q'.context = q.context := by rw [alike.rest]
    rw [context]
    cases q.context with
    | none => exact .pure alike rfl
    | some context => exact modifyTree_together alike (alike.tree.addToken context _ true).2
  dsimp -zeta only
  split
  · refine .bind (P := fun _ => Eq) (.pure alike rfl) ?_
    rintro anchor _ q q' later rfl
    exact marks anchor later.like
  · refine .bind (currentToken_together alike) ?_
    rintro anchor _ q q' later rfl
    exact marks anchor later.like

/-- A rule is abandoned alike, for like errors. -/
theorem abandonRule_together (s : State) {e e' : RecognitionError}
    (same : e.Like (p.simulation.Same p'.simulation) e') :
    Together lag older p p' (abandonRule u s e) (abandonRule u s e') fun _ => Eq := by
  unfold abandonRule
  refine .bind (modify_together alike (fun _ _ _ => rfl) fun _ => id) fun _ _ o o' later₀ _ => ?_
  refine .bind (.required _ later₀.like later₀.like rfl) ?_
  rintro stop _ q q' later rfl
  refine .bind (setState_together later.like stop) fun _ _ r r' later' _ => .get ?_
  have same := ((same.imp later₀.same).imp later.same).imp later'.same
  extract_lets report report'
  have reports {v v' : Parser σ τ} (later : Step.Later (Parser.Alike lag older) r r' v v') :
      Together lag older v v' (report ()) (report' ()) fun _ => Eq := by
    have same := same.imp later.same
    refine .bind (reportError_together later.like same) fun _ _ w w' later₁ _ => ?_
    refine .bind (index_together later₁.like) ?_
    rintro here _ x x' later₂ rfl
    refine .bind (recover_together later₂.like (same.imp (later₁.trans later₂).same)) ?_
    intro _ _ y y' later₃ _
    refine .bind (index_together later₃.like) ?_
    rintro there _ z z' later₄ rfl
    refine .ite .rfl (fun _ => ?_) fun _ => .pure later₄.like rfl
    exact markError_together later₄.like
      (same.imp ((later₁.trans later₂).trans (later₃.trans later₄)).same)
  have context : r'.context = r.context := by rw [later'.like.rest]
  rw [context]
  cases r.context with
  | none => exact reports (.refl later'.like)
  | some context =>
      refine .bind (modifyTree_together later'.like (later'.like.tree.noteError context same)) ?_
      exact fun _ _ v v' later _ => reports later

omit [TokenSource.Steady σ] in
theorem isOutermost_together : Together lag older p p' isOutermost isOutermost fun _ => Eq := by
  refine .get (.pure alike ?_)
  have same := contextRule?_like alike
  generalize p.contextRule? = n, p'.contextRule? = n' at same
  cases same with
  | none => rfl
  | some same =>
      obtain ⟨_, -, rfl⟩ := same
      rfl

omit [TokenSource.Steady σ] in
theorem conclude_together (leftRecursive : Bool) (root : NodeId) :
    Together lag older p p' (conclude u leftRecursive root) (conclude u leftRecursive root) fun _ => Eq := by
  unfold conclude
  refine .ite .rfl (fun _ => .get ?_) fun _ => ?_
  · have fields : p'.context = p.context ∧ p'.recursions = p.recursions := by
      rw [alike.rest]
      exact ⟨rfl, rfl⟩
    dsimp only
    rw [fields.1, fields.2]
    refine .bind (modify_together alike (fun _ _ _ => rfl) fun _ => id) fun _ _ q q' later _ => ?_
    refine .bind (unwrapContexts_together later.like _) fun _ _ q q' later _ => ?_
    refine .bind (modify_together later.like (fun _ _ _ => rfl) fun _ => id) fun _ _ q q' later _ => ?_
    exact .pure later.like rfl
  · exact .bind (exitRule_together alike) fun _ _ q q' later _ => .pure later.like rfl

include fair in
/-- Two walks to the end of the start rule. -/
theorem visitStates_together (leftRecursive : Bool) (root : NodeId) (fuel : Nat) :
    Together lag older p p' (visitStates u leftRecursive root fuel) (visitStates u leftRecursive root fuel)
      fun _ => Eq := by
  induction fuel generalizing p p' with
  | zero => exact .throw alike (.fault .exhausted)
  | succ fuel ih =>
      rw [visitStates]
      refine .get ?_
      have state : p'.state = p.state := by rw [alike.rest]
      dsimp only
      rw [state]
      refine .bind (.required _ alike alike rfl) ?_
      rintro s _ q q' later rfl
      refine .ite .rfl (fun _ => ?_) fun _ => ?_
      · refine .bind (isOutermost_together later.like) ?_
        rintro outermost _ r r' later rfl
        refine .ite .rfl (fun _ => conclude_together later.like leftRecursive root) fun _ => ?_
        exact .bind (visitRuleStop_together later.like p.state s) fun _ _ v v' later _ => ih later.like
      · refine .attempt (visitState_together later.like fair p.state s) fun o o' r r' later same => ?_
        have throws {e e' : Failure} (failure : e.Like (r.simulation.Same r'.simulation) e') :
            Together lag older r r' (do throw e; visitStates u leftRecursive root fuel)
              (do throw e'; visitStates u leftRecursive root fuel) fun _ => Eq :=
          .bind (P := fun _ => Eq) (.throw later.like failure) fun _ _ _ _ later _ => ih later.like
        cases same with
        | ok => exact ih later.like
        | error failure =>
            cases failure with
            | recoverable same =>
                exact .bind (abandonRule_together later.like s same) fun _ _ v v' later _ => ih later.like
            | fatal same => exact throws (.fatal same)
            | fault fault => exact throws (.fault fault)

end Walk

/-- The same parse by two parsers, one of which may not have been in use. -/
theorem parse_together [TokenSource.Steady σ] (alike : p.AlikeFrom TokenStream.Starts lag older p')
    (fair : u.host.Pure) (rule : Nat) :
    Step.Alongside (Parser.AlikeFrom TokenStream.Starts lag older)
      (Parser.AlikeFrom TokenStream.Starts lag older) p p' (parse u rule) (parse u rule) fun _ => Eq := by
  unfold parse
  refine .bind (.required _ alike alike rfl) ?_
  rintro start _ q q' later rfl
  refine .bind (newContext_together later.like none none rule) ?_
  rintro root _ q q' later rfl
  refine .bind (modify_together later.like (fun _ _ _ => rfl) fun _ => id) fun _ _ q q' later _ => ?_
  refine .bind (enterCall_together later.like (fun _ _ => id) root start rule 0) fun _ _ q q' later _ => ?_
  refine (visitStates_together later.like fair _ root u.fuel).imp ?_ ?_
  · exact fun _ _ _ _ later answer => ⟨later.like.imp fun _ _ even => even.starts, answer⟩
  · exact fun _ _ later => later.like.imp fun _ _ even => even.starts

end AdaptiveLL.Parsing
