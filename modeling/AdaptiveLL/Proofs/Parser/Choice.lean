import AdaptiveLL.Proofs.Parser.Mending
/-!
What happens at a state before its edge is crossed: the choice of an alternative, the guards and
actions of the host, and the end of a rule after an error.
-/
namespace AdaptiveLL

open AdaptiveLL.Parser (Acts Fails Looks)

variable {σ τ α β : Type} [TokenSource σ] {u : ParserSetup τ} {N R : Prop} {p p' : Parser σ τ}

/-- A predicted alternative is one that the decision offers, whatever the tables have been used
for before. -/
def Parser.Predicts (u : ParserSetup τ) (p : Parser σ τ) (decision alt : Nat) : Prop :=
  ∃ number, p.simulation.tables.starts[decision]? = some number ∧
    ∀ P, u.grammar.network.Offers P → p.simulation.tables.Within P → P number alt

theorem Parser.Predicts.of_lasts {decision alt : Nat} (lasts : p.Lasts u p')
    (h : p'.Predicts u decision alt) : p.Predicts u decision alt := by
  obtain ⟨number, known, holds⟩ := h
  exact ⟨number, lasts.starts ▸ known, fun P offers within => holds P offers (lasts.within P offers within)⟩

namespace Parsing

/-- The match of the end of the input is noted. -/
theorem matched_acts : Acts u p { p with matchedEof := true } [] :=
  { Acts.refl u p with
    input := .refl _
    starts := rfl
    within := fun _ _ => id
    prescription := id
    passes := .refl _ }

theorem matchToken_does (placed : p.input.Placed) (possible : R) (type : Symbol) :
    Does u N R (matchToken u type) p fun token _ leaves =>
      Matches u p (· == type) token leaves := by
  refine .ending ((matchWhere_does placed possible _).imp ?_)
  intro token p₁ leaves _ matched
  cases eof : type == Symbol.eof && token.isEof with
  | true => exact ⟨token, _, [], rfl, matched_acts, by simpa using matched⟩
  | false => exact ⟨token, p₁, [], rfl, .refl u p₁, by simpa using matched⟩

theorem matchAny_does (placed : p.input.Placed) (possible : R) :
    Does u N R (matchAny u) p fun token _ leaves =>
      Matches u p (fun type => decide (0 < type)) token leaves :=
  matchWhere_does placed possible _

/-- A change of what the host remembers. -/
theorem hosted_acts (host : τ) :
    Acts u p { p with simulation := { p.simulation with host } } [] :=
  .of_simulation (.refl _) rfl

theorem ask_does (rule index : Nat) : Does u N R (ask u rule index) p fun answer _ leaves =>
    leaves = [] ∧ (u.host.predicate p.tree { position := p.input.index, node := p.context, rule, index }
      p.simulation.host).1 = answer :=
  .of_ok rfl (hosted_acts _) ⟨rfl, rfl⟩

theorem allows_asks (level : Int) : Asks (allows level) p fun answer p' =>
    p' = p ∧ answer = decide (p.precedence ≤ level) :=
  .step rfl (.refl p) (.pure ⟨rfl, rfl⟩)

theorem act_does (rule index : Nat) : Does u N R (act u rule index) p fun _ _ leaves =>
    leaves = [] :=
  .step rfl (.refl u p) (.of_ok rfl (hosted_acts _) rfl)

theorem prescribed?_does (decision place : Nat) :
    Does u N R (prescribed? decision place) p fun answer _ leaves =>
      leaves = [] ∧ (p.prescription = none → answer = none) := by
  refine .step rfl (.refl u p) ?_
  cases given : p.prescription with
  | none => exact .pure ⟨rfl, fun _ => rfl⟩
  | some r =>
      refine .ite (fun _ => ?_) fun _ => .pure ⟨rfl, by simp⟩
      have acts : Acts u p { p with prescription := some { r with used := true } } [] :=
        { Acts.refl u p with
          input := .refl _
          starts := rfl
          within := fun _ _ => id
          prescription := fun none => by simp [given] at none
          passes := .refl _ }
      exact .step rfl acts (.pure ⟨rfl, by simp⟩)

theorem predict_does (decision : Nat) (node : Option NodeId) (possible : R) :
    Does u (p.simulation.tables.starts[decision]? = none) R (predict u decision node) p
      fun alt _ leaves => leaves = [] ∧ Parser.Predicts u p decision alt := by
  have ensures {P : Nat → Nat → Prop} (within : p.simulation.tables.Within P)
      (offers : u.grammar.network.Offers P) := Prediction.adaptivePredict_ensures
    u.options.predictionMode u.fuel decision (p.situation u node) within offers
  have acts {s' : Simulation σ τ}
      (predicted : ∀ P, u.grammar.network.Offers P → p.simulation.tables.Within P →
        Prediction.Predicted P (p.situation u node) p.simulation s') : Acts u p { p with simulation := s' } [] := by
    have any := predicted (fun _ _ => True) (fun _ _ _ _ _ _ => trivial) (Tables.within_true _)
    exact { Acts.refl u p with
      input := any.input.toLeads
      starts := any.starts
      within := fun P offers within => (predicted P offers within).within
      prescription := id
      passes := any.input }
  obtain ⟨outcome, s', eq⟩ : ∃ outcome s', (p.question u decision node).run p.simulation = (outcome, s') :=
    ⟨_, _, rfl⟩
  have run := Parser.run_predict eq
  cases outcome with
  | ok alt =>
      have all (P : Nat → Nat → Prop) (offers : u.grammar.network.Offers P)
          (within : p.simulation.tables.Within P) := (ensures within offers).ok eq
      obtain ⟨-, number, known, -⟩ :=
        all (fun _ _ => True) (fun _ _ _ _ _ _ => trivial) (Tables.within_true _)
      refine .of_ok run (acts fun P offers within => (all P offers within).1) ⟨rfl, number, known, ?_⟩
      intro P offers within
      obtain ⟨-, number', known', holds⟩ := all P offers within
      obtain rfl : number = number' := Option.some.inj (known.symm.trans known')
      exact holds
  | error e =>
      have all (P : Nat → Nat → Prop) (offers : u.grammar.network.Offers P)
          (within : p.simulation.tables.Within P) := (ensures within offers).error eq
      have acts := acts fun P offers within => (all P offers within).1
      refine .of_error run ⟨acts.toLasts, ?_, fun _ _ => ⟨possible, [], acts, .nil⟩⟩
      rintro error rfl
      exact (all (fun _ _ => True) (fun _ _ _ _ _ _ => trivial) (Tables.within_true _)).2 trivial

/-- The alternative is noted in the current context. -/
theorem takeAlternative_ensures {context alt : Nat} (here : p.context = some context) :
    (takeAlternative u context alt).Ensures p
      (fun _ p' => ∃ tree, p' = { p with tree } ∧ Acts u p p' []) fun _ _ => False := by
  let note (node : RuleNode) := { node with alt }
  have acts : Acts u p { p with tree := p.tree.modifyRule context note } [] :=
    .of_tree (.modify (f := note) (fun _ => rfl) _ _)
      (ParseTree.outline_note (f := note) (fun _ => rfl) _ _)
  have run : (takeAlternative u context alt).run p
      = (.ok (), { p with tree := p.tree.modifyRule context note }) := by
    simp only [takeAlternative, modifyTree, Step.run_bind, Step.run_modify, Step.run_get]
    simp only [here, bne_self_eq_false, Bool.and_false, Bool.false_eq_true, if_false]
    rfl
  exact .of_ok run ⟨_, rfl, acts⟩

theorem takeAlternative_does (context alt : Nat) (here : p.context = some context) :
    Does u N R (takeAlternative u context alt) p fun _ _ leaves => leaves = [] := by
  refine Step.Ensures.imp (takeAlternative_ensures here) ?_ fun _ _ => False.elim
  rintro _ p' ⟨tree, -, acts⟩
  exact ⟨[], acts, rfl⟩

/-- The alternative chosen at a state: the only one, or one that the decision offers unless it
is prescribed. -/
theorem choose_does (number : Nat) (s : State) (possible : R) :
    Does u (1 < s.transitions.length ∧ ∀ d, s.decision = some d →
        p.simulation.tables.starts[d]? = none) R (choose u number s) p fun alt _ leaves =>
      Leaf.AllErrors leaves ∧ (s.transitions.length ≤ 1 ∧ alt = 1 ∨
        ∃ d, s.decision = some d ∧ (p.prescription = none → Parser.Predicts u p d alt)) := by
  unfold choose
  refine .ite (fun few => .pure ⟨.nil, .inl ⟨few, rfl⟩⟩) fun several => ?_
  have several := Nat.lt_of_not_le several
  refine .required (fun none => ⟨several, by simp [none]⟩) fun d decides => ?_
  have finish (alt : Nat) (q : Parser σ τ) {k : Parser σ τ → Parsing σ τ Nat}
      (without : q.context = none → k q = pure alt)
      (within : ∀ c, q.context = some c → k q = takeAlternative u c alt >>= fun _ => pure alt) :
      Does u (1 < s.transitions.length ∧ ∀ d, s.decision = some d →
        p.simulation.tables.starts[d]? = none) R
      (if isRuleBlock u.grammar.network s number = true then get >>= k else pure alt)
      q fun answer _ leaves => leaves = [] ∧ answer = alt := by
    refine .ite (fun _ => .step rfl (.refl u q) ?_) fun _ => .pure ⟨rfl, rfl⟩
    cases here : q.context with
    | none =>
        rw [without here]
        exact .pure ⟨rfl, rfl⟩
    | some c =>
        rw [within c here]
        exact .query ((takeAlternative_does c alt here).imp fun _ _ _ _ none => ⟨none, .pure ⟨rfl, rfl⟩⟩)
  refine .bind ((sync_does possible).imp fun _ p₁ leaves acts errors => ⟨errors, ?_⟩)
  refine .ask (index_asks (.query ((prescribed?_does d _).imp ?_)))
  rintro given p₂ _ acts₂ ⟨rfl, unprescribed⟩
  refine ⟨rfl, ?_⟩
  cases given with
  | some alt =>
      refine .step rfl (.refl u p₂) ?_
      dsimp only
      refine (finish alt p₂ (fun here => by rw [here]) fun c here => by rw [here]).imp ?_
      rintro _ _ _ - ⟨rfl, rfl⟩
      refine ⟨by simpa using errors, .inr ⟨d, decides, fun none => ?_⟩⟩
      exact absurd (unprescribed (acts.prescription none)) (by simp)
  | none =>
      refine .step rfl (.refl u p₂) (.query (((predict_does d _ possible).weaken ?_ id).imp ?_))
      · refine fun missing => ⟨several, fun d' decides' => ?_⟩
        obtain rfl : d = d' := Option.some.inj (decides.symm.trans decides')
        rw [← acts.starts, ← acts₂.starts]
        exact missing
      · rintro alt p₃ _ - ⟨rfl, predicts⟩
        refine ⟨rfl, .step rfl (.refl u p₃) ?_⟩
        dsimp only
        refine (finish alt p₃ (fun here => by rw [here]) fun c here => by rw [here]).imp ?_
        rintro _ _ _ - ⟨rfl, rfl⟩
        refine ⟨by simpa using errors, .inr ⟨d, decides, fun _ => ?_⟩⟩
        exact predicts.of_lasts (acts.toLasts.trans acts₂.toLasts)

/-- The error is kept visible in the tree by a token that is made up. -/
theorem markError_does (error : RecognitionError) (active : p.recovery.active = true) :
    Does u N R (markError error) p fun _ p' leaves =>
      Leaf.AllErrors leaves ∧ p'.recovery.active = true := by
  unfold markError
  extract_lets type mark
  have marks (anchor : Token) (q : Parser σ τ) (active : q.recovery.active = true) :
      Does u N R (mark anchor) q fun _ p' leaves =>
        Leaf.AllErrors leaves ∧ p'.recovery.active = true := by
    let token : Token := {
      type, text? := some anchor.text, line := anchor.line, column := anchor.column }
    have run : (mark anchor).run q = (.ok (), q.withConjured token) := by
      obtain here | ⟨c, here⟩ := Option.eq_none_or_eq_some q.context
      · rw [Parser.withConjured_of_none here]
        simp [mark, Step.run_bind, here]
      · rw [Parser.withConjured_of_some here]
        simp only [mark, Step.run_bind, Step.run_get]
        conv_lhs => rw [here]
        rfl
    exact .of_ok run (withConjured_acts active rfl) ⟨.one token, q.recovery_withConjured token ▸ active⟩
  cases error.token with
  | some anchor => exact .step rfl (.refl u p) (marks anchor p active)
  | none => exact .ask (currentToken_asks (marks _ _ active))

/-- The end of the rule in which an error happened: what is skipped and made up stands under its
context, and the parser goes on at the stop of the rule. -/
theorem abandonRule_ensures (s : State) (error : RecognitionError) :
    (abandonRule u s error).Ensures p
      (fun _ p' => ∃ stop leaves, u.grammar.network.ruleStops[s.rule]? = some stop ∧
        Acts u { p with state := stop } p' leaves ∧ Leaf.AllErrors leaves ∧
        p'.recovery.active = true)
      (Fails u (u.grammar.network.ruleStops[s.rule]? = none) False p) := by
  let caught := { p with recovery := { p.recovery with log := p.recovery.log.push .caught } }
  have catches : Acts u p caught [] := .of_recovery fun idle => idle
  unfold abandonRule
  cases stops : u.grammar.network.ruleStops[s.rule]? with
  | none =>
      refine Step.Ensures.bind (.of_ok (t := caught) rfl ?_)
      exact .of_error rfl ⟨catches.toLasts, by simp, by simp⟩
  | some stop =>
      let q := { caught with state := stop }
      let note (node : RuleNode) := { node with error := some error }
      refine Step.Ensures.bind (.of_ok (t := caught) rfl ?_)
      refine Step.Ensures.bind (.of_ok (t := caught) rfl (Step.Ensures.bind (.of_ok (t := q) rfl ?_)))
      refine Step.Ensures.imp (show Does u False False _ q fun _ p' leaves =>
        Leaf.AllErrors leaves ∧ p'.recovery.active = true from ?rest) ?_ ?_
      case rest =>
        refine .step rfl (.refl u q) ?_
        extract_lets settle
        have settles (q₁ : Parser σ τ) :
            Does u False False (settle ⟨⟩) q₁ fun _ p' leaves =>
              Leaf.AllErrors leaves ∧ p'.recovery.active = true := by
          refine .query ((reportError_does error).imp ?_)
          rintro _ q₂ _ - ⟨rfl, active⟩
          refine ⟨rfl, .ask (index_asks (.bind ((recover_does error active).imp ?_)))⟩
          rintro _ q₃ leaves - ⟨skipped, active⟩
          refine ⟨skipped, .ask (index_asks (.ite (fun _ => ?_) fun _ => ?_))⟩
          · exact (markError_does error active).imp fun _ _ _ _ marked =>
              marked.imp_left skipped.append
          · exact .pure ⟨by simpa using skipped, active⟩
        split
        · exact .step rfl (.of_tree (.modify (f := note) (fun _ => rfl) _ _)
            (ParseTree.outline_note (f := note) (fun _ => rfl) _ _)) (settles _)
        · exact settles q
      · rintro _ p' ⟨leaves, acts, errors⟩
        exact ⟨stop, leaves, rfl, (catches.at_state stop).trans acts, errors⟩
      · rintro e p' fails
        have lasts : p.Lasts u q := ⟨.refl _, rfl, fun _ _ => id, id⟩
        exact ⟨lasts.trans fails.lasts,
          fun error eq => (fails.network error eq).elim,
          fun error eq => (fails.recoverable error eq).1.elim⟩

end Parsing

end AdaptiveLL
