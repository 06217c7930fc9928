import AdaptiveLL.Proofs.Parser.Calm
import AdaptiveLL.Proofs.Parser.Walk
/-!
The moves of a parser that makes no mistake, one by one, and what it reaches by them in a number
of turns.
-/
namespace AdaptiveLL

open AdaptiveLL.Parser (Acts Looks Returns Calm Fares)

variable {σ τ α : Type} [TokenSource σ] {a : Atlas} {u : ParserSetup τ} {p p' q : Parser σ τ}
  {leaves : List Leaf} {t : Token} {ts : List Token}

namespace Parser

/-- What is passed with a token that was to come. -/
theorem Calm.passed? (h : p.Calm a (t :: ts)) : Leaf.passed? ⟨t, false⟩ = some t := by
  have index := index_currentToken h.sound.toPlaced
  have get := (current?_eq p).symm.trans (currentToken_of_placed h.sound.toPlaced)
  have current := h.upcoming.current h.sound get
  rw [h.currentToken] at index current
  split at current
  case isTrue => cases current
  case isFalse word => simp [Leaf.passed?, word, Option.isSome_iff_ne_none, index]

/-- A token that was to come has been passed. -/
theorem Calm.past (h : p.Calm a (t :: ts)) (fares : Fares a u p p' [⟨t, false⟩]) :
    p'.Calm a ts := by
  obtain ⟨rest, eq, calm⟩ := h.fares fares
  rw [List.filterMap_cons_some h.passed?] at eq
  obtain ⟨-, rfl⟩ := List.cons.inj eq
  exact calm

/-- The end of the input stays where it is. -/
theorem Calm.past_end (h : p.Calm a []) (fares : Fares a u p p' leaves) : p'.Calm a [] := by
  obtain ⟨rest, eq, calm⟩ := h.fares fares
  obtain ⟨-, rfl⟩ := List.append_eq_nil_iff.1 eq.symm
  exact calm

end Parser

namespace Parsing

theorem lookahead_run (h : p.Calm a ts) : (lookahead 1).run p
    = (.ok (Token.nextType ts), p.withInput p.input.start) := by
  change (Except.ok (p.input.lookahead 1).1, p.withInput (p.input.lookahead 1).2) = _
  rw [h.upcoming.lookahead_one h.sound]

/-- A token that can follow, or that may be behind the rule, needs no recovery. -/
theorem sync_fares {set : IntervalSet} (h : p.Calm a ts)
    (known : u.grammar.network.nextTokens p.state = .ok set)
    (fits : set.contains (Token.nextType ts) = true ∨ set.contains Symbol.epsilon = true) :
    (sync u).Ensures p (fun _ p' => Fares a u p p' []) fun _ _ => False := by
  unfold sync
  split
  · exact .of_ok rfl (.refl a u p)
  have idle : (isRecovering : Parsing σ τ Bool).run p = (.ok false, p) := by
    rw [← h.active]
    rfl
  refine .bind (.of_ok idle ?_)
  simp only [Bool.false_eq_true, if_false]
  refine .bind (.of_ok (a := p) (t := p) rfl (.bind (.of_ok (lookahead_run h) ?_)))
  rw [known]
  refine .bind (.of_ok (a := set) rfl ?_)
  have looks : Looks p (p.withInput p.input.start) := ⟨_, p.input.start_passes, rfl⟩
  have noted (f : Recovery → Recovery) (same : ∀ r, (f r).active = r.active) :
      (modifyRecovery f).Ensures (p.withInput p.input.start) (fun _ p' => Fares a u p p' [])
        fun _ _ => False :=
    .of_ok rfl ((Fares.of_looks looks).trans
      (.of_acts (.of_recovery fun idle => (same _).trans idle) rfl rfl))
  split
  case isTrue => exact noted _ fun _ => rfl
  case isFalse missing =>
      rw [if_pos (fits.resolve_left missing)]
      exact noted _ fun _ => rfl

/-- A decision that the charts settle. -/
theorem predict_fares (holds : a.Holds u) {d alt : Nat} {v : Subject} {c : Chart}
    (h : p.Calm a ts) (listed : a[d]? = some (v, c))
    (settled : c.alt? (if v.byPrecedence then p.precedence else 0) p.precedence
      (Token.nextType ts) = some alt) (node : Option NodeId) :
    (predict u d node).Ensures p (fun answer p' => answer = alt ∧ Fares a u p p' [])
      fun _ _ => False := by
  obtain ⟨table, here, charted⟩ := h.mapped.charted listed
  obtain ⟨limit, le, chart⟩ := holds.charts listed
  have answers : (p.question u d node).Ensures p.simulation _ _ :=
    Prediction.adaptivePredict_charted here charted (holds.about listed) h.mapped.sound chart le
      holds.fuel h.sound h.upcoming settled
  obtain ⟨outcome, s', run⟩ : ∃ outcome s', (p.question u d node).run p.simulation = (outcome, s') :=
    ⟨_, _, rfl⟩
  cases outcome with
  | error e => exact (answers.error run).elim
  | ok answer =>
      obtain ⟨rfl, charted⟩ := answers.ok run
      have predicts := Parser.run_predict run
      have does := predict_does (u := u) (p := p) (R := True) d node trivial
      obtain ⟨_, acts, rfl, -⟩ := Step.Ensures.ok does predicts
      exact .of_ok predicts ⟨rfl, acts, rfl, fun mapped => mapped.predicted listed charted⟩

/-- The alternative of a decision is chosen. -/
theorem choose_fares (holds : a.Holds u) {number d alt : Nat} {s : State} {set : IntervalSet}
    {v : Subject} {c : Chart} (h : p.Calm a ts) (several : 1 < s.transitions.length)
    (decides : s.decision = some d) (known : u.grammar.network.nextTokens p.state = .ok set)
    (fits : set.contains (Token.nextType ts) = true ∨ set.contains Symbol.epsilon = true)
    (listed : a[d]? = some (v, c))
    (settled : c.alt? (if v.byPrecedence then p.precedence else 0) p.precedence
      (Token.nextType ts) = some alt) :
    (choose u number s).Ensures p (fun answer p' => answer = alt ∧ Fares a u p p' [])
      fun _ _ => False := by
  unfold choose
  rw [if_neg (Nat.not_le.2 several), decides]
  refine .bind (.of_ok rfl (.bind ((sync_fares h known fits).imp ?_ fun _ _ => id)))
  intro _ p₁ fares
  have calm := h.still fares
  have unprescribed : (prescribed? d p₁.input.index : Parsing σ τ (Option Nat)).run p₁
      = (.ok none, p₁) := by
    simp [prescribed?, Step.run_bind, calm.unprescribed]
  have precedence : p₁.precedence = p.precedence := by
    rw [Parser.precedence, fares.precedences]
    rfl
  refine .bind (.of_ok rfl (.bind (.of_ok unprescribed (.bind (.of_ok rfl ?_)))))
  refine .bind ((predict_fares holds calm listed (precedence ▸ settled) _).imp ?_ fun _ _ => id)
  rintro _ p₂ ⟨rfl, fares'⟩
  have fares := fares.trans fares'
  split
  case isFalse => exact .of_ok rfl ⟨rfl, fares⟩
  case isTrue =>
      refine .bind (.of_ok rfl ?_)
      split
      case h_2 => exact .of_ok rfl ⟨rfl, fares⟩
      case h_1 context here =>
          refine .bind ((takeAlternative_ensures here).imp ?_ fun _ _ => id)
          rintro _ p₃ ⟨tree, rfl, acts⟩
          exact .of_ok rfl ⟨rfl, fares.trans (.of_acts acts rfl rfl)⟩

/-- The current token is matched. -/
theorem matchToken_fares (h : p.Calm a ts) :
    (matchToken u (Token.nextType ts)).Ensures p
      (fun _ p' => Fares a u p p' [⟨p.currentToken, false⟩]) fun _ _ => False := by
  let q := { p.withInput p.input.start with
    recovery := { p.recovery with
      active := false, lastStates := [], lastIndex := none, log := p.recovery.log.push .matched } }
  have looks : Looks p (p.withInput p.input.start) := ⟨_, p.input.start_passes, rfl⟩
  have fares : Fares a u p q [] :=
    (Fares.of_looks looks).trans (.of_acts (.of_recovery fun _ => rfl) rfl rfl)
  have token : q.currentToken = p.currentToken := Parser.currentToken_of_start rfl
  obtain ⟨tree, host, run, -⟩ :=
    putToken_run (u := u) q.currentToken (q.withInput q.behind)
  rw [← consume_run] at run
  have does := consume_does (u := u) (N := True) (R := True) (p := q)
  rw [token] at run does
  obtain ⟨_, acts, -, rfl, -⟩ := Step.Ensures.ok does run
  have fares := fares.trans (.of_acts acts rfl rfl)
  have matched : (matchWhere u (· == Token.nextType ts)).run p = (consume u).run q := by
    rw [matchWhere, Step.run_bind_ok (lookahead_run h), beq_self_eq_true]
    rfl
  rw [run] at matched
  refine .bind (.of_ok matched ?_)
  split
  case isFalse => exact .of_ok rfl fares
  case isTrue =>
      refine .of_ok rfl (fares.trans (.of_acts ?_ rfl rfl))
      exact { Acts.refl u _ with
        input := .refl _
        starts := rfl
        within := fun _ _ => id
        prescription := id
        passes := .refl _ }

theorem enterCall_succeeds (room : p.depth < u.options.maxDepth) (context start rule : Nat)
    (precedence : Int) :
    (enterCall u context start rule precedence).Ensures p (fun _ _ => True) fun _ _ => False := by
  have deepens {p : Parser σ τ} (room : p.depth < u.options.maxDepth) :
      (deepen u rule : Parsing σ τ Unit).run p = (.ok (), { p with depth := p.depth + 1 }) := by
    simp [deepen, Step.run_bind, Nat.not_le.2 room]
  unfold enterCall
  split
  · exact .bind (.of_ok rfl (.bind (.of_ok (deepens room) (.of_ok rfl trivial))))
  · exact .bind (.of_ok (deepens room) (.of_ok rfl trivial))

/-- The context of a call that has just been made is entered. -/
theorem enterCall_fares (room : p.depth < u.options.maxDepth) (parent : Option NodeId)
    (invoking : Option Nat) (rule start : Nat) (precedence : Int) (root : Option NodeId) :
    (enterCall u p.tree.size start rule precedence).Ensures
      { p with
        tree := (p.tree.withCall rule parent invoking).modifyRule p.tree.size
          fun node => { node with alt := 1 }
        root }
      (fun _ p' => Fares a u (p.entered u parent invoking rule start precedence) p' [])
      fun _ _ => False := by
  have ensures := enterCall_ensures (u := u) (p := p) parent invoking rule start precedence root
  refine (ensures.and ((enterCall_succeeds (by exact room) _ _ _ _).and
    (enterCall_quiet _ _ _ _ _))).imp ?_ ?_
  · rintro _ p' ⟨⟨-, acts⟩, -, count, tables⟩
    refine .of_acts acts (count.trans ?_) (tables.trans ?_)
    · rw [Parser.entered]
      split <;> rfl
    · rw [p.entered_simulation]
  · exact fun _ _ fails => fails.2.1

/-- The start rule is entered. -/
theorem enter_fares {rule start : Nat}
    (starts : u.grammar.network.ruleStarts[rule]? = some start)
    (room : p.depth < u.options.maxDepth) :
    (enter u rule).Ensures p (fun root p' => root = p.tree.size ∧
      Fares a u (p.entered u none none rule start 0) p' []) fun _ _ => False := by
  unfold enter
  rw [starts]
  refine .bind (.of_ok (t := p) rfl (.bind (.of_ok (newContext_run _ _ _ p) ?_)))
  have enters := enterCall_fares (a := a) room none none rule start 0 (some p.tree.size)
  refine .bind (.of_ok rfl (.bind (enters.imp (fun _ p' fares => ?_) fun _ _ => id)))
  exact .of_ok rfl ⟨rfl, fares⟩

/-- A rule is called. -/
theorem takeEdge_call {number target rule follow : Nat} {level : Int} {s callee : State}
    (start : u.grammar.network.states[target]? = some callee)
    (room : p.depth < u.options.maxDepth) :
    (takeEdge u number s (.call target rule level follow)).Ensures p
      (fun _ p' => Fares a u (p.entered u p.context (some number) callee.rule target level) p' [])
      fun _ _ => False := by
  have known : (Step.ofQuestion (u.grammar.network.state target) : Parsing σ τ State).run p
      = (.ok callee, p) := by
    rw [Network.state, start]
    rfl
  refine .bind (.of_ok known (.bind (.of_ok rfl (.bind (.of_ok (newContext_run _ _ _ p) ?_)))))
  exact enterCall_fares room p.context (some number) callee.rule target level p.root

/-- The context of the current call is wrapped. -/
theorem continueRecursion_fares {s : State} {start : Nat}
    (starts : u.grammar.network.ruleStarts[s.rule]? = some start) :
    (continueRecursion u s).Ensures p
      (fun _ p' =>
        Fares a u (p.wrapped u ((p.contextRule?.map RuleNode.rule).getD s.rule) start) p' [])
      fun _ _ => False := by
  refine ((continueRecursion_ensures s).and (continueRecursion_quiet s p)).imp ?_ ?_
  · rintro _ p' ⟨⟨start', starts', acts⟩, count, tables⟩
    obtain rfl := Option.some.inj (starts.symm.trans starts')
    refine .of_acts acts (count.trans ?_) (tables.trans ?_)
    · rw [Parser.wrapped]
      split <;> rfl
    · rw [Parser.wrapped_simulation]
  · rintro _ _ ⟨⟨-, -, missing⟩, -⟩
    cases starts.symm.trans missing

/-- The parser returns from a left-recursive rule. -/
theorem visitRuleStop_fares {number i follow : Nat} {s : State} {parent : Option NodeId}
    {rest : List (Option NodeId × Option Nat)}
    (recursive : u.grammar.network.isLeftRecursiveRule s.rule = true)
    (top : p.recursions = (parent, some i) :: rest)
    (follows : u.grammar.network.followState? i = some follow) :
    (visitRuleStop u number s).Ensures p
      (fun _ p' => Fares a u { p.unwrapped u parent with state := follow } p' [])
      fun _ _ => False := by
  have returns : Returns u p s.rule { p.unwrapped u parent with state := i } :=
    .recursive recursive top
  refine ((visitRuleStop_ensures number s).and (visitRuleStop_quiet number s p)).imp ?_ ?_
  · rintro _ p' ⟨⟨q, follow', returns', follows', acts⟩, count, tables⟩
    obtain rfl := returns'.unique returns
    obtain rfl := Option.some.inj (follows.symm.trans follows')
    exact .of_acts acts count tables
  · rintro _ _ ⟨⟨-, -, missing⟩, -⟩
    cases follows.symm.trans (missing _ returns)

/-- The start rule ends, if it is not left-recursive. -/
theorem visitStates_concludes {root : NodeId} {s : State}
    (here : u.grammar.network.states[p.state]? = some s) (stop : s.isRuleStop = true)
    (outermost : p.AtRoot) (fuel : Nat) :
    (visitStates u false root (fuel + 1)).Ensures p
      (fun answer p' => answer = root ∧ Fares a u p.left p' []) fun _ _ => False := by
  rw [visitStates_succ]
  refine .bind (.bind (.of_ok (a := p) (t := p) rfl ?_))
  simp only [here]
  refine .bind (.of_ok (a := s) (t := p) rfl ?_)
  simp only [stop, if_true]
  obtain ⟨b, run, iff⟩ := isOutermost_run p
  refine .bind (.of_ok run ?_)
  rw [if_pos (iff.2 outermost)]
  have quiet : Quiet (conclude u false root : Parsing σ τ NodeId) :=
    .bind exitRule_quiet fun _ => .pure root
  refine .bind (((conclude_ensures false root).and (quiet p)).imp ?_ fun _ _ fails => fails.1)
  rintro answer p' ⟨ends, count, tables⟩
  cases ends with
  | ordinary acts =>
      refine .of_ok rfl (.of_ok rfl ⟨rfl, .of_acts acts (count.trans ?_) (tables.trans ?_)⟩)
      · rw [Parser.left]
        split <;> rfl
      · rw [p.left_simulation]

/-! ### Turns -/

/-- Within so many turns the parser comes to where `Q` holds. -/
def Reaches (u : ParserSetup τ) (leftRecursive : Bool) (root : NodeId) (p : Parser σ τ) (k : Nat)
    (Q : Parser σ τ → Prop) : Prop :=
  ∃ j ≤ k, ∃ p', Q p' ∧ ∀ fuel, (visitStates u leftRecursive root (fuel + j)).run p
    = (visitStates u leftRecursive root fuel).run p'

namespace Reaches

variable {leftRecursive : Bool} {root : NodeId} {j k m : Nat} {Q R : Parser σ τ → Prop}

theorem here (h : Q p) : Reaches u leftRecursive root p k Q :=
  ⟨0, Nat.zero_le k, p, h, fun _ => rfl⟩

theorem trans (h : Reaches u leftRecursive root p j Q)
    (rest : ∀ q, Q q → Reaches u leftRecursive root q k R) (le : j + k ≤ m) :
    Reaches u leftRecursive root p m R := by
  obtain ⟨i, le_j, q, holds, runs⟩ := h
  obtain ⟨i', le_k, r, holds', runs'⟩ := rest q holds
  refine ⟨i' + i, by omega, r, holds', fun fuel => ?_⟩
  rw [← Nat.add_assoc, runs, runs']

/-- One turn that does not end the parse. -/
theorem turn (h : (turn u leftRecursive root).Ensures p
      (fun answer p' => answer = none ∧ Reaches u leftRecursive root p' k Q) fun _ _ => False) :
    Reaches u leftRecursive root p (k + 1) Q := by
  obtain ⟨outcome, p', run⟩ :
      ∃ outcome p', (Parsing.turn u leftRecursive root).run p = (outcome, p') := ⟨_, _, rfl⟩
  cases outcome with
  | error e => exact (h.error run).elim
  | ok answer =>
      obtain ⟨rfl, i, le, q, holds, runs⟩ := h.ok run
      refine ⟨i + 1, Nat.succ_le_succ le, q, holds, fun fuel => ?_⟩
      rw [← Nat.add_assoc, visitStates_succ, Step.run_bind_ok run]
      exact runs fuel

/-- A state is visited, and its edge crossed. -/
theorem visit {s : State} {t : Transition} {alt : Nat} {P : Parser σ τ → Prop}
    (here : u.grammar.network.states[p.state]? = some s) (going : s.isRuleStop = false)
    (chosen : (if s.isDecision then choose u p.state s else pure alt : Parsing σ τ Nat).Ensures p
      (fun answer p' => answer = alt ∧ P p') fun _ _ => False)
    (single : s.isDecision = false → alt = 1) (pos : alt ≠ 0)
    (edge : s.transitions[alt - 1]? = some t)
    (crosses : ∀ p', P p' → (takeEdge u p.state s t).Ensures p'
      (fun _ q => Reaches u leftRecursive root { q with state := t.target } k Q) fun _ _ => False) :
    Reaches u leftRecursive root p (k + 1) Q := by
  have visits : (visitState u p.state s).Ensures p
      (fun _ q => Reaches u leftRecursive root q k Q) fun _ _ => False := by
    have same : (if s.isDecision then choose u p.state s else pure 1 : Parsing σ τ Nat)
        = if s.isDecision then choose u p.state s else pure alt := by
      split
      case isTrue => rfl
      case isFalse plain => rw [single (Bool.eq_false_iff.2 plain)]
    have goesOn (p' : Parser σ τ) (holds : P p') : Step.Ensures (do
        let t ← Step.required (.unexpectedTransition p.state "missing")
          (if alt = 0 then none else s.transitions[alt - 1]?)
        takeEdge u p.state s t
        setState t.target : Parsing σ τ Unit) p'
        (fun _ q => Reaches u leftRecursive root q k Q) fun _ _ => False := by
      rw [if_neg pos, edge]
      refine .bind (.of_ok (a := t) rfl (.bind ((crosses p' holds).imp ?_ fun _ _ => id)))
      exact fun _ q reaches => .of_ok rfl reaches
    unfold visitState
    rw [← same] at chosen
    split at chosen
    case isTrue decides =>
        simp only [decides, if_true]
        refine .bind (chosen.imp ?_ fun _ _ => id)
        rintro _ p' ⟨rfl, holds⟩
        exact goesOn p' holds
    case isFalse plain =>
        simp only [plain]
        refine .bind (chosen.imp ?_ fun _ _ => id)
        rintro _ p' ⟨rfl, holds⟩
        exact goesOn p' holds
  refine .turn (.bind (.of_ok (a := p) (t := p) rfl ?_))
  simp only [here]
  refine .bind (.of_ok (a := s) (t := p) rfl ?_)
  simp only [going, Bool.false_eq_true, if_false]
  obtain ⟨outcome, q, run⟩ : ∃ outcome q, (visitState u p.state s).run p = (outcome, q) :=
    ⟨_, _, rfl⟩
  have tried : (Step.attempt (visitState u p.state s)).run p = (.ok outcome, q) := by
    rw [Step.run_attempt, run]
  refine .bind (.of_ok tried ?_)
  cases outcome with
  | error e => exact (visits.error run).elim
  | ok => exact .of_ok rfl ⟨rfl, visits.ok run⟩

/-- A rule other than the start rule ends. -/
theorem leave {s : State} (here : u.grammar.network.states[p.state]? = some s)
    (stop : s.isRuleStop = true) (inner : ¬ p.AtRoot)
    (returns : (visitRuleStop u p.state s).Ensures p
      (fun _ q => Reaches u leftRecursive root q k Q) fun _ _ => False) :
    Reaches u leftRecursive root p (k + 1) Q := by
  refine .turn (.bind (.of_ok (a := p) (t := p) rfl ?_))
  simp only [here]
  refine .bind (.of_ok (a := s) (t := p) rfl ?_)
  simp only [stop, if_true]
  obtain ⟨outermost, run, iff⟩ := isOutermost_run p
  refine .bind (.of_ok run ?_)
  rw [if_neg fun root => inner (iff.1 root)]
  exact .bind (returns.imp (fun _ _ reaches => .of_ok rfl ⟨rfl, reaches⟩) fun _ _ => id)

end Reaches

theorem takeEdge_epsilon {number target : Nat} {outermost : Option Nat} {s e : State}
    (known : u.grammar.network.states[target]? = some e) :
    (takeEdge u number s (.epsilon target outermost)).run p =
      (if s.precedenceLoop && !e.isLoopEnd then continueRecursion u s else pure ()).run p := by
  have answer : (Step.ofQuestion (u.grammar.network.state target) : Parsing σ τ State).run p
      = (.ok e, p) := by
    rw [Network.state, known]
    rfl
  exact Step.run_bind_ok answer

end Parsing

end AdaptiveLL
