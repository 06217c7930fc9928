import AdaptiveLL.Proofs.Parser.Calls
/-!
One turn of a parse: what happens at a state. A turn crosses an edge, gives up a rule after an
error, or returns from a rule. Besides the turns that are possible this tells what a parser
lacks if it fails on a defect of the network.
-/
namespace AdaptiveLL

open AdaptiveLL.Parser (Acts Fails Returns Ends)
open AdaptiveLL.Parsing (Matches)

variable {σ τ α β : Type} [TokenSource σ] {u : ParserSetup τ} {p p' : Parser σ τ}

/-- The types of tokens that a parser takes for those that an edge reads. -/
def Transition.accepts? (t : Transition) (maxToken : Symbol) : Option (Symbol → Bool) :=
  match t with
  | .atom _ label => some (· == label)
  | .range .. | .set .. | .notSet .. =>
      some fun symbol => t.reads symbol Symbol.firstToken maxToken
  | .wildcard _ => some fun symbol => decide (0 < symbol)
  | .epsilon .. | .call .. | .predicate .. | .precedence .. | .action .. => none

/-- The alternatives that may be chosen at a state. -/
inductive Chosen (u : ParserSetup τ) (p : Parser σ τ) (s : State) : Nat → Prop
  | only (few : s.isDecision = true → s.transitions.length ≤ 1) : Chosen u p s 1
  | decided {d alt : Nat} (number : s.decision = some d)
      (predicted : p.prescription = none → p.Predicts u d alt) : Chosen u p s alt

/-- How an edge of the state `number` is crossed, and which leaves are put. -/
inductive Crosses (u : ParserSetup τ) (number : Nat) (s : State) (p : Parser σ τ) :
    Transition → Parser σ τ → List Leaf → Prop
  | plain {target : Nat} {outermost : Option Nat}
      (straight : s.precedenceLoop = true → ∃ e, u.grammar.network.states[target]? = some e ∧
        e.isLoopEnd = true) :
      Crosses u number s p (.epsilon target outermost) p []
  | wrap {target : Nat} {outermost : Option Nat} {start : Nat} {p' : Parser σ τ}
      (loop : s.precedenceLoop = true)
      (starts : u.grammar.network.ruleStarts[s.rule]? = some start)
      (acts : Acts u (p.wrapped u ((p.contextRule?.map RuleNode.rule).getD s.rule) start) p' []) :
      Crosses u number s p (.epsilon target outermost) p' []
  | read {t : Transition} {accept : Symbol → Bool} {token : Token} {p' : Parser σ τ}
      {leaves : List Leaf} (accepts : t.accepts? u.grammar.network.maxToken = some accept)
      (acts : Acts u p p' leaves) (matched : Matches u p accept token leaves) :
      Crosses u number s p t p' leaves
  | call {target rule follow : Nat} {precedence : Int} {callee : State} {p' : Parser σ τ}
      (start : u.grammar.network.states[target]? = some callee)
      (room : p.depth < u.options.maxDepth)
      (acts : Acts u (p.entered u p.context (some number) callee.rule target precedence) p' []) :
      Crosses u number s p (.call target rule precedence follow) p' []
  | predicate {target rule index : Nat} {contextual : Bool} {p' : Parser σ τ}
      (acts : Acts u p p' [])
      (holds : (u.host.predicate p.tree { position := p.input.index, node := p.context, rule, index }
        p.simulation.host).1 = true) :
      Crosses u number s p (.predicate target rule index contextual) p' []
  | precedence {target : Nat} {level : Int} (allowed : p.precedence ≤ level) :
      Crosses u number s p (.precedence target level) p []
  | action {target rule : Nat} {index : Option Nat} {contextual : Bool} {p' : Parser σ τ}
      (acts : Acts u p p' []) :
      Crosses u number s p (.action target rule index contextual) p' []

/-- A turn from one state to the next, and the leaves that it puts. -/
inductive Turn (u : ParserSetup τ) (p : Parser σ τ) : Parser σ τ → List Leaf → Prop
  | edge {s : State} {alt : Nat} {t : Transition} {p₁ p₂ : Parser σ τ} {skipped leaves : List Leaf}
      (here : u.grammar.network.states[p.state]? = some s) (going : s.isRuleStop = false)
      (chosen : Chosen u p s alt) (acts : Acts u p p₁ skipped) (errors : Leaf.AllErrors skipped)
      (pos : alt ≠ 0) (edge : s.transitions[alt - 1]? = some t)
      (crosses : Crosses u p.state s p₁ t p₂ leaves) :
      Turn u p { p₂ with state := t.target } (skipped ++ leaves)
  | abandon {s : State} {stop : Nat} {p' : Parser σ τ} {skipped : List Leaf}
      (here : u.grammar.network.states[p.state]? = some s) (going : s.isRuleStop = false)
      (stops : u.grammar.network.ruleStops[s.rule]? = some stop)
      (acts : Acts u { p with state := stop } p' skipped) (errors : Leaf.AllErrors skipped)
      (active : p'.recovery.active = true) :
      Turn u p p' skipped
  | return {s : State} {follow : Nat} {q p' : Parser σ τ}
      (here : u.grammar.network.states[p.state]? = some s) (stop : s.isRuleStop = true)
      (inner : ¬ p.AtRoot) (returns : Returns u p s.rule q)
      (follows : u.grammar.network.followState? q.state = some follow)
      (acts : Acts u { q with state := follow } p' []) :
      Turn u p p' []

/-- What a parser can lack where it stands. -/
inductive Stuck (u : ParserSetup τ) (p : Parser σ τ) : Prop
  | nowhere (here : u.grammar.network.states[p.state]? = none)
  | undecided {s : State} (here : u.grammar.network.states[p.state]? = some s)
      (going : s.isRuleStop = false) (decides : s.isDecision = true)
      (several : 1 < s.transitions.length)
      (unknown : ∀ d, s.decision = some d → p.simulation.tables.starts[d]? = none)
  | edgeless {s : State} {alt : Nat} (here : u.grammar.network.states[p.state]? = some s)
      (going : s.isRuleStop = false) (chosen : Chosen u p s alt)
      (missing : alt ≠ 0 → s.transitions[alt - 1]? = none)
  | startless {s : State} (here : u.grammar.network.states[p.state]? = some s)
      (going : s.isRuleStop = false) (missing : u.grammar.network.ruleStarts[s.rule]? = none)
  | stopless {s : State} (here : u.grammar.network.states[p.state]? = some s)
      (going : s.isRuleStop = false) (missing : u.grammar.network.ruleStops[s.rule]? = none)
  | stranded {s : State} (here : u.grammar.network.states[p.state]? = some s)
      (stop : s.isRuleStop = true) (inner : ¬ p.AtRoot)
      (missing : ∀ q, Returns u p s.rule q → u.grammar.network.followState? q.state = none)

namespace Parsing

/-- Crossing an edge. -/
theorem takeEdge_ensures (placed : p.input.Placed) (number : Nat) (s : State) (t : Transition) :
    (takeEdge u number s t).Ensures p
      (fun _ p' => ∃ leaves, Crosses u number s p t p' leaves)
      (Fails u (u.grammar.network.ruleStarts[s.rule]? = none) True p) := by
  have crossed {x : Parsing σ τ Unit}
      (does : Does u False True x p fun _ p' leaves => Crosses u number s p t p' leaves) :
      x.Ensures p (fun _ p' => ∃ leaves, Crosses u number s p t p' leaves)
        (Fails u (u.grammar.network.ruleStarts[s.rule]? = none) True p) := by
    refine Step.Ensures.imp (does.weaken False.elim id) ?_ fun _ _ => id
    exact fun _ p' ⟨leaves, _, crosses⟩ => ⟨leaves, crosses⟩
  have reads {x : Parsing σ τ Token} {accept : Symbol → Bool}
      (accepts : t.accepts? u.grammar.network.maxToken = some accept)
      (does : Does u False True x p fun token _ leaves => Matches u p accept token leaves) :
      (x >>= fun _ => pure ()).Ensures p (fun _ p' => ∃ leaves, Crosses u number s p t p' leaves)
        (Fails u (u.grammar.network.ruleStarts[s.rule]? = none) True p) := by
    refine crossed (.ending (does.imp fun token p' leaves acts matched => ?_))
    exact ⟨(), p', [], rfl, .refl u p', by simpa using .read accepts acts matched⟩
  unfold takeEdge
  cases t with
  | epsilon target outermost =>
      cases known : u.grammar.network.states[target]? with
      | none =>
          refine .of_error (e := .fault (.noSuchState target)) ?_ ⟨.refl u p, by simp, by simp⟩
          simp [Network.state, known, Step.ofQuestion]
      | some e =>
          refine .bind (.of_ok (a := e) (t := p) (by simp [Network.state, known, Step.ofQuestion]) ?_)
          split
          case isTrue loops =>
              obtain ⟨loop, -⟩ := Bool.and_eq_true_iff.1 loops
              refine (continueRecursion_ensures s).imp ?_ ?_
              · rintro _ p' ⟨start, starts, acts⟩
                exact ⟨[], .wrap loop starts acts⟩
              · rintro error p' ⟨lasts, unrecoverable, missing⟩
                exact ⟨lasts, fun _ _ => missing, fun e eq => absurd ⟨e, eq⟩ unrecoverable⟩
          case isFalse straight =>
              refine .of_ok rfl ⟨[], .plain fun loop => ⟨e, known, ?_⟩⟩
              simpa [loop] using straight
  | atom target label => exact reads rfl (matchToken_does placed trivial label)
  | range => exact reads rfl (matchWhere_does placed trivial _)
  | set => exact reads rfl (matchWhere_does placed trivial _)
  | notSet => exact reads rfl (matchWhere_does placed trivial _)
  | wildcard => exact reads rfl (matchAny_does placed trivial)
  | call target rule precedence follow =>
      cases known : u.grammar.network.states[target]? with
      | none =>
          refine .of_error (e := .fault (.noSuchState target)) ?_ ⟨.refl u p, by simp, by simp⟩
          simp [Network.state, known, Step.ofQuestion]
      | some callee =>
          refine .bind (.of_ok (a := callee) (t := p)
            (by simp [Network.state, known, Step.ofQuestion]) ?_)
          refine .bind (.of_ok (a := p) (t := p) rfl (.bind (.of_ok (newContext_run _ _ _ p) ?_)))
          have enters := enterCall_ensures (u := u) (p := p) p.context (some number) callee.rule target
            precedence p.root
          refine enters.imp ?_ ?_
          · rintro _ p' ⟨room, acts⟩
            exact ⟨[], .call known room acts⟩
          · rintro error p' ⟨lasts, rfl⟩
            exact ⟨lasts, by simp, by simp⟩
  | predicate target rule index contextual =>
      refine crossed (.bind ((ask_does rule index).imp ?_))
      rintro answer p' _ acts ⟨rfl, asked⟩
      refine ⟨.nil, .ite (fun _ => ?_) fun no => .pure (.predicate acts ?_)⟩
      · exact .ask (failedPredicate_asks _ _ _ fun _ _ _ => .recoverable trivial)
      · rw [asked]
        simpa using no
  | precedence target level =>
      refine crossed (.ask ((allows_asks level).imp ?_))
      rintro _ p₁ - ⟨same, rfl⟩
      rw [same]
      refine .ite (fun _ => .step rfl (.refl u p) ?_) fun no => .pure (.precedence (by simpa using no))
      exact .ask (failedPredicate_asks _ _ _ fun _ _ _ => .recoverable trivial)
  | action target rule index contextual =>
      refine crossed ?_
      cases index with
      | some index => exact (act_does rule index).imp fun _ _ _ acts empty => empty ▸ .action (empty ▸ acts)
      | none => exact .pure (.action (.refl u p))

theorem visitState_ensures (placed : p.input.Placed) {s : State} {number : Nat}
    (here : p.state = number) (known : u.grammar.network.states[number]? = some s)
    (going : s.isRuleStop = false) :
    (visitState u number s).Ensures p (fun _ p' => ∃ leaves, Turn u p p' leaves)
      (Fails u (Stuck u p) True p) := by
  subst here
  unfold visitState
  extract_lets missing goOn
  have goesOn {alt : Nat} {p₁ : Parser σ τ} {skipped : List Leaf} (acts : Acts u p p₁ skipped)
      (errors : Leaf.AllErrors skipped) (chosen : Chosen u p s alt) :
      (goOn alt).Ensures p₁ (fun _ p' => ∃ leaves, Turn u p p' leaves)
        (Fails u (Stuck u p) True p) := by
    simp only [goOn]
    cases edge : (if alt = 0 then none else s.transitions[alt - 1]? : Option Transition) with
    | none =>
        refine .of_error rfl ⟨acts.toLasts, fun _ _ => ?_, by simp⟩
        exact .edgeless known going chosen fun pos => by rwa [if_neg pos] at edge
    | some t =>
        have pos : alt ≠ 0 := fun zero => by simp [zero] at edge
        rw [if_neg pos] at edge
        have takes := takeEdge_ensures (u := u) (acts.input.placed placed) p.state s t
        refine Step.Ensures.bind (.of_ok rfl (.bind (takes.imp ?_ ?_)))
        · rintro _ p₂ ⟨leaves, crosses⟩
          exact .of_ok rfl ⟨skipped ++ leaves, .edge known going chosen acts errors pos edge crosses⟩
        · intro e p' fails
          exact Does.fails_trans acts errors ⟨fails.lasts,
            fun error eq => .startless known going (fails.network error eq), fails.recoverable⟩
  split
  case isTrue decides =>
      have chooses := (choose_does (u := u) (p := p) p.state s trivial).weaken (M := Stuck u p)
        (fun ⟨several, unknown⟩ => .undecided known going decides several unknown) id
      refine Step.Ensures.bind (Step.Ensures.imp chooses ?_ fun _ _ => id)
      rintro alt p₁ ⟨skipped, acts, errors, ⟨few, rfl⟩ | ⟨d, number, predicted⟩⟩
      · exact goesOn acts errors (.only fun _ => few)
      · exact goesOn acts errors (.decided number predicted)
  case isFalse single =>
      exact .bind (.of_ok rfl (goesOn (.refl u p) .nil (.only fun decides => absurd decides single)))

/-- One round of visiting states. There is an answer if the start rule ends. -/
def turn (u : ParserSetup τ) (leftRecursive : Bool) (root : NodeId) :
    Parsing σ τ (Option NodeId) := do
  let number := (← get).state
  let s ← Step.required (.invalidState number) u.grammar.network.states[number]?
  if s.isRuleStop then
    if ← isOutermost then return some (← conclude u leftRecursive root)
    visitRuleStop u number s
  else
    match ← (visitState u number s).attempt with
    | .ok () => pure ()
    | .error (.recoverable error) => abandonRule u s error
    | .error failure => throw failure
  return none

theorem visitStates_succ (leftRecursive : Bool) (root : NodeId) (fuel : Nat) :
    (visitStates u leftRecursive root (fuel + 1) : Parsing σ τ NodeId) =
      turn u leftRecursive root >>= fun
        | some answer => pure answer
        | none => visitStates u leftRecursive root fuel := by
  simp only [visitStates, turn, bind_assoc]
  refine bind_congr fun p => bind_congr fun s => ?_
  split
  · rw [bind_assoc]
    refine bind_congr fun outermost => ?_
    split <;> simp
  · rw [bind_assoc]
    refine bind_congr fun outcome => ?_
    split <;> simp

theorem turn_ensures (placed : p.input.Placed) (leftRecursive : Bool) (root : NodeId) :
    (turn u leftRecursive root).Ensures p
      (fun answer p' => match answer with
        | none => ∃ leaves, Turn u p p' leaves
        | some answer => (∃ s, u.grammar.network.states[p.state]? = some s ∧ s.isRuleStop = true) ∧
            p.AtRoot ∧ Ends u p root leftRecursive answer p')
      fun e p' => p.Lasts u p' ∧ ¬ (∃ error, e = .recoverable error) ∧
        ∀ error, e = .fatal (.network error) → Stuck u p := by
  unfold turn
  refine .bind (.of_ok (a := p) (t := p) rfl ?_)
  extract_lets number ended
  obtain missing | ⟨s, here⟩ := Option.eq_none_or_eq_some u.grammar.network.states[p.state]?
  · rw [show u.grammar.network.states[number]? = none from missing]
    exact .of_error rfl ⟨.refl u p, by simp, fun _ _ => .nowhere missing⟩
  rw [show u.grammar.network.states[number]? = some s from here]
  refine .bind (.of_ok (a := s) (t := p) rfl ?_)
  split
  case isTrue stop =>
      obtain ⟨outermost, run, iff⟩ := isOutermost_run p
      refine .bind (.of_ok run ?_)
      split
      case isTrue root? =>
          refine .bind ((conclude_ensures leftRecursive root).imp ?_ fun _ _ => False.elim)
          exact fun answer p' ends => .of_ok rfl ⟨⟨s, rfl, stop⟩, iff.1 root?, ends⟩
      case isFalse inner =>
          have inner : ¬ p.AtRoot := fun root => inner (iff.2 root)
          refine .bind ((visitRuleStop_ensures p.state s).imp ?_ ?_)
          · rintro _ p' ⟨q, follow, returns, follows, acts⟩
            exact .of_ok rfl ⟨[], .return here stop inner returns follows acts⟩
          · rintro e p' ⟨lasts, unrecoverable, missing⟩
            exact ⟨lasts, unrecoverable, fun _ _ => .stranded here stop inner missing⟩
  case isFalse going =>
      have going := Bool.eq_false_iff.2 going
      have visits := visitState_ensures (u := u) placed rfl here going
      obtain ⟨outcome, p₁, run⟩ : ∃ outcome p₁, (visitState u p.state s).run p = (outcome, p₁) :=
        ⟨_, _, rfl⟩
      have tried : (Step.attempt (visitState u p.state s)).run p = (.ok outcome, p₁) := by
        rw [Step.run_attempt, run]
      refine .bind (.of_ok tried ?_)
      match outcome with
      | .ok () => exact .of_ok rfl (visits.ok run)
      | .error (.fatal error) =>
          have fails := visits.error run
          exact .of_error rfl ⟨fails.lasts, by simp, fails.network⟩
      | .error (.fault fault) =>
          exact .of_error rfl ⟨(visits.error run).lasts, by simp, by simp⟩
      | .error (.recoverable error) =>
          obtain ⟨-, skipped, acts, errors⟩ := (visits.error run).recoverable error rfl
          refine .bind ((abandonRule_ensures s error).imp ?_ ?_)
          · rintro _ p' ⟨stop, more, stops, acts', errors', active⟩
            refine .of_ok rfl ⟨skipped ++ more, .abandon here going stops ?_ ?_ active⟩
            · exact (acts.at_state stop).trans acts'
            · exact errors.append errors'
          · intro e p' fails
            refine ⟨acts.toLasts.trans fails.lasts, ?_, fun error eq => ?_⟩
            · exact fun ⟨error, eq⟩ => (fails.recoverable error eq).1
            · exact .stopless here going (fails.network error eq)

end Parsing

end AdaptiveLL
