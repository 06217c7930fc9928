import AdaptiveLL.Proofs.Network.Lookahead
import AdaptiveLL.Proofs.Parser.Turn
/-!
Three answers to the question of what an edge reads: the simulation moves its threads over the
edge, the lookahead sets hold what the edge reads, and the parser matches the current token. They
agree at an edge and a type unless the pair is in dispute (`edge_agreement`), which in networks with
canonical sets can only be at wildcards and negated sets.
-/
namespace AdaptiveLL

variable {σ τ : Type} [TokenSource σ]

/-- Symbols on which simulation, lookahead and parser do not agree at an edge of a state. -/
def Network.Disputed (n : Network) (s : State) (t : Transition) (x : Symbol) : Prop :=
  s.isRuleStop = false ∧
    match t with
    | .wildcard _ => x = Symbol.invalid ∧ 0 ≤ n.maxToken ∨ 0 < x ∧ n.maxToken < x
    | .set _ labels => labels.Misses x
    | .notSet _ labels => x = Symbol.invalid ∧ 0 ≤ n.maxToken ∧ labels.contains x = false ∨
        (0 < x ∧ x ≤ n.maxToken) ∧ labels.Misses x
    | _ => False

/-- The lookahead set of the state holds the symbol. -/
def Network.Expects (n : Network) (q : Nat) (x : Symbol) : Prop :=
  ∃ set, n.nextTokens q = .ok set ∧ x ∈ set

/-- Over the symbol, the simulation moves a thread of the set to this one. -/
def Prediction.MovesTo (q : Problem τ) (configs : ConfigurationSet) (x : Symbol) (full : Bool)
    (sim : Simulation σ τ) (c : Configuration) : Prop :=
  ∃ result sim', (moved q configs x full).run sim = (.ok result, sim') ∧ c ∈ result.1.toList

def ParserSetup.withStrategy (u : ParserSetup τ) (errorStrategy : ErrorStrategy) : ParserSetup τ :=
  { u with options := { u.options with errorStrategy } }

/-- The parser visits the state and crosses its edge without recovery: whatever the strategy for
errors is, the outcome is the same. The stops of rules are not visited. -/
def Parsing.MatchesAt (u : ParserSetup τ) (p : Parser σ τ) (number : Nat) (s : State) : Prop :=
  s.isRuleStop = false ∧
    ∃ p', ∀ strategy, (visitState (u.withStrategy strategy) number s).run p = (.ok (), p')

namespace Prediction

variable {q : Problem τ} {configs : ConfigurationSet} {c : Configuration} {x : Symbol} {full : Bool}
  {s : State} {t : Transition} {sim : Simulation σ τ}

omit [TokenSource σ] in
theorem addTo_empty (full : Bool) (c : Configuration) (sim : Simulation σ τ) :
    ∃ set sim', (addTo { fullContext := full } c).run sim = (.ok set, sim') ∧ set.toList = [c] :=
  ⟨_, _, rfl, by simp [ConfigurationSet.add, ConfigurationSet.toList]⟩

omit [TokenSource σ] in
/-- A single thread is moved over the only edge of its state if this reads the symbol. -/
theorem movesTo_alone (here : q.grammar.network.states[c.state]? = some s)
    (only : configs.toList = [c]) (alone : s.transitions = [t]) :
    MovesTo q configs x full sim { c with state := t.target } ↔
      s.isRuleStop = false ∧ t.reads x 0 q.grammar.network.maxToken = true := by
  have run : ∃ result sim', (moved q configs x full).run sim = (.ok result, sim') ∧
      result.1.toList = if s.isRuleStop = false ∧ t.reads x 0 q.grammar.network.maxToken = true
        then [{ c with state := t.target }] else [] := by
    simp only [moved, only, List.foldlM_cons, List.foldlM_nil, Network.state, here, alone,
      Step.ofQuestion, pure_bind]
    cases stop : s.isRuleStop with
    | true =>
        cases full || x == Symbol.eof with
        | true => exact ⟨_, _, rfl, rfl⟩
        | false => exact ⟨_, _, rfl, rfl⟩
    | false =>
        cases reads : t.reads x 0 q.grammar.network.maxToken with
        | false => exact ⟨_, _, rfl, rfl⟩
        | true =>
            obtain ⟨set, sim', added, list⟩ := addTo_empty full { c with state := t.target } sim
            refine ⟨(set, []), sim', ?_, list⟩
            simp only [Bool.false_eq_true, if_false, if_true, bind_pure]
            rw [Step.run_bind_ok added]
            rfl
  obtain ⟨result, sim', run, list⟩ := run
  constructor
  · rintro ⟨result', sim'', run', mem⟩
    obtain ⟨⟨⟩, rfl⟩ := Prod.mk.inj (run.symm.trans run')
    by_contra other
    rw [list, if_neg other] at mem
    cases mem
  · intro reads
    refine ⟨result, sim', run, ?_⟩
    rw [list, if_pos reads]
    exact .head _

end Prediction

namespace Lookahead

variable {n : Network} {q : Nat} {s : State} {t : Transition} {x : Symbol}

theorem expects_alone (here : n.states[q]? = some s) (alone : s.transitions = [t])
    (reads : t.isEpsilon = false) (known : x ≠ Symbol.epsilon) :
    n.Expects q x ↔ s.isRuleStop = false ∧ t.bears x Symbol.firstToken n.maxToken = true := by
  have looked : ∃ set, n.nextTokens q = .ok set ∧
      (x ∈ set ↔ s.isRuleStop = false ∧ t.bears x Symbol.firstToken n.maxToken = true) := by
    obtain ⟨fuel, enough⟩ : ∃ fuel, bound n [] = fuel + 1 :=
      Nat.exists_eq_succ_of_ne_zero (Nat.ne_zero_of_lt (Network.lt_bound n []))
    have visited : visit n none Symbol.epsilon (fuel + 1) [] [] q {} =
        if s.isRuleStop then .ok { visited := [(q, [])], found := IntervalSet.add ∅ Symbol.epsilon }
        else cross n none Symbol.epsilon fuel [] [] { visited := [(q, [])] } t := by
      rw [visit_new List.not_mem_nil (by simp), state_eq_ok.2 here]
      change (if s.isRuleStop then _ else
        s.transitions.foldlM (cross n none Symbol.epsilon fuel [] []) _) = _
      rw [alone, List.foldlM_cons]
      simp only [List.foldlM_nil, bind_pure]
    rw [Network.nextTokens, Network.look]
    simp only [Callers.frames, Callers.ended, enough, visited]
    cases stop : s.isRuleStop with
    | true =>
        refine ⟨_, rfl, iff_of_false (fun mem => ?_) fun h => Bool.noConfusion h.1⟩
        exact ((IntervalSet.mem_add IntervalSet.isProper_empty).1 mem).elim
          IntervalSet.not_mem_empty known
    | false =>
        have silent : t.silently? [] = none := by
          cases t <;> first | rfl | cases reads
        obtain ⟨found, crossed, -, members⟩ := cross_reads n none Symbol.epsilon fuel []
          (w := { visited := [(q, [])] }) IntervalSet.isProper_empty silent
        rw [if_neg Bool.false_ne_true, crossed]
        refine ⟨found, rfl, ?_⟩
        rw [members x, or_iff_right IntervalSet.not_mem_empty, and_iff_right rfl]
  obtain ⟨set, looked, members⟩ := looked
  constructor
  · rintro ⟨set', looked', mem⟩
    obtain rfl := Except.ok.inj (looked.symm.trans looked')
    exact members.1 mem
  · exact fun reads => ⟨set, looked, members.2 reads⟩

end Lookahead

namespace Parsing

variable {u : ParserSetup τ} {p : Parser σ τ} {number : Nat} {s : State} {t : Transition}

/-- The end of the input is noted when it is matched by an edge that asks for it. -/
def noteEnd (t : Transition) (token : Token) : Parsing σ τ Unit :=
  match t with
  | .atom _ label =>
      if label == Symbol.eof && token.isEof then modify fun p => { p with matchedEof := true }
      else pure ()
  | _ => pure ()

/-- At the only edge of a state the current token is matched, or the input is mended. -/
theorem visitState_alone {accept : Symbol → Bool} (alone : s.transitions = [t])
    (accepts : t.accepts? u.grammar.network.maxToken = some accept) :
    (visitState u number s : Parsing σ τ Unit) =
      matchWhere u accept >>= fun token => noteEnd t token >>= fun _ => setState t.target := by
  have takes : (takeEdge u number s t : Parsing σ τ Unit) = matchWhere u accept >>= noteEnd t := by
    cases t with
    | epsilon | call | predicate | precedence | action => cases accepts
    | atom target label =>
        obtain rfl := Option.some.inj accepts
        simp only [takeEdge, matchToken, bind_assoc]
        congr 1
        funext token
        simp only [noteEnd]
        split <;> rfl
    | range | set | notSet | wildcard =>
        obtain rfl := Option.some.inj accepts
        rfl
  have chosen : s.transitions.length ≤ 1 := by simp [alone]
  unfold visitState
  extract_lets missing goOn
  have goesOn : goOn 1 = takeEdge u number s t >>= fun _ => setState t.target := by
    simp only [goOn, alone]
    rfl
  split
  · rw [choose, if_pos chosen, pure_bind, goesOn, takes, bind_assoc]
  · rw [pure_bind, goesOn, takes, bind_assoc]

omit [TokenSource σ] in
theorem noteEnd_run (t : Transition) (token : Token) (p : Parser σ τ) :
    ∃ p', (noteEnd t token).run p = (.ok (), p') := by
  unfold noteEnd
  split
  · split
    · exact ⟨_, rfl⟩
    · exact ⟨_, rfl⟩
  · exact ⟨_, rfl⟩

theorem lookahead_one_run (p : Parser σ τ) :
    (lookahead 1).run p = (.ok p.currentType, p.withInput p.input.start) := by
  change (Except.ok (p.input.lookahead 1).1, p.withInput (p.input.lookahead 1).2) = _
  rw [TokenStream.lookahead, TokenStream.lookahead?_one, ← p.current?_eq]
  rfl

/-- The current token is consumed, whatever the strategy for errors is. -/
theorem matchWhere_accepts {accept : Symbol → Bool} (accepts : accept p.currentType = true) :
    ∃ token p', ∀ strategy,
      (matchWhere (u.withStrategy strategy) accept).run p = (.ok token, p') := by
  obtain ⟨p₁, ended⟩ : ∃ p₁, (endRecovery : Parsing σ τ Unit).run (p.withInput p.input.start) =
    (.ok (), p₁) := ⟨_, rfl⟩
  obtain ⟨p', put⟩ : ∃ p', (putToken u p₁.currentToken).run (p₁.withInput p₁.behind) =
      (.ok p₁.currentToken, p') := by
    obtain ⟨tree, host, put, -⟩ :=
      putToken_run (u := u) p₁.currentToken (p₁.withInput p₁.behind)
    exact ⟨_, put⟩
  refine ⟨p₁.currentToken, p', fun strategy => ?_⟩
  rw [matchWhere, Step.run_bind_ok (lookahead_one_run p), if_pos accepts, Step.run_bind_ok ended]
  exact (consume_run p₁).trans put

/-- The strategy that ends the parse at the first error mends nothing. -/
theorem matchWhere_rejects {accept : Symbol → Bool} (rejects : ¬ accept p.currentType = true) :
    (matchWhere (u.withStrategy .bail) accept).Ensures p (fun _ _ => False) fun _ _ => True := by
  refine .bind (.of_ok (lookahead_one_run p) ?_)
  rw [if_neg rejects]
  have mends (p : Parser σ τ) : (recoverInline (u.withStrategy .bail)).Ensures p
      (fun _ _ => False) fun _ _ => True := by
    refine .bind (.of_ok (a := p) (t := p) rfl (.bind ?_))
    have asks : Asks (mismatch (u.withStrategy .bail) p.state p.context) p fun _ _ => True :=
      mismatch_asks _ _ fun _ _ _ => trivial
    exact Step.Ensures.imp asks (fun _ _ _ => .bind (.of_ok rfl trivial)) fun _ _ _ => trivial
  exact .bind ((mends _).imp (fun _ _ => False.elim) fun _ _ => id)

theorem matchesAt_alone {accept : Symbol → Bool} (alone : s.transitions = [t])
    (accepts : t.accepts? u.grammar.network.maxToken = some accept) :
    MatchesAt u p number s ↔ s.isRuleStop = false ∧ accept p.currentType = true := by
  have visits (strategy : ErrorStrategy) :
      (visitState (u.withStrategy strategy) number s : Parsing σ τ Unit) =
        matchWhere (u.withStrategy strategy) accept >>= fun token =>
          noteEnd t token >>= fun _ => setState t.target :=
    visitState_alone alone accepts
  refine and_congr_right fun inside => ⟨fun ⟨p', same⟩ => ?_, fun accepted => ?_⟩
  · by_contra rejected
    have fails : (visitState (u.withStrategy .bail) number s).Ensures p (fun _ _ => False)
        fun _ _ => True := by
      rw [visits]
      exact .bind ((matchWhere_rejects rejected).imp (fun _ _ => False.elim) fun _ _ => id)
    exact fails.ok (same .bail)
  · obtain ⟨token, p₁, matched⟩ := matchWhere_accepts (u := u) accepted
    obtain ⟨p₂, noted⟩ := noteEnd_run t token p₁
    refine ⟨{ p₂ with state := t.target }, fun strategy => ?_⟩
    rw [visits, Step.run_bind_ok (matched strategy), Step.run_bind_ok noted]
    rfl

end Parsing

namespace Parsing

variable {kind : GrammarKind} {plan : Blueprint} {u : ParserSetup τ} {number : Nat} {s : State}
  {t : Transition} {q : Problem τ} {configs : ConfigurationSet} {c : Configuration}

/-- At every edge that reads, and for every type that a stream can yield, the simulation, the
lookahead sets and the parser agree unless the pair is in dispute. -/
theorem edge_agreement (built : Network.assemble kind plan = .ok u.grammar.network)
    (here : u.grammar.network.states[number]? = some s) (mem : t ∈ s.transitions)
    (reads : t.isEpsilon = false) (problem : q.grammar = u.grammar) (thread : c.state = number)
    (only : configs.toList = [c]) (full : Bool) (sim : Simulation σ τ) (p : Parser σ τ)
    (yielded : Symbol.eof ≤ p.currentType) :
    ((Prediction.MovesTo q configs p.currentType full sim { c with state := t.target } ↔
        u.grammar.network.Expects number p.currentType) ∧
      (u.grammar.network.Expects number p.currentType ↔ MatchesAt u p number s)) ↔
    ¬ u.grammar.network.Disputed s t p.currentType := by
  subst thread
  have wf := Network.wellFormed_of_assemble built
  have alone : s.transitions = [t] := by
    have mixed : s.isEpsilonOnly = false := by
      simp only [State.isEpsilonOnly, Bool.and_eq_false_iff, List.all_eq_false]
      exact .inr ⟨t, mem, by simp [reads]⟩
    have few := wf.reads_alone here mixed
    obtain ⟨t', only⟩ := List.length_eq_one_iff.1 (few.antisymm (List.length_pos_of_mem mem))
    rw [only] at mem ⊢
    rw [List.mem_singleton.1 mem]
  obtain ⟨accept, accepts⟩ : ∃ accept, t.accepts? u.grammar.network.maxToken = some accept := by
    cases t <;> first | exact ⟨_, rfl⟩ | cases reads
  have known : p.currentType ≠ Symbol.epsilon := by
    exact fun same => absurd (same ▸ yielded) (by decide)
  rw [Prediction.movesTo_alone (problem ▸ here) only alone, matchesAt_alone alone accepts,
    Lookahead.expects_alone here alone reads known, problem]
  unfold Network.Disputed
  generalize p.currentType = x at yielded
  generalize u.grammar.network.maxToken = top at accepts
  cases s.isRuleStop with
  | true => simp
  | false =>
      simp only [true_and]
      cases t with
      | epsilon | call | predicate | precedence | action => cases reads
      | atom target label =>
          obtain rfl := Option.some.inj accepts
          simp only [Transition.reads, Transition.bears, beq_iff_eq, not_false_eq_true, iff_true,
            true_and]
          exact eq_comm
      | range =>
          obtain rfl := Option.some.inj accepts
          simp [Transition.reads, Transition.bears]
      | set target labels =>
          obtain rfl := Option.some.inj accepts
          have sound : labels.contains x = true → x ∈ labels := IntervalSet.mem_of_contains
          simp only [Transition.reads, Transition.bears, IntervalSet.Misses, decide_eq_true_eq]
          grind
      | notSet target labels =>
          obtain rfl := Option.some.inj accepts
          have sound : labels.contains x = true → x ∈ labels := IntervalSet.mem_of_contains
          simp only [Transition.reads, Transition.bears, IntervalSet.Misses, Bool.and_eq_true,
            Bool.not_eq_true', decide_eq_true_eq, decide_eq_false_iff_not]
          simp only [Symbol.firstToken, Symbol.invalid, Symbol.eof] at yielded ⊢
          grind
      | wildcard target =>
          obtain rfl := Option.some.inj accepts
          simp only [Transition.reads, Transition.bears, Bool.and_eq_true, decide_eq_true_eq]
          simp only [Symbol.firstToken, Symbol.invalid, Symbol.eof] at yielded ⊢
          grind

/-- One rule, which reads any token. -/
def anyPlan : Blueprint where
  maxToken := 2
  states := [
    { rule := 0, kind := .ruleStart 2 false, transitions := [.plain 1] },
    { rule := 0, kind := .basic, transitions := [.wildcard 2] },
    { rule := 0, kind := .ruleStop }]
  rules := [⟨0, none⟩]

/-- The state of `anyPlan` that reads. -/
def anyState : State :=
  { rule := 0, kind := .basic, transitions := [.wildcard 2] }

/-- The network of `anyPlan`. -/
def anyNetwork : Network where
  kind := .parser
  maxToken := 2
  states := #[
    { rule := 0, kind := .ruleStart 2 false, transitions := [.plain 1] },
    anyState,
    { rule := 0, kind := .ruleStop }]
  decisions := #[]
  ruleStarts := #[0]
  ruleStops := #[2]
  ruleTokens := #[]
  modes := #[]
  actions := #[]

def anySetup : ParserSetup Unit where
  grammar := { network := anyNetwork, names := {} }
  fuel := 100

/-- A parser for `anyNetwork` in front of a token of this type. -/
def anyParser (type : Symbol) : Parser TokenList Unit :=
  .ofInput anyNetwork (.ofNetwork anyNetwork) { source := { tokens := #[{ type }] } } ()

/-- A prediction whose only thread stands in `anyState`. -/
def anyProblem : Problem Unit where
  grammar := anySetup.grammar
  mode := .ll
  fuel := 100
  decision := 0
  decisionState := 1
  byPrecedence := false
  start := 0
  situation := {
    node := none, invoking := [], precedence := 0, state := 1, ask := fun _ host => (true, host) }

def anyThreads : ConfigurationSet where
  items := #[{ state := 1, alt := 1 }]

/-- Whether the thread is moved over the edge of `anyState`. -/
def MovesAny (x : Symbol) : Prop :=
  Prediction.MovesTo anyProblem anyThreads x false (anyParser x).simulation { state := 2, alt := 1 }

theorem edge_agreement_any :
    Network.assemble .parser anyPlan = .ok anyNetwork ∧ anyNetwork.states[1]? = some anyState ∧
      (anyParser 1).currentType = 1 ∧
      (((MovesAny 1 ↔ anyNetwork.Expects 1 1) ∧
        (anyNetwork.Expects 1 1 ↔ MatchesAt anySetup (anyParser 1) 1 anyState)) ↔
      ¬ anyNetwork.Disputed anyState (.wildcard 2) 1) := by
  have built : Network.assemble .parser anyPlan = .ok anySetup.grammar.network := by decide +kernel
  have here : anySetup.grammar.network.states[1]? = some anyState := rfl
  have type : (anyParser 1).currentType = 1 := by decide +kernel
  have agreement := edge_agreement (t := .wildcard 2) built here (.head _) rfl
    (rfl : anyProblem.grammar = anySetup.grammar) rfl
    (rfl : anyThreads.toList = [{ state := 1, alt := 1 }]) false (anyParser 1).simulation
    (anyParser 1) (by rw [type]; decide)
  rw [type] at agreement
  exact ⟨built, here, type, agreement⟩

/-- At a wildcard, the simulation alone reads a token of the invalid type. The parser alone reads
a token of a type that the grammar does not have. -/
theorem edge_agreement_disputed :
    (MovesAny 0 ∧ ¬ anyNetwork.Expects 1 0 ∧ ¬ MatchesAt anySetup (anyParser 0) 1 anyState) ∧
      ¬ MovesAny 3 ∧ ¬ anyNetwork.Expects 1 3 ∧ MatchesAt anySetup (anyParser 3) 1 anyState := by
  have moves (x : Symbol) : MovesAny x ↔ anyState.isRuleStop = false ∧
      (Transition.wildcard 2).reads x 0 2 = true :=
    Prediction.movesTo_alone (c := { state := 1, alt := 1 }) (t := .wildcard 2) rfl rfl rfl
  have expects (x : Symbol) (known : x ≠ Symbol.epsilon) : anyNetwork.Expects 1 x ↔
      anyState.isRuleStop = false ∧ (Transition.wildcard 2).bears x 1 2 = true :=
    Lookahead.expects_alone rfl rfl rfl known
  have visits (x : Symbol) : MatchesAt anySetup (anyParser x) 1 anyState ↔
      anyState.isRuleStop = false ∧ decide (0 < (anyParser x).currentType) = true :=
    matchesAt_alone (t := .wildcard 2) rfl rfl
  rw [moves, moves, expects 0 (by decide), expects 3 (by decide), visits, visits]
  decide +kernel

end Parsing

end AdaptiveLL
