import AdaptiveLL.Grammar.Samples
import AdaptiveLL.Proofs.Parser.InRange
import AdaptiveLL.Proofs.Parser.Standing
/-!
The stacks of a parser stay in step during a parse, and the parse never ends with a defect of
the network, nor with a question about a state that is not there: at every state that is visited,
the depth, the precedences and the remembered callers are those of the chain of contexts, and when
the parse is over they are what they were before.
-/
namespace AdaptiveLL

variable {σ τ : Type} [TokenSource σ] {u : ParserSetup τ} {p p' : Parser σ τ} {f : Frame}
  {fs rest : List Frame} {Live : Nat → Prop}

open AdaptiveLL.Parser (Acts Lasts)

namespace Stacked

variable {n : Network} {t : ParseTree} {ground : Option NodeId}

theorem link_mem (h : Stacked n t none fs) : ∀ f ∈ fs, t.link? f.context = some f.link := by
  induction h with
  | nil => simp
  | root linked _ orphan => simpa using linked.link (.inr orphan)
  | call link _ _ _ _ ih => exact List.forall_mem_cons.2 ⟨link, ih⟩

theorem ancestorsWithin (h : Stacked n t none (f :: rest)) {fuel : Nat}
    (enough : f.context < fuel) : t.ancestorsWithin fuel f.context = rest.map Frame.context := by
  induction rest generalizing f fuel with
  | nil =>
      cases fuel with
      | zero => exact absurd enough (Nat.not_lt_zero _)
      | succ fuel =>
          rw [ParseTree.ancestorsWithin, ParseTree.parent?_of_link (h.link_mem f (.head _))]
          simp [Frame.link, h.parent_head]
  | cons caller rest ih =>
      cases h with
      | call link parent older _ below =>
          cases fuel with
          | zero => exact absurd enough (Nat.not_lt_zero _)
          | succ fuel =>
              have inside := Nat.lt_of_lt_of_le older (Nat.le_of_lt_succ enough)
              rw [ParseTree.ancestorsWithin, ParseTree.parent?_of_link link]
              simp [Frame.link, parent, ih below inside]

/-- The chain of contexts is that of the frames. -/
theorem chain (h : Stacked n t none fs) :
    t.chain (fs.head?.map Frame.context) = fs.map Frame.context := by
  cases fs with
  | nil => rfl
  | cons f rest =>
      exact congrArg (f.context :: ·) (h.ancestorsWithin (h.lt_size f (.head _)))

theorem carries_mem (h : Stacked n t ground fs) :
    ∀ f ∈ fs, f.precedence?.isSome = n.isLeftRecursiveRule f.rule := by
  have some? {f : Frame} {precedence : Int} (carries : f.Carries n precedence) :
      f.precedence?.isSome = n.isLeftRecursiveRule f.rule := by
    rw [carries]
    split <;> simp_all
  induction h with
  | nil => simp
  | root _ _ _ _ carries => simpa using some? carries
  | call _ _ _ made _ ih =>
      obtain ⟨_, _, _, _, _, _, _, _, _, _, _, _, _, carries⟩ := made
      exact List.forall_mem_cons.2 ⟨some? carries, ih⟩

theorem made_mem (h : Stacked n t ground fs) :
    ∀ f ∈ fs.dropLast, ∃ caller, f.MadeBy n caller := by
  induction h with
  | nil | root => simp
  | call _ _ _ made _ ih =>
      rw [List.dropLast_cons_cons]
      exact List.forall_mem_cons.2 ⟨⟨_, made⟩, ih⟩

end Stacked

namespace Parser

/-- Whether a context stands for a call of a left-recursive rule. -/
def isRecursive (u : ParserSetup τ) (p : Parser σ τ) (context : NodeId) : Bool :=
  ((p.tree.link? context).map fun l => u.grammar.network.isLeftRecursiveRule l.rule).getD false

/-- The context was made by a state whose first edge is a call of the rule of the context. -/
def Invoked (u : ParserSetup τ) (p : Parser σ τ) (context : NodeId) : Prop :=
  ∃ l invoking s target precedence follow, p.tree.link? context = some l ∧
    l.invoking = some invoking ∧ u.grammar.network.states[invoking]? = some s ∧
    s.transitions.head? = some (.call target l.rule precedence follow)

/-- The depth, the precedences and the remembered callers are those of the chain of contexts,
which is not longer than allowed; and every context but the root has been called. -/
structure InStep (u : ParserSetup τ) (p : Parser σ τ) : Prop where
  depth : p.depth = (p.tree.chain p.context).length
  bounded : p.depth ≤ u.options.maxDepth
  precedences : p.precedences.length = p.recursions.length + 1
  recursions : p.recursions.length = (p.tree.chain p.context).countP (p.isRecursive u)
  invoked : ∀ context ∈ (p.tree.chain p.context).dropLast, p.Invoked u context

/-- No call is active. -/
structure Idle (p : Parser σ τ) : Prop where
  context : p.context = none
  precedences : p.precedences = [0]
  recursions : p.recursions = []
  depth : p.depth = 0

omit [TokenSource σ] in
/-- A parse begins with empty stacks if no call is active. -/
theorem Idle.groundFor (h : p.Idle) (rule : Nat) : p.groundFor u rule = {} := by
  simp [Parser.groundFor, h.context, h.precedences, h.recursions, h.depth]

omit [TokenSource σ] in
theorem On.idle {n : Network} (h : p.On n {} []) : p.Idle where
  context := h.context
  precedences := h.precedences
  recursions := h.recursions
  depth := h.depth

omit [TokenSource σ] in
theorem On.length_recursions (h : p.On u.grammar.network {} fs) :
    (fs.filterMap Frame.recursion?).length = (fs.map Frame.context).countP (p.isRecursive u) := by
  rw [List.length_filterMap_eq_countP, List.countP_map]
  refine List.countP_congr fun f mem => ?_
  have link := h.stacked.link_mem f mem
  have carries := h.stacked.carries_mem f mem
  simp [Frame.recursion?, isRecursive, link, Frame.link, carries]

omit [TokenSource σ] in
theorem On.inStep (h : p.On u.grammar.network {} fs) (confined : u.grammar.network.Confined Live)
    (alone : u.grammar.network.Alone) (room : p.depth ≤ u.options.maxDepth) : p.InStep u := by
  have context : p.context = fs.head?.map Frame.context := by simpa using h.context
  have recursions : p.recursions = fs.filterMap Frame.recursion? := by simpa using h.recursions
  have chain : p.tree.chain p.context = fs.map Frame.context := by
    rw [context, h.stacked.chain]
  constructor
  case depth =>
    rw [chain, List.length_map]
    simpa using h.depth
  case bounded => exact room
  case precedences =>
    rw [h.precedences, recursions, List.length_append, List.length_filterMap_eq_countP,
      List.length_filterMap_eq_countP]
    simp [Frame.recursion?]
  case recursions => rw [recursions, chain, h.length_recursions]
  case invoked =>
    rw [chain, ← List.map_dropLast]
    refine List.forall_mem_map.2 fun f mem => ?_
    obtain ⟨caller, i, s, target, rule, precedence, follow, invoking, here, going, -, called,
      ⟨callee, start, same⟩, -⟩ := h.stacked.made_mem f mem
    have link := h.stacked.link_mem f (List.dropLast_subset _ mem)
    obtain ⟨-, callee', start', same'⟩ := confined.start (confined.call_start here called)
    rw [start] at start'
    cases start'
    have rule_eq : f.link.rule = rule := same.symm.trans same'
    refine ⟨f.link, i, s, target, precedence, follow, link, invoking, here, ?_⟩
    rw [alone.call here going called, List.head?_cons, rule_eq]

/-- What holds of every parser that a parse visits. -/
structure Steady (u : ParserSetup τ) (Live : Nat → Prop) (root : Nat) (p : Parser σ τ) : Prop where
  prepared : p.Prepared u.grammar.network
  bounded : p.depth ≤ u.options.maxDepth
  stands : ∃ f rest, p.Stands u.grammar.network {} Live root f rest

variable {root : Nat} {leaves : List Leaf}

theorem Steady.turn (confined : u.grammar.network.Confined Live) (h : p.Steady u Live root)
    (turn : Turn u p p' leaves) : p'.Steady u Live root := by
  obtain ⟨f, rest, stands⟩ := h.stands
  exact ⟨h.prepared.lasts turn.lasts, turn.depth_le h.bounded, stands.turn confined turn⟩

/-- A parse begins at the start of its rule, in the rule's call. -/
theorem stands_entered {start : Nat} (confined : u.grammar.network.Confined Live)
    (inside : ∀ c ∈ p.context, c < p.tree.size)
    (starts : u.grammar.network.ruleStarts[root]? = some start)
    (acts : Acts u (p.entered u none none root start 0) p' leaves) :
    p'.Stands u.grammar.network (p.groundFor u root) Live root (p.startFrame u root) [] := by
  refine ⟨(On.entered_root inside root start).acts acts, ?_, rfl⟩
  rw [acts.state, p.entered_state]
  exact confined.start starts

theorem Steady.entered {start : Nat} (confined : u.grammar.network.Confined Live)
    (prepared : p.Prepared u.grammar.network) (idle : p.Idle)
    (starts : u.grammar.network.ruleStarts[root]? = some start)
    (room : p.depth < u.options.maxDepth)
    (acts : Acts u (p.entered u none none root start 0) p' leaves) : p'.Steady u Live root where
  prepared := (prepared.lasts (.of_eq p.entered_simulation p.entered_prescription)).lasts acts.toLasts
  bounded := by
    rw [acts.depth, p.entered_depth]
    exact room
  stands := by
    have stands := stands_entered confined (by simp [idle.context]) starts acts
    rw [idle.groundFor root] at stands
    exact ⟨_, _, stands⟩

/-- The end of the start rule leaves no call behind. -/
theorem Steady.ends {node answer : NodeId} (h : p.Steady u Live root)
    (concludes : p.Concludes u (u.grammar.network.isLeftRecursiveRule root) node answer p') :
    p'.Idle := by
  obtain ⟨f, rest, stands⟩ := h.stands
  obtain rfl := stands.atRoot_iff.1 concludes.outermost
  have base : f.rule = root := stands.base
  subst base
  exact (stands.toOn.ends concludes.ends).idle

end Parser

namespace Parsing

/-- Whatever comes of a parse, the tables stay those of the network. -/
theorem parse_lasts (placed : p.input.Placed) (rule : Nat) :
    (parse u rule).Ensures p (fun _ p' => p.Lasts u p') fun _ p' => p.Lasts u p' := by
  rw [parse_eq]
  refine .bind ((enter_ensures rule).imp ?_ fun _ _ h => h.1)
  rintro root q ⟨-, start, -, -, acts⟩
  have lasts : p.Lasts u q :=
    (Lasts.of_eq p.entered_simulation p.entered_prescription).trans acts.toLasts
  refine (visitStates_ensures _ root u.fuel (lasts.input.placed placed)).imp ?_ ?_
  · rintro answer p' ⟨leaves, last, walks, concludes⟩
    exact lasts.trans (walks.lasts.trans concludes.ends.lasts)
  · rintro e p' ⟨lasts', -⟩
    exact lasts.trans lasts'

/-- Parsers stay in step, and a parse ends in an answer, because it was cancelled, because of
too many calls, or out of fuel. -/
theorem visited_inStep (confined : u.grammar.network.Confined Live)
    (onward : u.grammar.network.Onward Live) (alone : u.grammar.network.Alone)
    (entire : u.grammar.network.Entire) (prepared : p.Prepared u.grammar.network)
    (inRange : p.InRange u.grammar.network.states.size) (idle : p.Idle) {rule : Nat}
    (known : rule < u.grammar.network.ruleStarts.size) :
    (∀ q ∈ visited u rule p, q.InStep u) ∧
      (parse u rule).Ensures p (fun _ p' => p'.Idle) fun e _ =>
        (∃ error, e = .fatal (.cancelled error)) ∨ (∃ depth rule, e = .fatal (.tooDeep depth rule)) ∨
          e = .fault .exhausted := by
  suffices steady : (∀ q ∈ visited u rule p, q.InStep u) ∧
      (parse u rule).Ensures p (fun _ p' => p'.Idle) fun e _ =>
        ¬ (∃ error, e = .recoverable error) ∧ ¬ ∃ error, e = .fatal (.network error) by
    refine ⟨steady.1, (steady.2.and (parse_finds entire rule p inRange)).imp (fun _ _ => And.left) ?_⟩
    rintro e p' ⟨⟨unrecoverable, network⟩, -, mild⟩
    rcases e with _ | (_ | _ | _) | fault <;> simp at unrecoverable network ⊢
    exact not_not.1 mild
  rw [parse_eq, visited]
  have enters := enter_ensures (u := u) (p := p) rule
  obtain ⟨outcome, q, run⟩ : ∃ outcome q, (enter u rule).run p = (outcome, q) := ⟨_, _, rfl⟩
  rw [run]
  cases outcome with
  | error e =>
      obtain ⟨-, unrecoverable, missing⟩ := enters.error run
      refine ⟨by simp, .bind (.of_error run ⟨unrecoverable, ?_⟩)⟩
      rintro ⟨error, rfl⟩
      have beyond := Array.getElem?_eq_none_iff.1 (missing error rfl)
      omega
  | ok root =>
      obtain ⟨-, start, starts, room, acts⟩ := enters.ok run
      have steady := Parser.Steady.entered confined prepared idle starts room acts
      let lr := u.grammar.network.isLeftRecursiveRule rule
      have each : ∀ q' ∈ visitedFrom u lr root u.fuel q, q'.Steady u Live rule :=
        visitedFrom_keeps lr root (fun _ _ _ h _ turn => h.turn confined turn) u.fuel steady
          steady.prepared.placed
      refine ⟨fun q' mem => ?_, .bind (.of_ok run ?_)⟩
      · obtain ⟨f, rest, stands⟩ := (each q' mem).stands
        exact stands.toOn.inStep confined alone (each q' mem).bounded
      refine (visitStates_ensures lr root u.fuel steady.prepared.placed).imp ?_ ?_
      · rintro answer p' ⟨leaves, last, walks, concludes⟩
        exact (each last walks.last_mem).ends concludes
      · rintro e p' ⟨-, unrecoverable, stuck⟩
        refine ⟨unrecoverable, ?_⟩
        rintro ⟨error, rfl⟩
        obtain ⟨q', mem, stuck⟩ := stuck error rfl
        obtain ⟨f, rest, stands⟩ := (each q' mem).stands
        exact stands.not_stuck confined onward (each q' mem).prepared stuck

end Parsing

/-- The parsers of a session: a new one, with new tables or those of another one, and one that
is set back after a parse. -/
inductive Parser.Ready (grammar : Grammar) : Parser σ τ → Prop
  | new (source : σ) (channel : Nat) (host : τ) :
      Ready grammar (.ofInput grammar.network (.ofNetwork grammar.network) { source, channel } host)
  | shared {p : Parser σ τ} (ready : Ready grammar p) (source : σ) (channel : Nat) (host : τ) :
      Ready grammar (.ofInput grammar.network p.simulation.tables { source, channel } host)
  | reset {u : ParserSetup τ} {p : Parser σ τ} (ready : Ready grammar p) (same : u.grammar = grammar)
      (rule : Nat) : Ready grammar ((Parsing.parse u rule).run p).2.reset

namespace Parser.Ready

variable {grammar : Grammar}

theorem idle (h : p.Ready grammar) : p.Idle := by
  cases h <;> exact ⟨rfl, rfl, rfl, rfl⟩

/-- The parsers of a session are prepared for a parse. -/
theorem prepared (h : p.Ready grammar) (parses : grammar.network.kind = .parser) :
    p.Prepared grammar.network := by
  induction h with
  | new source channel host =>
      exact ⟨.ofSource source channel, rfl, Tables.starts_ofNetwork parses, .ofNetwork _ _⟩
  | shared _ source channel host ih =>
      exact ⟨.ofSource source channel, rfl, ih.starts, ih.within⟩
  | @reset u p ready same rule ih =>
      subst same
      have lasts : p.Lasts u ((Parsing.parse u rule).run p).2 := by
        have ensured := Parsing.parse_lasts (u := u) ih.placed rule
        unfold Step.Ensures at ensured
        split at ensured <;> rename_i run <;> rw [run] <;> exact ensured
      have after := ih.lasts lasts
      refine ⟨(TokenStream.seek_leads 0 _).placed after.placed, ?_, after.starts, after.within⟩
      simp [Parser.reset, after.prescription]

/-- What the parsers of a session remember is about states of the network. -/
theorem inRange (h : p.Ready grammar) (entire : grammar.network.Entire) :
    p.InRange grammar.network.states.size := by
  induction h with
  | new => exact ⟨.ofNetwork entire, by simp [Parser.ofInput]⟩
  | shared _ _ _ _ ih => exact ⟨ih.tables, by simp [Parser.ofInput]⟩
  | @reset u p _ same rule ih =>
      subst same
      have after := ((Parsing.parse_finds entire rule p ih).imp (fun _ _ => And.left)
        fun _ _ => And.left).state
      exact ⟨after.tables, by simp [Parser.reset]⟩

end Parser.Ready

namespace Parsing

/-- In a parser for rules in EBNF, the stacks of calls stay in step at every state that is visited.
A parse ends with an answer, and leaves no call behind then, or because it was cancelled, had too
many calls or ran out of fuel; it never ends with a defect of the network, and asks for no state or
rule that is not there. -/
theorem parse_inStep {g : RuleSet} (parses : g.kind = .parser) (filled : g.Filled)
    (built : g.build = .ok u.grammar.network) (ready : p.Ready u.grammar) {rule : Nat}
    (known : rule < u.grammar.network.ruleStarts.size) :
    (∀ q ∈ visited u rule p, q.InStep u) ∧
      (parse u rule).Ensures p (fun _ p' => p'.Idle) fun e _ =>
        (∃ error, e = .fatal (.cancelled error)) ∨ (∃ depth rule, e = .fatal (.tooDeep depth rule)) ∨
          e = .fault .exhausted :=
  have entire := g.entire_of_build built
  visited_inStep (g.confined_of_build built) (g.onward_of_build built filled)
    (g.alone_of_build built) entire (ready.prepared ((g.kind_of_build built).trans parses))
    (ready.inRange entire) ready.idle known

/-- A parser for the grammar of sums and products, at the start of the tokens `1 + 2`. -/
theorem parse_inStep_expression : ∃ n, Samples.expression.rules.build = .ok n ∧
    let u : ParserSetup Unit := { grammar := { network := n, names := Samples.expression.names }, fuel := 100 }
    let sum : TokenList := { tokens := #[{ type := 1 }, { type := 3 }, { type := 1 }] }
    let p : Parser TokenList Unit := .ofInput n (.ofNetwork n) { source := sum } ()
    (∀ q ∈ visited u 0 p, q.InStep u) ∧ (parse u 0).Ensures p (fun _ p' => p'.Idle) fun e _ =>
      (∃ error, e = .fatal (.cancelled error)) ∨ (∃ depth rule, e = .fatal (.tooDeep depth rule)) ∨
        e = .fault .exhausted := by
  have filled : Samples.expression.rules.Filled := by
    simp [RuleSet.Filled, Samples.expression, Element.Filled]
  have known : Samples.expression.rules.build.toOption.any (0 < ·.ruleStarts.size) = true := by
    decide +kernel
  cases built : Samples.expression.rules.build with
  | error e => simp [built, Except.toOption] at known
  | ok n =>
      refine ⟨n, rfl, parse_inStep rfl filled built (.new _ _ _) ?_⟩
      simpa [built, Except.toOption] using known

/-- `s : (A | B) (A | B)`, as the rule of a lexer without modes. -/
def lettersRules : RuleSet where
  kind := .lexer
  maxToken := 2
  rules := [{
    tokenType := 1
    body := some (.sequence [.alternatives [.token 1, .token 2], .alternatives [.token 1, .token 2]]) }]

/-- A parser cannot decide anything in the network of a lexer, whose tables are about its modes. -/
theorem parse_lettersRules : lettersRules.Filled ∧ ∃ n, lettersRules.build = .ok n ∧
    0 < n.ruleStarts.size ∧
    let u : ParserSetup Unit := { grammar := { network := n, names := {} }, fuel := 100 }
    let p : Parser TokenList Unit :=
      .ofInput n (.ofNetwork n) { source := { tokens := #[{ type := 1 }, { type := 2 }] } } ()
    p.Ready u.grammar ∧
      ((parse u 0).run p).1 = .error (.fatal (.network (.invalidDecision 0))) := by
  have filled : lettersRules.Filled := by simp [RuleSet.Filled, lettersRules, Element.Filled]
  refine ⟨filled, ?_⟩
  have ends : lettersRules.build.toOption.any (fun n =>
      let u : ParserSetup Unit := { grammar := { network := n, names := {} }, fuel := 100 }
      let p : Parser TokenList Unit :=
        .ofInput n (.ofNetwork n) { source := { tokens := #[{ type := 1 }, { type := 2 }] } } ()
      0 < n.ruleStarts.size ∧
        ((parse u 0).run p).1 = .error (.fatal (.network (.invalidDecision 0)))) = true := by
    decide +kernel
  cases built : lettersRules.build with
  | error e => simp [built, Except.toOption] at ends
  | ok n =>
      simp only [built, Except.toOption, Option.any_some, decide_eq_true_eq] at ends
      exact ⟨n, rfl, ends.1, .new _ _ _, ends.2⟩

end Parsing

end AdaptiveLL
