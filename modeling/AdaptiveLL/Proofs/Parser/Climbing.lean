import AdaptiveLL.Grammar.Samples
import AdaptiveLL.Proofs.Grammar.Infix
import AdaptiveLL.Proofs.Parser.Deriving
/-!
Precedence climbing. In the sample grammar of sums and products a call of the rule of expressions
reads an operand, and takes the operators behind it as long as they bind as tightly as the call
asks for. What is drawn in the tree is the ordered expression, and one token is always enough to
tell which alternative to take.
-/
namespace AdaptiveLL

open AdaptiveLL.Infix (power)
open AdaptiveLL.Parser (Amid Derives Poised)
open AdaptiveLL.Parsing (Reaches)

/-! ### The network of expressions -/

/-- The numbers, types and powers of the operators `*` and `+`. -/
def operators : List (Nat × Symbol × Int) :=
  [(0, 4, 3), (1, 3, 2)]

/-- The precedences with which the rule of expressions is called. -/
def levels : List Int :=
  [0, 3, 4]

/-- Behind the expression there is no operator that the call takes. -/
def Stops (level : Int) (x : Symbol) : Prop :=
  x = 6 ∨ x = Symbol.eof ∨ ∃ o ∈ operators, o.2.1 = x ∧ o.2.2 < level

instance {level : Int} {x : Symbol} : Decidable (Stops level x) :=
  inferInstanceAs (Decidable (_ ∨ _ ∨ ∃ o ∈ operators, _))

theorem Stops.weaken {level level' : Int} {x : Symbol} (h : Stops level x) (le : level ≤ level') :
    Stops level' x := by
  rcases h with paren | eof | ⟨o, mem, type, lt⟩
  · exact .inl paren
  · exact .inr (.inl eof)
  · exact .inr (.inr ⟨o, mem, type, Int.lt_of_lt_of_le lt le⟩)

theorem Stops.mem {level : Int} {x : Symbol} (h : Stops level x) : x ∈ [3, 4, 6, Symbol.eof] := by
  rcases h with rfl | rfl | ⟨o, mem, rfl, -⟩
  · decide
  · decide
  · revert o
    decide

/-- The operator of a token. -/
theorem Infix.operator (sign : TokenOf [3, 4]) : ∃ k, (k, sign.1.type, power sign) ∈ operators := by
  obtain ⟨token, mem⟩ := sign
  rcases List.mem_pair.1 mem with type | type
  · exact ⟨1, by simp [operators, power, type]⟩
  · exact ⟨0, by simp [operators, power, type]⟩

namespace Network

/-- The rule of expressions, the beginning and the end of its calls, and the start rule. -/
def CallsExpressions (n : Network) : Prop :=
  (n.isLeftRecursiveRule 0 = false ∧ n.ruleStarts[0]? = some 1 ∧ n.Slides [1, 4] ∧
    n.Goes 4 (.call 3 1 0 5) ∧ n.followState? 4 = some 5 ∧ n.Slides [5, 6] ∧
    n.Goes 6 (.atom 7 Symbol.eof) ∧ n.Slides [7, 0] ∧ ∃ s ∈ n.states[0]?, s.isRuleStop = true) ∧
  n.isLeftRecursiveRule 1 = true ∧ (∃ s ∈ n.states[3]?, s.rule = 1) ∧ n.Slides [3, 27] ∧
    n.Slides [36, 2] ∧ ∃ s ∈ n.states[2]?, s.isRuleStop = true ∧ s.rule = 1

/-- An atom is read. -/
def ReadsAtom (n : Network) (a : Atlas) (k : Nat) : Prop :=
  (∀ level ∈ levels, n.Leads a 27 false level (1 + k) (14 + 2 * k)) ∧
    n.Goes (14 + 2 * k) (.atom (15 + 2 * k) (1 + k)) ∧ n.Slides [15 + 2 * k, 26, 35]

/-- An expression in parentheses is read. -/
def ReadsGroup (n : Network) (a : Atlas) : Prop :=
  (∀ level ∈ levels, n.Leads a 27 false level 5 8) ∧ n.Goes 8 (.atom 9 5) ∧ n.Slides [9, 10] ∧
    n.Goes 10 (.call 3 1 0 11) ∧ n.followState? 10 = some 11 ∧ n.Slides [11, 12] ∧
    n.Goes 12 (.atom 13 6) ∧ n.Slides [13, 26, 35]

/-- The operator of the number is taken, if it binds as tightly as the call asks for. -/
def TakesOperator (n : Network) (a : Atlas) (k : Nat) (type : Symbol) (power : Int) : Prop :=
  (∀ level ∈ levels, level ≤ power →
    n.Leads a 35 true level type 33 ∧ n.Leads a 33 false level type (28 + 2 * k)) ∧
  n.Goes (28 + 2 * k) (.precedence (29 + 2 * k) power) ∧ n.Slides [29 + 2 * k, 18 + 4 * k] ∧
  n.Goes (18 + 4 * k) (.atom (19 + 4 * k) type) ∧ n.Slides [19 + 4 * k, 20 + 4 * k] ∧
  n.Goes (20 + 4 * k) (.call 3 1 (power + 1) (21 + 4 * k)) ∧
  n.followState? (20 + 4 * k) = some (21 + 4 * k) ∧ n.Slides [21 + 4 * k, 32, 34, 35]

/-- The network and the charts are those of the sample grammar. -/
structure Expresses (n : Network) (a : Atlas) : Prop where
  calls : n.CallsExpressions
  reads : ∀ k ∈ [0, 1], n.ReadsAtom a k
  groups : n.ReadsGroup a
  takes : ∀ o ∈ operators, n.TakesOperator a o.1 o.2.1 o.2.2
  stops : ∀ level ∈ levels, ∀ x ∈ [3, 4, 6, Symbol.eof],
    Stops level x → n.Leads a 35 false level x 36

variable {n : Network} {a : Atlas} {k : Nat} {type : Symbol} {power : Int}

instance : Decidable n.CallsExpressions :=
  inferInstanceAs (Decidable (_ ∧ _))

instance : Decidable (n.ReadsAtom a k) :=
  inferInstanceAs (Decidable (_ ∧ _))

instance : Decidable (n.ReadsGroup a) :=
  inferInstanceAs (Decidable (_ ∧ _))

instance : Decidable (n.TakesOperator a k type power) :=
  inferInstanceAs (Decidable (_ ∧ _))

end Network

/-- The decisions of the sample grammar, and what can be next there. -/
def expressionPlans : List Plan :=
  [{ decisionState := 27, symbols := [1, 2, 5] },
   { decisionState := 33, symbols := [3, 4] },
   { decisionState := 35, byPrecedence := true, levels, symbols := [3, 4, 6, Symbol.eof] }]

/-- The charts of the sample grammar. -/
def expressionAtlas (n : Network) (mode : PredictionMode) : Atlas :=
  .draw ⟨n, Samples.expression.names⟩ mode 40 expressionPlans

theorem expressionAtlas_holds {n : Network} (built : Samples.expression.rules.build = .ok n)
    (mode : PredictionMode) :
    n.Expresses (expressionAtlas n mode) ∧ (∀ x ∈ expressionAtlas n mode, x.2.Distinct) ∧
      (Tables.ofNetwork n).Mapped (expressionAtlas n mode) := by
  have checks : ∀ mode ∈ [PredictionMode.sll, .ll, .exactAmbiguity],
      Samples.expression.rules.build.toOption.any (fun n =>
        n.CallsExpressions ∧ (∀ k ∈ [0, 1], n.ReadsAtom (expressionAtlas n mode) k) ∧
          n.ReadsGroup (expressionAtlas n mode) ∧
          (∀ o ∈ operators, n.TakesOperator (expressionAtlas n mode) o.1 o.2.1 o.2.2) ∧
          (∀ level ∈ levels, ∀ x ∈ [3, 4, 6, Symbol.eof],
            Stops level x → n.Leads (expressionAtlas n mode) 35 false level x 36) ∧
          (∀ x ∈ expressionAtlas n mode, x.2.Distinct) ∧ n.kind = .parser ∧
          ∀ x ∈ expressionPlans.zipIdx, n.decisions[x.2]? = some x.1.decisionState ∧
            x.1.byPrecedence = (n.states[x.1.decisionState]?.map State.precedenceLoop).getD false)
        = true := by
    decide +kernel
  have check := checks mode (by cases mode <;> decide)
  simp only [built, Except.toOption, Option.any_some, decide_eq_true_eq] at check
  obtain ⟨calls, reads, groups, takes, stops, distinct, parses, fits⟩ := check
  exact ⟨⟨calls, reads, groups, takes, stops⟩, distinct, .of_plans parses fits⟩

/-! ### Calls of the rule of expressions -/

variable {σ τ : Type} [TokenSource σ] {a : Atlas} {u : ParserSetup τ} {p base : Parser σ τ}
  {c i q target follow : Nat} {level : Int} {ts : List Token} {lr : Bool} {root : NodeId}
  {e inner left right : Infix} {sign : TokenOf [3, 4]}

/-- What is next takes no part of the expression for its left operand. -/
def Infix.Ends (x : Symbol) : Infix → Prop
  | atom _ | group .. => True
  | apply _ sign _ => Stops (power sign + 1) x

theorem Infix.ends {x : Symbol} (binds : e.Binds level) (stops : Stops (level + 1) x) :
    e.Ends x := by
  cases e with
  | atom | group => trivial
  | apply => exact stops.weaken (Int.add_le_add_right binds 1)

variable (a u lr root) in
/-- A call of the rule of expressions derives the expression, and comes to the operator loop
behind it. -/
def Climbs (e : Infix) : Prop :=
  ∀ {σ : Type} [TokenSource σ] {c i : Nat} {level : Int} {base p : Parser σ τ} {ts : List Token},
    base.Amid a c i 1 level p 3 (e.tokens ++ ts) [] → level ∈ levels →
    base.depth + e.tokens.length ≤ u.options.maxDepth → e.Binds level →
    e.Ends (Token.nextType ts) →
    Reaches u lr root p (10 * e.tokens.length - 5) (base.Amid a c i 1 level · 35 ts e.parts)

section

variable (holds : a.Holds u) (build : u.options.buildTrees = true)
  (n : u.grammar.network.Expresses a)

include holds build n

/-- The loop ends, and with it the call. -/
theorem Climbs.call (h : Climbs a u lr root e) (poised : p.Poised a c i (e.tokens ++ ts))
    (goes : u.grammar.network.Goes i (.call 3 1 level follow))
    (follows : u.grammar.network.followState? i = some follow) (mem : level ∈ levels)
    (room : p.depth + e.tokens.length ≤ u.options.maxDepth) (binds : e.Binds level)
    (stops : Stops level (Token.nextType ts)) :
    Reaches u lr root p (10 * e.tokens.length - 1)
      (p.Derives a c · follow ts [.rule 1 e.parts]) := by
  obtain ⟨-, recursive, callee, -, exit, stop⟩ := n.calls
  have pos := e.length_tokens_pos
  have ends := Infix.ends binds (stops.weaken (Int.le_add_one (Int.le_refl level)))
  have called := poised.call (p := p) build recursive goes callee stop follows (by omega)
    fun p' amid => (h amid mem room binds ends).trans
      (fun p'' amid => amid.moves fun d poised =>
        (poised.lead holds build amid.precedence (n.stops _ mem _ stops.mem stops)).next
          fun p' first => first.slide build exit) (Nat.le_refl _)
  simp only [List.append_nil, List.length_singleton] at called
  exact called.mono (by omega)

theorem climbs_atom (token : TokenOf [1, 2]) : Climbs a u lr root (.atom token) := by
  intro σ _ c i level base p ts amid mem _ _ _
  obtain ⟨k, type, leads, goes, behind⟩ :
      ∃ k, token.1.type = 1 + (k : Nat) ∧ u.grammar.network.ReadsAtom a k := by
    rcases List.mem_pair.1 token.2 with type | type
    · exact ⟨0, type, n.reads 0 (by decide)⟩
    · exact ⟨1, type, n.reads 1 (by decide)⟩
  obtain ⟨-, -, -, enter, -⟩ := n.calls
  have leads := leads level mem
  rw [← type] at leads goes
  exact amid.moves fun d poised => (poised.slide build enter)
    |>.next (fun _ h => h.lead holds build (h.precedence.trans amid.precedence) leads)
    |>.next (fun _ h => h.read build goes)
    |>.next (fun _ h => h.slide build behind)

theorem climbs_group (opening : TokenOf [5]) (closing : TokenOf [6])
    (h : Climbs a u lr root inner) : Climbs a u lr root (.group opening inner closing) := by
  intro σ _ c i level base p ts amid mem room _ _
  obtain ⟨-, -, -, enter, -⟩ := n.calls
  obtain ⟨leads, opens, before, goes, follows, after, closes, behind⟩ := n.groups
  have leads := leads level mem
  have stops : Stops 0 closing.1.type := .inl (List.mem_singleton.1 closing.2)
  rw [← List.mem_singleton.1 opening.2] at leads opens
  rw [← List.mem_singleton.1 closing.2] at closes
  rw [Infix.tokens, List.length_cons, List.length_append, List.length_singleton] at room ⊢
  rw [Infix.tokens, List.cons_append, List.append_assoc, List.singleton_append] at amid
  have called {d : NodeId} {p' : Parser σ τ} {ds : List Derivation}
      (at_call : p.Derives a d p' 10 (inner.tokens ++ closing.1 :: ts) ds) :
      Reaches u lr root p' (10 * inner.tokens.length - 1)
        (p'.Derives a d · 11 (closing.1 :: ts) [.rule 1 inner.parts]) := by
    refine h.call holds build n at_call.toPoised goes follows (by decide) ?_ inner.binds_zero stops
    rw [at_call.depth, amid.depth]
    omega
  have moved := amid.moves fun d poised => (poised.slide build enter)
    |>.next (fun _ h => h.lead holds build (h.precedence.trans amid.precedence) leads)
    |>.next (fun _ h => h.read build opens)
    |>.next (fun _ h => h.slide build before)
    |>.next (fun _ h => called h)
    |>.next (fun _ h => h.slide build after)
    |>.next (fun _ h => h.read build closes)
    |>.next (fun _ h => h.slide build behind)
  exact moved.mono (by simp only [List.length_cons, List.length_nil]; omega)

theorem climbs_apply (h : Climbs a u lr root left) (h' : Climbs a u lr root right)
    (binds : left.Binds (power sign)) (binds' : right.Binds (power sign + 1)) :
    Climbs a u lr root (.apply left sign right) := by
  intro σ _ c i level base p ts amid mem room le stops
  obtain ⟨k, listed⟩ := Infix.operator sign
  obtain ⟨leads, allowed, slides, reads, before, goes, follows, behind⟩ := n.takes _ listed
  obtain ⟨loops, leads⟩ := leads level mem le
  have pos := left.length_tokens_pos
  have pos' := right.length_tokens_pos
  have next : ∀ o ∈ operators, o.2.2 + 1 ∈ levels := by decide
  rw [Infix.tokens, List.append_assoc, List.cons_append] at amid
  rw [Infix.tokens, List.length_append, List.length_cons] at room ⊢
  have called {d : NodeId} {q p' : Parser σ τ} {ds : List Derivation}
      (at_call : q.Derives a d p' (20 + 4 * k) (right.tokens ++ ts) ds)
      (deep : q.depth = base.depth + 1) :
      Reaches u lr root p' (10 * right.tokens.length - 1)
        (p'.Derives a d · (21 + 4 * k) ts [.rule 1 right.parts]) := by
    refine h'.call holds build n at_call.toPoised goes follows (next _ listed) ?_ binds' stops
    rw [at_call.depth, deep]
    omega
  have ends : left.Ends sign.1.type :=
    Infix.ends binds (.inr (.inr ⟨_, listed, rfl, Int.lt_succ (power sign)⟩))
  have wrapped := (h amid mem (by omega) (binds.weaken le) ends).trans
    (fun p' amid => amid.wrap holds build loops) (Nat.le_refl _)
  have moved := wrapped.trans (fun p' amid => amid.moves fun d poised =>
    (poised.lead holds build amid.precedence leads)
    |>.next (fun _ h => h.pass build (by rwa [h.precedence, amid.precedence]) allowed)
    |>.next (fun _ h => h.slide build slides)
    |>.next (fun _ h => h.read build reads)
    |>.next (fun _ h => h.slide build before)
    |>.next (fun _ h => called h amid.depth)
    |>.next (fun _ h => h.slide build behind)) (Nat.le_refl _)
  exact moved.mono (by simp only [List.length_cons, List.length_nil]; omega)

/-- Each ordered expression is derived. -/
theorem climbs (ordered : e.Ordered) : Climbs a u lr root e := by
  induction e with
  | atom token => exact climbs_atom holds build n token
  | group opening inner closing ih => exact climbs_group holds build n opening closing (ih ordered)
  | apply left sign right ih ih' =>
      obtain ⟨ordered_l, ordered_r, binds, binds'⟩ := ordered
      exact climbs_apply holds build n (ih ordered_l) (ih' ordered_r) binds binds'

/-- The start rule, from its first state to its last one. -/
theorem derives_start (ordered : e.Ordered) (poised : p.Poised a c 1 e.tokens)
    (room : p.depth + e.tokens.length ≤ u.options.maxDepth) :
    Reaches u lr root p (10 * e.tokens.length + 4) fun p' =>
      ∃ ds, (∃ eof : Token, eof.isEof = true ∧ ds = [.rule 1 e.parts, .terminal eof]) ∧
        p.Derives a c p' 0 [] ds := by
  obtain ⟨⟨-, -, first, goes, follows, behind, closes, last, -⟩, -⟩ := n.calls
  have pos := e.length_tokens_pos
  rw [← List.append_nil e.tokens] at poised
  have called {p' : Parser σ τ} {ds : List Derivation}
      (at_call : p.Derives a c p' 4 (e.tokens ++ []) ds) :
      Reaches u lr root p' (10 * e.tokens.length - 1)
        (p'.Derives a c · 5 [] [.rule 1 e.parts]) := by
    have climbs : Climbs a u lr root e := climbs holds build n ordered
    refine climbs.call holds build n at_call.toPoised goes follows (by decide) ?_ e.binds_zero
      (.inr (.inl rfl))
    rw [at_call.depth]
    exact room
  have expression := (poised.slide build first)
    |>.next (fun _ h => called h)
    |>.next (fun _ h => h.slide build behind)
  refine expression.trans (k := 2) (fun p' h => ?_)
    (by simp only [List.length_cons, List.length_nil]; omega)
  refine Reaches.imp ((h.reads build closes fun _ => h.past_end)
    |>.next fun _ h => h.slide build last) fun p'' h' => ?_
  exact ⟨_, ⟨p'.currentToken, h.currentToken_end, rfl⟩, h.trans h'⟩

end

/-! ### Parses -/

section

variable {n : Network} (built : Samples.expression.rules.build = .ok n)
  (grammar : u.grammar = { network := n, names := Samples.expression.names })
  (build : u.options.buildTrees = true) (room : e.tokens.length + 2 ≤ u.options.maxDepth)
  (enough : 10 * e.tokens.length + 40 ≤ u.fuel)

include built grammar build room enough

/-- An ordered expression is parsed without a mistake, and derived. -/
theorem parse_ordered (ordered : e.Ordered) {input : TokenStream σ} (sound : input.Sound)
    (upcoming : input.Upcoming e.tokens) (host : τ) :
    (Parsing.parse u 0).Ensures (.ofInput n (.ofNetwork n) input host)
      (fun root p' => root = 0 ∧ p'.errorCount = 0 ∧ ∃ ds, (∃ eof : Token, eof.isEof = true ∧
        ds = [.rule 1 e.parts, .terminal eof]) ∧ p'.tree.DrawsFrom 0 0 ds) fun _ _ => False := by
  obtain rfl : u.grammar.network = n := by rw [grammar]
  obtain ⟨expresses, distinct, mapped⟩ := expressionAtlas_holds built u.options.predictionMode
  have holds : (expressionAtlas u.grammar.network u.options.predictionMode).Holds u := by
    rw [expressionAtlas, ← grammar] at distinct ⊢
    exact Atlas.draw_holds (by decide) (by omega) distinct
  obtain ⟨⟨plain, start, -, -, -, -, -, -, stop⟩, -⟩ := expresses.calls
  let p : Parser σ τ := .ofInput u.grammar.network (.ofNetwork u.grammar.network) input host
  have calm : p.Calm (expressionAtlas u.grammar.network u.options.predictionMode) e.tokens :=
    ⟨sound, upcoming, mapped, rfl, rfl, rfl⟩
  have shallow : 0 < u.options.maxDepth := by omega
  refine Parsing.parse_derives build plain start stop shallow rfl calm ?_
    (by omega : 10 * e.tokens.length + 4 < u.fuel)
  intro p' poised depth
  have depth : p'.depth = 1 := depth
  exact derives_start holds build expresses ordered poised (by omega)

/-- Whatever infix expression the tokens of the channel render, there is one with the same tokens
in which `*` binds tighter than `+` and both associate to the left. A new parser for sums and
products makes no mistake, and what its tree shows under the start rule is that expression. -/
theorem parse_expression {tokens : Array Token} (words : ∀ t ∈ tokens, t.isEof = false)
    (rendered : (Token.placed tokens).filter (·.channel == Token.defaultChannel) = e.tokens)
    (host : τ) :
    ∃ sorted : Infix, sorted.Ordered ∧ sorted.tokens = e.tokens ∧
      (∀ f : Infix, f.Ordered → f.tokens = e.tokens → f = sorted) ∧
      ∃ (p' : Parser TokenList τ) (eof : Token),
        (Parsing.parse u 0).run (.ofInput n (.ofNetwork n) { source := { tokens } } host)
          = (.ok 0, p') ∧
        p'.errorCount = 0 ∧ eof.isEof = true ∧
        p'.tree.DrawsFrom 0 0 [.rule 1 sorted.parts, .terminal eof] := by
  let p : Parser TokenList τ := .ofInput n (.ofNetwork n) { source := { tokens } } host
  have ends : ({ tokens } : TokenList).Ends := by simp [TokenList.Ends]
  have upcoming := TokenStream.Upcoming.ofList words
  rw [rendered] at upcoming
  have parses {f : Infix} (ordered : f.Ordered) (same : f.tokens = e.tokens) :
      ∃ (p' : Parser TokenList τ) (eof : Token), (Parsing.parse u 0).run p = (.ok 0, p') ∧
        p'.errorCount = 0 ∧ eof.isEof = true ∧
        p'.tree.DrawsFrom 0 0 [.rule 1 f.parts, .terminal eof] := by
    rw [← same] at room enough upcoming
    have ensures := parse_ordered built grammar build room enough ordered
      (.ofSource (ends.prompt _)) upcoming host
    obtain ⟨outcome, p', run⟩ : ∃ outcome p', (Parsing.parse u 0).run p = (outcome, p') :=
      ⟨_, _, rfl⟩
    cases outcome with
    | error => exact (ensures.error run).elim
    | ok root =>
        obtain ⟨rfl, errors, _, ⟨eof, isEof, rfl⟩, drawn⟩ := ensures.ok run
        exact ⟨p', eof, run, errors, isEof, drawn⟩
  obtain ⟨p', eof, run, errors, isEof, drawn⟩ := parses e.arranged_ordered e.tokens_arranged
  refine ⟨e.arranged, e.arranged_ordered, e.tokens_arranged, fun f ordered same => ?_,
    p', eof, run, errors, isEof, drawn⟩
  -- The parser does not know which of the expressions is meant, and draws but one tree.
  obtain ⟨q, _, run', -, -, drawn'⟩ := parses ordered same
  obtain rfl : p' = q := (Prod.mk.inj (run.symm.trans run')).2
  have parts := (List.cons.inj (drawn'.unique drawn)).1
  exact Infix.parts_injective (Derivation.rule.inj parts).2

end

/-- In `1 + 2 * 3` the product is the right operand of the sum, although `(1 + 2) * 3` without the
parentheses has the same tokens. -/
theorem parse_expression_sum : ∃ n, Samples.expression.rules.build = .ok n ∧
    let u : ParserSetup Unit :=
      { grammar := { network := n, names := Samples.expression.names }, fuel := 100 }
    let tokens : Array Token :=
      #[{ type := 1 }, { type := 3 }, { type := 1 }, { type := 4 }, { type := 1 }]
    let number (i : Nat) : Infix := .atom ⟨{ type := 1, index := some i }, .head _⟩
    let plus : TokenOf [3, 4] := ⟨{ type := 3, index := some 1 }, .head _⟩
    let times : TokenOf [3, 4] := ⟨{ type := 4, index := some 3 }, .tail _ (.head _)⟩
    ∃ (p' : Parser TokenList Unit) (eof : Token),
      (Parsing.parse u 0).run (.ofInput n (.ofNetwork n) { source := { tokens } } ())
        = (.ok 0, p') ∧
      p'.errorCount = 0 ∧ eof.isEof = true ∧ p'.tree.DrawsFrom 0 0
        [.rule 1 (Infix.apply (number 0) plus (.apply (number 2) times (number 4))).parts,
          .terminal eof] := by
  have builds : Samples.expression.rules.build.toOption.isSome = true := by decide +kernel
  cases built : Samples.expression.rules.build with
  | error e => simp [built, Except.toOption] at builds
  | ok n =>
      let number (i : Nat) : Infix := .atom ⟨{ type := 1, index := some i }, .head _⟩
      let plus : TokenOf [3, 4] := ⟨{ type := 3, index := some 1 }, .head _⟩
      let times : TokenOf [3, 4] := ⟨{ type := 4, index := some 3 }, .tail _ (.head _)⟩
      let read : Infix := .apply (.apply (number 0) plus (number 2)) times (number 4)
      let meant : Infix := .apply (number 0) plus (.apply (number 2) times (number 4))
      let u : ParserSetup Unit :=
        { grammar := { network := n, names := Samples.expression.names }, fuel := 100 }
      let tokens : Array Token :=
        #[{ type := 1 }, { type := 3 }, { type := 1 }, { type := 4 }, { type := 1 }]
      have room : read.tokens.length + 2 ≤ 1000 := by decide
      have enough : 10 * read.tokens.length + 40 ≤ 100 := by decide
      have words : ∀ t ∈ tokens, t.isEof = false := by decide
      have rendered : (Token.placed tokens).filter (·.channel == Token.defaultChannel)
          = read.tokens := by decide
      obtain ⟨sorted, -, -, only, p', eof, run, errors, isEof, drawn⟩ :=
        parse_expression (u := u) built rfl rfl room enough words rendered ()
      have tighter : power plus + 1 ≤ power times := by decide
      have ordered : meant.Ordered :=
        ⟨trivial, ⟨trivial, trivial, trivial, trivial⟩, trivial, tighter⟩
      obtain rfl := only meant ordered rfl
      exact ⟨n, rfl, p', eof, run, errors, isEof, drawn⟩

end AdaptiveLL
