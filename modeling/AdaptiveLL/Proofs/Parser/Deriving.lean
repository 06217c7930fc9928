import AdaptiveLL.Proofs.Parser.Onward
import AdaptiveLL.Proofs.Tree.Derived
/-!
Stretches of a parse that makes no mistake, and the derivations that they draw in the tree: under
the context in which they begin, or during a call of a left-recursive rule.
-/
namespace AdaptiveLL

open AdaptiveLL.Parser (Calm Fares)
open AdaptiveLL.ParseTree (Gains Grows)
open AdaptiveLL.Parsing (Reaches)

namespace Network

/-- There is one edge from the state, and it leads to a state. -/
def Goes (n : Network) (number : Nat) (t : Transition) : Prop :=
  ∃ s ∈ n.states[number]?, s.isRuleStop = false ∧ s.isDecision = false ∧
    s.precedenceLoop = false ∧ s.transitions = [t] ∧ n.states[t.target]?.isSome = true

/-- Each state leads to the next one. -/
def Slides (n : Network) (path : List Nat) : Prop :=
  path.IsChain fun q next => n.Goes q (.epsilon next none)

/-- The token can follow at the state, or there is a way to the end of the rule. -/
def Awaits (n : Network) (number : Nat) (x : Symbol) : Prop :=
  ∃ set ∈ (n.nextTokens number).toOption,
    set.contains x = true ∨ set.contains Symbol.epsilon = true

/-- The charts tell to which state the decision leads when the token is the next one. Perhaps the
context of the call is wrapped. -/
def Leads (n : Network) (a : Atlas) (number : Nat) (wraps : Bool) (level : Int) (x : Symbol)
    (target : Nat) : Prop :=
  n.Awaits number x ∧ ∃ s ∈ n.states[number]?, s.isRuleStop = false ∧ s.isDecision = true ∧
    1 < s.transitions.length ∧ n.ruleStarts[s.rule]?.isSome = true ∧
    (∃ e ∈ n.states[target]?, (s.precedenceLoop && !e.isLoopEnd) = wraps) ∧
    ∃ d ∈ s.decision, ∃ alt ∈ a.alt? d level x,
      alt ≠ 0 ∧ s.transitions[alt - 1]? = some (.epsilon target none)

section

variable {n : Network} {a : Atlas} {number target : Nat} {t : Transition} {x : Symbol}
  {wraps : Bool} {level : Int} {path : List Nat}

instance : Decidable (n.Goes number t) :=
  inferInstanceAs (Decidable (∃ s ∈ n.states[number]?, _))

instance : Decidable (n.Slides path) :=
  inferInstanceAs (Decidable (path.IsChain _))

instance : Decidable (n.Awaits number x) :=
  inferInstanceAs (Decidable (∃ set ∈ (n.nextTokens number).toOption, _))

instance : Decidable (n.Leads a number wraps level x target) :=
  inferInstanceAs (Decidable (_ ∧ ∃ s ∈ n.states[number]?, _))

end

end Network

variable {σ τ : Type} [TokenSource σ] {a : Atlas} {u : ParserSetup τ} {p p' p'' base : Parser σ τ}
  {c i q q' target follow rule stop : Nat} {level : Int} {t : Token} {ts ts' ts'' : List Token}
  {ds ds' : List Derivation} {leaves : List Leaf} {lr : Bool} {root : NodeId} {j k m : Nat}
  {path : List Nat} {Q R : Parser σ τ → Prop}

/-! ### Turns -/

namespace Parsing.Reaches

theorem imp (h : Reaches u lr root p k Q) (weaker : ∀ p', Q p' → R p') : Reaches u lr root p k R :=
  h.trans (k := 0) (fun p' holds => .here (weaker p' holds)) (Nat.le_refl k)

theorem mono (h : Reaches u lr root p j Q) (le : j ≤ k) : Reaches u lr root p k Q :=
  h.trans (k := 0) (fun _ => .here) le

/-- The only edge of a state is crossed. -/
theorem cross {e : Transition} (goes : u.grammar.network.Goes p.state e)
    (crosses : ∀ s : State, s.precedenceLoop = false → (takeEdge u p.state s e).Ensures p
      (fun _ p' => Reaches u lr root { p' with state := e.target } k Q) fun _ _ => False) :
    Reaches u lr root p (k + 1) Q := by
  obtain ⟨s, here, going, plain, straight, edges, -⟩ := goes
  refine .visit (t := e) (P := (· = p)) here going ?_ (fun _ => rfl) Nat.one_ne_zero ?_ ?_
  · rw [if_neg (by simp [plain])]
    exact .of_ok rfl ⟨rfl, rfl⟩
  · rw [edges]
    rfl
  · rintro _ rfl
    exact crosses s straight

/-- Along a path. -/
theorem slide (slides : u.grammar.network.Slides (p.state :: path))
    (h : Reaches u lr root { p with state := path.getLastD p.state } k Q) :
    Reaches u lr root p (k + path.length) Q := by
  induction path generalizing p with
  | nil => exact h
  | cons next rest ih =>
      obtain ⟨goes, slides⟩ := List.isChain_cons_cons.1 slides
      refine .cross goes fun s straight => ?_
      obtain ⟨_, _, _, _, _, _, known⟩ := goes
      obtain ⟨e, known⟩ := Option.isSome_iff_exists.1 known
      have known : u.grammar.network.states[next]? = some e := known
      refine .of_ok (a := ()) (t := p) ?_ (ih (p := { p with state := next }) slides ?_)
      · rw [takeEdge_epsilon known, straight]
        rfl
      · rw [List.getLastD_cons] at h
        exact h

/-- At a decision the alternative is taken that the charts tell. -/
theorem lead {wraps : Bool} (holds : a.Holds u) (h : p.Calm a ts)
    (leads : u.grammar.network.Leads a p.state wraps p.precedence (Token.nextType ts) target)
    (takes : ∀ (s : State) (p' : Parser σ τ), u.grammar.network.ruleStarts[s.rule]?.isSome = true →
      Fares a u p p' [] → (if wraps then continueRecursion u s else pure ()).Ensures p'
        (fun _ p'' => Reaches u lr root { p'' with state := target } k Q) fun _ _ => False) :
    Reaches u lr root p (k + 1) Q := by
  obtain ⟨⟨set, known, fits⟩, s, here, going, decides, several, starts, ⟨e, behind, rfl⟩, d, number,
    alt, settled, pos, edge⟩ := leads
  obtain ⟨⟨v, chart⟩, listed, settled⟩ := Option.bind_eq_some_iff.1 settled
  have known : u.grammar.network.nextTokens p.state = .ok set := by
    cases next : u.grammar.network.nextTokens p.state with
    | error => simp [next, Except.toOption] at known
    | ok => simpa [next, Except.toOption] using known
  refine .visit (P := (Fares a u p · [])) here going ?_ ?_ pos edge ?_
  · rw [if_pos decides]
    exact choose_fares holds h several number known fits listed settled
  · exact fun plain => absurd decides (by simp [plain])
  · intro p' fares
    have straight : (takeEdge u p.state s (.epsilon target none)).run p' = _ :=
      takeEdge_epsilon behind
    rw [Step.Ensures, straight]
    exact takes s p' starts fares

end Parsing.Reaches

/-! ### Under a context -/

namespace Parser

/-- The parser has made no mistake, stands at the state `q` in the context `c`, and these tokens
are to come. -/
structure Poised (a : Atlas) (c : NodeId) (p : Parser σ τ) (q : Nat) (ts : List Token) : Prop
    extends p.Calm a ts where
  state : p.state = q
  context : p.context = some c
  known : c < p.tree.size

/-- From `p` the parser has come to `p'`, and the context has got new children that draw the
derivations. -/
structure Derives (a : Atlas) (c : NodeId) (p p' : Parser σ τ) (q : Nat) (ts : List Token)
    (ds : List Derivation) : Prop extends p'.Poised a c q ts where
  precedences : p'.precedences = p.precedences
  recursions : p'.recursions = p.recursions
  depth : p'.depth = p.depth
  gains : Gains p.tree.outline p'.tree.outline c ds

theorem Derives.trans (h : p.Derives a c p' q ts ds) (h' : p'.Derives a c p'' q' ts' ds') :
    p.Derives a c p'' q' ts' (ds ++ ds') :=
  ⟨h'.toPoised, h'.precedences.trans h.precedences, h'.recursions.trans h.recursions,
    h'.depth.trans h.depth, h.gains.trans h'.gains⟩

theorem Derives.precedence (h : p.Derives a c p' q ts ds) : p'.precedence = p.precedence := by
  rw [Parser.precedence, h.precedences, Parser.precedence]

/-- Moves that put leaves. -/
theorem Derives.of_fares (h : p.Poised a c q ts) (build : u.options.buildTrees = true)
    (fares : Fares a u p p' leaves) (calm : p'.Calm a ts')
    (gains : Gains p.tree.outline (p.tree.outline.graft (some c) leaves) c ds) :
    p.Derives a c { p' with state := q' } q' ts' ds where
  toCalm := calm.at_state q'
  state := rfl
  context := fares.context.trans h.context
  known := Nat.lt_of_lt_of_le h.known fares.keeps.size
  precedences := fares.precedences
  recursions := fares.recursions
  depth := fares.depth
  gains := by
    rw [← h.context, ← fares.grafts build] at gains
    exact gains

end Parser

/-- One stretch after another. -/
theorem Parsing.Reaches.next (h : Reaches u lr root p j (p.Derives a c · q ts ds))
    (rest : ∀ p', p.Derives a c p' q ts ds →
      Reaches u lr root p' k (p'.Derives a c · q' ts' ds')) :
    Reaches u lr root p (j + k) (p.Derives a c · q' ts' (ds ++ ds')) :=
  h.trans (fun p' first => (rest p' first).imp fun _ => first.trans) (Nat.le_refl _)

open AdaptiveLL.Parser (Poised Derives)

namespace ParseTree.Gains

theorem refl (t : ParseTree) (c : NodeId) : Gains t t c [] :=
  ⟨Nat.le_refl _, fun _ _ _ => rfl, fun node here => ⟨[], [], by simpa using here, .nil, by simp⟩⟩

end ParseTree.Gains

namespace Parser.Poised

theorem derives (h : p.Poised a c q ts) (build : u.options.buildTrees = true)
    (fares : Fares a u p p' []) : p.Derives a c { p' with state := q' } q' ts [] :=
  .of_fares h build fares (h.toCalm.still fares) (by rw [ParseTree.graft_nil]; exact .refl _ _)

theorem slide (h : p.Poised a c q ts) (build : u.options.buildTrees = true)
    (slides : u.grammar.network.Slides (q :: path)) :
    Reaches u lr root p path.length (p.Derives a c · (path.getLastD q) ts []) := by
  obtain rfl := h.state
  rw [← Nat.zero_add path.length]
  exact .slide slides (.here (h.derives build (.refl a u p)))

/-- The next token, or the end of the input, is read. -/
theorem reads (h : p.Poised a c q ts) (build : u.options.buildTrees = true)
    (goes : u.grammar.network.Goes q (.atom target (Token.nextType ts)))
    (rest : ∀ p', Fares a u p p' [⟨p.currentToken, false⟩] → p'.Calm a ts') :
    Reaches u lr root p 1 (p.Derives a c · target ts' [.terminal p.currentToken]) := by
  refine .cross (h.state.symm ▸ goes) fun s _ => ?_
  have matched := Parsing.matchToken_fares (u := u) h.toCalm
  refine .bind (matched.imp (fun _ p' fares => .of_ok rfl (.here ?_)) fun _ _ => id)
  have known : c < p.tree.outline.size := by
    rw [ParseTree.size_outline]
    exact h.known
  exact .of_fares h build fares (rest p' fares) (.graft _ _ _ known)

theorem read (h : p.Poised a c q (t :: ts)) (build : u.options.buildTrees = true)
    (goes : u.grammar.network.Goes q (.atom target t.type)) :
    Reaches u lr root p 1 (p.Derives a c · target ts [.terminal t]) := by
  obtain rfl := h.currentToken
  exact h.reads build goes fun _ => h.past

/-- A decision that wraps nothing. -/
theorem lead (h : p.Poised a c q ts) (holds : a.Holds u) (build : u.options.buildTrees = true)
    (precedence : p.precedence = level)
    (leads : u.grammar.network.Leads a q false level (Token.nextType ts) target) :
    Reaches u lr root p 1 (p.Derives a c · target ts []) := by
  subst precedence
  refine .lead holds h.toCalm (h.state.symm ▸ leads) fun s p' _ fares => ?_
  exact .of_ok rfl (.here (h.derives build fares))

/-- An operator is allowed by the precedence of the call. -/
theorem pass (h : p.Poised a c q ts) (build : u.options.buildTrees = true)
    (allowed : p.precedence ≤ level) (goes : u.grammar.network.Goes q (.precedence target level)) :
    Reaches u lr root p 1 (p.Derives a c · target ts []) := by
  refine .cross (h.state.symm ▸ goes) fun s _ => ?_
  have allows : (Parsing.allows level : Parsing σ τ Bool).run p = (.ok true, p) := by
    rw [← decide_eq_true allowed]
    rfl
  exact .bind (.of_ok allows (.of_ok rfl (.here (h.derives build (.refl a u p)))))

end Parser.Poised

/-! ### During a call of a left-recursive rule -/

namespace Parser

/-- The parser stands at the state `q` in a call of a left-recursive rule, which was made by `base`
at the state `i` in the context `c`. So far the call has drawn the derivations. -/
structure Amid (a : Atlas) (c : NodeId) (base : Parser σ τ) (i rule : Nat) (level : Int)
    (p : Parser σ τ) (q : Nat) (ts : List Token) (ds : List Derivation) : Prop
    extends p.Calm a ts where
  state : p.state = q
  precedences : p.precedences = level :: base.precedences
  recursions : p.recursions = (some c, some i) :: base.recursions
  depth : p.depth = base.depth + 1
  grows : ∃ d, p.context = some d ∧ Grows base.tree.outline p.tree.outline rule c i d ds

namespace Amid

theorem precedence (h : base.Amid a c i rule level p q ts ds) : p.precedence = level := by
  rw [Parser.precedence, h.precedences]
  rfl

/-- A stretch under the context of the call. -/
theorem moves (h : base.Amid a c i rule level p q ts ds)
    (move : ∀ d, p.Poised a d q ts → Reaches u lr root p k (p.Derives a d · q' ts' ds')) :
    Reaches u lr root p k (base.Amid a c i rule level · q' ts' (ds ++ ds')) := by
  obtain ⟨d, context, grows⟩ := h.grows
  have known : d < p.tree.size := by
    rw [← ParseTree.size_outline]
    exact grows.lt_size
  refine (move d ⟨h.toCalm, h.state, context, known⟩).imp fun p' derives => ?_
  exact ⟨derives.toCalm, derives.state, derives.precedences.trans h.precedences,
    derives.recursions.trans h.recursions, derives.depth.trans h.depth, d, derives.context,
    grows.gains derives.gains⟩

/-- A call has been entered. -/
theorem entered (h : p.Poised a c i ts) (build : u.options.buildTrees = true)
    (recursive : u.grammar.network.isLeftRecursiveRule rule = true)
    (fares : Fares a u (p.entered u p.context (some i) rule target level) p' []) :
    p.Amid a c i rule level { p' with state := target } target ts [] := by
  have grafts := fares.grafts build
  rw [ParseTree.graft_nil] at grafts
  have calm : (p.entered u p.context (some i) rule target level).Calm a ts := by
    rw [Parser.entered, if_pos recursive]
    exact h.of_eq rfl rfl rfl rfl
  rw [Parser.entered, if_pos recursive] at fares calm grafts
  have grown : { p' with state := target }.tree.outline
      = p.tree.outline.withCall rule (some c) (some i) := by
    refine grafts.trans ?_
    rw [h.context]
    exact ParseTree.outline_withCall _ _ _ _
  refine ⟨(calm.still fares).at_state target, rfl, fares.precedences, ?_, fares.depth,
    p.tree.size, fares.context, ?_⟩
  · rw [← h.context]
    exact fares.recursions
  · rw [grown, ← ParseTree.size_outline]
    exact .begin _ _ _ _

/-- What has been drawn so far is wrapped. -/
theorem wrap (h : base.Amid a c i rule level p q ts ds) (holds : a.Holds u)
    (build : u.options.buildTrees = true)
    (leads : u.grammar.network.Leads a q true level (Token.nextType ts) target) :
    Reaches u lr root p 1 (base.Amid a c i rule level · target ts [.rule rule ds]) := by
  refine .lead holds h.toCalm (h.state.symm ▸ h.precedence.symm ▸ leads) fun s p' starts fares => ?_
  obtain ⟨start, starts⟩ := Option.isSome_iff_exists.1 starts
  refine (Parsing.continueRecursion_fares (a := a) starts).imp
    (fun _ p'' wrapped => .here ?_) fun _ _ => id
  obtain ⟨d, context, grows⟩ := h.grows
  have context' : p'.context = some d := fares.context.trans context
  have outline : p'.tree.outline = p.tree.outline :=
    (fares.grafts build).trans (ParseTree.graft_nil _ _)
  have recursions : p'.recursions.head?.getD (none, none) = (some c, some i) := by
    rw [fares.recursions, h.recursions]
    rfl
  have same : ((p'.contextRule?.map RuleNode.rule).getD s.rule) = rule := by
    have link := grows.link?
    rw [← outline, ParseTree.link?_outline] at link
    obtain ⟨node, here, isLink⟩ := ParseTree.link?_eq_some.1 link
    rw [Parser.contextRule?, context']
    simp only [Option.bind_some, ParseTree.rule?, here, TreeNode.rule?, Option.map_some,
      Option.getD_some]
    exact congrArg Link.rule isLink
  have calm : (p'.wrapped u rule start).Calm a ts :=
    (h.still fares).of_eq p'.wrapped_simulation (by rw [wrapped_of_some context'])
      p'.wrapped_prescription (by rw [wrapped_of_some context'])
  have grafts := wrapped.grafts build
  rw [same] at wrapped grafts
  have calm := calm.still wrapped
  rw [wrapped_of_some context', recursions] at wrapped grafts
  have drawn : p''.tree.outline = ((p.tree.outline.withCall rule (some c) (some i)).relink d
      (some p.tree.outline.size) (some start)).attach true (some p.tree.outline.size) d := by
    rw [← outline, ParseTree.size_outline, grafts, ParseTree.graft_nil, build,
      ParseTree.outline_attach, ParseTree.outline_relink]
    exact congrArg (fun t => ParseTree.attach (ParseTree.relink t _ _ _) _ _ _)
      (ParseTree.outline_withCall _ _ _ _)
  refine ⟨calm.at_state target, rfl, ?_, ?_, ?_, p'.tree.size, wrapped.context, ?_⟩
  · exact wrapped.precedences.trans (fares.precedences.trans h.precedences)
  · exact wrapped.recursions.trans (fares.recursions.trans h.recursions)
  · exact wrapped.depth.trans (fares.depth.trans h.depth)
  · have size : p'.tree.size = p.tree.outline.size := by rw [← outline, ParseTree.size_outline]
    rw [drawn, size]
    exact grows.wrap start

/-- The call ends. -/
theorem leave (h : base.Amid a c i rule level p q ts ds) (caller : base.Poised a c i ts')
    (build : u.options.buildTrees = true)
    (recursive : u.grammar.network.isLeftRecursiveRule rule = true)
    (stops : ∃ s ∈ u.grammar.network.states[q]?, s.isRuleStop = true ∧ s.rule = rule)
    (follows : u.grammar.network.followState? i = some follow) :
    Reaches u lr root p 1 (base.Derives a c · follow ts [.rule rule ds]) := by
  obtain ⟨d, context, grows⟩ := h.grows
  obtain ⟨s, here, stop, rfl⟩ := stops
  obtain rfl := h.state
  have inner : ¬ p.AtRoot := by
    have link := grows.link?
    rw [ParseTree.link?_outline] at link
    rw [Parser.AtRoot, context, Option.bind_some, link, Option.bind_some]
    exact Option.some_ne_none i
  refine .leave here stop inner ?_
  refine (Parsing.visitRuleStop_fares (a := a) recursive h.recursions follows).imp
    (fun _ p' fares => .here ?_) fun _ _ => id
  have back : { p.unwrapped u (some c) with state := follow }.Calm a ts := h.of_eq rfl rfl rfl rfl
  have calm := back.still fares
  have grafts := fares.grafts build
  rw [ParseTree.graft_nil] at grafts
  have gains := grows.close (Nat.lt_of_lt_of_eq caller.known (ParseTree.size_outline _).symm)
  have drawn : p'.tree.outline
      = (p.tree.outline.setParent d (some c)).attach true (some c) d := by
    rw [grafts]
    simp only [Parser.unwrapped, context, build]
    rw [ParseTree.outline_attach, ParseTree.outline_setParent]
  rw [← drawn] at gains
  refine ⟨⟨calm, fares.state, fares.context, ?_⟩, ?_, ?_, ?_, gains⟩
  · have size := gains.size
    rw [ParseTree.size_outline, ParseTree.size_outline] at size
    exact Nat.lt_of_lt_of_le caller.known size
  · exact fares.precedences.trans (congrArg List.tail h.precedences)
  · exact fares.recursions.trans (congrArg List.tail h.recursions)
  · exact fares.depth.trans (congrArg (· - 1) h.depth)

end Amid

/-- A call of a left-recursive rule, from its first state to its last one. -/
theorem Poised.call (h : p.Poised a c i ts) (build : u.options.buildTrees = true)
    (recursive : u.grammar.network.isLeftRecursiveRule rule = true)
    (goes : u.grammar.network.Goes i (.call target rule level follow))
    (callee : ∃ s ∈ u.grammar.network.states[target]?, s.rule = rule)
    (stops : ∃ s ∈ u.grammar.network.states[stop]?, s.isRuleStop = true ∧ s.rule = rule)
    (follows : u.grammar.network.followState? i = some follow)
    (room : p.depth < u.options.maxDepth)
    (body : ∀ p', p.Amid a c i rule level p' target ts [] →
      Reaches u lr root p' k (p.Amid a c i rule level · stop ts' ds)) :
    Reaches u lr root p (k + 2) (p.Derives a c · follow ts' [.rule rule ds]) := by
  refine .cross (h.state.symm ▸ goes) fun s _ => ?_
  obtain ⟨callee, known, rfl⟩ := callee
  refine (Parsing.takeEdge_call (a := a) known room).imp (fun _ p' fares => ?_) fun _ _ => id
  rw [h.state] at fares
  refine (body _ (.entered h build recursive fares)).trans (fun p'' amid => ?_) (Nat.le_refl _)
  exact amid.leave h build recursive stops follows

end Parser

/-! ### Whole parses -/

namespace Parsing

/-- The start rule is entered with a new tree. -/
theorem enter_poised {start : Nat} (build : u.options.buildTrees = true)
    (plain : u.grammar.network.isLeftRecursiveRule rule = false)
    (starts : u.grammar.network.ruleStarts[rule]? = some start)
    (room : p.depth < u.options.maxDepth) (fresh : p.tree = {}) (calm : p.Calm a ts) :
    (enter u rule).Ensures p (fun r p' => r = 0 ∧ p'.Poised a 0 start ts ∧
      p'.depth = p.depth + 1 ∧ p'.tree.outline.node? 0 = some (.rule { rule }))
      fun _ _ => False := by
  refine (enter_fares (a := a) starts room).imp ?_ fun _ _ => id
  rintro _ p' ⟨rfl, fares⟩
  let entered : Parser σ τ := { p with
    tree := ({} : ParseTree).withCall rule none none, state := start, context := some 0
    depth := p.depth + 1 }
  have same : p.entered u none none rule start 0 = entered := by
    rw [Parser.entered, if_neg (by simp [plain]), fresh]
    rfl
  rw [same] at fares
  have grafts := fares.grafts build
  rw [ParseTree.graft_nil, ParseTree.outline_withCall] at grafts
  have calm : entered.Calm a ts := calm.of_eq rfl rfl rfl rfl
  have calm := calm.still fares
  refine ⟨by rw [fresh]; rfl, ⟨calm, fares.state, fares.context, fares.keeps.size⟩, fares.depth, ?_⟩
  have blank : ({} : ParseTree).outline = {} := by simp [ParseTree.outline]
  rw [grafts, blank]
  exact (ParseTree.node?_push _ _ 0).trans (if_pos rfl)

/-- The start rule ends with the tree complete. -/
theorem visitStates_complete (build : u.options.buildTrees = true)
    (begun : p.tree.outline.node? root = some (.rule { rule }))
    (derives : p.Derives a root p' stop [] ds)
    (stops : ∃ s ∈ u.grammar.network.states[stop]?, s.isRuleStop = true) (fuel : Nat) :
    (visitStates u false root (fuel + 1)).Ensures p' (fun answer p'' => answer = root ∧
      p''.errorCount = 0 ∧ p''.tree.DrawsFrom root rule ds) fun _ _ => False := by
  obtain ⟨s, here, stop⟩ := stops
  obtain ⟨cs, ids, grown, draws, -⟩ := derives.gains.new _ begun
  have outermost : p'.AtRoot := by
    rw [Parser.AtRoot, derives.context, Option.bind_some, ← ParseTree.link?_outline,
      ParseTree.link?_eq_some.2 ⟨_, grown, rfl⟩]
    rfl
  refine (visitStates_concludes (a := a) (derives.state.symm ▸ here) stop outermost fuel).imp
    ?_ fun _ _ => id
  rintro _ p'' ⟨rfl, fares⟩
  rw [Parser.left_of_some derives.context] at fares
  refine ⟨rfl, fares.count.trans derives.errors, .of_outline ?_⟩
  rw [fares.grafts build, ParseTree.graft_nil]
  exact ⟨_, ids, grown, rfl, rfl, by simpa using draws⟩

/-- A parse with a start rule that is not left-recursive, from its first state to its last one. -/
theorem parse_derives {start : Nat} {P : List Derivation → Prop}
    (build : u.options.buildTrees = true)
    (plain : u.grammar.network.isLeftRecursiveRule rule = false)
    (starts : u.grammar.network.ruleStarts[rule]? = some start)
    (stops : ∃ s ∈ u.grammar.network.states[stop]?, s.isRuleStop = true)
    (room : p.depth < u.options.maxDepth) (fresh : p.tree = {}) (calm : p.Calm a ts)
    (body : ∀ p' : Parser σ τ, p'.Poised a 0 start ts → p'.depth = p.depth + 1 →
      Reaches u false 0 p' k fun p'' => ∃ ds, P ds ∧ p'.Derives a 0 p'' stop [] ds)
    (enough : k < u.fuel) :
    (parse u rule).Ensures p (fun r p' => r = 0 ∧ p'.errorCount = 0 ∧
      ∃ ds, P ds ∧ p'.tree.DrawsFrom 0 rule ds) fun _ _ => False := by
  rw [parse_eq, plain]
  refine .bind ((enter_poised build plain starts room fresh calm).imp ?_ fun _ _ => id)
  rintro _ p' ⟨rfl, poised, depth, begun⟩
  obtain ⟨j, le, p'', ⟨ds, holds, derives⟩, runs⟩ := body p' poised depth
  obtain ⟨fuel, same⟩ : ∃ fuel, u.fuel = fuel + 1 + j := ⟨u.fuel - j - 1, by omega⟩
  have completes := visitStates_complete build begun derives stops fuel
  rw [same, Step.Ensures, runs]
  refine Step.Ensures.imp completes ?_ fun _ _ => id
  rintro _ last ⟨rfl, errors, drawn⟩
  exact ⟨rfl, errors, ds, holds, drawn⟩

end Parsing

end AdaptiveLL
