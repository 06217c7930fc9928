import AdaptiveLL.Grammar.Samples
import AdaptiveLL.Proofs.Network.Verified
/-!
What the networks of grammars in EBNF are marked with. Blocks and loops know their partners; and the
decisions on precedence are the loops that were built for the operators of left-recursive rules,
though they are recognized by their edges alone when a network is assembled.
-/
namespace AdaptiveLL

namespace Network

/-- The state is the start of a block with the given end. -/
def Opens (n : Network) (start stop : Nat) : Prop :=
  ∃ s shape, n.states[start]? = some s ∧ s.kind = .blockStart shape stop

/-- A state of the kind has an edge to `q`. -/
def LoopsTo (n : Network) (kind : StateKind) (back q : Nat) : Prop :=
  ∃ s, n.states[back]? = some s ∧ s.kind = kind ∧ ∃ t ∈ s.transitions, t.target = q

/-- A block end knows its block start; a plus block and a star loop entry know the loop-back state
that leads back to them. There is one of each. -/
structure Partnered (n : Network) : Prop where
  blockEnd : ∀ (q : Nat) (s : State), n.states[q]? = some s → s.kind = .blockEnd →
    ∃ start, s.partner = some start ∧ ∀ x, n.Opens x q ↔ x = start
  plus : ∀ (q stop : Nat) (s : State), n.states[q]? = some s → s.kind = .blockStart .plus stop →
    ∃ back, s.partner = some back ∧ ∀ x, n.LoopsTo .plusLoopBack x q ↔ x = back
  entry : ∀ (q : Nat) (s : State), n.states[q]? = some s → s.kind = .starLoopEntry →
    ∃ back, s.partner = some back ∧ ∀ x, n.LoopsTo .starLoopBack x q ↔ x = back

end Network

namespace Builder

/-- The entry of the loop that is built for the operators of a left-recursive body. -/
def operatorLoop? (b : Builder) : Element → Option Nat
  | .leftRecursive primaries levels suffixes =>
      let (first, b) := b.elements primaries
      let (rest, b) := b.elements suffixes
      let (_, b) := b.alternatives first
      let (guarded, b) := b.guard (levels.zip rest)
      some (b.star true guarded).1.entry
  | _ => none

/-- The exit of a left-recursive body is that of its loop, which is greedy. -/
theorem of_operatorLoop? {b : Builder} {e : Element} {q : Nat}
    (found : b.operatorLoop? e = some q) :
    (b.element e).1.exit = q + 1 ∧ ∃ s, (b.element e).2.states[q]? = some s ∧
      s.rule = b.currentRule ∧ s.kind = .starLoopEntry ∧ s.nonGreedy = false := by
  cases e with
  | leftRecursive primaries levels suffixes =>
      rw [element]
      have first := b.elements_fresh primaries
      have second := elements_fresh (b.elements primaries).2 suffixes
      rcases firsts : b.elements primaries with ⟨fs, b₁⟩
      rcases seconds : b₁.elements suffixes with ⟨gs, b₂⟩
      rcases bases : b₂.alternatives fs with ⟨primary, b₃⟩
      rcases guards : b₃.guard (levels.zip gs) with ⟨guarded, b₄⟩
      rcases loops : b₄.star true guarded with ⟨loop, b₅⟩
      simp only [operatorLoop?, firsts, seconds, bases, guards, loops, Option.some.injEq] at found
      subst found
      rw [firsts] at first second
      rw [seconds] at second
      have pending : Fresh b b₂ (fs ++ ((levels.zip gs).map Prod.snd ++ [])) := by
        refine (first.append second).subperm ?_
        rw [List.append_nil]
        exact (List.subperm_append_left _).2 (map_snd_zip_sublist levels _).subperm
      have based := alternatives_fresh pending
      rw [bases] at based
      have guarding := guard_fresh (based.subperm List.perm_middle.subperm)
      rw [guards] at guarding
      obtain ⟨fragment, joins⟩ := star_joins true (exits_lt guarding)
      rw [loops] at fragment joins
      obtain rfl : loop = _ := fragment
      simp only [seconds, leftRecursive, bases, guards, loops, sequence, chain, addPlain,
        addTransition]
      have below : primary.exit < b₄.states.size :=
        guarding.lt primary (List.mem_append_right _ (.head _))
      have entered : b₅.states[b₄.states.size + 3]? = some (b₄.plan .starLoopEntry
          ((branches true (b₄.states.size + 1) (b₄.states.size + 4)).map .plain) false) :=
        joins.new 3
      rw [Array.getElem?_modify, if_neg (by omega)]
      exact ⟨trivial, _, entered, guarding.currentRule, rfl, rfl⟩
  | _ => cases found

end Builder

namespace RuleSet

open Assembly

variable {g : RuleSet} {q : Nat} {p : StatePlan} {returns : List (Nat × Transition)}

/-- The rule is declared as left-recursive. -/
def isLeftRecursive (g : RuleSet) (rule : Nat) : Bool :=
  (g.rules[rule]?.map RuleDecl.leftRecursive).getD false

/-- The entries of the operator loops of the left-recursive rules. -/
def operatorLoops (g : RuleSet) : List Nat :=
  (g.declared.stages g.definitions).filterMap fun (b, rule, body) =>
    if g.isLeftRecursive rule then { b with currentRule := rule }.operatorLoop? body else none

theorem getElem?_numbered_builder (b : Builder) (q : Nat) : (numbered b.blueprint returns)[q]?
    = b.states[q]?.map (derived b.blueprint returns q) := by
  rw [getElem?_derived, getElem?_blueprint]

theorem isRuleStop_iff (returns : List (Nat × Transition)) {b : Builder} :
    (((numbered b.blueprint returns)[q]?).map State.isRuleStop).getD false = true ↔
      b.IsKind q .ruleStop := by
  rw [getElem?_numbered_builder, Builder.IsKind]
  cases b.states[q]? <;> simp [State.isRuleStop, derived, arrived]

namespace Complete

variable (h : g.Complete) (calls : returnEdges (written g.builder.blueprint)
  (starts g.builder.blueprint) ((List.range g.rules.length).map (2 * ·)).toArray = .ok returns)
include h calls

omit calls in
/-- The start of a rule tells whether the rule is left-recursive. -/
theorem isLeftRecursive_start (returns : List (Nat × Transition)) (rule : Nat) :
    ((starts g.builder.blueprint)[rule]?.bind ((numbered g.builder.blueprint returns)[·]?)
      |>.map State.isLeftRecursiveStart |>.getD false) = g.isLeftRecursive rule := by
  rw [starts_blueprint]
  cases here : g.rules[rule]? with
  | none =>
      have beyond : g.builder.ruleStarts[rule]? = none := by
        rw [Array.getElem?_eq_none_iff, h.size_ruleStarts]
        exact List.getElem?_eq_none_iff.1 here
      simp [beyond, isLeftRecursive, here]
  | some d =>
      obtain ⟨start, -, s, here', -, kind⟩ := h.declared here
      simp [start, getElem?_numbered_builder, here', isLeftRecursive, here, derived, arrived,
        State.isLeftRecursiveStart, kind]

/-- How operator loops are recognized. -/
theorem isOperatorLoop_iff (here : g.builder.states[q]? = some p) :
    isOperatorLoop (numbered g.builder.blueprint returns) (starts g.builder.blueprint)
        (derived g.builder.blueprint returns q p) = true ↔
      p.kind = .starLoopEntry ∧ g.isLeftRecursive p.rule = true ∧ p.nonGreedy = false ∧
        ∃ e target, g.builder.states[q + 1]? = some e ∧ e.transitions = [.plain target] ∧
          g.builder.IsKind target .ruleStop := by
  have edges {q : Nat} {p : StatePlan} (here : g.builder.states[q]? = some p)
      (going : p.kind ≠ .ruleStop) :
      (derived g.builder.blueprint returns q p).transitions = p.transitions :=
    h.arrived_transitions calls here going
  by_cases kind : p.kind = .starLoopEntry
  case neg => simp [isOperatorLoop, State.isStarLoopEntry, derived, arrived, kind]
  have shaped := h.shapely.shaped q p here
  simp only [Builder.IsShaped, kind] at shaped
  obtain ⟨stop, rfl, ⟨s, starts, kind_s⟩, -, ⟨e, leaves, kind_e⟩, -, branches⟩ := shaped
  simp only [isOperatorLoop, Bool.and_eq_true, and_assoc]
  refine and_congr (by simp [State.isStarLoopEntry, derived, arrived]) ?_
  refine and_congr (by rw [← h.isLeftRecursive_start returns]; rfl) ?_
  rw [edges here (by simp [kind]), branches]
  cases p.nonGreedy with
  | true =>
      -- The last edge leads into the block.
      simp [Builder.branches, Transition.plain, Transition.target, getElem?_numbered_builder,
        starts, State.isLoopEnd, derived, arrived, kind_s]
  | false =>
      have shaped := h.shapely.shaped (stop + 4) e leaves
      simp only [Builder.IsShaped, kind_e] at shaped
      obtain ⟨⟨one, targets, plain⟩, -⟩ := shaped
      have edges_e := edges leaves (by simp [kind_e])
      rw [plain] at edges_e one
      have exit : State.isLoopEnd (derived g.builder.blueprint returns (stop + 4) e) = true := by
        simp [State.isLoopEnd, derived, arrived, kind_e]
      rcases targets with _ | ⟨target, _ | ⟨other, targets⟩⟩
      · simp [Builder.branches, Transition.plain, Transition.target, getElem?_numbered_builder,
          leaves, exit, State.isEpsilonOnly, edges_e, plain]
      · simp [Builder.branches, Transition.plain, Transition.target, getElem?_numbered_builder,
          leaves, exit, State.isEpsilonOnly, edges_e, plain, Transition.isEpsilon,
          ← isRuleStop_iff returns]
      · simp at one

end Complete

/-- The bodies of left-recursive rules are left-recursive. -/
def Climbs (g : RuleSet) : Prop :=
  ∀ d ∈ g.definitions, g.isLeftRecursive d.1 = true →
    ∃ primaries levels suffixes, d.2 = .leftRecursive primaries levels suffixes

namespace Complete

variable (h : g.Complete)
include h

/-- An operator loop stands in front of the exit of the body of its rule, and is greedy. -/
theorem of_mem_operatorLoops (mem : q ∈ g.operatorLoops) : ∃ s e rule,
    g.builder.states[q]? = some s ∧ s.rule = rule ∧ s.kind = .starLoopEntry ∧
      s.nonGreedy = false ∧ g.isLeftRecursive rule = true ∧ g.builder.states[q + 1]? = some e ∧
        e.transitions = [.plain (2 * rule)] := by
  obtain ⟨⟨b₀, rule, body⟩, stage, found⟩ := List.mem_filterMap.1 mem
  dsimp only at found
  split at found
  case isFalse => cases found
  case isTrue recursive =>
    obtain ⟨exit, s, here, same, kind, greedy⟩ := Builder.of_operatorLoop? found
    obtain ⟨follows, -, e, here', -, edges⟩ := h.of_stage stage rfl
    have settled : s.Settled := ⟨by simp [kind], fun _ => by simp [kind, StateKind.takesEdge]⟩
    exact ⟨s, e, rule, follows.settles q s here settled, same, kind, greedy, recursive,
      exit ▸ here', edges⟩

/-- The loops that are recognized are those that were built for operators. -/
theorem isOperatorLoop_iff_mem (climbs : g.Climbs)
    (calls : returnEdges (written g.builder.blueprint) (starts g.builder.blueprint)
      ((List.range g.rules.length).map (2 * ·)).toArray = .ok returns)
    (here : g.builder.states[q]? = some p) :
    isOperatorLoop (numbered g.builder.blueprint returns) (starts g.builder.blueprint)
        (derived g.builder.blueprint returns q p) = true ↔ q ∈ g.operatorLoops := by
  rw [h.isOperatorLoop_iff calls here]
  constructor
  · rintro ⟨kind, recursive, greedy, e, target, here', edges, stop⟩
    have shaped := h.shapely.shaped q p here
    simp only [Builder.IsShaped, kind, greedy] at shaped
    obtain ⟨first, rfl, -, -, ⟨e', leaves, kind_e⟩, -, branches⟩ := shaped
    obtain rfl := Option.some.inj (here'.symm.trans leaves)
    obtain ⟨b₀, rule, body, stage, rfl, exit⟩ :=
      h.shapely.exits (first + 4) target (first + 2) e here' kind_e (edges ▸ .head _) stop
    have defined := Builder.mem_of_mem_stages stage
    -- All edges on the way from the loop to the stop stay in the rule.
    have same : p.rule = rule := by
      have leaving : .plain (first + 4) ∈ p.transitions := by simp [branches, Builder.branches]
      have ending : .plain (2 * rule) ∈ e.transitions := by simp [edges]
      obtain ⟨s₁, here₁, same₁, -⟩ := g.tidy.leads here leaving (by simp [kind])
      obtain ⟨s₂, here₂, same₂, -⟩ := g.tidy.leads here' ending (by simp [kind_e])
      obtain ⟨-, ⟨s₃, here₃, same₃, -⟩, -⟩ :=
        h.declared (List.getElem?_eq_getElem (h.lt_of_mem defined))
      obtain rfl := Option.some.inj (here'.symm.trans here₁)
      obtain rfl := Option.some.inj (here₂.symm.trans here₃)
      exact same₁.symm.trans (same₂.symm.trans same₃)
    subst same
    obtain ⟨primaries, levels, suffixes, rfl⟩ := climbs _ defined recursive
    refine List.mem_filterMap.2 ⟨_, stage, ?_⟩
    obtain ⟨q, found⟩ : ∃ q, Builder.operatorLoop? { b₀ with currentRule := p.rule }
        (.leftRecursive primaries levels suffixes) = some q := ⟨_, rfl⟩
    have last := (Builder.of_operatorLoop? found).1
    have same : q = first + 3 := by omega
    simp [recursive, found, same]
  · intro mem
    obtain ⟨s, e, rule, here', rfl, kind, greedy, recursive, after, edges⟩ :=
      h.of_mem_operatorLoops mem
    obtain rfl := Option.some.inj (here.symm.trans here')
    refine ⟨kind, recursive, greedy, e, _, after, edges, ?_⟩
    have known : p.rule < g.rules.length := by
      rw [← h.size_ruleStarts]
      exact g.tidy.rules here (by simp [kind])
    obtain ⟨-, ⟨s, stop, -, kind⟩, -⟩ := h.declared (List.getElem?_eq_getElem known)
    exact ⟨s, stop, kind⟩

/-- Blocks and loops of the finished network know their partners. -/
theorem partnered (calls : returnEdges (written g.builder.blueprint) (starts g.builder.blueprint)
      ((List.range g.rules.length).map (2 * ·)).toArray = .ok returns) (kind : GrammarKind)
    (stops : List Nat) : (network g.builder.blueprint returns kind stops).Partnered := by
  have state {q : Nat} {s : State} : (network g.builder.blueprint returns kind stops).states[q]?
      = some s ↔ ∃ p, g.builder.states[q]? = some p ∧ { derived g.builder.blueprint returns q p with
        precedenceLoop := isOperatorLoop (numbered g.builder.blueprint returns)
          (starts g.builder.blueprint) (derived g.builder.blueprint returns q p) } = s := by
    rw [network, getElem?_finished, getElem?_blueprint, Option.map_eq_some_iff]
  have opens {x q : Nat} : (network g.builder.blueprint returns kind stops).Opens x q ↔
      ∃ shape, g.builder.IsKind x (.blockStart shape q) := by
    constructor
    · rintro ⟨s, shape, here, same⟩
      obtain ⟨p, planned, rfl⟩ := state.1 here
      exact ⟨shape, p, planned, same⟩
    · rintro ⟨shape, p, planned, same⟩
      exact ⟨_, shape, state.2 ⟨p, planned, rfl⟩, same⟩
  have loops (k : StateKind) {x q : Nat} (going : k ≠ .ruleStop) :
      (network g.builder.blueprint returns kind stops).LoopsTo k x q ↔ g.builder.LoopsTo k x q := by
    constructor
    · rintro ⟨s, here, same, t, mem, target⟩
      obtain ⟨p, planned, rfl⟩ := state.1 here
      have same : p.kind = k := same
      have edges := h.arrived_transitions calls planned (same ▸ going)
      exact ⟨p, planned, same, t, edges ▸ mem, target⟩
    · rintro ⟨p, planned, same, t, mem, target⟩
      have edges := h.arrived_transitions calls planned (same ▸ going)
      exact ⟨_, state.2 ⟨p, planned, rfl⟩, same, t, edges ▸ mem, target⟩
  constructor
  case blockEnd =>
    intro q s here same
    obtain ⟨p, planned, rfl⟩ := state.1 here
    refine ⟨q + 1, h.partner_blockEnd calls ⟨p, planned, same⟩, fun x => ?_⟩
    rw [opens]
    exact h.opens_iff ⟨p, planned, same⟩
  case plus =>
    intro q stop s here same
    obtain ⟨p, planned, rfl⟩ := state.1 here
    refine ⟨q + 1, h.partner_plus calls ⟨p, planned, same⟩, fun x => ?_⟩
    rw [loops .plusLoopBack (by simp)]
    exact h.loopsTo_plus ⟨p, planned, same⟩
  case entry =>
    intro q s here same
    obtain ⟨p, planned, rfl⟩ := state.1 here
    have shaped := h.shapely.shaped q p planned
    simp only [Builder.IsShaped, show p.kind = .starLoopEntry from same] at shaped
    obtain ⟨stop, rfl, -⟩ := shaped
    refine ⟨stop + 2, h.partner_entry calls ⟨p, planned, same⟩, fun x => ?_⟩
    rw [loops .starLoopBack (by simp), h.loopsTo_entry ⟨p, planned, same⟩]
    omega

end Complete

/-- Complete rules are built into a network that passes every check. Its blocks and loops know their
partners, and the decisions on precedence are the operator loops of the left-recursive rules. -/
theorem exists_build (h : g.Complete) (climbs : g.Climbs) : ∃ n, g.build = .ok n ∧ n.Partnered ∧
    ∀ q, (∃ s, n.states[q]? = some s ∧ s.precedenceLoop = true) ↔ q ∈ g.operatorLoops := by
  obtain ⟨returns, calls⟩ := h.exists_returns
  refine ⟨_, h.build_eq_ok.2 ⟨returns, calls, rfl⟩, h.partnered calls _ _, fun q => ?_⟩
  simp only [network, getElem?_finished, getElem?_blueprint, Option.map_eq_some_iff]
  constructor
  · rintro ⟨_, ⟨p, planned, rfl⟩, marked⟩
    exact (h.isOperatorLoop_iff_mem climbs calls planned).1 marked
  · intro mem
    obtain ⟨p, _, _, planned, -⟩ := h.of_mem_operatorLoops mem
    exact ⟨_, ⟨p, planned, rfl⟩, (h.isOperatorLoop_iff_mem climbs calls planned).2 mem⟩

/-- The sample grammar of expressions is complete, and its second rule has operators. -/
theorem exists_build_expression :
    (Samples.expression.rules.Complete ∧ Samples.expression.rules.Climbs) ∧
      ∃ n, Samples.expression.rules.build = .ok n ∧ n.Partnered ∧
        ∀ q, (∃ s, n.states[q]? = some s ∧ s.precedenceLoop = true) ↔
          q ∈ Samples.expression.rules.operatorLoops := by
  have complete : Samples.expression.rules.Complete := by
    constructor
    · decide
    · simp [definitions, Samples.expression, Element.Formed]
  have climbs : Samples.expression.rules.Climbs := by
    simp [Climbs, definitions, Samples.expression, isLeftRecursive]
  exact ⟨⟨complete, climbs⟩, exists_build complete climbs⟩

end RuleSet

end AdaptiveLL
