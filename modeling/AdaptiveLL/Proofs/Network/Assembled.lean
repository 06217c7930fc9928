import AdaptiveLL.Grammar.Samples
import AdaptiveLL.Proofs.Network.WellFormed
/-!
What is in an assembled network: the states that were written down, each with the edges that
were written down for it, but for the edges back to the callers at the stops of the rules. A
decision has the number under which it is listed.

What is written down of a network leaves out everything that is derived, and assembling derives the
same from it: the network that comes back is the one that was written down
(`Network.assemble_blueprint`).
-/
namespace AdaptiveLL

/-- A network holds the states of a blueprint, with their decisions numbered. -/
structure Network.Holds (n : Network) (plan : Blueprint) : Prop where
  state : ∀ {q : Nat} {s : State}, n.states[q]? = some s → ∃ s₀, plan.states[q]? = some s₀ ∧
    s.rule = s₀.rule ∧ s.kind = s₀.kind ∧ (s.isRuleStop = false → s.transitions = s₀.transitions)
  size : n.states.size = plan.states.length
  starts : n.ruleStarts = (plan.rules.map RulePlan.start).toArray
  decisions : n.decisions = plan.decisions.toArray
  decision : ∀ {q d : Nat} {s : State}, n.states[q]? = some s → s.decision = some d →
    n.decisions[d]? = some q
  numbered : ∀ {q : Nat} {s : State}, n.states[q]? = some s → s.isDecision = true →
    1 < s.transitions.length → s.decision ≠ none
  branching : ∀ {q : Nat} {s : State}, n.states[q]? = some s → 1 < s.transitions.length →
    s.isDecision = true ∨ s.isRuleStop = true
  loop : ∀ {q : Nat} {s : State}, n.states[q]? = some s → s.precedenceLoop = true →
    n.isLeftRecursiveRule s.rule = true
  nonGreedy : ∀ {q : Nat} {s : State} {s₀ : StatePlan}, n.states[q]? = some s →
    plan.states[q]? = some s₀ → s.nonGreedy = s₀.nonGreedy
  maxToken : n.maxToken = plan.maxToken
  modes : n.modes = plan.modes.toArray
  actions : n.actions = plan.actions.toArray
  tokens : n.kind = .lexer → n.ruleTokens = (plan.rules.map fun r => r.tokenType.getD 0).toArray

namespace Assembly

/-- A state with derived parts: its rule, its kind, its greediness and, unless it is a stop, its
edges are those of the state that it was. -/
structure Derived (s₀ s : State) : Prop where
  rule : s.rule = s₀.rule
  kind : s.kind = s₀.kind
  nonGreedy : s.nonGreedy = s₀.nonGreedy
  edges : s.isRuleStop = false → s.transitions = s₀.transitions

theorem Derived.refl (s : State) : Derived s s := ⟨rfl, rfl, rfl, fun _ => rfl⟩

theorem Derived.trans {s₀ s₁ s₂ : State} (first : Derived s₀ s₁) (second : Derived s₁ s₂) :
    Derived s₀ s₂ where
  rule := second.rule.trans first.rule
  kind := second.kind.trans first.kind
  nonGreedy := second.nonGreedy.trans first.nonGreedy
  edges going := by
    have going₁ : s₁.isRuleStop = false := by rwa [State.isRuleStop, ← second.kind]
    exact (second.edges going).trans (first.edges going₁)

/-- Every state is derived from the one that was in its place. -/
def Derives (old new : Array State) : Prop :=
  new.size = old.size ∧
    ∀ {q : Nat} {s : State}, new[q]? = some s → ∃ s₀, old[q]? = some s₀ ∧ Derived s₀ s

namespace Derives

variable {old new last : Array State}

theorem refl (states : Array State) : Derives states states :=
  ⟨rfl, fun h => ⟨_, h, .refl _⟩⟩

theorem trans (first : Derives old new) (second : Derives new last) : Derives old last := by
  refine ⟨second.1.trans first.1, fun {q s} here => ?_⟩
  obtain ⟨s₁, here₁, derived₁⟩ := second.2 here
  obtain ⟨s₀, here₀, derived₀⟩ := first.2 here₁
  exact ⟨s₀, here₀, derived₀.trans derived₁⟩

theorem modify (states : Array State) (i : Nat) (f : State → State)
    (derived : ∀ s, states[i]? = some s → Derived s (f s)) : Derives states (states.modify i f) := by
  refine ⟨Array.size_modify, fun {q s} here => ?_⟩
  rw [Array.getElem?_modify] at here
  split at here
  case isTrue same =>
      subst same
      obtain ⟨s₀, here₀, rfl⟩ := Option.map_eq_some_iff.1 here
      exact ⟨s₀, here₀, derived s₀ here₀⟩
  case isFalse => exact ⟨s, here, .refl s⟩

theorem foldl {α : Type} (f : Array State → α → Array State) (xs : List α)
    (step : ∀ new x, x ∈ xs → Derives old new → Derives new (f new x)) (h : Derives old new) :
    Derives old (xs.foldl f new) := by
  induction xs generalizing new with
  | nil => exact h
  | cons x xs ih =>
      exact ih (fun new y hy => step new y (.tail _ hy)) (h.trans (step new x (.head _) h))

theorem map (states : Array State) (f : State → State) (derived : ∀ s, Derived s (f s)) :
    Derives states (states.map f) := by
  refine ⟨Array.size_map, fun {q s} here => ?_⟩
  rw [Array.getElem?_map] at here
  obtain ⟨s₀, here₀, rfl⟩ := Option.map_eq_some_iff.1 here
  exact ⟨s₀, here₀, derived s₀⟩

/-- The new form of an old state. -/
theorem get (h : Derives old new) {q : Nat} {s₀ : State} (here : old[q]? = some s₀) :
    ∃ s, new[q]? = some s ∧ Derived s₀ s := by
  have lt : q < new.size := h.1 ▸ (Array.getElem?_eq_some_iff.1 here).1
  obtain ⟨s₁, here₁, derived⟩ := h.2 (Array.getElem?_eq_getElem lt)
  obtain rfl : s₁ = s₀ := Option.some.inj (here₁.symm.trans here)
  exact ⟨_, Array.getElem?_eq_getElem lt, derived⟩

/-- A start of a left-recursive rule stays one. -/
theorem isLeftRecursiveStart (h : Derives old new) (q : Nat) :
    (new[q]?.map State.isLeftRecursiveStart).getD false
      = (old[q]?.map State.isLeftRecursiveStart).getD false := by
  cases here : old[q]? with
  | none =>
      have beyond := Array.getElem?_eq_none_iff.1 here
      rw [Array.getElem?_eq_none_iff.2 (h.1 ▸ beyond)]
  | some s₀ =>
      obtain ⟨s, here', derived⟩ := h.get here
      simp [here', State.isLeftRecursiveStart, derived.kind]

/-- The rule whose start is a start of a left-recursive rule is one. -/
theorem leftRecursive_of_start {n : Network} (h : Derives old n.states) (rule : Nat)
    (recursive : ((n.ruleStarts[rule]?.bind (old[·]?)).map State.isLeftRecursiveStart).getD false
      = true) : n.isLeftRecursiveRule rule = true := by
  unfold Network.isLeftRecursiveRule
  cases start : n.ruleStarts[rule]? with
  | none => simp [start] at recursive
  | some q =>
      rw [start, Option.bind_some, ← h.isLeftRecursiveStart] at recursive
      rw [Option.bind_eq_bind, Option.bind_some]
      cases here : n.states[q]? with
      | none => simp [here] at recursive
      | some s => simpa [here] using recursive

end Derives

/-- Every decision number of a state is one under which the state is listed. -/
def Listed (decisions : List Nat) (states : Array State) : Prop :=
  ∀ (q d : Nat) (s : State), states[q]? = some s → s.decision = some d → decisions[d]? = some q

namespace Listed

variable {decisions : List Nat} {states : Array State}

theorem modify (h : Listed decisions states) (i : Nat) (f : State → State)
    (listed : ∀ s d, (f s).decision = some d → s.decision = some d ∨ decisions[d]? = some i) :
    Listed decisions (states.modify i f) := by
  intro q d s here number
  rw [Array.getElem?_modify] at here
  split at here
  case isTrue same =>
      subst same
      obtain ⟨s₀, here₀, rfl⟩ := Option.map_eq_some_iff.1 here
      rcases listed s₀ d number with number | listed
      · exact h _ _ _ here₀ number
      · exact listed
  case isFalse => exact h _ _ _ here number

theorem foldl {α : Type} (f : Array State → α → Array State) (xs : List α)
    (step : ∀ new x, x ∈ xs → Listed decisions new → Listed decisions (f new x))
    (h : Listed decisions states) : Listed decisions (xs.foldl f states) := by
  induction xs generalizing states with
  | nil => exact h
  | cons x xs ih => exact ih (fun new y hy => step new y (.tail _ hy)) (step _ x (.head _) h)

end Listed

/-- Return edges leave the stops of rules. -/
theorem returnEdges_stop {states : Array State} {starts stops : Array Nat}
    {edges : List (Nat × Transition)} (h : returnEdges states starts stops = .ok edges)
    {e : Nat × Transition} (mem : e ∈ edges) : e.1 ∈ stops := by
  obtain ⟨found, hfound, h⟩ := Except.bind_eq_ok.1 h
  obtain rfl := Except.ok.inj h
  obtain ⟨_, mem, rfl⟩ := List.mem_filterMap.1 mem
  obtain ⟨row, hrow, mem⟩ := List.mem_flatten.1 mem
  obtain ⟨⟨s, q⟩, -, hrow⟩ := exists_of_forall₂_right (Except.mapM_eq_ok hfound) hrow
  obtain ⟨t, -, hedge⟩ := exists_of_forall₂_right (Except.mapM_eq_ok hrow) mem
  unfold returnEdge at hedge
  split at hedge
  case h_2 => cases hedge
  case h_1 =>
      split at hedge
      case h_2 => cases hedge
      case h_1 stop _ hstop =>
          split at hedge
          case isTrue => cases hedge
          case isFalse =>
              cases Except.ok.inj hedge
              exact Array.mem_of_getElem? hstop

/-- A state with several edges that passes the check is a numbered decision or a stop. -/
theorem defect?_several {states : Array State} {s : State} (h : defect? states s = none)
    (several : 1 < s.transitions.length) :
    (s.isDecision = true → s.decision ≠ none) ∧ (s.isDecision = true ∨ s.isRuleStop = true) := by
  unfold defect? at h
  rw [State.isDecision]
  simp only [several, decide_true, Bool.and_true, Bool.true_and] at h
  split at h
  case isTrue => cases h
  case isFalse =>
      split at h
      case h_1 => cases h
      case h_2 =>
          split at h
          case isTrue decides =>
              refine ⟨fun _ unnumbered => ?_, .inl decides⟩
              simp [unnumbered] at h
          case isFalse ordinary =>
              refine ⟨fun decides => absurd decides ordinary, .inr ?_⟩
              simpa using h

end Assembly

open Assembly in
/-- An assembled network holds the states of its blueprint. -/
theorem Network.holds_of_assemble {kind : GrammarKind} {plan : Blueprint} {n : Network}
    (h : Network.assemble kind plan = .ok n) : n.Holds plan := by
  unfold Network.assemble at h
  extract_lets written count starts at h
  obtain ⟨⟨⟩, -, h⟩ := Except.bind_eq_ok.1 h
  obtain ⟨⟨⟩, -, h⟩ := Except.bind_eq_ok.1 h
  obtain ⟨stops, hstops, h⟩ := Except.bind_eq_ok.1 h
  obtain ⟨returns, hreturns, h⟩ := Except.bind_eq_ok.1 h
  extract_lets returned paired decided final at h
  obtain ⟨⟨⟩, -, h⟩ := Except.bind_eq_ok.1 h
  obtain ⟨⟨⟩, -, h⟩ := Except.bind_eq_ok.1 h
  obtain ⟨⟨⟩, verified, h⟩ := Except.bind_eq_ok.1 h
  have stop_kind {stop : Nat} (mem : stop ∈ stops) :
      ∃ s, written[stop]? = some s ∧ s.isRuleStop = true := by
    obtain ⟨_, -, each⟩ := exists_of_forall₂_right (Except.mapM_eq_ok hstops) mem
    obtain ⟨s, here, stop, -⟩ := stopOf_eq_ok each
    exact ⟨s, here, stop⟩
  have derived_returned : Derives written returned := by
    refine (Derives.refl written).foldl _ _ fun new e mem derives => ?_
    obtain ⟨s₀, here₀, stop⟩ := stop_kind (by simpa using returnEdges_stop hreturns mem)
    refine Derives.modify _ _ _ fun s here => ⟨rfl, rfl, rfl, fun going => ?_⟩
    obtain ⟨s₁, here₁, derived⟩ := derives.2 here
    rw [here₀] at here₁
    cases here₁
    simp only [State.isRuleStop, State.addLast, derived.kind] at going stop
    simp [stop] at going
  have derived_decided : Derives written decided := by
    have paired : Derives written paired := derived_returned.foldl _ _ fun _ _ _ _ =>
      Derives.modify _ _ _ fun _ _ => ⟨rfl, rfl, rfl, fun _ => rfl⟩
    exact paired.foldl _ _ fun _ _ _ _ => Derives.modify _ _ _ fun _ _ => ⟨rfl, rfl, rfl, fun _ => rfl⟩
  have last : Derives decided final := .map _ _ fun _ => ⟨rfl, rfl, rfl, fun _ => rfl⟩
  have derived : Derives written final := derived_decided.trans last
  have listed : Listed plan.decisions decided := by
    have unlisted : Listed plan.decisions written := fun q d s here number => by
      simp only [written, List.getElem?_toArray, List.getElem?_map, Option.map_eq_some_iff] at here
      obtain ⟨_, -, rfl⟩ := here
      cases number
    have returned : Listed plan.decisions returned := unlisted.foldl _ _ fun _ _ _ h =>
      h.modify _ _ fun _ _ => .inl
    have paired : Listed plan.decisions paired := returned.foldl _ _ fun _ _ _ h =>
      h.modify _ _ fun _ _ => .inl
    refine paired.foldl _ _ fun _ e mem h => h.modify _ _ fun _ _ number => .inr ?_
    cases number
    exact List.mem_zipIdx_iff_getElem?.1 mem
  obtain rfl := Except.ok.inj h
  constructor
  case state =>
    intro q s here
    obtain ⟨s₀, here₀, derived⟩ := derived.2 here
    simp only [written, List.getElem?_toArray, List.getElem?_map, Option.map_eq_some_iff] at here₀
    obtain ⟨s₀, here₀, rfl⟩ := here₀
    exact ⟨s₀, here₀, derived.rule, derived.kind, derived.edges⟩
  case nonGreedy =>
    intro q s s₀ here here₀
    obtain ⟨s₁, here₁, derived⟩ := derived.2 here
    simp only [written, List.getElem?_toArray, List.getElem?_map, here₀, Option.map_some,
      Option.some.injEq] at here₁
    rw [derived.nonGreedy, ← here₁]
  case maxToken => rfl
  case modes => rfl
  case actions => rfl
  case tokens => exact fun lexes => if_pos lexes
  case size => simpa [written] using derived.1
  case starts => rfl
  case decisions => rfl
  case decision =>
    intro q d s here number
    simp only [final, Array.getElem?_map, Option.map_eq_some_iff] at here
    obtain ⟨s₀, here₀, rfl⟩ := here
    simpa using listed _ _ _ here₀ number
  case numbered =>
    exact fun here decides several => (defect?_several (verify_eq_ok verified here) several).1 decides
  case branching =>
    exact fun here several => (defect?_several (verify_eq_ok verified here) several).2
  case loop =>
    intro q s here loop
    simp only [final, Array.getElem?_map, Option.map_eq_some_iff] at here
    obtain ⟨s₀, here₀, rfl⟩ := here
    simp only [isOperatorLoop, Bool.and_eq_true] at loop
    exact last.leftRecursive_of_start s₀.rule loop.1.2

namespace Blueprint

/-- The edges that leave the stops of rules are all left to assembling. -/
def StopsBare (plan : Blueprint) : Prop :=
  ∀ s ∈ plan.states, s.kind = .ruleStop → s.transitions = []

instance (plan : Blueprint) : Decidable plan.StopsBare :=
  inferInstanceAs (Decidable (∀ s ∈ plan.states, s.kind = .ruleStop → s.transitions = []))

/-- Two blueprints differ in nothing that assembling looks at. Only in a lexer are the types of
tokens looked at, and a rule without one has the type 0. -/
structure Alike (kind : GrammarKind) (plan plan' : Blueprint) : Prop where
  maxToken : plan.maxToken = plan'.maxToken
  states : plan.states = plan'.states
  starts : plan.rules.map RulePlan.start = plan'.rules.map RulePlan.start
  tokens : kind = .lexer → plan.rules.map (fun r => r.tokenType.getD 0)
    = plan'.rules.map fun r => r.tokenType.getD 0
  modes : plan.modes = plan'.modes
  decisions : plan.decisions = plan'.decisions
  actions : plan.actions = plan'.actions

theorem Alike.assemble {kind : GrammarKind} {plan plan' : Blueprint}
    (alike : Alike kind plan plan') :
    Network.assemble kind plan = Network.assemble kind plan' := by
  have tokens : (if kind = .lexer then (plan.rules.map fun r => r.tokenType.getD 0).toArray else #[])
      = if kind = .lexer then (plan'.rules.map fun r => r.tokenType.getD 0).toArray else #[] := by
    split
    case isTrue lexes => rw [alike.tokens lexes]
    case isFalse => rfl
  unfold Network.assemble
  rw [tokens, alike.maxToken, alike.states, alike.starts, alike.modes, alike.decisions,
    alike.actions]

end Blueprint

namespace Network

variable {kind : GrammarKind} {plan : Blueprint} {n : Network}

/-- The states are written down as they were planned. -/
theorem Holds.states_blueprint (h : n.Holds plan) (bare : plan.StopsBare) :
    n.blueprint.states = plan.states := by
  refine List.ext_getElem (by simp [blueprint, h.size]) fun q lt lt₀ => ?_
  have lt' : q < n.states.size := h.size ▸ lt₀
  have here : n.states[q]? = some n.states[q] := Array.getElem?_eq_getElem lt'
  have here₀ : plan.states[q]? = some plan.states[q] := List.getElem?_eq_getElem lt₀
  obtain ⟨s₀, found, rule, same, edges⟩ := h.state here
  obtain rfl : plan.states[q] = s₀ := Option.some.inj (here₀.symm.trans found)
  have nonGreedy := h.nonGreedy here here₀
  have transitions : (if n.states[q].isRuleStop then [] else n.states[q].transitions)
      = plan.states[q].transitions := by
    split
    case isTrue stop =>
        refine (bare _ (List.getElem_mem lt₀) ?_).symm
        simpa [State.isRuleStop, same] using stop
    case isFalse going => exact edges (Bool.eq_false_iff.2 going)
  simp only [blueprint, List.getElem_map, Array.getElem_toList, rule, same, nonGreedy, transitions]

/-- The rules are written down with their starts and, in a lexer, the types of their tokens. -/
theorem Holds.alike_blueprint (h : n.Holds plan) (bare : plan.StopsBare) :
    Blueprint.Alike n.kind n.blueprint plan where
  maxToken := h.maxToken
  states := h.states_blueprint bare
  starts := by
    refine List.ext_getElem? fun rule => ?_
    simp [blueprint, h.starts, Function.comp_def]
  tokens lexes := by
    refine List.ext_getElem? fun rule => ?_
    simp only [blueprint, h.starts, lexes, h.tokens lexes, if_true, List.getElem?_map,
      List.getElem?_mapIdx, List.getElem?_toArray]
    cases plan.rules[rule]? <;> rfl
  modes := by simp [blueprint, h.modes]
  decisions := by simp [blueprint, h.decisions]
  actions := by simp [blueprint, h.actions]

/-- A network that was assembled is assembled from what is written down of it. All that it has
comes back: the states with what was derived for them, the return edges among it, and the tables
of decisions, rules, modes and commands. -/
theorem assemble_blueprint (h : assemble kind plan = .ok n) (bare : plan.StopsBare) :
    assemble n.kind n.blueprint = .ok n := by
  have alike := (holds_of_assemble h).alike_blueprint bare
  rw [alike.assemble, kind_of_assemble h]
  exact h

/-- The network of sums and products, which has calls with and without a precedence. -/
theorem assemble_blueprint_expression :
    let plan := Samples.expression.rules.builder.blueprint
    plan.StopsBare ∧ ∃ n, assemble .parser plan = .ok n ∧ assemble n.kind n.blueprint = .ok n := by
  intro plan
  have bare : plan.StopsBare := by decide +kernel
  have assembles : (assemble .parser plan).toOption.isSome = true := by decide +kernel
  refine ⟨bare, ?_⟩
  cases h : assemble .parser plan with
  | error e => simp [h, Except.toOption] at assembles
  | ok n => exact ⟨n, rfl, assemble_blueprint h bare⟩

end Network

end AdaptiveLL
