import AdaptiveLL.Proofs.Network.Lookahead
import AdaptiveLL.Proofs.Parser.Settled
import AdaptiveLL.Proofs.Parser.Spine
/-!
The tree of a parse and the tokens of its input. From left to right the leaves are the tokens that
the parse has passed, once each and in order; besides these there are only ends of the input and
tokens that recovery made up. A token that an edge of the network reads is a terminal, and one
that recovery skips is an error node, unless an edge reads the type `epsilon` (`departs_epsilon`).
-/
namespace AdaptiveLL

variable {σ τ : Type} [TokenSource σ] {u : ParserSetup τ} {p p' q : Parser σ τ} {f : Frame}
  {rest : List Frame} {leaves more : List Leaf} {Live : Nat → Prop} {root : Nat}

open AdaptiveLL.Parser (Acts Returns Ends)
open AdaptiveLL.Parsing (Matches)

section Passes

theorem Parser.Acts.passes_from (h : Acts u q p' leaves) (same : q.simulation = p.simulation) :
    p.input.Passes p'.input (leaves.filterMap Leaf.passed?) := by
  have passes := h.passes
  rwa [Parser.input, same] at passes

theorem Crosses.passes {number : Nat} {s : State} {t : Transition}
    (h : Crosses u number s p t p' leaves) :
    p.input.Passes p'.input (leaves.filterMap Leaf.passed?) := by
  cases h with
  | plain | precedence => exact .refl _
  | wrap _ _ acts => exact acts.passes_from p.wrapped_simulation
  | call _ _ acts => exact acts.passes_from p.entered_simulation
  | read _ acts | predicate acts | action acts => exact acts.passes

/-- A turn passes the tokens that it puts into the tree. -/
theorem Turn.passes (h : Turn u p p' leaves) :
    p.input.Passes p'.input (leaves.filterMap Leaf.passed?) := by
  cases h with
  | edge _ _ _ acts _ _ _ crosses =>
      rw [List.filterMap_append]
      exact acts.passes.trans crosses.passes
  | abandon _ _ _ acts => exact acts.passes_from rfl
  | «return» _ _ _ returns _ acts =>
      apply acts.passes_from
      cases returns with
      | ordinary => exact p.left_simulation
      | recursive => rfl

theorem Walks.passes {visited : List (Parser σ τ)} {last : Parser σ τ}
    (h : Walks u p visited leaves last) :
    p.input.Passes last.input (leaves.filterMap Leaf.passed?) := by
  induction h with
  | stay => exact .refl _
  | turn first _ ih =>
      rw [List.filterMap_append]
      exact first.passes.trans ih

theorem Parser.Ends.passes {node answer : NodeId} {leftRecursive : Bool}
    (h : Ends u p node leftRecursive answer p') : p.input.Passes p'.input [] := by
  cases h with
  | ordinary acts => exact acts.passes_from p.left_simulation
  | recursive acts => exact acts.passes_from rfl

end Passes

section Terminals

namespace Network

variable {n : Network}

/-- No edge reads the symbol. -/
def Unread (n : Network) (x : Symbol) : Prop :=
  ∀ (q : Nat) (s : State), n.states[q]? = some s → ∀ t ∈ s.transitions,
    t.reads x Symbol.firstToken n.maxToken = false

/-- What is expected at a state with one edge that reads something is what this edge reads. -/
theorem reads_of_expected {state : Nat} {s : State} {t : Transition} {invoking : List Nat}
    {set : IntervalSet} {x : Symbol} (canonical : n.IsCanonical) (unread : n.Unread Symbol.epsilon)
    (here : n.states[state]? = some s) (going : s.isRuleStop = false) (only : s.transitions = [t])
    (reading : t.isEpsilon = false) (expected : n.expectedTokens state invoking = .ok set)
    (mem : x ∈ set) : t.reads x Symbol.firstToken n.maxToken = true := by
  have silent (frames : List Nat) : t.silently? frames = none := by
    cases t <;> first | rfl | cases reading
  have stays {place : Place} (path : Relation.ReflTransGen n.Silent (state, []) place) :
      place = (state, []) := by
    rcases path.cases_head with same | ⟨place', move, -⟩
    · exact same.symm
    · cases move with
      | edge here' _ mem' cross =>
          rw [here] at here'
          cases here'
          rw [only, List.mem_singleton] at mem'
          rw [mem', silent] at cross
          cases cross
  have found {following : IntervalSet} (looked : n.nextTokens state = .ok following) {y : Symbol}
      (mem : y ∈ following) : t.reads y Symbol.firstToken n.maxToken = true := by
    rcases look_sound looked mem with ⟨q, _, s', e, path, here', _, mem', bears⟩ |
      ⟨-, q, s', path, here', stop⟩
    · cases stays path
      rw [here] at here'
      cases here'
      rw [only, List.mem_singleton] at mem'
      rw [← mem', (canonical s (Array.mem_of_getElem? here) e (only ▸ mem' ▸ .head _)).reads_eq]
      exact bears
    · cases stays path
      rw [here] at here'
      cases here'
      rw [going] at stop
      cases stop
  cases looked : n.nextTokens state with
  | error fault =>
      rw [expectedTokens, looked] at expected
      cases expected
  | ok following =>
      have within : following.contains Symbol.epsilon = false := by
        apply Bool.eq_false_iff.2
        intro mem
        have reads := found looked (IntervalSet.mem_of_contains mem)
        rw [unread state s here t (only ▸ List.mem_singleton_self t)] at reads
        cases reads
      have same : n.expectedTokens state invoking = .ok following := by
        rw [expectedTokens, looked]
        change (if following.contains Symbol.epsilon then _ else Except.ok following) = _
        rw [within]
        rfl
      rw [same] at expected
      cases expected
      exact found looked mem

end Network

/-- A parser takes a token for one that an edge reads if the edge reads it. -/
theorem Transition.accepts_of_reads {t : Transition} {accept : Symbol → Bool} {maxToken x : Symbol}
    (accepts : t.accepts? maxToken = some accept)
    (reads : t.reads x Symbol.firstToken maxToken = true) : accept x = true := by
  cases t with
  | atom target label =>
      cases accepts
      rw [beq_iff_eq]
      exact (beq_iff_eq.1 reads).symm
  | wildcard target =>
      cases accepts
      simp only [Transition.reads, Bool.and_eq_true, decide_eq_true_eq] at reads
      exact decide_eq_true (Int.lt_of_lt_of_le Int.zero_lt_one reads.1)
  | range | set | notSet =>
      cases accepts
      exact reads
  | epsilon | call | predicate | precedence | action => cases accepts

/-- What is put at a state, before the parser goes to the next one. Behind tokens that recovery
skipped or made up, a token that an edge of the state reads is put as a terminal, unless it is
made up. -/
inductive Puts (n : Network) (s : State) (next : Nat) : List Leaf → Prop
  | read {t : Transition} {accept : Symbol → Bool} {token : Token} {skipped : List Leaf}
      (edge : t ∈ s.transitions) (target : t.target = next)
      (accepts : t.accepts? n.maxToken = some accept) (fits : accept token.type = true)
      (index : token.index ≠ none) (errors : Leaf.AllErrors skipped) :
      Puts n s next (skipped ++ [⟨token, false⟩])
  | conjured {t : Transition} {accept : Symbol → Bool} {token : Token} {skipped : List Leaf}
      (edge : t ∈ s.transitions) (target : t.target = next)
      (accepts : t.accepts? n.maxToken = some accept) (index : token.index = none)
      (errors : Leaf.AllErrors skipped) : Puts n s next (skipped ++ [⟨token, true⟩])
  | crossed {t : Transition} {skipped : List Leaf} (edge : t ∈ s.transitions)
      (target : t.target = next) (silent : t.accepts? n.maxToken = none)
      (errors : Leaf.AllErrors skipped) : Puts n s next skipped
  | abandoned {skipped : List Leaf} (stops : n.ruleStops[s.rule]? = some next)
      (errors : Leaf.AllErrors skipped) : Puts n s next skipped
  | returned (stop : s.isRuleStop = true) : Puts n s next []

/-- The leaves are what is put at the states that the parsers visit one after the other. -/
inductive Accounts (n : Network) : List (Parser σ τ) → List Leaf → Prop
  | last (p : Parser σ τ) : Accounts n [p] []
  | turn {p q : Parser σ τ} {visited : List (Parser σ τ)} {s : State} {leaves more : List Leaf}
      (here : n.states[p.state]? = some s) (puts : Puts n s q.state leaves)
      (rest : Accounts n (q :: visited) more) : Accounts n (p :: q :: visited) (leaves ++ more)

/-- A terminal is a token of the input that an edge of the state reads. -/
theorem Puts.terminal {n : Network} {s : State} {next : Nat} (h : Puts n s next leaves) {l : Leaf}
    (mem : l ∈ leaves) (terminal : l.isError = false) : l.token.index ≠ none ∧
      ∃ t ∈ s.transitions, ∃ accept, t.accepts? n.maxToken = some accept ∧
        accept l.token.type = true := by
  have clash {skipped : List Leaf} (errors : Leaf.AllErrors skipped) : l ∉ skipped := by
    intro mem
    have error := errors l mem
    rw [terminal] at error
    cases error
  cases h with
  | read edge _ accepts fits index errors =>
      have same := (List.mem_append.1 mem).resolve_left (clash errors)
      cases List.mem_singleton.1 same
      exact ⟨index, _, edge, _, accepts, fits⟩
  | conjured _ _ _ _ errors =>
      have same := (List.mem_append.1 mem).resolve_left (clash errors)
      cases List.mem_singleton.1 same
      cases terminal
  | crossed _ _ _ errors | abandoned _ errors => exact absurd mem (clash errors)
  | returned => cases mem

omit [TokenSource σ] in
/-- A terminal is a token of the input that an edge of a visited state reads. -/
theorem Accounts.terminal {n : Network} {visited : List (Parser σ τ)}
    (h : Accounts n visited leaves) {l : Leaf} (mem : l ∈ leaves) (terminal : l.isError = false) :
    l.token.index ≠ none ∧ ∃ p ∈ visited, ∃ s, n.states[p.state]? = some s ∧
      ∃ t ∈ s.transitions, ∃ accept, t.accepts? n.maxToken = some accept ∧
        accept l.token.type = true := by
  induction h with
  | last => cases mem
  | turn here puts _ ih =>
      rcases List.mem_append.1 mem with mem | mem
      · obtain ⟨index, reads⟩ := puts.terminal mem terminal
        exact ⟨index, _, .head _, _, here, reads⟩
      · obtain ⟨index, p, visited, reads⟩ := ih mem
        exact ⟨index, p, .tail _ visited, reads⟩

section Labels

variable (alone : u.grammar.network.Alone) (canonical : u.grammar.network.IsCanonical)
  (unread : u.grammar.network.Unread Symbol.epsilon)

include alone canonical unread

/-- What crossing an edge puts. -/
theorem Crosses.puts {s : State} {t : Transition} {skipped : List Leaf}
    (sound : p.input.Sound) (here : u.grammar.network.states[p.state]? = some s)
    (going : s.isRuleStop = false) (edge : t ∈ s.transitions) (errors : Leaf.AllErrors skipped)
    (h : Crosses u p.state s p t p' leaves) :
    Puts u.grammar.network s t.target (skipped ++ leaves) := by
  have silent (plain : t.accepts? u.grammar.network.maxToken = none) :
      Puts u.grammar.network s t.target (skipped ++ []) := by
    rw [List.append_nil]
    exact .crossed edge rfl plain errors
  cases h with
  | plain | wrap | call | predicate | precedence | action => exact silent rfl
  | read accepts acts matched =>
      cases matched with
      | accepted index fits => exact .read edge rfl accepts fits index errors
      | conjured index => exact .conjured edge rfl accepts index errors
      | skipping other index expected =>
          obtain ⟨set, expected, mem⟩ := expected sound
          have reading : t.isEpsilon = false := by
            cases t <;> first | rfl | cases accepts
          have only := alone.alone here going edge (by rintro _ _ rfl; cases reading)
          have reads := u.grammar.network.reads_of_expected canonical unread here going only reading
            expected (IntervalSet.mem_of_contains mem)
          have errors' := errors.append (.one other)
          have puts := Puts.read edge rfl accepts (t.accepts_of_reads accepts reads) index errors'
          rwa [List.append_assoc] at puts

/-- The leaves of a turn are among those that an edge of its state may put. -/
theorem Turn.puts (sound : p.input.Sound) (h : Turn u p p' leaves) :
    ∃ s, u.grammar.network.states[p.state]? = some s ∧
      Puts u.grammar.network s p'.state leaves := by
  cases h with
  | @edge s _ t p₁ _ _ _ here going _ acts errors _ edge crosses =>
      refine ⟨s, here, ?_⟩
      rw [← acts.state] at here crosses
      exact crosses.puts alone canonical unread (acts.input.sound sound) here going
        (List.mem_of_getElem? edge) errors
  | @abandon s _ _ _ here _ stops acts errors =>
      refine ⟨s, here, .abandoned ?_ errors⟩
      rw [acts.state]
      exact stops
  | @«return» s _ _ _ here stop => exact ⟨s, here, .returned stop⟩

/-- The leaves of a walk are put by the states that it visits, in order. -/
theorem Walks.accounts {visited : List (Parser σ τ)} {last : Parser σ τ} (sound : p.input.Sound)
    (h : Walks u p visited leaves last) :
    Accounts u.grammar.network visited leaves := by
  induction h with
  | stay p => exact .last p
  | turn first rest ih =>
      obtain ⟨s, here, puts⟩ := first.puts alone canonical unread sound
      have account := ih (first.lasts.input.sound sound)
      cases rest with
      | stay | turn => exact .turn here puts account

end Labels

end Terminals

section Growth

namespace Parser

variable {base : ParseTree} {ground : Ground}

/-- The tree so far. The open contexts are its spine, and `leaves` the leaves of what has been added
to the tree `base`. -/
def Grows (u : ParserSetup τ) (base : ParseTree) (ground : Ground) (p : Parser σ τ)
    (leaves : List Leaf) : Prop :=
  ∃ ids, Spine u.grammar.network p.tree.outline ground.context p.context [] ids leaves ∧
    base.outline.Since p.tree.outline ids

/-- The first new node is the context of the start rule, if that rule is not left-recursive. -/
def Rooted (u : ParserSetup τ) (base : ParseTree) (rule : Nat) (p : Parser σ τ) : Prop :=
  u.grammar.network.isLeftRecursiveRule rule = false →
    p.tree.link? base.size = some ⟨rule, none, none⟩

omit [TokenSource σ] in
/-- The node of the innermost call. -/
theorem On.node {n : Network} (on : p.On n ground (f :: rest)) : ∃ node : RuleNode,
    p.tree.outline.node? f.context = some (.rule node) ∧ node.rule = f.rule ∧
      (node.parent = f.parent ∨ node.parent = none ∧ f.parent = ground.context) := by
  obtain ⟨parent, link, known⟩ := on.stacked.linked_head.exists_link
  have inner := on.stacked.link_head
  rw [← p.tree.link?_outline] at link inner
  obtain ⟨node, here, same⟩ := ParseTree.link?_eq_some.1 link
  refine ⟨node, here, congrArg Link.rule same, ?_⟩
  have linked : node.parent = parent := congrArg Link.parent same
  rcases known with rfl | ⟨-, rfl⟩
  · exact .inl linked
  cases rest with
  | nil => exact .inr ⟨linked, on.stacked.parent_head⟩
  | cons =>
      rw [link] at inner
      have top := inner (.inr (.inl (List.cons_ne_nil _ _)))
      exact .inl (linked.trans (congrArg Link.parent (Option.some.inj top)))

omit [TokenSource σ] in
theorem Grows.at_state (h : p.Grows u base ground leaves) (state : Nat) :
    ({ p with state } : Parser σ τ).Grows u base ground leaves :=
  h

omit [TokenSource σ] in
/-- The spine of a parser that is in a call. -/
theorem Grows.spine (h : p.Grows u base ground leaves)
    (on : p.On u.grammar.network ground (f :: rest)) :
    ∃ ids, Spine u.grammar.network p.tree.outline ground.context (some f.context) [] ids leaves ∧
      f.context ∈ ids ∧ base.outline.Since p.tree.outline ids := by
  obtain ⟨ids, spine, since⟩ := h
  rw [on.context_cons] at spine
  exact ⟨ids, spine, spine.mem (.inl (on.stacked.ne_ground (.head _))), since⟩

omit [TokenSource σ] in
/-- The outermost context is the first new node. -/
theorem Grows.entered_root (inside : ∀ c ∈ p.context, c < p.tree.size) (rule start : Nat) :
    (p.entered u none none rule start 0).Grows u p.tree (p.groundFor u rule) [] := by
  obtain ⟨spine, since⟩ := Spine.start (n := u.grammar.network) p.tree.outline
    (p.groundFor u rule).context rule
  rw [p.tree.size_outline, ← p.tree.outline_withCall] at spine since
  have tree : (p.entered u none none rule start 0).tree = p.tree.withCall rule none none := by
    unfold Parser.entered
    split <;> rfl
  refine ⟨_, ?_, tree ▸ since⟩
  rw [tree, (On.entered_root inside rule start).context_cons]
  exact spine

namespace Grows

variable (build : u.options.buildTrees = true)

include build

theorem acts (h : p.Grows u base ground leaves) (on : p.On u.grammar.network ground (f :: rest))
    (acts : Acts u p p' more) : p'.Grows u base ground (leaves ++ more) := by
  obtain ⟨ids, spine, mem, since⟩ := h.spine on
  rw [Grows, acts.grafts build, acts.context, on.context_cons]
  exact spine.graft mem since more

theorem acts_nil (h : p.Grows u base ground leaves) (acts : Acts u p p' []) :
    p'.Grows u base ground leaves := by
  rw [Grows, acts.grafts build, acts.context, ParseTree.graft_nil]
  exact h

omit [TokenSource σ] in
theorem entered (h : p.Grows u base ground leaves) (on : p.On u.grammar.network ground (f :: rest))
    (invoking : Option Nat) (rule start : Nat) (precedence : Int) :
    (p.entered u p.context invoking rule start precedence).Grows u base ground leaves := by
  obtain ⟨ids, spine, mem, since⟩ := h.spine on
  have called := spine.call mem since rule invoking
  rw [p.tree.size_outline, ← p.tree.outline_withCall, ← on.context_cons] at called
  refine ⟨ids ++ [p.tree.size], ?_⟩
  unfold Parser.entered
  split
  case isTrue recursive => simpa only [recursive, if_true] using called
  case isFalse ordinary =>
      simp only [ordinary, Bool.false_eq_true, if_false] at called
      rw [← build, ← ParseTree.outline_attach] at called
      exact called

omit [TokenSource σ] in
theorem wrapped {start : Nat} (h : p.Grows u base ground leaves)
    (on : p.On u.grammar.network ground (f :: rest))
    (recursive : u.grammar.network.isLeftRecursiveRule f.rule = true) :
    (p.wrapped u f.rule start).Grows u base ground leaves := by
  obtain ⟨ids, spine, mem, since⟩ := h.spine on
  obtain ⟨node, here, rule, parent⟩ := on.node
  have linked := parent.imp_left Eq.symm
  have wrapped := spine.wrap mem since here (rule ▸ recursive) linked f.invoking (some start)
  rw [rule, p.tree.size_outline, ← p.tree.outline_withCall, ← ParseTree.outline_relink,
    ← build, ← ParseTree.outline_attach] at wrapped
  rw [Parser.wrapped_of_some on.context_cons, on.remembered recursive]
  exact wrapped

omit [TokenSource σ] in
/-- A return completes the context of the call. -/
theorem returns {caller : Frame} (h : p.Grows u base ground leaves)
    (on : p.On u.grammar.network ground (f :: caller :: rest)) (returns : Returns u p f.rule q) :
    q.Grows u base ground leaves := by
  obtain ⟨ids, spine, mem, since⟩ := h.spine on
  have linked : f.parent = some caller.context := on.stacked.parent_head
  have inside := on.stacked.ne_ground (List.mem_cons_of_mem f (.head _))
  obtain ⟨node, here, rule, parent⟩ := on.node
  have parent := parent.resolve_right fun root => inside (linked.symm.trans root.2)
  cases returns with
  | ordinary plain =>
      have left := spine.leave mem here (parent.trans linked) (rule ▸ plain)
      rw [← linked] at left
      rw [Parser.left_of_some on.context_cons, on.stacked.link_head (.inl plain)]
      exact ⟨ids, left, since⟩
  | recursive recursive top =>
      rw [on.remembered recursive] at top
      cases top
      have unwrapped := spine.unwrap mem since here (parent.trans linked) inside (rule ▸ recursive)
      rw [← linked, ← build, ← ParseTree.outline_setParent, ← ParseTree.outline_attach] at unwrapped
      refine ⟨ids, ?_⟩
      simpa only [Parser.unwrapped, on.context_cons] using unwrapped

theorem crosses {number : Nat} {s : State} {t : Transition}
    (confined : u.grammar.network.Confined Live) (h : p.Grows u base ground leaves)
    (on : p.On u.grammar.network ground (f :: rest))
    (here : u.grammar.network.states[number]? = some s) (same : s.rule = f.rule)
    (crosses : Crosses u number s p t p' more) : p'.Grows u base ground (leaves ++ more) := by
  have stays {p' : Parser σ τ} (h : p'.Grows u base ground leaves) :
      p'.Grows u base ground (leaves ++ []) := by rwa [List.append_nil]
  cases crosses with
  | plain | precedence => exact stays h
  | wrap loop _ acts =>
      rw [on.contextRule?, Option.getD_some] at acts
      exact stays ((h.wrapped build on (same ▸ confined.loop here loop)).acts_nil build acts)
  | read _ acts => exact h.acts build on acts
  | call _ _ acts => exact stays ((h.entered build on _ _ _ _).acts_nil build acts)
  | predicate acts | action acts => exact stays (h.acts_nil build acts)

/-- The tree grows by the leaves of a turn. -/
theorem turn (confined : u.grammar.network.Confined Live) (h : p.Grows u base ground leaves)
    (stands : p.Stands u.grammar.network ground Live root f rest) (turn : Turn u p p' more) :
    p'.Grows u base ground (leaves ++ more) := by
  cases turn with
  | edge here _ _ acts _ _ _ crosses =>
      have grown := h.acts build stands.toOn acts
      rw [← List.append_assoc]
      have same := stands.rule_eq here
      exact (grown.crosses build confined (stands.toOn.acts acts) here same crosses).at_state _
  | abandon _ _ _ acts => exact (h.at_state _).acts build (stands.toOn.at_state _) acts
  | «return» here _ inner returns _ acts =>
      rw [List.append_nil]
      cases rest with
      | nil => exact absurd (stands.atRoot_iff.2 rfl) inner
      | cons caller rest =>
          rw [stands.rule_eq here] at returns
          exact ((h.returns build stands.toOn returns).at_state _).acts_nil build acts

end Grows

namespace Rooted

variable {rule : Nat}

omit [TokenSource σ] in
theorem at_state (h : p.Rooted u base rule) (state : Nat) :
    ({ p with state } : Parser σ τ).Rooted u base rule :=
  h

theorem acts (h : p.Rooted u base rule) (acts : Acts u p p' leaves) : p'.Rooted u base rule :=
  fun ordinary => acts.keeps.link (h ordinary)

omit [TokenSource σ] in
/-- The context of a left-recursive rule is another one. -/
theorem ne_context (h : p.Rooted u base rule) (on : p.On u.grammar.network ground (f :: rest))
    (ordinary : u.grammar.network.isLeftRecursiveRule rule = false)
    (recursive : u.grammar.network.isLeftRecursiveRule f.rule = true) : f.context ≠ base.size := by
  intro same
  obtain ⟨parent, link, -⟩ := on.stacked.linked_head.exists_link
  rw [same, h ordinary] at link
  have rule_eq : rule = f.rule := congrArg Link.rule (Option.some.inj link)
  rw [← rule_eq, ordinary] at recursive
  cases recursive

omit [TokenSource σ] in
theorem wrapped {start : Nat} (h : p.Rooted u base rule)
    (on : p.On u.grammar.network ground (f :: rest))
    (recursive : u.grammar.network.isLeftRecursiveRule f.rule = true) :
    (p.wrapped u f.rule start).Rooted u base rule := by
  intro ordinary
  rw [Parser.wrapped_of_some on.context_cons]
  refine (ParseTree.Keeps.attach _ _ _ _).link ?_
  rw [ParseTree.link?_relink (h.ne_context on ordinary recursive)]
  exact (ParseTree.Keeps.withCall _ _ _ _).link (h ordinary)

omit [TokenSource σ] in
theorem entered (h : p.Rooted u base rule) (parent : Option NodeId) (invoking : Option Nat)
    (callee start : Nat) (precedence : Int) :
    (p.entered u parent invoking callee start precedence).Rooted u base rule := by
  intro ordinary
  have link := (ParseTree.Keeps.withCall p.tree callee parent invoking).link (h ordinary)
  unfold Parser.entered
  split
  · exact link
  · exact (ParseTree.Keeps.attach _ _ _ _).link link

omit [TokenSource σ] in
theorem returns (h : p.Rooted u base rule) (on : p.On u.grammar.network ground (f :: rest))
    (returns : Returns u p f.rule q) : q.Rooted u base rule := by
  intro ordinary
  have link := h ordinary
  cases returns with
  | ordinary =>
      rw [Parser.left_of_some on.context_cons]
      exact link
  | recursive recursive top =>
      simp only [Parser.unwrapped, on.context_cons]
      refine (ParseTree.Keeps.attach _ _ _ _).link ?_
      rwa [ParseTree.link?_setParent (h.ne_context on ordinary recursive)]

theorem crosses {number : Nat} {s : State} {t : Transition}
    (confined : u.grammar.network.Confined Live) (h : p.Rooted u base rule)
    (on : p.On u.grammar.network ground (f :: rest))
    (here : u.grammar.network.states[number]? = some s) (same : s.rule = f.rule)
    (crosses : Crosses u number s p t p' leaves) : p'.Rooted u base rule := by
  cases crosses with
  | plain | precedence => exact h
  | wrap loop _ acts =>
      rw [on.contextRule?, Option.getD_some] at acts
      exact (h.wrapped on (same ▸ confined.loop here loop)).acts acts
  | call _ _ acts => exact (h.entered _ _ _ _ _).acts acts
  | read _ acts | predicate acts | action acts => exact h.acts acts

theorem turn (confined : u.grammar.network.Confined Live) (h : p.Rooted u base rule)
    (stands : p.Stands u.grammar.network ground Live root f rest) (turn : Turn u p p' leaves) :
    p'.Rooted u base rule := by
  cases turn with
  | edge here _ _ acts _ _ _ crosses =>
      have same := stands.rule_eq here
      exact ((h.acts acts).crosses confined (stands.toOn.acts acts) here same crosses).at_state _
  | abandon _ _ _ acts => exact (h.at_state _).acts acts
  | «return» here _ _ returns _ acts =>
      rw [stands.rule_eq here] at returns
      exact ((h.returns stands.toOn returns).at_state _).acts acts

end Rooted

omit [TokenSource σ] in
/-- When no call is left but that of the start rule, what has been added is complete. -/
theorem Grows.whole (h : p.Grows u base ground leaves) (on : p.On u.grammar.network ground [f])
    (older : ∀ c ∈ ground.context, c < base.size)
    (plain : u.grammar.network.isLeftRecursiveRule f.rule = false → ground.context = none) :
    p.tree.outline.Whole base.size f.context leaves := by
  obtain ⟨ids, spine, mem, since⟩ := h.spine on
  obtain ⟨node, here, rule, parent⟩ := on.node
  have outside : node.parent = none ∨ node.parent = ground.context := by
    rcases parent with linked | ⟨orphan, -⟩
    · exact .inr (linked.trans on.stacked.parent_head)
    · exact .inl orphan
  have unattached : u.grammar.network.hanging node f.context = [] := by
    cases recursive : u.grammar.network.isLeftRecursiveRule f.rule with
    | true => simp [Network.hanging, rule, recursive]
    | false =>
        have orphan : node.parent = none := by simpa [plain recursive] using outside
        simp [Network.hanging, orphan]
  have nodup := since.nodup
  have all (id : NodeId) : id ∈ ids ↔ base.outline.size ≤ id ∧ id < p.tree.outline.size :=
    since.mem_iff
  cases spine with
  | nil => cases mem
  | @context _ _ _ cs _ inner _ below here' outer children within =>
      rw [here] at here'
      cases here'
      rw [unattached] at outer
      obtain ⟨rfl, rfl⟩ := outer.bottom outside fun c known mem => by
        have new := ((all c).1 (List.mem_append_left _ mem)).1
        exact Nat.not_le.2 (older c known) (by simpa using new)
      rw [List.append_nil] at children
      rw [← children] at within
      rw [List.nil_append] at nodup all ⊢
      simp only [ParseTree.size_outline] at all
      exact ⟨node, inner, here, within, nodup, by simpa using all⟩

/-- At the end of the start rule the new nodes are a tree below the answer. -/
theorem Ends.made {answer : NodeId} (build : u.options.buildTrees = true)
    (on : p.On u.grammar.network ground [f]) (older : ∀ c ∈ ground.context, c < base.size)
    (plain : u.grammar.network.isLeftRecursiveRule f.rule = false → ground.context = none)
    (grows : p.Grows u base ground leaves) (rooted : p.Rooted u base f.rule)
    (h : Ends u p base.size (u.grammar.network.isLeftRecursiveRule f.rule) answer p') :
    base.Made p'.tree ground.context answer leaves := by
  have whole := grows.whole on older plain
  have old : ∀ q < base.outline.size, p.tree.outline.node? q = base.outline.node? q := by
    obtain ⟨ids, -, since⟩ := grows
    exact since.old
  have outlined : p.tree.outline.Whole base.outline.size f.context leaves := by
    rwa [ParseTree.size_outline]
  apply ParseTree.Made.of_outline
  generalize recursive : u.grammar.network.isLeftRecursiveRule f.rule = leftRecursive at h
  cases h with
  | ordinary acts =>
      have grafted := acts.grafts build
      rw [ParseTree.graft_nil, Parser.left_of_some on.context_cons] at grafted
      have link := rooted recursive
      rw [← ParseTree.link?_outline] at link
      have orphan := ParseTree.parent?_of_link link
      obtain ⟨_, first, -⟩ := ParseTree.link?_eq_some.1 link
      have same := whole.eq_root (Nat.le_refl _) (ParseTree.lt_size first) orphan
      rw [grafted, plain recursive, same]
      refine ⟨outlined, same ▸ orphan, fun q lt => .inl ?_⟩
      rw [ParseTree.children, old q lt, ParseTree.children]
  | recursive acts =>
      have grafted := acts.grafts build
      have top : (p.recursions.head?.map Prod.fst).getD none = ground.context := by
        rw [on.remembered recursive]
        exact on.stacked.parent_head
      rw [ParseTree.graft_nil, top] at grafted
      simp only [Parser.unwrapped, on.context_cons] at grafted
      rw [grafted, on.context_cons, Option.getD_some, ParseTree.outline_attach, build,
        ParseTree.outline_setParent]
      cases below : ground.context with
      | none => exact .loose outlined old
      | some c => exact .hang outlined old (by simpa using older c below)

/-- What holds at every state of a parse that began as `origin` and builds a tree. -/
structure Growing (u : ParserSetup τ) (Live : Nat → Prop) (rule : Nat) (origin p : Parser σ τ)
    (leaves : List Leaf) : Prop where
  grows : p.Grows u origin.tree (origin.groundFor u rule) leaves
  rooted : p.Rooted u origin.tree rule
  stands : ∃ f rest, p.Stands u.grammar.network (origin.groundFor u rule) Live rule f rest

namespace Growing

variable {rule : Nat} {origin : Parser σ τ}

theorem entered {start : Nat} (build : u.options.buildTrees = true)
    (confined : u.grammar.network.Confined Live) (inside : ∀ c ∈ p.context, c < p.tree.size)
    (starts : u.grammar.network.ruleStarts[rule]? = some start)
    (acts : Acts u (p.entered u none none rule start 0) p' []) : Growing u Live rule p p' [] where
  grows := (Grows.entered_root inside rule start).acts_nil build acts
  rooted := by
    have rooted : (p.entered u none none rule start 0).Rooted u p.tree rule := by
      intro ordinary
      rw [Parser.entered, ordinary]
      exact p.tree.link?_withCall rule none none
    exact rooted.acts acts
  stands := ⟨_, _, Parser.stands_entered confined inside starts acts⟩

theorem turn (build : u.options.buildTrees = true) (confined : u.grammar.network.Confined Live)
    (h : Growing u Live rule origin p leaves) (turn : Turn u p p' more) :
    Growing u Live rule origin p' (leaves ++ more) := by
  obtain ⟨f, rest, stands⟩ := h.stands
  exact ⟨h.grows.turn build confined stands turn, h.rooted.turn confined stands turn,
    stands.turn confined turn⟩

theorem walks {visited : List (Parser σ τ)} {last : Parser σ τ}
    (build : u.options.buildTrees = true) (confined : u.grammar.network.Confined Live)
    (h : Growing u Live rule origin p leaves) (walks : Walks u p visited more last) :
    Growing u Live rule origin last (leaves ++ more) := by
  induction walks generalizing leaves with
  | stay => rwa [List.append_nil]
  | turn first _ ih =>
      rw [← List.append_assoc]
      exact ih (h.turn build confined first)

/-- When the start rule has ended, its answer is the root of a tree with all the leaves. -/
theorem concludes {answer : NodeId} (build : u.options.buildTrees = true)
    (inside : ∀ c ∈ origin.context, c < origin.tree.size) (h : Growing u Live rule origin p leaves)
    (concludes : p.Concludes u (u.grammar.network.isLeftRecursiveRule rule) origin.tree.size answer p') :
    origin.tree.Made p'.tree (origin.groundFor u rule).context answer leaves := by
  obtain ⟨f, rest, stands⟩ := h.stands
  obtain rfl := stands.atRoot_iff.1 concludes.outermost
  have base : f.rule = rule := stands.base
  subst base
  exact concludes.ends.made build stands.toOn (origin.groundFor_context_lt inside f.rule)
    origin.groundFor_context_of_ordinary h.grows h.rooted

end Growing

/-- The tree below `root` and the input of a parse. Each node of the tree is listed once, where it
belongs, and from left to right its leaves are the tokens that were passed; besides these there
are only ends of the input, and tokens that were made up as error nodes. -/
structure Yields (u : ParserSetup τ) (rule : Nat) (p : Parser σ τ) (root : NodeId)
    (p' : Parser σ τ) (leaves : List Leaf) : Prop where
  isRoot : p'.tree.IsRoot root
  found : p'.tree.leaves? root = some leaves
  forward : p.input.index ≤ p'.input.index
  passed : leaves.filterMap Leaf.passed? = p'.input.between p.input.index p'.input.index
  accounts : Accounts u.grammar.network (Parsing.visited u rule p) leaves
  others : ∀ l ∈ leaves, l.passed? = none →
    l.token.isEof = true ∨ l.isError = true ∧ l.token.index = none

end Parser

end Growth

omit [TokenSource σ] in
/-- A leaf that is no token of the input is an end of the input or was made up. -/
theorem Accounts.others {n : Network} {visited : List (Parser σ τ)} (h : Accounts n visited leaves)
    {l : Leaf} (mem : l ∈ leaves) (unpassed : l.passed? = none) :
    l.token.isEof = true ∨ l.isError = true ∧ l.token.index = none := by
  cases eof : l.token.isEof with
  | true => exact .inl rfl
  | false =>
      have index : l.token.index = none := by simpa [Leaf.passed?, eof] using unpassed
      cases error : l.isError with
      | true => exact .inr ⟨rfl, index⟩
      | false => exact absurd index (h.terminal mem error).1

namespace Parsing

/-- The tree that a parse builds is complete, and its leaves are those of the turns. -/
theorem parse_whole (confined : u.grammar.network.Confined Live) (settled : p.Settled)
    (build : u.options.buildTrees = true) (rule : Nat) :
    (parse u rule).Ensures p (fun root p' => ∃ leaves,
        p.tree.Made p'.tree (p.groundFor u rule).context root leaves ∧
        p.input.Passes p'.input (leaves.filterMap Leaf.passed?) ∧ ∃ first last,
          first.input.Sound ∧ Walks u first (visited u rule p) leaves last)
      fun _ _ => True := by
  have enters := enter_ensures (u := u) (p := p) rule
  obtain ⟨outcome, q, run⟩ : ∃ outcome q, (enter u rule).run p = (outcome, q) := ⟨_, _, rfl⟩
  rw [parse_eq]
  cases outcome with
  | error e => exact .bind (.of_error run trivial)
  | ok root =>
      obtain ⟨rfl, start, starts, -, acts⟩ := enters.ok run
      have growing := Parser.Growing.entered build confined settled.inside starts acts
      have begun : p.input.Passes q.input [] := acts.passes_from p.entered_simulation
      have sound' := begun.sound settled.1
      refine .bind (.of_ok run ?_)
      refine (visitStates_ensures _ _ u.fuel sound'.toPlaced).imp ?_ fun _ _ _ => trivial
      rintro answer p' ⟨leaves, last, walks, concludes⟩
      have passes := (begun.trans walks.passes).trans concludes.ends.passes
      rw [List.nil_append, List.append_nil] at passes
      have made := (growing.walks build confined walks).concludes build settled.inside concludes
      refine ⟨leaves, made, passes, q, last, sound', ?_⟩
      rw [visited, run]
      exact walks

/-- The yield of a parse in a network whose edges keep to the rules. -/
theorem parse_yields_of_confined {rule : Nat} (confined : u.grammar.network.Confined Live)
    (alone : u.grammar.network.Alone) (canonical : u.grammar.network.IsCanonical)
    (unread : u.grammar.network.Unread Symbol.epsilon) (settled : p.Settled)
    (outermost : u.grammar.network.isLeftRecursiveRule rule = true → p.context = none)
    (build : u.options.buildTrees = true) :
    (parse u rule).Ensures p (fun root p' => ∃ leaves, Parser.Yields u rule p root p' leaves)
      fun _ _ => True := by
  refine (parse_whole confined settled build rule).imp ?_ fun _ _ _ => trivial
  rintro root p' ⟨leaves, made, passes, first, last, sound', walks⟩
  have orphan : (p.groundFor u rule).context = none := by
    unfold Parser.groundFor
    split
    case isTrue recursive => exact outermost recursive
    case isFalse => rfl
  rw [orphan] at made
  obtain ⟨forward, passed⟩ := passes.moves settled.1
  have accounts := walks.accounts alone canonical unread sound'
  exact ⟨leaves, made.isRoot settled.2.children, made.whole.leaves?_eq, forward, passed.symm, accounts,
    fun l => accounts.others⟩

/-- In a parser for rules in EBNF that builds trees, no token is lost or duplicated in the tree of
a parse, unless a label of the grammar is `epsilon` or out of order. If the start rule is
left-recursive, no context may be left from a parse before that failed. -/
theorem parse_yields {g : RuleSet} (built : g.build = .ok u.grammar.network)
    (canonical : u.grammar.network.IsCanonical) (unread : u.grammar.network.Unread Symbol.epsilon)
    (settled : p.Settled) (rule : Nat)
    (outermost : u.grammar.network.isLeftRecursiveRule rule = true → p.context = none)
    (build : u.options.buildTrees = true) :
    (parse u rule).Ensures p (fun root p' => ∃ leaves, Parser.Yields u rule p root p' leaves)
      fun _ _ => True :=
  parse_yields_of_confined (g.confined_of_build built) (g.alone_of_build built) canonical unread
    settled outermost build

/-- A parser for sums and products, at the start of the tokens `1 + * 2`. -/
theorem parse_yields_expression : ∃ n, Samples.expression.rules.build = .ok n ∧
    let u : ParserSetup Unit := { grammar := { network := n, names := Samples.expression.names }, fuel := 100 }
    let tokens : TokenList :=
      { tokens := #[{ type := 1 }, { type := 3 }, { type := 4 }, { type := 1 }] }
    let p : Parser TokenList Unit := .ofInput n (.ofNetwork n) { source := tokens } ()
    ∃ root p' leaves, (parse u 0).run p = (.ok root, p') ∧ Parser.Yields u 0 p root p' leaves := by
  let setup (n : Network) : ParserSetup Unit :=
    { grammar := { network := n, names := Samples.expression.names }, fuel := 100 }
  let tokens : TokenList := { tokens := #[{ type := 1 }, { type := 3 }, { type := 4 }, { type := 1 }] }
  let parser (n : Network) : Parser TokenList Unit := .ofInput n (.ofNetwork n) { source := tokens } ()
  have checks : Samples.expression.rules.build.toOption.any (fun n => n.IsCanonical ∧
      (∀ s ∈ n.states, ∀ t ∈ s.transitions,
        t.reads Symbol.epsilon Symbol.firstToken n.maxToken = false) ∧
      ((parse (setup n) 0).run (parser n)).1 = .ok 0) = true := by
    decide +kernel
  cases built : Samples.expression.rules.build with
  | error e => simp [built, Except.toOption] at checks
  | ok n =>
      simp only [built, Except.toOption, Option.any_some, decide_eq_true_eq] at checks
      obtain ⟨canonical, unread, outcome⟩ := checks
      have ends : tokens.Ends := by simp [TokenList.Ends, tokens]
      have yields := parse_yields (u := setup n) (p := parser n) built canonical
        (fun q s here => unread s (Array.mem_of_getElem? here))
        (Parser.settled_ofInput (.ofSource (ends.prompt _)) ()) 0 (fun _ => rfl) rfl
      have run : (parse (setup n) 0).run (parser n) = (.ok 0, ((parse (setup n) 0).run (parser n)).2) :=
        Prod.ext outcome rfl
      obtain ⟨leaves, yields⟩ := yields.ok run
      exact ⟨n, rfl, 0, _, leaves, run, yields⟩

section Conditions

/-- The parser builds a tree, but its leaves are not those of the tokens that it passes. -/
def Departs (u : ParserSetup Unit) (rule : Nat) (p : Parser TokenList Unit) : Prop :=
  p.Settled ∧ u.options.buildTrees = true ∧ ∃ root p', (parse u rule).run p = (.ok root, p') ∧
    ∀ leaves, ¬ Parser.Yields u rule p root p' leaves

/-- A terminal of a type that is read at no state that is visited. -/
theorem departs_of_stray {u : ParserSetup Unit} {p : Parser TokenList Unit} {rule : Nat} {root : NodeId}
    {type : Symbol} (settled : p.Settled) (build : u.options.buildTrees = true)
    (outcome : ((parse u rule).run p).1 = .ok root)
    (stray : (((parse u rule).run p).2.tree.leaves? root).any fun leaves =>
      leaves.any fun l => l.token.type = type && !l.isError)
    (unread : ∀ q ∈ visited u rule p, ∀ s ∈ u.grammar.network.states[q.state]?, ∀ t ∈ s.transitions,
      (t.accepts? u.grammar.network.maxToken).all fun accept => !accept type) : Departs u rule p := by
  refine ⟨settled, build, root, _, Prod.ext outcome rfl, fun leaves yields => ?_⟩
  rw [yields.found, Option.any_some, List.any_eq_true] at stray
  obtain ⟨l, mem, found⟩ := stray
  simp only [Bool.and_eq_true, decide_eq_true_eq, Bool.not_eq_true'] at found
  obtain ⟨rfl, terminal⟩ := found
  obtain ⟨-, q, visited, s, here, t, edge, accept, accepts, fits⟩ := yields.accounts.terminal mem terminal
  have other := unread q visited s here t edge
  rw [accepts, Option.all_some, fits] at other
  cases other

/-- A root that is linked to a node. -/
theorem departs_of_linked {u : ParserSetup Unit} {p : Parser TokenList Unit} {rule : Nat} {root : NodeId}
    (settled : p.Settled) (build : u.options.buildTrees = true)
    (outcome : ((parse u rule).run p).1 = .ok root)
    (linked : ((parse u rule).run p).2.tree.parent? root ≠ none) : Departs u rule p :=
  ⟨settled, build, root, _, Prod.ext outcome rfl, fun _ yields => linked yields.isRoot.parent⟩

/-- A new parser for tokens of the given types. -/
def parserFor (n : Network) (types : List Symbol) : Parser TokenList Unit :=
  .ofInput n (.ofNetwork n) { source := { tokens := (types.map fun type => { type }).toArray } } ()

theorem settled_parserFor (n : Network) (types : List Symbol) : (parserFor n types).Settled :=
  Parser.settled_ofInput (.ofSource (TokenList.Ends.prompt (by simp [TokenList.Ends]) _)) ()

def setupFor (n : Network) (options : ParserOptions) : ParserSetup Unit :=
  { grammar := { network := n, names := {} }, options, fuel := 100 }

/-- `s : a (B | C) EOF ; a : ` and the type `epsilon`, which no token has. -/
def epsilonRules : RuleSet where
  kind := .parser
  maxToken := 3
  rules := [
    { body := some (.sequence [.ref 1 0, .alternatives [.token 2, .token 3], .token Symbol.eof]) },
    { body := some (.token Symbol.epsilon) }]

/-- `s : ` a token of a set, and then `EOF`. The ranges of the set are out of order, so that 1 is
not found in it. -/
def unsortedRules : RuleSet where
  kind := .parser
  maxToken := 9
  rules := [
    { body := some (.sequence [.set ⟨[⟨5, 6⟩, ⟨8, 9⟩, ⟨1, 2⟩]⟩, .token Symbol.eof]) }]

/-- For the tokens `A B C` the first one is skipped and the second one taken for the token `epsilon`
of the rule `a`, since it can follow that rule. -/
theorem departs_epsilon : ∃ n, epsilonRules.build = .ok n ∧ n.IsCanonical ∧
    Departs (setupFor n {}) 0 (parserFor n [1, 2, 3]) := by
  have checks : epsilonRules.build.toOption.any (fun n => n.IsCanonical ∧
      ((parse (setupFor n {}) 0).run (parserFor n [1, 2, 3])).1 = .ok 0 ∧
      ((((parse (setupFor n {}) 0).run (parserFor n [1, 2, 3])).2.tree.leaves? 0).any fun leaves =>
        leaves.any fun l => l.token.type = 2 && !l.isError) ∧
      ∀ q ∈ visited (setupFor n {}) 0 (parserFor n [1, 2, 3]), ∀ s ∈ n.states[q.state]?,
        ∀ t ∈ s.transitions, (t.accepts? n.maxToken).all fun accept => !accept 2) = true := by
    decide +kernel
  cases built : epsilonRules.build with
  | error e => simp [built, Except.toOption] at checks
  | ok n =>
      simp only [built, Except.toOption, Option.any_some, decide_eq_true_eq] at checks
      obtain ⟨canonical, outcome, stray, unread⟩ := checks
      exact ⟨n, rfl, canonical, departs_of_stray (settled_parserFor n _) rfl outcome stray unread⟩

/-- For the tokens `3 1` the first one is skipped, since 1 is among those that can follow, and 1 is
taken for a token of the set. -/
theorem departs_unsorted : ∃ n, unsortedRules.build = .ok n ∧ n.Unread Symbol.epsilon ∧
    Departs (setupFor n {}) 0 (parserFor n [3, 1]) := by
  have checks : unsortedRules.build.toOption.any (fun n =>
      (∀ s ∈ n.states, ∀ t ∈ s.transitions,
        t.reads Symbol.epsilon Symbol.firstToken n.maxToken = false) ∧
      ((parse (setupFor n {}) 0).run (parserFor n [3, 1])).1 = .ok 0 ∧
      ((((parse (setupFor n {}) 0).run (parserFor n [3, 1])).2.tree.leaves? 0).any fun leaves =>
        leaves.any fun l => l.token.type = 1 && !l.isError) ∧
      ∀ q ∈ visited (setupFor n {}) 0 (parserFor n [3, 1]), ∀ s ∈ n.states[q.state]?,
        ∀ t ∈ s.transitions, (t.accepts? n.maxToken).all fun accept => !accept 1) = true := by
    decide +kernel
  cases built : unsortedRules.build with
  | error e => simp [built, Except.toOption] at checks
  | ok n =>
      simp only [built, Except.toOption, Option.any_some, decide_eq_true_eq] at checks
      obtain ⟨silent, outcome, stray, unread⟩ := checks
      have departs := departs_of_stray (settled_parserFor n _) rfl outcome stray unread
      exact ⟨n, rfl, fun q s here => silent s (Array.mem_of_getElem? here), departs⟩

/-- A parse of `1 + 1` is given up because there are too many calls. When a sum is parsed from there,
its tree is attached to the context that was left. -/
theorem departs_leftover : ∃ n, Samples.expression.rules.build = .ok n ∧ n.IsCanonical ∧
    n.Unread Symbol.epsilon ∧
    Departs (setupFor n {}) 1
      ((parse (setupFor n { maxDepth := 1 }) 0).run (parserFor n [1, 3, 1])).2 := by
  have checks : Samples.expression.rules.build.toOption.any (fun n => n.IsCanonical ∧
      (∀ s ∈ n.states, ∀ t ∈ s.transitions,
        t.reads Symbol.epsilon Symbol.firstToken n.maxToken = false) ∧
      let p := ((parse (setupFor n { maxDepth := 1 }) 0).run (parserFor n [1, 3, 1])).2
      ((parse (setupFor n {}) 1).run p).1 = .ok 4 ∧
        ((parse (setupFor n {}) 1).run p).2.tree.parent? 4 ≠ none) = true := by
    decide +kernel
  cases built : Samples.expression.rules.build with
  | error e => simp [built, Except.toOption] at checks
  | ok n =>
      simp only [built, Except.toOption, Option.any_some, decide_eq_true_eq] at checks
      obtain ⟨canonical, silent, outcome, linked⟩ := checks
      have settled := parse_settles (u := setupFor n { maxDepth := 1 }) 0 _ (settled_parserFor n [1, 3, 1])
      exact ⟨n, rfl, canonical, fun q s here => silent s (Array.mem_of_getElem? here),
        departs_of_linked settled rfl outcome linked⟩

/-- None of the conditions on the labels and on the context can be dropped. -/
theorem parse_departs :
    (∃ n, epsilonRules.build = .ok n ∧ n.IsCanonical ∧
      Departs (setupFor n {}) 0 (parserFor n [1, 2, 3])) ∧
    (∃ n, unsortedRules.build = .ok n ∧ n.Unread Symbol.epsilon ∧
      Departs (setupFor n {}) 0 (parserFor n [3, 1])) ∧
    ∃ n, Samples.expression.rules.build = .ok n ∧ n.IsCanonical ∧ n.Unread Symbol.epsilon ∧
      Departs (setupFor n {}) 1
        ((parse (setupFor n { maxDepth := 1 }) 0).run (parserFor n [1, 3, 1])).2 :=
  ⟨departs_epsilon, departs_unsorted, departs_leftover⟩

end Conditions

end Parsing

end AdaptiveLL
