import AdaptiveLL.Proofs.Network.Confined
import AdaptiveLL.Proofs.Parser.Frames
import AdaptiveLL.Proofs.Prediction.Session
/-!
Where a parser stands: at a state of the rule of its innermost call. If the edges of a network
keep to the rules, every turn keeps this. In a network where in addition no state leads
nowhere, a parser is never stuck.
-/
namespace AdaptiveLL

variable {σ τ : Type} [TokenSource σ] {u : ParserSetup τ} {p p' : Parser σ τ} {f : Frame}
  {rest : List Frame} {ground : Ground} {leaves : List Leaf} {Live : Nat → Prop} {root : Nat}

open AdaptiveLL.Parser (Acts Returns Ends Lasts)

/-- The parser stands at a live state of the rule of its innermost call, and its outermost call
is one of the rule `root`. -/
structure Parser.Stands (n : Network) (ground : Ground) (Live : Nat → Prop) (root : Nat)
    (p : Parser σ τ) (f : Frame) (rest : List Frame) : Prop extends p.On n ground (f :: rest) where
  inside : n.Inside Live f.rule p.state
  base : (rest.getLast?.getD f).rule = root

/-- The tables of the parser are those of the network, and nothing prescribes a prediction. -/
structure Parser.Prepared (n : Network) (p : Parser σ τ) : Prop where
  placed : p.input.Placed
  prescription : p.prescription = none
  starts : p.simulation.tables.starts = n.decisions
  within : p.simulation.tables.Within n.HasEdge

theorem Parser.Prepared.lasts (h : p.Prepared u.grammar.network) (lasts : p.Lasts u p') :
    p'.Prepared u.grammar.network where
  placed := lasts.input.placed h.placed
  prescription := lasts.prescription h.prescription
  starts := lasts.starts.trans h.starts
  within := lasts.within _ u.grammar.network.offers_hasEdge h.within

namespace Parser.Stands

omit [TokenSource σ] in
theorem rule_eq {n : Network} {s : State} (h : p.Stands n ground Live root f rest)
    (here : n.states[p.state]? = some s) : s.rule = f.rule := by
  obtain ⟨-, s', here', same⟩ := h.inside
  rw [here] at here'
  cases here'
  exact same

end Parser.Stands

namespace Parser.On

variable {n : Network}

omit [TokenSource σ] in
theorem contextRule? (h : p.On n ground (f :: rest)) :
    p.contextRule?.map RuleNode.rule = some f.rule := by
  obtain ⟨parent, link, -⟩ := h.stacked.linked_head.exists_link
  rw [Parser.contextRule?, h.context_cons, Option.bind_some]
  have link := congrArg (Option.map Link.rule) link
  rwa [ParseTree.link?, Option.map_map] at link

/-- Crossing an edge of the rule of the innermost call leads to a state of the rule, or into a
new call. -/
theorem crosses {s : State} {t : Transition} (confined : u.grammar.network.Confined Live)
    (h : p.On u.grammar.network ground (f :: rest)) {number : Nat} (live : Live number)
    (here : u.grammar.network.states[number]? = some s) (same : s.rule = f.rule)
    (going : s.isRuleStop = false) (mem : t ∈ s.transitions)
    (base : (rest.getLast?.getD f).rule = root) (crosses : Crosses u number s p t p' leaves) :
    ∃ f' rest',
      ({ p' with state := t.target } : Parser σ τ).Stands u.grammar.network ground Live root f' rest' := by
  have stays {q : Parser σ τ} {context : NodeId} (plain : Prediction.isCall t = false)
      (on : q.On u.grammar.network ground ({ f with context } :: rest)) :
      ∃ f' rest',
        ({ q with state := t.target } : Parser σ τ).Stands u.grammar.network ground Live root f' rest' := by
    refine ⟨_, rest, on.at_state t.target, same ▸ confined.edge live here going mem plain, ?_⟩
    cases rest with
    | nil => exact base
    | cons => simpa [List.getLast?_cons] using base
  cases crosses with
  | plain => exact stays rfl h
  | wrap loop _ acts =>
      rw [h.contextRule?, Option.getD_some] at acts
      exact stays rfl ((h.wrapped (same ▸ confined.loop here loop)).acts acts)
  | read accepts acts =>
      refine stays ?_ (h.acts acts)
      cases t <;> first | rfl | cases accepts
  | call callee room acts =>
      obtain ⟨-, follows⟩ := confined.call here going mem
      have starts := confined.start (confined.call_start here mem)
      refine ⟨_, _, ((h.entered_call ?_).acts acts).at_state _, ⟨starts.1, _, callee, rfl⟩, ?_⟩
      · exact ⟨_, _, _, _, _, _, rfl, here, going, same, mem, ⟨_, callee, rfl⟩, follows, rfl⟩
      · simpa [List.getLast?_cons] using base
  | predicate acts => exact stays rfl (h.acts acts)
  | precedence => exact stays rfl h
  | action acts => exact stays rfl (h.acts acts)

end Parser.On

namespace Parser.Stands

/-- A turn leads to a state of the rule of the innermost call. -/
theorem turn (confined : u.grammar.network.Confined Live)
    (h : p.Stands u.grammar.network ground Live root f rest) (turn : Turn u p p' leaves) :
    ∃ f' rest', p'.Stands u.grammar.network ground Live root f' rest' := by
  cases turn with
  | edge here going _ acts _ _ edge crosses =>
      have on := h.toOn.acts acts
      exact on.crosses confined h.inside.1 here (h.rule_eq here) going
        (List.mem_of_getElem? edge) h.base crosses
  | abandon here going stops acts =>
      refine ⟨f, rest, (h.toOn.at_state _).acts acts, ?_, h.base⟩
      rw [acts.state, ← h.rule_eq here]
      exact confined.inside_stop stops
  | «return» here stop inner returns follows acts =>
      rw [h.rule_eq here] at returns
      obtain ⟨on, state⟩ := h.toOn.returns returns
      cases rest with
      | nil => exact absurd (h.toOn.atRoot_iff.2 rfl) inner
      | cons caller rest =>
          refine ⟨caller, rest, (on.at_state _).acts acts, ?_, by simpa [List.getLast?_cons] using h.base⟩
          cases h.stacked with
          | call _ _ _ made =>
              obtain ⟨i, s, _, _, _, follow, invoking, made, going, same, mem, -⟩ := made
              obtain ⟨inside, here⟩ := confined.call made going mem
              rw [state, invoking, Option.getD_some, here] at follows
              cases follows
              rw [acts.state, ← same]
              exact inside

omit [TokenSource σ] in
/-- A parser that stands in a network that leads onward is not stuck. -/
theorem not_stuck (confined : u.grammar.network.Confined Live)
    (onward : u.grammar.network.Onward Live) (h : p.Stands u.grammar.network ground Live root f rest)
    (prepared : p.Prepared u.grammar.network) : ¬ Stuck u p := by
  obtain ⟨live, s, here, same⟩ := h.inside
  have known := onward.known live here
  intro stuck
  cases stuck with
  | nowhere missing => simp [here] at missing
  | undecided here' _ decides several unknown =>
      rw [here] at here'
      cases here'
      obtain ⟨d, number⟩ := Option.ne_none_iff_exists'.1 (onward.numbered here decides several)
      have missing := unknown d number
      rw [prepared.starts, onward.decision here number] at missing
      cases missing
  | edgeless here' going chosen missing =>
      rw [here] at here'
      cases here'
      cases chosen with
      | only =>
          have empty := List.getElem?_eq_none_iff.1 (missing Nat.one_ne_zero)
          exact onward.going live here going (List.eq_nil_of_length_eq_zero (Nat.le_zero.1 empty))
      | decided number predicted =>
          obtain ⟨q, starts, holds⟩ := predicted prepared.prescription
          rw [prepared.starts, onward.decision here number] at starts
          cases starts
          obtain ⟨pos, s', here', le⟩ := holds _ u.grammar.network.offers_hasEdge prepared.within
          rw [here] at here'
          cases here'
          have beyond := List.getElem?_eq_none_iff.1 (missing (Nat.ne_of_gt pos))
          omega
  | startless here' _ missing | stopless here' _ missing =>
      rw [here] at here'
      cases here'
      have beyond := Array.getElem?_eq_none_iff.1 missing
      have size := confined.stops_size
      omega
  | stranded here' _ inner missing =>
      rw [here] at here'
      cases here'
      obtain ⟨q, returns⟩ := h.toOn.exists_returns (u := u)
      obtain ⟨-, state⟩ := h.toOn.returns returns
      have nowhere := missing q (same ▸ returns)
      cases h.stacked with
      | root _ invoking => exact inner (h.toOn.atRoot_iff.2 rfl)
      | call _ _ _ made =>
          obtain ⟨i, _, _, _, _, _, invoking, _, _, _, _, _, follows, _⟩ := made
          rw [state, invoking, Option.getD_some, follows] at nowhere
          cases nowhere

end Parser.Stands

/-- There are never more calls than are allowed. -/
theorem Turn.depth_le (h : Turn u p p' leaves) (room : p.depth ≤ u.options.maxDepth) :
    p'.depth ≤ u.options.maxDepth := by
  cases h with
  | edge _ _ _ acts _ _ _ crosses =>
      rw [← acts.depth] at room
      cases crosses with
      | plain | precedence => exact room
      | wrap _ _ acts => exact Nat.le_trans (Nat.le_of_eq (acts.depth.trans (Parser.wrapped_depth _))) room
      | read _ acts | predicate acts | action acts => exact Nat.le_trans (Nat.le_of_eq acts.depth) room
      | call _ room acts => exact Nat.le_trans (Nat.le_of_eq (acts.depth.trans (Parser.entered_depth _))) room
  | abandon _ _ _ acts => exact Nat.le_trans (Nat.le_of_eq acts.depth) room
  | «return» _ _ _ returns _ acts => exact Nat.le_trans (Nat.le_of_eq acts.depth) (Nat.le_trans returns.depth_le room)

end AdaptiveLL
