import AdaptiveLL.Proofs.Network.Assembled
import AdaptiveLL.Proofs.Network.Assembling
import AdaptiveLL.Proofs.Network.Settling
/-!
Moves of threads that do not know their callers. The end of a rule without an open call goes on
behind every call of the rule, by the edges back to the callers that assembling derives.
-/
namespace AdaptiveLL

open Relation (ReflTransGen)

/-- Whether the edge asks a predicate or for a level of precedence. -/
def Transition.isGuarded : Transition → Bool
  | predicate .. | precedence .. => true
  | _ => false

namespace Network

/-- No edge asks a predicate or for a level of precedence. -/
def IsPredicateFree (n : Network) : Prop :=
  ∀ s ∈ n.states, ∀ t ∈ s.transitions, t.isGuarded = false

instance (n : Network) : Decidable n.IsPredicateFree :=
  inferInstanceAs (Decidable (∀ s ∈ n.states, ∀ t ∈ s.transitions, t.isGuarded = false))

/-- The state is the stop of a rule, and a call of that rule goes on at `follow`. -/
def Leaves (n : Network) (q follow : Nat) : Prop :=
  ∃ (caller : Nat) (s : State) (target rule : Nat) (precedence : Int),
    n.states[caller]? = some s ∧ .call target rule precedence follow ∈ s.transitions ∧
      n.ruleStops[rule]? = some q

/-- One move that reads nothing. If callers may be unknown, the end of a rule with no call open goes
on behind every call of the rule. -/
inductive Drifts (n : Network) (full : Bool) : Place → Place → Prop where
  | silent {p p' : Place} (move : n.Silent p p') : Drifts n full p p'
  | leave {q follow : Nat} (unknown : full = false) (leaves : n.Leaves q follow) :
      Drifts n full (q, []) (follow, [])

/-- Where a thread stays: it can read there, or it has finished, with nowhere to go on to. -/
def Rests (n : Network) (full : Bool) (p : Place) : Prop :=
  ∃ s, n.states[p.1]? = some s ∧
    ((s.isRuleStop = false ∧ s.isEpsilonOnly = false) ∨
      (s.isRuleStop = true ∧ p.2 = [] ∧ (full = true ∨ s.transitions = [])))

/-- Where a thread stays that comes from the place without reading. -/
def restsFrom (n : Network) (full : Bool) (p : Place) : Set Place :=
  { p' | ReflTransGen (n.Drifts full) p p' ∧ n.Rests full p' }

/-- The edges of the stops of rules are those that lead back to the callers. -/
def StopsReturn (n : Network) : Prop :=
  ∀ {q : Nat} {s : State}, n.states[q]? = some s → s.isRuleStop = true →
    (∀ t ∈ s.transitions, ∃ follow outermost, t = .epsilon follow outermost ∧ n.Leaves q follow) ∧
      ∀ follow, n.Leaves q follow → ∃ outermost, .epsilon follow outermost ∈ s.transitions

/-- All that is found of a thread without leaving a rule whose callers are unknown: it is found
where the thread stays, and `behind` are the states behind the calls of the rules that it ends. -/
def Covers (n : Network) (full : Bool) (behind : Set Nat) (found : Set Place) (p : Place) : Prop :=
  ∀ p', ReflTransGen n.Silent p p' → (n.Rests full p' → p' ∈ found) ∧
    (full = false → p'.2 = [] → ∀ follow, n.Leaves p'.1 follow → follow ∈ behind)

namespace Covers

variable {n : Network} {full : Bool} {behind behind' : Set Nat} {found found' : Set Place}
  {p p' : Place}

theorem mono (h : n.Covers full behind found p) (left : behind ⊆ behind') (more : found ⊆ found') :
    n.Covers full behind' found' p := by
  intro p' path
  obtain ⟨rests, leaves⟩ := h p' path
  exact ⟨fun stays => more (rests stays), fun unknown empty follow h => left (leaves unknown empty follow h)⟩

theorem step (h : n.Covers full behind found p) (move : n.Silent p p') :
    n.Covers full behind found p' :=
  fun p'' path => h p'' (.head move path)

/-- What is found at a place, and behind all of its moves. -/
theorem intro (own : n.Rests full p → p ∈ found)
    (leaves : full = false → p.2 = [] → ∀ follow, n.Leaves p.1 follow → follow ∈ behind)
    (next : ∀ p', n.Silent p p' → n.Covers full behind found p') : n.Covers full behind found p := by
  intro p' path
  rcases ReflTransGen.cases_head path with rfl | ⟨p₁, move, rest⟩
  · exact ⟨own, leaves⟩
  · exact next p₁ move p' rest

/-- With known callers, nothing is left to be found behind the end of the last rule. -/
theorem ended {q : Nat} {s : State} (here : n.states[q]? = some s) (stop : s.isRuleStop = true)
    (own : (q, []) ∈ found) : n.Covers true behind found (q, []) := by
  refine .intro (fun _ => own) (fun unknown => nomatch unknown) fun p' move => ?_
  cases move with
  | edge here' inside =>
      obtain rfl := Option.some.inj (here.symm.trans here')
      cases inside.symm.trans stop

/-- The end of a rule with an open call goes back there, and nowhere else. -/
theorem back {q resume : Nat} {frames : List Nat} {s : State} (here : n.states[q]? = some s)
    (stop : s.isRuleStop = true) (h : n.Covers full behind found (resume, frames)) :
    n.Covers full behind found (q, resume :: frames) := by
  refine .intro ?_ (fun _ empty => nomatch empty) fun p' move => ?_
  · rintro ⟨s', here', stays⟩
    obtain rfl := Option.some.inj (here.symm.trans here')
    rcases stays with ⟨inside, -⟩ | ⟨-, none, -⟩
    · cases inside.symm.trans stop
    · cases none
  · cases move with
    | edge here' inside =>
        obtain rfl := Option.some.inj (here.symm.trans here')
        cases inside.symm.trans stop
    | back => exact h

/-- If all is found behind the calls as well, every place is found where the thread may stay. -/
theorem closed (h : n.Covers full behind found p)
    (all : ∀ follow ∈ behind, n.Covers full behind found (follow, []))
    (path : ReflTransGen (n.Drifts full) p p') (stays : n.Rests full p') : p' ∈ found := by
  suffices n.Covers full behind found p' from (this p' .refl).1 stays
  clear stays
  induction path with
  | refl => exact h
  | tail _ drift ih =>
      cases drift with
      | silent move => exact ih.step move
      | leave unknown leaves => exact all _ ((ih _ .refl).2 unknown rfl _ leaves)

end Covers

end Network

namespace Assembly

variable {states : Array State} {starts stops : Array Nat} {edges : List (Nat × Transition)}

/-- The return edges are those of the calls. -/
theorem mem_returnEdges (h : returnEdges states starts stops = .ok edges) {e : Nat × Transition} :
    e ∈ edges ↔ ∃ (q : Nat) (s : State) (t : Transition), states[q]? = some s ∧ t ∈ s.transitions ∧
      returnEdge states starts stops q t = .ok (some e) := by
  obtain ⟨found, hfound, h⟩ := Except.bind_eq_ok.1 h
  obtain rfl := Except.ok.inj h
  constructor
  · intro mem
    obtain ⟨_, mem, rfl⟩ := List.mem_filterMap.1 mem
    obtain ⟨row, hrow, mem⟩ := List.mem_flatten.1 mem
    obtain ⟨⟨s, q⟩, here, hrow⟩ := exists_of_forall₂_right (Except.mapM_eq_ok hfound) hrow
    obtain ⟨t, ht, hedge⟩ := exists_of_forall₂_right (Except.mapM_eq_ok hrow) mem
    exact ⟨q, s, t, by simpa using List.mem_zipIdx_iff_getElem?.1 here, ht, hedge⟩
  · rintro ⟨q, s, t, here, ht, hedge⟩
    have listed : (s, q) ∈ states.toList.zipIdx := List.mem_zipIdx_iff_getElem?.2 (by simpa using here)
    obtain ⟨row, inFound, hrow⟩ := exists_of_forall₂_left (Except.mapM_eq_ok hfound) listed
    obtain ⟨edge, inRow, hedge'⟩ := exists_of_forall₂_left (Except.mapM_eq_ok hrow) ht
    obtain rfl := Except.ok.inj (hedge.symm.trans hedge')
    exact List.mem_filterMap.2 ⟨_, List.mem_flatten.2 ⟨row, inFound, inRow⟩, rfl⟩

/-- A return edge leaves the stop of the rule that is called. -/
theorem returnEdge_eq {number target rule follow : Nat} {precedence : Int}
    {edge : Option (Nat × Transition)}
    (h : returnEdge states starts stops number (.call target rule precedence follow) = .ok edge) :
    ∃ stop outermost, stops[rule]? = some stop ∧ edge = some (stop, .epsilon follow outermost) := by
  simp only [returnEdge] at h
  split at h
  case h_2 => cases h
  case h_1 start stop _ hstop =>
      split at h
      case isTrue => cases h
      case isFalse => exact ⟨stop, _, hstop, (Except.ok.inj h).symm⟩

theorem exists_returnEdge (h : returnEdges states starts stops = .ok edges) {q : Nat} {s : State}
    (here : states[q]? = some s) {t : Transition} (mem : t ∈ s.transitions) :
    ∃ edge, returnEdge states starts stops q t = .ok edge := by
  obtain ⟨found, hfound, -⟩ := Except.bind_eq_ok.1 h
  have listed : (s, q) ∈ states.toList.zipIdx := List.mem_zipIdx_iff_getElem?.2 (by simpa using here)
  obtain ⟨row, -, hrow⟩ := exists_of_forall₂_left (Except.mapM_eq_ok hfound) listed
  obtain ⟨edge, -, hedge⟩ := exists_of_forall₂_left (Except.mapM_eq_ok hrow) mem
  exact ⟨edge, hedge⟩

end Assembly

namespace Network

open Assembly

variable {n : Network}

/-- Where the blueprint leaves the edges of the stops to assembling, they are those that lead back
to the callers. -/
theorem stopsReturn_of_assemble {kind : GrammarKind} {plan : Blueprint}
    (h : assemble kind plan = .ok n) (bare : plan.StopsBare) : n.StopsReturn := by
  obtain ⟨stops, returns, passes, rfl⟩ := assemble_eq_ok.1 h
  -- Each state has its planned edges, and behind them the edges back to the callers.
  have built {q : Nat} {s : State} (here : (finished plan returns)[q]? = some s) :
      ∃ p, plan.states[q]? = some p ∧ s.kind = p.kind ∧
        s.transitions = p.transitions ++ (returns.filter (·.1 == q)).map Prod.snd := by
    rw [getElem?_finished, Option.map_eq_some_iff] at here
    obtain ⟨p, planned, rfl⟩ := here
    exact ⟨p, planned, rfl, rfl⟩
  have written_eq {q : Nat} {p : StatePlan} (planned : plan.states[q]? = some p) :
      (written plan)[q]? = some (arrived [] q p) := by
    rw [getElem?_written, planned, Option.map_some]
  intro q s here stop
  have returned (t : Transition) : t ∈ s.transitions ↔ (q, t) ∈ returns := by
    obtain ⟨p, planned, kind, edges⟩ := built here
    have none : p.transitions = [] := by
      apply bare p (List.mem_of_getElem? planned)
      simpa [State.isRuleStop, kind] using stop
    rw [edges, none, List.nil_append, List.mem_map]
    constructor
    · rintro ⟨⟨q', t'⟩, mem, rfl⟩
      obtain ⟨mem, same⟩ := List.mem_filter.1 mem
      rwa [← beq_iff_eq.1 same]
    · intro mem
      exact ⟨(q, t), List.mem_filter.2 ⟨mem, beq_self_eq_true q⟩, rfl⟩
  constructor
  · intro t mem
    obtain ⟨caller, s', t', here', mem', edge⟩ := (mem_returnEdges passes.calls).1 ((returned t).1 mem)
    obtain ⟨target, rule, precedence, follow, rfl⟩ := returnEdge_isCall edge
    obtain ⟨stop', outermost, stops', eq⟩ := returnEdge_eq edge
    obtain ⟨rfl, rfl⟩ := Prod.mk.inj (Option.some.inj eq)
    refine ⟨follow, outermost, rfl, ?_⟩
    rw [getElem?_written, Option.map_eq_some_iff] at here'
    obtain ⟨p, planned, rfl⟩ := here'
    have planned' : Transition.call target rule precedence follow ∈ p.transitions := by
      simpa [arrived] using mem'
    have inNetwork : (finished plan returns)[caller]? = _ := getElem?_finished caller
    rw [planned, Option.map_some] at inNetwork
    exact ⟨caller, _, target, rule, precedence, inNetwork, List.mem_append_left _ planned', stops'⟩
  · rintro follow ⟨caller, s', target, rule, precedence, here', mem', stops'⟩
    obtain ⟨p, planned, -, edges⟩ := built here'
    rw [edges] at mem'
    rcases List.mem_append.1 mem' with call | back
    · have call' : Transition.call target rule precedence follow ∈ (arrived [] caller p).transitions := by
        simpa [arrived] using call
      obtain ⟨edge, made⟩ := exists_returnEdge passes.calls (written_eq planned) call'
      obtain ⟨stop', outermost, stops'', rfl⟩ := returnEdge_eq made
      obtain rfl := Option.some.inj (stops'.symm.trans stops'')
      refine ⟨outermost, (returned _).2 ?_⟩
      exact (mem_returnEdges passes.calls).2 ⟨caller, _, _, written_eq planned, call', made⟩
    · -- The edges back to the callers are no calls.
      obtain ⟨e, mem, eq⟩ := List.mem_map.1 back
      obtain ⟨_, _, _, _, _, _, _, -, -, plain⟩ :=
        returnEdges_follow passes.calls (List.mem_of_mem_filter mem)
      cases plain.symm.trans eq

end Network

end AdaptiveLL
