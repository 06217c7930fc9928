import AdaptiveLL.Prediction.Closure
import AdaptiveLL.Proofs.Network.Answers
import AdaptiveLL.Proofs.Network.Assembled
import AdaptiveLL.Proofs.Network.Assembling
import AdaptiveLL.Proofs.Network.Ebnf
/-!
Networks whose edges keep to the rules, as those of grammars in EBNF do. An edge other than a
call leads to a state of the same rule, and so does the return from a call; and from every
state of a rule there is a way onward.

The entry of a mode leads into several rules. It is no state that a parser comes to, so the
properties are about live states only.
-/
namespace AdaptiveLL

namespace Network

variable {n : Network} {Live : Nat → Prop}

/-- The state `q` is live and belongs to the rule. -/
def Inside (n : Network) (Live : Nat → Prop) (rule q : Nat) : Prop :=
  Live q ∧ ∃ s, n.states[q]? = some s ∧ s.rule = rule

/-- Edges stay in their rule, and a call comes back to the rule of the caller. -/
structure Confined (n : Network) (Live : Nat → Prop) : Prop extends n.WellFormed where
  edge : ∀ {q : Nat} {s : State} {t : Transition}, Live q → n.states[q]? = some s →
    s.isRuleStop = false → t ∈ s.transitions → Prediction.isCall t = false →
    n.Inside Live s.rule t.target
  call : ∀ {q : Nat} {s : State} {target rule follow : Nat} {precedence : Int},
    n.states[q]? = some s → s.isRuleStop = false →
    .call target rule precedence follow ∈ s.transitions →
    n.Inside Live s.rule follow ∧ n.followState? q = some follow
  start : ∀ {rule q : Nat}, n.ruleStarts[rule]? = some q → n.Inside Live rule q
  stop : ∀ {rule q : Nat}, n.ruleStops[rule]? = some q → Live q
  loop : ∀ {q : Nat} {s : State}, n.states[q]? = some s → s.precedenceLoop = true →
    n.isLeftRecursiveRule s.rule = true

theorem Confined.inside_stop (h : n.Confined Live) {rule q : Nat}
    (stops : n.ruleStops[rule]? = some q) : n.Inside Live rule q := by
  obtain ⟨s, here, -, same⟩ := h.stop_rule stops
  exact ⟨h.stop stops, s, here, same⟩

/-- An edge that is not plain is the only one of its state. -/
structure Alone (n : Network) : Prop where
  alone : ∀ {q : Nat} {s : State} {t : Transition}, n.states[q]? = some s →
    s.isRuleStop = false → t ∈ s.transitions →
    (∀ target outermost, t ≠ .epsilon target outermost) → s.transitions = [t]

theorem Alone.call (h : n.Alone) {q target rule follow : Nat} {precedence : Int} {s : State}
    (here : n.states[q]? = some s) (going : s.isRuleStop = false)
    (mem : .call target rule precedence follow ∈ s.transitions) :
    s.transitions = [.call target rule precedence follow] :=
  h.alone here going mem (by simp)

theorem Alone.follow (h : n.Alone) {q target rule follow : Nat} {precedence : Int} {s : State}
    (here : n.states[q]? = some s) (going : s.isRuleStop = false)
    (mem : .call target rule precedence follow ∈ s.transitions) : n.followState? q = some follow := by
  simp [followState?, here, h.call here going mem]

/-- No live state leads nowhere, and whatever is needed at one is there. -/
structure Onward (n : Network) (Live : Nat → Prop) : Prop where
  going : ∀ {q : Nat} {s : State}, Live q → n.states[q]? = some s → s.isRuleStop = false →
    s.transitions ≠ []
  known : ∀ {q : Nat} {s : State}, Live q → n.states[q]? = some s →
    s.rule < n.ruleStarts.size
  numbered : ∀ {q : Nat} {s : State}, n.states[q]? = some s → s.isDecision = true →
    1 < s.transitions.length → s.decision ≠ none
  decision : ∀ {q d : Nat} {s : State}, n.states[q]? = some s → s.decision = some d →
    n.decisions[d]? = some q

/-- The number is not that of the entry of a mode. -/
def IsInner (n : Network) (q : Nat) : Prop :=
  ∀ s, n.states[q]? = some s → s.kind ≠ .tokensStart

end Network

namespace Builder

variable {b : Builder} {n : Network} {rule q : Nat}

theorem transitions_ne_nil_of_defined (h : b.undefinedRule? = none)
    (start : b.ruleStarts[rule]? = some q) {s : StatePlan} (here : b.states[q]? = some s) :
    s.transitions ≠ [] := by
  intro empty
  have found := List.findSome?_eq_none_iff.1 h q (Array.mem_toList_iff.2 (Array.mem_of_getElem? start))
  simp [here, empty] at found

theorem ruleStarts_of_holds (h : n.Holds b.blueprint) : n.ruleStarts = b.ruleStarts := by
  rw [h.starts]
  refine Array.ext' (List.ext_getElem? fun i => ?_)
  simp [blueprint, Function.comp_def]

/-- A state of the finished network is one of the network under construction. -/
theorem state_of_holds (h : n.Holds b.blueprint) {s : State} (here : n.states[q]? = some s) :
    ∃ s₀, b.states[q]? = some s₀ ∧ s.rule = s₀.rule ∧ s.kind = s₀.kind ∧
      (s.isRuleStop = false → s.transitions = s₀.transitions) := by
  simpa [blueprint] using h.state here

theorem Has.inside (has : b.Has rule q) (h : n.Holds b.blueprint) : n.Inside n.IsInner rule q := by
  obtain ⟨s₀, here₀, same, inner⟩ := has
  have lt : q < n.states.size := by
    simpa [h.size, blueprint] using (Array.getElem?_eq_some_iff.1 here₀).1
  have derived {s : State} (here : n.states[q]? = some s) : s.rule = s₀.rule ∧ s.kind = s₀.kind := by
    obtain ⟨s₁, here₁, rule, kind, -⟩ := state_of_holds h here
    rw [here₀] at here₁
    cases here₁
    exact ⟨rule, kind⟩
  refine ⟨fun s here => (derived here).2 ▸ inner, _, Array.getElem?_eq_getElem lt, ?_⟩
  rw [(derived (Array.getElem?_eq_getElem lt)).1, same]

end Builder

namespace RuleSet

variable {g : RuleSet} {n : Network}

theorem holds_of_build (h : g.build = .ok n) :
    n.WellFormed ∧ n.Holds g.builder.blueprint ∧ g.builder.undefinedRule? = none := by
  unfold build Builder.build at h
  split at h
  case h_1 => cases h
  case h_2 defined => exact ⟨Network.wellFormed_of_assemble h, Network.holds_of_assemble h, defined⟩

theorem assemble_of_build (h : g.build = .ok n) :
    Network.assemble g.builder.kind g.builder.blueprint = .ok n := by
  unfold build Builder.build at h
  split at h
  case h_1 => cases h
  case h_2 => exact h

theorem tidy (g : RuleSet) : g.builder.Tidy True g.builder.ruleStarts.toList :=
  (builder_tidy (.inl trivial)).1

theorem kind_of_build (h : g.build = .ok n) : n.kind = g.kind := by
  unfold build Builder.build at h
  split at h
  case h_1 => cases h
  case h_2 => exact (Network.kind_of_assemble h).trans (builder_tidy (.inl trivial)).2

/-- Edges that are not plain are alone at their states. -/
theorem alone_of_build (h : g.build = .ok n) : n.Alone := by
  obtain ⟨-, holds, -⟩ := holds_of_build h
  constructor
  intro q s t here going mem special
  obtain ⟨s₀, here₀, -, kind, edges⟩ := Builder.state_of_holds holds here
  have leads := g.tidy.leads here₀ (edges going ▸ mem)
  have basic : s₀.kind = .basic := by
    cases t with
    | epsilon target outermost => exact absurd rfl (special target outermost)
    | _ => exact leads.1
  have one : s.transitions.length ≤ 1 := by
    by_contra several
    have branches := holds.branching here (Nat.lt_of_not_le several)
    simp [State.isDecision, State.isRuleStop, kind, basic, StateKind.isDecision] at branches
  obtain ⟨first, rest⟩ := List.length_eq_one_iff.1
    (Nat.le_antisymm one (List.length_pos_of_mem mem))
  rw [rest] at mem ⊢
  rw [List.mem_singleton.1 mem]

/-- The edges of a grammar in EBNF keep to the rules. -/
theorem confined_of_build (h : g.build = .ok n) : n.Confined n.IsInner := by
  obtain ⟨wellFormed, holds, defined⟩ := holds_of_build h
  have starts := Builder.ruleStarts_of_holds holds
  constructor
  case toWellFormed => exact wellFormed
  case edge =>
    intro q s t live here going mem plain
    obtain ⟨s₀, here₀, rule, kind, edges⟩ := Builder.state_of_holds holds here
    have leads := g.tidy.leads here₀ (edges going ▸ mem)
    rw [rule]
    cases t with
    | epsilon => exact (leads (kind ▸ live s here)).inside holds
    | call => cases plain
    | _ => exact leads.2.inside holds
  case call =>
    intro q s target rule follow precedence here going mem
    obtain ⟨s₀, here₀, rule, -, edges⟩ := Builder.state_of_holds holds here
    have leads := g.tidy.leads here₀ (edges going ▸ mem)
    rw [rule]
    exact ⟨leads.2.inside holds, (alone_of_build h).follow here going mem⟩
  case start =>
    intro rule q start
    exact (g.tidy.has_start (starts ▸ start)).inside holds
  case stop =>
    intro rule q stop s here
    obtain ⟨s', here', isStop, -⟩ := wellFormed.stop_rule stop
    rw [here] at here'
    cases here'
    intro entry
    simp [State.isRuleStop, entry] at isStop
  case loop => exact holds.loop

/-- Every call comes back to a state of a rule of the network. -/
theorem entire_of_build (h : g.build = .ok n) : n.Entire where
  toWellFormed := (holds_of_build h).1
  decision_lt _ mem := Assembly.decision_lt_of_assemble (assemble_of_build h) mem
  known := by
    rintro _ ⟨unknown, q, s, target, callee, precedence, follow, r, here, called, behind, rfl⟩
    obtain ⟨-, holds, -⟩ := holds_of_build h
    obtain ⟨p, planned, called⟩ := Assembly.planned_of_call (assemble_of_build h) here called
    have planned : g.builder.states[q]? = some p := by simpa [Builder.blueprint] using planned
    obtain ⟨-, p', there, -, inner⟩ := g.tidy.leads planned called
    obtain ⟨r₀, there', rule, -, -⟩ := Builder.state_of_holds holds behind
    obtain rfl := Option.some.inj (there.symm.trans there')
    rw [rule, Builder.ruleStarts_of_holds holds] at unknown
    exact absurd (g.tidy.rules there inner) (Nat.not_lt.2 unknown)

/-- From every state of a rule there is a way onward. -/
theorem onward_of_build (h : g.build = .ok n) (filled : g.Filled) : n.Onward n.IsInner := by
  obtain ⟨-, holds, defined⟩ := holds_of_build h
  have tidy : g.builder.Tidy False g.builder.ruleStarts.toList := (builder_tidy (.inr filled)).1
  have starts := Builder.ruleStarts_of_holds holds
  constructor
  case going =>
    intro q s live here going empty
    obtain ⟨s₀, here₀, -, kind, edges⟩ := Builder.state_of_holds holds here
    have empty₀ : s₀.transitions = [] := (edges going).symm.trans empty
    rcases tidy.going here₀ empty₀ with stop | entry | loose | mem
    · simp [State.isRuleStop, kind, stop] at going
    · exact live s here (kind.trans entry)
    · exact loose
    · obtain ⟨rule, lt, rfl⟩ := Array.getElem_of_mem (Array.mem_toList_iff.1 mem)
      have start := Array.getElem?_eq_getElem lt
      exact Builder.transitions_ne_nil_of_defined defined start here₀ empty₀
  case known =>
    intro q s live here
    obtain ⟨s₀, here₀, rule, kind, -⟩ := Builder.state_of_holds holds here
    rw [rule, starts]
    exact tidy.rules here₀ (kind ▸ live s here)
  case numbered => exact holds.numbered
  case decision => exact holds.decision

end RuleSet

end AdaptiveLL
