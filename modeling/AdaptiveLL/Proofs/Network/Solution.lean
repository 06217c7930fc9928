import AdaptiveLL.Grammar.Samples
import AdaptiveLL.Proofs.Network.Language
import AdaptiveLL.Proofs.Network.Verified
/-!
The languages of the rules. The definitions of a grammar in EBNF are equations for the languages of
its rules; the words that the runs of the network spell for each rule are the least solution.
-/
namespace AdaptiveLL.RuleSet

open Assembly

variable {g : RuleSet} {n : Network} {low high : Symbol} {rule q : Nat} {body : Element}
  {L : Nat → Language Symbol} {w : List Symbol}

/-- The languages are those of the bodies that the rules are defined by. -/
def Solves (g : RuleSet) (low high : Symbol) (L : Nat → Language Symbol) : Prop :=
  ∀ d ∈ g.definitions, L d.1 = d.2.language low high L

namespace Complete

variable (h : g.Complete) (built : g.build = .ok n)
include h built

/-- The states of the network, each with the edges that were built for it and, at a stop, with the
returns from the calls. -/
theorem state_of_build : n.ruleStarts = g.builder.ruleStarts ∧
    (∀ rule < g.rules.length, n.ruleStops[rule]? = some (2 * rule)) ∧
    n.states.size = g.builder.states.size ∧
    ∀ (q : Nat) (s : State), n.states[q]? = some s → ∃ p, g.builder.states[q]? = some p ∧
      s.kind = p.kind ∧ (p.kind ≠ .ruleStop → s.transitions = p.transitions) ∧
      (p.kind = .ruleStop → ∀ t ∈ s.transitions, t.isEpsilon = true) := by
  have size := (holds_of_build built).2.1.size
  obtain ⟨returns, calls, rfl⟩ := h.build_eq_ok.1 built
  refine ⟨starts_blueprint _, fun rule lt => by simp [network, lt], ?_, fun q s here => ?_⟩
  · simpa [Builder.blueprint] using size
  · rw [network, getElem?_finished, getElem?_blueprint] at here
    obtain ⟨p, planned, rfl⟩ := Option.map_eq_some_iff.1 here
    exact ⟨p, planned, rfl, h.arrived_transitions calls planned, h.stop_transitions calls planned⟩

/-- The network has all settled states as they were built. -/
theorem settledIn : g.builder.SettledIn n := by
  obtain ⟨-, -, size, state⟩ := h.state_of_build built
  intro q p planned settled
  have lt : q < n.states.size := size ▸ (Array.getElem?_eq_some_iff.1 planned).1
  obtain ⟨p', planned', kind, edges, -⟩ := state q _ (Array.getElem?_eq_getElem lt)
  obtain rfl := Option.some.inj (planned.symm.trans planned')
  refine ⟨_, Array.getElem?_eq_getElem lt, ?_, edges settled.1⟩
  simp [State.isRuleStop, kind, settled.1]

theorem stopsSilent : n.StopsSilent := by
  obtain ⟨-, -, -, state⟩ := h.state_of_build built
  intro q s t here stop mem x low high
  obtain ⟨p, -, kind, -, silent⟩ := state q s here
  have epsilon := silent (kind ▸ beq_iff_eq.1 stop) t mem
  cases t <;> first | rfl | cases epsilon

/-- The body of a rule was built into a fragment between the start and the stop of the rule, and what
was settled then is still there in the end. -/
theorem exists_fragment (mem : (rule, body) ∈ g.definitions) : ∃ b : Builder,
    n.ruleStarts = b.ruleStarts ∧ (b.element body).2.Settles g.builder ∧
      n.LeavesBy (2 * rule + 1) [.plain (b.element body).1.entry] ∧
      n.LeavesBy (b.element body).1.exit [.plain (2 * rule)] := by
  obtain ⟨starts, -, -, -⟩ := h.state_of_build built
  have settledIn := h.settledIn built
  obtain ⟨b₀, stage⟩ := g.declared.exists_stage mem
  obtain ⟨follows, ⟨s, _, enters, kind, first⟩, ⟨e, leaves, takes, last⟩⟩ := h.of_stage stage rfl
  have before := (Builder.of_mem_stages h.awaits h.nodup stage).2.1.ruleStarts
  refine ⟨{ b₀ with currentRule := rule }, ?_, follows.settles, ?_, ?_⟩
  · exact starts.trans ((h.follows.1.trans h.follows.2).ruleStarts.trans before.symm)
  · exact first ▸ settledIn _ s enters ⟨by simp [kind], by simp [first]⟩
  · refine last ▸ settledIn _ e leaves ⟨fun stop => ?_, by simp [last]⟩
    simp [stop, StateKind.takesEdge] at takes

/-- The body of a rule spells its language between the start and the stop of the rule. -/
theorem exists_body (low high : Symbol) (mem : (rule, body) ∈ g.definitions) : ∃ f,
    n.ruleStarts[rule]? = some (2 * rule + 1) ∧ n.ruleStops[rule]? = some (2 * rule) ∧
      n.LeavesBy (2 * rule + 1) [.plain f.entry] ∧ n.LeavesBy f.exit [.plain (2 * rule)] ∧
        n.Spells low high f fun L => body.language low high L := by
  obtain ⟨starts, stops, -, -⟩ := h.state_of_build built
  obtain ⟨b, same, settles, enters, leaves⟩ := h.exists_fragment built mem
  obtain ⟨start, -, -⟩ := h.declared (List.getElem?_eq_getElem (h.lt_of_mem mem))
  refine ⟨_, starts ▸ start, stops rule (h.lt_of_mem mem), enters, leaves, ?_⟩
  have formed : body.Formed b.ruleStarts.size := by
    rw [← same, starts, h.size_ruleStarts]
    exact h.formed _ mem
  exact Builder.element_spells (h.stopsSilent built) (holds_of_build built).1 b body formed same
    ((h.settledIn built).before settles)

/-- The words of the body are words of the rule. -/
theorem language_le (mem : (rule, body) ∈ g.definitions) :
    body.language low high (n.language low high) ≤ n.language low high rule := by
  obtain ⟨f, start, stop, enters, leaves, spells⟩ := h.exists_body built low high mem
  intro w word
  have first : n.Run low high (2 * rule + 1, []) [] (f.entry, []) := enters.run_link
  have last : n.Run low high (f.exit, []) [] (2 * rule, []) := leaves.run_link
  refine ⟨_, _, start, stop, ?_⟩
  simpa using (first.trans (spells.complete w word [])).trans last

/-- What leads from the start of a rule to its stop is a word of the body, if the rules that it
calls have the words by which they are left. -/
theorem endsIn_body (mem : (rule, body) ∈ g.definitions) {m : Nat}
    (calls : n.CallsIn low high m L) :
    n.EndsIn low high (m + 1) (2 * rule + 1) (body.language low high L) := by
  obtain ⟨f, start, stop, enters, leaves, spells⟩ := h.exists_body built low high mem
  obtain ⟨s, here, isStop, -⟩ := (holds_of_build built).1.stop_rule stop
  have behind : n.EndsIn low high m f.exit 1 := .plain leaves (.stop here isStop)
  refine .plains [f.entry] enters ?_
  simpa using spells.sound L m 1 calls behind

/-- The words of the rules are among those of any solution. -/
theorem callsIn_of_solves (solves : ∀ d ∈ g.definitions, d.2.language low high L ≤ L d.1)
    (m : Nat) :
    n.CallsIn low high m L := by
  obtain ⟨starts, -, -, -⟩ := h.state_of_build built
  induction m with
  | zero => exact fun rule start _ => .zero start _
  | succ m ih =>
      intro rule start here
      rw [starts] at here
      have lt := (Array.getElem?_eq_some_iff.1 here).1
      rw [h.size_ruleStarts] at lt
      obtain ⟨first, -, -⟩ := h.declared (List.getElem?_eq_getElem lt)
      obtain rfl := Option.some.inj (here.symm.trans first)
      obtain ⟨body, mem⟩ := h.exists_definition lt
      exact (h.endsIn_body built mem ih).mono (Nat.le_refl _) (solves _ mem)

theorem exists_ends (word : w ∈ n.language low high rule) : ∃ start k,
    n.ruleStarts[rule]? = some start ∧ n.Ends low high k start w := by
  obtain ⟨start, stop, starts, stops, run⟩ := word
  obtain ⟨s, here, isStop, -⟩ := (holds_of_build built).1.stop_rule stops
  obtain ⟨k, ends⟩ := Network.unwinds_of_run (h.stopsSilent built) here isStop run
  exact ⟨start, k, starts, ends⟩

/-- The words of the rules are the least solution of their definitions. -/
theorem isLeast_language : IsLeast {L | g.Solves low high L} (n.language low high) := by
  constructor
  · rintro ⟨rule, body⟩ mem
    refine le_antisymm (fun w word => ?_) (h.language_le built mem)
    obtain ⟨start, k, here, ends⟩ := h.exists_ends built word
    obtain ⟨f, start', -⟩ := h.exists_body built low high mem
    obtain rfl := Option.some.inj (here.symm.trans start')
    have calls : n.CallsIn low high k (n.language low high) :=
      h.callsIn_of_solves built (fun d mem => h.language_le built mem) k
    exact h.endsIn_body built mem calls k (Nat.lt_succ_self k) w ends
  · intro L solves rule w word
    obtain ⟨start, k, here, ends⟩ := h.exists_ends built word
    have calls : n.CallsIn low high (k + 1) L :=
      h.callsIn_of_solves built (fun d mem => (solves d mem).ge) (k + 1)
    exact calls rule start here k (Nat.lt_succ_self k) w ends

end Complete

/-- Complete rules are built into a network whose runs from the start of each rule to its stop spell
the words of the rule in the least solution of the definitions. -/
theorem exists_build_isLeast (h : g.Complete) : ∃ n, g.build = .ok n ∧
    ∀ low high, IsLeast {L | g.Solves low high L} (n.language low high) := by
  obtain ⟨returns, calls⟩ := h.exists_returns
  have built := h.build_eq_ok.2 ⟨returns, calls, rfl⟩
  exact ⟨_, built, fun _ _ => h.isLeast_language built⟩

/-- The sample grammar of expressions is complete. -/
theorem exists_build_isLeast_expression : Samples.expression.rules.Complete ∧
    ∃ n, Samples.expression.rules.build = .ok n ∧ ∀ low high,
      IsLeast {L | Samples.expression.rules.Solves low high L} (n.language low high) := by
  have complete : Samples.expression.rules.Complete := by
    constructor
    · decide
    · simp [definitions, Samples.expression, Element.Formed]
  exact ⟨complete, exists_build_isLeast complete⟩

end AdaptiveLL.RuleSet
