import AdaptiveLL.Proofs.Network.Assembling
import AdaptiveLL.Proofs.Network.Confined
import AdaptiveLL.Proofs.Network.Shapes
/-!
Grammars in EBNF are built. Every state has the shape that its kind asks for, so that the blueprint
of the states passes each check when it is assembled; the partners of blocks and loops are the
states beside them, and the loops that are marked as operator loops are those that were built for
the operators of left-recursive rules.
-/
namespace AdaptiveLL

namespace Except

variable {ε α β : Type}

/-- A function that fails on no member of a list yields what it yields on each. -/
theorem mapM_of_ok {f : α → Except ε β} {value : α → β} {l : List α}
    (h : ∀ a ∈ l, f a = .ok (value a)) : l.mapM f = .ok (l.map value) := by
  induction l with
  | nil => rfl
  | cons a l ih =>
      obtain ⟨first, rest⟩ := List.forall_mem_cons.1 h
      simp [first, ih rest, bind, Except.bind, pure, Except.pure]

theorem exists_mapM_of_ok {f : α → Except ε β} {l : List α} (h : ∀ a ∈ l, ∃ b, f a = .ok b) :
    ∃ bs, l.mapM f = .ok bs := by
  induction l with
  | nil => exact ⟨[], rfl⟩
  | cons a l ih =>
      obtain ⟨⟨b, first⟩, rest⟩ := List.forall_mem_cons.1 h
      obtain ⟨bs, rest⟩ := ih rest
      exact ⟨b :: bs, by simp [first, rest, bind, Except.bind, pure, Except.pure]⟩

end Except

namespace RuleSet

open Assembly

variable {g : RuleSet} {q : Nat} {p : StatePlan} {returns : List (Nat × Transition)}

theorem getElem?_blueprint (b : Builder) (q : Nat) : b.blueprint.states[q]? = b.states[q]? := by
  simp [Builder.blueprint]

theorem starts_blueprint (b : Builder) : starts b.blueprint = b.ruleStarts := by
  refine Array.ext' (List.ext_getElem? fun i => ?_)
  simp [starts, Builder.blueprint, Function.comp_def]

theorem size_written (b : Builder) : (written b.blueprint).size = b.states.size := by
  simp [written, Builder.blueprint]

/-- A state passes the check if it has the shape that its kind asks for, and several edges only
where it may have them: at a decision that is numbered, or at the stop of a rule. -/
theorem defect?_eq_none_of {states : Array State} {s : State} (shape : checkShape states s = none)
    (several : 1 < s.transitions.length → s.isEpsilonOnly = true ∧
      (s.kind.isDecision = true ∧ s.decision ≠ none ∨ s.isRuleStop = true)) :
    defect? states s = none := by
  unfold defect?
  by_cases many : 1 < s.transitions.length
  · obtain ⟨silent, ⟨decides, numbered⟩ | stop⟩ := several many
    · simp [many, silent, shape, decides, Option.isNone_iff_eq_none, numbered]
    · have ordinary : s.kind.isDecision = false := by
        rw [beq_iff_eq.1 stop]
        rfl
      simp [silent, shape, ordinary, stop]
  · simp [many, shape]

theorem finished_kind (returns : List (Nat × Transition)) {b : Builder} {kind : StateKind}
    (is : b.IsKind q kind) : (finished b.blueprint returns)[q]?.map State.kind = some kind := by
  obtain ⟨p, here, rfl⟩ := is
  simp [getElem?_finished, getElem?_blueprint, here, derived, arrived]

namespace Complete

variable (h : g.Complete)
include h

/-- The edges of a state lead to states, and so do the returns of its calls. -/
theorem edge_lt (here : g.builder.states[q]? = some p) {t : Transition} (mem : t ∈ p.transitions) :
    t.target < g.builder.states.size ∧ ∀ target rule level follow,
      t = .call target rule level follow → follow < g.builder.states.size := by
  have lt {q : Nat} {rule : Nat} (has : g.builder.Has rule q) : q < g.builder.states.size := by
    obtain ⟨s, here, -⟩ := has
    exact (Array.getElem?_eq_some_iff.1 here).1
  have start_lt {rule q : Nat} (start : g.builder.ruleStarts[rule]? = some q) :
      q < g.builder.states.size :=
    lt (g.tidy.has_start start)
  have shaped := h.shapely.shaped q p here
  have leads := g.tidy.leads here mem
  by_cases entry : p.kind = .tokensStart
  · simp only [Builder.IsShaped, entry] at shaped
    obtain ⟨-, ⟨targets, plain⟩, starts⟩ := shaped
    obtain ⟨rule, inside, start⟩ := Array.getElem_of_mem (starts t mem)
    rw [plain] at mem
    obtain ⟨target, -, rfl⟩ := List.mem_map.1 mem
    exact ⟨start_lt (start ▸ Array.getElem?_eq_getElem inside), by simp [Transition.plain]⟩
  · cases t with
    | epsilon => exact ⟨lt (leads entry), by simp⟩
    | call target rule level follow =>
        simp only [Builder.IsShaped, leads.1] at shaped
        refine ⟨start_lt (shaped.2 target rule level follow mem), ?_⟩
        rintro _ _ _ _ ⟨⟩
        exact lt leads.2
    | atom | range | set | notSet | wildcard | predicate | precedence | action =>
        exact ⟨lt leads.2, by simp⟩

/-- The stop of each rule is the one that its start names. -/
theorem stopOf_eq {rule start : Nat} (here : g.builder.ruleStarts[rule]? = some start) :
    stopOf (written g.builder.blueprint) rule start = .ok (2 * rule) := by
  have lt := (Array.getElem?_eq_some_iff.1 here).1
  rw [h.size_ruleStarts] at lt
  obtain ⟨start', ⟨s, stop, rule_s, kind_s⟩, s', first, -, kind'⟩ :=
    h.declared (List.getElem?_eq_getElem lt)
  obtain rfl := Option.some.inj (start'.symm.trans here)
  simp [stopOf, getElem?_written, getElem?_blueprint, first, stop, arrived, kind', kind_s, rule_s,
    State.isRuleStop]

/-- The returns of all calls can be listed. -/
theorem exists_returns : ∃ returns,
    returnEdges (written g.builder.blueprint) (starts g.builder.blueprint)
      ((List.range g.rules.length).map (2 * ·)).toArray = .ok returns := by
  have each : ∀ x ∈ (written g.builder.blueprint).toList.zipIdx, ∃ found,
      x.1.transitions.mapM (returnEdge (written g.builder.blueprint) (starts g.builder.blueprint)
        ((List.range g.rules.length).map (2 * ·)).toArray x.2) = .ok found := by
    rintro ⟨s, number⟩ mem
    have here : (written g.builder.blueprint)[number]? = some s := by
      simpa using List.mem_zipIdx_iff_getElem?.1 mem
    rw [getElem?_written, getElem?_blueprint] at here
    obtain ⟨p, planned, rfl⟩ := Option.map_eq_some_iff.1 here
    refine Except.exists_mapM_of_ok fun t mem => ?_
    cases t with
    | call target rule level follow =>
        have mem : .call target rule level follow ∈ p.transitions := by simpa [arrived] using mem
        have shaped := h.shapely.shaped number p planned
        simp only [Builder.IsShaped, (g.tidy.leads planned mem).1] at shaped
        have start := shaped.2 target rule level follow mem
        have lt := (Array.getElem?_eq_some_iff.1 start).1
        rw [h.size_ruleStarts] at lt
        exact ⟨_, by simp [returnEdge, starts_blueprint, start, lt]; rfl⟩
    | _ => exact ⟨none, rfl⟩
  obtain ⟨found, all⟩ := Except.exists_mapM_of_ok each
  exact ⟨_, Except.bind_eq_ok.2 ⟨found, all, rfl⟩⟩

/-! ### What is beside blocks and loops -/

/-- A block end is opened by the state behind it. -/
theorem opens_iff (kind : g.builder.IsKind q .blockEnd) {x : Nat} :
    (∃ shape, g.builder.IsKind x (.blockStart shape q)) ↔ x = q + 1 := by
  constructor
  · rintro ⟨shape, p, here, starts⟩
    have shaped := h.shapely.shaped x p here
    simp only [Builder.IsShaped, starts] at shaped
    exact shaped.1
  · rintro rfl
    obtain ⟨p, here, ends⟩ := kind
    have shaped := h.shapely.shaped q p here
    simp only [Builder.IsShaped, ends] at shaped
    exact shaped.2

/-- A plus block is repeated by the state behind it. -/
theorem loopsTo_plus {stop : Nat} (kind : g.builder.IsKind q (.blockStart .plus stop)) {x : Nat} :
    g.builder.LoopsTo .plusLoopBack x q ↔ x = q + 1 := by
  constructor
  · rintro ⟨p, here, loops, t, mem, rfl⟩
    have shaped := h.shapely.shaped x p here
    simp only [Builder.IsShaped, loops] at shaped
    obtain ⟨first, rfl, -, leaves, -, edges⟩ := shaped
    rw [edges] at mem
    obtain ⟨q, branch, rfl⟩ := List.mem_map.1 mem
    rcases Builder.mem_branches.1 branch with rfl | rfl
    · rfl
    · cases leaves.unique kind
  · rintro rfl
    obtain ⟨p, here, starts⟩ := kind
    have shaped := h.shapely.shaped q p here
    simp only [Builder.IsShaped, starts] at shaped
    obtain ⟨p', here', loops⟩ := shaped.2.2.2.2 trivial
    have shaped' := h.shapely.shaped (q + 1) p' here'
    simp only [Builder.IsShaped, loops] at shaped'
    obtain ⟨first, same, -, -, -, edges⟩ := shaped'
    obtain rfl : q = first + 1 := by omega
    refine ⟨p', here', loops, .plain (first + 1), ?_, rfl⟩
    rw [edges]
    exact List.mem_map_of_mem (Builder.mem_branches.2 (.inl rfl))

/-- An entry of a star loop is led back to by the state in front of it. -/
theorem loopsTo_entry (kind : g.builder.IsKind q .starLoopEntry) {x : Nat} :
    g.builder.LoopsTo .starLoopBack x q ↔ q = x + 1 := by
  constructor
  · rintro ⟨p, here, loops, t, mem, rfl⟩
    have shaped := h.shapely.shaped x p here
    simp only [Builder.IsShaped, loops] at shaped
    rw [shaped.2] at mem
    obtain rfl := List.mem_singleton.1 mem
    rfl
  · rintro rfl
    obtain ⟨p, here, enters⟩ := kind
    have shaped := h.shapely.shaped (x + 1) p here
    simp only [Builder.IsShaped, enters] at shaped
    obtain ⟨stop, same, -, ⟨p', here', loops⟩, -⟩ := shaped
    obtain rfl : x = stop + 2 := by omega
    have shaped' := h.shapely.shaped (stop + 2) p' here'
    simp only [Builder.IsShaped, loops] at shaped'
    exact ⟨p', here', loops, .plain _, shaped'.2 ▸ .head _, rfl⟩

section Returns

variable (calls : returnEdges (written g.builder.blueprint) (starts g.builder.blueprint)
  ((List.range g.rules.length).map (2 * ·)).toArray = .ok returns)
include calls

/-- The returns leave the stops of rules, and read nothing. -/
theorem of_mem_returns {e : Nat × Transition} (mem : e ∈ returns) :
    g.builder.IsKind e.1 .ruleStop ∧ e.2.isEpsilon = true := by
  obtain ⟨rule, lt, same⟩ := List.mem_map.1 (List.mem_toArray.1 (returnEdges_stop calls mem))
  have lt := List.mem_range.1 lt
  obtain ⟨-, ⟨s, here, -, kind⟩, -⟩ := h.declared (List.getElem?_eq_getElem lt)
  obtain ⟨_, _, _, _, _, follow, outermost, -, -, edge⟩ := returnEdges_follow calls mem
  exact ⟨⟨s, same ▸ here, kind⟩, edge ▸ rfl⟩

/-- Only the stops of rules get more edges. -/
theorem arrived_transitions (here : g.builder.states[q]? = some p) (going : p.kind ≠ .ruleStop) :
    (arrived returns q p).transitions = p.transitions := by
  have none : returns.filter (·.1 == q) = [] := by
    refine List.filter_eq_nil_iff.2 fun e mem same => going ?_
    obtain ⟨⟨s, here', stop⟩, -⟩ := h.of_mem_returns calls mem
    rw [beq_iff_eq.1 same, here] at here'
    cases here'
    exact stop
  simp [arrived, none]

theorem stop_transitions (here : g.builder.states[q]? = some p) (stop : p.kind = .ruleStop) :
    ∀ t ∈ (arrived returns q p).transitions, t.isEpsilon = true := by
  have shaped := h.shapely.shaped q p here
  simp only [Builder.IsShaped, stop] at shaped
  intro t mem
  rw [arrived, shaped, List.nil_append] at mem
  obtain ⟨e, listed, rfl⟩ := List.mem_map.1 mem
  exact (h.of_mem_returns calls (List.mem_of_mem_filter listed)).2

/-! ### Partners -/

theorem mem_links {x : Nat} : (q, x) ∈ links g.builder.blueprint returns ↔
    (∃ shape, g.builder.IsKind x (.blockStart shape q)) ∨
      g.builder.LoopsTo .plusLoopBack x q ∧ (∃ stop, g.builder.IsKind q (.blockStart .plus stop)) ∨
        g.builder.LoopsTo .starLoopBack x q ∧ g.builder.IsKind q .starLoopEntry := by
  rw [links, List.mem_append, mem_blockEnds, mem_loopBacks]
  simp only [getElem?_returned, getElem?_blueprint, Option.map_eq_some_iff]
  have edges {x : Nat} {p : StatePlan} {kind : StateKind} (here : g.builder.states[x]? = some p)
      (same : p.kind = kind) (going : kind ≠ .ruleStop) :
      (arrived returns x p).transitions = p.transitions :=
    h.arrived_transitions calls here (same ▸ going)
  refine or_congr ?_ ?_
  · constructor
    · rintro ⟨_, shape, ⟨p, here, rfl⟩, kind⟩
      exact ⟨shape, p, here, kind⟩
    · rintro ⟨shape, p, here, kind⟩
      exact ⟨_, shape, ⟨p, here, rfl⟩, kind⟩
  · constructor
    · rintro ⟨_, t, _, ⟨p, here, rfl⟩, mem, target, ⟨p', here', rfl⟩,
        ⟨kind, stop, kind'⟩ | ⟨kind, kind'⟩⟩
      · rw [edges here kind (by simp)] at mem
        exact .inl ⟨⟨p, here, kind, t, mem, target⟩, stop, p', here', kind'⟩
      · rw [edges here kind (by simp)] at mem
        exact .inr ⟨⟨p, here, kind, t, mem, target⟩, p', here', kind'⟩
    · rintro (⟨⟨p, here, kind, t, mem, target⟩, stop, p', here', kind'⟩ |
        ⟨⟨p, here, kind, t, mem, target⟩, p', here', kind'⟩)
      · rw [← edges here kind (by simp)] at mem
        exact ⟨_, t, _, ⟨p, here, rfl⟩, mem, target, ⟨p', here', rfl⟩, .inl ⟨kind, stop, kind'⟩⟩
      · rw [← edges here kind (by simp)] at mem
        exact ⟨_, t, _, ⟨p, here, rfl⟩, mem, target, ⟨p', here', rfl⟩, .inr ⟨kind, kind'⟩⟩

theorem partner_blockEnd (kind : g.builder.IsKind q .blockEnd) :
    latest (links g.builder.blueprint returns) q = some (q + 1) := by
  refine latest_eq ((h.mem_links calls).2 (.inl ((h.opens_iff kind).2 rfl))) fun x mem => ?_
  rcases (h.mem_links calls).1 mem with opens | ⟨-, stop, starts⟩ | ⟨-, enters⟩
  · exact (h.opens_iff kind).1 opens
  · cases kind.unique starts
  · cases kind.unique enters

theorem partner_plus {stop : Nat} (kind : g.builder.IsKind q (.blockStart .plus stop)) :
    latest (links g.builder.blueprint returns) q = some (q + 1) := by
  have loops := (h.loopsTo_plus kind).2 rfl
  refine latest_eq ((h.mem_links calls).2 (.inr (.inl ⟨loops, stop, kind⟩))) fun x mem => ?_
  rcases (h.mem_links calls).1 mem with ⟨shape, p, here, starts⟩ | ⟨loops, -⟩ | ⟨-, enters⟩
  · have shaped := h.shapely.shaped x p here
    simp only [Builder.IsShaped, starts] at shaped
    cases kind.unique shaped.2.1
  · exact (h.loopsTo_plus kind).1 loops
  · cases kind.unique enters

theorem partner_entry (kind : g.builder.IsKind (q + 1) .starLoopEntry) :
    latest (links g.builder.blueprint returns) (q + 1) = some q := by
  have loops := (h.loopsTo_entry kind).2 rfl
  refine latest_eq ((h.mem_links calls).2 (.inr (.inr ⟨loops, kind⟩))) fun x mem => ?_
  rcases (h.mem_links calls).1 mem with ⟨shape, p, here, starts⟩ | ⟨-, stop, starts⟩ | ⟨loops, -⟩
  · have shaped := h.shapely.shaped x p here
    simp only [Builder.IsShaped, starts] at shaped
    cases kind.unique shaped.2.1
  · cases kind.unique starts
  · exact (Nat.succ.inj ((h.loopsTo_entry kind).1 loops)).symm

/-! ### The checks of the finished states -/

/-- The check of an entry of a star loop finds what is around the entry. -/
theorem checkLoopEntry_eq_none {s : State} (here : g.builder.states[q]? = some p)
    (kind : p.kind = .starLoopEntry) (nonGreedy : s.nonGreedy = p.nonGreedy)
    (edges : s.transitions = p.transitions)
    (partner : s.partner = latest (links g.builder.blueprint returns) q) :
    checkLoopEntry (finished g.builder.blueprint returns) s = none := by
  have shaped := h.shapely.shaped q p here
  simp only [Builder.IsShaped, kind] at shaped
  obtain ⟨stop, rfl, starts, loops, leaves, -, branches⟩ := shaped
  have found : latest (links g.builder.blueprint returns) (stop + 3) = some (stop + 2) :=
    h.partner_entry calls ⟨p, here, kind⟩
  obtain ⟨start, here₁, kind₁⟩ := Option.map_eq_some_iff.1 (finished_kind returns starts)
  obtain ⟨exit, here₂, kind₂⟩ := Option.map_eq_some_iff.1 (finished_kind returns leaves)
  unfold checkLoopEntry
  rw [partner, found, Option.bind_some, finished_kind returns loops, edges, branches, nonGreedy]
  cases p.nonGreedy <;>
    simp [Builder.branches, Transition.plain, Transition.target, here₁, here₂, State.isStarBlock,
      State.isLoopEnd, kind₁, kind₂]

/-- Each state passes the check of its shape. -/
theorem checkShape_eq_none {s : State} (here : g.builder.states[q]? = some p)
    (kind : s.kind = p.kind) (nonGreedy : s.nonGreedy = p.nonGreedy)
    (edges : p.kind ≠ .ruleStop → s.transitions = p.transitions)
    (partner : s.partner = latest (links g.builder.blueprint returns) q) :
    checkShape (finished g.builder.blueprint returns) s = none := by
  have shaped := h.shapely.shaped q p here
  cases same : p.kind with
  | basic | ruleStart | ruleStop | plusLoopBack | tokensStart => simp [checkShape, kind, same]
  | blockStart shape stop =>
      cases shape with
      | plus => simp [checkShape, kind, same, partner, h.partner_plus calls ⟨p, here, same⟩]
      | choice | star => simp [checkShape, kind, same]
  | blockEnd => simp [checkShape, kind, same, partner, h.partner_blockEnd calls ⟨p, here, same⟩]
  | starLoopEntry =>
      simp only [checkShape, kind, same]
      exact h.checkLoopEntry_eq_none calls here same nonGreedy (edges (by simp [same])) partner
  | starLoopBack =>
      simp only [Builder.IsShaped, same] at shaped
      obtain ⟨entry, here', kind'⟩ := Option.map_eq_some_iff.1 (finished_kind returns shaped.1)
      simp [checkShape, kind, same, edges, shaped.2, Transition.plain, Transition.target, here',
        State.isStarLoopEntry, kind']
  | loopEnd back =>
      simp only [Builder.IsShaped, same] at shaped
      have loops := shaped.2.imp (finished_kind returns) (finished_kind returns)
      simp only [checkShape, kind, same, if_pos loops]

/-- Each state of the finished network passes the check. -/
theorem defect?_eq_none {s : State}
    (here : (finished g.builder.blueprint returns)[q]? = some s) :
    defect? (finished g.builder.blueprint returns) s = none := by
  rw [getElem?_finished, getElem?_blueprint] at here
  obtain ⟨p, planned, rfl⟩ := Option.map_eq_some_iff.1 here
  have edges : p.kind ≠ .ruleStop → (arrived returns q p).transitions = p.transitions :=
    h.arrived_transitions calls planned
  have several := (h.shapely.shaped q p planned).several
  refine defect?_eq_none_of (h.checkShape_eq_none calls planned rfl rfl edges rfl) fun many => ?_
  change 1 < (arrived returns q p).transitions.length at many
  by_cases stop : p.kind = .ruleStop
  · refine ⟨?_, .inr (by simp [State.isRuleStop, derived, arrived, stop])⟩
    have silent := h.stop_transitions calls planned stop
    have some : (arrived returns q p).transitions ≠ [] := List.length_pos_iff.1 (by omega)
    simpa [State.isEpsilonOnly, derived] using ⟨some, silent⟩
  · rw [edges stop] at many
    obtain ⟨decides, mem, targets, plain⟩ := several stop many
    refine ⟨?_, .inl ⟨decides, ?_⟩⟩
    · have some : p.transitions ≠ [] := List.length_pos_iff.1 (by omega)
      have silent : ∀ t ∈ p.transitions, t.isEpsilon = true := by
        rw [plain]
        exact List.forall_mem_map.2 fun _ _ => rfl
      simpa [State.isEpsilonOnly, derived, edges stop] using ⟨some, silent⟩
    · obtain ⟨i, listed⟩ := List.getElem?_of_mem (Array.mem_toList_iff.2 mem)
      exact latest_ne_none (List.mem_zipIdx_iff_getElem?.2 listed)

theorem passes : Passes g.builder.blueprint returns ((List.range g.rules.length).map (2 * ·)) := by
  have kind_lt {q : Nat} {kind : StateKind} (is : g.builder.IsKind q kind) :
      q < g.builder.states.size := by
    obtain ⟨p, here, -⟩ := is
    exact (Array.getElem?_eq_some_iff.1 here).1
  constructor
  case edges =>
    intro s mem t edge
    obtain ⟨q, here⟩ := Array.getElem?_of_mem mem
    rw [getElem?_written, getElem?_blueprint] at here
    obtain ⟨p, planned, rfl⟩ := Option.map_eq_some_iff.1 here
    rw [size_written]
    exact checkTransition_eq_ok.2 (h.edge_lt planned (by simpa [arrived] using edge))
  case numbers =>
    intro q mem
    rw [size_written]
    rcases List.mem_append.1 mem with mem | decision
    · rcases List.mem_append.1 mem with start | mode
      · rw [starts_blueprint] at start
        obtain ⟨rule, lt, start⟩ := Array.getElem_of_mem (Array.mem_toList_iff.1 start)
        obtain ⟨s, here, -⟩ := g.tidy.has_start (start ▸ Array.getElem?_eq_getElem lt)
        exact (Array.getElem?_eq_some_iff.1 here).1
      · exact h.shapely.modes q (Array.mem_toList_iff.1 mode)
    · exact h.shapely.decisions q (Array.mem_toList_iff.1 decision)
  case named =>
    have stops : (List.range g.rules.length).map (2 * ·)
        = (starts g.builder.blueprint).toList.zipIdx.map fun x => 2 * x.2 := by
      have numbers := List.zipIdx_map_snd 0 (starts g.builder.blueprint).toList
      rw [starts_blueprint, Array.length_toList, h.size_ruleStarts,
        ← List.range_eq_range'] at numbers
      rw [← numbers, List.map_map, starts_blueprint]
      rfl
    rw [stops]
    refine Except.mapM_of_ok ?_
    rintro ⟨start, rule⟩ mem
    refine h.stopOf_eq ?_
    have here := List.mem_zipIdx_iff_getElem?.1 mem
    rwa [starts_blueprint, Array.getElem?_toList] at here
  case calls => exact calls
  case kinds =>
    intro s mem
    obtain ⟨q, here⟩ := Array.getElem?_of_mem mem
    rw [getElem?_returned, getElem?_blueprint] at here
    obtain ⟨p, planned, rfl⟩ := Option.map_eq_some_iff.1 here
    have shaped := h.shapely.shaped q p planned
    rw [size_written]
    unfold checkKind
    split
    case h_1 shape stop kind =>
      simp only [Builder.IsShaped, show p.kind = .blockStart shape stop from kind] at shaped
      exact checkState_eq_ok.2 (kind_lt shaped.2.1)
    case h_2 back kind =>
      simp only [Builder.IsShaped, show p.kind = .loopEnd back from kind] at shaped
      exact checkState_eq_ok.2 (shaped.2.elim kind_lt kind_lt)
    case h_3 => rfl
  case blocks =>
    rintro ⟨stop, start⟩ mem
    obtain ⟨s, shape, here, kind⟩ := mem_blockEnds.1 mem
    rw [getElem?_returned, getElem?_blueprint] at here
    obtain ⟨p, planned, rfl⟩ := Option.map_eq_some_iff.1 here
    have shaped := h.shapely.shaped start p planned
    simp only [Builder.IsShaped, show p.kind = .blockStart shape stop from kind] at shaped
    obtain ⟨p', planned', ends⟩ := shaped.2.1
    simp [getElem?_returned, getElem?_blueprint, planned', arrived, ends]
  case shapes => exact fun q s here => h.defect?_eq_none calls here

end Returns

/-- Every rule has a body. -/
theorem undefinedRule?_eq_none : g.builder.undefinedRule? = none := by
  refine List.findSome?_eq_none_iff.2 fun start mem => ?_
  obtain ⟨rule, lt, here⟩ := Array.getElem_of_mem (Array.mem_toList_iff.1 mem)
  have start' := here ▸ Array.getElem?_eq_getElem lt
  rw [h.size_ruleStarts] at lt
  obtain ⟨first, -, -⟩ := h.declared (List.getElem?_eq_getElem lt)
  obtain rfl : 2 * rule + 1 = start := Option.some.inj (first.symm.trans start')
  obtain ⟨body, mem⟩ := h.exists_definition lt
  obtain ⟨b₀, mem⟩ := g.declared.exists_stage mem
  obtain ⟨-, ⟨s, leftRecursive, here, -, edges⟩, -⟩ := h.of_stage mem rfl
  simp [here, edges]

/-- A network that is assembled from complete rules. -/
theorem build_eq_ok {n : Network} : g.build = .ok n ↔ ∃ returns,
    returnEdges (written g.builder.blueprint) (starts g.builder.blueprint)
      ((List.range g.rules.length).map (2 * ·)).toArray = .ok returns ∧
    n = network g.builder.blueprint returns g.builder.kind
      ((List.range g.rules.length).map (2 * ·)) := by
  rw [build, Builder.build, h.undefinedRule?_eq_none]
  refine assemble_eq_ok.trans ⟨?_, ?_⟩
  · rintro ⟨stops, returns, passes, rfl⟩
    obtain ⟨returns', calls⟩ := h.exists_returns
    obtain rfl := Except.ok.inj (passes.named.symm.trans (h.passes calls).named)
    exact ⟨returns, passes.calls, rfl⟩
  · rintro ⟨returns, calls, rfl⟩
    exact ⟨_, returns, h.passes calls, rfl⟩

end Complete

end RuleSet

end AdaptiveLL
