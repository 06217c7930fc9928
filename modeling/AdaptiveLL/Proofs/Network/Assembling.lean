import AdaptiveLL.Proofs.Network.WellFormed
/-!
Assembling a network, stage by stage. A blueprint is assembled exactly if it passes each of the
checks; and then each state of the network is the one that was written down, with the edges back to
the callers, the partner and the number that are derived for it.
-/
namespace AdaptiveLL.Assembly

variable (plan : Blueprint) (returns : List (Nat × Transition))

/-- The states that are written down. -/
def written : Array State :=
  (plan.states.map fun p =>
    { rule := p.rule, kind := p.kind, nonGreedy := p.nonGreedy,
      transitions := p.transitions : State }).toArray

/-- The starts that are written down. -/
def starts : Array Nat :=
  (plan.rules.map RulePlan.start).toArray

/-- The states with the edges back to the callers. -/
def returned : Array State :=
  returns.foldl (fun acc (stop, t) => acc.modify stop (·.addLast t)) (written plan)

/-- The states with the partners that are found for them. -/
def links : List (Nat × Nat) :=
  blockEnds (returned plan returns) ++ loopBacks (returned plan returns)

/-- The states with their partners. -/
def paired : Array State :=
  setPartners (returned plan returns) (links plan returns)

/-- The states with the numbers of the decisions. -/
def numbered : Array State :=
  plan.decisions.zipIdx.foldl (fun acc (s, decision) =>
    acc.modify s fun st => { st with decision := some decision }) (paired plan returns)

/-- The states of the network. -/
def finished : Array State :=
  (numbered plan returns).map fun s =>
    { s with precedenceLoop := isOperatorLoop (numbered plan returns) (starts plan) s }

/-- The checks that the blueprint has to pass. -/
structure Passes (stops : List Nat) : Prop where
  edges : ∀ s ∈ written plan, ∀ t ∈ s.transitions,
    checkTransition (written plan).size t = .ok ()
  numbers : ∀ q ∈ (starts plan).toList ++ plan.modes ++ plan.decisions, q < (written plan).size
  named : ((starts plan).toList.zipIdx.mapM fun (start, rule) =>
    stopOf (written plan) rule start) = .ok stops
  calls : returnEdges (written plan) (starts plan) stops.toArray = .ok returns
  kinds : ∀ s ∈ returned plan returns, checkKind (written plan).size s.kind = .ok ()
  blocks : ∀ l ∈ blockEnds (returned plan returns),
    (returned plan returns)[l.1]?.map State.kind = some .blockEnd
  shapes : ∀ (q : Nat) (s : State), (finished plan returns)[q]? = some s →
    defect? (finished plan returns) s = none

/-- The network that is assembled. -/
def network (kind : GrammarKind) (stops : List Nat) : Network where
  kind
  states := finished plan returns
  maxToken := plan.maxToken
  decisions := plan.decisions.toArray
  ruleStarts := starts plan
  ruleStops := stops.toArray
  ruleTokens := if kind = .lexer then (plan.rules.map fun r => r.tokenType.getD 0).toArray else #[]
  modes := plan.modes.toArray
  actions := plan.actions.toArray

variable {plan returns}

theorem verify_eq_ok_iff {states : Array State} : verify states = .ok () ↔
    ∀ (q : Nat) (s : State), states[q]? = some s → defect? states s = none := by
  refine ⟨fun h q s here => verify_eq_ok h here, fun h => Except.forM_eq_ok.2 ?_⟩
  rintro ⟨s, q⟩ mem
  have here : states[q]? = some s := by simpa using List.mem_zipIdx_iff_getElem?.1 mem
  simp only [h q s here]

theorem checkEdges_eq_ok {states : Array State} {count : Nat} :
    (states.toList.forM fun s => s.transitions.forM (checkTransition count)) = .ok () ↔
      ∀ s ∈ states, ∀ t ∈ s.transitions, checkTransition count t = .ok () := by
  simp only [Except.forM_eq_ok, Array.mem_toList_iff]

theorem checkKinds_eq_ok {states : Array State} {count : Nat} :
    (states.toList.forM fun s => checkKind count s.kind) = .ok () ↔
      ∀ s ∈ states, checkKind count s.kind = .ok () := by
  simp only [Except.forM_eq_ok, Array.mem_toList_iff]

theorem checkBlocks_eq_ok {states : Array State} {links : List (Nat × Nat)} :
    (links.forM fun ((stop, start) : Nat × Nat) =>
        if states[stop]?.map State.kind = some StateKind.blockEnd then Except.ok ()
        else Except.error (NetworkError.verification start (.noBlockEnd stop))) = Except.ok () ↔
      ∀ l ∈ links, states[l.1]?.map State.kind = some .blockEnd := by
  rw [Except.forM_eq_ok]
  refine forall₂_congr fun l mem => ?_
  dsimp only
  split <;> simp_all

/-- A blueprint is assembled exactly if it passes the checks. -/
theorem assemble_eq_ok {kind : GrammarKind} {n : Network} :
    Network.assemble kind plan = .ok n ↔
      ∃ stops returns, Passes plan returns stops ∧ n = network plan returns kind stops := by
  unfold Network.assemble
  extract_lets states count first
  constructor
  case mp =>
    intro h
    obtain ⟨⟨⟩, edges, h⟩ := Except.bind_eq_ok.1 h
    obtain ⟨⟨⟩, numbers, h⟩ := Except.bind_eq_ok.1 h
    obtain ⟨stops, named, h⟩ := Except.bind_eq_ok.1 h
    obtain ⟨returns, calls, h⟩ := Except.bind_eq_ok.1 h
    obtain ⟨⟨⟩, kinds, h⟩ := Except.bind_eq_ok.1 h
    obtain ⟨⟨⟩, blocks, h⟩ := Except.bind_eq_ok.1 h
    obtain ⟨⟨⟩, verified, h⟩ := Except.bind_eq_ok.1 h
    refine ⟨stops, returns, ?_, (Except.ok.inj h).symm⟩
    exact {
      edges := checkEdges_eq_ok.1 edges
      numbers := fun q mem => checkState_eq_ok.1 (Except.forM_eq_ok.1 numbers q mem)
      named, calls
      kinds := checkKinds_eq_ok.1 kinds
      blocks := checkBlocks_eq_ok.1 blocks
      shapes := verify_eq_ok_iff.1 verified }
  case mpr =>
    rintro ⟨stops, returns, passes, rfl⟩
    refine Except.bind_eq_ok.2 ⟨(), checkEdges_eq_ok.2 passes.edges, ?_⟩
    refine Except.bind_eq_ok.2 ⟨(), Except.forM_eq_ok.2 fun q mem =>
      checkState_eq_ok.2 (passes.numbers q mem), ?_⟩
    refine Except.bind_eq_ok.2 ⟨stops, passes.named, ?_⟩
    refine Except.bind_eq_ok.2 ⟨returns, passes.calls, ?_⟩
    refine Except.bind_eq_ok.2 ⟨(), checkKinds_eq_ok.2 passes.kinds, ?_⟩
    refine Except.bind_eq_ok.2 ⟨(), checkBlocks_eq_ok.2 passes.blocks, ?_⟩
    exact Except.bind_eq_ok.2 ⟨(), verify_eq_ok_iff.2 passes.shapes, rfl⟩

/-! ### The finished states -/

/-- Changes of states, one after the other: each state goes through those that are meant for it. -/
theorem getElem?_foldl_modify {α : Type} (key : α → Nat) (change : α → State → State) (xs : List α)
    (states : Array State) (q : Nat) :
    (xs.foldl (fun acc x => acc.modify (key x) (change x)) states)[q]? =
      states[q]?.map fun s => (xs.filter (key · == q)).foldl (fun s x => change x s) s := by
  induction xs generalizing states with
  | nil => simp
  | cons x xs ih =>
      rw [List.foldl_cons, ih, Array.getElem?_modify, List.filter_cons]
      by_cases same : key x = q
      · simp [same, Function.comp_def]
      · simp [same]

/-- Edges are put behind those that are there. -/
theorem foldl_addLast (xs : List (Nat × Transition)) (s : State) :
    xs.foldl (fun s x => s.addLast x.2) s =
      { s with transitions := s.transitions ++ xs.map Prod.snd } := by
  induction xs generalizing s with
  | nil => simp
  | cons x xs ih =>
      rw [List.foldl_cons, ih]
      simp [State.addLast]

theorem foldl_partner (xs : List (Nat × Nat)) (s : State) :
    xs.foldl (fun s x => { s with partner := some x.2 }) s =
      { s with partner := (xs.getLast?.map Prod.snd).or s.partner } := by
  induction xs generalizing s with
  | nil => simp
  | cons x xs ih =>
      rw [List.foldl_cons, ih]
      cases xs <;> simp [List.getLast?_cons]

theorem foldl_decision (xs : List (Nat × Nat)) (s : State) :
    xs.foldl (fun s x => { s with decision := some x.2 }) s =
      { s with decision := (xs.getLast?.map Prod.snd).or s.decision } := by
  induction xs generalizing s with
  | nil => simp
  | cons x xs ih =>
      rw [List.foldl_cons, ih]
      cases xs <;> simp [List.getLast?_cons]

/-- The last of the values that are listed for a state. -/
def latest (links : List (Nat × Nat)) (q : Nat) : Option Nat :=
  (links.filter (·.1 == q)).getLast?.map Prod.snd

variable (plan returns) in
/-- A state with the edges back to the callers. -/
def arrived (q : Nat) (p : StatePlan) : State where
  rule := p.rule
  kind := p.kind
  nonGreedy := p.nonGreedy
  transitions := p.transitions ++ (returns.filter (·.1 == q)).map Prod.snd

theorem getElem?_written (q : Nat) :
    (written plan)[q]? = plan.states[q]?.map (arrived [] q) := by
  simp only [written, List.getElem?_toArray, List.getElem?_map]
  refine congrArg (plan.states[q]?.map ·) (funext fun p => ?_)
  simp [arrived]

theorem getElem?_returned (q : Nat) :
    (returned plan returns)[q]? = plan.states[q]?.map (arrived returns q) := by
  rw [returned, getElem?_foldl_modify Prod.fst fun x s => s.addLast x.2]
  simp only [getElem?_written, foldl_addLast, Option.map_map]
  refine congrArg (plan.states[q]?.map ·) (funext fun p => ?_)
  simp [arrived]

theorem getElem?_paired (q : Nat) :
    (paired plan returns)[q]? = (returned plan returns)[q]?.map fun s =>
      { s with partner := (latest (links plan returns) q).or s.partner } := by
  rw [paired, setPartners, getElem?_foldl_modify Prod.fst fun x s => { s with partner := some x.2 }]
  simp only [foldl_partner, latest]

theorem getElem?_numbered (q : Nat) :
    (numbered plan returns)[q]? = (paired plan returns)[q]?.map fun s =>
      { s with decision := (latest plan.decisions.zipIdx q).or s.decision } := by
  rw [numbered, getElem?_foldl_modify Prod.fst fun x s => { s with decision := some x.2 }]
  simp only [foldl_decision, latest]

variable (plan returns) in
/-- A state with its partner and its number. -/
def derived (q : Nat) (p : StatePlan) : State :=
  { arrived returns q p with
    partner := latest (links plan returns) q
    decision := latest plan.decisions.zipIdx q }

theorem getElem?_derived (q : Nat) :
    (numbered plan returns)[q]? = plan.states[q]?.map (derived plan returns q) := by
  simp only [getElem?_numbered, getElem?_paired, getElem?_returned, Option.map_map]
  simp only [Function.comp_def, arrived, Option.or_none]
  rfl

/-- Each state of the network is derived from the one that was written down. -/
theorem getElem?_finished (q : Nat) :
    (finished plan returns)[q]? = plan.states[q]?.map fun p =>
      { derived plan returns q p with
        precedenceLoop :=
          isOperatorLoop (numbered plan returns) (starts plan) (derived plan returns q p) } := by
  rw [finished, Array.getElem?_map, getElem?_derived, Option.map_map]
  rfl

/-- The edges that are added lead back to callers: every call was written down. -/
theorem planned_of_call {kind : GrammarKind} {n : Network}
    (h : Network.assemble kind plan = .ok n) {q target rule follow : Nat} {precedence : Int}
    {s : State} (here : n.states[q]? = some s)
    (mem : .call target rule precedence follow ∈ s.transitions) :
    ∃ p, plan.states[q]? = some p ∧ .call target rule precedence follow ∈ p.transitions := by
  obtain ⟨stops, returns, passes, rfl⟩ := assemble_eq_ok.1 h
  obtain ⟨p, planned, rfl⟩ := Option.map_eq_some_iff.1 ((getElem?_finished q).symm.trans here)
  refine ⟨p, planned, (List.mem_append.1 mem).resolve_right fun added => ?_⟩
  obtain ⟨e, returned, call⟩ := List.mem_map.1 added
  obtain ⟨-, -, -, -, -, follow', outermost, -, -, edge⟩ :=
    returnEdges_follow passes.calls (List.mem_of_mem_filter returned)
  cases call.symm.trans edge

theorem decision_lt_of_assemble {kind : GrammarKind} {n : Network}
    (h : Network.assemble kind plan = .ok n) {q : Nat} (mem : q ∈ n.decisions) :
    q < n.states.size := by
  obtain ⟨stops, returns, passes, rfl⟩ := assemble_eq_ok.1 h
  have listed : q ∈ plan.decisions := by simpa [network] using mem
  have lt : q < plan.states.length := by
    simpa [written] using passes.numbers q (List.mem_append_right _ listed)
  have here : (finished plan returns)[q]? = some _ :=
    (getElem?_finished q).trans (congrArg _ (List.getElem?_eq_getElem lt))
  exact (Array.getElem?_eq_some_iff.1 here).1

/-! ### What is listed -/

theorem mem_blockEnds {states : Array State} {stop start : Nat} :
    (stop, start) ∈ blockEnds states ↔
      ∃ s shape, states[start]? = some s ∧ s.kind = .blockStart shape stop := by
  simp only [blockEnds, List.mem_filterMap, Prod.exists, List.mem_zipIdx_iff_getElem?,
    Array.getElem?_toList]
  constructor
  · rintro ⟨s, number, here, found⟩
    split at found
    case h_1 shape stop' kind =>
      cases found
      exact ⟨s, shape, here, kind⟩
    case h_2 => cases found
  · rintro ⟨s, shape, here, kind⟩
    exact ⟨s, start, here, by simp [kind]⟩

theorem mem_loopBacks {states : Array State} {target back : Nat} :
    (target, back) ∈ loopBacks states ↔ ∃ s t s', states[back]? = some s ∧ t ∈ s.transitions ∧
      t.target = target ∧ states[target]? = some s' ∧
        (s.kind = .plusLoopBack ∧ (∃ stop, s'.kind = .blockStart .plus stop) ∨
          s.kind = .starLoopBack ∧ s'.kind = .starLoopEntry) := by
  simp only [loopBacks, List.mem_flatMap, List.mem_filterMap, Prod.exists,
    List.mem_zipIdx_iff_getElem?, Array.getElem?_toList]
  constructor
  · rintro ⟨s, number, here, t, mem, found⟩
    split at found
    case h_1 stop kind kind' =>
      cases found
      obtain ⟨s', here', kind'⟩ := Option.map_eq_some_iff.1 kind'
      exact ⟨s, t, s', here, mem, rfl, here', .inl ⟨kind, stop, kind'⟩⟩
    case h_2 kind kind' =>
      cases found
      obtain ⟨s', here', kind'⟩ := Option.map_eq_some_iff.1 kind'
      exact ⟨s, t, s', here, mem, rfl, here', .inr ⟨kind, kind'⟩⟩
    case h_3 => cases found
  · rintro ⟨s, t, s', here, mem, rfl, here', ⟨kind, stop, kind'⟩ | ⟨kind, kind'⟩⟩
    · exact ⟨s, back, here, t, mem, by simp [here', kind, kind']⟩
    · exact ⟨s, back, here, t, mem, by simp [here', kind, kind']⟩

/-- If all that is listed for a state is the same, it is the last one. -/
theorem latest_eq {links : List (Nat × Nat)} {q value : Nat} (mem : (q, value) ∈ links)
    (only : ∀ other, (q, other) ∈ links → other = value) : latest links q = some value := by
  have mem : (q, value) ∈ links.filter (·.1 == q) := List.mem_filter.2 ⟨mem, by simp⟩
  have some := List.ne_nil_of_mem mem
  rcases last : (links.filter (·.1 == q)).getLast some with ⟨q', other⟩
  obtain ⟨listed, same⟩ := List.mem_filter.1 (last ▸ List.getLast_mem some)
  obtain rfl : q' = q := by simpa using same
  rw [latest, List.getLast?_eq_some_getLast some, last, Option.map_some, only other listed]

theorem latest_ne_none {links : List (Nat × Nat)} {q value : Nat} (mem : (q, value) ∈ links) :
    latest links q ≠ none := by
  simpa [latest] using ⟨value, mem⟩

theorem checkTransition_eq_ok {count : Nat} {t : Transition} : checkTransition count t = .ok () ↔
    t.target < count ∧ ∀ target rule level follow, t = .call target rule level follow →
      follow < count := by
  refine ⟨fun h => ⟨checkTransition_target h, ?_⟩, fun ⟨target, follow⟩ => ?_⟩
  · rintro target rule level follow rfl
    exact checkTransition_follow h
  · refine Except.bind_eq_ok.2 ⟨(), checkState_eq_ok.2 target, ?_⟩
    split
    case h_1 => exact checkState_eq_ok.2 (follow _ _ _ _ rfl)
    case h_2 => rfl

end AdaptiveLL.Assembly
