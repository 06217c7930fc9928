import AdaptiveLL.Network.Basic
/-!
Assembling a network from its blueprint. References are checked first; then the derived
parts are filled in (return edges, partners of blocks and loops, decision numbers, operator
loops), and last every state is checked against the shapes that recognizers rely on.
-/
namespace AdaptiveLL.Assembly

def checkState (count state : Nat) : Except NetworkError Unit :=
  if state < count then .ok () else .error (.invalidState state)

def checkTransition (count : Nat) (t : Transition) : Except NetworkError Unit := do
  checkState count t.target
  match t with
  | .call _ _ _ follow => checkState count follow
  | _ => pure ()

/-- The stop state of a rule, which its start state names. -/
def stopOf (states : Array State) (rule start : Nat) : Except NetworkError Nat :=
  match states[start]?.map State.kind with
  | some (.ruleStart stop _) =>
      match states[stop]? with
      | none => .error (.invalidState stop)
      | some s =>
          if s.isRuleStop && s.rule == rule then .ok stop
          else .error (.verification start (.foreignStop rule stop))
  | _ => .error (.verification start (.noRuleStart rule))

/-- The edge back to the caller for one call, with the stop state that it leaves. -/
def returnEdge (states : Array State) (starts stops : Array Nat) (number : Nat) :
    Transition → Except NetworkError (Option (Nat × Transition))
  | .call target rule precedence follow =>
      match starts[rule]?, stops[rule]? with
      | some start, some stop =>
          if start ≠ target then .error (.verification number (.callTarget rule))
          else
            let recursive := (states[start]?.map State.isLeftRecursiveStart).getD false
            let outermost := if recursive && precedence == 0 then some rule else none
            .ok (some (stop, .epsilon follow outermost))
      | _, _ => .error (.invalidRule rule)
  | _ => .ok none

/-- The edges back to the callers, for all calls in order. -/
def returnEdges (states : Array State) (starts stops : Array Nat) :
    Except NetworkError (List (Nat × Transition)) := do
  let found ← states.toList.zipIdx.mapM fun (s, number) =>
    s.transitions.mapM (returnEdge states starts stops number)
  pure (found.flatten.filterMap id)

/-- The states that the kind of a state refers to. -/
def checkKind (count : Nat) : StateKind → Except NetworkError Unit
  | .blockStart _ stop => checkState count stop
  | .loopEnd loopBack => checkState count loopBack
  | _ => .ok ()

/-- Block ends with their block starts, in the order of the starts. -/
def blockEnds (states : Array State) : List (Nat × Nat) :=
  states.toList.zipIdx.filterMap fun (s, number) =>
    match s.kind with
    | .blockStart _ stop => some (stop, number)
    | _ => none

/-- Plus blocks and star loop entries with the loop-back states that lead to them. -/
def loopBacks (states : Array State) : List (Nat × Nat) :=
  states.toList.zipIdx.flatMap fun (s, number) =>
    s.transitions.filterMap fun t =>
      match s.kind, states[t.target]?.map State.kind with
      | .plusLoopBack, some (.blockStart .plus _) => some (t.target, number)
      | .starLoopBack, some .starLoopEntry => some (t.target, number)
      | _, _ => none

def setPartners (states : Array State) (links : List (Nat × Nat)) : Array State :=
  links.foldl (fun acc (state, partner) =>
    acc.modify state fun s => { s with partner := some partner }) states

/-- A star loop entry of a left-recursive rule whose last branch runs through a loop end
straight into a rule stop. -/
def isOperatorLoop (states : Array State) (starts : Array Nat) (s : State) : Bool :=
  s.isStarLoopEntry &&
    ((starts[s.rule]?.bind (states[·]?)).map State.isLeftRecursiveStart).getD false &&
    match s.transitions.getLast?.bind (states[·.target]?) with
    | none => false
    | some exit =>
        exit.isLoopEnd && exit.isEpsilonOnly &&
          ((exit.transitions.head?.bind (states[·.target]?)).map State.isRuleStop).getD false

/-- The check of a star loop entry: its loop-back state, and its two edges in the order
that its greediness asks for. -/
def checkLoopEntry (states : Array State) (s : State) : Option Defect :=
  let loopBackKind := (s.partner.bind (states[·]?)).map State.kind
  if loopBackKind ≠ some .starLoopBack then some .entryWithoutLoopBack
  else
    match s.transitions.map fun t => states[t.target]? with
    | [some first, some second] =>
        if first.isStarBlock then
          if !second.isLoopEnd || s.nonGreedy then some .greedyOrder else none
        else if first.isLoopEnd then
          if !second.isStarBlock || !s.nonGreedy then some .nonGreedyOrder else none
        else some .entryTargets
    | _ => some .entryArity

/-- The check of the shape that the kind of a state asks for. -/
def checkShape (states : Array State) (s : State) : Option Defect :=
  match s.kind with
  | .blockStart .plus _ => if s.partner.isNone then some .plusWithoutLoopBack else none
  | .starLoopEntry => checkLoopEntry states s
  | .starLoopBack =>
      match s.transitions with
      | [t] =>
          if ((states[t.target]?).map State.isStarLoopEntry).getD false then none
          else some .loopBackTarget
      | _ => some .loopBackTarget
  | .loopEnd loopBack =>
      let kind := (states[loopBack]?).map State.kind
      if kind = some .starLoopBack ∨ kind = some .plusLoopBack then none
      else some .loopEndTarget
  | .blockEnd => if s.partner.isNone then some .blockEndWithoutStart else none
  | _ => none

/-- The first rule for well-formed networks that the state breaks. -/
def defect? (states : Array State) (s : State) : Option Defect :=
  let several := 1 < s.transitions.length
  if !s.isEpsilonOnly && several then some .mixedTransitions
  else
    match checkShape states s with
    | some d => some d
    | none =>
        if s.kind.isDecision then
          if several && s.decision.isNone then some .unnumberedDecision else none
        else if several && !s.isRuleStop then some .branching
        else none

def verify (states : Array State) : Except NetworkError Unit :=
  states.toList.zipIdx.forM fun (s, number) =>
    match defect? states s with
    | some d => .error (.verification number d)
    | none => .ok ()

end Assembly

/-- Assemble and check a network. -/
def Network.assemble (kind : GrammarKind) (plan : Blueprint) : Except NetworkError Network := do
  let states : Array State := (plan.states.map fun p =>
    { rule := p.rule, kind := p.kind, nonGreedy := p.nonGreedy,
      transitions := p.transitions : State }).toArray
  let count := states.size
  let starts := (plan.rules.map RulePlan.start).toArray
  states.toList.forM fun s => s.transitions.forM (Assembly.checkTransition count)
  (starts.toList ++ plan.modes ++ plan.decisions).forM (Assembly.checkState count)
  let stops ← starts.toList.zipIdx.mapM fun (start, rule) => Assembly.stopOf states rule start
  let returns ← Assembly.returnEdges states starts stops.toArray
  let states := returns.foldl (fun acc (stop, t) => acc.modify stop (·.addLast t)) states
  states.toList.forM fun s => Assembly.checkKind count s.kind
  (Assembly.blockEnds states).forM fun (stop, start) =>
    if states[stop]?.map State.kind = some .blockEnd then .ok ()
    else .error (.verification start (.noBlockEnd stop))
  let states := Assembly.setPartners states (Assembly.blockEnds states ++ Assembly.loopBacks states)
  let states := plan.decisions.zipIdx.foldl (fun acc (s, decision) =>
    acc.modify s fun st => { st with decision := some decision }) states
  let states := states.map fun s =>
    { s with precedenceLoop := Assembly.isOperatorLoop states starts s }
  Assembly.verify states
  pure {
    kind, states, maxToken := plan.maxToken
    decisions := plan.decisions.toArray
    ruleStarts := starts
    ruleStops := stops.toArray
    ruleTokens := if kind = .lexer then (plan.rules.map fun r => r.tokenType.getD 0).toArray else #[]
    modes := plan.modes.toArray
    actions := plan.actions.toArray }

end AdaptiveLL
