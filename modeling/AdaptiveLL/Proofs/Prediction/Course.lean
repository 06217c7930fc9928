import AdaptiveLL.Prediction.Adaptive
/-!
The course of a prediction, up to where it is known how the prediction ends: on the alternative that
guards have left, in an accept state, on threads that settle it with the full context, or on threads
none of which reads on. What remains to be done there has no loops (`conclude`); both together are the
prediction (`predict_eq`).
-/
namespace AdaptiveLL.Prediction

variable {σ τ : Type}

/-- How a prediction ends. -/
inductive Course where
  /-- None of these threads reads on, if `full`, with the full context. -/
  | deadEnd (full : Bool) (left : ConfigurationSet)
  /-- Of the alternatives in conflict, guards have left this one. -/
  | settled (alt : Nat)
  | accepted (d : TableState)
  /-- With the full context, these threads settle on an alternative. -/
  | decided (configs : ConfigurationSet)

/-- Whether the ambiguity of these threads is certain. Only one mode finds this out. -/
def certain (q : Problem τ) (configs : ConfigurationSet) : Bool :=
  q.mode == .exactAmbiguity && Conflict.allConflict configs.altSubsets &&
    Conflict.allEqual configs.altSubsets

/-- Whether the stage with the full context stops on these threads. -/
def decides (q : Problem τ) (configs : ConfigurationSet) : Bool :=
  configs.uniqueAlt != noAlt || certain q configs ||
    (q.mode != .exactAmbiguity && Conflict.viableAlt configs.altSubsets != noAlt)

variable [TokenSource σ]

/-- The course of the stage with the full context. -/
def fullCourse (q : Problem τ) : Nat → ConfigurationSet → Symbol → Prediction σ τ Course
  | 0, _, _ => throw (.fault .exhausted)
  | fuel + 1, previous, symbol => do
      count q fun i => { i with fullLookahead := i.fullLookahead + 1 }
      match ← reach q previous symbol true with
      | none => return .deadEnd true previous
      | some configs =>
          let configs := { configs with uniqueAlt := configs.agreedAlt }
          if decides q configs then return .decided configs
          fullCourse q fuel configs (← advance symbol)

/-- The course of a conflict that has to be resolved with the full context. -/
def fallBack (q : Problem τ) (d : TableState) (here : Nat) (conflicting : Option AltSet) :
    Prediction σ τ Course := do
  seek here
  count q fun i => { i with fallbacks := i.fallbacks + 1 }
  let s ← get
  let (stack, graph) := s.tables.graph.ofInvoking q.grammar.network q.situation.invoking
  set { s with tables := { s.tables with arena := { s.tables.arena with graph } } }
  let configs ← startConfigs q true stack
  report q (.fullContext conflicting) here d.configs
  seek q.start
  fullCourse q q.fuel configs (← current)

/-- The course of a conflict. Its guards may leave only one of the alternatives. -/
def conflictCourse (q : Problem τ) (d : TableState) : Prediction σ τ Course := do
  let here ← index
  match d.guards with
  | none => fallBack q d here d.configs.conflicting
  | some guards =>
      seek q.start
      match ← viable q guards with
      | [alt] => return .settled alt
      | alts => fallBack q d here (some alts)

/-- The course of the stage without context. -/
def localCourse (q : Problem τ) : Nat → TableState → Symbol → Prediction σ τ Course
  | 0, _, _ => throw (.fault .exhausted)
  | fuel + 1, previous, symbol => do
      count q fun i => { i with localLookahead := i.localLookahead + 1 }
      match ← target q previous symbol with
      | .dead => return .deadEnd false previous.configs
      | .state d =>
          if d.needsFullContext && q.mode != .sll then conflictCourse q d
          else if d.isAccept then return .accepted d
          else localCourse q fuel d (← advance symbol)

def course (q : Problem τ) : Prediction σ τ Course := do
  let s ← startState q
  localCourse q q.fuel s (← current)

/-- What remains to be done at the end of the course. -/
def conclude (q : Problem τ) : Course → Prediction σ τ Nat
  | .deadEnd _ left => deadEnd q left
  | .settled alt => return alt
  | .accepted d => accept q d
  | .decided configs => do
      if configs.uniqueAlt ≠ noAlt then
        count q fun i => { i with contextSensitivities := i.contextSensitivities + 1 }
        report q (.contextSensitivity configs.uniqueAlt) (← index) configs
        return configs.uniqueAlt
      reportAmbiguity q (certain q configs) configs.alts (← index) configs
      return Conflict.viableAlt configs.altSubsets

variable {q : Problem τ}

theorem predictFully_eq (fuel : Nat) (previous : ConfigurationSet) (symbol : Symbol) :
    (predictFully q fuel previous symbol : Prediction σ τ Nat) =
      fullCourse q fuel previous symbol >>= conclude q := by
  induction fuel generalizing previous symbol with
  | zero => rfl
  | succ fuel ih =>
      rw [predictFully, fullCourse, bind_assoc]
      refine bind_congr fun _ => ?_
      rw [bind_assoc]
      refine bind_congr fun reached => ?_
      cases reached with
      | none => rfl
      | some configs =>
          let agreed := { configs with uniqueAlt := configs.agreedAlt }
          have subsets : agreed.altSubsets = configs.altSubsets := rfl
          dsimp only
          by_cases unique : configs.agreedAlt = noAlt
          · have unsettled : agreed.uniqueAlt = noAlt := unique
            rw [if_neg (not_not_intro unique)]
            by_cases stops : decides q agreed = true
            · rw [if_pos stops, pure_bind, conclude, if_neg (not_not_intro unique), if_pos]
              · rfl
              · simpa [decides, certain, unsettled, subsets] using stops
            · rw [if_neg stops, bind_assoc, if_neg]
              · exact bind_congr fun next => ih agreed next
              · simpa [decides, certain, unsettled, subsets] using stops
          · have stops : decides q agreed = true := by simp [decides, agreed, unique]
            rw [if_pos unique, if_pos stops, pure_bind, conclude, if_pos unique]

theorem resolve_eq (d : TableState) :
    (resolve q d : Prediction σ τ Nat) = conflictCourse q d >>= conclude q := by
  rw [resolve, conflictCourse, bind_assoc]
  refine bind_congr fun here => ?_
  cases d.guards with
  | none => simp only [fallBack, bind_assoc, pure_bind, predictFully_eq]
  | some guards =>
      simp only [bind_assoc, pure_bind]
      refine bind_congr fun _ => bind_congr fun alts => ?_
      match alts with
      | [alt] => rfl
      | [] | _ :: _ :: _ => simp only [fallBack, bind_assoc, predictFully_eq]

theorem predictLocally_eq (fuel : Nat) (previous : TableState) (symbol : Symbol) :
    (predictLocally q fuel previous symbol : Prediction σ τ Nat) =
      localCourse q fuel previous symbol >>= conclude q := by
  induction fuel generalizing previous symbol with
  | zero => rfl
  | succ fuel ih =>
      rw [predictLocally, localCourse, bind_assoc]
      refine bind_congr fun _ => ?_
      rw [bind_assoc]
      refine bind_congr fun target => ?_
      cases target with
      | dead => rfl
      | state d =>
          dsimp only
          split
          · exact resolve_eq d
          · split
            · rfl
            · rw [bind_assoc]
              exact bind_congr fun next => ih d next

/-- A prediction is its course and what remains to be done at the end. -/
theorem predict_eq : (predict q : Prediction σ τ Nat) = course q >>= conclude q := by
  rw [predict, course, bind_assoc]
  refine bind_congr fun s => ?_
  rw [bind_assoc]
  exact bind_congr fun symbol => predictLocally_eq _ s symbol

end AdaptiveLL.Prediction
