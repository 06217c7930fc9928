import AdaptiveLL.Json.Record
import AdaptiveLL.Network.Basic
/-!
The written form of networks: each type has a writer into JSON values and a reader that
accepts what the writer produces. Edges, state kinds and lexer commands are written as objects
whose member `type` says which one it is.
-/
namespace AdaptiveLL

open Json (Value)

namespace IntervalSet

def toJson (s : IntervalSet) : Value :=
  .ofList (fun i => .list [.int i.start, .int i.stop]) s.intervals

def readInterval? : Value → Option Interval
  | .list [a, b] => do
      let start ← a.asSymbol?
      let stop ← b.asSymbol?
      some ⟨start, stop⟩
  | _ => none

/-- The ranges are taken as they are. -/
def ofJson? (v : Value) : Option IntervalSet :=
  (v.asList? readInterval?).map IntervalSet.mk

end IntervalSet

namespace Transition

def toJson : Transition → Value
  | epsilon target outermost =>
      .object ([("type", .text "epsilon"), ("target", .ofNat target)] ++
        match outermost with
        | some rule => [("outermost_precedence_return", .ofNat rule)]
        | none => [])
  | atom target label =>
      .object [("type", .text "atom"), ("target", .ofNat target), ("label", .int label)]
  | range target low high =>
      .object [("type", .text "range"), ("target", .ofNat target), ("from", .int low),
        ("to", .int high)]
  | set target labels =>
      .object [("type", .text "set"), ("target", .ofNat target), ("set", labels.toJson)]
  | notSet target labels =>
      .object [("type", .text "not-set"), ("target", .ofNat target), ("set", labels.toJson)]
  | wildcard target => .object [("type", .text "wildcard"), ("target", .ofNat target)]
  | call target rule level follow =>
      .object [("type", .text "rule"), ("target", .ofNat target), ("rule_index", .ofNat rule),
        ("precedence", .int level), ("follow_state", .ofNat follow)]
  | predicate target rule index contextual =>
      .object [("type", .text "predicate"), ("target", .ofNat target),
        ("rule_index", .ofNat rule), ("pred_index", .ofNat index),
        ("ctx_dependent", .bool contextual)]
  | precedence target level =>
      .object [("type", .text "precedence"), ("target", .ofNat target),
        ("precedence", .int level)]
  | action target rule index contextual =>
      .object [("type", .text "action"), ("target", .ofNat target), ("rule_index", .ofNat rule),
        ("action_index", .ofOption .ofNat index), ("ctx_dependent", .bool contextual)]

/-- Read the fields of an edge whose tag is known. -/
def ofTagged? (tag : String) (others : Value) : Option Transition := do
  let field := fun names => others.fields? names
  match tag with
  | "epsilon" =>
      match ← field ["target", "outermost_precedence_return"] with
      | [target, outermost] =>
          some (.epsilon (← Value.required? Value.asNat? target)
            (← Value.orElse? none (Value.orNull? Value.asNat?) outermost))
      | _ => none
  | "atom" =>
      match ← field ["target", "label"] with
      | [target, label] =>
          some (.atom (← Value.required? Value.asNat? target)
            (← Value.required? Value.asSymbol? label))
      | _ => none
  | "range" =>
      match ← field ["target", "from", "to"] with
      | [target, low, high] =>
          some (.range (← Value.required? Value.asNat? target)
            (← Value.required? Value.asSymbol? low) (← Value.required? Value.asSymbol? high))
      | _ => none
  | "set" =>
      match ← field ["target", "set"] with
      | [target, labels] =>
          some (.set (← Value.required? Value.asNat? target)
            (← Value.required? IntervalSet.ofJson? labels))
      | _ => none
  | "not-set" =>
      match ← field ["target", "set"] with
      | [target, labels] =>
          some (.notSet (← Value.required? Value.asNat? target)
            (← Value.required? IntervalSet.ofJson? labels))
      | _ => none
  | "wildcard" =>
      match ← field ["target"] with
      | [target] => some (.wildcard (← Value.required? Value.asNat? target))
      | _ => none
  | "rule" =>
      match ← field ["target", "rule_index", "precedence", "follow_state"] with
      | [target, rule, level, follow] =>
          some (.call (← Value.required? Value.asNat? target)
            (← Value.required? Value.asNat? rule)
            (← Value.orElse? 0 Value.asSymbol? level)
            (← Value.required? Value.asNat? follow))
      | _ => none
  | "predicate" =>
      match ← field ["target", "rule_index", "pred_index", "ctx_dependent"] with
      | [target, rule, index, contextual] =>
          some (.predicate (← Value.required? Value.asNat? target)
            (← Value.required? Value.asNat? rule) (← Value.required? Value.asNat? index)
            (← Value.orElse? false Value.asBool? contextual))
      | _ => none
  | "precedence" =>
      match ← field ["target", "precedence"] with
      | [target, level] =>
          some (.precedence (← Value.required? Value.asNat? target)
            (← Value.required? Value.asSymbol? level))
      | _ => none
  | "action" =>
      match ← field ["target", "rule_index", "action_index", "ctx_dependent"] with
      | [target, rule, index, contextual] =>
          some (.action (← Value.required? Value.asNat? target)
            (← Value.required? Value.asNat? rule)
            (← Value.orElse? none (Value.orNull? Value.asNat?) index)
            (← Value.orElse? false Value.asBool? contextual))
      | _ => none
  | _ => none

def ofJson? (v : Value) : Option Transition := do
  let (tag, others) ← v.tagged?
  ofTagged? tag others

end Transition

namespace LexerAction

/-- The written form. No network holds a pinned command, and its form cannot be read. -/
def toJson : LexerAction → Value
  | channel c => .object [("type", .text "channel"), ("channel", .ofNat c)]
  | custom rule index =>
      .object [("type", .text "custom"), ("rule_index", .ofNat rule), ("action_index", .ofNat index)]
  | mode m => .object [("type", .text "mode"), ("mode", .ofNat m)]
  | more => .object [("type", .text "more")]
  | popMode => .object [("type", .text "pop-mode")]
  | pushMode m => .object [("type", .text "push-mode"), ("mode", .ofNat m)]
  | skip => .object [("type", .text "skip")]
  | type t => .object [("type", .text "type"), ("token_type", .int t)]
  | pinned offset a =>
      .object [("type", .text "indexed"), ("offset", .ofNat offset), ("action", a.toJson)]

/-- Read the fields of a command whose tag is known. -/
def ofTagged? (tag : String) (others : Value) : Option LexerAction := do
  let bare := fun (a : LexerAction) => (others.fields? []).map fun _ => a
  let one := fun name => do
    match ← others.fields? [name] with
    | [some v] => some v
    | _ => none
  match tag with
  | "channel" => some (.channel (← (← one "channel").asNat?))
  | "custom" =>
      match ← others.fields? ["rule_index", "action_index"] with
      | [some rule, some index] => some (.custom (← rule.asNat?) (← index.asNat?))
      | _ => none
  | "mode" => some (.mode (← (← one "mode").asNat?))
  | "more" => bare .more
  | "pop-mode" => bare .popMode
  | "push-mode" => some (.pushMode (← (← one "mode").asNat?))
  | "skip" => bare .skip
  | "type" => some (.type (← (← one "token_type").asSymbol?))
  | _ => none

def ofJson? (v : Value) : Option LexerAction := do
  let (tag, others) ← v.tagged?
  ofTagged? tag others

end LexerAction

namespace StateKind

def toJson (k : StateKind) : Value :=
  .object (("type", .text k.name) ::
    match k with
    | ruleStart stop leftRecursive =>
        [("stop_state", .ofNat stop), ("left_recursive", .bool leftRecursive)]
    | blockStart _ stop => [("end_state", .ofNat stop)]
    | loopEnd loopBack => [("loop_back", .ofNat loopBack)]
    | _ => [])

/-- Read the fields of a kind whose tag is known. -/
def ofTagged? (tag : String) (others : Value) : Option StateKind := do
  let bare := fun (k : StateKind) => (others.fields? []).map fun _ => k
  let nat := fun name => do
    match ← others.fields? [name] with
    | [some v] => v.asNat?
    | _ => none
  match tag with
  | "basic" => bare .basic
  | "rule-start" =>
      match ← others.fields? ["stop_state", "left_recursive"] with
      | [stop, leftRecursive] =>
          some (.ruleStart (← Value.required? Value.asNat? stop)
            (← Value.orElse? false Value.asBool? leftRecursive))
      | _ => none
  | "rule-stop" => bare .ruleStop
  | "block-start" => some (.blockStart .choice (← nat "end_state"))
  | "plus-block-start" => some (.blockStart .plus (← nat "end_state"))
  | "star-block-start" => some (.blockStart .star (← nat "end_state"))
  | "block-end" => bare .blockEnd
  | "plus-loop-back" => bare .plusLoopBack
  | "star-loop-back" => bare .starLoopBack
  | "star-loop-entry" => bare .starLoopEntry
  | "loop-end" => some (.loopEnd (← nat "loop_back"))
  | "tokens-start" => bare .tokensStart
  | _ => none

def ofJson? (v : Value) : Option StateKind := do
  let (tag, others) ← v.tagged?
  ofTagged? tag others

end StateKind

/-- A member that is left out when its list is empty. -/
def Json.listUnlessEmpty {α : Type} (name : String) (write : α → Value) :
    List α → List (String × Value)
  | [] => []
  | xs => [(name, .ofList write xs)]

namespace StatePlan

def toJson (s : StatePlan) : Value :=
  .object ([("rule_index", .ofNat s.rule), ("kind", s.kind.toJson)] ++
    (if s.nonGreedy then [("non_greedy", .bool true)] else []) ++
    Json.listUnlessEmpty "transitions" Transition.toJson s.transitions)

def ofJson? (v : Value) : Option StatePlan := do
  match ← v.fields? ["rule_index", "kind", "non_greedy", "transitions"] with
  | [rule, kind, nonGreedy, transitions] =>
      some {
        rule := ← Value.required? Value.asNat? rule
        kind := ← Value.required? StateKind.ofJson? kind
        nonGreedy := ← Value.orElse? false Value.asBool? nonGreedy
        transitions := ← Value.orElse? [] (Value.asList? Transition.ofJson?) transitions }
  | _ => none

end StatePlan

namespace RulePlan

def toJson (r : RulePlan) : Value :=
  .object (("start_state", .ofNat r.start) ::
    match r.tokenType with
    | some t => [("token_type", .int t)]
    | none => [])

def ofJson? (v : Value) : Option RulePlan := do
  match ← v.fields? ["start_state", "token_type"] with
  | [start, tokenType] =>
      some {
        start := ← Value.required? Value.asNat? start
        tokenType := ← Value.orElse? none (Value.orNull? Value.asSymbol?) tokenType }
  | _ => none

end RulePlan

namespace Blueprint

def toJson (b : Blueprint) : Value :=
  .object ([("max_token_type", .int b.maxToken), ("states", .ofList StatePlan.toJson b.states),
      ("rules", .ofList RulePlan.toJson b.rules)] ++
    Json.listUnlessEmpty "modes" .ofNat b.modes ++
    [("decisions", .ofList .ofNat b.decisions)] ++
    Json.listUnlessEmpty "lexer_actions" LexerAction.toJson b.actions)

def ofJson? (v : Value) : Option Blueprint := do
  match ← v.fields? ["max_token_type", "states", "rules", "modes", "decisions", "lexer_actions"] with
  | [maxToken, states, rules, modes, decisions, actions] =>
      some {
        maxToken := ← Value.required? Value.asSymbol? maxToken
        states := ← Value.required? (Value.asList? StatePlan.ofJson?) states
        rules := ← Value.required? (Value.asList? RulePlan.ofJson?) rules
        modes := ← Value.orElse? [] (Value.asList? Value.asNat?) modes
        decisions := ← Value.orElse? [] (Value.asList? Value.asNat?) decisions
        actions := ← Value.orElse? [] (Value.asList? LexerAction.ofJson?) actions }
  | _ => none

end Blueprint

end AdaptiveLL
