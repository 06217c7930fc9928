import AdaptiveLL.Grammar.Basic
import AdaptiveLL.Network.Codec
import AdaptiveLL.Network.Ebnf
/-!
Grammars given by rules, and a JSON form in which such rules can be written by hand: an
element is a list of a word and its operands, and rules refer to each other by name.
-/
namespace AdaptiveLL

open Json (Value)

/-- A rule set with the names of its grammar. -/
structure RuleGrammar where
  rules : RuleSet
  names : GrammarNames
  deriving Repr, Inhabited

namespace RuleGrammar

def build (g : RuleGrammar) : Except NetworkError Grammar :=
  g.rules.build.map fun network => { network, names := g.names }

/-- An operand that may be left out. -/
def optional? {α : Type} (default : α) (read : Value → Option α) : Option Value → Option α
  | none | some .null => some default
  | some v => read v

/-- The rule that a value refers to, by index or by name. A name that no rule has refers to
no rule of the grammar. -/
def rule? (names : List String) : Value → Option Nat
  | .text name => some ((names.findIdx? (· == name)).getD noState)
  | v => v.asNat?

def character? : Value → Option Symbol
  | .text s => s.toList.head?.map fun c => c.toNat
  | _ => none

/-- A set of symbols, as a list of its intervals in any order. -/
def symbols? (v : Value) : Option IntervalSet := do
  let interval := fun
    | .list [low, high] => do some ((← low.asSymbol?, ← high.asSymbol?) : Symbol × Symbol)
    | _ => none
  some (.ofRanges (← v.asList? interval))

/-- Read an element that is nested less than `depth` deep. -/
def elementWithin? (names : List String) : Nat → Value → Option Element
  | 0, _ => none
  | depth + 1, v => do
      let .list (.text word :: operands) := v | none
      let elements := List.mapM (elementWithin? names depth)
      let repeated := fun (make : Bool → List Element → Element) =>
        match operands with
        | greedy :: es => do some (make (← greedy.asBool?) (← elements es))
        | [] => none
      match word, operands with
      | "tok", [t] => some (.token (← t.asSymbol?))
      | "range", [low, high] => some (.range (← low.asSymbol?) (← high.asSymbol?))
      | "chars", [low, high] => some (.range (← character? low) (← character? high))
      | "set", [s] => some (.set (← symbols? s))
      | "not", [s] => some (.notSet (← symbols? s))
      | "any", _ => some .wildcard
      | "lit", [s] => some (.literal (← s.asText?))
      | "eps", _ => some .empty
      | "ref", r :: p =>
          some (.ref (← rule? names r) (← optional? 0 Value.asSymbol? p.head?))
      | "pred", i :: c => some (.predicate (← i.asNat?) (← optional? false Value.asBool? c.head?))
      | "prec", [n] => some (.precedence (← n.asSymbol?))
      | "act", [i] => some (.action (← i.asNat?))
      | "cmd", [c] => some (.command (← LexerAction.ofJson? c))
      | "seq", es => some (.sequence (← elements es))
      | "alt", es => some (.alternatives (← elements es))
      | "opt", _ => repeated .optional
      | "star", _ => repeated .star
      | "plus", _ => repeated .plus
      | "lr", [.list primaries, .list suffixes] =>
          let pairs ← suffixes.mapM fun
            | .list [level, suffix] => do some ((← level.asSymbol?, suffix) : Int × Value)
            | _ => none
          some (.leftRecursive (← elements primaries) (pairs.map Prod.fst)
            (← elements (pairs.map Prod.snd)))
      | _, _ => none

def element? (names : List String) (v : Value) : Option Element :=
  elementWithin? names v.depth v

/-- A declared rule. A left-recursive one has no type for its tokens. -/
def declaration? (names : List String) (v : Value) : Option RuleDecl := do
  let member := v.member?
  let orNone := fun {α : Type} (read : Value → Option α) =>
    optional? none fun v => (read v).map some
  let leftRecursive ← optional? false Value.asBool? (member "lr")
  let type ← optional? 0 Value.asSymbol? (member "token")
  some {
    leftRecursive
    tokenType := if leftRecursive then 0 else type
    body := ← orNone (element? names) (member "body")
    defines := ← orNone (rule? names) (member "define") }

/-- The entries of a vocabulary: the type of a token, its literal and its name. -/
def vocabulary? (v : Value) : Option Vocabulary := do
  let name := optional? none fun (v : Value) => v.asText?.map some
  let entry := fun
    | .list (t :: names) => do some ⟨← t.asSymbol?, ← name names[0]?, ← name names[1]?⟩
    | _ => none
  some (.ofEntries (← v.asList? entry))

def ofJson? (v : Value) : Option RuleGrammar := do
  let member := v.member?
  let texts := optional? [] (Value.asList? Value.asText?)
  let list := fun {α : Type} (read : Value → Option α) => optional? [] (Value.asList? read)
  let own ← list (fun r => optional? "" Value.asText? (r.member? "name")) (member "rules")
  let kind ← optional? .parser (Value.asName? [("lexer", .lexer), ("parser", .parser)])
    (member "type")
  some {
    rules := {
      kind
      maxToken := ← optional? 0 Value.asSymbol? (member "max")
      rules := ← list (declaration? own) (member "rules")
      modes := ← list (Value.asList? (rule? own)) (member "modes") }
    names := {
      grammar := ← optional? "" Value.asText? (member "grammar_name")
      rules := ← optional? own (Value.asList? Value.asText?) (member "rule_names")
      vocabulary := ← optional? {} vocabulary? (member "vocabulary")
      channels := ← texts (member "channel_names")
      modes := ← texts (member "mode_names") } }

end RuleGrammar

end AdaptiveLL
