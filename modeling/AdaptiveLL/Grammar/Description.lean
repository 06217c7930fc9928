import AdaptiveLL.Json.Reader
import AdaptiveLL.Network.Assembly
import AdaptiveLL.Network.Codec
import AdaptiveLL.Grammar.Basic
/-!
Descriptions: the form in which grammars are kept in files. A description holds the names
and the blueprint of the network; what is derived is rebuilt and checked when the grammar
is built from it. The description of a parser may contain the one of its lexer.
-/
namespace AdaptiveLL

open Json (Value)

/-- The description of one grammar. -/
structure GrammarPlan where
  kind : GrammarKind
  names : GrammarNames
  plan : Blueprint
  deriving DecidableEq, Repr, Inhabited

/-- A grammar with the lexers embedded in it: the first is its own, and each further one is
embedded in the one before. -/
structure Description where
  grammar : GrammarPlan
  lexers : List GrammarPlan := []
  deriving DecidableEq, Repr, Inhabited

/-- Why a description gives no grammar. -/
inductive DescriptionError where
  /-- The text is no JSON form of a description. -/
  | unreadable
  | network (error : NetworkError)
  | unknownRule (name : String)
  /-- The embedded grammar is not a lexer. -/
  | wrongKind (grammar : String) (kind : GrammarKind)
  deriving DecidableEq, Repr

def GrammarKind.title : GrammarKind → String
  | .lexer => "Lexer"
  | .parser => "Parser"

def GrammarKind.tags : List (String × GrammarKind) :=
  [("lexer", .lexer), ("parser", .parser)]

def GrammarKind.tag : GrammarKind → String
  | .lexer => "lexer"
  | .parser => "parser"

def DescriptionError.message : DescriptionError → String
  | unreadable => "JSON error"
  | network error => "invalid ATN: " ++ error.message
  | unknownRule name => "unknown rule '" ++ name ++ "'"
  | wrongKind grammar kind =>
      "wrong grammar type: embedded lexer '" ++ grammar ++ "' is a " ++ kind.title ++ " grammar"

namespace Vocabulary

def toJson (v : Vocabulary) : Value :=
  .object [("literal_names", .ofList (.ofOption .text) v.literals.toList),
    ("symbolic_names", .ofList (.ofOption .text) v.symbolics.toList)]

def ofJson? (v : Value) : Option Vocabulary := do
  let names := Value.orElse? [] (Value.asList? (Value.orNull? Value.asText?))
  match ← v.fields? ["literal_names", "symbolic_names"] with
  | [literals, symbolics] =>
      some { literals := (← names literals).toArray, symbolics := (← names symbolics).toArray }
  | _ => none

end Vocabulary

namespace Description

def lexer? (d : Description) : Option Description :=
  match d.lexers with
  | [] => none
  | first :: rest => some ⟨first, rest⟩

/-- The description of a built grammar. -/
def ofGrammar (g : Grammar) : Description :=
  ⟨⟨g.network.kind, g.names, g.network.blueprint⟩, []⟩

/-- Embed the description of a lexer. -/
def withLexer (d lexer : Description) : Description :=
  { d with lexers := lexer.grammar :: lexer.lexers }

/-- The members of a description, the embedded lexer apart. -/
def members (g : GrammarPlan) : List (String × Value) :=
  [("grammar_name", .text g.names.grammar), ("grammar_type", .text g.kind.tag),
    ("rule_names", .ofList .text g.names.rules), ("vocabulary", g.names.vocabulary.toJson)] ++
  Json.listUnlessEmpty "channel_names" .text g.names.channels ++
  Json.listUnlessEmpty "mode_names" .text g.names.modes ++
  [("atn", g.plan.toJson)]

/-- The written form of a grammar with embedded lexers. -/
def nested (g : GrammarPlan) : List GrammarPlan → Value
  | [] => .object (members g)
  | lexer :: rest => .object (members g ++ [("lexer", nested lexer rest)])

def toJson (d : Description) : Value :=
  nested d.grammar d.lexers

def fieldNames : List String :=
  ["grammar_name", "grammar_type", "rule_names", "vocabulary", "channel_names", "mode_names",
    "atn", "lexer"]

/-- Read a description whose embedded lexers are nested less than `depth` deep. -/
def ofJsonWithin? : Nat → Value → Option Description
  | 0, _ => none
  | depth + 1, v => do
      let texts := Value.asList? Value.asText?
      match ← v.fields? fieldNames with
      | [name, kind, rules, vocabulary, channels, modes, plan, lexer] =>
          let names : GrammarNames := {
            grammar := ← Value.required? Value.asText? name
            rules := ← Value.required? texts rules
            vocabulary := ← Value.orElse? {} Vocabulary.ofJson? vocabulary
            channels := ← Value.orElse? [] texts channels
            modes := ← Value.orElse? [] texts modes }
          let kind ← Value.required? (Value.asName? GrammarKind.tags) kind
          let plan ← Value.required? Blueprint.ofJson? plan
          let d : Description := ⟨⟨kind, names, plan⟩, []⟩
          match ← Value.orElse? none (Value.orNull? (ofJsonWithin? depth)) lexer with
          | none => some d
          | some lexer => some (d.withLexer lexer)
      | _ => none

def ofJson? (v : Value) : Option Description :=
  ofJsonWithin? v.depth v

/-- The laid out text of a description. -/
def toText (d : Description) : String :=
  d.toJson.writePretty

def ofText (text : String) : Except DescriptionError Description :=
  match (Json.parse? text).bind ofJson? with
  | some d => .ok d
  | none => .error .unreadable

/-- Build the network and check it. -/
def build (d : Description) : Except DescriptionError Grammar :=
  match Network.assemble d.grammar.kind d.grammar.plan with
  | .ok network => .ok { network, names := d.grammar.names }
  | .error e => .error (.network e)

/-- Build the grammar of the embedded lexer, if there is one. -/
def buildLexer (d : Description) : Except DescriptionError (Option Grammar) :=
  match d.lexer? with
  | none => .ok none
  | some lexer =>
      match lexer.grammar.kind with
      | .lexer => lexer.build.map some
      | .parser => .error (.wrongKind lexer.grammar.names.grammar .parser)

def ruleIndex (d : Description) (name : String) : Except DescriptionError Nat :=
  match d.grammar.names.ruleIndex? name with
  | some i => .ok i
  | none => .error (.unknownRule name)

end Description

end AdaptiveLL
