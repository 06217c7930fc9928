import AdaptiveLL.Command.Request
import AdaptiveLL.Grammar.Description
import AdaptiveLL.Lexer.Basic
import AdaptiveLL.Parser.Parse
import AdaptiveLL.Settings.Basic
/-!
Running a request: the input is cut into tokens and these are parsed. What cannot be done at
all ends the run with an error; mistakes of the input are reported and counted, and the run
goes on.
-/
namespace AdaptiveLL.Command

/-- The texts of the files that there are. -/
abbrev Files := String → Option String

/-- Why a request cannot be carried out. -/
inductive CommandError where
  | settings (error : SettingsError)
  | missingGrammar
  /-- The file is no description in the format that its name stands for. -/
  | unreadable (yaml : Bool)
  | grammar (error : DescriptionError)
  | missingInput (name : String)
  /-- The description of a parser holds no lexer. -/
  | noLexer (grammar : String)
  | parse (error : ParseError)
  /-- The network has a gap, or the input is longer than can be handled. -/
  | fault
  deriving DecidableEq, Repr

def CommandError.message : CommandError → String
  | settings error => "configuration: " ++ error.message
  | missingGrammar => "grammar: IO error: no such file"
  | unreadable yaml =>
      "grammar: " ++ (if yaml then "YAML" else "JSON") ++ " error: not a grammar description"
  | grammar error => "grammar: " ++ error.message
  | missingInput name => "cannot read " ++ name ++ ": no such file"
  | noLexer name => "grammar '" ++ name ++ "' embeds no lexer description"
  | parse error => error.message
  | fault => "the network is not complete"

/-- What a run leaves behind. -/
structure Outcome where
  /-- 0 for a sound input, 1 for one with mistakes, 2 if the request cannot be carried out. -/
  code : Nat
  output : String
  /-- What is written apart from the output, message by message. -/
  messages : List String
  deriving DecidableEq, Repr, Inhabited

/-- The end of a run that cannot go on. -/
def Outcome.failed (messages : List String) (error : CommandError) : Outcome :=
  ⟨2, "", messages ++ ["Error: " ++ error.message]⟩

/-- A bound on the steps of recognizers that no input comes near. -/
def patience : Nat := 1000000000

/-- The settings of a request: its options win over single settings. -/
def settingsFor (files : Files) (r : Request) : Except SettingsError Settings := do
  let overrides ← r.assignments.mapM Settings.assignment
  let text ← match r.settings, r.settingsNames.findSome? files with
    | none, _ => pure []
    | some _, some text => pure [text]
    | some name, none => throw (.missingFile name)
  let settings ← Settings.load text overrides
  let base := settings.parser
  let predictionMode :=
    if r.sll then .sll else if r.diagnostics then .exactAmbiguity else base.predictionMode
  return { settings with
    parser := { base with predictionMode, trace := base.trace || r.trace } }

/-- Whether the name of a file ends in one of two extensions. -/
def isYaml (name : String) : Bool :=
  let last := (name.toList.reverse.takeWhile (· ≠ '/')).reverse
  let ending := (last.reverse.takeWhile (· ≠ '.')).reverse
  ending.length + 1 < last.length && ["yaml", "yml"].contains (String.ofList ending)

/-- The grammars to use: one for the tokens, and perhaps one for their order. -/
structure Grammars where
  parser : Option Grammar
  lexer : Grammar
  deriving DecidableEq, Repr

def loadGrammars (files : Files) (name : String) : Except CommandError Grammars := do
  let text ← (files name).elim (throw .missingGrammar) pure
  let d ← match Description.ofText text with
    | .ok d => pure d
    | .error _ => throw (.unreadable (isYaml name))
  match d.grammar.kind with
  | .lexer => return ⟨none, ← d.build.mapError .grammar⟩
  | .parser =>
      match ← d.buildLexer.mapError .grammar with
      | none => throw (.noLexer d.grammar.names.grammar)
      | some lexer => return ⟨some (← d.build.mapError .grammar), lexer⟩

/-- All that a run needs. -/
structure Job where
  request : Request
  settings : Settings
  grammars : Grammars
  source : String

def Job.prepare (files : Files) (request : Request) : Except CommandError Job := do
  let settings ← (settingsFor files request).mapError .settings
  let grammars ← loadGrammars files request.grammar
  let source ← (files request.input).elim (throw (.missingInput request.input)) pure
  return { request, settings, grammars, source }

namespace Job

/-- Cut the input into tokens. -/
def lex (j : Job) : List Token × Lexer Unit :=
  let g := j.grammars.lexer
  let setup : LexerSetup Unit := { grammar := g, host := {}, fuel := patience }
  (Lexer.ofInput setup (.ofNetwork g.network) () (.ofText j.source "<unknown>")).allTokens

/-- The output of the lexer that the request and the settings ask for. -/
def showLexed (j : Job) (tokens : List Token) (tables : Tables) : String :=
  let table := (tables.tables[0]?.map PredictionTable.renderChars).getD ""
  let list := (Json.Value.ofList Token.toJson tokens).writePretty ++ "\n"
  (if j.settings.showTable then table else "") ++ (if j.request.showTokens then list else "")

def startRule (j : Job) (g : Grammar) : Except CommandError Nat :=
  match j.request.startRule with
  | none => .ok 0
  | some name =>
      match g.names.ruleIndex? name with
      | some rule => .ok rule
      | none => .error (.grammar (.unknownRule name))

/-- The message of a report, if it is shown. -/
def reportMessage? (j : Job) : Report → Option String
  | .mistake m => some m.render
  | .prediction r => if j.request.diagnostics then r.diagnostic? j.settings.diagnostics else none

/-- Parse the tokens. The answer is the further output, the messages and the number of
mistakes. -/
def parse (j : Job) (g : Grammar) (rule : Nat) (tokens : List Token) :
    Except (List String × CommandError) (String × List String × Nat) :=
  let setup : ParserSetup Unit := { grammar := g, options := j.settings.parser, fuel := patience }
  let source : TokenList := { tokens := tokens.toArray, name := j.request.input }
  let stream : TokenStream TokenList := { source, channel := j.settings.channel }
  let parser := Parser.ofInput g.network (.ofNetwork g.network) stream ()
  let (result, parser) := StateT.run (ExceptT.run (Parsing.parse setup rule)) parser
  let messages := parser.simulation.reports.toList.filterMap j.reportMessage?
  match result with
  | .ok root =>
      let tree := ((parser.tree.render? g.names root).getD "") ++ "\n"
      .ok (if j.request.showTree then tree else "", messages, parser.errorCount)
  | .error (.fatal (.cancelled error)) =>
      .ok ("", messages ++ [(ParseError.cancelled error).message], parser.errorCount + 1)
  | .error (.fatal error) => .error (messages, .parse error)
  | .error _ => .error (messages, .fault)

def run (j : Job) : Outcome :=
  let (tokens, lexer) := j.lex
  let lexed := j.showLexed tokens lexer.scanner.tables
  let mistakes := lexer.reports.toList.map Mistake.render
  let ended := fun (output : String) (messages : List String) (count : Nat) =>
    { code := if count = 0 then 0 else 1, output, messages : Outcome }
  if lexer.fault.isSome then .failed mistakes .fault
  else
    match j.grammars.parser with
    | none => ended lexed mistakes lexer.errorCount
    | some g =>
        match j.startRule g with
        | .error error => .failed mistakes error
        | .ok rule =>
            match j.parse g rule tokens with
            | .error (messages, error) => .failed (mistakes ++ messages) error
            | .ok (tree, messages, count) =>
                ended (lexed ++ tree) (mistakes ++ messages) (lexer.errorCount + count)

end Job

/-- Carry out a request. -/
def run (files : Files) (r : Request) : Outcome :=
  match Job.prepare files r with
  | .ok job => job.run
  | .error error => .failed [] error

end AdaptiveLL.Command
