import AdaptiveLL.Options
import AdaptiveLL.Settings.Place
import AdaptiveLL.Text.Unprintable
import AdaptiveLL.Toml.Reader
/-!
Settings: the options of the parser and of the diagnostics, and what happens to the tokens in
between. They come in layers, each of which changes what the ones before it left: the
defaults, the texts of files, and single values given to places.
-/
namespace AdaptiveLL

open Toml (Value)

structure Settings where
  parser : ParserOptions := {}
  diagnostics : DiagnosticOptions := {}
  /-- The channel that the parser reads. -/
  channel : Nat := 0
  /-- Show the prediction table of the lexer's first mode. -/
  showTable : Bool := false
  deriving DecidableEq, Repr, Inhabited

/-- Why there are no settings. -/
inductive SettingsError where
  /-- The text has no equals sign. -/
  | noAssignment (text : String)
  | badPlace (text : String)
  /-- A place has an index that no list can have. -/
  | badIndex
  | missingFile (name : String)
  /-- A file does not hold TOML. -/
  | badText
  /-- A setting has a value that it cannot have. -/
  | badValue
  deriving DecidableEq, Repr

def SettingsError.message : SettingsError → String
  | noAssignment text => "expected key=value, got '" ++ text ++ "'"
  | badPlace text => "no setting can be named '" ++ text ++ "'"
  | badIndex => "index out of range"
  | missingFile name => "configuration file \"" ++ name ++ "\" not found"
  | badText => "invalid TOML"
  | badValue => "invalid value"

namespace Settings

def parserOfValue? (v : Value) : Option ParserOptions := do
  let base : ParserOptions := {}
  match ← v.fields? ParserOptions.fieldNames with
  | [mode, build, trim, trace, depth, strategy] =>
      some {
        predictionMode := ← Value.orElse? base.predictionMode (Value.asName? PredictionMode.tags) mode
        buildTrees := ← Value.orElse? base.buildTrees Value.asBool? build
        trimTrees := ← Value.orElse? base.trimTrees Value.asBool? trim
        trace := ← Value.orElse? base.trace Value.asBool? trace
        maxDepth := ← Value.orElse? base.maxDepth Value.asNat? depth
        errorStrategy := ← Value.orElse? base.errorStrategy (Value.asName? ErrorStrategy.tags) strategy }
  | _ => none

def diagnosticsOfValue? (v : Value) : Option DiagnosticOptions := do
  let base : DiagnosticOptions := {}
  match ← v.fields? DiagnosticOptions.fieldNames with
  | [exact, sensitivity, fullContext] =>
      some {
        exactOnly := ← Value.orElse? base.exactOnly Value.asBool? exact
        contextSensitivity := ← Value.orElse? base.contextSensitivity Value.asBool? sensitivity
        fullContext := ← Value.orElse? base.fullContext Value.asBool? fullContext }
  | _ => none

/-- Read settings from a table. Keys without a meaning are passed over. -/
def ofValue? (v : Value) : Option Settings := do
  match ← v.fields? ["parser", "diagnostics", "lexer"] with
  | [some parser, some diagnostics, some lexer] =>
      match ← lexer.fields? ["channel", "dump-dfa"] with
      | [some channel, some showTable] =>
          some {
            parser := ← parserOfValue? parser
            diagnostics := ← diagnosticsOfValue? diagnostics
            channel := ← channel.asNat?
            showTable := ← showTable.asBool? }
      | _ => none
  | _ => none

def defaults : Value :=
  .table [
    ("parser", .table [
      ("prediction-mode", .text "ll"), ("build-parse-trees", .bool true),
      ("trim-parse-trees", .bool false), ("trace", .bool false), ("max-rule-depth", .int 1000),
      ("error-strategy", .text "default")]),
    ("diagnostics", .table [
      ("exact-ambiguity-only", .bool true), ("report-context-sensitivity", .bool true),
      ("report-full-context", .bool false)]),
    ("lexer", .table [("channel", .int 0), ("dump-dfa", .bool false)])]

/-- Give a value to a place that may have an index. -/
def layAt (target : Value) (place : Place) (v : Value) : Except SettingsError Value :=
  match insertAt v place target with
  | some target => .ok target
  | none => .error .badIndex

/-- Lay the entries of a file over a value. A key that reads as a place means the place. -/
def layFile (target : Value) (entries : List (String × Value)) : Except SettingsError Value :=
  entries.foldlM (fun target (key, v) => layAt target ((Place.parse? key).getD [.key key]) v)
    target

/-- The text of a file without a mark of the byte order in front. -/
def withoutMark (text : String) : String :=
  match text.toList with
  | '\uFEFF' :: rest => String.ofList rest
  | _ => text

/-- A value for a place. -/
abbrev Override := Place × Value

def override (place : String) (v : Value) : Except SettingsError Override :=
  match Place.parse? place with
  | some place => .ok (place, v)
  | none => .error (.badPlace place)

/-- Read `place=text`. Blanks around the two sides do not count. -/
def assignment (text : String) : Except SettingsError Override :=
  let cs := text.toList
  match cs.dropWhile (· ≠ '=') with
  | [] => .error (.noAssignment text)
  | _ :: value =>
      override (String.ofList (Text.trim (cs.takeWhile (· ≠ '='))))
        (.text (String.ofList (Text.trim value)))

/-- The settings given by the texts of files and by single values. Of two that concern the
same place the later one wins, and single values win over files. -/
def load (files : List String) (overrides : List Override) : Except SettingsError Settings := do
  let lay := fun (target : Value) (text : String) =>
    match Toml.parse? (withoutMark text) with
    | some entries => layFile target entries
    | none => .error .badText
  let layered ← files.foldlM lay defaults
  let complete ← overrides.foldlM (fun target (place, v) => layAt target place v) layered
  match ofValue? complete with
  | some settings => .ok settings
  | none => .error .badValue

end Settings

end AdaptiveLL
