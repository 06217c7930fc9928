/-!
Requests: what the arguments of the command line ask for. The two files that a run needs are
given by their places among the arguments, everything else by options, which may stand
anywhere.
-/
namespace AdaptiveLL.Command

structure Request where
  /-- The file with the description of the grammar. -/
  grammar : String
  /-- The file to parse. -/
  input : String
  startRule : Option String := none
  /-- The file with settings. -/
  settings : Option String := none
  /-- Single settings, each in the form `place=value`. -/
  assignments : List String := []
  showTokens : Bool := false
  showTree : Bool := false
  trace : Bool := false
  /-- Predict without the calling context. -/
  sll : Bool := false
  /-- Report ambiguities and context sensitivities. -/
  diagnostics : Bool := false
  deriving DecidableEq, Repr, Inhabited

inductive Argument where
  | plain (text : String)
  | flag (name : String)
  | option (name value : String)
  deriving DecidableEq, Repr

def flagNames : List String :=
  ["tokens", "tree", "trace", "sll", "diagnostics"]

def optionNames : List String :=
  ["start-rule", "config", "set"]

/-- The name of an option that has a short one. -/
def longName? (c : Char) : Option String :=
  if c = 'r' then some "start-rule" else if c = 'c' then some "config" else none

/-- What can be said of an argument before the next one is seen. -/
inductive Form where
  | whole (argument : Argument)
  /-- The value is the next argument. -/
  | awaitsValue (name : String)
  /-- All further arguments are plain. -/
  | endOfOptions
  | unknown
  deriving DecidableEq, Repr

/-- The form of an argument. The value of an option may stand behind an equals sign, and
behind a short name also without one. -/
def form (arg : String) : Form :=
  match arg.toList with
  | ['-', '-'] => .endOfOptions
  | '-' :: '-' :: cs =>
      let name := String.ofList (cs.takeWhile (· ≠ '='))
      match cs.dropWhile (· ≠ '='), flagNames.contains name, optionNames.contains name with
      | [], true, _ => .whole (.flag name)
      | [], _, true => .awaitsValue name
      | _ :: value, _, true => .whole (.option name (String.ofList value))
      | _, _, _ => .unknown
  | '-' :: c :: cs =>
      match longName? c, cs with
      | none, _ => .unknown
      | some name, [] => .awaitsValue name
      | some name, '=' :: value => .whole (.option name (String.ofList value))
      | some name, value => .whole (.option name (String.ofList value))
  | _ => .whole (.plain arg)

/-- Tell the arguments apart. -/
def arguments? : List String → Option (List Argument)
  | [] => some []
  | arg :: rest =>
      match form arg, rest with
      | .whole argument, rest => (arguments? rest).map (argument :: ·)
      | .awaitsValue name, value :: rest => (arguments? rest).map (.option name value :: ·)
      | .endOfOptions, rest => some (rest.map .plain)
      | .awaitsValue _, [] | .unknown, _ => none

namespace Request

def withFlag (r : Request) (name : String) : Request :=
  match name with
  | "tokens" => { r with showTokens := true }
  | "tree" => { r with showTree := true }
  | "trace" => { r with trace := true }
  | "sll" => { r with sll := true }
  | "diagnostics" => { r with diagnostics := true }
  | _ => r

def withOption (r : Request) (name value : String) : Request :=
  match name with
  | "start-rule" => { r with startRule := some value }
  | "config" => { r with settings := some value }
  | "set" => { r with assignments := r.assignments ++ [value] }
  | _ => r

def withArgument (r : Request) : Argument → Request
  | .plain _ => r
  | .flag name => r.withFlag name
  | .option name value => r.withOption name value

/-- Read the arguments of a command line. -/
def ofArguments? (args : List String) : Option Request := do
  let args ← arguments? args
  let plain := args.filterMap fun
    | .plain text => some text
    | .flag _ | .option .. => none
  match plain with
  | [grammar, input] => some (args.foldl withArgument { grammar, input })
  | _ => none

/-- The names under which settings are looked for. -/
def settingsNames (r : Request) : List String :=
  match r.settings with
  | some name => [name, name ++ ".toml"]
  | none => []

/-- The names of all files that the request may read. -/
def fileNames (r : Request) : List String :=
  r.settingsNames ++ [r.grammar, r.input]

end Request

end AdaptiveLL.Command
