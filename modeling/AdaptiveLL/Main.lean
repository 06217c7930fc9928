import AdaptiveLL.Command.Run
/-!
The command line: lex and parse a file with the grammar of a description.
-/
namespace AdaptiveLL.Command

def usage : String :=
  "usage: adaptivell GRAMMAR INPUT [-r RULE] [--tokens] [--tree] [--trace] [--sll]\n" ++
  "  [--diagnostics] [-c FILE] [--set KEY=VALUE]..."

/-- The text of a file, if it can be read. -/
def readText? (name : String) : IO (Option String) := do
  match ← (IO.FS.readFile name).toBaseIO with
  | .ok text => return some text
  | .error _ => return none

/-- Carry out the request of the arguments; the answer is the exit code. -/
def execute (args : List String) : IO UInt32 := do
  match Request.ofArguments? args with
  | none =>
      IO.eprintln usage
      return 2
  | some request =>
      let texts ← request.fileNames.mapM fun name => return (name, ← readText? name)
      let outcome := run (fun name => (texts.lookup name).join) request
      outcome.messages.forM fun line => IO.eprintln line
      IO.print outcome.output
      return outcome.code.toUInt32

end AdaptiveLL.Command

def main (args : List String) : IO UInt32 :=
  AdaptiveLL.Command.execute args
