import AdaptiveLL.Lexer.Scanner
import AdaptiveLL.Recognition.Report
import AdaptiveLL.Stream.TokenSource
/-!
Lexers: from characters to tokens. Each match either gives a token, or is skipped, or is
extended by the next match; the commands of the rule that won decide.

Characters with which no token begins are reported and dropped one by one. A lexer that gives up
on a match, or on the next token, has no answer and keeps the fault.
-/
namespace AdaptiveLL

structure Lexer (τ : Type) where
  setup : LexerSetup τ
  scanner : Scanner τ
  mode : Nat := 0
  /-- The modes to go back to, the next one first. -/
  modeStack : List Nat := []
  /-- The type of the token under construction, which commands may change. -/
  type : Symbol := Symbol.invalid
  channel : Nat := Token.defaultChannel
  /-- Takes the place of the matched text. -/
  text? : Option String := none
  atEnd : Bool := false
  /-- Where the token under construction began. -/
  tokenStart : Nat := 0
  tokenLine : Nat := 1
  tokenColumn : Nat := 0
  errorCount : Nat := 0
  reports : Array Mistake := #[]
  /-- Why the lexer has given up, if it has. -/
  fault : Option Fault := none

namespace Lexer

variable {τ : Type}

/-- The type of a match that gives no token. -/
def skipped : Symbol := -3

/-- The type of a match that the next one extends. -/
def continued : Symbol := -2

def ofInput (setup : LexerSetup τ) (tables : Tables) (host : τ) (input : CharStream) : Lexer τ where
  setup
  scanner := { input, host, tables }

/-- Back to the start of the input. Reports stay. -/
def reset (l : Lexer τ) : Lexer τ :=
  { l with
    scanner := { l.scanner with input := l.scanner.input.seek 0 }.reset
    mode := 0, modeStack := [], type := Symbol.invalid, channel := Token.defaultChannel
    text? := none, atEnd := false, errorCount := 0 }

def setMode (l : Lexer τ) (mode : Nat) : Lexer τ :=
  { l with mode }

def pushMode (l : Lexer τ) (mode : Nat) : Lexer τ :=
  { l with modeStack := l.mode :: l.modeStack, mode }

/-- Back to the mode before the last push, if there was one. -/
def popMode (l : Lexer τ) : Lexer τ :=
  match l.modeStack with
  | mode :: modeStack => { l with mode, modeStack }
  | [] => l

def seek (l : Lexer τ) (position : Nat) : Lexer τ :=
  { l with scanner := { l.scanner with input := l.scanner.input.seek position } }

/-- The text of the token under construction so far. -/
def text (l : Lexer τ) : String :=
  l.text?.getD (l.scanner.input.text l.tokenStart l.scanner.input.position)

/-- Run a command at the current position. -/
def apply (l : Lexer τ) : LexerAction → Lexer τ
  | .channel channel => { l with channel }
  | .custom rule index =>
      { l with
        scanner := { l.scanner with host := l.setup.host.action l.text rule index l.scanner.host } }
  | .mode mode => l.setMode mode
  | .more => { l with type := continued }
  | .popMode => l.popMode
  | .pushMode mode => l.pushMode mode
  | .skip => { l with type := skipped }
  | .type type => { l with type }
  | .pinned _ action => l.apply action

/-- Run one of the commands of a match that ended at `stop`. A custom command sees the input
where it stands in the rule. -/
def execute (stop : Nat) (l : Lexer τ) (action : LexerAction) : Lexer τ :=
  match action with
  | .pinned offset action => (l.seek (l.tokenStart + offset)).apply action
  | .custom .. => (l.seek stop).apply action
  | action => l.apply action

/-- Run the commands of a match, and leave the input at its end. -/
def executeAll (l : Lexer τ) (actions : ActionList) : Lexer τ :=
  let stop := l.scanner.input.position
  (actions.foldl (execute stop) l).seek stop

/-- The token from its start to the current position. -/
def emit (l : Lexer τ) : Token :=
  { type := l.type, channel := l.channel, start := l.tokenStart
    stop := l.scanner.input.position, line := l.tokenLine, column := l.tokenColumn
    text? := some l.text }

def emitEof (l : Lexer τ) : Token :=
  .endOfInput none l.scanner.input.position l.scanner.line l.scanner.column

/-- Report that no token was matched. -/
def reportError (l : Lexer τ) (error : RecognitionError) : Lexer τ :=
  let input := l.scanner.input
  let text := input.text l.tokenStart (min (input.position + 1) input.size)
  let shown :=
    if text.isEmpty && input.lookahead 1 == Symbol.eof then "<EOF>" else Text.escapeBlanks text
  let mistake : Mistake := {
    source := input.name, token := none, line := l.tokenLine, column := l.tokenColumn
    message := "token recognition error at: '" ++ shown ++ "'", error := some error }
  { l with errorCount := l.errorCount + 1, reports := l.reports.push mistake }

/-- Drop one character. -/
def recover (l : Lexer τ) : Lexer τ :=
  if l.scanner.input.lookahead 1 = Symbol.eof then l else { l with scanner := l.scanner.consume }

/-- Begin a token at the current position. -/
def beginToken (l : Lexer τ) : Lexer τ :=
  { l with
    channel := Token.defaultChannel, text? := none, tokenStart := l.scanner.input.position
    tokenLine := l.scanner.line, tokenColumn := l.scanner.column }

/-- One match with its commands. The answer is the type that it gives to the token, unless a
command gave it one. -/
def matchOnce (l : Lexer τ) : Symbol × Lexer τ :=
  let (outcome, scanner) := (Scan.matchToken l.setup l.mode).run l.scanner
  let l := { l with scanner }
  match outcome with
  | .ok found => (found.type, (found.actions.map l.executeAll).getD l)
  | .error (.recoverable error) => (skipped, (l.reportError error).recover)
  | .error (.fault fault) => (Symbol.eof, { l with fault := some fault })
  | .error (.fatal _) => (Symbol.eof, l)

/-- At most so many tokens are still to come. -/
def horizon (l : Lexer τ) : Nat :=
  (l.scanner.input.size - l.scanner.input.position) + (if l.atEnd then 0 else 1)

/-- Match until there is a token, at most `fuel` times. `extending` says whether the token
under construction goes on. There is no answer if the fuel runs out, or if the scanner breaks off
with a fault. -/
def nextWithin : Nat → Bool → Lexer τ → Option Token × Lexer τ
  | 0, _, l => (none, { l with fault := some .exhausted })
  | fuel + 1, extending, l =>
      if !extending && l.atEnd then (some l.emitEof, l)
      else
        let l := if extending then l else l.beginToken
        let (type, l) := { l with type := Symbol.invalid }.matchOnce
        let l := { l with
          atEnd := l.atEnd || l.scanner.input.lookahead 1 == Symbol.eof
          type := if l.type = Symbol.invalid then type else l.type }
        if l.fault.isSome then (none, l)
        else if l.type = skipped then nextWithin fuel false l
        else if l.type = continued then nextWithin fuel true l
        else if l.type = Symbol.eof then (some l.emitEof, l)
        else (some l.emit, l)

/-- The next token. Matches that read nothing and give no token can go on without end, so their
number is bounded by the fuel of the setup. -/
def next? (l : Lexer τ) : Option Token × Lexer τ :=
  nextWithin (l.horizon + 2 + l.setup.fuel) false l

/-- The next token; a lexer that has given up seems to be at the end of its input. -/
def next (l : Lexer τ) : Token × Lexer τ :=
  let (t, l) := l.next?
  (t.getD l.emitEof, l)

instance : TokenSource (Lexer τ) where
  next := next
  line l := l.scanner.line
  column l := l.scanner.column
  name l := l.scanner.input.name
  errorCount := errorCount
  horizon := horizon

/-- The tokens up to the end of the input, at most `fuel` of them. -/
def takeWithin : Nat → Lexer τ → List Token × Lexer τ
  | 0, l => ([], { l with fault := some .exhausted })
  | fuel + 1, l =>
      match l.next? with
      | (none, l) => ([], l)
      | (some t, l) =>
          if t.isEof then ([t], l)
          else
            let (rest, l) := takeWithin fuel l
            (t :: rest, l)

/-- The rest of the tokens; the last one is the end of the input. -/
def allTokens (l : Lexer τ) : List Token × Lexer τ :=
  takeWithin (l.horizon + 1) l

end Lexer

end AdaptiveLL
