import AdaptiveLL.Json.Record
import AdaptiveLL.Symbol
/-!
Tokens: what a lexer produces and a parser reads.
-/
namespace AdaptiveLL

namespace Text

/-- Write line breaks and tabs as escapes, so that the text stays on one line. -/
def escapeBlanks (s : String) : String :=
  String.join (s.toList.map fun c =>
    if c = '\n' then "\\n" else if c = '\r' then "\\r" else if c = '\t' then "\\t" else c.toString)

/-- The text in single quotes, on one line. -/
def quoted (s : String) : String :=
  "'" ++ escapeBlanks s ++ "'"

end Text

/-- A token covers the characters from `start` up to but not including `stop`. `index` is
its place in the token stream; a token made up by error recovery has none. Lines count from
1, columns from 0. -/
structure Token where
  type : Symbol
  channel : Nat := 0
  start : Nat := 0
  stop : Nat := 0
  index : Option Nat := none
  line : Nat := 1
  column : Nat := 0
  text? : Option String := none
  deriving DecidableEq, Repr, Inhabited

namespace Token

/-- The channel that parsers read. -/
def defaultChannel : Nat := 0

/-- The end of the input at a position. -/
def endOfInput (index : Option Nat) (position line column : Nat) : Token :=
  { type := Symbol.eof, start := position, stop := position, index, line, column }

def isEof (t : Token) : Bool :=
  t.type == Symbol.eof

/-- Whether error recovery made this token up. -/
def isConjured (t : Token) : Bool :=
  t.index.isNone && !t.isEof

/-- The text of the token; the end of the input reads `<EOF>`. -/
def text (t : Token) : String :=
  t.text?.getD (if t.isEof then "<EOF>" else "")

/-- The one-line form: index, span with inclusive end, text, type, channel unless it is the
default one, and position. -/
def render (t : Token) : String :=
  let index := match t.index with
    | some i => toString i
    | none => "-1"
  let channel := if t.channel = defaultChannel then "" else ",channel=" ++ toString t.channel
  "[@" ++ index ++ "," ++ toString t.start ++ ":" ++ toString ((t.stop : Int) - 1) ++ "="
    ++ Text.quoted t.text ++ ",<" ++ toString t.type ++ ">" ++ channel ++ ","
    ++ toString t.line ++ ":" ++ toString t.column ++ "]"

instance : ToString Token := ⟨render⟩

/-- How messages show a token: its text in quotes, or its type when it has no text. -/
def quoted : Option Token → String
  | none => "<no token>"
  | some t =>
      Text.quoted (t.text?.getD (if t.isEof then "<EOF>" else "<" ++ toString t.type ++ ">"))

open Json (Value) in
/-- The written form. -/
def toJson (t : Token) : Value :=
  .object [("token_type", .int t.type), ("channel", .ofNat t.channel),
    ("span", .object [("start", .ofNat t.start), ("end", .ofNat t.stop)]),
    ("token_index", .ofOption .ofNat t.index), ("line", .ofNat t.line),
    ("column", .ofNat t.column), ("text", .ofOption .text t.text?)]

end Token

end AdaptiveLL
