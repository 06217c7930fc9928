/-!
Symbols: what a network reads. A parser network reads token types, a lexer network reads
the code points of characters; both are integers, and the reserved values below are the
same for both.
-/
namespace AdaptiveLL

/-- A token type or the code point of a character. -/
abbrev Symbol := Int

namespace Symbol

/-- The end of the input, the only negative symbol that a stream yields. -/
def eof : Symbol := -1

/-- Inside a lookahead set: the end of the rule can be reached without reading anything. -/
def epsilon : Symbol := -2

/-- The type of a token that no rule of the grammar can match. -/
def invalid : Symbol := 0

/-- The least type that a grammar can give to a token. -/
def firstToken : Symbol := 1

/-- The largest code point. -/
def lastChar : Symbol := 0x10FFFF

/-- The name that the reserved symbols carry inside sets. -/
def reservedName? (s : Symbol) : Option String :=
  if s = eof then some "<EOF>" else if s = epsilon then some "<EPSILON>" else none

end Symbol

/-- A number that no state carries. It stands for "no state" wherever a state number is
expected, and inside call stacks it marks the empty stack; it sorts after every state. -/
def noState : Nat := 18446744073709551615

end AdaptiveLL
