import AdaptiveLL.Symbol
/-!
Character input: a text with a cursor. Lookahead counts from 1 at the cursor and from -1
just before it; outside of the text every symbol is the end of the input.
-/
namespace AdaptiveLL

structure CharStream where
  chars : Array Char
  position : Nat := 0
  name : String := "<unknown>"
  /-- The number of open marks. -/
  marks : Nat := 0
  deriving Repr, Inhabited

namespace CharStream

def ofText (text : String) (name : String) : CharStream :=
  { chars := text.toList.toArray, name }

def size (s : CharStream) : Nat :=
  s.chars.size

/-- The code point at a distance from the cursor; distance 0 names no character. -/
def lookahead (s : CharStream) (distance : Int) : Symbol :=
  if distance = 0 then 0
  else
    let place := (s.position : Int) + (if distance < 0 then distance else distance - 1)
    if place < 0 then Symbol.eof
    else
      match s.chars[place.toNat]? with
      | some c => c.toNat
      | none => Symbol.eof

def consume (s : CharStream) : CharStream :=
  { s with position := min (s.position + 1) s.size }

def seek (s : CharStream) (position : Nat) : CharStream :=
  { s with position := min position s.size }

/-- The text from `start` up to but not including `stop`, as far as there is one. -/
def text (s : CharStream) (start stop : Nat) : String :=
  String.ofList (s.chars.extract start stop).toList

def mark (s : CharStream) : CharStream :=
  { s with marks := s.marks + 1 }

def release (s : CharStream) : CharStream :=
  { s with marks := s.marks - 1 }

end CharStream

end AdaptiveLL
