import AdaptiveLL.Token
/-!
A scanner for arithmetic expressions, with the token types of the sample grammar of
expressions. Numbers and names are as long as possible, blanks separate tokens, and any
character without a meaning is a token of the invalid type.
-/
namespace AdaptiveLL.Calculator

/-- A place in a text. -/
structure Place where
  offset : Nat := 0
  line : Nat := 1
  column : Nat := 0
  deriving DecidableEq, Repr, Inhabited

namespace Place

/-- The place behind a character. -/
def advance (p : Place) (c : Char) : Place :=
  if c = '\n' then ⟨p.offset + 1, p.line + 1, 0⟩ else ⟨p.offset + 1, p.line, p.column + 1⟩

end Place

def isBlank (c : Char) : Bool :=
  c == ' ' || c == '\t' || c == '\r' || c == '\n'

def isLetter (c : Char) : Bool :=
  c.isAlpha || c == '_'

/-- The type of a token that begins with this character, and the characters it goes on
with. -/
def classify (c : Char) : Symbol × (Char → Bool) :=
  if c.isDigit then (1, Char.isDigit)
  else if isLetter c then (2, isLetter)
  else
    let type :=
      if c = '+' then 3 else if c = '*' then 4 else if c = '(' then 5 else if c = ')' then 6
      else Symbol.invalid
    (type, fun _ => false)

theorem length_dropWhile_le (p : Char → Bool) (cs : List Char) :
    (cs.dropWhile p).length ≤ cs.length :=
  (List.dropWhile_suffix p).length_le

/-- The tokens of a text that begins at a place. -/
def scan (cs : List Char) (place : Place) : List Token :=
  match cs with
  | [] => []
  | c :: rest =>
      if isBlank c then scan rest (place.advance c)
      else
        let (type, more) := classify c
        let word := c :: rest.takeWhile more
        let stop := word.foldl Place.advance place
        { type, start := place.offset, stop := stop.offset, line := place.line
          column := place.column, text? := some (String.ofList word) }
          :: scan (rest.dropWhile more) stop
  termination_by cs.length
  decreasing_by
    · simp
    · have := length_dropWhile_le more rest
      simp only [List.length_cons]
      omega

def tokens (text : String) : List Token :=
  scan text.toList {}

end AdaptiveLL.Calculator
