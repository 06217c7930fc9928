/-!
TOML values, and how they read as a flag, as a number or as a name: the text of a flag or of
a number does as well as the flag or the number itself, as a text is all that a command line
can give.
-/
namespace AdaptiveLL.Toml

inductive Value where
  /-- The gap in a list of which only a later item was given. -/
  | gap
  | bool (b : Bool)
  | int (i : Int)
  | real (x : Float)
  | text (s : String)
  | list (items : List Value)
  | table (entries : List (String × Value))
  deriving Repr, Inhabited

def yesWords : List String := ["true", "on", "yes"]

def noWords : List String := ["false", "off", "no"]

/-- A number of 64 bits in decimal digits, perhaps with a plus sign. -/
def natOfText? (s : String) : Option Nat :=
  let digits := match s.toList with
    | '+' :: rest => rest
    | cs => cs
  let n := digits.foldl (fun acc d => acc * 10 + (d.toNat - 48)) 0
  if !digits.isEmpty && digits.all Char.isDigit && n < 18446744073709551616 then some n else none

namespace Value

def asBool? : Value → Option Bool
  | bool b => some b
  | int i => some (i != 0)
  | real x => some (x != 0)
  | text s =>
      let word := s.toLower
      if word = "1" ∨ yesWords.contains word then some true
      else if word = "0" ∨ noWords.contains word then some false
      else none
  | gap | list _ | table _ => none

/-- A real number is rounded to the nearest number there is. -/
def asNat? : Value → Option Nat
  | bool b => some b.toNat
  | int i => if 0 ≤ i then some i.toNat else none
  | real x => some x.round.toUInt64.toNat
  | text s =>
      let word := s.toLower
      if yesWords.contains word then some 1
      else if noWords.contains word then some 0
      else natOfText? s
  | gap | list _ | table _ => none

/-- A name from a list of names in small letters, in any case. It may also be the key of the
only entry of a table. -/
def asName? {α : Type} (names : List (String × α)) : Value → Option α
  | text s | table [(s, _)] => names.lookup s.toLower
  | _ => none

/-- The values of named fields: the entries of a table, or the items of a list in order. -/
def fields? (names : List String) : Value → Option (List (Option Value))
  | table entries => some (names.map (entries.lookup ·))
  | list items => some (names.mapIdx fun i _ => items[i]?)
  | _ => none

/-- A field that may be left out. -/
def orElse? {α : Type} (default : α) (read : Value → Option α) : Option Value → Option α
  | none => some default
  | some v => read v

end Value

end AdaptiveLL.Toml
