import AdaptiveLL.Json.Magnitude
import AdaptiveLL.Json.Value
/-!
Reading JSON text. Every reader takes the characters that are left and returns what it read
with the characters behind it; one that meets something else has no answer. What is well
formed but stands for nothing is read as an unreadable value.
-/
namespace AdaptiveLL.Json

abbrev Reader (α : Type) := List Char → Option (α × List Char)

def isBlank (c : Char) : Bool :=
  c = ' ' || c = '\n' || c = '\t' || c = '\r'

def skipBlanks (cs : List Char) : List Char :=
  cs.dropWhile isBlank

/-- The characters of a word. -/
def word : List Char → List Char → Option (List Char)
  | [], cs => some cs
  | w :: ws, c :: cs => if w = c then word ws cs else none
  | _ :: _, [] => none

def hexValue? (c : Char) : Option Nat :=
  let n := c.toNat
  if 48 ≤ n ∧ n ≤ 57 then some (n - 48)
  else if 65 ≤ n ∧ n ≤ 70 then some (n - 55)
  else if 97 ≤ n ∧ n ≤ 102 then some (n - 87)
  else none

/-- Four digits in base sixteen. -/
def codeUnit : Reader Nat
  | a :: b :: c :: d :: rest => do
      let a ← hexValue? a
      let b ← hexValue? b
      let c ← hexValue? c
      let d ← hexValue? d
      some (((a * 16 + b) * 16 + c) * 16 + d, rest)
  | _ => none

/-- The character of a pair of code units, of which the first one is read already. Without
its other half a unit stands for no character. -/
def pairedWith (high : Nat) (cs : List Char) : Option Char × List Char :=
  match cs with
  | '\\' :: 'u' :: rest =>
      match codeUnit rest with
      | some (low, rest) =>
          if high < 0xDC00 ∧ 0xDC00 ≤ low ∧ low ≤ 0xDFFF then
            (some (Char.ofNat (0x10000 + (high - 0xD800) * 0x400 + (low - 0xDC00))), rest)
          else (none, cs)
      | none => (none, cs)
  | _ => (none, cs)

/-- The character written by one code unit, or by a pair of them beyond the first plane. -/
def codePoint : Reader (Option Char) := fun cs => do
  let (unit, rest) ← codeUnit cs
  if unit < 0xD800 ∨ 0xDFFF < unit then some (some (Char.ofNat unit), rest)
  else some (pairedWith unit rest)

/-- The character behind a backslash. -/
def escaped : Reader (Option Char)
  | '"' :: rest => some ('"', rest)
  | '\\' :: rest => some ('\\', rest)
  | '/' :: rest => some ('/', rest)
  | 'b' :: rest => some (Char.ofNat 8, rest)
  | 'f' :: rest => some (Char.ofNat 12, rest)
  | 'n' :: rest => some ('\n', rest)
  | 'r' :: rest => some ('\r', rest)
  | 't' :: rest => some ('\t', rest)
  | 'u' :: rest => codePoint rest
  | _ => none

/-- The characters of a text up to its closing quote, with a gap for each half of one. -/
def chars : Nat → Reader (List (Option Char))
  | 0, _ => none
  | _ + 1, [] => none
  | fuel + 1, c :: cs =>
      if c = '"' then some ([], cs)
      else if c = '\\' then do
        let (e, rest) ← escaped cs
        let (others, rest) ← chars fuel rest
        some (e :: others, rest)
      else if c.toNat < 32 then none
      else do
        let (others, rest) ← chars fuel cs
        some (c :: others, rest)

def digits (cs : List Char) : List Char × List Char :=
  (cs.takeWhile Char.isDigit, cs.dropWhile Char.isDigit)

/-- Digits of the whole part: a single zero, or no leading zero. -/
def whole (cs : List Char) : Option (List Char × List Char) :=
  match digits cs with
  | ([], _) => none
  | ('0' :: _ :: _, _) => none
  | found => some found

/-- The digits behind the point, if there is one. -/
def fraction : Reader (List Char)
  | '.' :: cs =>
      match digits cs with
      | ([], _) => none
      | found => some found
  | cs => some ([], cs)

/-- The exponent, if there is a mark in front of it. -/
def exponent : Reader (Option Int)
  | c :: cs =>
      if c = 'e' ∨ c = 'E' then
        let (negative, cs) := match cs with
          | '+' :: cs => (false, cs)
          | '-' :: cs => (true, cs)
          | cs => (false, cs)
        match digits cs with
        | ([], _) => none
        | (ds, rest) => some (some (if negative then -digitsValue ds else digitsValue ds), rest)
      else some (none, c :: cs)
  | [] => some (none, [])

/-- The integers that keep their value: those of 64 bits, signed or not. A negative zero is
no integer. -/
def integer? (negative : Bool) (n : Nat) : Option Int :=
  if negative then if 0 < n ∧ n ≤ 9223372036854775808 then some (-(n : Int)) else none
  else if n < 18446744073709551616 then some n else none

def number (cs : List Char) : Option (Value × List Char) := do
  let (negative, unsigned) := match cs with
    | '-' :: rest => (true, rest)
    | rest => (false, rest)
  let (ds, rest) ← whole unsigned
  let (frac, rest) ← fraction rest
  let (exp, rest) ← exponent rest
  let v : Value := match frac, exp, integer? negative (digitsValue ds) with
    | [], none, some i => .int i
    | _, _, _ =>
        if isBeyondReals ds frac (exp.getD 0) then .unreadable
        else .real (String.ofList (cs.take (cs.length - rest.length)))
  some (v, rest)

/-! ### Values -/

/-- How deep lists and objects may be nested. -/
def maxNesting : Nat := 127

/-- A list or an object for which there are so many levels left: it takes one of them, and
without any it cannot be read. -/
def enclosed : Nat → Value → Value
  | 0, _ => .unreadable
  | _ + 1, v => v

def textOf (cs : List (Option Char)) : Value :=
  (cs.mapM id).elim .unreadable fun cs => .text (String.ofList cs)

/-- An object, all of whose keys have to be texts. -/
def objectOf (members : List (Value × Value)) : Value :=
  let member? : Value × Value → Option (String × Value)
    | (.text key, v) => some (key, v)
    | _ => none
  (members.mapM member?).elim .unreadable .object

mutual

/-- A value, with blanks in front of it. Lists and objects may be nested `room` levels deep in
it. -/
def value : Nat → Nat → Reader Value
  | 0, _, _ => none
  | fuel + 1, room, cs =>
      match skipBlanks cs with
      | [] => none
      | '"' :: rest => (chars fuel rest).map fun (s, rest) => (textOf s, rest)
      | '[' :: rest =>
          match skipBlanks rest with
          | ']' :: rest => some (enclosed room (.list []), rest)
          | rest =>
              (items fuel (room - 1) rest).map fun (vs, rest) => (enclosed room (.list vs), rest)
      | '{' :: rest =>
          match skipBlanks rest with
          | '}' :: rest => some (enclosed room (.object []), rest)
          | rest =>
              (members fuel (room - 1) rest).map fun (ms, rest) =>
                (enclosed room (objectOf ms), rest)
      | 't' :: rest => (word ['r', 'u', 'e'] rest).map fun rest => (.bool true, rest)
      | 'f' :: rest => (word ['a', 'l', 's', 'e'] rest).map fun rest => (.bool false, rest)
      | 'n' :: rest => (word ['u', 'l', 'l'] rest).map fun rest => (.null, rest)
      | rest => number rest

/-- One item or more, up to the closing bracket. -/
def items : Nat → Nat → Reader (List Value)
  | 0, _, _ => none
  | fuel + 1, room, cs => do
      let (v, rest) ← value fuel room cs
      match skipBlanks rest with
      | ',' :: rest =>
          let (vs, rest) ← items fuel room rest
          some (v :: vs, rest)
      | ']' :: rest => some ([v], rest)
      | _ => none

/-- One member or more, up to the closing brace. -/
def members : Nat → Nat → Reader (List (Value × Value))
  | 0, _, _ => none
  | fuel + 1, room, cs =>
      match skipBlanks cs with
      | '"' :: rest => do
          let (key, rest) ← chars fuel rest
          match skipBlanks rest with
          | ':' :: rest => do
              let (v, rest) ← value fuel room rest
              let member := (textOf key, v)
              match skipBlanks rest with
              | ',' :: rest =>
                  let (ms, rest) ← members fuel room rest
                  some (member :: ms, rest)
              | '}' :: rest => some ([member], rest)
              | _ => none
          | _ => none
      | _ => none

end

/-- The value that a text consists of. -/
def parse? (text : String) : Option Value :=
  let cs := text.toList
  match value (2 * cs.length + 2) maxNesting cs with
  | some (v, rest) => if (skipBlanks rest).isEmpty then some v else none
  | none => none

end AdaptiveLL.Json
