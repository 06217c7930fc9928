import AdaptiveLL.Json.Reader
import AdaptiveLL.Toml.Moment
import AdaptiveLL.Toml.Table
/-!
Reading TOML text. As with JSON, a reader takes the characters that are left and returns what
it read with the characters behind it.
-/
namespace AdaptiveLL.Toml

open Json (Reader)

def isBlank (c : Char) : Bool :=
  c = ' ' || c = '\t'

/-- Characters that stand for themselves in comments and texts. -/
def isPlain (c : Char) : Bool :=
  c = '\t' || (32 ≤ c.toNat && c.toNat ≠ 127)

def skipBlanks (cs : List Char) : List Char :=
  cs.dropWhile isBlank

/-- The characters behind a line break. -/
def lineBreak? : List Char → Option (List Char)
  | '\n' :: rest => some rest
  | '\r' :: '\n' :: rest => some rest
  | _ => none

/-- Drop blanks and a comment. -/
def skipComment (cs : List Char) : List Char :=
  match skipBlanks cs with
  | '#' :: rest => rest.dropWhile isPlain
  | rest => rest

/-- What comes behind the end of a statement. -/
def endOfLine (cs : List Char) : Option (List Char) :=
  match skipComment cs with
  | [] => some []
  | rest => lineBreak? rest

/-- Drop at most `fuel` lines without content. -/
def skipLines : Nat → List Char → List Char
  | 0, cs => cs
  | fuel + 1, cs =>
      match lineBreak? (skipComment cs) with
      | some rest => skipLines fuel rest
      | none => skipComment cs

/-! ### Texts -/

def hexValue? (ds : List Char) : Option Nat :=
  ds.foldlM (fun acc d => (Json.hexValue? d).map (acc * 16 + ·)) 0

/-- The character with a number in `count` digits. -/
def codePoint (count : Nat) (cs : List Char) : Option (Char × List Char) := do
  let ds := cs.take count
  let n ← if ds.length = count then hexValue? ds else none
  if n.isValidChar then some (Char.ofNat n, cs.drop count) else none

/-- The character behind a backslash. -/
def escaped : Reader Char
  | '"' :: rest => some ('"', rest)
  | '\\' :: rest => some ('\\', rest)
  | 'b' :: rest => some (Char.ofNat 8, rest)
  | 'f' :: rest => some (Char.ofNat 12, rest)
  | 'n' :: rest => some ('\n', rest)
  | 'r' :: rest => some ('\r', rest)
  | 't' :: rest => some ('\t', rest)
  | 'u' :: rest => codePoint 4 rest
  | 'U' :: rest => codePoint 8 rest
  | _ => none

/-- Drop blanks and line breaks. -/
def skipBreaks : List Char → List Char
  | '\r' :: '\n' :: rest => skipBreaks rest
  | c :: rest => if isBlank c || c = '\n' then skipBreaks rest else c :: rest
  | [] => []

/-- What comes behind the blanks and line breaks that a backslash at the end of a line stands
for. -/
def continuation? (cs : List Char) : Option (List Char) :=
  (lineBreak? (skipBlanks cs)).map skipBreaks

/-- The rest of a text on one line, up to the quote that ends it. -/
def shortText (quote : Char) : Nat → Reader (List Char)
  | 0, _ => none
  | _ + 1, [] => none
  | fuel + 1, c :: cs =>
      if c = quote then some ([], cs)
      else if c = '\\' && quote = '"' then do
        let (e, rest) ← escaped cs
        let (others, rest) ← shortText quote fuel rest
        some (e :: others, rest)
      else if isPlain c then do
        let (others, rest) ← shortText quote fuel cs
        some (c :: others, rest)
      else none

/-- The rest of a text on several lines. It ends with three quotes, in front of which there
may be two more that belong to it. -/
def longText (quote : Char) : Nat → Reader (List Char)
  | 0, _ => none
  | _ + 1, [] => none
  | fuel + 1, c :: cs =>
      let further := fun (found : List Char) (rest : List Char) =>
        (longText quote fuel rest).map fun (others, rest) => (found ++ others, rest)
      if c = quote then
        let count := min 5 ((c :: cs).takeWhile (· = quote)).length
        if 3 ≤ count then some (List.replicate (count - 3) quote, (c :: cs).drop count)
        else further [c] cs
      else if c = '\\' && quote = '"' then
        match continuation? cs with
        | some rest => further [] rest
        | none => (escaped cs).bind fun (e, rest) => further [e] rest
      else
        match lineBreak? (c :: cs) with
        | some rest => further ['\n'] rest
        | none => if isPlain c then further [c] cs else none

/-- A text of one of the four kinds. -/
def text (cs : List Char) : Option (String × List Char) := do
  let (found, rest) ← match cs with
    | '"' :: '"' :: '"' :: rest => longText '"' (rest.length + 1) ((lineBreak? rest).getD rest)
    | '\'' :: '\'' :: '\'' :: rest =>
        longText '\'' (rest.length + 1) ((lineBreak? rest).getD rest)
    | '"' :: rest => shortText '"' (rest.length + 1) rest
    | '\'' :: rest => shortText '\'' (rest.length + 1) rest
    | _ => none
  some (String.ofList found, rest)

/-! ### Keys -/

def isBare (c : Char) : Bool :=
  c.isAlphanum || c = '_' || c = '-'

def simpleKey (cs : List Char) : Option (String × List Char) :=
  match cs with
  | '"' :: rest =>
      (shortText '"' (rest.length + 1) rest).map fun (s, rest) => (String.ofList s, rest)
  | '\'' :: rest =>
      (shortText '\'' (rest.length + 1) rest).map fun (s, rest) => (String.ofList s, rest)
  | cs =>
      match cs.takeWhile isBare with
      | [] => none
      | name => some (String.ofList name, cs.dropWhile isBare)

/-- How deep lists and tables may be nested, and how many keys a dotted key may have. -/
def maxNesting : Nat := 79

/-- At most so many keys with points between them: those in front of the last one, and the last
one. -/
def dottedKey : Nat → Reader (List String × String)
  | 0, _ => none
  | fuel + 1, cs => do
      let (key, rest) ← simpleKey (skipBlanks cs)
      match skipBlanks rest with
      | '.' :: rest =>
          let ((path, last), rest) ← dottedKey fuel rest
          some ((key :: path, last), rest)
      | rest => some (([], key), rest)

/-! ### Numbers, flags and moments -/

/-- Digits, between which there may be underscores. -/
def digits? (isDigit : Char → Bool) : List Char → Option (List Char)
  | [] => none
  | [c] => if isDigit c then some [c] else none
  | c :: '_' :: rest => if isDigit c then (digits? isDigit rest).map (c :: ·) else none
  | c :: rest => if isDigit c then (digits? isDigit rest).map (c :: ·) else none

/-- Decimal digits without leading zeros. -/
def whole? (cs : List Char) : Option (List Char) :=
  match digits? Char.isDigit cs with
  | some ('0' :: _ :: _) => none
  | found => found

/-- A sign and what follows it. -/
def signed (cs : List Char) : Bool × List Char :=
  match cs with
  | '-' :: rest => (true, rest)
  | '+' :: rest => (false, rest)
  | rest => (false, rest)

/-- An integer of 64 bits. -/
def integer? (word : List Char) : Option Int := do
  let based := fun (base : Nat) (isDigit : Char → Bool) (cs : List Char) =>
    (digits? isDigit cs).bind fun ds =>
      ds.foldlM (fun acc d => (Json.hexValue? d).map (acc * base + ·)) 0
  let i : Int ← match word with
    | '0' :: 'x' :: rest => (based 16 (fun c => (Json.hexValue? c).isSome) rest).map Int.ofNat
    | '0' :: 'o' :: rest => (based 8 (fun c => '0' ≤ c ∧ c ≤ '7') rest).map Int.ofNat
    | '0' :: 'b' :: rest => (based 2 (fun c => c = '0' ∨ c = '1') rest).map Int.ofNat
    | word =>
        let (negative, rest) := signed word
        (whole? rest).map fun ds =>
          if negative then -(Json.digitsValue ds : Int) else Json.digitsValue ds
  if -9223372036854775808 ≤ i ∧ i ≤ 9223372036854775807 then some i else none

/-- The nearest real number. The exponent is cut where all numbers are zero or infinite. -/
def realOf (mantissa : List Char) (exponent : Int) : Float :=
  let m := Json.digitsValue mantissa
  let bound : Int := 400 + mantissa.length
  let e := max (-bound) (min bound exponent)
  if e < 0 then Float.ofScientific m true e.natAbs else Float.ofScientific m false e.natAbs

/-- A real number with a point or an exponent. -/
def decimal? (cs : List Char) : Option Float := do
  let isMark := fun c => c = 'e' || c = 'E'
  let mantissa := cs.takeWhile fun c => !isMark c
  let ds ← whole? (mantissa.takeWhile (· ≠ '.'))
  let fraction ← match mantissa.dropWhile (· ≠ '.') with
    | [] => some []
    | _ :: rest => digits? Char.isDigit rest
  let exponent : Int ← match cs.dropWhile fun c => !isMark c with
    | [] => if fraction.isEmpty then none else some 0
    | _ :: rest =>
        let (negative, rest) := signed rest
        (digits? Char.isDigit rest).map fun es =>
          if negative then -(Json.digitsValue es : Int) else Json.digitsValue es
  some (realOf (ds ++ fraction) (exponent - fraction.length))

def real? (word : List Char) : Option Float := do
  let (negative, rest) := signed word
  let infinity : Float := 1 / 0
  let x ← match rest with
    | ['i', 'n', 'f'] => some infinity
    | ['n', 'a', 'n'] => some (0 / 0)
    | rest => (decimal? rest).filter fun x => negative || x != infinity
  some (if negative then -x else x)

def isWordChar (c : Char) : Bool :=
  isBare c || c = '+' || c = '.' || c = ':'

/-- A flag, a number or a moment. Moments are kept as text. -/
def scalar (cs : List Char) : Option (Value × List Char) := do
  let word := cs.takeWhile isWordChar
  let rest := cs.dropWhile isWordChar
  let (word, rest) := match rest with
    | ' ' :: d :: more =>
        if Moment.isDate word && d.isDigit then
          (word ++ ' ' :: (d :: more).takeWhile isWordChar, (d :: more).dropWhile isWordChar)
        else (word, rest)
    | _ => (word, rest)
  let v ← match String.ofList word with
    | "true" => some (.bool true)
    | "false" => some (.bool false)
    | literal =>
        (integer? word).map Value.int <|> (real? word).map Value.real <|>
          (if Moment.isMoment word then some (.text literal) else none)
  some (v, rest)

/-! ### Values and documents -/

/-- The value of a table without a header. -/
def inlineTable? (entries : List ((List String × String) × Value)) : Option Value :=
  (entries.foldlM (fun es ((path, key), v) => Entries.addEntry path key v es) []).map
    fun es => .table (Node.entryValues es)

mutual

/-- A value. Lists and tables may be nested `room` levels deep in it. -/
def value : Nat → Nat → Reader Value
  | 0, _, _ => none
  | fuel + 1, room, cs =>
      match cs, room with
      | '"' :: _, _ | '\'' :: _, _ => (text cs).map fun (s, rest) => (.text s, rest)
      | '[' :: _, 0 | '{' :: _, 0 => none
      | '[' :: rest, room + 1 => (items fuel room rest).map fun (vs, rest) => (.list vs, rest)
      | '{' :: rest, room + 1 => do
          let (es, rest) ← match skipBlanks rest with
            | '}' :: rest => some ([], rest)
            | _ => entries fuel room rest
          some (← inlineTable? es, rest)
      | cs, _ => scalar cs

/-- The items of a list up to the closing bracket, in front of which there may be a comma. -/
def items : Nat → Nat → Reader (List Value)
  | 0, _, _ => none
  | fuel + 1, room, cs =>
      match skipLines cs.length cs with
      | ']' :: rest => some ([], rest)
      | cs => do
          let (v, rest) ← value fuel room cs
          match skipLines rest.length rest with
          | ',' :: rest =>
              let (vs, rest) ← items fuel room rest
              some (v :: vs, rest)
          | ']' :: rest => some ([v], rest)
          | _ => none

/-- A key and its value. -/
def entry : Nat → Nat → Reader ((List String × String) × Value)
  | 0, _, _ => none
  | fuel + 1, room, cs => do
      let (key, rest) ← dottedKey maxNesting cs
      match rest with
      | '=' :: rest =>
          let (v, rest) ← value fuel room (skipBlanks rest)
          some ((key, v), rest)
      | _ => none

/-- One entry or more, up to the closing brace. -/
def entries : Nat → Nat → Reader (List ((List String × String) × Value))
  | 0, _, _ => none
  | fuel + 1, room, cs => do
      let (e, rest) ← entry fuel room cs
      match skipBlanks rest with
      | ',' :: rest =>
          let (es, rest) ← entries fuel room rest
          some (e :: es, rest)
      | '}' :: rest => some ([e], rest)
      | _ => none

end

/-- One statement without the end of its line. -/
def statement (cs : List Char) : Option (Statement × List Char) :=
  match cs with
  | '[' :: '[' :: rest => do
      let ((path, key), rest) ← dottedKey maxNesting rest
      match rest with
      | ']' :: ']' :: rest => some (.item path key, rest)
      | _ => none
  | '[' :: rest => do
      let ((path, key), rest) ← dottedKey maxNesting rest
      match rest with
      | ']' :: rest => some (.table path key, rest)
      | _ => none
  | cs =>
      (entry (2 * cs.length + 4) maxNesting cs).map fun (((path, key), v), rest) =>
        (.entry path key v, rest)

/-- The statements of a text with at most `fuel` lines. -/
def statements? : Nat → List Char → Option (List Statement)
  | 0, _ => none
  | fuel + 1, cs =>
      match skipLines cs.length cs with
      | [] => some []
      | cs => do
          let (s, rest) ← statement cs
          let rest ← endOfLine rest
          (statements? fuel rest).map (s :: ·)

/-- The entries of a text. A mark of the byte order may stand in front. -/
def parse? (text : String) : Option (List (String × Value)) :=
  let cs := match text.toList with
    | '\uFEFF' :: rest => rest
    | cs => cs
  (statements? (cs.length + 1) cs).bind assemble?

end AdaptiveLL.Toml
