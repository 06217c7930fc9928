import AdaptiveLL.Text.Quoted
/-!
JSON values and their text: a compact form on one line, and a laid out form with two blanks
for each level.
-/
namespace AdaptiveLL.Json

/-- A JSON value. Numbers that are no integers of 64 bits keep their text. -/
inductive Value where
  /-- What is well formed but stands for nothing: a text with half a character, a number
  beyond all binary numbers of 64 bits, what is nested too deep. It does no harm where nobody
  reads it. -/
  | unreadable
  | null
  | bool (b : Bool)
  | int (i : Int)
  | real (literal : String)
  | text (s : String)
  | list (items : List Value)
  | object (members : List (String × Value))
  deriving Repr, Inhabited

/-- A code point in four digits. -/
def fourDigits (n : Nat) : String :=
  String.ofList ([4096, 256, 16, 1].map fun place => Text.hexDigit (n / place % 16))

def escapeChar (c : Char) : String :=
  if c = '"' then "\\\""
  else if c = '\\' then "\\\\"
  else if c = '\n' then "\\n"
  else if c = '\r' then "\\r"
  else if c = '\t' then "\\t"
  else if c.toNat = 8 then "\\b"
  else if c.toNat = 12 then "\\f"
  else if c.toNat < 32 then "\\u" ++ fourDigits c.toNat
  else c.toString

def writeText (s : String) : String :=
  "\"" ++ String.join (s.toList.map escapeChar) ++ "\""

def indent (level : Nat) : String :=
  "\n" ++ String.ofList (List.replicate (2 * level) ' ')

namespace Value

mutual

/-- The compact form. -/
def write : Value → String
  | unreadable | null => "null"
  | bool b => if b then "true" else "false"
  | int i => toString i
  | real literal => literal
  | text s => writeText s
  | list items => "[" ++ String.intercalate "," (writeItems items) ++ "]"
  | object members => "\x7b" ++ String.intercalate "," (writeMembers members) ++ "\x7d"

def writeItems : List Value → List String
  | [] => []
  | v :: rest => v.write :: writeItems rest

def writeMembers : List (String × Value) → List String
  | [] => []
  | (key, v) :: rest => (writeText key ++ ":" ++ v.write) :: writeMembers rest

end

mutual

/-- The laid out form of a value that stands at a level of nesting. -/
def writeAt (level : Nat) : Value → String
  | list (v :: rest) =>
      "[" ++ String.intercalate "," (itemsAt (level + 1) (v :: rest)) ++ indent level ++ "]"
  | object (m :: rest) =>
      "\x7b" ++ String.intercalate "," (membersAt (level + 1) (m :: rest)) ++ indent level ++ "\x7d"
  | unreadable | null => "null"
  | bool b => if b then "true" else "false"
  | int i => toString i
  | real literal => literal
  | text s => writeText s
  | list [] => "[]"
  | object [] => "\x7b\x7d"

def itemsAt (level : Nat) : List Value → List String
  | [] => []
  | v :: rest => (indent level ++ v.writeAt level) :: itemsAt level rest

def membersAt (level : Nat) : List (String × Value) → List String
  | [] => []
  | (key, v) :: rest =>
      (indent level ++ writeText key ++ ": " ++ v.writeAt level) :: membersAt level rest

end

mutual

/-- One more than the depth to which lists and objects are nested in the value. -/
def depth : Value → Nat
  | list items => itemsDepth items + 1
  | object members => membersDepth members + 1
  | unreadable | null | bool _ | int _ | real _ | text _ => 1

def itemsDepth : List Value → Nat
  | [] => 0
  | v :: rest => max v.depth (itemsDepth rest)

def membersDepth : List (String × Value) → Nat
  | [] => 0
  | (_, v) :: rest => max v.depth (membersDepth rest)

end

mutual

/-- Whether no part of the value is unreadable. -/
def isReadable : Value → Bool
  | unreadable => false
  | list items => areReadable items
  | object members => membersReadable members
  | null | bool _ | int _ | real _ | text _ => true

def areReadable : List Value → Bool
  | [] => true
  | v :: rest => v.isReadable && areReadable rest

def membersReadable : List (String × Value) → Bool
  | [] => true
  | (_, v) :: rest => v.isReadable && membersReadable rest

end

/-- The laid out form. -/
def writePretty (v : Value) : String :=
  v.writeAt 0

end Value

end AdaptiveLL.Json
