import AdaptiveLL.Text.Unprintable
/-!
Text in double quotes, as messages show a name that the user gave.
-/
namespace AdaptiveLL.Text

/-- A digit of a number in base sixteen. -/
def hexDigit (n : Nat) : Char :=
  if n < 10 then Char.ofNat (48 + n) else Char.ofNat (87 + n)

/-- The number in base sixteen, without leading zeros. -/
def hex (n : Nat) : String :=
  String.ofList ((Nat.toDigits 16 n).map Char.toLower)

def escapeChar (c : Char) : String :=
  if c = '"' then "\\\""
  else if c = '\\' then "\\\\"
  else if c = '\n' then "\\n"
  else if c = '\r' then "\\r"
  else if c = '\t' then "\\t"
  else if c.toNat = 0 then "\\0"
  else if isUnprintable c then "\\u\x7b" ++ hex c.toNat ++ "\x7d"
  else c.toString

/-- The text in double quotes, with quotes, backslashes and characters without a visible
form escaped. -/
def doubleQuoted (s : String) : String :=
  "\"" ++ String.join (s.toList.map escapeChar) ++ "\""

end AdaptiveLL.Text
