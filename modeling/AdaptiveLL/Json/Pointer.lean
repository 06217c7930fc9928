import AdaptiveLL.Json.Magnitude
import AdaptiveLL.Json.Value
/-!
Pointers to parts of JSON values, and changes of the parts that they point to.
-/
namespace AdaptiveLL.Json

/-- The keys and indexes on the way to a part, outermost first. -/
abbrev Pointer := List String

namespace Pointer

/-- The characters of a key: `~1` stands for a slash and `~0` for a tilde. -/
def unescape : List Char → List Char
  | '~' :: '1' :: cs => '/' :: unescape cs
  | '~' :: '0' :: cs => '~' :: unescape cs
  | c :: cs => c :: unescape cs
  | [] => []

/-- Read the form `/key/index`. The empty text points to the whole value. -/
def ofText (text : String) : Pointer :=
  ((text.splitOn "/").drop 1).map fun key => String.ofList (unescape key.toList)

/-- The index that a key means in a list: decimal digits without leading zeros. -/
def index? (key : String) : Option Nat :=
  match key.toList with
  | [] | '0' :: _ :: _ => none
  | ds => if ds.all Char.isDigit then some (digitsValue ds) else none

end Pointer

/-- A change of one value. -/
inductive Edit where
  | replace (v : Value)
  /-- Add a last item to a list. -/
  | append (v : Value)
  /-- Give a value to a member of an object, which becomes the last one. -/
  | put (key : String) (v : Value)
  | drop (key : String)
  deriving Repr

namespace Edit

/-- The changed value; a change that does not fit the value leaves it as it is. -/
def apply : Edit → Value → Value
  | replace v, _ => v
  | append v, .list items => .list (items ++ [v])
  | put key v, .object members => .object (members.filter (·.1 != key) ++ [(key, v)])
  | drop key, .object members => .object (members.filter (·.1 != key))
  | _, v => v

/-- Change the part that a pointer names; without such a part nothing changes. -/
def applyAt (e : Edit) : Pointer → Value → Value
  | [], v => e.apply v
  | key :: path, .list items =>
      match Pointer.index? key with
      | some i => .list (items.modify i (applyAt e path))
      | none => .list items
  | key :: path, .object members =>
      .object (members.map fun m => if m.1 = key then (m.1, applyAt e path m.2) else m)
  | _ :: _, v => v

end Edit

end AdaptiveLL.Json
