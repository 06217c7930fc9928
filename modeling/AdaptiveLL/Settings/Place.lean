import AdaptiveLL.Toml.Value
/-!
Places of values in nested tables, and giving a value to a place. Keys are written with
points between them and indexes in brackets; small and capital letters are the same in them.
-/
namespace AdaptiveLL.Settings

open Toml (Value)

inductive PlaceStep where
  | key (name : String)
  /-- An item of a list; negative indexes count from the end. -/
  | item (index : Int)
  deriving DecidableEq, Repr

/-- The steps to a value from the outermost table on. -/
abbrev Place := List PlaceStep

namespace Place

def isNameChar (c : Char) : Bool :=
  c.isAlphanum || c = ' ' || c = '_' || c = '-'

def isBlank (c : Char) : Bool :=
  c = ' ' || c = '\t'

/-- An index without its brackets. -/
def index? (cs : List Char) : Option Int :=
  let inner := ((cs.dropWhile isBlank).reverse.dropWhile isBlank).reverse
  let (negative, digits) := match inner with
    | '-' :: rest => (true, rest)
    | rest => (false, rest)
  let n : Nat := digits.foldl (fun acc d => acc * 10 + (d.toNat - 48)) 0
  if digits.isEmpty || !digits.all Char.isDigit || 9223372036854775808 ≤ n then none
  else some (if negative then -(n : Int) else n)

/-- The steps behind the first key, at most `fuel` of them. -/
def stepsWithin : Nat → List Char → Option Place
  | _, [] => some []
  | 0, _ :: _ => none
  | fuel + 1, '.' :: cs =>
      match cs.takeWhile isNameChar with
      | [] => none
      | name => (stepsWithin fuel (cs.dropWhile isNameChar)).map (.key (String.ofList name) :: ·)
  | fuel + 1, '[' :: cs =>
      match index? (cs.takeWhile (· ≠ ']')), cs.dropWhile (· ≠ ']') with
      | some i, ']' :: rest => (stepsWithin fuel rest).map (.item i :: ·)
      | _, _ => none
  | _ + 1, _ :: _ => none

/-- Read a place: a key, and further keys and indexes. -/
def parse? (text : String) : Option Place :=
  let cs := '.' :: text.toList
  stepsWithin cs.length cs

end Place

/-- The entries of a table; other values have none. -/
def entriesOf : Value → List (String × Value)
  | .table entries => entries
  | _ => []

/-- The items of a list; other values have none. -/
def itemsOf : Value → List Value
  | .list items => items
  | _ => []

/-- Let a key stand for a value; a new key comes last. -/
def putEntry (entries : List (String × Value)) (key : String) (v : Value) :
    List (String × Value) :=
  if entries.any (·.1 == key) then entries.map fun e => if e.1 == key then (key, v) else e
  else entries ++ [(key, v)]

/-- No list has as many items as this. -/
def maxItems : Nat := 4294967296

/-- Change the item at an index, which may be behind the end of the list, but neither in front
of its first item nor too far behind. -/
def putItem (items : List Value) (index : Int) (f : Value → Option Value) :
    Option (List Value) :=
  let place := if index < 0 then items.length + index else index
  if place < 0 ∨ maxItems ≤ place then none
  else
    let items := items ++ List.replicate (place.toNat + 1 - items.length) Value.gap
    (f (items.getD place.toNat .gap)).map (items.set place.toNat)

mutual

/-- Let a key of a value stand for something else. A table is merged into the table that is
already there; anything else takes the place of what is there. -/
def insert (key : String) (target : Value) : Value → Value
  | .table incoming =>
      let old := ((entriesOf target).lookup key.toLower).getD (.table [])
      .table (putEntry (entriesOf target) key.toLower (merge old incoming))
  | v => .table (putEntry (entriesOf target) key.toLower v)

/-- Insert entries one after the other. -/
def merge (target : Value) : List (String × Value) → Value
  | [] => target
  | (key, v) :: rest => merge (insert key target v) rest

end

/-- Give a value to a place. What stands on the way without being a table or a list, as the
place has it, is replaced by one. -/
def insertAt (v : Value) : Place → Value → Option Value
  | [], _ => some v
  | [.key name], target => some (insert name target v)
  | .key name :: rest, target => do
      let old := ((entriesOf target).lookup name.toLower).getD .gap
      some (.table (putEntry (entriesOf target) name.toLower (← insertAt v rest old)))
  | .item index :: rest, target => (putItem (itemsOf target) index (insertAt v rest)).map .list

end AdaptiveLL.Settings
