import AdaptiveLL.Symbol
/-!
Names of token types. A literal name carries its quotes, a symbolic name does not. The name
shown for a type is its literal, else its symbolic name, else its number.
-/
namespace AdaptiveLL

/-- Both tables are indexed by token type. -/
structure Vocabulary where
  literals : Array (Option String) := #[]
  symbolics : Array (Option String) := #[]
  deriving DecidableEq, Repr, Inhabited

namespace Vocabulary

/-- One row: a token type with its literal and its symbolic name. -/
structure Entry where
  type : Symbol
  literal : Option String := none
  symbolic : Option String := none
  deriving DecidableEq, Repr

/-- Extend a table to `size` rows. -/
def padTo (size : Nat) (names : Array (Option String)) : Array (Option String) :=
  names ++ Array.replicate (size - names.size) none

/-- Write one row; the tables grow together, as far as the literal one needs it. Negative
types have no row. -/
def insert (v : Vocabulary) (e : Entry) : Vocabulary :=
  if e.type < 0 then v
  else
    let slot := e.type.toNat
    let size := if v.literals.size ≤ slot then slot + 1 else 0
    { literals := (padTo size v.literals).setIfInBounds slot e.literal
      symbolics := (padTo size v.symbolics).setIfInBounds slot e.symbolic }

def ofEntries (entries : List Entry) : Vocabulary :=
  entries.foldl insert {}

/-- The largest type that has a row, `-1` if there is none. -/
def maxType (v : Vocabulary) : Symbol :=
  (max v.literals.size v.symbolics.size : Nat) - 1

def lookup (names : Array (Option String)) (type : Symbol) : Option String :=
  if type < 0 then none else names[type.toNat]?.join

def literal? (v : Vocabulary) (type : Symbol) : Option String :=
  lookup v.literals type

def symbolic? (v : Vocabulary) (type : Symbol) : Option String :=
  if type = Symbol.eof then some "EOF" else lookup v.symbolics type

def displayName (v : Vocabulary) (type : Symbol) : String :=
  (v.literal? type <|> v.symbolic? type).getD (toString type)

/-- The name shown inside sets of tokens, where the reserved symbols have their own. -/
def elementName (v : Vocabulary) (type : Symbol) : String :=
  (Symbol.reservedName? type).getD (v.displayName type)

/-- The first type with this name, symbolic names before literals. -/
def type? (v : Vocabulary) (name : String) : Option Symbol :=
  let find := fun (names : Array (Option String)) => (names.findIdx? (· == some name)).map Int.ofNat
  if name = "EOF" then some Symbol.eof else find v.symbolics <|> find v.literals

end Vocabulary

end AdaptiveLL
