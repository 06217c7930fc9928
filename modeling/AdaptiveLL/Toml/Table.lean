import AdaptiveLL.Toml.Value
/-!
Building the tables of a document from its statements. A table is made by its own header, by
the header of a table below it, or by a dotted key; which of them made it decides what may be
added to it later, so that every table has one place in the text.
-/
namespace AdaptiveLL.Toml

/-- What made a table. -/
inductive Origin where
  /-- Its own header. -/
  | header
  /-- The header of a table below it. -/
  | implied
  /-- A dotted key. -/
  | dotted
  deriving DecidableEq, Repr

/-- What a key of an unfinished table stands for. -/
inductive Node where
  | leaf (value : Value)
  | table (origin : Origin) (entries : List (String × Node))
  /-- A list of tables, each with its own header; `last` is the one that can still grow. -/
  | tables (earlier : List (List (String × Node))) (last : List (String × Node))
  deriving Inhabited

abbrev Entries := List (String × Node)

/-- One line of a document, or one with the lines that its value takes. -/
inductive Statement where
  /-- A value for the key `key` below the keys `path`. -/
  | entry (path : List String) (key : String) (value : Value)
  /-- The header of a table. -/
  | table (path : List String) (key : String)
  /-- The header of a further table of a list. -/
  | item (path : List String) (key : String)
  deriving Repr

namespace Entries

/-- Let a key stand for something else; a new key comes last. -/
def put (es : Entries) (key : String) (node : Node) : Entries :=
  if es.any (·.1 == key) then es.map fun e => if e.1 == key then (key, node) else e
  else es ++ [(key, node)]

/-- Change the table below keys that headers name. -/
def belowHeader (f : Entries → Option Entries) : List String → Entries → Option Entries
  | [], es => f es
  | key :: path, es =>
      match es.lookup key with
      | none => (belowHeader f path []).map fun inner => es.put key (.table .implied inner)
      | some (.leaf _) => none
      | some (.table origin inner) =>
          (belowHeader f path inner).map fun inner => es.put key (.table origin inner)
      | some (.tables earlier last) =>
          (belowHeader f path last).map fun last => es.put key (.tables earlier last)

/-- Change the table below the keys in front of a dotted key. The table has to be one that a
dotted key made, and none on the way may have a header. -/
def belowKey (f : Entries → Option Entries) (origin : Origin) :
    List String → Entries → Option Entries
  | [], es => if origin = .dotted then f es else none
  | key :: path, es =>
      match es.lookup key with
      | none => (belowKey f .dotted path []).map fun inner => es.put key (.table .dotted inner)
      | some (.leaf _) | some (.table .header _) => none
      | some (.table origin inner) =>
          (belowKey f origin path inner).map fun inner => es.put key (.table origin inner)
      | some (.tables earlier last) =>
          (belowKey f .header path last).map fun last => es.put key (.tables earlier last)

/-- Add a value; its key has to be new. -/
def addLeaf (key : String) (v : Value) (es : Entries) : Option Entries :=
  if (es.lookup key).isSome then none else some (es.put key (.leaf v))

def addEntry (path : List String) (key : String) (v : Value) (es : Entries) : Option Entries :=
  match path with
  | [] => es.addLeaf key v
  | path => es.belowKey (addLeaf key v) .header path

/-- Begin the table of a header. -/
def openTable (key : String) (es : Entries) : Option Entries :=
  match es.lookup key with
  | none => some (es.put key (.table .header []))
  | some (.table .implied inner) => some (es.put key (.table .header inner))
  | some _ => none

/-- Begin a further table of a list. -/
def openItem (key : String) (es : Entries) : Option Entries :=
  match es.lookup key with
  | none => some (es.put key (.tables [] []))
  | some (.tables earlier last) => some (es.put key (.tables (earlier ++ [last]) []))
  | some _ => none

end Entries

namespace Node

mutual

def toValue : Node → Value
  | leaf v => v
  | table _ entries => .table (entryValues entries)
  | tables earlier last => .list (tableValues earlier ++ [.table (entryValues last)])

def entryValues : Entries → List (String × Value)
  | [] => []
  | (key, node) :: rest => (key, node.toValue) :: entryValues rest

def tableValues : List Entries → List Value
  | [] => []
  | entries :: rest => .table (entryValues entries) :: tableValues rest

end

end Node

/-- The state between statements: all entries so far, and the table that plain entries go
to. -/
abbrev Draft := Entries × List String

namespace Draft

def add (d : Draft) : Statement → Option Draft
  | .entry path key v => do
      let root ← d.1.belowHeader (Entries.addEntry path key v) d.2
      return (root, d.2)
  | .table path key => do
      let root ← d.1.belowHeader (Entries.openTable key) path
      return (root, path ++ [key])
  | .item path key => do
      let root ← d.1.belowHeader (Entries.openItem key) path
      return (root, path ++ [key])

end Draft

/-- The entries that statements give, if they do not contradict each other. -/
def assemble? (statements : List Statement) : Option (List (String × Value)) :=
  (statements.foldlM Draft.add (([], []) : Draft)).map fun d => Node.entryValues d.1

end AdaptiveLL.Toml
