import AdaptiveLL.Symbol
/-!
Sets of symbols, stored as inclusive ranges. Insertion keeps the ranges ascending and
separated by gaps, so that two sets built by insertion are equal as soon as they have the
same members.
-/
namespace AdaptiveLL

/-- The symbols from `start` to `stop`, both included. -/
structure Interval where
  start : Symbol
  stop : Symbol
  deriving DecidableEq, Repr, Inhabited

namespace Interval

/-- The number of members; an inverted range has none. -/
def size (i : Interval) : Nat :=
  (i.stop - i.start + 1).toNat

def contains (i : Interval) (x : Symbol) : Bool :=
  decide (i.start ≤ x) && decide (x ≤ i.stop)

/-- The members in ascending order. -/
def toList (i : Interval) : List Symbol :=
  (List.range i.size).map fun (k : Nat) => i.start + (k : Int)

/-- The ranges overlap or leave no gap between them, so that their union is a range. -/
def touches (i j : Interval) : Bool :=
  i.start == j.stop + 1 || i.stop + 1 == j.start ||
    (decide (i.start ≤ j.stop) && decide (j.start ≤ i.stop))

def union (i j : Interval) : Interval :=
  ⟨min i.start j.start, max i.stop j.stop⟩

/-- Where the range stands: below the symbol, above it, or around it. -/
def locate (i : Interval) (x : Symbol) : Ordering :=
  if i.stop < x then .lt else if x < i.start then .gt else .eq

/-- What is left of `i` below `start` and above `stop`. -/
def without (i : Interval) (start stop : Symbol) : List Interval :=
  if i.stop < start ∨ stop < i.start then [i]
  else
    (if i.start < start then [⟨i.start, start - 1⟩] else []) ++
      (if stop < i.stop then [⟨stop + 1, i.stop⟩] else [])

end Interval

/-- A set of symbols. -/
structure IntervalSet where
  intervals : List Interval := []
  deriving DecidableEq, Repr, Inhabited

namespace IntervalSet

def empty : IntervalSet := ⟨[]⟩

instance : EmptyCollection IntervalSet := ⟨empty⟩

/-- Put `wide` in front of the ranges, which swallows those that it touches. -/
def absorb (wide : Interval) : List Interval → List Interval
  | [] => [wide]
  | next :: rest =>
      if wide.touches next then absorb (wide.union next) rest else wide :: next :: rest

/-- Insert a non-empty range into ascending ranges. -/
def insertInto (added : Interval) : List Interval → List Interval
  | [] => [added]
  | current :: rest =>
      if added = current then current :: rest
      else if added.touches current then absorb (added.union current) rest
      else if added.stop < current.start then added :: current :: rest
      else current :: insertInto added rest

/-- Add the symbols from `start` to `stop`. An inverted range adds nothing. -/
def addRange (s : IntervalSet) (start stop : Symbol) : IntervalSet :=
  if stop < start then s else ⟨insertInto ⟨start, stop⟩ s.intervals⟩

def add (s : IntervalSet) (x : Symbol) : IntervalSet :=
  s.addRange x x

/-- Add every member of `other`. -/
def addSet (s other : IntervalSet) : IntervalSet :=
  other.intervals.foldl (fun acc i => acc.addRange i.start i.stop) s

def ofRange (start stop : Symbol) : IntervalSet :=
  empty.addRange start stop

def singleton (x : Symbol) : IntervalSet :=
  ofRange x x

def ofList (xs : List Symbol) : IntervalSet :=
  xs.foldl add empty

/-- The set built by adding ranges one after the other. -/
def ofRanges (ranges : List (Symbol × Symbol)) : IntervalSet :=
  ranges.foldl (fun acc r => acc.addRange r.1 r.2) empty

/-- The overlaps of two ascending lists of ranges, in ascending order. -/
def overlaps : List Interval → List Interval → List Interval
  | [], _ => []
  | _, [] => []
  | a :: as, b :: bs =>
      let start := max a.start b.start
      let stop := min a.stop b.stop
      let rest := if a.stop < b.stop then overlaps as (b :: bs) else overlaps (a :: as) bs
      if start ≤ stop then ⟨start, stop⟩ :: rest else rest
  termination_by as bs => as.length + bs.length

def union (s t : IntervalSet) : IntervalSet :=
  s.addSet t

def inter (s t : IntervalSet) : IntervalSet :=
  empty.addSet ⟨overlaps s.intervals t.intervals⟩

/-- Remove the symbols from `start` to `stop` from every range that meets them. -/
def removeRange (s : IntervalSet) (start stop : Symbol) : IntervalSet :=
  ⟨s.intervals.flatMap (·.without start stop)⟩

def remove (s : IntervalSet) (x : Symbol) : IntervalSet :=
  s.removeRange x x

/-- The members of `s` that are not in `t`. -/
def diff (s t : IntervalSet) : IntervalSet :=
  t.intervals.foldl (fun acc i => acc.removeRange i.start i.stop) s

/-- The symbols from `low` to `high` that are not in `s`. -/
def complement (s : IntervalSet) (low high : Symbol) : IntervalSet :=
  (ofRange low high).diff s

/-- The members are those of the ranges. -/
instance : Membership Symbol IntervalSet := ⟨fun s x => s.intervals.any (·.contains x) = true⟩

instance (x : Symbol) (s : IntervalSet) : Decidable (x ∈ s) :=
  inferInstanceAs (Decidable (s.intervals.any (·.contains x) = true))

/-- Look for the range around a symbol. The range in the middle decides in which half to go on;
there are at most `fuel` ranges. -/
def bisectWithin (x : Symbol) : Nat → List Interval → Bool
  | 0, _ => false
  | fuel + 1, ranges =>
      match ranges.drop (ranges.length / 2) with
      | [] => false
      | middle :: above =>
          match middle.locate x with
          | .eq => true
          | .lt => bisectWithin x fuel above
          | .gt => bisectWithin x fuel (ranges.take (ranges.length / 2))

def bisect (x : Symbol) (ranges : List Interval) : Bool :=
  bisectWithin x ranges.length ranges

/-- Whether a search that halves the ranges finds the symbol. It finds the members of a set whose
ranges ascend; one that is read from a description need not. -/
def contains (s : IntervalSet) (x : Symbol) : Bool :=
  bisect x s.intervals

def isEmpty (s : IntervalSet) : Bool :=
  s.intervals.isEmpty

/-- The number of members. -/
def size (s : IntervalSet) : Nat :=
  s.intervals.foldr (fun i n => i.size + n) 0

def min? (s : IntervalSet) : Option Symbol :=
  s.intervals.head?.map Interval.start

def max? (s : IntervalSet) : Option Symbol :=
  s.intervals.getLast?.map Interval.stop

/-- The members range by range. -/
def toList (s : IntervalSet) : List Symbol :=
  s.intervals.flatMap Interval.toList

/-- Rendered members, in braces unless there is exactly one. -/
def enclose (s : IntervalSet) (parts : List String) : String :=
  let inner := String.intercalate ", " parts
  if s.isEmpty then "\x7b\x7d"
  else if 1 < s.size then "\x7b" ++ inner ++ "\x7d"
  else inner

/-- The members by name, as messages show them. -/
def renderWith (name : Symbol → String) (s : IntervalSet) : String :=
  s.enclose (s.toList.map name)

/-- How one range is shown: reserved symbols by name, one at a time, and any other range
by its two ends. -/
def renderInterval (i : Interval) : List String :=
  let element := fun x => (Symbol.reservedName? x).getD (toString x)
  if i.start = i.stop then [element i.start]
  else if i.start ≤ Symbol.eof then i.toList.map element
  else [toString i.start ++ ".." ++ toString i.stop]

def render (s : IntervalSet) : String :=
  s.enclose (s.intervals.flatMap renderInterval)

instance : ToString IntervalSet := ⟨render⟩

end IntervalSet

end AdaptiveLL
