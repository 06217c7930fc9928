import AdaptiveLL.Json.Value
/-!
Reading domain values from JSON values. A record is an object, whose unknown members are
passed over and whose known members occur at most once, or a list of its fields in order.
Where there are several records to choose from, a tag says which one it is.
-/
namespace AdaptiveLL.Json.Value

def asNat? : Value → Option Nat
  | int i => if 0 ≤ i then some i.toNat else none
  | _ => none

/-- An integer of 32 bits. -/
def asSymbol? : Value → Option Int
  | int i => if -2147483648 ≤ i ∧ i ≤ 2147483647 then some i else none
  | _ => none

def asBool? : Value → Option Bool
  | bool b => some b
  | _ => none

def asText? : Value → Option String
  | text s => some s
  | _ => none

def asList? {α : Type} (read : Value → Option α) : Value → Option (List α)
  | list items => items.mapM read
  | _ => none

/-- A value or `null`. -/
def orNull? {α : Type} (read : Value → Option α) : Value → Option (Option α)
  | null => some none
  | v => (read v).map some

/-- A name from a list of names; it may also be the only member of an object, with the
value `null`. -/
def asName? {α : Type} (names : List (String × α)) : Value → Option α
  | text s => names.lookup s
  | object [(s, null)] => names.lookup s
  | _ => none

def member? (v : Value) (key : String) : Option Value :=
  match v with
  | object members => members.lookup key
  | _ => none

/-- The values of named members, each of which occurs at most once. -/
def members? (names : List String) (members : List (String × Value)) :
    Option (List (Option Value)) :=
  if names.all fun name => (members.filter (·.1 == name)).length ≤ 1 then
    some (names.map (members.lookup ·))
  else none

/-- The fields of a record, written as an object or as a list. -/
def fields? (names : List String) : Value → Option (List (Option Value))
  | object members => members? names members
  | list items =>
      if items.length ≤ names.length then
        some (names.mapIdx fun i _ => items[i]?)
      else none
  | _ => none

/-- A field that may be left out. -/
def orElse? {α : Type} (default : α) (read : Value → Option α) : Option Value → Option α
  | none => some default
  | some v => read v

/-- A field that has to be there. -/
def required? {α : Type} (read : Value → Option α) : Option Value → Option α
  | none => none
  | some v => read v

/-- The tag that says which of several records a value holds, with the other members. It is
the member `type` of an object or the first item of a list. As the tag may come last, all
members have to be readable. -/
def tagged? (v : Value) : Option (String × Value) :=
  if v.isReadable then
    match v with
    | object members =>
        match members.partition (·.1 == "type") with
        | ([(_, text tag)], others) => some (tag, object others)
        | _ => none
    | list (text tag :: items) => some (tag, list items)
    | _ => none
  else none

def ofNat (n : Nat) : Value :=
  int n

def ofOption {α : Type} (write : α → Value) : Option α → Value
  | none => null
  | some a => write a

def ofList {α : Type} (write : α → Value) (xs : List α) : Value :=
  list (xs.map write)

end AdaptiveLL.Json.Value
