import AdaptiveLL.Json.Magnitude
/-!
Dates and times of day in written form. A day has to exist in its year, and a minute may have
one second more for leap seconds.
-/
namespace AdaptiveLL.Toml.Moment

def isLeapYear (year : Nat) : Bool :=
  year % 4 = 0 && (year % 100 ≠ 0 || year % 400 = 0)

/-- How many days a month has. -/
def daysOf (year month : Nat) : Nat :=
  if month = 2 then if isLeapYear year then 29 else 28
  else if [4, 6, 9, 11].contains month then 30
  else 31

/-- Whether the characters are the digits of a number between two others. -/
def isWithin (low high : Nat) (ds : List Char) : Bool :=
  ds.all Char.isDigit && low ≤ Json.digitsValue ds && Json.digitsValue ds ≤ high

/-- Year, month and day. -/
def isDate : List Char → Bool
  | [a, b, c, d, '-', e, f, '-', g, h] =>
      let year := [a, b, c, d]
      let month := [e, f]
      isWithin 0 9999 year && isWithin 1 12 month &&
        isWithin 1 (daysOf (Json.digitsValue year) (Json.digitsValue month)) [g, h]
  | _ => false

/-- Hour and minute. -/
def isClock : List Char → Bool
  | [a, b, ':', c, d] => isWithin 0 23 [a, b] && isWithin 0 59 [c, d]
  | _ => false

/-- A fraction of a second, which may be left out. -/
def isFraction : List Char → Bool
  | [] => true
  | '.' :: ds => !ds.isEmpty && ds.all Char.isDigit
  | _ => false

/-- Hour, minute and second. -/
def isTime (cs : List Char) : Bool :=
  isClock (cs.take 5) &&
    match cs.drop 5 with
    | ':' :: a :: b :: rest => isWithin 0 60 [a, b] && isFraction rest
    | _ => false

/-- A time with its distance to universal time, which may be left out. -/
def isZonedTime (cs : List Char) : Bool :=
  let inner := fun c => c.isDigit || c = ':' || c = '.'
  isTime (cs.takeWhile inner) &&
    match cs.dropWhile inner with
    | [] | ['Z'] | ['z'] => true
    | c :: rest => (c = '+' || c = '-') && isClock rest

/-- A date, a time, or both. -/
def isMoment (cs : List Char) : Bool :=
  isDate cs || isTime cs ||
    match cs.drop 10 with
    | mark :: rest => ['T', 't', ' '].contains mark && isDate (cs.take 10) && isZonedTime rest
    | [] => false

end AdaptiveLL.Toml.Moment
