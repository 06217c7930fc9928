import AdaptiveLL.Json.Record
import AdaptiveLL.Prediction.Guard
/-!
The JSON form of guards: a list of a word and its operands, and `null` for the guard that
always holds.
-/
namespace AdaptiveLL.Guard

open Json (Value)

mutual

def toJson : Guard → Value
  | always => .null
  | predicate rule index contextual =>
      .list [.text "pred", .ofNat rule, .ofNat index, .bool contextual]
  | precedence level => .list [.text "prec", .int level]
  | all gs => .list (.text "all" :: listToJson gs)
  | any gs => .list (.text "any" :: listToJson gs)

def listToJson : List Guard → List Value
  | [] => []
  | g :: rest => g.toJson :: listToJson rest

end

/-- Read a guard that is nested less than `depth` deep. What is written with `and` and `or` is
simplified; `all` and `any` are taken as they are. -/
def ofJsonWithin? : Nat → Value → Option Guard
  | 0, _ => none
  | _ + 1, .null => some always
  | depth + 1, .list (.text word :: operands) =>
      match word, operands with
      | "pred", rule :: index :: contextual => do
          let contextual ← Value.orElse? false Value.asBool? contextual.head?
          some (predicate (← rule.asNat?) (← index.asNat?) contextual)
      | "prec", [level] => level.asSymbol?.map precedence
      | "all", gs => (gs.mapM (ofJsonWithin? depth)).map all
      | "any", gs => (gs.mapM (ofJsonWithin? depth)).map any
      | "and", [a, b] => do some ((← ofJsonWithin? depth a).and (← ofJsonWithin? depth b))
      | "or", [a, b] => do some ((← ofJsonWithin? depth a).or (← ofJsonWithin? depth b))
      | _, _ => none
  | _ + 1, _ => none

def ofJson? (v : Value) : Option Guard :=
  ofJsonWithin? v.depth v

end AdaptiveLL.Guard
