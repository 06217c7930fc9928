/-!
Guards: the predicates that a simulated thread has crossed, as a boolean expression.
Conjunctions and disjunctions built by `and` and `or` are flat, sorted and without
duplicates, and hold at most one precedence predicate, the one that decides the result.
-/
namespace AdaptiveLL

inductive Guard where
  | always
  | predicate (rule index : Nat) (contextual : Bool)
  | precedence (level : Int)
  | all (guards : List Guard)
  | any (guards : List Guard)
  deriving Repr, Inhabited

namespace Guard

mutual

def decEq (a b : Guard) : Decidable (a = b) :=
  match a, b with
  | always, always => isTrue rfl
  | predicate r i c, predicate r' i' c' =>
      if h : r = r' ∧ i = i' ∧ c = c' then isTrue (by simp [h])
      else isFalse (by simpa using h)
  | precedence l, precedence l' =>
      if h : l = l' then isTrue (by simp [h]) else isFalse (by simpa using h)
  | all gs, all gs' =>
      match decEqList gs gs' with
      | isTrue h => isTrue (by simp [h])
      | isFalse h => isFalse (by simpa using h)
  | any gs, any gs' =>
      match decEqList gs gs' with
      | isTrue h => isTrue (by simp [h])
      | isFalse h => isFalse (by simpa using h)
  | always, predicate .. | always, precedence .. | always, all .. | always, any ..
  | predicate .., always | predicate .., precedence .. | predicate .., all ..
  | predicate .., any ..
  | precedence .., always | precedence .., predicate .. | precedence .., all ..
  | precedence .., any ..
  | all .., always | all .., predicate .. | all .., precedence .. | all .., any ..
  | any .., always | any .., predicate .. | any .., precedence .. | any .., all .. =>
      isFalse (by simp)

def decEqList (as bs : List Guard) : Decidable (as = bs) :=
  match as, bs with
  | [], [] => isTrue rfl
  | [], _ :: _ => isFalse (by simp)
  | _ :: _, [] => isFalse (by simp)
  | a :: as, b :: bs =>
      match decEq a b with
      | isFalse h => isFalse (by simp [h])
      | isTrue h =>
          match decEqList as bs with
          | isTrue h' => isTrue (by simp [h, h'])
          | isFalse h' => isFalse (by simp [h'])

end

instance : DecidableEq Guard := decEq

/-- The place of a guard's form in the order of guards. -/
def rank : Guard → Nat
  | always => 0
  | predicate .. => 1
  | precedence _ => 2
  | all _ => 3
  | any _ => 4

mutual

/-- Guards are ordered by form, then by content. -/
def cmp : Guard → Guard → Ordering
  | predicate r i c, predicate r' i' c' =>
      (compare r r').then ((compare i i').then (compare c c'))
  | precedence l, precedence l' => compare l l'
  | all gs, all gs' => cmpList gs gs'
  | any gs, any gs' => cmpList gs gs'
  | a, b => compare a.rank b.rank

def cmpList : List Guard → List Guard → Ordering
  | [], [] => .eq
  | [], _ :: _ => .lt
  | _ :: _, [] => .gt
  | a :: as, b :: bs => (cmp a b).then (cmpList as bs)

end

def isAlways (g : Guard) : Bool :=
  g == always

def isPrecedence : Guard → Bool
  | precedence _ => true
  | _ => false

def level? : Guard → Option Int
  | precedence l => some l
  | _ => none

/-- Insert into ascending guards, unless it is there already. -/
def insert (g : Guard) : List Guard → List Guard
  | [] => [g]
  | h :: rest =>
      match cmp g h with
      | .lt => g :: h :: rest
      | .eq => h :: rest
      | .gt => h :: insert g rest

/-- The guards that a conjunction consists of. -/
def conjuncts : Guard → List Guard
  | all gs => gs
  | g => [g]

/-- The guards that a disjunction consists of. -/
def disjuncts : Guard → List Guard
  | any gs => gs
  | g => [g]

/-- The operands of a connective: ascending, without duplicates, and with the precedence
predicates reduced to one by `pick`. -/
def operands (pick : Int → Int → Int) (gs : List Guard) : List Guard :=
  let sorted := gs.foldl (fun acc g => insert g acc) []
  let rest := sorted.filter (!·.isPrecedence)
  match sorted.filterMap level? with
  | [] => rest
  | l :: ls => insert (precedence (ls.foldl pick l)) rest

/-- A connective of one operand is the operand. -/
def collapse (connective : List Guard → Guard) : List Guard → Guard
  | [g] => g
  | gs => connective gs

def and (a b : Guard) : Guard :=
  if a.isAlways then b
  else if b.isAlways then a
  else collapse all (operands min (a.conjuncts ++ b.conjuncts))

def or (a b : Guard) : Guard :=
  if a.isAlways || b.isAlways then always
  else collapse any (operands max (a.disjuncts ++ b.disjuncts))

/-- Answers to predicates: `predicate` for those of the host, given the rule context they
are asked in, and `precedence` for whether a level is at least the current precedence. -/
structure Evaluator (m : Type → Type) where
  predicate : Option Nat → Nat → Nat → m Bool
  precedence : Option Nat → Int → m Bool

section

variable {m : Type → Type} [Monad m] (ev : Evaluator m) (outer : Option Nat)

mutual

/-- Evaluate from left to right, as far as needed. Predicates that do not depend on the
context are asked without one. -/
def eval : Guard → m Bool
  | always => pure true
  | predicate rule index contextual => ev.predicate (if contextual then outer else none) rule index
  | precedence level => ev.precedence outer level
  | all gs => evalAll gs
  | any gs => evalAny gs

def evalAll : List Guard → m Bool
  | [] => pure true
  | g :: rest => do if ← eval g then evalAll rest else pure false

def evalAny : List Guard → m Bool
  | [] => pure false
  | g :: rest => do if ← eval g then pure true else evalAny rest

end

mutual

/-- Evaluate the precedence predicates alone. The answer is what remains to be evaluated,
or nothing if the guard is certainly false. -/
def evalPrecedence : Guard → m (Option Guard)
  | always => pure (some always)
  | predicate rule index contextual => pure (some (predicate rule index contextual))
  | precedence level => do if ← ev.precedence outer level then pure (some always) else pure none
  | all gs => do
      match ← remainingAll gs with
      | none => pure none
      | some remaining =>
          if remaining = gs then pure (some (all gs))
          else pure (some ((remaining.filter (!·.isAlways)).foldl and always))
  | any gs => do
      match ← remainingAny gs with
      | none => pure (some always)
      | some remaining =>
          if remaining = gs then pure (some (any gs))
          else
            match remaining with
            | [] => pure none
            | first :: rest => pure (some (rest.foldl or first))

/-- What remains of each conjunct, or nothing as soon as one is certainly false. -/
def remainingAll : List Guard → m (Option (List Guard))
  | [] => pure (some [])
  | g :: rest => do
      match ← evalPrecedence g with
      | none => pure none
      | some r => do
          match ← remainingAll rest with
          | none => pure none
          | some rs => pure (some (r :: rs))

/-- What remains of the disjuncts that are not certainly false, or nothing as soon as one is
certainly true. -/
def remainingAny : List Guard → m (Option (List Guard))
  | [] => pure (some [])
  | g :: rest => do
      match ← evalPrecedence g with
      | some always => pure none
      | some r => do
          match ← remainingAny rest with
          | none => pure none
          | some rs => pure (some (r :: rs))
      | none => remainingAny rest

end

end

mutual

def render : Guard → String
  | always => "true"
  | predicate rule index _ => "\x7b" ++ toString rule ++ ":" ++ toString index ++ "\x7d?"
  | precedence level => "\x7b" ++ toString level ++ ">=prec\x7d?"
  | all gs => String.intercalate "&&" (renderList gs)
  | any gs => String.intercalate "||" (renderList gs)

def renderList : List Guard → List String
  | [] => []
  | g :: rest => g.render :: renderList rest

end

instance : ToString Guard := ⟨render⟩

end Guard

end AdaptiveLL
