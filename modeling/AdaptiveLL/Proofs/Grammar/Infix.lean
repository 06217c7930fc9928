import AdaptiveLL.Proofs.Tree.Derived
/-!
Infix expressions of the sample grammar of sums and products. One sequence of tokens is the
rendering of many expressions, but of only one in which `*` binds tighter than `+` and both
associate to the left; any expression can be arranged so.
-/
namespace AdaptiveLL

/-- The tokens of some types. -/
abbrev TokenOf (types : List Symbol) :=
  { t : Token // t.type ∈ types }

/-- Expressions of numbers and names with the operators `+` and `*` and with parentheses, down to
their tokens. -/
inductive Infix where
  | atom (token : TokenOf [1, 2])
  | group (opening : TokenOf [5]) (inner : Infix) (closing : TokenOf [6])
  | apply (left : Infix) (sign : TokenOf [3, 4]) (right : Infix)

namespace Infix

/-- The rendering. -/
def tokens : Infix → List Token
  | atom token => [token.1]
  | group opening inner closing => opening.1 :: (inner.tokens ++ [closing.1])
  | apply left sign right => left.tokens ++ sign.1 :: right.tokens

/-- What is derived from the rule of expressions. Applications and groups have three parts, an
atom has one. -/
def parts : Infix → List Derivation
  | atom token => [.terminal token.1]
  | group opening inner closing =>
      [.terminal opening.1, .rule 1 inner.parts, .terminal closing.1]
  | apply left sign right => [.rule 1 left.parts, .terminal sign.1, .rule 1 right.parts]

/-- How tightly the operators bind. -/
def power (sign : TokenOf [3, 4]) : Int :=
  if sign.1.type = 4 then 3 else 2

/-- The operator that is applied last binds at least so tightly, if there is one. -/
def Binds (level : Int) : Infix → Prop
  | atom _ | group .. => True
  | apply _ sign _ => level ≤ power sign

/-- What is on the left of an operator binds as tightly as the operator or more, and what is on its
right more: `*` binds tighter than `+`, and both associate to the left. -/
def Ordered : Infix → Prop
  | atom _ => True
  | group _ inner _ => inner.Ordered
  | apply left sign right =>
      left.Ordered ∧ right.Ordered ∧ left.Binds (power sign) ∧ right.Binds (power sign + 1)

variable {e f left right : Infix} {sign : TokenOf [3, 4]} {level level' : Int}

theorem Binds.weaken (h : e.Binds level) (le : level' ≤ level) : e.Binds level' := by
  cases e with
  | atom | group => trivial
  | apply => exact Int.le_trans le h

theorem binds_zero (e : Infix) : e.Binds 0 := by
  cases e with
  | atom | group => trivial
  | apply _ sign _ =>
      change 0 ≤ power sign
      unfold power
      split <;> decide

theorem length_tokens_pos (e : Infix) : 0 < e.tokens.length := by
  cases e with
  | atom | group => exact Nat.succ_pos _
  | apply =>
      rw [tokens, List.length_append]
      exact Nat.add_pos_right _ (Nat.succ_pos _)

/-! ### Arranging -/

/-- An ordered expression with one more operator behind it, which takes the operand on its right
before all others. -/
def attach (sign : TokenOf [3, 4]) (right : Infix) : Infix → Infix
  | apply l s r =>
      if power sign ≤ power s then apply (apply l s r) sign right
      else apply l s (attach sign right r)
  | e => apply e sign right

theorem tokens_attach (e : Infix) :
    (attach sign right e).tokens = e.tokens ++ sign.1 :: right.tokens := by
  induction e with
  | atom | group => rfl
  | apply l s r _ ih =>
      rw [attach]
      split
      · rfl
      · rw [tokens, ih, tokens, List.append_assoc, List.cons_append]

theorem attach_binds (h : e.Binds level) (le : level ≤ power sign) :
    (attach sign right e).Binds level := by
  cases e with
  | atom | group => exact le
  | apply l s r =>
      rw [attach]
      split
      · exact le
      · exact h

theorem attach_ordered (ordered : e.Ordered) (behind : right.Ordered)
    (binds : right.Binds (power sign + 1)) : (attach sign right e).Ordered := by
  induction e with
  | atom => exact ⟨trivial, behind, trivial, binds⟩
  | group => exact ⟨ordered, behind, trivial, binds⟩
  | apply l s r _ ih =>
      rw [attach]
      split
      case isTrue le => exact ⟨ordered, behind, le, binds⟩
      case isFalse tighter =>
          obtain ⟨ordered_l, ordered_r, binds_l, binds_r⟩ := ordered
          exact ⟨ordered_l, ih ordered_r, binds_l, attach_binds binds_r (by omega)⟩

/-- Two ordered expressions with an operator between them. The operators on the right are attached
from left to right. -/
def join (left : Infix) (sign : TokenOf [3, 4]) : Infix → Infix
  | apply l s r => attach s r (join left sign l)
  | e => attach sign e left

theorem tokens_join (e : Infix) :
    (join left sign e).tokens = left.tokens ++ sign.1 :: e.tokens := by
  induction e with
  | atom | group => exact tokens_attach left
  | apply l s r ih => rw [join, tokens_attach, ih, tokens, List.append_assoc, List.cons_append]

theorem join_ordered (ordered : left.Ordered) (behind : e.Ordered) :
    (join left sign e).Ordered := by
  induction e with
  | atom | group => exact attach_ordered ordered behind trivial
  | apply l s r ih =>
      obtain ⟨ordered_l, ordered_r, -, binds_r⟩ := behind
      exact attach_ordered (ih ordered_l) ordered_r binds_r

/-- The expression with the same tokens in which operators are taken in their order. -/
def arranged : Infix → Infix
  | atom token => atom token
  | group opening inner closing => group opening inner.arranged closing
  | apply left sign right => join left.arranged sign right.arranged

theorem tokens_arranged (e : Infix) : e.arranged.tokens = e.tokens := by
  induction e with
  | atom => rfl
  | group _ _ _ ih => rw [arranged, tokens, ih, tokens]
  | apply _ _ _ ih ih' => rw [arranged, tokens_join, ih, ih', tokens]

theorem arranged_ordered (e : Infix) : e.arranged.Ordered := by
  induction e with
  | atom => trivial
  | group _ _ _ ih => exact ih
  | apply _ _ _ ih ih' => exact join_ordered ih ih'

/-! ### Parts -/

/-- An expression can be told from what is derived. -/
theorem parts_injective (same : e.parts = f.parts) : e = f := by
  induction e generalizing f with
  | atom token =>
      cases f with
      | atom token' =>
          simp only [parts, List.cons.injEq, Derivation.terminal.injEq, and_true] at same
          rw [Subtype.ext same]
      | group | apply => simp [parts] at same
  | group opening inner closing ih =>
      cases f with
      | atom | apply => simp [parts] at same
      | group opening' inner' closing' =>
          simp only [parts, List.cons.injEq, Derivation.terminal.injEq, Derivation.rule.injEq,
            true_and, and_true] at same
          rw [Subtype.ext same.1, ih same.2.1, Subtype.ext same.2.2]
  | apply left sign right ih ih' =>
      cases f with
      | atom | group => simp [parts] at same
      | apply left' sign' right' =>
          simp only [parts, List.cons.injEq, Derivation.terminal.injEq, Derivation.rule.injEq,
            true_and, and_true] at same
          rw [ih same.1, Subtype.ext same.2.1, ih' same.2.2]

end Infix

end AdaptiveLL
