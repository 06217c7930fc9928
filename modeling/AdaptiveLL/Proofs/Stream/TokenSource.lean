import AdaptiveLL.Stream.TokenSource
import Mathlib.Data.List.Basic
import Mathlib.Logic.Function.Iterate
/-!
What token sources promise. A source is prompt if its horizon really reaches the next token of
a channel or the end of the input; lists of tokens are.
-/
namespace AdaptiveLL

namespace TokenSource

variable {σ : Type} [TokenSource σ]

/-- The source behind its next `m` tokens. -/
def after (m : Nat) (s : σ) : σ :=
  (fun s => (next s).2)^[m] s

/-- The token that follows `m` others. -/
def nth (s : σ) (m : Nat) : Token :=
  (next (after m s)).1

theorem nth_next (s : σ) (m : Nat) : nth (next s).2 m = nth s (m + 1) := rfl

/-- Wherever the source stands, its horizon reaches a token of the channel or the end of the
input. -/
def Prompt (channel : Nat) (s : σ) : Prop :=
  ∀ m, ∃ k ≤ horizon (after m s), (nth s (m + k)).channel = channel ∨ (nth s (m + k)).isEof

theorem Prompt.next {channel : Nat} {s : σ} (h : Prompt channel s) :
    Prompt channel (next s).2 := by
  intro m
  obtain ⟨k, le, shows⟩ := h (m + 1)
  exact ⟨k, le, by rw [nth_next, Nat.add_right_comm]; exact shows⟩

/-- Sources that keep their names while they produce tokens. -/
class Steady (σ : Type) [TokenSource σ] : Prop where
  name_next (s : σ) : name (next s).2 = name s

end TokenSource

namespace TokenList

instance : TokenSource.Steady TokenList where
  name_next s := by
    change (next s).2.name = s.name
    rw [next]
    split <;> rfl

theorem after_of_le {s : TokenList} {m : Nat} (inside : s.place + m ≤ s.tokens.size) :
    (TokenSource.after m s).tokens = s.tokens ∧ (TokenSource.after m s).place = s.place + m := by
  induction m generalizing s with
  | zero => exact ⟨rfl, rfl⟩
  | succ m ih =>
      have step : TokenSource.after (m + 1) s = TokenSource.after m (next s).2 := rfl
      have moved : (next s).2.tokens = s.tokens ∧ (next s).2.place = s.place + 1 := by
        rw [next, Array.getElem?_eq_getElem (by omega)]
        exact ⟨rfl, rfl⟩
      rw [step]
      obtain ⟨tokens, place⟩ := ih (s := (next s).2) (by rw [moved.1, moved.2]; omega)
      exact ⟨tokens.trans moved.1, place.trans (by rw [moved.2]; omega)⟩

/-- What is kept as the end of the input is one. -/
def Ends (s : TokenList) : Prop :=
  ∀ t ∈ s.ended, t.isEof = true

theorem Ends.next {s : TokenList} (h : s.Ends) : (next s).2.Ends := by
  unfold TokenList.next
  split
  case h_1 given _ =>
      intro t mem
      by_cases eof : given.isEof = true
      · rw [if_pos eof] at mem
        exact Option.some.inj mem ▸ eof
      · rw [if_neg eof] at mem
        exact h t mem
  case h_2 =>
      intro t mem
      obtain rfl := Option.some.inj mem
      cases ended : s.ended with
      | none => rfl
      | some t => exact h t ended

theorem Ends.after {s : TokenList} (h : s.Ends) (m : Nat) : (TokenSource.after m s).Ends := by
  induction m generalizing s with
  | zero => exact h
  | succ m ih => exact ih h.next

/-- Behind the last token there is the end of the input. -/
theorem Ends.nth {s : TokenList} (h : s.Ends) {m : Nat}
    (out : (TokenSource.after m s).tokens.size ≤ (TokenSource.after m s).place) :
    (TokenSource.nth s m).isEof = true := by
  have here := h.after m
  change (TokenList.next (TokenSource.after m s)).1.isEof = true
  rw [TokenList.next, Array.getElem?_eq_none out]
  cases ended : (TokenSource.after m s).ended with
  | none => rfl
  | some t => exact here t ended

/-- A list of tokens runs out within its horizon. -/
theorem Ends.prompt {s : TokenList} (h : s.Ends) (channel : Nat) :
    TokenSource.Prompt channel s := by
  intro m
  let here := TokenSource.after m s
  refine ⟨here.tokens.size - here.place, Nat.le_refl _, .inr ?_⟩
  have shift : TokenSource.nth s (m + (here.tokens.size - here.place))
      = TokenSource.nth here (here.tokens.size - here.place) := by
    unfold TokenSource.nth TokenSource.after
    rw [Nat.add_comm, Function.iterate_add_apply]
    rfl
  rw [shift]
  refine Ends.nth (h.after m) ?_
  rcases Nat.le_total here.tokens.size here.place with done | inside
  · rw [Nat.sub_eq_zero_of_le done]
    exact done
  · obtain ⟨tokens, place⟩ := after_of_le (s := here)
      (m := here.tokens.size - here.place) (by omega)
    rw [tokens, place]
    omega

end TokenList

end AdaptiveLL
