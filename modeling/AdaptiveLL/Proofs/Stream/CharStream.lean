import AdaptiveLL.Stream.CharStream
import Mathlib.Data.List.Basic
/-!
Character input as the list of the characters that are still to be read.
-/
namespace AdaptiveLL.CharStream

variable {s : CharStream}

/-- The code points from the cursor on. -/
def remaining (s : CharStream) : List Symbol :=
  (s.chars.toList.drop s.position).map fun c => (c.toNat : Int)

theorem length_remaining (s : CharStream) : s.remaining.length = s.size - s.position := by
  simp [remaining, size]

theorem lookahead_one (s : CharStream) : s.lookahead 1 = s.remaining.headD Symbol.eof := by
  have place : (s.position : Int) + (if (1 : Int) < 0 then 1 else 1 - 1) = s.position := by simp
  rw [remaining, List.headD_eq_head?_getD, List.head?_map, List.head?_drop, Array.getElem?_toList]
  simp only [lookahead, place, Int.toNat_natCast]
  refine (if_neg (by decide)).trans ((if_neg (by omega)).trans ?_)
  cases s.chars[s.position]? <;> rfl

theorem remaining_consume (inside : s.position ≤ s.size) :
    s.consume.remaining = s.remaining.tail := by
  rcases Nat.lt_or_eq_of_le inside with lt | last
  · have next : min (s.position + 1) s.size = s.position + 1 := Nat.min_eq_left lt
    simp only [remaining, consume, next, ← List.map_tail, List.tail_drop]
  · have done : s.remaining = [] := by
      rw [← List.length_eq_zero_iff, length_remaining, last, Nat.sub_self]
    rw [done, List.tail_nil, ← List.length_eq_zero_iff, length_remaining]
    simp only [consume, size] at last ⊢
    omega

/-- What is read is the code point of a character. -/
theorem char_of_mem_remaining {x : Symbol} (mem : x ∈ s.remaining) :
    0 ≤ x ∧ x ≤ Symbol.lastChar := by
  obtain ⟨c, -, rfl⟩ := List.mem_map.1 mem
  refine ⟨Int.natCast_nonneg _, ?_⟩
  have valid : c.toNat.isValidChar := c.valid
  change (c.toNat : Int) ≤ 0x10FFFF
  rcases valid with h | ⟨-, h⟩ <;> omega

/-- Only at its end is the end of the input ahead. -/
theorem lookahead_one_eq_eof (inside : s.position ≤ s.size) :
    s.lookahead 1 = Symbol.eof ↔ s.position = s.size := by
  have length := s.length_remaining
  rw [lookahead_one]
  cases ahead : s.remaining with
  | nil =>
      rw [ahead, List.length_nil] at length
      exact iff_of_true rfl (by omega)
  | cons x rest =>
      rw [ahead, List.length_cons] at length
      have char := (char_of_mem_remaining (ahead ▸ List.mem_cons_self : x ∈ _)).1
      refine iff_of_false (fun eof => ?_) (by omega)
      rw [List.headD_cons] at eof
      exact absurd (eof ▸ char) (by decide)

theorem consume_position_le (s : CharStream) : s.consume.position ≤ s.consume.size :=
  Nat.min_le_right ..

end AdaptiveLL.CharStream
