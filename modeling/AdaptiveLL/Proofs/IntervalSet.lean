import AdaptiveLL.IntervalSet
import Mathlib.Data.List.Basic
/-!
Membership in sets of symbols. As long as none of its ranges is inverted, a set gains and loses
the members that an operation names and no others.
-/
namespace AdaptiveLL

namespace Interval

variable {i j : Interval} {x : Symbol}

@[simp]
theorem contains_iff : i.contains x = true ↔ i.start ≤ x ∧ x ≤ i.stop := by
  simp [contains]

/-- Ranges that touch have no symbol between them. -/
theorem contains_union (proper : i.start ≤ i.stop) (proper' : j.start ≤ j.stop)
    (touch : i.touches j = true) :
    (i.union j).contains x = true ↔ i.contains x = true ∨ j.contains x = true := by
  simp only [touches, Bool.or_eq_true, beq_iff_eq, Bool.and_eq_true, decide_eq_true_eq] at touch
  simp only [contains_iff, union]
  grind

theorem union_proper (proper : i.start ≤ i.stop) : (i.union j).start ≤ (i.union j).stop := by
  simp only [union]
  grind

theorem contains_without {start stop : Symbol} :
    (∃ k ∈ i.without start stop, k.contains x = true) ↔
      i.contains x = true ∧ ¬ (start ≤ x ∧ x ≤ stop) := by
  simp only [without, contains_iff]
  split
  · simp only [List.mem_singleton, exists_eq_left]
    grind
  · split <;> split <;> simp <;> grind

end Interval

namespace IntervalSet

variable {s t : IntervalSet} {wide added : Interval} {rest : List Interval} {x : Symbol}

/-- None of the ranges is inverted. -/
def IsProper (s : IntervalSet) : Prop :=
  ∀ i ∈ s.intervals, i.start ≤ i.stop

instance : Decidable s.IsProper :=
  inferInstanceAs (Decidable (∀ i ∈ s.intervals, i.start ≤ i.stop))

theorem mem_iff : x ∈ s ↔ ∃ i ∈ s.intervals, i.contains x = true :=
  List.any_eq_true

theorem not_mem_empty : ¬ x ∈ (∅ : IntervalSet) := by
  rw [mem_iff]
  rintro ⟨i, mem, -⟩
  cases mem

theorem isProper_empty : IsProper ∅ :=
  fun _ mem => nomatch mem

theorem absorb_spec (proper : wide.start ≤ wide.stop) (all : ∀ i ∈ rest, i.start ≤ i.stop) :
    (∀ i ∈ absorb wide rest, i.start ≤ i.stop) ∧
      ∀ x, (∃ i ∈ absorb wide rest, i.contains x = true) ↔
        wide.contains x = true ∨ ∃ i ∈ rest, i.contains x = true := by
  induction rest generalizing wide with
  | nil => simp [absorb, proper]
  | cons next rest ih =>
      have proper' : next.start ≤ next.stop := all next List.mem_cons_self
      have others : ∀ i ∈ rest, i.start ≤ i.stop := fun i mem => all i (List.mem_cons_of_mem _ mem)
      rw [absorb]
      split
      case isTrue touch =>
          obtain ⟨proper'', members⟩ := ih (Interval.union_proper proper) others
          refine ⟨proper'', fun x => (members x).trans ?_⟩
          rw [Interval.contains_union proper proper' touch, List.exists_mem_cons_iff, or_assoc]
      case isFalse =>
          refine ⟨fun i mem => ?_, fun x => List.exists_mem_cons_iff ..⟩
          rcases List.mem_cons.1 mem with rfl | mem
          · exact proper
          · exact all i mem

theorem insertInto_spec (proper : added.start ≤ added.stop) (all : ∀ i ∈ rest, i.start ≤ i.stop) :
    (∀ i ∈ insertInto added rest, i.start ≤ i.stop) ∧
      ∀ x, (∃ i ∈ insertInto added rest, i.contains x = true) ↔
        added.contains x = true ∨ ∃ i ∈ rest, i.contains x = true := by
  induction rest with
  | nil => simp [insertInto, proper]
  | cons current rest ih =>
      have proper' : current.start ≤ current.stop := all current List.mem_cons_self
      have others : ∀ i ∈ rest, i.start ≤ i.stop := fun i mem => all i (List.mem_cons_of_mem _ mem)
      obtain ⟨ihProper, ihMembers⟩ := ih others
      rw [insertInto]
      split
      case isTrue same =>
          subst same
          refine ⟨all, fun x => ⟨.inr, ?_⟩⟩
          rintro (here | there)
          · exact ⟨added, List.mem_cons_self, here⟩
          · exact there
      case isFalse =>
      split
      case isTrue touch =>
          obtain ⟨proper'', members⟩ := absorb_spec (Interval.union_proper proper) others
          refine ⟨proper'', fun x => (members x).trans ?_⟩
          rw [Interval.contains_union proper proper' touch, List.exists_mem_cons_iff, or_assoc]
      case isFalse =>
      split
      case isTrue =>
          refine ⟨fun i mem => ?_, fun x => List.exists_mem_cons_iff ..⟩
          rcases List.mem_cons.1 mem with rfl | mem
          · exact proper
          · exact all i mem
      case isFalse =>
          refine ⟨fun i mem => ?_, fun x => ?_⟩
          · rcases List.mem_cons.1 mem with rfl | mem
            · exact proper'
            · exact ihProper i mem
          · rw [List.exists_mem_cons_iff, List.exists_mem_cons_iff, ihMembers, or_left_comm]

theorem IsProper.addRange (proper : s.IsProper) (start stop : Symbol) :
    (s.addRange start stop).IsProper := by
  unfold IntervalSet.addRange
  split
  case isTrue => exact proper
  case isFalse le => exact (insertInto_spec (Int.not_lt.1 le) proper).1

theorem mem_addRange (proper : s.IsProper) {start stop : Symbol} :
    x ∈ s.addRange start stop ↔ x ∈ s ∨ start ≤ x ∧ x ≤ stop := by
  unfold addRange
  split
  case isTrue lt => exact ⟨.inl, fun h => h.elim id fun inside => absurd (Int.le_trans inside.1 inside.2) (Int.not_le.2 lt)⟩
  case isFalse le =>
      rw [mem_iff, (insertInto_spec (Int.not_lt.1 le) proper).2, Interval.contains_iff, mem_iff,
        or_comm]

theorem IsProper.add (proper : s.IsProper) (y : Symbol) : (s.add y).IsProper :=
  proper.addRange y y

theorem mem_add (proper : s.IsProper) {y : Symbol} : x ∈ s.add y ↔ x ∈ s ∨ x = y := by
  rw [add, mem_addRange proper]
  exact or_congr_right (and_comm.trans Int.le_antisymm_iff.symm)

theorem IsProper.addSet (proper : s.IsProper) (t : IntervalSet) : (s.addSet t).IsProper := by
  unfold IntervalSet.addSet
  generalize t.intervals = ranges
  induction ranges generalizing s with
  | nil => exact proper
  | cons i ranges ih => exact ih (proper.addRange i.start i.stop)

theorem mem_addSet (proper : s.IsProper) : x ∈ s.addSet t ↔ x ∈ s ∨ x ∈ t := by
  rw [addSet, mem_iff (s := t)]
  generalize t.intervals = ranges
  induction ranges generalizing s with
  | nil => simp
  | cons i ranges ih =>
      rw [List.foldl_cons, ih (proper.addRange i.start i.stop), mem_addRange proper,
        List.exists_mem_cons_iff, Interval.contains_iff, or_assoc]

theorem mem_ofRange {low high : Symbol} : x ∈ ofRange low high ↔ low ≤ x ∧ x ≤ high :=
  (mem_addRange isProper_empty).trans (or_iff_right not_mem_empty)

theorem mem_singleton {y : Symbol} : x ∈ singleton y ↔ x = y :=
  mem_ofRange.trans (and_comm.trans Int.le_antisymm_iff.symm)

theorem mem_removeRange {start stop : Symbol} :
    x ∈ s.removeRange start stop ↔ x ∈ s ∧ ¬ (start ≤ x ∧ x ≤ stop) := by
  simp only [mem_iff, removeRange, List.mem_flatMap]
  constructor
  · rintro ⟨k, ⟨i, mem, piece⟩, inside⟩
    obtain ⟨here, outside⟩ := Interval.contains_without.1 ⟨k, piece, inside⟩
    exact ⟨⟨i, mem, here⟩, outside⟩
  · rintro ⟨⟨i, mem, here⟩, outside⟩
    obtain ⟨k, piece, inside⟩ := Interval.contains_without.2 ⟨here, outside⟩
    exact ⟨k, ⟨i, mem, piece⟩, inside⟩

theorem mem_diff : x ∈ s.diff t ↔ x ∈ s ∧ ¬ x ∈ t := by
  rw [diff, mem_iff (s := t)]
  generalize t.intervals = ranges
  induction ranges generalizing s with
  | nil => simp
  | cons i ranges ih =>
      rw [List.foldl_cons, ih, mem_removeRange, List.exists_mem_cons_iff, Interval.contains_iff,
        not_or, and_assoc]

theorem mem_complement {low high : Symbol} :
    x ∈ s.complement low high ↔ (low ≤ x ∧ x ≤ high) ∧ ¬ x ∈ s :=
  mem_diff.trans (and_congr_left' mem_ofRange)

end IntervalSet

end AdaptiveLL
