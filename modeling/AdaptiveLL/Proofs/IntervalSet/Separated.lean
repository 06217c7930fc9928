import AdaptiveLL.Proofs.IntervalSet
/-!
Sets of symbols in canonical form. Insertion and removal keep the ranges ascending, with a gap
between each and the next, and sets in that form are equal as soon as they have the same members
(`IntervalSet.IsSeparated.ext`). The search that halves the ranges looks at few of them. What it
finds is in the set (`IntervalSet.mem_of_contains`), and in canonical form it finds every member
(`IntervalSet.IsSeparated.contains_iff`).
-/
namespace AdaptiveLL

namespace Interval

variable {i j k : Interval}

/-- There is a symbol between the two ranges, so that no range covers both and no more. -/
def IsBefore (i j : Interval) : Prop :=
  i.stop + 1 < j.start

instance : DecidableRel IsBefore :=
  fun i j => inferInstanceAs (Decidable (i.stop + 1 < j.start))

theorem IsBefore.trans (h : i.IsBefore j) (proper : j.start ≤ j.stop) (h' : j.IsBefore k) :
    i.IsBefore k := by
  grind [IsBefore]

/-- Of two ranges that do not touch, that which begins no later than the other ends is in front. -/
theorem isBefore_of_not_touches (apart : ¬ i.touches j = true) (le : i.start ≤ j.stop) :
    i.IsBefore j := by
  simp only [touches, Bool.or_eq_true, beq_iff_eq, Bool.and_eq_true, decide_eq_true_eq] at apart
  grind [IsBefore]

theorem touches_comm : i.touches j = j.touches i := by
  grind [touches]

/-- What is left of a range lies inside it, in ascending pieces. -/
theorem without_spec {start stop : Symbol} (proper : i.start ≤ i.stop) (le : start ≤ stop) :
    (∀ k ∈ i.without start stop, k.start ≤ k.stop ∧ i.start ≤ k.start ∧ k.stop ≤ i.stop) ∧
      (i.without start stop).Pairwise IsBefore := by
  unfold without
  split
  · simp [proper]
  · split <;> split <;> simp [IsBefore] <;> grind

end Interval

namespace IntervalSet

variable {s t : IntervalSet} {wide added : Interval} {rest : List Interval}

/-- No range is inverted, and each leaves a gap to those behind it. -/
structure IsSeparated (s : IntervalSet) : Prop where
  proper : s.IsProper
  gaps : s.intervals.Pairwise Interval.IsBefore

instance : Decidable s.IsSeparated :=
  decidable_of_iff (s.IsProper ∧ s.intervals.Pairwise Interval.IsBefore)
    ⟨fun both => ⟨both.1, both.2⟩, fun h => ⟨h.proper, h.gaps⟩⟩

theorem isSeparated_empty : IsSeparated ∅ :=
  ⟨isProper_empty, .nil⟩

/-- A range that begins before the others keeps the gaps when it swallows those it touches. -/
theorem absorb_gaps (proper : wide.start ≤ wide.stop) (all : ∀ i ∈ rest, i.start ≤ i.stop)
    (first : ∀ i ∈ rest, wide.start ≤ i.start) (gaps : rest.Pairwise Interval.IsBefore) :
    (absorb wide rest).Pairwise Interval.IsBefore := by
  induction rest generalizing wide with
  | nil => exact List.pairwise_singleton _ _
  | cons next rest ih =>
      obtain ⟨ahead, gaps'⟩ := List.pairwise_cons.1 gaps
      have proper' : next.start ≤ next.stop := all next (.head _)
      have others : ∀ i ∈ rest, i.start ≤ i.stop := fun i mem => all i (.tail _ mem)
      rw [absorb]
      split
      case isTrue =>
          refine ih (Interval.union_proper proper) others (fun i mem => ?_) gaps'
          exact Int.le_trans (Int.min_le_left _ _) (first i (.tail _ mem))
      case isFalse apart =>
          have gap : wide.IsBefore next :=
            Interval.isBefore_of_not_touches apart (Int.le_trans (first next (.head _)) proper')
          refine List.pairwise_cons.2 ⟨List.forall_mem_cons.2 ⟨gap, fun i mem => ?_⟩, gaps⟩
          exact gap.trans proper' (ahead i mem)

/-- What is inserted begins where it or one of the old ranges has a symbol. -/
theorem isBefore_of_mem_insertInto {before : Interval} (proper : added.start ≤ added.stop)
    (all : ∀ i ∈ rest, i.start ≤ i.stop) (new : before.IsBefore added)
    (old : ∀ i ∈ rest, before.IsBefore i) : ∀ i ∈ insertInto added rest, before.IsBefore i := by
  intro i mem
  obtain ⟨proper', members⟩ := insertInto_spec proper all
  have own : i.contains i.start = true := Interval.contains_iff.2 ⟨Int.le_refl _, proper' i mem⟩
  rcases (members i.start).1 ⟨i, mem, own⟩ with here | ⟨j, memOld, here⟩
  · exact Int.lt_of_lt_of_le new (Interval.contains_iff.1 here).1
  · exact Int.lt_of_lt_of_le (old j memOld) (Interval.contains_iff.1 here).1

theorem insertInto_gaps (proper : added.start ≤ added.stop) (all : ∀ i ∈ rest, i.start ≤ i.stop)
    (gaps : rest.Pairwise Interval.IsBefore) :
    (insertInto added rest).Pairwise Interval.IsBefore := by
  induction rest with
  | nil => exact List.pairwise_singleton _ _
  | cons current rest ih =>
      obtain ⟨ahead, gaps'⟩ := List.pairwise_cons.1 gaps
      have proper' : current.start ≤ current.stop := all current (.head _)
      have others : ∀ i ∈ rest, i.start ≤ i.stop := fun i mem => all i (.tail _ mem)
      rw [insertInto]
      split
      case isTrue => exact gaps
      case isFalse =>
      split
      case isTrue =>
          refine absorb_gaps (Interval.union_proper proper) others (fun i mem => ?_) gaps'
          have := ahead i mem
          grind [Interval.IsBefore, Interval.union]
      case isFalse apart =>
      split
      case isTrue before =>
          have gap : added.IsBefore current := Interval.isBefore_of_not_touches apart (by grind)
          refine List.pairwise_cons.2 ⟨List.forall_mem_cons.2 ⟨gap, fun i mem => ?_⟩, gaps⟩
          exact gap.trans proper' (ahead i mem)
      case isFalse behind =>
          have gap : current.IsBefore added :=
            Interval.isBefore_of_not_touches (Interval.touches_comm ▸ apart) (by grind)
          exact List.pairwise_cons.2 ⟨isBefore_of_mem_insertInto proper others gap ahead,
            ih others gaps'⟩

theorem IsSeparated.addRange (h : s.IsSeparated) (start stop : Symbol) :
    (s.addRange start stop).IsSeparated := by
  refine ⟨h.proper.addRange start stop, ?_⟩
  unfold IntervalSet.addRange
  split
  case isTrue => exact h.gaps
  case isFalse le => exact insertInto_gaps (Int.not_lt.1 le) h.proper h.gaps

theorem IsSeparated.add (h : s.IsSeparated) (x : Symbol) : (s.add x).IsSeparated :=
  h.addRange x x

theorem IsSeparated.addSet (h : s.IsSeparated) (t : IntervalSet) : (s.addSet t).IsSeparated := by
  unfold IntervalSet.addSet
  generalize t.intervals = ranges
  induction ranges generalizing s with
  | nil => exact h
  | cons i ranges ih => exact ih (h.addRange i.start i.stop)

theorem IsSeparated.removeRange {start stop : Symbol} (h : s.IsSeparated) (le : start ≤ stop) :
    (s.removeRange start stop).IsSeparated := by
  have pieces i (mem : i ∈ s.intervals) := Interval.without_spec (h.proper i mem) le
  constructor
  · intro k mem
    obtain ⟨i, mem, here⟩ := List.mem_flatMap.1 mem
    exact ((pieces i mem).1 k here).1
  · refine List.pairwise_flatMap.2 ⟨fun i mem => (pieces i mem).2, ?_⟩
    refine h.gaps.imp_of_mem fun {i j} memI memJ gap k memK l memL => ?_
    have low := (pieces i memI).1 k memK
    have high := (pieces j memJ).1 l memL
    grind [Interval.IsBefore]

theorem IsSeparated.remove (h : s.IsSeparated) (x : Symbol) : (s.remove x).IsSeparated :=
  h.removeRange (Int.le_refl x)

/-- Taking away a set whose ranges are not inverted. -/
theorem IsSeparated.diff (h : s.IsSeparated) (proper : t.IsProper) : (s.diff t).IsSeparated := by
  unfold IntervalSet.diff
  unfold IsProper at proper
  generalize t.intervals = ranges at proper
  induction ranges generalizing s with
  | nil => exact h
  | cons i ranges ih =>
      obtain ⟨first, others⟩ := List.forall_mem_cons.1 proper
      exact ih (h.removeRange first) others

theorem mem_remove {x y : Symbol} : y ∈ s.remove x ↔ y ∈ s ∧ y ≠ x := by
  rw [remove, mem_removeRange, and_comm (a := x ≤ y), ← Int.le_antisymm_iff]

section Canonical

variable {i j : Interval} {is js : List Interval} {x : Symbol}

theorem IsSeparated.tail (h : IsSeparated ⟨i :: is⟩) : IsSeparated ⟨is⟩ :=
  ⟨fun k mem => h.proper k (.tail _ mem), (List.pairwise_cons.1 h.gaps).2⟩

theorem mem_cons : x ∈ (⟨i :: is⟩ : IntervalSet) ↔
    (i.start ≤ x ∧ x ≤ i.stop) ∨ x ∈ (⟨is⟩ : IntervalSet) := by
  rw [mem_iff, List.exists_mem_cons_iff, Interval.contains_iff, mem_iff]

/-- The symbols of the other ranges lie behind the gap. -/
theorem IsSeparated.mem_tail (h : IsSeparated ⟨i :: is⟩) :
    x ∈ (⟨is⟩ : IntervalSet) ↔ x ∈ (⟨i :: is⟩ : IntervalSet) ∧ i.stop + 1 < x := by
  constructor
  · intro mem
    obtain ⟨k, memK, inside⟩ := mem_iff.1 mem
    have gap : i.IsBefore k := (List.pairwise_cons.1 h.gaps).1 k memK
    exact ⟨mem_cons.2 (.inr mem), Int.lt_of_lt_of_le gap (Interval.contains_iff.1 inside).1⟩
  · rintro ⟨mem, behind⟩
    refine (mem_cons.1 mem).resolve_left fun inside => ?_
    grind

theorem IsSeparated.start_le (h : IsSeparated ⟨i :: is⟩) (mem : x ∈ (⟨i :: is⟩ : IntervalSet)) :
    i.start ≤ x := by
  have proper : i.start ≤ i.stop := h.proper i (.head _)
  rcases mem_cons.1 mem with inside | mem'
  · exact inside.1
  · have := (h.mem_tail.1 mem').2
    grind

/-- The first range ends in front of the gap, where no other set has more of it. -/
theorem IsSeparated.stop_le (h : IsSeparated ⟨i :: is⟩) (same : i.start = j.start)
    (sub : ∀ x, x ∈ (⟨j :: js⟩ : IntervalSet) → x ∈ (⟨i :: is⟩ : IntervalSet)) :
    j.stop ≤ i.stop := by
  by_contra longer
  have proper : i.start ≤ i.stop := h.proper i (.head _)
  have mem : i.stop + 1 ∈ (⟨i :: is⟩ : IntervalSet) := sub _ (mem_cons.2 (.inl (by grind)))
  have mem' : i.stop + 1 ∈ (⟨is⟩ : IntervalSet) := (mem_cons.1 mem).resolve_left (by grind)
  exact Int.lt_irrefl _ (h.mem_tail.1 mem').2

/-- The form is canonical: the members determine the ranges. -/
theorem IsSeparated.ext (hs : s.IsSeparated) (ht : t.IsSeparated) (same : ∀ x, x ∈ s ↔ x ∈ t) :
    s = t := by
  obtain ⟨is⟩ := s
  obtain ⟨js⟩ := t
  induction is generalizing js with
  | nil =>
      cases js with
      | nil => rfl
      | cons j js =>
          have start : j.start ∈ (⟨j :: js⟩ : IntervalSet) :=
            mem_cons.2 (.inl ⟨Int.le_refl _, ht.proper j (.head _)⟩)
          exact absurd ((same _).2 start) not_mem_empty
  | cons i is ih =>
      have startI : i.start ∈ (⟨i :: is⟩ : IntervalSet) :=
        mem_cons.2 (.inl ⟨Int.le_refl _, hs.proper i (.head _)⟩)
      cases js with
      | nil => exact absurd ((same _).1 startI) not_mem_empty
      | cons j js =>
          have startJ : j.start ∈ (⟨j :: js⟩ : IntervalSet) :=
            mem_cons.2 (.inl ⟨Int.le_refl _, ht.proper j (.head _)⟩)
          have start : i.start = j.start :=
            Int.le_antisymm (hs.start_le ((same _).2 startJ)) (ht.start_le ((same _).1 startI))
          have stop : i.stop = j.stop :=
            Int.le_antisymm (ht.stop_le start.symm fun x => (same x).1)
              (hs.stop_le start fun x => (same x).2)
          obtain rfl : i = j := congr (congrArg Interval.mk start) stop
          have rest : (⟨is⟩ : IntervalSet) = ⟨js⟩ := ih hs.tail js ht.tail fun x => by
            rw [hs.mem_tail, ht.mem_tail, same x]
          rw [IntervalSet.mk.inj rest]

end Canonical

end IntervalSet

/-! ### Membership by binary search -/

theorem Interval.locate_cases (i : Interval) (x : Symbol) :
    i.locate x = .lt ∧ i.stop < x ∨ i.locate x = .gt ∧ x < i.start ∨
      i.locate x = .eq ∧ i.contains x = true := by
  rw [locate, contains_iff]
  grind

namespace IntervalSet

variable {s : IntervalSet} {ranges below above : List Interval} {middle : Interval} {x : Symbol}

theorem eq_nil_of_drop_half (empty : ranges.drop (ranges.length / 2) = []) : ranges = [] := by
  have length := List.drop_eq_nil_iff.1 empty
  exact List.eq_nil_of_length_eq_zero (by omega)

/-- Both halves are shorter than the whole. -/
theorem length_halves (halves : ranges.drop (ranges.length / 2) = middle :: above) :
    above.length < ranges.length ∧ (ranges.take (ranges.length / 2)).length < ranges.length := by
  have length := congrArg List.length halves
  simp only [List.length_drop, List.length_cons] at length
  simp only [List.length_take]
  omega

/-- Each step of the search leaves out a range, so there is fuel for all of them. -/
theorem bisectWithin_eq {fuel fuel' : Nat} (enough : ranges.length ≤ fuel)
    (enough' : ranges.length ≤ fuel') : bisectWithin x fuel ranges = bisectWithin x fuel' ranges := by
  induction fuel generalizing fuel' ranges with
  | zero =>
      have none : ranges = [] := by simpa using enough
      cases fuel' <;> simp [none, bisectWithin]
  | succ fuel ih =>
      cases halves : ranges.drop (ranges.length / 2) with
      | nil => cases fuel' <;> simp [eq_nil_of_drop_half halves, bisectWithin]
      | cons middle above =>
          have shorter := length_halves halves
          cases fuel' with
          | zero => omega
          | succ fuel' =>
              simp only [bisectWithin, halves]
              cases middle.locate x with
              | eq => rfl
              | lt => apply ih <;> omega
              | gt => apply ih <;> omega

/-- One step of the search: the range in the middle settles it, or one of the halves does. -/
theorem bisect_step (x : Symbol) (ranges : List Interval) :
    ranges = [] ∧ bisect x ranges = false ∨ ∃ below middle above,
      ranges = below ++ middle :: above ∧ bisect x ranges =
        match middle.locate x with
        | .eq => true
        | .lt => bisect x above
        | .gt => bisect x below := by
  cases halves : ranges.drop (ranges.length / 2) with
  | nil =>
      rw [eq_nil_of_drop_half halves]
      exact .inl ⟨rfl, rfl⟩
  | cons middle above =>
      have shorter := length_halves halves
      refine .inr ⟨ranges.take (ranges.length / 2), middle, above, ?_, ?_⟩
      · rw [← halves, List.take_append_drop]
      · obtain ⟨fuel, size⟩ := Nat.exists_eq_succ_of_ne_zero (n := ranges.length) (by omega)
        have begun : bisect x ranges = bisectWithin x (fuel + 1) ranges := by rw [bisect, size]
        rw [begun]
        simp only [bisectWithin, halves]
        cases middle.locate x with
        | eq => rfl
        | lt => apply bisectWithin_eq <;> omega
        | gt => apply bisectWithin_eq <;> omega

/-- A symbol above one range is above those that stand before it. -/
theorem any_below (gaps : (below ++ middle :: above).Pairwise Interval.IsBefore)
    (proper : middle.start ≤ middle.stop) (behind : middle.stop < x) :
    below.any (·.contains x) = false := by
  refine List.any_eq_false.2 fun i mem => ?_
  have gap : i.IsBefore middle := (List.pairwise_append.1 gaps).2.2 i mem middle (.head _)
  rw [Interval.contains_iff]
  grind [Interval.IsBefore]

/-- A symbol below one range is below those that stand behind it. -/
theorem any_above (gaps : (below ++ middle :: above).Pairwise Interval.IsBefore)
    (proper : middle.start ≤ middle.stop) (ahead : x < middle.start) :
    above.any (·.contains x) = false := by
  refine List.any_eq_false.2 fun i mem => ?_
  have gap : middle.IsBefore i :=
    (List.pairwise_cons.1 (List.pairwise_append.1 gaps).2.1).1 i mem
  rw [Interval.contains_iff]
  grind [Interval.IsBefore]

/-- The search may miss a symbol of ranges that do not ascend, but what it finds is there. -/
theorem any_of_bisect {ranges : List Interval} (found : bisect x ranges = true) : ranges.any (·.contains x) = true := by
  rcases bisect_step x ranges with ⟨-, missed⟩ | ⟨below, middle, above, rfl, searched⟩
  · rw [missed] at found
    cases found
  · rw [List.any_append, List.any_cons, Bool.or_eq_true, Bool.or_eq_true]
    rw [searched] at found
    rcases middle.locate_cases x with ⟨located, -⟩ | ⟨located, -⟩ | ⟨-, inside⟩
    · rw [located] at found
      exact .inr (.inr (any_of_bisect found))
    · rw [located] at found
      exact .inl (any_of_bisect found)
    · exact .inr (.inl inside)
  termination_by ranges.length
  decreasing_by all_goals grind

/-- The half that a step of the search leaves out does not hold the symbol. -/
theorem bisect_eq_any {ranges : List Interval} (proper : ∀ i ∈ ranges, i.start ≤ i.stop)
    (gaps : ranges.Pairwise Interval.IsBefore) :
    bisect x ranges = ranges.any (·.contains x) := by
  rcases bisect_step x ranges with ⟨rfl, missed⟩ | ⟨below, middle, above, rfl, searched⟩
  · exact missed
  · have proper' : middle.start ≤ middle.stop := proper middle (by simp)
    obtain ⟨gapsBelow, gapsAbove, -⟩ := List.pairwise_append.1 gaps
    rw [searched, List.any_append, List.any_cons]
    rcases middle.locate_cases x with ⟨located, behind⟩ | ⟨located, ahead⟩ | ⟨located, inside⟩
    · have outside : middle.contains x = false := by
        rw [Interval.contains, decide_eq_false (Int.not_le.2 behind), Bool.and_false]
      rw [located, any_below gaps proper' behind, outside, Bool.false_or, Bool.false_or]
      exact bisect_eq_any (fun i mem => proper i (by simp [mem])) gapsAbove.tail
    · have outside : middle.contains x = false := by
        rw [Interval.contains, decide_eq_false (Int.not_le.2 ahead), Bool.false_and]
      rw [located, any_above gaps proper' ahead, outside, Bool.or_false, Bool.or_false]
      exact bisect_eq_any (fun i mem => proper i (by simp [mem])) gapsBelow
    · rw [located, inside, Bool.true_or, Bool.or_true]
  termination_by ranges.length
  decreasing_by all_goals grind

theorem mem_of_contains (found : s.contains x = true) : x ∈ s :=
  any_of_bisect found

/-- The search does not find the symbol, which is a member. -/
def Misses (s : IntervalSet) (x : Symbol) : Prop :=
  x ∈ s ∧ s.contains x = false

theorem IsSeparated.contains_iff (h : s.IsSeparated) : s.contains x = true ↔ x ∈ s :=
  Bool.eq_iff_iff.1 (bisect_eq_any h.proper h.gaps)

end IntervalSet

end AdaptiveLL
