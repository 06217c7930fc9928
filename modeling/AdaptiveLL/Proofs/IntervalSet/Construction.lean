import AdaptiveLL.Proofs.IntervalSet.Separated
import Mathlib.Data.Set.Card
import Mathlib.Order.Interval.Set.LinearOrder
import Mathlib.Data.Int.ConditionallyCompleteOrder
import Mathlib.Data.Int.Interval
/-!
Sets of symbols mean what the operations say that built them. Whatever operations build a set of
symbols of 32 bits, its ranges are in canonical form, it has the members that the same operations
on sets give, and no symbol that is computed on the way leaves the 32 bits
(`Construction.build_exact`). A range that is removed must not be inverted for this
(`removeRange_exact`).
-/
namespace AdaptiveLL

theorem Interval.encard_Icc (i : Interval) : (Set.Icc i.start i.stop).encard = i.size := by
  rw [← Finset.coe_Icc, Set.encard_coe_eq_coe_finsetCard, Int.card_Icc, size]
  congr 2
  omega

namespace IntervalSet

variable {s t : IntervalSet} {is as bs : List Interval} {i a b : Interval} {x : Symbol}

/-! ### Intersections -/

/-- What two first ranges have in common comes first. -/
theorem mem_overlaps_cons : x ∈ (⟨overlaps (a :: as) (b :: bs)⟩ : IntervalSet) ↔
    (a.contains x = true ∧ b.contains x = true) ∨
      x ∈ (⟨if a.stop < b.stop then overlaps as (b :: bs) else overlaps (a :: as) bs⟩ :
        IntervalSet) := by
  rw [overlaps]
  generalize (if a.stop < b.stop then overlaps as (b :: bs) else overlaps (a :: as) bs) = rest
  simp only [Interval.contains_iff]
  split
  case isTrue =>
      rw [mem_cons]
      grind
  case isFalse => grind

/-- The range that ends first meets none but the first range of the other list. -/
theorem mem_overlaps : ∀ {as bs : List Interval}, IsSeparated ⟨as⟩ → IsSeparated ⟨bs⟩ →
    (x ∈ (⟨overlaps as bs⟩ : IntervalSet) ↔ x ∈ (⟨as⟩ : IntervalSet) ∧ x ∈ (⟨bs⟩ : IntervalSet))
  | [], bs, _, _ => by
      rw [overlaps]
      exact iff_of_false not_mem_empty fun both => not_mem_empty both.1
  | a :: as, [], _, _ => by
      rw [overlaps]
      · exact iff_of_false not_mem_empty fun both => not_mem_empty both.2
      · exact List.cons_ne_nil a as
  | a :: as, b :: bs, has, hbs => by
      rw [mem_overlaps_cons, Interval.contains_iff, Interval.contains_iff]
      split
      case isTrue first =>
          have later := hbs.mem_tail (x := x)
          rw [mem_overlaps has.tail hbs, mem_cons (i := a)]
          rw [mem_cons] at later ⊢
          grind
      case isFalse first =>
          have later := has.mem_tail (x := x)
          rw [mem_overlaps has hbs.tail, mem_cons (i := b)]
          rw [mem_cons] at later ⊢
          grind
  termination_by as bs => as.length + bs.length

theorem mem_inter (hs : s.IsSeparated) (ht : t.IsSeparated) : x ∈ s.inter t ↔ x ∈ s ∧ x ∈ t := by
  rw [← mem_overlaps hs ht]
  exact (mem_addSet isProper_empty).trans (or_iff_right not_mem_empty)

/-! ### Sizes -/

theorem size_cons : (⟨i :: is⟩ : IntervalSet).size = i.size + (⟨is⟩ : IntervalSet).size := rfl

/-- Ranges with gaps between them have no member in common. -/
theorem IsSeparated.encard (h : s.IsSeparated) : {x | x ∈ s}.encard = s.size := by
  obtain ⟨is⟩ := s
  induction is with
  | nil =>
      have none : {x | x ∈ (⟨[]⟩ : IntervalSet)} = ∅ :=
        Set.eq_empty_of_forall_notMem fun x => not_mem_empty
      rw [none, Set.encard_empty]
      rfl
  | cons i is ih =>
      have split : {x | x ∈ (⟨i :: is⟩ : IntervalSet)} =
          Set.Icc i.start i.stop ∪ {x | x ∈ (⟨is⟩ : IntervalSet)} := Set.ext fun x => mem_cons
      have apart : Disjoint (Set.Icc i.start i.stop) {x | x ∈ (⟨is⟩ : IntervalSet)} := by
        refine Set.disjoint_left.2 fun x inside mem => ?_
        have behind := (h.mem_tail.1 mem).2
        have le := inside.2
        grind
      rw [split, Set.encard_union_eq apart, ih h.tail, Interval.encard_Icc, size_cons, Nat.cast_add]

end IntervalSet

/-! ### Symbols of 32 bits -/

namespace Symbol

/-- The symbol has 32 bits. -/
def IsWord (x : Symbol) : Prop :=
  Int32.minValue.toInt ≤ x ∧ x ≤ Int32.maxValue.toInt
  deriving Decidable

/-- The result of an operation on symbols of 32 bits, unless it overflows. -/
def word? (x : Symbol) : Option Symbol :=
  if x.IsWord then some x else none

theorem isWord_toInt (x : Int32) : IsWord x.toInt :=
  ⟨x.minValue_le_toInt, x.toInt_le⟩

end Symbol

/-- What is left of the range, as long as its new ends can be computed with 32 bits. -/
def Interval.without? (i : Interval) (start stop : Symbol) : Option (List Interval) :=
  if i.stop < start ∨ stop < i.start then some [i]
  else do
    let below ← if i.start < start then (start - 1).word?.map fun x => [⟨i.start, x⟩] else some []
    let above ← if stop < i.stop then (stop + 1).word?.map fun x => [⟨x, i.stop⟩] else some []
    return below ++ above

/-- What is cut off stays between the ends that are there already. -/
theorem Interval.without?_eq {i : Interval} (first : i.start.IsWord) (last : i.stop.IsWord)
    (start stop : Symbol) : i.without? start stop = some (i.without start stop) := by
  unfold Interval.without? Interval.without
  split
  case isTrue => rfl
  case isFalse meets =>
      have below (lt : i.start < start) : (start - 1).word? = some (start - 1) :=
        if_pos (by grind [Symbol.IsWord])
      have above (lt : stop < i.stop) : (stop + 1).word? = some (stop + 1) :=
        if_pos (by grind [Symbol.IsWord])
      split <;> split <;> simp [*]

namespace IntervalSet

variable {s t : IntervalSet}

/-! The only arithmetic with 32 bits is in removing: where ranges are put together, their ends are
compared with more bits. -/

/-- Remove a range, as long as 32 bits are enough. -/
def removeRange? (s : IntervalSet) (start stop : Symbol) : Option IntervalSet := do
  let kept ← s.intervals.foldlM (fun kept i => do return kept ++ (← i.without? start stop)) []
  return ⟨kept⟩

/-- Remove the ranges of a set, as long as 32 bits are enough. -/
def diff? (s t : IntervalSet) : Option IntervalSet :=
  t.intervals.foldlM (fun acc i => acc.removeRange? i.start i.stop) s

/-- The ends of ranges are members. -/
theorem IsProper.ends (h : s.IsProper) {i : Interval} (mem : i ∈ s.intervals) :
    i.start ∈ s ∧ i.stop ∈ s := by
  have le : i.start ≤ i.stop := h i mem
  exact ⟨mem_iff.2 ⟨i, mem, Interval.contains_iff.2 ⟨Int.le_refl _, le⟩⟩,
    mem_iff.2 ⟨i, mem, Interval.contains_iff.2 ⟨le, Int.le_refl _⟩⟩⟩

/-- What is kept is put behind what has been kept before. -/
theorem foldlM_without? {is : List Interval} {start stop : Symbol}
    (pieces : ∀ i ∈ is, i.without? start stop = some (i.without start stop))
    (kept : List Interval) :
    is.foldlM (fun kept i => do return kept ++ (← i.without? start stop)) kept =
      some (kept ++ is.flatMap (·.without start stop)) := by
  induction is generalizing kept with
  | nil => rw [List.foldlM_nil, List.flatMap_nil, List.append_nil]; rfl
  | cons i is ih =>
      obtain ⟨here, others⟩ := List.forall_mem_cons.1 pieces
      rw [List.foldlM_cons, here, List.flatMap_cons, ← List.append_assoc]
      exact ih others (kept ++ i.without start stop)

theorem removeRange?_eq (proper : s.IsProper) (words : ∀ x ∈ s, x.IsWord) (start stop : Symbol) :
    s.removeRange? start stop = some (s.removeRange start stop) := by
  have pieces : ∀ i ∈ s.intervals, i.without? start stop = some (i.without start stop) := by
    intro i mem
    obtain ⟨first, last⟩ := proper.ends mem
    exact Interval.without?_eq (words _ first) (words _ last) start stop
  rw [removeRange?, foldlM_without? pieces]
  rfl

theorem diff?_eq (hs : s.IsSeparated) (proper : t.IsProper) (words : ∀ x ∈ s, x.IsWord) :
    s.diff? t = some (s.diff t) := by
  unfold diff? diff
  unfold IsProper at proper
  generalize t.intervals = ranges at proper
  induction ranges generalizing s with
  | nil => rfl
  | cons i ranges ih =>
      obtain ⟨le, others⟩ := List.forall_mem_cons.1 proper
      rw [List.foldlM_cons, removeRange?_eq hs.proper words]
      exact ih (hs.removeRange le) (fun x mem => words x (mem_removeRange.1 mem).1) others

/-! ### Constructions -/

/-- How a set is built with symbols of 32 bits. Any range may be added, and any that is not inverted
removed. -/
inductive Construction where
  | empty
  | add (c : Construction) (x : Int32)
  | addRange (c : Construction) (start stop : Int32)
  | addSet (c d : Construction)
  | union (c d : Construction)
  | inter (c d : Construction)
  | diff (c d : Construction)
  | complement (c : Construction) (low high : Int32)
  | remove (c : Construction) (x : Int32)
  | removeRange (c : Construction) (start stop : Int32) (le : start ≤ stop)

namespace Construction

def build : Construction → IntervalSet
  | empty => ∅
  | add c x => c.build.add x.toInt
  | addRange c start stop => c.build.addRange start.toInt stop.toInt
  | addSet c d => c.build.addSet d.build
  | union c d => c.build.union d.build
  | inter c d => c.build.inter d.build
  | diff c d => c.build.diff d.build
  | complement c low high => c.build.complement low.toInt high.toInt
  | remove c x => c.build.remove x.toInt
  | removeRange c start stop _ => c.build.removeRange start.toInt stop.toInt

/-- The same, as long as 32 bits are enough. -/
def build? : Construction → Option IntervalSet
  | empty => some ∅
  | add c x => do return (← c.build?).add x.toInt
  | addRange c start stop => do return (← c.build?).addRange start.toInt stop.toInt
  | addSet c d => do return (← c.build?).addSet (← d.build?)
  | union c d => do return (← c.build?).union (← d.build?)
  | inter c d => do return (← c.build?).inter (← d.build?)
  | diff c d => do (← c.build?).diff? (← d.build?)
  | complement c low high => do (ofRange low.toInt high.toInt).diff? (← c.build?)
  | remove c x => do (← c.build?).removeRange? x.toInt x.toInt
  | removeRange c start stop _ => do (← c.build?).removeRange? start.toInt stop.toInt

/-- What the operations give as operations on sets. -/
def members : Construction → Set Symbol
  | empty => ∅
  | add c x => insert x.toInt c.members
  | addRange c start stop => c.members ∪ Set.Icc start.toInt stop.toInt
  | addSet c d => c.members ∪ d.members
  | union c d => c.members ∪ d.members
  | inter c d => c.members ∩ d.members
  | diff c d => c.members \ d.members
  | complement c low high => Set.Icc low.toInt high.toInt \ c.members
  | remove c x => c.members \ {x.toInt}
  | removeRange c start stop _ => c.members \ Set.Icc start.toInt stop.toInt

theorem separated (c : Construction) : c.build.IsSeparated := by
  induction c with
  | empty => exact isSeparated_empty
  | add c x ih => exact ih.add x.toInt
  | addRange c start stop ih => exact ih.addRange start.toInt stop.toInt
  | addSet c d ih _ => exact ih.addSet d.build
  | union c d ih _ => exact ih.addSet d.build
  | inter c d _ _ => exact isSeparated_empty.addSet _
  | diff c d ih ih' => exact ih.diff ih'.proper
  | complement c low high ih => exact (isSeparated_empty.addRange low.toInt high.toInt).diff ih.proper
  | remove c x ih => exact ih.remove x.toInt
  | removeRange c start stop le ih => exact ih.removeRange (Int32.le_iff_toInt_le.1 le)

theorem mem_build (c : Construction) (x : Symbol) : x ∈ c.build ↔ x ∈ c.members := by
  induction c with
  | empty => exact iff_of_false not_mem_empty id
  | add c y ih =>
      rw [build, mem_add c.separated.proper, ih, members, Set.mem_insert_iff, or_comm]
  | addRange c start stop ih =>
      rw [build, mem_addRange c.separated.proper, ih]
      rfl
  | addSet c d ih ih' =>
      rw [build, mem_addSet c.separated.proper, ih, ih']
      rfl
  | union c d ih ih' =>
      rw [build, IntervalSet.union, mem_addSet c.separated.proper, ih, ih']
      rfl
  | inter c d ih ih' =>
      rw [build, mem_inter c.separated d.separated, ih, ih']
      rfl
  | diff c d ih ih' =>
      rw [build, mem_diff, ih, ih']
      rfl
  | complement c low high ih =>
      rw [build, mem_complement, ih]
      rfl
  | remove c y ih =>
      rw [build, mem_remove, ih]
      rfl
  | removeRange c start stop le ih =>
      rw [build, mem_removeRange, ih]
      rfl

/-- No operation leads out of the 32 bits. -/
theorem isWord (c : Construction) {x : Symbol} (mem : x ∈ c.members) : x.IsWord := by
  have between {low high : Int32} (inside : x ∈ Set.Icc low.toInt high.toInt) : x.IsWord :=
    ⟨low.minValue_le_toInt.trans inside.1, inside.2.trans high.toInt_le⟩
  induction c with
  | empty => cases mem
  | add c y ih =>
      rcases mem with rfl | mem
      · exact Symbol.isWord_toInt y
      · exact ih mem
  | addRange c start stop ih => exact mem.elim ih between
  | addSet c d ih ih' => exact mem.elim ih ih'
  | union c d ih ih' => exact mem.elim ih ih'
  | inter c d ih _ => exact ih mem.1
  | diff c d ih _ => exact ih mem.1
  | complement c low high _ => exact between mem.1
  | remove c y ih => exact ih mem.1
  | removeRange c start stop _ ih => exact ih mem.1

theorem words (c : Construction) : ∀ x ∈ c.build, x.IsWord :=
  fun x mem => c.isWord ((c.mem_build x).1 mem)

theorem build?_eq (c : Construction) : c.build? = some c.build := by
  induction c with
  | empty => rfl
  | add c x ih => simp [build?, ih, build]
  | addRange c start stop ih => simp [build?, ih, build]
  | addSet c d ih ih' => simp [build?, ih, ih', build]
  | union c d ih ih' => simp [build?, ih, ih', build]
  | inter c d ih ih' => simp [build?, ih, ih', build]
  | diff c d ih ih' =>
      simp [build?, ih, ih', build, diff?_eq c.separated d.separated.proper c.words]
  | complement c low high ih =>
      have words : ∀ x ∈ ofRange low.toInt high.toInt, x.IsWord := fun x mem =>
        (addRange empty low high).words x mem
      have separated : (ofRange low.toInt high.toInt).IsSeparated :=
        (addRange empty low high).separated
      simp [build?, ih, build, diff?_eq separated c.separated.proper words, IntervalSet.complement]
  | remove c x ih =>
      simp [build?, ih, build, removeRange?_eq c.separated.proper c.words, IntervalSet.remove]
  | removeRange c start stop le ih =>
      simp [build?, ih, build, removeRange?_eq c.separated.proper c.words]

/-- However a set has been built, its ranges are not inverted and ascend with gaps between them; they
cover exactly its members, and the binary search finds exactly these; its size is their number;
a set with the same members is the same; and 32 bits are enough on the way. -/
theorem build_exact (c : Construction) :
    ((∀ i ∈ c.build.intervals, i.start ≤ i.stop) ∧
      c.build.intervals.Pairwise fun i j => i.stop + 1 < j.start) ∧
    (∀ x, (x ∈ c.build ↔ x ∈ c.members) ∧ (c.build.contains x = true ↔ x ∈ c.build)) ∧
    c.members.encard = c.build.size ∧
    (∀ d : Construction, c.build = d.build ↔ c.members = d.members) ∧
    c.build? = some c.build ∧ ∀ x ∈ c.build, x.IsWord := by
  have members (c : Construction) : {x | x ∈ c.build} = c.members := Set.ext c.mem_build
  refine ⟨⟨c.separated.proper, c.separated.gaps⟩, fun x => ⟨c.mem_build x, ?_⟩, ?_, fun d => ?_,
    c.build?_eq, c.words⟩
  · exact c.separated.contains_iff
  · rw [← members, c.separated.encard]
  · constructor
    · intro same
      rw [← members, ← members, same]
    · intro same
      refine c.separated.ext d.separated fun x => ?_
      rw [mem_build, mem_build, same]

end Construction

end IntervalSet

namespace Interval

variable {i : Interval} {start stop : Symbol}

/-- A range that does not hold both ends of an inverted range lies to one side of it. -/
theorem without_of_apart (inverted : stop < start)
    (apart : ¬ (i.contains start = true ∧ i.contains stop = true)) : i.without start stop = [i] := by
  refine if_pos ?_
  rw [contains_iff, contains_iff] at apart
  grind

/-- The symbols between the ends of an inverted range come twice, unless it has none. -/
theorem without_of_inverted (inverted : stop < start) (first : i.contains start = true)
    (last : i.contains stop = true) :
    i.without start stop = [⟨i.start, start - 1⟩, ⟨stop + 1, i.stop⟩] := by
  rw [contains_iff] at first last
  have meets : ¬ (i.stop < start ∨ stop < i.start) := by grind
  have below : i.start < start := by grind
  have above : stop < i.stop := by grind
  rw [without, if_neg meets, if_pos below, if_pos above]
  rfl

end Interval

namespace IntervalSet

variable {s : IntervalSet} {start stop : Symbol}

theorem removeRange_of_apart (inverted : stop < start)
    (apart : ∀ i ∈ s.intervals, ¬ (i.contains start = true ∧ i.contains stop = true)) :
    s.removeRange start stop = s := by
  have kept : s.intervals.flatMap (·.without start stop) = s.intervals.flatMap ([·]) :=
    List.flatMap_congr fun i mem => Interval.without_of_apart inverted (apart i mem)
  rw [removeRange, kept, List.flatMap_singleton']

/-- The two pieces that an inverted range leaves of a stored one have no gap between them. -/
theorem not_isSeparated_removeRange (inverted : stop < start) {i : Interval}
    (mem : i ∈ s.intervals) (first : i.contains start = true) (last : i.contains stop = true) :
    ¬ (s.removeRange start stop).IsSeparated := by
  intro separated
  have gaps := (List.pairwise_flatMap.1 separated.gaps).1 i mem
  rw [Interval.without_of_inverted inverted first last] at gaps
  have gap : start - 1 + 1 < stop + 1 := List.rel_of_pairwise_cons gaps (.head _)
  grind

theorem removeRange_isSeparated_iff (h : s.IsSeparated) :
    (s.removeRange start stop).IsSeparated ↔
      start ≤ stop ∨ ∀ i ∈ s.intervals, ¬ (i.contains start = true ∧ i.contains stop = true) := by
  rcases Int.lt_or_le stop start with inverted | le
  · constructor
    · intro separated
      refine .inr fun i mem ends => ?_
      exact not_isSeparated_removeRange inverted mem ends.1 ends.2 separated
    · rintro (le | apart)
      · exact absurd le (Int.not_le.2 inverted)
      · rwa [removeRange_of_apart inverted apart]
  · exact iff_of_true (h.removeRange le) (.inl le)

/-- Removing a range of symbols of 32 bits takes away the symbols between its ends and no others,
without an overflow. The set stays in canonical form unless the range is inverted and a stored range
holds both of its ends; an inverted range that keeps the form changes nothing. -/
theorem removeRange_exact (h : s.IsSeparated) (words : ∀ x ∈ s, x.IsWord) (start stop : Int32) :
    (∀ x, x ∈ s.removeRange start.toInt stop.toInt ↔
      x ∈ s ∧ ¬ (start.toInt ≤ x ∧ x ≤ stop.toInt)) ∧
    s.removeRange? start.toInt stop.toInt = some (s.removeRange start.toInt stop.toInt) ∧
    ((s.removeRange start.toInt stop.toInt).IsSeparated ↔
      start ≤ stop ∨
        ∀ i ∈ s.intervals, ¬ (i.contains start.toInt = true ∧ i.contains stop.toInt = true)) ∧
    (stop < start → (s.removeRange start.toInt stop.toInt).IsSeparated →
      s.removeRange start.toInt stop.toInt = s) := by
  refine ⟨fun x => mem_removeRange, removeRange?_eq h.proper words _ _, ?_, ?_⟩
  · rw [removeRange_isSeparated_iff h, Int32.le_iff_toInt_le]
  · intro inverted separated
    have lt : stop.toInt < start.toInt := Int32.lt_iff_toInt_lt.1 inverted
    refine separated.ext h fun x => mem_removeRange.trans (and_iff_left ?_)
    rintro ⟨low, high⟩
    exact Int.not_le.2 lt (low.trans high)

/-- A range inside the other, and an inverted one between two of them. -/
theorem removeRange_exact_pair :
    (ofRanges [(1, 10), (20, 30)]).IsSeparated ∧ (∀ x ∈ ofRanges [(1, 10), (20, 30)], x.IsWord) ∧
    (∀ x, x ∈ (ofRanges [(1, 10), (20, 30)]).removeRange 3 7 ↔
      x ∈ ofRanges [(1, 10), (20, 30)] ∧ ¬ (3 ≤ x ∧ x ≤ 7)) ∧
    ((ofRanges [(1, 10), (20, 30)]).removeRange 3 7).IsSeparated ∧
    (ofRanges [(1, 10), (20, 30)]).removeRange 25 5 = ofRanges [(1, 10), (20, 30)] := by
  have separated : (ofRanges [(1, 10), (20, 30)]).IsSeparated :=
    (isSeparated_empty.addRange 1 10).addRange 20 30
  have words : ∀ x ∈ ofRanges [(1, 10), (20, 30)], x.IsWord := by
    intro x mem
    obtain ⟨i, stored, inside⟩ := mem_iff.1 mem
    have ends : ∀ i ∈ (ofRanges [(1, 10), (20, 30)]).intervals, 1 ≤ i.start ∧ i.stop ≤ 30 := by
      decide
    have bounds := ends i stored
    rw [Interval.contains_iff] at inside
    have low : Int32.minValue.toInt ≤ 1 := by decide
    have high : 30 ≤ Int32.maxValue.toInt := by decide
    exact ⟨by grind, by grind⟩
  obtain ⟨members, -, kept, -⟩ := removeRange_exact separated words 3 7
  obtain ⟨-, -, kept', same⟩ := removeRange_exact separated words 25 5
  exact ⟨separated, words, members, kept.2 (.inl (by decide)),
    same (by decide) (kept'.2 (.inr (by decide)))⟩

/-- The range from 7 to 3 leaves nothing of the range from 1 to 10 out, but stores it in two pieces
that overlap. -/
theorem removeRange_inverted :
    (ofRange 1 10).IsSeparated ∧ (ofRange 1 10).removeRange 7 3 = ⟨[⟨1, 6⟩, ⟨4, 10⟩]⟩ ∧
      ¬ ((ofRange 1 10).removeRange 7 3).IsSeparated := by
  refine ⟨isSeparated_empty.addRange 1 10, by decide, ?_⟩
  exact not_isSeparated_removeRange (i := ⟨1, 10⟩) (by decide) (by decide) (by decide) (by decide)

end IntervalSet

end AdaptiveLL
