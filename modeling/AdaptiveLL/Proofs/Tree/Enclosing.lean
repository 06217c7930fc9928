import AdaptiveLL.Proofs.Tree.Subtree
import Mathlib.Order.Interval.Finset.Nat
/-!
The query for the deepest call whose tokens cover a region. It goes down to the first child that
covers the region, and never turns back. If siblings hold different places, and calls hold those of
the calls in them, the last node on the way down is the deepest one (`enclosing_deepest`).
-/
namespace AdaptiveLL

namespace ParseTree

/-- The places of the tokens that a node covers. There are none if the node has no interval, or
one that ends before it starts. -/
def places (t : ParseTree) (id : NodeId) : Finset Nat :=
  match t.interval? id with
  | some (first, last) => Finset.Icc first last
  | none => ∅

/-- The node is a call of a rule and covers the places from `start` to `stop`. -/
structure Encloses (t : ParseTree) (start stop : Nat) (id : NodeId) : Prop where
  rule : (t.rule? id).isSome
  covers : Finset.Icc start stop ⊆ t.places id

instance (t : ParseTree) (start stop : Nat) (id : NodeId) : Decidable (t.Encloses start stop id) :=
  decidable_of_iff ((t.rule? id).isSome ∧ Finset.Icc start stop ⊆ t.places id)
    ⟨fun h => ⟨h.1, h.2⟩, fun h => ⟨h.rule, h.covers⟩⟩

/-- The calls below a node cover no places that their callers do not cover, so none if the caller has
no interval, and calls with the same caller cover different places. -/
structure Nested (t : ParseTree) (root : NodeId) : Prop where
  within : ∀ {id c}, t.Below root id → c ∈ t.children id → (t.rule? c).isSome →
    t.places c ⊆ t.places id
  apart : ∀ {id c c'}, t.Below root id → c ∈ t.children id → c' ∈ t.children id →
    (t.rule? c).isSome → (t.rule? c').isSome → c ≠ c' → Disjoint (t.places c) (t.places c')

/-- The deepest node at or below `root` that encloses the places: nothing below it does, and
whatever does is above it. -/
structure IsDeepest (t : ParseTree) (start stop : Nat) (root found : NodeId) : Prop where
  below : t.Below root found
  encloses : t.Encloses start stop found
  last : ∀ {id}, t.Below found id → id ≠ found → ¬ t.Encloses start stop id
  above : ∀ {id}, t.Below root id → t.Encloses start stop id → t.Below id found

variable {t : ParseTree} {root id c c' found : NodeId} {start stop levels : Nat}

theorem encloses_iff (region : start ≤ stop) : t.Encloses start stop id ↔
    ∃ node first last, t.rule? id = some node ∧ t.interval? id = some (first, last) ∧
      first ≤ start ∧ stop ≤ last := by
  constructor
  · rintro ⟨rule, covers⟩
    obtain ⟨node, rule⟩ := Option.isSome_iff_exists.1 rule
    cases interval : t.interval? id with
    | none => simp [places, interval, region] at covers
    | some ends =>
        obtain ⟨first, last⟩ := ends
        rw [places, interval, Finset.Icc_subset_Icc_iff region] at covers
        exact ⟨node, first, last, rule, rfl, covers⟩
  · rintro ⟨node, first, last, rule, interval, from_start, to_stop⟩
    constructor
    · simp [rule]
    · rw [places, interval]
      exact Finset.Icc_subset_Icc from_start to_stop

/-- Nothing is found at a node that does not enclose the places. -/
theorem enclosingWithin_eq_none (region : start ≤ stop) (h : ¬ t.Encloses start stop id) :
    t.enclosingWithin start stop levels id = none := by
  cases levels with
  | zero => rfl
  | succ levels =>
      rw [enclosingWithin]
      split
      · next node first last rule interval =>
          have outside : start < first ∨ last < stop := by
            by_contra inside
            push Not at inside
            exact h ((encloses_iff region).2 ⟨node, first, last, rule, interval, inside⟩)
          simp [outside]
      · rfl

/-- At a node that encloses the places, the first child is taken at which something is found. -/
theorem enclosingWithin_succ (region : start ≤ stop) (h : t.Encloses start stop id) :
    t.enclosingWithin start stop (levels + 1) id =
      some (((t.children id).findSome? (t.enclosingWithin start stop levels)).getD id) := by
  obtain ⟨node, first, last, rule, interval, from_start, to_stop⟩ := (encloses_iff region).1 h
  simp only [enclosingWithin, rule, interval, children_of_rule rule, Nat.not_lt.2 from_start,
    Nat.not_lt.2 to_stop, decide_false, Bool.or_self, Bool.false_eq_true, if_false]
  cases node.children.toList.findSome? (t.enclosingWithin start stop levels) <;> rfl

namespace Nested

/-- What is above a node that encloses the places encloses them as well. -/
theorem encloses_above (nested : t.Nested root) (below : t.Below root id) (h : t.Below id c)
    (encloses : t.Encloses start stop c) : t.Encloses start stop id := by
  induction h with
  | root => exact encloses
  | child above listed ih =>
      apply ih
      constructor
      · exact isSome_rule?_of_listed listed
      · exact encloses.covers.trans (nested.within (below.trans above) listed encloses.rule)

/-- No two siblings enclose the same places. -/
theorem eq_of_encloses (nested : t.Nested root) (below : t.Below root id)
    (listed : c ∈ t.children id) (listed' : c' ∈ t.children id) (region : start ≤ stop)
    (h : t.Encloses start stop c) (h' : t.Encloses start stop c') : c = c' := by
  by_contra ne
  have disjoint := nested.apart below listed listed' h.rule h'.rule ne
  have mem : start ∈ Finset.Icc start stop := Finset.left_mem_Icc.2 region
  exact Finset.disjoint_left.1 disjoint (h.covers mem) (h'.covers mem)

/-- A node of whose children none encloses the places is the deepest that does. -/
theorem isDeepest_self (nested : t.Nested root) (below : t.Below root id)
    (encloses : t.Encloses start stop id)
    (none : ∀ c ∈ t.children id, ¬ t.Encloses start stop c) : t.IsDeepest start stop id id := by
  have last {d : NodeId} (under : t.Below id d) (other : d ≠ id) : ¬ t.Encloses start stop d := by
    intro covers
    obtain ⟨c, listed, under⟩ := (below_iff.1 under).resolve_left other
    exact none c listed (nested.encloses_above (below.child listed) under covers)
  constructor
  case below => exact .root
  case encloses => exact encloses
  case last => exact last
  case above =>
    intro d under covers
    by_cases same : d = id
    · exact same ▸ .root
    · exact absurd covers (last under same)

/-- The deepest node below a child is the deepest one below its parent. -/
theorem isDeepest_of_child (nested : t.Nested root) (below : t.Below root id) (region : start ≤ stop)
    (listed : c ∈ t.children id) (encloses : t.Encloses start stop c)
    (deepest : t.IsDeepest start stop c found) : t.IsDeepest start stop id found := by
  constructor
  case below => exact .of_child listed deepest.below
  case encloses => exact deepest.encloses
  case last => exact deepest.last
  case above =>
    intro d under covers
    rcases below_iff.1 under with rfl | ⟨c', listed', under⟩
    · exact .of_child listed deepest.below
    · have covers' := nested.encloses_above (below.child listed') under covers
      obtain rfl := nested.eq_of_encloses below listed listed' region encloses covers'
      exact deepest.above under covers

end Nested

/-- In a tree of nested calls nothing encloses a region if the root does not; if it does, the deepest
node is found that does. -/
theorem enclosing_deepest (tree : t.IsSubtree root) (nested : t.Nested root)
    (region : start ≤ stop) :
    (¬ t.Encloses start stop root → t.enclosing? root start stop = none) ∧
    (t.Encloses start stop root → ∃ found, t.enclosing? root start stop = some found ∧
      t.IsDeepest start stop root found) := by
  constructor
  · exact enclosingWithin_eq_none region
  apply tree.descend (motive := fun levels id => t.Encloses start stop id →
    ∃ found, t.enclosingWithin start stop levels id = some found ∧ t.IsDeepest start stop id found) _
    (Nat.le_succ _)
  intro levels id below children encloses
  rw [enclosingWithin_succ region encloses]
  cases search : (t.children id).findSome? (t.enclosingWithin start stop levels) with
  | none =>
      refine ⟨id, rfl, nested.isDeepest_self below encloses ?_⟩
      intro c listed covers
      obtain ⟨found, run, -⟩ := children c listed covers
      have missed := List.findSome?_eq_none_iff.1 search c listed
      rw [run] at missed
      cases missed
  | some found =>
      obtain ⟨c, listed, run⟩ := List.exists_of_findSome?_eq_some search
      have covers : t.Encloses start stop c := by
        by_contra outside
        rw [enclosingWithin_eq_none region outside] at run
        cases run
      obtain ⟨found', run', deepest⟩ := children c listed covers
      obtain rfl : found' = found := Option.some.inj (run'.symm.trans run)
      exact ⟨found', rfl, nested.isDeepest_of_child below region listed covers deepest⟩

/-- The search for `b` passes the call that read `a` and ends at the call that read `b`. -/
theorem enclosing_deepest_wrapped : wrapped.IsSubtree 0 ∧ wrapped.Nested 0 ∧
    (∀ id ∈ [0, 3, 4], wrapped.Encloses 1 1 id) ∧
    wrapped.enclosing? 0 1 1 = some 4 ∧ wrapped.IsDeepest 1 1 0 4 := by
  have nested : wrapped.Nested 0 := by
    have within : ∀ id < wrapped.size, ∀ c ∈ wrapped.children id, (wrapped.rule? c).isSome →
        wrapped.places c ⊆ wrapped.places id := by decide
    have apart : ∀ id < wrapped.size, ∀ c ∈ wrapped.children id, ∀ c' ∈ wrapped.children id,
        (wrapped.rule? c).isSome → (wrapped.rule? c').isSome → c ≠ c' →
          Disjoint (wrapped.places c) (wrapped.places c') := by decide
    exact ⟨fun below => within _ (wrapped_isSubtree.lt_size below) _,
      fun below listed listed' => apart _ (wrapped_isSubtree.lt_size below) _ listed _ listed'⟩
  have covers : ∀ id ∈ [0, 3, 4], wrapped.Encloses 1 1 id := by decide
  obtain ⟨found, run, deepest⟩ :=
    (enclosing_deepest wrapped_isSubtree nested (Nat.le_refl 1)).2 (covers 0 (by decide))
  have second : wrapped.enclosing? 0 1 1 = some 4 := by decide
  obtain rfl : found = 4 := Option.some.inj (run.symm.trans second)
  exact ⟨wrapped_isSubtree, nested, covers, second, deepest⟩

end ParseTree

end AdaptiveLL
