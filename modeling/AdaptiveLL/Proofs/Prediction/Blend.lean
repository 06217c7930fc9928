import AdaptiveLL.Proofs.Prediction.Stages
import Mathlib.Data.Set.Finite.Lemmas
/-!
Merging stacks of any origin. Where the empty stack is a wildcard, what a merge leaves out goes on
from an *end* of one of the two sets, a stack from which no other stack of that set goes on. Among
sets in which no stack goes on from another one, merging leaves the least stacks. However many sets
are merged, and in what order, the result is the same.
-/
namespace AdaptiveLL.StackGraph

variable {A B : Set (List Nat)} {F : Set (Set (List Nat))} {frames : List Nat} {wildcard : Bool} {r : Nat}

/-- The stacks of a set from which no other one of it goes on. -/
def ends (A : Set (List Nat)) : Set (List Nat) :=
  { frames | frames ∈ A ∧ ∀ frames' ∈ A, frames <+: frames' → frames' = frames }

/-- What merging makes of sets of stacks. With the wildcard, nothing goes on from an end of a set. -/
def gather (wildcard : Bool) (F : Set (Set (List Nat))) : Set (List Nat) :=
  { frames | (∃ A ∈ F, frames ∈ A) ∧
    (wildcard = true → ∀ A ∈ F, ∀ frames' ∈ ends A, frames' <+: frames → frames' = frames) }

/-- What merging makes of two sets of stacks. -/
def blend (wildcard : Bool) (A B : Set (List Nat)) : Set (List Nat) :=
  gather wildcard {A, B}

theorem PrefixFree.ends_eq (free : PrefixFree A) : ends A = A := by
  ext frames
  exact ⟨fun mem => mem.1, fun mem => ⟨mem, fun frames' mem' before => (free frames' mem' frames mem before).symm⟩⟩

/-- Every stack goes on to an end. -/
theorem exists_end (finite : A.Finite) (mem : frames ∈ A) : ∃ frames' ∈ ends A, frames <+: frames' := by
  have further : { frames' | frames' ∈ A ∧ frames <+: frames' }.Finite := finite.subset fun _ h => h.1
  obtain ⟨last, ⟨mem', before⟩, longest⟩ :=
    Set.exists_max_image _ List.length further ⟨frames, mem, List.prefix_refl frames⟩
  refine ⟨last, ⟨mem', fun frames' mem'' after => ?_⟩, before⟩
  have short := longest frames' ⟨mem'', before.trans after⟩
  exact (after.eq_of_length (Nat.le_antisymm after.length_le short)).symm

theorem gather_false (F : Set (Set (List Nat))) : gather false F = ⋃₀ F := by
  ext frames
  simp [gather]

/-- Where no stack of a set goes on from another one of it, the least stacks are left. -/
theorem gather_of_prefixFree (free : ∀ A ∈ F, PrefixFree A) : gather true F = least (⋃₀ F) := by
  ext frames
  constructor
  · rintro ⟨mem, minimal⟩
    refine ⟨mem, fun frames' ⟨A, inF, mem'⟩ => minimal rfl A inF frames' ?_⟩
    rwa [(free A inF).ends_eq]
  · rintro ⟨mem, minimal⟩
    exact ⟨mem, fun _ A inF frames' mem' => minimal frames' ⟨A, inF, mem'.1⟩⟩

@[simp] theorem gather_empty : gather wildcard ∅ = ∅ := by
  ext frames
  simp [gather]

@[simp] theorem gather_singleton : gather wildcard {A} = A := by
  ext frames
  simp only [gather, Set.mem_singleton_iff, exists_eq_left, forall_eq, Set.mem_ofPred_eq]
  exact and_iff_left_of_imp fun mem _ frames' mem' before => (mem'.2 frames mem before).symm

/-! ### Many sets -/

/-- The ends of sets that have been merged are the least ends that they had. -/
theorem ends_gather (finite : ∀ A ∈ F, A.Finite) :
    ends (gather true F) = least { frames | ∃ A ∈ F, frames ∈ ends A } := by
  have keeps {frames : List Nat} (h : frames ∈ least { frames | ∃ A ∈ F, frames ∈ ends A }) :
      frames ∈ gather true F := by
    obtain ⟨⟨A, inF, mem⟩, minimal⟩ := h
    exact ⟨⟨A, inF, mem.1⟩, fun _ A' inF' frames' mem' => minimal frames' ⟨A', inF', mem'⟩⟩
  ext frames
  constructor
  · rintro ⟨⟨⟨A, inF, mem⟩, minimal⟩, last⟩
    -- An end of its own set would do, and so would a least end before that one.
    obtain ⟨far, isEnd, before⟩ := exists_end (finite A inF) mem
    obtain ⟨first, isLeast, before'⟩ := exists_least (A := { frames | ∃ A ∈ F, frames ∈ ends A }) ⟨A, inF, isEnd⟩
    have same : first = frames := by
      rcases List.prefix_or_prefix_of_prefix before before' with le | le
      · exact last first (keeps isLeast) le
      · obtain ⟨A', inF', isEnd'⟩ := isLeast.1
        exact minimal rfl A' inF' first isEnd' le
    exact same ▸ isLeast
  · intro h
    obtain ⟨⟨A, inF, isEnd⟩, -⟩ := id h
    exact ⟨keeps h, fun frames' mem' after => (mem'.2 rfl A inF frames isEnd after).symm⟩

/-- One more set. -/
theorem blend_gather (finite : ∀ A ∈ F, A.Finite) :
    blend wildcard (gather wildcard F) A = gather wildcard (insert A F) := by
  cases wildcard with
  | false => simp [blend, gather_false, Set.union_comm]
  | true =>
      have ends_eq := ends_gather finite
      ext frames
      constructor
      · rintro ⟨⟨B, which, mem⟩, minimal⟩
        have before {frames' : List Nat} {B : Set (List Nat)} (inF : B ∈ F) (isEnd : frames' ∈ ends B)
            (le : frames' <+: frames) : frames' = frames := by
          obtain ⟨first, isLeast, le'⟩ :=
            exists_least (A := { frames | ∃ A ∈ F, frames ∈ ends A }) ⟨B, inF, isEnd⟩
          have same := minimal rfl _ (.inl rfl) first (ends_eq ▸ isLeast) (le'.trans le)
          exact le.eq_of_length (Nat.le_antisymm le.length_le (same ▸ le'.length_le))
        constructor
        · rcases which with rfl | rfl
          · obtain ⟨B, inF, mem⟩ := mem.1
            exact ⟨B, .inr inF, mem⟩
          · exact ⟨B, .inl rfl, mem⟩
        · rintro - B (rfl | inF) frames' isEnd
          · exact minimal rfl B (.inr rfl) frames' isEnd
          · exact before inF isEnd
      · rintro ⟨⟨B, which, mem⟩, minimal⟩
        constructor
        · rcases which with rfl | inF
          · exact ⟨B, .inr rfl, mem⟩
          · exact ⟨_, .inl rfl, ⟨B, inF, mem⟩, fun _ B' inF' => minimal rfl B' (.inr inF')⟩
        · rintro - B (rfl | rfl) frames' isEnd
          · obtain ⟨⟨B', inF', isEnd'⟩, -⟩ := ends_eq ▸ isEnd
            exact minimal rfl B' (.inr inF') frames' isEnd'
          · exact minimal rfl B (.inl rfl) frames' isEnd

/-! ### Two sets -/

theorem blend_comm (wildcard : Bool) (A B : Set (List Nat)) : blend wildcard A B = blend wildcard B A := by
  rw [blend, Set.pair_comm, blend]

@[simp] theorem blend_self (wildcard : Bool) (A : Set (List Nat)) : blend wildcard A A = A := by
  rw [blend, Set.pair_eq_singleton, gather_singleton]

theorem mem_blend : frames ∈ blend wildcard A B ↔ (frames ∈ A ∨ frames ∈ B) ∧
    (wildcard = true → ∀ frames', frames' ∈ ends A ∨ frames' ∈ ends B → frames' <+: frames → frames' = frames) := by
  simp only [blend, gather, Set.mem_ofPred_eq, Set.exists_mem_insert, Set.mem_singleton_iff, exists_eq_left,
    Set.forall_mem_insert, forall_eq, or_imp, forall_and]

@[simp] theorem blend_empty (wildcard : Bool) (A : Set (List Nat)) : blend wildcard A ∅ = A := by
  ext frames
  rw [mem_blend, or_iff_left (Set.notMem_empty frames)]
  refine and_iff_left_of_imp fun mem _ frames' isEnd before => ?_
  exact (isEnd.elim (fun h => h.2 frames mem before) fun h => h.1.elim).symm

@[simp] theorem empty_blend (wildcard : Bool) (A : Set (List Nat)) : blend wildcard ∅ A = A := by
  rw [blend_comm, blend_empty]

/-- The empty stack absorbs all others if it is alone. -/
theorem blend_bottom : blend true {[]} B = {[]} := by
  have isEnd : [] ∈ ends {([] : List Nat)} := ⟨rfl, fun frames' mem _ => mem⟩
  ext frames
  rw [mem_blend]
  constructor
  · exact fun ⟨_, minimal⟩ => (minimal rfl [] (.inl isEnd) List.nil_prefix).symm
  · rintro rfl
    exact ⟨.inl rfl, fun _ frames' _ before => List.prefix_nil.1 before⟩

theorem nil_mem_blend : [] ∈ blend wildcard A B ↔ [] ∈ A ∨ [] ∈ B := by
  rw [mem_blend]
  exact and_iff_left fun _ _ _ before => List.prefix_nil.1 before

/-- What is under a return state. -/
def under (r : Nat) (A : Set (List Nat)) : Set (List Nat) :=
  { frames | r :: frames ∈ A }

/-- A set of stacks is known by what is under each return state. -/
theorem eq_of_under (nil : [] ∈ A ↔ [] ∈ B) (same : ∀ r, under r A = under r B) : A = B := by
  ext frames
  cases frames with
  | nil => exact nil
  | cons r frames => exact Set.ext_iff.1 (same r) frames

theorem mem_ends_under : frames ∈ ends (under r A) ↔ r :: frames ∈ ends A := by
  refine and_congr_right fun _ => ⟨fun last frames' mem' after => ?_, fun last frames' mem' after => ?_⟩
  · obtain ⟨rest, rfl⟩ := after
    exact congrArg (r :: ·) (last _ mem' ⟨rest, rfl⟩)
  · exact (List.cons.inj (last (r :: frames') mem' (List.cons_prefix_cons.2 ⟨rfl, after⟩))).2

/-- Unless the empty stack is alone in one of the sets, merging goes on under each return state. -/
theorem under_blend (proper : wildcard = true → [] ∉ ends A ∧ [] ∉ ends B) :
    under r (blend wildcard A B) = blend wildcard (under r A) (under r B) := by
  ext frames
  rw [under, Set.mem_ofPred_eq, mem_blend, mem_blend]
  refine and_congr_right fun _ => forall_congr' fun wild => ⟨fun minimal frames' isEnd before => ?_, ?_⟩
  · have within := isEnd.imp mem_ends_under.1 mem_ends_under.1
    exact (List.cons.inj (minimal (r :: frames') within (List.cons_prefix_cons.2 ⟨rfl, before⟩))).2
  · intro minimal frames' isEnd before
    cases frames' with
    | nil => exact (isEnd.elim (proper wild).1 (proper wild).2).elim
    | cons r' frames' =>
        obtain ⟨rfl, before'⟩ := List.cons_prefix_cons.1 before
        rw [minimal frames' (isEnd.imp mem_ends_under.2 mem_ends_under.2) before']

/-! ### Merging -/

variable {g : StackGraph} {a b id : Nat} {e : Nat × Nat} {as bs es : List (Nat × Nat)}

theorem finite_stackSet (g : StackGraph) (id : Nat) : (g.stackSet id).Finite :=
  List.finite_toSet (g.stackList id)

theorem under_way (here : e.2 = r) (isState : r ≠ noState) : under r (g.way e) = g.stackSet e.1 := by
  ext frames
  rw [under, Set.mem_ofPred_eq, mem_way (here ▸ isState)]
  simp [here]

theorem under_way_of_ne (other : ¬ (e.2 = r ∧ r ≠ noState)) : under r (g.way e) = ∅ := by
  ext frames
  rw [under, Set.mem_ofPred_eq]
  refine iff_of_false (fun mem => other ?_) id
  by_cases bottom : e.2 = noState
  · rw [way, if_pos bottom] at mem
    cases mem
  · obtain ⟨_, -, eq⟩ := (mem_way bottom).1 mem
    have here := (List.cons.inj eq).1.symm
    exact ⟨here, here ▸ bottom⟩

theorem under_through_of_lt (above : ∀ e ∈ es, r < e.2) : under r (g.through es) = ∅ := by
  ext frames
  refine iff_of_false (fun ⟨e, mem, inside⟩ => ?_) id
  have none : under r (g.way e) = ∅ := under_way_of_ne fun here => Nat.ne_of_gt (above e mem) here.1
  exact Set.ext_iff.1 none frames |>.1 inside

/-- What is under the return state of a way on, and what is under the others. -/
theorem under_cons (e : Nat × Nat) (es : List (Nat × Nat)) (r : Nat) :
    under r (g.through (e :: es)) = under r (g.way e) ∪ under r (g.through es) := by
  rw [through_cons]
  rfl

/-- Putting lists of ways on together blends their stacks, if merging their parents does. -/
theorem Zips.under_through {R : Nat → Nat → Nat → Prop} (zips : Zips R as bs es)
    (related : ∀ {a b p}, R a b p → g.stackSet p = blend wildcard (g.stackSet a) (g.stackSet b))
    (left : Ascending as) (right : Ascending bs) (r : Nat) :
    under r (g.through es) = blend wildcard (under r (g.through as)) (under r (g.through bs)) := by
  have nowhere : under r (g.through []) = ∅ := under_through_of_lt (by simp)
  induction zips with
  | left bs => rw [nowhere, empty_blend]
  | right as => rw [nowhere, blend_empty]
  | @both pa pb parent resume as bs es merged _ ih =>
      -- A list has one way on at most for a return state, so the rest has nothing under that of its head.
      have later := ih left.tail right.tail
      simp only [under_cons]
      by_cases here : resume = r ∧ r ≠ noState
      · have noneA : under r (g.through as) = ∅ := under_through_of_lt (here.1 ▸ left.lt_of_mem)
        have noneB : under r (g.through bs) = ∅ := under_through_of_lt (here.1 ▸ right.lt_of_mem)
        rw [later, noneA, noneB, blend_self, under_way here.1 here.2, under_way here.1 here.2,
          under_way here.1 here.2, Set.union_empty, Set.union_empty, Set.union_empty, related merged]
      · simp only [under_way_of_ne (e := (_, resume)) here, Set.empty_union, later]
  | @first pa pb ra rb as bs es lt _ ih =>
      have later := ih left.tail right
      rw [under_cons (pa, ra), under_cons (pa, ra)]
      by_cases here : ra = r ∧ r ≠ noState
      · have noneA : under r (g.through as) = ∅ := under_through_of_lt (here.1 ▸ left.lt_of_mem)
        have noneB : under r (g.through ((pb, rb) :: bs)) = ∅ :=
          under_through_of_lt (right.lt_of_head (here.1 ▸ lt))
        rw [later, noneA, noneB, blend_self, Set.union_empty, blend_empty]
      · simp only [under_way_of_ne (e := (_, ra)) here, Set.empty_union, later]
  | @second pa pb ra rb as bs es lt _ ih =>
      have later := ih left right.tail
      rw [under_cons (pb, rb), under_cons (pb, rb)]
      by_cases here : rb = r ∧ r ≠ noState
      · have noneA : under r (g.through ((pa, ra) :: as)) = ∅ :=
          under_through_of_lt (left.lt_of_head (here.1 ▸ lt))
        have noneB : under r (g.through bs) = ∅ := under_through_of_lt (here.1 ▸ right.lt_of_mem)
        rw [later, noneA, noneB, blend_self, Set.union_empty, empty_blend]
      · simp only [under_way_of_ne (e := (_, rb)) here, Set.empty_union, later]

theorem Zips.nil_mem_through {R : Nat → Nat → Nat → Prop} (zips : Zips R as bs es) :
    [] ∈ g.through es ↔ [] ∈ g.through as ∨ [] ∈ g.through bs := by
  induction zips with
  | left | right => simp
  | both _ _ ih =>
      simp only [through_cons, Set.mem_union, ih, way]
      split <;> simp
  | first _ _ ih => simp only [through_cons, Set.mem_union, ih, or_assoc]
  | second _ _ ih =>
      simp only [through_cons, Set.mem_union, ih]
      exact or_left_comm

/-- The empty stack is an end only of the node that has no other one. -/
theorem nil_notMem_ends (tidy : g.Tidy) (ordered : g.Ordered) (present : g.Present id) (some : id ≠ 0) :
    [] ∉ ends (g.stackSet id) := by
  intro isEnd
  have only : g.stackSet id = g.stackSet 0 := by
    rw [stackSet_zero]
    ext frames
    constructor
    · exact fun mem => isEnd.2 frames mem List.nil_prefix
    · rintro rfl
      exact isEnd.1
  exact some (eq_of_stackSet tidy ordered present present_zero only)

/-- The stacks of a node blend those of two others. -/
abbrev Blends (wildcard : Bool) (g : StackGraph) (a b id : Nat) : Prop :=
  g.Ordered → g.stackSet id = blend wildcard (g.stackSet a) (g.stackSet b)

/-- Merging stacks blends their sets. -/
theorem mergeRule_blends (wildcard : Bool) : Stacks.MergeRule wildcard (Blends wildcard) where
  same _ _ _ := (blend_self _ _).symm
  symm h ordered := by rw [h ordered, blend_comm]
  mono h tidy grown left right present ordered := by
    rw [left.stackSet_eq tidy grown, right.stackSet_eq tidy grown, present.stackSet_eq tidy grown]
    exact h (ordered.before grown)
  absorb wild _ empty _ := by
    subst wild
    rcases empty with rfl | rfl
    · rw [stackSet_zero, blend_bottom]
    · rw [stackSet_zero, blend_comm, blend_bottom]
  beside {g a b id es} exact tidy left right different empty others made ordered := by
    subst exact
    have joined := (mergeRule_join false).beside rfl tidy left right different empty others made ordered nofun
    rw [joined, blend, gather_false, Set.sUnion_pair]
    rfl
  nodes {g a b id es} tidy left right _ some _ zips made ordered := by
    have ways : es ≠ [] := zips.ne_nil (tidy.entries_ne_nil a)
    have proper (wild : wildcard = true) : [] ∉ ends (g.stackSet a) ∧ [] ∉ ends (g.stackSet b) :=
      ⟨nil_notMem_ends tidy ordered left (some wild).1, nil_notMem_ends tidy ordered right (some wild).2⟩
    have parents : Zips (fun a b id => g.stackSet id = blend wildcard (g.stackSet a) (g.stackSet b))
        (g.node a).entries (g.node b).entries es :=
      zips.imp fun _ _ _ _ _ blends => blends ordered
    rw [made.stackSet_eq tidy ways]
    refine eq_of_under ?_ fun r => ?_
    · rw [nil_mem_blend, tidy.stackSet_eq a, tidy.stackSet_eq b]
      exact parents.nil_mem_through
    · rw [under_blend proper, tidy.stackSet_eq a, tidy.stackSet_eq b]
      exact parents.under_through (fun blends => blends) (ordered a) (ordered b) r

end StackGraph

open StackGraph

/-- Stacks whose merges blend what they stand for. -/
structure Stacks.Blended (wildcard : Bool) (s : Stacks) : Prop where
  keeps : s.Keeps (Blends wildcard)
  ordered : s.graph.Ordered

namespace Stacks.Blended

variable {wildcard : Bool} {s : Stacks} {a b : Nat}

theorem tidy (h : s.Blended wildcard) : s.graph.Tidy :=
  h.keeps.tidy

theorem merge (h : s.Blended wildcard) (left : s.graph.Present a) (right : s.graph.Present b) :
    let made := s.merge wildcard a b
    s.graph.Extends made.2.graph ∧ made.2.Blended wildcard ∧ made.2.graph.Present made.1 ∧
      made.2.graph.stackSet made.1 = blend wildcard (s.graph.stackSet a) (s.graph.stackSet b) := by
  intro made
  have yields := Stacks.merge_yields (mergeRule_blends wildcard) h.keeps left right
  have ordered := yields.ordered h.ordered
  have blended := yields.related ordered
  rw [left.stackSet_eq h.tidy yields.grown, right.stackSet_eq h.tidy yields.grown] at blended
  exact ⟨yields.grown, ⟨yields.keeps, ordered⟩, yields.present, blended⟩

end Stacks.Blended

namespace Arena

open Relation

variable {m : Arena} {wildcard : Bool} {k : Nat}

/-- Arenas after any uses, in which memo number `k` has served only merges that treat the empty stack
in the one way. -/
def Filled (wildcard : Bool) (k : Nat) : Arena → Prop :=
  ReflTransGen (fun m m' => ∃ wildcard' k', (k' = k → wildcard' = wildcard) ∧ Use wildcard' k' m m') {}

theorem Filled.blended (h : m.Filled wildcard k) : (m.withMemo k).Blended wildcard := by
  suffices (∀ k', (m.withMemo k').Keeps fun _ _ _ _ => True) ∧ (m.withMemo k).Blended wildcard from this.2
  induction h with
  | refl => exact ⟨fun _ => ⟨.empty, fun _ mem => by cases mem⟩, ⟨.empty, fun _ mem => by cases mem⟩, .empty⟩
  | @tail m m' _ use ih =>
      obtain ⟨wildcard', k', alike, use⟩ := use
      obtain ⟨all, keeps, ordered⟩ := ih
      have does := use.does (mergeRule_true wildcard') (all k')
      refine ⟨does.all (mergeRule_true wildcard') all, ?_, does.ordered ordered⟩
      by_cases same : k' = k
      · subst same
        obtain rfl := alike rfl
        exact (use.does (mergeRule_blends wildcard') keeps).keeps
      · have memo : m'.withMemo k = { m.withMemo k with graph := m'.graph } := by
          rw [withMemo, does.others (Ne.symm same), withMemo]
        rw [memo]
        exact keeps.grow (mergeRule_blends wildcard) does.grown does.keeps.tidy

end Arena

end AdaptiveLL
