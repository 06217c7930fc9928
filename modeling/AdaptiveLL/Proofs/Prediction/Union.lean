import AdaptiveLL.Proofs.Prediction.StackSets
import Mathlib.Logic.Function.Basic
import Mathlib.Logic.Relation
/-!
Merging stacks is the union of their sets. Where the empty stack is a wildcard, a stack is left
out if another one says less: if it goes on from it. As the sets determine the numbers of the
nodes, merging is commutative, associative and idempotent on numbers, whatever the memos hold.
-/
namespace AdaptiveLL.StackGraph

variable {A B C D : Set (List Nat)} {frames : List Nat}

/-- The stacks of a set that do not go on from another one of it. -/
def least (A : Set (List Nat)) : Set (List Nat) :=
  { frames | frames ∈ A ∧ ∀ frames' ∈ A, frames' <+: frames → frames' = frames }

/-- No stack goes on from another one. -/
def PrefixFree (A : Set (List Nat)) : Prop :=
  ∀ frames ∈ A, ∀ frames' ∈ A, frames' <+: frames → frames' = frames

/-- What merging makes of two sets of stacks. -/
def join (wildcard : Bool) (A B : Set (List Nat)) : Set (List Nat) :=
  if wildcard then least (A ∪ B) else A ∪ B

theorem prefixFree_least : PrefixFree (least A) :=
  fun _ mem _ mem' => mem.2 _ mem'.1

theorem PrefixFree.least_eq (free : PrefixFree A) : least A = A := by
  ext frames
  exact ⟨fun mem => mem.1, fun mem => ⟨mem, free frames mem⟩⟩

/-- Every stack goes on from a least one. -/
theorem exists_least (mem : frames ∈ A) : ∃ frames' ∈ least A, frames' <+: frames := by
  induction h : frames.length using Nat.strong_induction_on generalizing frames with
  | _ length ih =>
      by_cases minimal : ∀ frames' ∈ A, frames' <+: frames → frames' = frames
      · exact ⟨frames, ⟨mem, minimal⟩, List.prefix_refl frames⟩
      · push Not at minimal
        obtain ⟨frames', mem', below, different⟩ := minimal
        have shorter : frames'.length < length := by
          have le := below.length_le
          have ne : frames'.length ≠ frames.length := fun same => different (below.eq_of_length same)
          omega
        obtain ⟨first, isLeast, before⟩ := ih _ shorter mem' rfl
        exact ⟨first, isLeast, before.trans below⟩

/-- Leaving stacks out before a union does not matter. -/
theorem least_union_least : least (least A ∪ B) = least (A ∪ B) := by
  ext frames
  constructor
  · rintro ⟨mem, minimal⟩
    refine ⟨mem.imp (fun h => h.1) id, fun frames' mem' below => ?_⟩
    rcases mem' with inA | inB
    · obtain ⟨first, isLeast, before⟩ := exists_least inA
      obtain rfl := minimal first (.inl isLeast) (before.trans below)
      exact below.eq_of_length (Nat.le_antisymm below.length_le before.length_le)
    · exact minimal frames' (.inr inB) below
  · rintro ⟨mem, minimal⟩
    constructor
    · exact mem.imp (fun inA => ⟨inA, fun frames' mem' => minimal frames' (.inl mem')⟩) id
    · intro frames' mem'
      exact minimal frames' (mem'.imp (fun h => h.1) id)

theorem join_comm (wildcard : Bool) : join wildcard A B = join wildcard B A := by
  rw [join, join, Set.union_comm]

theorem join_assoc (wildcard : Bool) :
    join wildcard (join wildcard A B) C = join wildcard A (join wildcard B C) := by
  cases wildcard with
  | false => exact Set.union_assoc A B C
  | true =>
      have right : least (A ∪ least (B ∪ C)) = least (A ∪ (B ∪ C)) := by
        rw [Set.union_comm, least_union_least, Set.union_comm]
      show least (least (A ∪ B) ∪ C) = least (A ∪ least (B ∪ C))
      rw [least_union_least, right, Set.union_assoc]

theorem join_self {wildcard : Bool} (free : wildcard = true → PrefixFree A) :
    join wildcard A A = A := by
  cases wildcard with
  | false => exact Set.union_self A
  | true =>
      show least (A ∪ A) = A
      rw [Set.union_self, (free rfl).least_eq]

theorem join_empty {wildcard : Bool} (free : wildcard = true → PrefixFree A) :
    join wildcard A ∅ = A := by
  cases wildcard with
  | false => exact Set.union_empty A
  | true =>
      show least (A ∪ ∅) = A
      rw [Set.union_empty, (free rfl).least_eq]

/-- The empty stack absorbs all others. -/
theorem join_bottom : join true {[]} B = {[]} := by
  show least ({[]} ∪ B) = {[]}
  ext frames
  constructor
  · rintro ⟨-, minimal⟩
    exact (minimal [] (.inl rfl) (List.nil_prefix)).symm
  · rintro rfl
    exact ⟨.inl rfl, fun frames' _ below => List.prefix_nil.1 below⟩

/-- No stack of one set goes on from one of the other. -/
def Apart (A B : Set (List Nat)) : Prop :=
  ∀ a ∈ A, ∀ b ∈ B, ¬ a <+: b ∧ ¬ b <+: a

theorem Apart.union_left (h : Apart A C) (h' : Apart B C) : Apart (A ∪ B) C :=
  fun a mem => mem.elim (h a) (h' a)

theorem Apart.union_right (h : Apart A B) (h' : Apart A C) : Apart A (B ∪ C) :=
  fun a mem b mem' => mem'.elim (h a mem b) (h' a mem b)

theorem least_union (apart : Apart A B) : least (A ∪ B) = least A ∪ least B := by
  ext frames
  constructor
  · rintro ⟨inA | inB, minimal⟩
    · exact .inl ⟨inA, fun frames' mem' => minimal frames' (.inl mem')⟩
    · exact .inr ⟨inB, fun frames' mem' => minimal frames' (.inr mem')⟩
  · rintro (⟨inA, minimal⟩ | ⟨inB, minimal⟩)
    · refine ⟨.inl inA, fun frames' mem' below => ?_⟩
      exact mem'.elim (fun h => minimal _ h below) fun h => absurd below (apart _ inA _ h).2
    · refine ⟨.inr inB, fun frames' mem' below => ?_⟩
      exact mem'.elim (fun h => absurd below (apart _ h _ inB).1) fun h => minimal _ h below

/-- Sets that have nothing to do with each other are joined separately. -/
theorem join_union {wildcard : Bool} (apart : wildcard = true → Apart (A ∪ B) (C ∪ D)) :
    join wildcard (A ∪ C) (B ∪ D) = join wildcard A B ∪ join wildcard C D := by
  have swap : (A ∪ C) ∪ (B ∪ D) = (A ∪ B) ∪ (C ∪ D) := Set.union_union_union_comm A C B D
  cases wildcard with
  | false => exact swap
  | true =>
      show least ((A ∪ C) ∪ (B ∪ D)) = least (A ∪ B) ∪ least (C ∪ D)
      rw [swap, least_union (apart rfl)]

theorem join_union_left {wildcard : Bool} (free : wildcard = true → PrefixFree A)
    (apart : wildcard = true → Apart A (C ∪ D)) : join wildcard (A ∪ C) D = A ∪ join wildcard C D := by
  calc join wildcard (A ∪ C) D = join wildcard (A ∪ C) (∅ ∪ D) := by rw [Set.empty_union]
    _ = join wildcard A ∅ ∪ join wildcard C D :=
        join_union fun wild => by rw [Set.union_empty]; exact apart wild
    _ = A ∪ join wildcard C D := by rw [join_empty free]

theorem join_cons (wildcard : Bool) (r : Nat) :
    join wildcard ((r :: ·) '' A) ((r :: ·) '' B) = (r :: ·) '' join wildcard A B := by
  cases wildcard with
  | false => exact (Set.image_union _ A B).symm
  | true =>
      show least (_ ∪ _) = _ '' least (A ∪ B)
      rw [← Set.image_union]
      ext frames
      constructor
      · rintro ⟨⟨below, mem, rfl⟩, minimal⟩
        refine ⟨below, ⟨mem, fun below' mem' before => ?_⟩, rfl⟩
        have same := minimal (r :: below') ⟨below', mem', rfl⟩ (List.cons_prefix_cons.2 ⟨rfl, before⟩)
        exact (List.cons.inj same).2
      · rintro ⟨below, ⟨mem, minimal⟩, rfl⟩
        refine ⟨⟨below, mem, rfl⟩, ?_⟩
        rintro _ ⟨below', mem', rfl⟩ before
        rw [minimal below' mem' (List.cons_prefix_cons.1 before).2]

/-! ### Ways on -/

variable {g g' : StackGraph} {wildcard : Bool} {a b id : Nat} {e e' : Nat × Nat}
  {as bs es : List (Nat × Nat)}

theorem way_apart (isState : e.2 ≠ noState) (isState' : e'.2 ≠ noState) (different : e.2 ≠ e'.2) :
    Apart (g.way e) (g.way e') := by
  intro a mem b mem'
  obtain ⟨x, -, rfl⟩ := (mem_way isState).1 mem
  obtain ⟨y, -, rfl⟩ := (mem_way isState').1 mem'
  rw [List.cons_prefix_cons, List.cons_prefix_cons]
  exact ⟨fun h => different h.1, fun h => different h.1.symm⟩

theorem way_apart_through (isState : e.2 ≠ noState)
    (states : ∀ e' ∈ es, e'.2 ≠ noState ∧ e.2 ≠ e'.2) : Apart (g.way e) (g.through es) := by
  rintro a mem b ⟨e', inside, mem'⟩
  obtain ⟨isState', different⟩ := states e' inside
  exact way_apart isState isState' different a mem b mem'

/-- The way on returns to a state, and none of its stacks goes on from another one. -/
def Plain (g : StackGraph) (e : Nat × Nat) : Prop :=
  e.2 ≠ noState ∧ PrefixFree (g.stackSet e.1)

theorem Plain.prefixFree_way (h : g.Plain e) : PrefixFree (g.way e) := by
  intro a mem b mem' before
  obtain ⟨x, inX, rfl⟩ := (mem_way h.1).1 mem
  obtain ⟨y, inY, rfl⟩ := (mem_way h.1).1 mem'
  rw [h.2 x inX y inY (List.cons_prefix_cons.1 before).2]

theorem Ascending.prefixFree_through (sorted : Ascending es) (plain : ∀ e ∈ es, g.Plain e) :
    PrefixFree (g.through es) := by
  rintro a ⟨e, mem, inA⟩ b ⟨e', mem', inB⟩ before
  by_cases same : e.2 = e'.2
  · obtain rfl := sorted.eq_of_resume mem mem' same
    exact (plain e mem).prefixFree_way a inA b inB before
  · exact absurd before (way_apart (plain e mem).1 (plain e' mem').1 same a inA b inB).2

/-- Where the empty stack is apart, no stack of a node goes on from another one. -/
theorem prefixFree_stackSet (tidy : g.Tidy) (ordered : g.Ordered) (lone : g.EmptyApart) (id : Nat) :
    PrefixFree (g.stackSet id) := by
  induction id using Nat.strong_induction_on with
  | _ id ih =>
      by_cases none : g.node id = .empty
      · have only : g.stackSet id = {[]} := by
          rw [tidy.stackSet_eq, none, ← g.node_zero, ← tidy.stackSet_eq, stackSet_zero]
        rw [only]
        rintro _ rfl _ rfl _
        rfl
      · rw [tidy.stackSet_eq]
        apply (ordered id).prefixFree_through
        intro e mem
        have isState := lone id none e mem
        exact ⟨isState, ih e.1 (tidy.older_of_resume mem isState).1⟩

theorem Ascending.lt_of_mem (h : Ascending (e :: es)) : ∀ e' ∈ es, e.2 < e'.2 :=
  (List.pairwise_cons.1 h.sorted).1

theorem Ascending.lt_of_head (h : Ascending (e :: es)) {r : Nat} (lt : r < e.2) :
    ∀ e' ∈ e :: es, r < e'.2 :=
  List.forall_mem_cons.2 ⟨lt, fun e' mem => Nat.lt_trans lt (h.lt_of_mem e' mem)⟩

/-- A way on in front of all others is left as it is. -/
theorem join_way (plain : wildcard = true → g.Plain e)
    (before : wildcard = true → ∀ e' ∈ as, e'.2 ≠ noState ∧ e.2 < e'.2)
    (before' : wildcard = true → ∀ e' ∈ bs, e'.2 ≠ noState ∧ e.2 < e'.2) :
    join wildcard (g.through (e :: as)) (g.through bs) =
      g.way e ∪ join wildcard (g.through as) (g.through bs) := by
  rw [through_cons]
  apply join_union_left
  · exact fun wild => (plain wild).prefixFree_way
  · intro wild
    have isState := (plain wild).1
    apply Apart.union_right
    · exact way_apart_through isState fun e' mem =>
        ⟨(before wild e' mem).1, Nat.ne_of_lt (before wild e' mem).2⟩
    · exact way_apart_through isState fun e' mem =>
        ⟨(before' wild e' mem).1, Nat.ne_of_lt (before' wild e' mem).2⟩

/-- Putting lists of ways on together joins their stacks, if merging their parents does. -/
theorem Zips.through_join {R : Nat → Nat → Nat → Prop} (zips : Zips R as bs es)
    (related : ∀ {a b p}, R a b p →
      g.stackSet p = join wildcard (g.stackSet a) (g.stackSet b))
    (left : Ascending as) (right : Ascending bs)
    (plainA : wildcard = true → ∀ e ∈ as, g.Plain e)
    (plainB : wildcard = true → ∀ e ∈ bs, g.Plain e) :
    g.through es = join wildcard (g.through as) (g.through bs) := by
  induction zips with
  | left bs =>
      rw [through_nil, join_comm, join_empty fun wild => right.prefixFree_through (plainB wild)]
  | right as =>
      rw [through_nil, join_empty fun wild => left.prefixFree_through (plainA wild)]
  | @both pa pb parent resume as bs es merged _ ih =>
      have later := ih left.tail right.tail (fun wild e mem => plainA wild e (.tail _ mem))
        fun wild e mem => plainB wild e (.tail _ mem)
      have first : g.way (parent, resume) =
          join wildcard (g.way (pa, resume)) (g.way (pb, resume)) := by
        by_cases bottom : resume = noState
        · have free : PrefixFree {([] : List Nat)} := by
            rintro _ rfl _ rfl _
            rfl
          simp only [way, if_pos bottom]
          rw [join_self fun _ => free]
        · simp only [way, if_neg bottom]
          rw [join_cons, ← related merged]
      rw [through_cons, through_cons, through_cons, join_union, ← later, ← first]
      intro wild
      have isState := (plainA wild _ (.head _)).1
      have apart (p : Nat) : Apart (g.way (p, resume)) (g.through as ∪ g.through bs) := by
        apply Apart.union_right
        · exact way_apart_through isState fun e mem =>
            ⟨(plainA wild e (.tail _ mem)).1, Nat.ne_of_lt (left.lt_of_mem e mem)⟩
        · exact way_apart_through isState fun e mem =>
            ⟨(plainB wild e (.tail _ mem)).1, Nat.ne_of_lt (right.lt_of_mem e mem)⟩
      exact (apart pa).union_left (apart pb)
  | @first pa pb ra rb as bs es lt _ ih =>
      have later := ih left.tail right (fun wild e mem => plainA wild e (.tail _ mem)) plainB
      rw [through_cons, later, join_way fun wild => plainA wild _ (.head _)]
      · exact fun wild e mem => ⟨(plainA wild e (.tail _ mem)).1, left.lt_of_mem e mem⟩
      · exact fun wild e mem => ⟨(plainB wild e mem).1, right.lt_of_head lt e mem⟩
  | @second pa pb ra rb as bs es lt _ ih =>
      have later := ih left right.tail plainA fun wild e mem => plainB wild e (.tail _ mem)
      rw [through_cons, later, join_comm, join_comm (B := g.through (_ :: bs)),
        join_way fun wild => plainB wild _ (.head _)]
      · exact fun wild e mem => ⟨(plainB wild e (.tail _ mem)).1, right.lt_of_mem e mem⟩
      · exact fun wild e mem => ⟨(plainA wild e mem).1, left.lt_of_head lt e mem⟩

/-- The ways on from a node with others than the empty stack, if none of its stacks goes on from
another one. -/
theorem plain_of_prefixFree (tidy : g.Tidy) (ordered : g.Ordered) (present : g.Present id)
    (some : id ≠ 0) (free : PrefixFree (g.stackSet id)) : ∀ e ∈ (g.node id).entries, g.Plain e := by
  intro e mem
  have inside {frames : List Nat} (way : frames ∈ g.way e) : frames ∈ g.stackSet id := by
    rw [tidy.stackSet_eq]
    exact ⟨e, mem, way⟩
  have isState : e.2 ≠ noState := by
    -- The empty stack would be the only one.
    intro bottom
    have empty : [] ∈ g.stackSet id := inside (by simp [way, bottom])
    have only : g.stackSet id = g.stackSet 0 := by
      rw [stackSet_zero]
      ext frames
      constructor
      · intro mem'
        exact (free frames mem' [] empty List.nil_prefix).symm
      · rintro rfl
        exact empty
    exact some (eq_of_stackSet tidy ordered present present_zero only)
  refine ⟨isState, fun frames mem' frames' mem'' before => ?_⟩
  have same := free _ (inside ((mem_way isState).2 ⟨frames, mem', rfl⟩)) _
    (inside ((mem_way isState).2 ⟨frames', mem'', rfl⟩)) (List.cons_prefix_cons.2 ⟨rfl, before⟩)
  exact (List.cons.inj same).2

/-- The stacks of a node join those of two others. With the wildcard, this asks for others of
which no stack goes on from another one. -/
abbrev Joins (wildcard : Bool) (g : StackGraph) (a b id : Nat) : Prop :=
  g.Ordered → (wildcard = true → PrefixFree (g.stackSet a) ∧ PrefixFree (g.stackSet b)) →
    g.stackSet id = join wildcard (g.stackSet a) (g.stackSet b)

/-- Merging stacks joins their sets. -/
theorem mergeRule_join (wildcard : Bool) : Stacks.MergeRule wildcard (Joins wildcard) where
  same _ _ _ free := by
    rw [join_self fun wild => (free wild).1]
  symm h ordered free := by
    rw [h ordered fun wild => (free wild).symm, join_comm]
  mono h tidy grown left right present ordered free := by
    rw [left.stackSet_eq tidy grown, right.stackSet_eq tidy grown] at free ⊢
    rw [present.stackSet_eq tidy grown]
    exact h (ordered.before grown) free
  absorb wild _ empty _ _ := by
    subst wild
    rcases empty with rfl | rfl
    · rw [stackSet_zero, join_bottom]
    · rw [stackSet_zero, join_comm, join_bottom]
  beside {g a b id es} exact tidy _ _ different empty others made _ _ := by
    subst exact
    have both : g.stackSet id = g.stackSet (max a b) ∪ {[]} := by
      rw [made.stackSet_eq tidy (List.append_ne_nil_of_right_ne_nil _ (List.cons_ne_nil _ _)),
        through_append, tidy.stackSet_eq, others]
      simp [way]
    rcases empty with rfl | rfl
    · rw [both, Nat.zero_max, stackSet_zero]
      exact Set.union_comm _ _
    · rw [both, Nat.max_zero, stackSet_zero]
      rfl
  nodes {g a b id es} tidy left right different some known zips made ordered free := by
    have plainA (wild : wildcard = true) :=
      plain_of_prefixFree tidy ordered left (some wild).1 (free wild).1
    have plainB (wild : wildcard = true) :=
      plain_of_prefixFree tidy ordered right (some wild).2 (free wild).2
    have ways : es ≠ [] := zips.ne_nil (tidy.entries_ne_nil a)
    have parents : Zips (fun a b id => g.stackSet id = join wildcard (g.stackSet a) (g.stackSet b))
        (g.node a).entries (g.node b).entries es := by
      refine zips.imp fun ea mema eb memb p joins => joins ordered fun wild => ?_
      exact ⟨(plainA wild ea mema).2, (plainB wild eb memb).2⟩
    rw [made.stackSet_eq tidy ways, tidy.stackSet_eq a, tidy.stackSet_eq b]
    exact parents.through_join (fun joins => joins) (ordered a) (ordered b) plainA plainB

end StackGraph

open StackGraph

/-- A graph of stacks, and the memos that its users keep of their merges. -/
structure Arena where
  graph : StackGraph := {}
  memos : Nat → MergeMemo := fun _ => []

namespace Arena

variable {m m' : Arena} {wildcard : Bool} {k k' a b c id : Nat} {A B C : Set (List Nat)}

/-- The graph with one of the memos. -/
def withMemo (m : Arena) (k : Nat) : Stacks :=
  { graph := m.graph, memo := m.memos k }

def push (m : Arena) (parent resume : Nat) : Nat × Arena :=
  let (id, graph) := m.graph.push parent resume
  (id, { m with graph })

/-- Merge two nodes with memo number `k`. -/
def merge (m : Arena) (wildcard : Bool) (k a b : Nat) : Nat × Arena :=
  let (id, s) := (m.withMemo k).merge wildcard a b
  (id, { graph := s.graph, memos := Function.update m.memos k s.memo })

/-- One use of an arena, with memo number `k`. -/
inductive Use (wildcard : Bool) (k : Nat) : Arena → Arena → Prop
  | push {m : Arena} {parent resume : Nat} (known : m.graph.Present parent)
      (isState : resume < noState) : Use wildcard k m (m.push parent resume).2
  | merge {m : Arena} {a b : Nat} (left : m.graph.Present a) (right : m.graph.Present b) :
      Use wildcard k m (m.merge wildcard k a b).2

/-- Any number of uses, with any memos, whose merges all treat the empty stack alike. -/
abbrev Uses (wildcard : Bool) : Arena → Arena → Prop :=
  Relation.ReflTransGen fun m m' => ∃ k, Use wildcard k m m'

/-- What merging sets of stacks comes to. -/
structure Canonical (wildcard : Bool) (m : Arena) : Prop where
  /-- The stacks of a node are the ones that are shown. -/
  shown : ∀ id frames, renderStack frames ∈ m.graph.describe id ↔ frames ∈ m.graph.stackSet id
  /-- None is shown twice. -/
  nodup : ∀ id, (m.graph.describe id).Nodup
  /-- They determine the number. -/
  eq_iff : ∀ {id id'}, m.graph.Present id → m.graph.Present id' →
    (id = id' ↔ m.graph.stackSet id = m.graph.stackSet id')
  /-- A node keeps them. -/
  lasting : ∀ {m' id}, Uses wildcard m m' → m.graph.Present id →
    m'.graph.Present id ∧ m'.graph.stackSet id = m.graph.stackSet id
  /-- A merge joins them. -/
  union : ∀ {k a b}, m.graph.Present a → m.graph.Present b →
    (m.merge wildcard k a b).2.graph.Present (m.merge wildcard k a b).1 ∧
      (m.merge wildcard k a b).2.graph.stackSet (m.merge wildcard k a b).1 =
        join wildcard (m.graph.stackSet a) (m.graph.stackSet b)
  idem : ∀ {k a}, m.graph.Present a → (m.merge wildcard k a a).1 = a
  comm : ∀ {m' k k' a b}, m.graph.Present a → m.graph.Present b →
    Uses wildcard (m.merge wildcard k a b).2 m' →
      (m'.merge wildcard k' b a).1 = (m.merge wildcard k a b).1
  assoc : ∀ {m₁ m₂ m₃ k k₁ k₂ k₃ a b c}, m.graph.Present a → m.graph.Present b → m.graph.Present c →
    Uses wildcard (m.merge wildcard k a b).2 m₁ →
    Uses wildcard (m₁.merge wildcard k₁ (m.merge wildcard k a b).1 c).2 m₂ →
    Uses wildcard (m₂.merge wildcard k₂ b c).2 m₃ →
      (m₃.merge wildcard k₃ a (m₂.merge wildcard k₂ b c).1).1 =
        (m₁.merge wildcard k₁ (m.merge wildcard k a b).1 c).1

section Step

variable {R : StackGraph → Nat → Nat → Nat → Prop}

/-- What one use does to the graph and to the memo that it goes with. -/
structure Does (wildcard : Bool) (R : StackGraph → Nat → Nat → Nat → Prop) (k : Nat) (m m' : Arena) :
    Prop where
  grown : m.graph.Extends m'.graph
  keeps : (m'.withMemo k).Keeps R
  ordered : m.graph.Ordered → m'.graph.Ordered
  apart : wildcard = true → m.graph.EmptyApart → m'.graph.EmptyApart
  others : ∀ {k'}, k' ≠ k → m'.memos k' = m.memos k'

theorem push_does (rule : Stacks.MergeRule wildcard R) (keeps : (m.withMemo k).Keeps R)
    {parent resume : Nat} (known : m.graph.Present parent) (isState : resume < noState) :
    Does wildcard R k m (m.push parent resume).2 := by
  obtain ⟨grown, keeps', ordered, apart⟩ := keeps.push rule known isState
  exact ⟨grown, keeps', ordered, fun _ => apart, fun _ => rfl⟩

theorem merge_does (rule : Stacks.MergeRule wildcard R) (keeps : (m.withMemo k).Keeps R)
    (left : m.graph.Present a) (right : m.graph.Present b) :
    let made := m.merge wildcard k a b
    Does wildcard R k m made.2 ∧ made.2.graph.Present made.1 ∧ R made.2.graph a b made.1 := by
  intro made
  have yields := Stacks.merge_yields rule keeps left right
  have memo : made.2.withMemo k = ((m.withMemo k).merge wildcard a b).2 := by
    simp [made, withMemo, Arena.merge]
  refine ⟨⟨yields.grown, memo ▸ yields.keeps, yields.ordered, yields.apart, fun other => ?_⟩,
    yields.present, yields.related⟩
  exact Function.update_of_ne other _ _

theorem Use.does (use : Use wildcard k m m') (rule : Stacks.MergeRule wildcard R)
    (keeps : (m.withMemo k).Keeps R) : Does wildcard R k m m' := by
  cases use with
  | push known isState => exact push_does rule keeps known isState
  | merge left right => exact (merge_does rule keeps left right).1

/-- The memos that a use does not go with are kept as well. -/
theorem Does.all (does : Does wildcard R k m m') (rule : Stacks.MergeRule wildcard R)
    (keeps : ∀ k, (m.withMemo k).Keeps R) (k' : Nat) : (m'.withMemo k').Keeps R := by
  by_cases same : k' = k
  · rw [same]
    exact does.keeps
  · have memo : m'.withMemo k' = { m.withMemo k' with graph := m'.graph } := by
      rw [withMemo, does.others same, withMemo]
    rw [memo]
    exact (keeps k').grow rule does.grown does.keeps.tidy

end Step

/-- What holds of an arena after any uses that treat the empty stack alike. -/
structure Sane (wildcard : Bool) (m : Arena) : Prop where
  ordered : m.graph.Ordered
  apart : wildcard = true → m.graph.EmptyApart
  keeps : ∀ k, (m.withMemo k).Keeps (Joins wildcard)

theorem Sane.tidy (h : m.Sane wildcard) : m.graph.Tidy :=
  (h.keeps 0).tidy

theorem sane_empty (wildcard : Bool) : Sane wildcard {} where
  ordered := .empty
  apart _ := .empty
  keeps _ := ⟨.empty, fun _ mem => by cases mem⟩

theorem Does.sane (does : Does wildcard (Joins wildcard) k m m') (h : m.Sane wildcard) :
    m'.Sane wildcard where
  ordered := does.ordered h.ordered
  apart wild := does.apart wild (h.apart wild)
  keeps := does.all (mergeRule_join wildcard) h.keeps

/-- Any uses keep an arena sane, and all of its nodes. -/
theorem Sane.uses (h : m.Sane wildcard) (uses : Uses wildcard m m') :
    m'.Sane wildcard ∧ m.graph.Extends m'.graph := by
  induction uses with
  | refl => exact ⟨h, .refl _⟩
  | tail _ use ih =>
      obtain ⟨sane, grown⟩ := ih
      obtain ⟨k, use⟩ := use
      have does := use.does (mergeRule_join wildcard) (sane.keeps k)
      exact ⟨does.sane sane, grown.trans does.grown⟩

/-- The node is there and has these stacks. -/
def Stands (m : Arena) (id : Nat) (A : Set (List Nat)) : Prop :=
  m.graph.Present id ∧ m.graph.stackSet id = A

theorem Sane.lasting (h : m.Sane wildcard) (uses : Uses wildcard m m') (stands : m.Stands id A) :
    m'.Stands id A := by
  have grown := (h.uses uses).2
  exact ⟨stands.1.mono grown, (stands.1.stackSet_eq h.tidy grown).trans stands.2⟩

theorem Sane.stands_merge (h : m.Sane wildcard) (k : Nat) (left : m.Stands a A) (right : m.Stands b B) :
    Uses wildcard m (m.merge wildcard k a b).2 ∧
      (m.merge wildcard k a b).2.Stands (m.merge wildcard k a b).1 (join wildcard A B) := by
  obtain ⟨does, present, joins⟩ := merge_does (mergeRule_join wildcard) (h.keeps k) left.1 right.1
  have sane := does.sane h
  have free (wild : wildcard = true) := prefixFree_stackSet sane.tidy sane.ordered (sane.apart wild)
  have joined := joins sane.ordered fun wild => ⟨free wild a, free wild b⟩
  rw [left.1.stackSet_eq h.tidy does.grown, right.1.stackSet_eq h.tidy does.grown, left.2, right.2]
    at joined
  exact ⟨.single ⟨k, .merge left.1 right.1⟩, present, joined⟩

/-- A node with the stacks that a merge joins is the one that it answers with. -/
theorem Sane.merge_eq (h : m.Sane wildcard) (left : m.Stands a A) (right : m.Stands b B)
    (result : m.Stands id (join wildcard A B)) : (m.merge wildcard k a b).1 = id := by
  obtain ⟨use, made⟩ := h.stands_merge k left right
  have sane := (h.uses use).1
  have kept := h.lasting use result
  exact eq_of_stackSet sane.tidy sane.ordered made.1 kept.1 (made.2.trans kept.2.symm)

theorem Sane.idem (h : m.Sane wildcard) (present : m.graph.Present a) :
    (m.merge wildcard k a a).1 = a := by
  have free (wild : wildcard = true) := prefixFree_stackSet h.tidy h.ordered (h.apart wild) a
  exact h.merge_eq ⟨present, rfl⟩ ⟨present, rfl⟩ ⟨present, (join_self free).symm⟩

theorem Sane.comm (h : m.Sane wildcard) (left : m.Stands a A) (right : m.Stands b B)
    (uses : Uses wildcard (m.merge wildcard k a b).2 m') :
    (m'.merge wildcard k' b a).1 = (m.merge wildcard k a b).1 := by
  obtain ⟨use, made⟩ := h.stands_merge k left right
  have sane := (h.uses use).1
  have all := use.trans uses
  have made := sane.lasting uses made
  rw [join_comm] at made
  exact (h.uses all).1.merge_eq (h.lasting all right) (h.lasting all left) made

theorem Sane.assoc {m₁ m₂ m₃ : Arena} {k₁ k₂ k₃ : Nat} (h : m.Sane wildcard) (ha : m.Stands a A)
    (hb : m.Stands b B) (hc : m.Stands c C) (uses : Uses wildcard (m.merge wildcard k a b).2 m₁)
    (uses₁ : Uses wildcard (m₁.merge wildcard k₁ (m.merge wildcard k a b).1 c).2 m₂)
    (uses₂ : Uses wildcard (m₂.merge wildcard k₂ b c).2 m₃) :
    (m₃.merge wildcard k₃ a (m₂.merge wildcard k₂ b c).1).1 =
      (m₁.merge wildcard k₁ (m.merge wildcard k a b).1 c).1 := by
  obtain ⟨use, ab⟩ := h.stands_merge k ha hb
  have ab := (h.uses use).1.lasting uses ab
  have to₁ := use.trans uses
  have sane₁ := (h.uses to₁).1
  obtain ⟨use₁, abc⟩ := sane₁.stands_merge k₁ ab (h.lasting to₁ hc)
  have abc := (sane₁.uses use₁).1.lasting uses₁ abc
  have to₂ := to₁.trans (use₁.trans uses₁)
  have sane₂ := (h.uses to₂).1
  obtain ⟨use₂, bc⟩ := sane₂.stands_merge k₂ (h.lasting to₂ hb) (h.lasting to₂ hc)
  have bc := (sane₂.uses use₂).1.lasting uses₂ bc
  have abc := sane₂.lasting (use₂.trans uses₂) abc
  have to₃ := to₂.trans (use₂.trans uses₂)
  rw [join_assoc] at abc
  exact (h.uses to₃).1.merge_eq (h.lasting to₃ ha) bc abc

theorem Sane.canonical (h : m.Sane wildcard) : m.Canonical wildcard where
  shown _ _ := mem_describe
  nodup := h.tidy.nodup_describe h.ordered
  eq_iff left right := ⟨fun same => congrArg _ same, eq_of_stackSet h.tidy h.ordered left right⟩
  lasting uses present := h.lasting uses ⟨present, rfl⟩
  union {k _ _} left right := (h.stands_merge k ⟨left, rfl⟩ ⟨right, rfl⟩).2
  idem present := h.idem present
  comm left right := h.comm ⟨left, rfl⟩ ⟨right, rfl⟩
  assoc ha hb hc := h.assoc ⟨ha, rfl⟩ ⟨hb, rfl⟩ ⟨hc, rfl⟩

/-- After any uses of an empty arena, merging stacks joins their sets, and equal sets have equal
numbers. -/
theorem canonical_of_uses (uses : Uses wildcard {} m) : m.Canonical wildcard :=
  ((sane_empty wildcard).uses uses).1.canonical

example :
    let pushed := ((push {} 0 5).2.push 0 6).2
    let made := pushed.merge false 1 0 2
    made.2.graph.describe made.1 = ["[6 $]", "[$]"] := by
  decide +kernel

/-- Two stacks of one frame and the empty stack beside one of them, with two memos. -/
theorem canonical_of_uses_beside :
    let pushed := ((push {} 0 5).2.push 0 6).2
    Uses false {} (pushed.merge false 1 0 2).2 ∧ (pushed.merge false 1 0 2).2.Canonical false := by
  intro pushed
  have first : Use false 0 {} (push {} 0 5).2 := .push present_zero (by decide)
  have second : Use false 0 (push {} 0 5).2 pushed := .push present_zero (by decide)
  have third : Use false 1 pushed (pushed.merge false 1 0 2).2 := by
    apply Use.merge present_zero
    right
    decide +kernel
  have uses : Uses false {} (pushed.merge false 1 0 2).2 :=
    ((Relation.ReflTransGen.single ⟨0, first⟩).tail ⟨0, second⟩).tail ⟨1, third⟩
  exact ⟨uses, canonical_of_uses uses⟩

end Arena

end AdaptiveLL
