import AdaptiveLL.Proofs.Json.Text
import AdaptiveLL.Proofs.Prediction.Merge
import Mathlib.Data.List.Nodup
import Mathlib.Data.Set.Lattice
/-!
The set of stacks of a node. It is read off the ways on from the node, it lasts while the graph
grows, and where all nodes have their ways on in order, it determines the node: equal sets of
stacks have equal numbers, and no stack is listed twice.
-/
namespace AdaptiveLL.StackGraph

variable {g g' : StackGraph} {id id' : Nat} {e e' : Nat × Nat} {es es' : List (Nat × Nat)}
  {frames : List Nat}

/-- The stacks of a node, innermost frame first. -/
def stackSet (g : StackGraph) (id : Nat) : Set (List Nat) :=
  { frames | frames ∈ g.stackList id }

/-- The stacks that take this way on. -/
def way (g : StackGraph) (e : Nat × Nat) : Set (List Nat) :=
  if e.2 = noState then {[]} else (e.2 :: ·) '' g.stackSet e.1

/-- The stacks that take one of these ways on. -/
def through (g : StackGraph) (es : List (Nat × Nat)) : Set (List Nat) :=
  { frames | ∃ e ∈ es, frames ∈ g.way e }

@[simp] theorem through_nil : g.through [] = ∅ := by
  ext frames
  simp [through]

@[simp] theorem through_cons : g.through (e :: es) = g.way e ∪ g.through es := by
  ext frames
  simp [through]

theorem through_append : g.through (es ++ es') = g.through es ∪ g.through es' := by
  induction es with
  | nil => simp
  | cons e es ih => rw [List.cons_append, through_cons, through_cons, ih, Set.union_assoc]

theorem mem_way (isState : e.2 ≠ noState) :
    frames ∈ g.way e ↔ ∃ below ∈ g.stackSet e.1, frames = e.2 :: below := by
  rw [way, if_neg isState, Set.mem_image]
  simp only [eq_comm]

/-- A way on that returns to a state is one of a node with a number, and leads to an older node. -/
theorem Tidy.older_of_resume (tidy : g.Tidy) (mem : e ∈ (g.node id).entries) (isState : e.2 ≠ noState) :
    e.1 < id ∧ g.Present e.1 := by
  apply tidy.older id ?_ e mem
  intro none
  rw [none, StackNode.entries, List.mem_singleton] at mem
  exact isState (congrArg Prod.snd mem)

/-- A node has some way on. -/
theorem Tidy.entries_ne_nil (tidy : g.Tidy) (id : Nat) : (g.node id).entries ≠ [] := by
  intro none
  have built := tidy.built id
  rw [none, StackNode.ofEntries] at built
  rw [built, StackNode.entries] at none
  cases none

/-- Any depth beyond the number of the node shows all of its stacks. -/
theorem Tidy.stacksWithin_eq (tidy : g.Tidy) {depth depth' : Nat} (deep : id < depth)
    (deep' : id < depth') : g.stacksWithin depth id = g.stacksWithin depth' id := by
  induction depth generalizing id depth' with
  | zero => exact absurd deep (Nat.not_lt_zero id)
  | succ depth ih =>
      obtain ⟨depth', rfl⟩ : ∃ d, depth' = d + 1 := ⟨depth' - 1, by omega⟩
      rw [stacksWithin, stacksWithin]
      apply List.flatMap_congr
      intro e mem
      by_cases bottom : e.2 = noState
      · simp only [if_pos bottom]
      · have older := (tidy.older_of_resume mem bottom).1
        have same : g.stacksWithin depth e.1 = g.stacksWithin depth' e.1 := ih (by omega) (by omega)
        simp only [if_neg bottom, same]

theorem Tidy.stackList_eq (tidy : g.Tidy) (id : Nat) :
    g.stackList id = (g.node id).entries.flatMap fun e =>
      if e.2 = noState then [[]] else (g.stackList e.1).map (e.2 :: ·) := by
  rw [stackList, stacksWithin]
  apply List.flatMap_congr
  intro e mem
  by_cases bottom : e.2 = noState
  · simp only [if_pos bottom]
  · have older := (tidy.older_of_resume mem bottom).1
    have same := tidy.stacksWithin_eq older (Nat.lt_succ_self e.1)
    simp only [if_neg bottom, same, stackList]

/-- The stacks of a node are those that take one of its ways on. -/
theorem Tidy.stackSet_eq (tidy : g.Tidy) (id : Nat) :
    g.stackSet id = g.through (g.node id).entries := by
  ext frames
  simp only [stackSet, through, way, Set.mem_ofPred_eq, tidy.stackList_eq id, List.mem_flatMap]
  apply exists_congr
  intro e
  apply and_congr_right
  intro _
  by_cases bottom : e.2 = noState
  · simp [bottom]
  · simp [bottom]

@[simp] theorem stackSet_zero (g : StackGraph) : g.stackSet 0 = {[]} := by
  ext frames
  simp [stackSet, stackList, stacksWithin, StackNode.entries]

theorem Tidy.stackSet_nonempty (tidy : g.Tidy) (id : Nat) : (g.stackSet id).Nonempty := by
  induction id using Nat.strong_induction_on with
  | _ id ih =>
      obtain ⟨e, mem⟩ := List.exists_mem_of_ne_nil _ (tidy.entries_ne_nil id)
      rw [tidy.stackSet_eq]
      by_cases bottom : e.2 = noState
      · exact ⟨[], e, mem, by simp [way, bottom]⟩
      · obtain ⟨frames, inside⟩ := ih e.1 (tidy.older_of_resume mem bottom).1
        exact ⟨e.2 :: frames, e, mem, (mem_way bottom).2 ⟨frames, inside, rfl⟩⟩

/-- New nodes do not change the stacks of old ones. -/
theorem Present.stackList_eq (present : g.Present id) (tidy : g.Tidy) (grown : g.Extends g') :
    g'.stackList id = g.stackList id := by
  suffices ∀ depth id, g.Present id → g'.stacksWithin depth id = g.stacksWithin depth id from
    this _ _ present
  intro depth
  induction depth with
  | zero => exact fun _ _ => rfl
  | succ depth ih =>
      intro id present
      rw [stacksWithin, stacksWithin, present.node_eq grown]
      apply List.flatMap_congr
      intro e mem
      have below := ih e.1 (tidy.entries_present id e mem)
      simp only [below]

theorem Present.stackSet_eq (present : g.Present id) (tidy : g.Tidy) (grown : g.Extends g') :
    g'.stackSet id = g.stackSet id := by
  rw [stackSet, present.stackList_eq tidy grown, stackSet]

/-- The node for a list of ways on. -/
theorem Is.stackSet_eq (is : g.Is (.ofEntries es) id) (tidy : g.Tidy) (some : es ≠ []) :
    g.stackSet id = g.through es := by
  rw [tidy.stackSet_eq, is.2, StackNode.entries_ofEntries some]

/-- A node that stands for one stack. -/
theorem Holds.stackSet_eq (tidy : g.Tidy) (h : g.Holds id frames) : g.stackSet id = {frames} := by
  induction h with
  | empty => simp
  | @frame id parent resume frames node isState _ ih =>
      rw [tidy.stackSet_eq, node, StackNode.entries, through_cons, through_nil, way, if_neg isState, ih]
      simp

/-! ### Equal sets, equal numbers -/

/-- Ways on in order that return to the same state are one. -/
theorem Ascending.eq_of_resume (h : Ascending es) (mem : e ∈ es) (mem' : e' ∈ es)
    (same : e.2 = e'.2) : e = e' := by
  have resumes : (es.map Prod.snd).Nodup :=
    List.pairwise_map.2 (h.sorted.imp fun lt => Nat.ne_of_lt lt)
  exact List.inj_on_of_nodup_map resumes mem mem' same

theorem Ascending.nodup (h : Ascending es) : es.Nodup :=
  h.sorted.imp fun lt same => Nat.ne_of_lt lt (congrArg Prod.snd same)

/-- The frames below a return state, where the ways on are in order. -/
theorem Ascending.cons_mem_through (h : Ascending es) (mem : e ∈ es) (isState : e.2 ≠ noState) :
    e.2 :: frames ∈ g.through es ↔ frames ∈ g.stackSet e.1 := by
  constructor
  · rintro ⟨e', mem', inside⟩
    by_cases bottom : e'.2 = noState
    · rw [way, if_pos bottom] at inside
      cases inside
    · obtain ⟨below, inside, eq⟩ := (mem_way bottom).1 inside
      obtain ⟨same, rfl⟩ := List.cons.inj eq
      rwa [h.eq_of_resume mem mem' same]
  · intro inside
    exact ⟨e, mem, (mem_way isState).2 ⟨frames, inside, rfl⟩⟩

/-- A way on to the stacks of a list that returns as one of the list does is on the list. -/
theorem Ascending.mem_of_through (h : Ascending es) (h' : Ascending es') (mem : e ∈ es)
    (tidy : g.Tidy) (same : g.through es = g.through es')
    (parents : ∀ e' ∈ es', e'.2 = e.2 → g.stackSet e.1 = g.stackSet e'.1 → e.1 = e'.1) : e ∈ es' := by
  by_cases bottom : e.2 = noState
  · -- The empty stack has one way on.
    have inside : [] ∈ g.through es := ⟨e, mem, by simp [way, bottom]⟩
    rw [same] at inside
    obtain ⟨e', mem', inside⟩ := inside
    have bottom' : e'.2 = noState := by
      by_contra isState
      obtain ⟨_, _, eq⟩ := (mem_way isState).1 inside
      cases eq
    have lone (e : Nat × Nat) (proper : e.2 < noState ∨ e = (0, noState)) (bottom : e.2 = noState) :
        e = (0, noState) :=
      proper.resolve_left (bottom ▸ Nat.lt_irrefl _)
    rw [lone e (h.proper e mem) bottom, ← lone e' (h'.proper e' mem') bottom']
    exact mem'
  · obtain ⟨frames, inside⟩ := tidy.stackSet_nonempty e.1
    obtain ⟨e', mem', inside'⟩ := same ▸ (h.cons_mem_through mem bottom).2 inside
    have isState : e'.2 ≠ noState := by
      intro bottom'
      rw [way, if_pos bottom'] at inside'
      cases inside'
    obtain ⟨_, _, eq⟩ := (mem_way isState).1 inside'
    have resume : e'.2 = e.2 := (List.cons.inj eq).1.symm
    have below : g.stackSet e.1 = g.stackSet e'.1 := by
      ext frames
      rw [← h.cons_mem_through mem bottom, same, ← resume, h'.cons_mem_through mem' isState]
    have eq : e = e' := Prod.ext (parents e' mem' resume below) resume.symm
    rwa [eq]

/-- Nodes with the same stacks are one node. -/
theorem eq_of_stackSet (tidy : g.Tidy) (ordered : g.Ordered) (left : g.Present id)
    (right : g.Present id') (same : g.stackSet id = g.stackSet id') : id = id' := by
  induction id using Nat.strong_induction_on generalizing id' with
  | _ id ih =>
      rw [tidy.stackSet_eq, tidy.stackSet_eq] at same
      have parents {e e' : Nat × Nat} (mem : e ∈ (g.node id).entries) (mem' : e' ∈ (g.node id').entries)
          (resume : e.2 = e'.2) (below : g.stackSet e.1 = g.stackSet e'.1) : e.1 = e'.1 := by
        by_cases bottom : e.2 = noState
        · have first := ((ordered id).proper e mem).resolve_left (bottom ▸ Nat.lt_irrefl _)
          have second := ((ordered id').proper e' mem').resolve_left
            (resume ▸ bottom ▸ Nat.lt_irrefl _)
          rw [first, second]
        · have older := tidy.older_of_resume mem bottom
          exact ih e.1 older.1 older.2 (tidy.entries_present id' e' mem') below
      have members (e : Nat × Nat) : e ∈ (g.node id).entries ↔ e ∈ (g.node id').entries := by
        constructor
        · intro mem
          exact (ordered id).mem_of_through (ordered id') mem tidy same
            fun e' mem' resume => parents mem mem' resume.symm
        · intro mem
          exact (ordered id').mem_of_through (ordered id) mem tidy same.symm
            fun e' mem' resume below => (parents mem' mem resume below.symm).symm
      have perm := (List.perm_ext_iff_of_nodup (ordered id).nodup (ordered id').nodup).2 members
      have entries : (g.node id).entries = (g.node id').entries := by
        refine perm.eq_of_pairwise (fun e e' _ _ lt lt' => ?_) (ordered id).sorted (ordered id').sorted
        exact absurd lt (Nat.lt_asymm lt')
      have is := tidy.is_ofEntries left
      rw [entries] at is
      exact is.unique tidy.distinct (tidy.is_ofEntries right)

/-- No stack is listed twice. -/
theorem Tidy.nodup_stackList (tidy : g.Tidy) (ordered : g.Ordered) (id : Nat) :
    (g.stackList id).Nodup := by
  induction id using Nat.strong_induction_on with
  | _ id ih =>
      rw [tidy.stackList_eq, List.nodup_flatMap]
      constructor
      · intro e mem
        by_cases bottom : e.2 = noState
        · rw [if_pos bottom]
          exact List.nodup_singleton _
        · rw [if_neg bottom]
          exact (ih e.1 (tidy.older_of_resume mem bottom).1).map fun _ _ eq => (List.cons.inj eq).2
      · refine (ordered id).sorted.imp fun {e e'} lt frames inside inside' => ?_
        -- The stacks of one way on begin with its return state.
        have head (e : Nat × Nat) (inside : frames ∈ (if e.2 = noState then [[]]
            else (g.stackList e.1).map (e.2 :: ·))) : frames.head?.getD noState = e.2 := by
          split at inside
          case isTrue bottom =>
              rw [List.mem_singleton.1 inside, bottom]
              rfl
          case isFalse =>
              obtain ⟨_, _, rfl⟩ := List.mem_map.1 inside
              rfl
        have same := (head e inside).symm.trans (head e' inside')
        exact Nat.ne_of_lt lt same

/-! ### How stacks are shown -/

/-- Digits end before a blank. -/
theorem digits_blank_inj {m n : Nat} {cs ds : List Char}
    (same : Nat.toDigits 10 m ++ ' ' :: cs = Nat.toDigits 10 n ++ ' ' :: ds) : m = n ∧ cs = ds := by
  have digits (k : Nat) (cs : List Char) :
      (Nat.toDigits 10 k ++ ' ' :: cs).takeWhile Char.isDigit = Nat.toDigits 10 k := by
    rw [List.takeWhile_append_of_pos fun c => Json.isDigit_of_mem_toDigits]
    simp
  have front := congrArg (List.takeWhile Char.isDigit) same
  rw [digits, digits] at front
  have value := congrArg Json.digitsValue front
  rw [Json.digitsValue_toDigits, Json.digitsValue_toDigits] at value
  rw [value] at same
  exact ⟨value, (List.cons.inj (List.append_cancel_left same)).2⟩

/-- Stacks that are shown alike are one. -/
theorem renderStack_injective : Function.Injective renderStack := by
  have chars (frames : List Nat) : (renderStack frames).toList =
      '[' :: (frames.flatMap fun r => Nat.toDigits 10 r ++ [' ']) ++ ['$', ']'] := by
    rw [renderStack, String.toList_append, String.toList_append, String.toList_join]
    simp [List.flatMap_map]
  intro frames frames' same
  replace same := congrArg String.toList same
  rw [chars, chars] at same
  replace same := (List.cons.inj (List.append_cancel_right same)).2
  induction frames generalizing frames' with
  | nil =>
    cases frames' with
    | nil => rfl
    | cons r rest => simp at same
  | cons r rest ih =>
    cases frames' with
    | nil => simp at same
    | cons r' rest' =>
      simp only [List.flatMap_cons, List.append_assoc, List.cons_append, List.nil_append] at same
      obtain ⟨rfl, rest⟩ := digits_blank_inj same
      rw [ih rest]

theorem mem_describe : renderStack frames ∈ g.describe id ↔ frames ∈ g.stackSet id := by
  rw [describe, List.mem_map_of_injective renderStack_injective]
  rfl

theorem Tidy.nodup_describe (tidy : g.Tidy) (ordered : g.Ordered) (id : Nat) :
    (g.describe id).Nodup :=
  List.Nodup.map renderStack_injective (tidy.nodup_stackList ordered id)

end AdaptiveLL.StackGraph
