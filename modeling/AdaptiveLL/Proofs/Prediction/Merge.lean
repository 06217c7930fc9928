import AdaptiveLL.Prediction.Configuration
import AdaptiveLL.Proofs.Prediction.StackGraph
/-!
Merges of stacks. What a merge answers is related to its two operands by every relation that
obeys the rules by which the merge goes on to the parents, if the memo keeps to that relation.
Where the empty stack is a wildcard, the merge of two nodes is determined by the nodes alone.
-/
namespace AdaptiveLL

theorem mem_of_lookup {α β : Type} [BEq α] [LawfulBEq α] {entries : List (α × β)} {key : α} {b : β}
    (found : entries.lookup key = some b) : (key, b) ∈ entries := by
  obtain ⟨newer, older, rfl, -⟩ := List.lookup_eq_some_iff.1 found
  simp

namespace StackNode

/-- The node with these ways on. -/
def ofEntries : List (Nat × Nat) → StackNode
  | [] => .empty
  | [(parent, resume)] => if resume = noState ∧ parent = 0 then .empty else .frame parent resume
  | es => .branch es

/-- A node has the entries that it was made of. -/
theorem entries_ofEntries {es : List (Nat × Nat)} (some : es ≠ []) : (ofEntries es).entries = es := by
  match es with
  | [] => exact absurd rfl some
  | [(parent, resume)] =>
      rw [ofEntries]
      split
      case isTrue empty => rw [empty.1, empty.2, entries]
      case isFalse => rfl
  | _ :: _ :: _ => rfl

/-- A node that is no branch has one way on. -/
theorem entries_of_unbranched {node : StackNode} (h : node.isBranch = false) :
    ∃ e, node.entries = [e] := by
  cases node with
  | empty => exact ⟨_, rfl⟩
  | frame parent resume => exact ⟨_, rfl⟩
  | branch => cases h

end StackNode

namespace StackGraph

open StackNode (ofEntries)

variable {g g' : StackGraph} {node : StackNode} {a b id id' : Nat}

theorem ofEntries_eq (es : List (Nat × Nat)) : g.ofEntries es = g.intern (.ofEntries es) := by
  match es with
  | [] => rfl
  | [(parent, resume)] =>
      rw [StackGraph.ofEntries, push, StackNode.ofEntries]
      split <;> rfl
  | _ :: _ :: _ => rfl

theorem push_eq (parent resume : Nat) :
    g.push parent resume = g.intern (.ofEntries [(parent, resume)]) :=
  ofEntries_eq [(parent, resume)]

/-- There is a node with this number. -/
def Present (g : StackGraph) (id : Nat) : Prop :=
  id = 0 ∨ g.node id ≠ .empty

theorem present_zero : g.Present 0 :=
  .inl rfl

theorem Present.empty (h : g.Present id) (node : g.node id = .empty) : id = 0 :=
  h.resolve_right fun some => some node

theorem Present.some (h : g.Present id) (ne : id ≠ 0) : g.node id ≠ .empty :=
  h.resolve_left ne

theorem Present.node_eq (h : g.Present id) (grown : g.Extends g') : g'.node id = g.node id := by
  rcases h with rfl | some
  · rfl
  · exact grown.keeps some

theorem Present.mono (h : g.Present id) (grown : g.Extends g') : g'.Present id := by
  rcases h with rfl | some
  · exact present_zero
  · exact .inr (grown.keeps some ▸ some)

/-- Numbers of nodes do not exceed the number of nodes. -/
theorem Present.le_size (h : g.Present id) : id ≤ g.nodes.size := by
  rcases h with rfl | some
  · exact Nat.zero_le _
  · cases id with
    | zero => exact Nat.zero_le _
    | succ k =>
        by_contra beyond
        refine some ?_
        rw [StackGraph.node, Array.getElem?_eq_none (by omega), Option.getD_none]

/-- No two nodes are equal, each is built from its ways on, and these lead to older nodes. -/
structure Tidy (g : StackGraph) : Prop where
  distinct : g.Distinct
  built : ∀ id, g.node id = .ofEntries (g.node id).entries
  older : ∀ id, g.node id ≠ .empty → ∀ e ∈ (g.node id).entries, e.1 < id ∧ g.Present e.1

theorem Tidy.empty : Tidy {} where
  distinct id _ _ present := by cases id <;> exact absurd rfl present
  built id := by cases id <;> rfl
  older id present := by cases id <;> exact absurd rfl present

theorem Tidy.entries_present (tidy : g.Tidy) (id : Nat) : ∀ e ∈ (g.node id).entries, g.Present e.1 := by
  intro e mem
  by_cases some : g.node id = .empty
  · rw [some, StackNode.entries, List.mem_singleton] at mem
    rw [mem]
    exact present_zero
  · exact (tidy.older id some e mem).2

theorem Tidy.entry_le (tidy : g.Tidy) (present : g.Present id) {e : Nat × Nat}
    (mem : e ∈ (g.node id).entries) : e.1 ≤ id ∧ (id ≠ 0 → e.1 < id) := by
  rcases present with rfl | some
  · rw [node_zero, StackNode.entries, List.mem_singleton] at mem
    exact ⟨Nat.le_of_eq (congrArg Prod.fst mem), fun ne => absurd rfl ne⟩
  · have lt := (tidy.older id some e mem).1
    exact ⟨Nat.le_of_lt lt, fun _ => lt⟩

/-- The number is that of the node. -/
def Is (g : StackGraph) (node : StackNode) (id : Nat) : Prop :=
  g.Present id ∧ g.node id = node

theorem Is.unique (distinct : g.Distinct) (h : g.Is node id) (h' : g.Is node id') : id = id' := by
  by_cases empty : node = .empty
  · rw [h.1.empty (h.2.trans empty), h'.1.empty (h'.2.trans empty)]
  · exact distinct _ _ (h.2.trans h'.2.symm) fun none => empty (h.2.symm.trans none)

theorem Is.mono (h : g.Is node id) (grown : g.Extends g') : g'.Is node id :=
  ⟨h.1.mono grown, (h.1.node_eq grown).trans h.2⟩

theorem Tidy.is_ofEntries (tidy : g.Tidy) (present : g.Present id) :
    g.Is (.ofEntries (g.node id).entries) id :=
  ⟨present, tidy.built id⟩

/-- Interning a node leaves the others as they are. -/
theorem node_intern (es : List (Nat × Nat)) (id : Nat) :
    let made := g.intern (.ofEntries es)
    made.2.node id = g.node id ∨ id = g.nodes.size + 1 ∧ made.2.node id = .ofEntries es := by
  intro made
  simp only [made, intern]
  split
  case isTrue => exact .inl rfl
  case isFalse =>
      split
      case h_1 => exact .inl rfl
      case h_2 =>
          rw [node_push]
          split
          case isTrue new => exact .inr ⟨new, rfl⟩
          case isFalse => exact .inl rfl

/-- Interning a node with ways to nodes that are there keeps the graph tidy. -/
theorem intern_tidy {es : List (Nat × Nat)} (tidy : g.Tidy) (known : ∀ e ∈ es, g.Present e.1) :
    let made := g.intern (.ofEntries es)
    g.Extends made.2 ∧ made.2.Tidy ∧ made.2.Is (.ofEntries es) made.1 := by
  intro made
  by_cases empty : StackNode.ofEntries es = .empty
  · have same : made = (0, g) := by simp only [made, intern, if_pos empty]
    rw [same, empty]
    exact ⟨.refl g, tidy, present_zero, rfl⟩
  have some : es ≠ [] := fun none => empty (none ▸ rfl)
  obtain ⟨here, grown⟩ := intern_spec (g := g) empty
  refine ⟨grown, ?_, .inr (fun none => empty (here.symm.trans none)), here⟩
  refine ⟨grown.distinct tidy.distinct, fun id => ?_, fun id present e mem => ?_⟩
  · rcases node_intern (g := g) es id with old | ⟨-, new⟩
    · rw [old]
      exact tidy.built id
    · rw [new, StackNode.entries_ofEntries some]
  · rcases node_intern (g := g) es id with old | ⟨rfl, new⟩
    · rw [old] at present mem
      obtain ⟨lt, known⟩ := tidy.older id present e mem
      exact ⟨lt, known.mono grown⟩
    · rw [new, StackNode.entries_ofEntries some] at mem
      exact ⟨Nat.lt_succ_of_le (known e mem).le_size, (known e mem).mono grown⟩

/-- Ways on in the order of their return states. The empty stack, which returns to no state,
comes last. -/
structure Ascending (es : List (Nat × Nat)) : Prop where
  sorted : es.Pairwise fun e e' => e.2 < e'.2
  proper : ∀ e ∈ es, e.2 < noState ∨ e = (0, noState)

theorem Ascending.single {e : Nat × Nat} (proper : e.2 < noState ∨ e = (0, noState)) :
    Ascending [e] where
  sorted := List.pairwise_singleton _ _
  proper e' mem := by
    rw [List.mem_singleton.1 mem]
    exact proper

theorem Ascending.tail {e : Nat × Nat} {es : List (Nat × Nat)} (h : Ascending (e :: es)) :
    Ascending es where
  sorted := (List.pairwise_cons.1 h.sorted).2
  proper e' mem := h.proper e' (.tail _ mem)

/-- Every node has its ways on in order. -/
def Ordered (g : StackGraph) : Prop :=
  ∀ id, Ascending (g.node id).entries

theorem ascending_empty : Ascending StackNode.empty.entries :=
  .single (.inr rfl)

theorem Ordered.empty : Ordered {} := by
  intro id
  cases id <;> exact ascending_empty

/-- An older graph had no other nodes. -/
theorem Ordered.before (h : g'.Ordered) (grown : g.Extends g') : g.Ordered := by
  intro id
  by_cases none : g.node id = .empty
  · rw [none]
    exact ascending_empty
  · rw [← grown.keeps none]
    exact h id

/-- A node with ascending entries keeps the graph ordered. -/
theorem Ordered.intern {es : List (Nat × Nat)} (h : g.Ordered) (ascending : Ascending es) :
    (g.intern (.ofEntries es)).2.Ordered := by
  intro id
  rcases node_intern (g := g) es id with old | ⟨-, new⟩
  · rw [old]
    exact h id
  · rw [new]
    by_cases none : es = []
    · rw [none]
      exact ascending_empty
    · rwa [StackNode.entries_ofEntries none]

/-- No node has the empty stack beside others. -/
def EmptyApart (g : StackGraph) : Prop :=
  ∀ id, g.node id ≠ .empty → ∀ e ∈ (g.node id).entries, e.2 ≠ noState

theorem EmptyApart.empty : EmptyApart {} := by
  intro id some
  cases id <;> exact absurd rfl some

/-- A node without an empty stack of its own keeps the empty stack apart. -/
theorem EmptyApart.intern {es : List (Nat × Nat)} (h : g.EmptyApart) (states : ∀ e ∈ es, e.2 ≠ noState) :
    (g.intern (.ofEntries es)).2.EmptyApart := by
  intro id some e mem
  rcases node_intern (g := g) es id with old | ⟨-, new⟩
  · rw [old] at some mem
    exact h id some e mem
  · rw [new] at some mem
    have entries : es ≠ [] := fun none => some (none ▸ rfl)
    rw [StackNode.entries_ofEntries entries] at mem
    exact states e mem

/-- Putting frames on a stack, one on top of the other, keeps the graph tidy. -/
theorem Tidy.ofReturns (tidy : g.Tidy) (returns : List Nat) :
    let made := g.ofReturns returns
    g.Extends made.2 ∧ made.2.Tidy ∧ made.2.Present made.1 := by
  suffices ∀ (top : Nat) (g : StackGraph), g.Tidy → g.Present top →
      let made := returns.foldl (fun made resume => made.2.push made.1 resume) (top, g)
      g.Extends made.2 ∧ made.2.Tidy ∧ made.2.Present made.1 from this 0 g tidy present_zero
  induction returns with
  | nil => exact fun top g tidy present => ⟨.refl g, tidy, present⟩
  | cons resume returns ih =>
      intro top g tidy present
      have known : ∀ e ∈ [(top, resume)], g.Present e.1 := by
        intro e mem
        rwa [List.mem_singleton.1 mem]
      obtain ⟨grown, tidy, is⟩ := intern_tidy tidy known
      rw [← push_eq] at grown tidy is
      obtain ⟨grown', tidy, present⟩ := ih _ _ tidy is.1
      exact ⟨grown.trans grown', tidy, present⟩

/-- Two ascending lists of ways on, put together; `R` relates two parents to what becomes of
them. -/
inductive Zips (R : Nat → Nat → Nat → Prop) :
    List (Nat × Nat) → List (Nat × Nat) → List (Nat × Nat) → Prop
  | left (bs : List (Nat × Nat)) : Zips R [] bs bs
  | right (as : List (Nat × Nat)) : Zips R as [] as
  | both {pa pb parent resume : Nat} {as bs es : List (Nat × Nat)} (merged : R pa pb parent)
      (rest : Zips R as bs es) :
      Zips R ((pa, resume) :: as) ((pb, resume) :: bs) ((parent, resume) :: es)
  | first {pa pb ra rb : Nat} {as bs es : List (Nat × Nat)} (lt : ra < rb)
      (rest : Zips R as ((pb, rb) :: bs) es) :
      Zips R ((pa, ra) :: as) ((pb, rb) :: bs) ((pa, ra) :: es)
  | second {pa pb ra rb : Nat} {as bs es : List (Nat × Nat)} (lt : rb < ra)
      (rest : Zips R ((pa, ra) :: as) bs es) :
      Zips R ((pa, ra) :: as) ((pb, rb) :: bs) ((pb, rb) :: es)

namespace Zips

variable {R R' : Nat → Nat → Nat → Prop} {as bs es es' : List (Nat × Nat)}

/-- Only the parents that occur matter. -/
theorem imp (h : Zips R as bs es)
    (weaker : ∀ ea ∈ as, ∀ eb ∈ bs, ∀ p, R ea.1 eb.1 p → R' ea.1 eb.1 p) : Zips R' as bs es := by
  induction h with
  | left bs => exact .left bs
  | right as => exact .right as
  | both merged _ ih =>
      refine .both (weaker _ (.head _) _ (.head _) _ merged) (ih fun ea ha eb hb => ?_)
      exact weaker ea (.tail _ ha) eb (.tail _ hb)
  | first lt _ ih => exact .first lt (ih fun ea ha eb hb => weaker ea (.tail _ ha) eb hb)
  | second lt _ ih => exact .second lt (ih fun ea ha eb hb => weaker ea ha eb (.tail _ hb))

theorem swap (h : Zips R as bs es) (symm : ∀ {a b p}, R a b p → R' b a p) : Zips R' bs as es := by
  induction h with
  | left bs => exact .right bs
  | right as => exact .left as
  | both merged _ ih => exact .both (symm merged) ih
  | first lt _ ih => exact .second lt ih
  | second lt _ ih => exact .first lt ih

theorem unique (h : Zips R as bs es) (h' : Zips R' as bs es')
    (same : ∀ {a b p p'}, R a b p → R' a b p' → p = p') : es = es' := by
  induction h generalizing es' with
  | left bs =>
      cases h' with
      | left => rfl
      | right => rfl
  | right as =>
      cases h' with
      | left => rfl
      | right => rfl
  | both merged _ ih =>
      cases h' with
      | both merged' rest' => rw [same merged merged', ih rest']
      | first lt => exact absurd lt (Nat.lt_irrefl _)
      | second lt => exact absurd lt (Nat.lt_irrefl _)
  | first lt _ ih =>
      cases h' with
      | both => exact absurd lt (Nat.lt_irrefl _)
      | first _ rest' => rw [ih rest']
      | second lt' => exact absurd lt (Nat.lt_asymm lt')
  | second lt _ ih =>
      cases h' with
      | both => exact absurd lt (Nat.lt_irrefl _)
      | first lt' => exact absurd lt (Nat.lt_asymm lt')
      | second _ rest' => rw [ih rest']

/-- Every way on of the result returns where one of the two lists does. -/
theorem resumes (h : Zips R as bs es) : ∀ e ∈ es, e.2 ∈ as.map Prod.snd ∨ e.2 ∈ bs.map Prod.snd := by
  induction h with
  | left bs => exact fun e mem => .inr (List.mem_map_of_mem mem)
  | right as => exact fun e mem => .inl (List.mem_map_of_mem mem)
  | both _ _ ih =>
      refine List.forall_mem_cons.2 ⟨.inl (.head _), fun e mem => ?_⟩
      exact (ih e mem).imp (.tail _) (.tail _)
  | first _ _ ih =>
      refine List.forall_mem_cons.2 ⟨.inl (.head _), fun e mem => ?_⟩
      exact (ih e mem).imp (.tail _) id
  | second _ _ ih =>
      refine List.forall_mem_cons.2 ⟨.inr (.head _), fun e mem => ?_⟩
      exact (ih e mem).imp id (.tail _)

/-- Ascending lists stay ascending when they are put together. -/
theorem ascending (h : Zips R as bs es) (same : ∀ {a p}, R a a p → p = a) (left : Ascending as)
    (right : Ascending bs) : Ascending es := by
  have above {e : Nat × Nat} {xs : List (Nat × Nat)} (sorted : (e :: xs).Pairwise fun e e' => e.2 < e'.2) :
      ∀ r ∈ xs.map Prod.snd, e.2 < r := by
    intro r mem
    obtain ⟨x, inside, rfl⟩ := List.mem_map.1 mem
    exact (List.pairwise_cons.1 sorted).1 x inside
  induction h with
  | left => exact right
  | right => exact left
  | @both pa pb parent resume as bs es merged rest ih =>
      have later := ih left.tail right.tail
      refine ⟨List.pairwise_cons.2 ⟨fun e mem => ?_, later.sorted⟩,
        List.forall_mem_cons.2 ⟨?_, later.proper⟩⟩
      · exact (rest.resumes e mem).elim (above left.sorted _) (above right.sorted _)
      · rcases left.proper _ (.head _) with lt | bottom
        · exact .inl lt
        · rcases right.proper _ (.head _) with lt | bottom'
          · exact .inl lt
          · obtain ⟨rfl, rfl⟩ := Prod.mk.inj bottom
            obtain rfl := (Prod.mk.inj bottom').1
            rw [same merged]
            exact .inr rfl
  | @first pa pb ra rb as bs es lt rest ih =>
      have later := ih left.tail right
      refine ⟨List.pairwise_cons.2 ⟨fun e mem => ?_, later.sorted⟩,
        List.forall_mem_cons.2 ⟨left.proper _ (.head _), later.proper⟩⟩
      rcases rest.resumes e mem with inA | inB
      · exact above left.sorted _ inA
      · rcases List.mem_cons.1 inB with same | mem
        · exact Nat.lt_of_lt_of_eq lt same.symm
        · exact Nat.lt_trans lt (above right.sorted _ mem)
  | @second pa pb ra rb as bs es lt rest ih =>
      have later := ih left right.tail
      refine ⟨List.pairwise_cons.2 ⟨fun e mem => ?_, later.sorted⟩,
        List.forall_mem_cons.2 ⟨right.proper _ (.head _), later.proper⟩⟩
      rcases rest.resumes e mem with inA | inB
      · rcases List.mem_cons.1 inA with same | mem
        · exact Nat.lt_of_lt_of_eq lt same.symm
        · exact Nat.lt_trans lt (above left.sorted _ mem)
      · exact above right.sorted _ inB

theorem ne_nil (h : Zips R as bs es) (some : as ≠ []) : es ≠ [] := by
  cases h with
  | left => exact absurd rfl some
  | right => exact some
  | both => exact List.cons_ne_nil _ _
  | first => exact List.cons_ne_nil _ _
  | second => exact List.cons_ne_nil _ _

end Zips

/-- The merge of two nodes, given those of their parents. -/
inductive MergeStep (g : StackGraph) (R : Nat → Nat → Nat → Prop) : Nat → Nat → Nat → Prop
  | same (a : Nat) : MergeStep g R a a a
  /-- The empty stack absorbs every other one. -/
  | wildcard {a b : Nat} (different : a ≠ b) (empty : a = 0 ∨ b = 0) : MergeStep g R a b 0
  | nodes {a b id : Nat} {es : List (Nat × Nat)} (different : a ≠ b) (left : a ≠ 0) (right : b ≠ 0)
      (zips : Zips R (g.node a).entries (g.node b).entries es) (made : g.Is (.ofEntries es) id) :
      MergeStep g R a b id

def MergesWithin (g : StackGraph) : Nat → Nat → Nat → Nat → Prop
  | 0 => fun _ _ _ => False
  | depth + 1 => MergeStep g (g.MergesWithin depth)

/-- The node is the union of two nodes where the empty stack is a wildcard. -/
def Merges (g : StackGraph) (a b id : Nat) : Prop :=
  ∃ depth, g.MergesWithin depth a b id

/-- A merge within a depth is one within every greater depth. -/
theorem MergesWithin.mono {depth depth' : Nat} (le : depth ≤ depth')
    (h : g.MergesWithin depth a b id) : g.MergesWithin depth' a b id := by
  induction depth generalizing depth' a b id with
  | zero => exact h.elim
  | succ depth ih =>
      obtain ⟨k, rfl⟩ : ∃ k, depth' = k + 1 := ⟨depth' - 1, by omega⟩
      cases h with
      | same => exact .same a
      | wildcard different empty => exact .wildcard different empty
      | nodes different left right zips made =>
          refine .nodes different left right (zips.imp fun pa _ pb _ p => ?_) made
          exact ih (Nat.le_of_succ_le_succ le)

/-- Parents merge within a common depth. -/
theorem Zips.merges {as bs es : List (Nat × Nat)} (h : Zips g.Merges as bs es) :
    ∃ depth, Zips (g.MergesWithin depth) as bs es := by
  induction h with
  | left bs => exact ⟨0, .left bs⟩
  | right as => exact ⟨0, .right as⟩
  | both merged _ ih =>
      obtain ⟨depth, merged⟩ := merged
      obtain ⟨depth', rest⟩ := ih
      refine ⟨max depth depth', .both (merged.mono (Nat.le_max_left _ _)) ?_⟩
      exact rest.imp fun _ _ _ _ _ => .mono (Nat.le_max_right _ _)
  | first lt _ ih =>
      obtain ⟨depth, rest⟩ := ih
      exact ⟨depth, .first lt rest⟩
  | second lt _ ih =>
      obtain ⟨depth, rest⟩ := ih
      exact ⟨depth, .second lt rest⟩

namespace Merges

theorem of_step (h : MergeStep g g.Merges a b id) : g.Merges a b id := by
  cases h with
  | same => exact ⟨1, .same a⟩
  | wildcard different empty => exact ⟨1, .wildcard different empty⟩
  | nodes different left right zips made =>
      obtain ⟨depth, zips⟩ := zips.merges
      exact ⟨depth + 1, .nodes different left right zips made⟩

theorem same (a : Nat) : g.Merges a a a :=
  of_step (.same a)

/-- Two nodes have one union. -/
theorem unique (distinct : g.Distinct) (h : g.Merges a b id) (h' : g.Merges a b id') :
    id = id' := by
  obtain ⟨depth, h⟩ := h
  obtain ⟨depth', h'⟩ := h'
  induction depth generalizing a b id id' depth' with
  | zero => exact h.elim
  | succ depth ih =>
      cases depth' with
      | zero => exact h'.elim
      | succ depth' =>
          cases h with
          | same =>
              cases h' with
              | same => rfl
              | wildcard different => exact absurd rfl different
              | nodes different => exact absurd rfl different
          | wildcard different empty =>
              cases h' with
              | same => exact absurd rfl different
              | wildcard => rfl
              | nodes _ left right => exact (empty.elim left right).elim
          | nodes different left right zips made =>
              cases h' with
              | same => exact absurd rfl different
              | wildcard _ empty => exact (empty.elim left right).elim
              | nodes _ _ _ zips' made' =>
                  obtain rfl := zips.unique zips' fun h h' => ih h _ h'
                  exact made.unique distinct made'

/-- The order does not matter. -/
theorem symm (h : g.Merges a b id) : g.Merges b a id := by
  obtain ⟨depth, h⟩ := h
  refine ⟨depth, ?_⟩
  induction depth generalizing a b id with
  | zero => exact h
  | succ depth ih =>
      cases h with
      | same => exact .same a
      | wildcard different empty => exact .wildcard different.symm empty.symm
      | nodes different left right zips made =>
          exact .nodes different.symm right left (zips.swap ih) made

/-- New nodes do not change the union of old ones. -/
theorem mono (h : g.Merges a b id) (tidy : g.Tidy) (grown : g.Extends g') (left : g.Present a)
    (right : g.Present b) : g'.Merges a b id := by
  obtain ⟨depth, h⟩ := h
  refine ⟨depth, ?_⟩
  induction depth generalizing a b id with
  | zero => exact h
  | succ depth ih =>
      cases h with
      | same => exact .same a
      | wildcard different empty => exact .wildcard different empty
      | nodes different ha hb zips made =>
          refine .nodes different ha hb ?_ (made.mono grown)
          rw [left.node_eq grown, right.node_eq grown]
          refine zips.imp fun ea mema eb memb p => ?_
          exact ih (tidy.entries_present a ea mema) (tidy.entries_present b eb memb)

end Merges

end StackGraph

namespace Stacks

open StackGraph

variable {s : Stacks} {wildcard : Bool} {a b : Nat}

/-- The memo is about nodes that are there; where the empty stack is a wildcard, it holds their
merges. -/
structure Sound (wildcard : Bool) (s : Stacks) : Prop where
  tidy : s.graph.Tidy
  memo : ∀ entry ∈ s.memo, s.graph.Present entry.1.1 ∧ s.graph.Present entry.1.2 ∧
    s.graph.Present entry.2 ∧
    (wildcard = true → s.graph.Merges entry.1.1 entry.1.2 entry.2)

theorem Sound.forgets (h : s.Sound wildcard) (wildcard' : Bool) :
    Sound wildcard' { s with memo := [] } where
  tidy := h.tidy
  memo _ mem := by cases mem

theorem Sound.weaken (h : s.Sound true) : s.Sound false where
  tidy := h.tidy
  memo entry mem := by
    obtain ⟨left, right, result, -⟩ := h.memo entry mem
    exact ⟨left, right, result, nofun⟩

/-- The memo stays sound when the graph grows. -/
theorem Sound.grow (h : s.Sound wildcard) {graph : StackGraph} (grown : s.graph.Extends graph)
    (tidy : graph.Tidy) : Sound wildcard { s with graph } where
  tidy := tidy
  memo entry mem := by
    obtain ⟨left, right, result, merged⟩ := h.memo entry mem
    refine ⟨left.mono grown, right.mono grown, result.mono grown, fun wild => ?_⟩
    exact (merged wild).mono h.tidy grown left right

/-- What comes of a merge: a node of a graph that has grown. -/
structure Merged (wildcard : Bool) (s : Stacks) (a b : Nat) (result : Nat × Stacks) : Prop where
  grown : s.graph.Extends result.2.graph
  sound : result.2.Sound wildcard
  present : result.2.graph.Present result.1
  merges : wildcard = true → result.2.graph.Merges a b result.1

/-- A relation between two nodes and a third one that merging keeps to: it goes on from the
parents to their children, and lasts when the graph grows. -/
structure MergeRule (wildcard : Bool) (R : StackGraph → Nat → Nat → Nat → Prop) : Prop where
  same {g : StackGraph} (tidy : g.Tidy) (a : Nat) : R g a a a
  symm {g : StackGraph} {a b id : Nat} : R g a b id → R g b a id
  mono {g g' : StackGraph} {a b id : Nat} (h : R g a b id) (tidy : g.Tidy) (grown : g.Extends g')
    (left : g.Present a) (right : g.Present b) (present : g.Present id) : R g' a b id
  absorb {g : StackGraph} {a b : Nat} (wild : wildcard = true) (different : a ≠ b)
    (empty : a = 0 ∨ b = 0) : R g a b 0
  /-- The empty stack beside those of a node with one way on. -/
  beside {g : StackGraph} {a b id : Nat} {es : List (Nat × Nat)} (exact : wildcard = false)
    (tidy : g.Tidy) (left : g.Present a) (right : g.Present b) (different : a ≠ b)
    (empty : a = 0 ∨ b = 0) (others : (g.node (max a b)).entries = es)
    (made : g.Is (.ofEntries (es ++ [(0, noState)])) id) : R g a b id
  nodes {g : StackGraph} {a b id : Nat} {es : List (Nat × Nat)} (tidy : g.Tidy)
    (left : g.Present a) (right : g.Present b) (different : a ≠ b)
    (some : wildcard = true → a ≠ 0 ∧ b ≠ 0)
    (known : ∀ e ∈ es, g.Present e.1)
    (zips : Zips (R g) (g.node a).entries (g.node b).entries es) (made : g.Is (.ofEntries es) id) :
    R g a b id

section Passage

variable {R : StackGraph → Nat → Nat → Nat → Prop}

/-- The memo answers with nodes that are related to its keys. -/
structure Keeps (R : StackGraph → Nat → Nat → Nat → Prop) (s : Stacks) : Prop where
  tidy : s.graph.Tidy
  memo : ∀ entry ∈ s.memo, s.graph.Present entry.1.1 ∧ s.graph.Present entry.1.2 ∧
    s.graph.Present entry.2 ∧ R s.graph entry.1.1 entry.1.2 entry.2

/-- What a merge does: it answers with a related node of a graph that has grown. -/
structure Yields (wildcard : Bool) (R : StackGraph → Nat → Nat → Nat → Prop) (s : Stacks)
    (a b : Nat) (result : Nat × Stacks) : Prop where
  grown : s.graph.Extends result.2.graph
  keeps : result.2.Keeps R
  present : result.2.graph.Present result.1
  related : R result.2.graph a b result.1
  self : a = b → result.1 = a
  ordered : s.graph.Ordered → result.2.graph.Ordered
  apart : wildcard = true → s.graph.EmptyApart → result.2.graph.EmptyApart

/-- What putting lists of ways on together does. -/
structure Zipped (wildcard : Bool) (R : StackGraph → Nat → Nat → Nat → Prop) (s : Stacks)
    (as bs : List (Nat × Nat)) (result : List (Nat × Nat) × Stacks) : Prop where
  grown : s.graph.Extends result.2.graph
  keeps : result.2.Keeps R
  present : ∀ e ∈ result.1, result.2.graph.Present e.1
  zips : Zips (fun a b id => R result.2.graph a b id ∧ result.2.graph.Present id ∧ (a = b → id = a))
    as bs result.1
  ordered : s.graph.Ordered → result.2.graph.Ordered
  apart : wildcard = true → s.graph.EmptyApart → result.2.graph.EmptyApart

/-- The memo keeps to a lasting relation when the graph grows. -/
theorem Keeps.grow (rule : MergeRule wildcard R) (h : s.Keeps R) {graph : StackGraph}
    (grown : s.graph.Extends graph) (tidy : graph.Tidy) : Keeps R { s with graph } where
  tidy := tidy
  memo entry mem := by
    obtain ⟨left, right, result, related⟩ := h.memo entry mem
    have related' := rule.mono related h.tidy grown left right result
    exact ⟨left.mono grown, right.mono grown, result.mono grown, related'⟩

theorem Yields.refl (h : s.Keeps R) {id : Nat} (present : s.graph.Present id)
    (related : R s.graph a b id) (self : a = b → id = a) : s.Yields wildcard R a b (id, s) :=
  ⟨.refl _, h, present, related, self, fun sorted => sorted, fun _ lone => lone⟩

/-- The memo answers with what the relation allows. -/
theorem Keeps.merged? (rule : MergeRule wildcard R) (h : s.Keeps R) (different : a ≠ b) {id : Nat}
    (found : s.merged? a b = some id) : s.Yields wildcard R a b (id, s) := by
  have known {a b : Nat} (found : s.memo.lookup (a, b) = some id) :
      s.graph.Present id ∧ R s.graph a b id := by
    obtain ⟨-, -, present, related⟩ := h.memo ((a, b), id) (mem_of_lookup found)
    exact ⟨present, related⟩
  have answer : s.graph.Present id ∧ R s.graph a b id := by
    rw [Stacks.merged?] at found
    cases first : s.memo.lookup (a, b) with
    | some id' =>
        rw [first] at found
        obtain rfl := Option.some.inj found
        exact known first
    | none =>
        rw [first] at found
        obtain ⟨present, related⟩ := known found
        exact ⟨present, rule.symm related⟩
  exact .refl h answer.1 answer.2 fun same => absurd same different

/-- What a merge has answered may be remembered. -/
theorem Yields.remember {result : Nat × Stacks} (h : s.Yields wildcard R a b result)
    (left : s.graph.Present a) (right : s.graph.Present b) :
    s.Yields wildcard R a b (Stacks.remember a b result) where
  grown := h.grown
  present := h.present
  related := h.related
  self := h.self
  ordered := h.ordered
  apart := h.apart
  keeps.tidy := h.keeps.tidy
  keeps.memo entry mem := by
    rcases List.mem_cons.1 mem with rfl | old
    · exact ⟨left.mono h.grown, right.mono h.grown, h.present, h.related⟩
    · exact h.keeps.memo entry old

/-- The node with the given ways on. -/
theorem Keeps.ofEntries (rule : MergeRule wildcard R) (h : s.Keeps R) {es : List (Nat × Nat)}
    (known : ∀ e ∈ es, s.graph.Present e.1) :
    let made := s.ofEntries es
    s.graph.Extends made.2.graph ∧ made.2.Keeps R ∧ made.2.graph.Is (.ofEntries es) made.1 ∧
      (s.graph.Ordered → Ascending es → made.2.graph.Ordered) ∧
      (s.graph.EmptyApart → (∀ e ∈ es, e.2 ≠ noState) → made.2.graph.EmptyApart) := by
  intro made
  obtain ⟨grown, tidy, is⟩ := intern_tidy h.tidy known
  have ordered (sorted : s.graph.Ordered) (ascending : Ascending es) := sorted.intern ascending
  have apart (lone : s.graph.EmptyApart) (states : ∀ e ∈ es, e.2 ≠ noState) := lone.intern states
  rw [← ofEntries_eq] at grown tidy is ordered apart
  exact ⟨grown, h.grow rule grown tidy, is, ordered, apart⟩

/-- A frame on top of a node that is there. -/
theorem Keeps.push (rule : MergeRule wildcard R) (h : s.Keeps R) {parent resume : Nat}
    (known : s.graph.Present parent) (isState : resume < noState) :
    let made := s.push parent resume
    s.graph.Extends made.2.graph ∧ made.2.Keeps R ∧ (s.graph.Ordered → made.2.graph.Ordered) ∧
      (s.graph.EmptyApart → made.2.graph.EmptyApart) := by
  intro made
  have parents : ∀ e ∈ [(parent, resume)], s.graph.Present e.1 := by
    intro e mem
    rwa [List.mem_singleton.1 mem]
  have states : ∀ e ∈ [(parent, resume)], e.2 ≠ noState := by
    intro e mem
    rw [List.mem_singleton.1 mem]
    exact Nat.ne_of_lt isState
  obtain ⟨grown, keeps, -, ordered, apart⟩ := h.ofEntries rule parents
  exact ⟨grown, keeps, fun sorted => ordered sorted (.single (.inl isState)),
    fun lone => apart lone states⟩

/-- One more way on in front. -/
theorem Zipped.cons {as bs as' bs' : List (Nat × Nat)} {result : List (Nat × Nat) × Stacks}
    {e : Nat × Nat} (h : s.Zipped wildcard R as bs result) (present : s.graph.Present e.1)
    (zips : ∀ {R : Nat → Nat → Nat → Prop} {es : List (Nat × Nat)}, Zips R as bs es →
      Zips R as' bs' (e :: es)) :
    s.Zipped wildcard R as' bs' (e :: result.1, result.2) where
  grown := h.grown
  keeps := h.keeps
  present := List.forall_mem_cons.2 ⟨present.mono h.grown, h.present⟩
  zips := zips h.zips
  ordered := h.ordered
  apart := h.apart

/-- Putting lists together, if merging their parents is right. -/
theorem mergeEntries_zipped (rule : MergeRule wildcard R)
    {mergeParents : Nat → Nat → Stacks → Nat × Stacks}
    {as bs : List (Nat × Nat)} {s : Stacks} (keeps : s.Keeps R)
    (left : ∀ e ∈ as, s.graph.Present e.1) (right : ∀ e ∈ bs, s.graph.Present e.1)
    (merges : ∀ ea ∈ as, ∀ eb ∈ bs, ∀ s : Stacks, s.Keeps R → s.graph.Present ea.1 →
      s.graph.Present eb.1 → s.Yields wildcard R ea.1 eb.1 (mergeParents ea.1 eb.1 s)) :
    s.Zipped wildcard R as bs (mergeEntries mergeParents as bs s) := by
  induction as, bs, s using mergeEntries.induct mergeParents with
  | case1 bs s =>
      rw [mergeEntries]
      exact ⟨.refl _, keeps, right, .left bs, id, fun _ => id⟩
  | case2 as s some =>
      rw [mergeEntries.eq_2 _ _ _ some]
      exact ⟨.refl _, keeps, left, .right as, id, fun _ => id⟩
  | case3 pa as pb resume bs s parent s₁ head rest s₂ tail ih =>
      rw [dite_eq_ite] at head
      rw [mergeEntries, if_pos rfl, head]
      obtain ⟨ha, left⟩ := List.forall_mem_cons.1 left
      obtain ⟨hb, right⟩ := List.forall_mem_cons.1 right
      have merged : s.Yields wildcard R pa pb (parent, s₁) := by
        rw [← head]
        split
        case isTrue same =>
            subst same
            exact .refl keeps ha (rule.same keeps.tidy pa) fun _ => rfl
        case isFalse => exact merges _ (.head _) _ (.head _) s keeps ha hb
      have later := ih merged.keeps (fun e mem => (left e mem).mono merged.grown)
        (fun e mem => (right e mem).mono merged.grown)
        fun ea mema eb memb => merges ea (.tail _ mema) eb (.tail _ memb)
      have related := rule.mono merged.related merged.keeps.tidy later.grown
        (ha.mono merged.grown) (hb.mono merged.grown) merged.present
      exact {
        grown := merged.grown.trans later.grown
        keeps := later.keeps
        present := List.forall_mem_cons.2 ⟨merged.present.mono later.grown, later.present⟩
        zips := .both ⟨related, merged.present.mono later.grown, merged.self⟩ later.zips
        ordered := fun sorted => later.ordered (merged.ordered sorted)
        apart := fun wild lone => later.apart wild (merged.apart wild lone) }
  | case4 pa ra as pb rb bs s ne lt rest s₁ tail ih =>
      rw [mergeEntries, if_neg ne, if_pos lt]
      have later := ih keeps (fun e mem => left e (.tail _ mem)) right
        fun ea mema eb memb => merges ea (.tail _ mema) eb memb
      exact later.cons (e := (pa, ra)) (left _ (.head _)) (.first lt)
  | case5 pa ra as pb rb bs s ne ge rest s₁ tail ih =>
      rw [mergeEntries, if_neg ne, if_neg ge]
      have later := ih keeps left (fun e mem => right e (.tail _ mem))
        fun ea mema eb memb => merges ea mema eb (.tail _ memb)
      exact later.cons (e := (pb, rb)) (right _ (.head _)) (.second (by omega))

/-- A node for the ways on that two nodes have together is related to them. -/
theorem MergeRule.yields (rule : MergeRule wildcard R) {es : List (Nat × Nat)}
    {result : Nat × Stacks} (left : s.graph.Present a) (right : s.graph.Present b)
    (different : a ≠ b) (some : wildcard = true → a ≠ 0 ∧ b ≠ 0)
    (grown : s.graph.Extends result.2.graph) (keeps : result.2.Keeps R)
    (known : ∀ e ∈ es, result.2.graph.Present e.1)
    (is : result.2.graph.Is (.ofEntries es) result.1)
    (zips : Zips (R result.2.graph) (s.graph.node a).entries (s.graph.node b).entries es)
    (ordered : s.graph.Ordered → result.2.graph.Ordered)
    (apart : wildcard = true → s.graph.EmptyApart → result.2.graph.EmptyApart) :
    s.Yields wildcard R a b result where
  grown := grown
  keeps := keeps
  present := is.1
  self same := absurd same different
  ordered := ordered
  apart := apart
  related := by
    rw [← left.node_eq grown, ← right.node_eq grown] at zips
    exact rule.nodes keeps.tidy (left.mono grown) (right.mono grown) different some known zips is

/-- Entries that were zipped make the node of the merge. -/
theorem Zipped.yields (rule : MergeRule wildcard R) {result : List (Nat × Nat) × Stacks}
    (h : s.Zipped wildcard R (s.graph.node a).entries (s.graph.node b).entries result)
    (tidy : s.graph.Tidy) (left : s.graph.Present a) (right : s.graph.Present b)
    (different : a ≠ b) (some : wildcard = true → a ≠ 0 ∧ b ≠ 0) :
    s.Yields wildcard R a b (result.2.ofEntries result.1) := by
  obtain ⟨grown, keeps, is, ordered, apart⟩ := h.keeps.ofEntries rule h.present
  have known (e : Nat × Nat) (mem : e ∈ result.1) := (h.present e mem).mono grown
  refine rule.yields left right different some (h.grown.trans grown) keeps known is ?_
    (fun sorted => ?_) fun wild lone => ?_
  · refine h.zips.imp fun ea mema eb memb p ⟨related, present, _⟩ => ?_
    have left := (tidy.entries_present a ea mema).mono h.grown
    have right := (tidy.entries_present b eb memb).mono h.grown
    exact rule.mono related h.keeps.tidy grown left right present
  · have ascending := h.zips.ascending (fun related => related.2.2 rfl) (sorted a) (sorted b)
    exact ordered (h.ordered sorted) ascending
  · apply apart (h.apart wild lone)
    intro e mem
    have states {id : Nat} (present : s.graph.Present id) (some : id ≠ 0) :
        e.2 ∈ (s.graph.node id).entries.map Prod.snd → e.2 ≠ noState := by
      intro resume
      obtain ⟨e', mem', same⟩ := List.mem_map.1 resume
      exact same ▸ lone id (present.some some) e' mem'
    exact (h.zips.resumes e mem).elim (states left (some wild).1) (states right (some wild).2)

theorem mergeRoot?_eq_none (h : s.mergeRoot? wildcard a b = none) : a ≠ 0 ∧ b ≠ 0 := by
  rw [mergeRoot?] at h
  split at h
  case isTrue some => exact some
  case isFalse => split at h <;> cases h

/-- A node with one way on, and the empty stack beside it. -/
theorem ascending_beside {g : StackGraph} {id : Nat} (tidy : g.Tidy) (sorted : g.Ordered)
    (present : g.Present id) (some : id ≠ 0) (unbranched : (g.node id).isBranch = false) :
    Ascending ((g.node id).entries ++ [(0, noState)]) := by
  obtain ⟨e, only⟩ := StackNode.entries_of_unbranched unbranched
  have proper := (sorted id).proper e (only ▸ .head _)
  have isState : e.2 < noState := by
    apply proper.resolve_right
    rintro rfl
    -- The only node with this way on is the empty stack.
    have built := tidy.built id
    rw [only, StackNode.ofEntries, if_pos ⟨rfl, rfl⟩] at built
    exact some (present.empty built)
  rw [only]
  constructor
  · simpa using isState
  · simp [isState]

/-- An empty stack is merged at once. -/
theorem mergeRoot?_yields (rule : MergeRule wildcard R) {root : Nat × Stacks} (keeps : s.Keeps R)
    (left : s.graph.Present a) (right : s.graph.Present b) (different : a ≠ b)
    (unbranched : (s.graph.node a).isBranch = false ∧ (s.graph.node b).isBranch = false)
    (found : s.mergeRoot? wildcard a b = some root) : s.Yields wildcard R a b root := by
  rw [mergeRoot?] at found
  split at found
  case isTrue => cases found
  case isFalse none =>
      have empty : a = 0 ∨ b = 0 := by omega
      split at found
      case isTrue wild =>
          obtain rfl := Option.some.inj found
          have absorbed := rule.absorb (g := s.graph) wild different empty
          exact .refl keeps present_zero absorbed fun same => absurd same different
      case isFalse exact =>
          obtain rfl := Option.some.inj found
          have other : max a b = a ∨ max a b = b := by omega
          have present : s.graph.Present (max a b) := by
            rcases other with h | h <;> rwa [h]
          have only : (s.graph.node (max a b)).isBranch = false := by
            rcases other with h | h
            · rw [h]
              exact unbranched.1
            · rw [h]
              exact unbranched.2
          have known : ∀ e ∈ (s.graph.node (max a b)).entries ++ [(0, noState)],
              s.graph.Present e.1 := by
            intro e mem
            rcases List.mem_append.1 mem with mem | mem
            · exact keeps.tidy.entries_present _ e mem
            · rw [List.mem_singleton.1 mem]
              exact present_zero
          obtain ⟨grown, keeps', is, ordered, -⟩ := keeps.ofEntries rule known
          have others := congrArg StackNode.entries (present.node_eq grown)
          exact {
            grown
            keeps := keeps'
            present := is.1
            related := rule.beside (eq_false_of_ne_true exact) keeps'.tidy
              (left.mono grown) (right.mono grown) different empty others is
            self := fun same => absurd same different
            ordered := fun sorted => ordered sorted
              (ascending_beside keeps.tidy sorted present (by omega) only)
            apart := fun wild => absurd wild exact }

/-- Merging two nodes with one way on each. -/
theorem mergeFrames_yields (rule : MergeRule wildcard R)
    {mergeParents : Nat → Nat → Stacks → Nat × Stacks} {ea eb : Nat × Nat}
    (keeps : s.Keeps R) (left : s.graph.Present a) (right : s.graph.Present b)
    (different : a ≠ b) (someA : a ≠ 0) (someB : b ≠ 0) (onA : (s.graph.node a).entries = [ea])
    (onB : (s.graph.node b).entries = [eb])
    (merges : s.Yields wildcard R ea.1 eb.1 (mergeParents ea.1 eb.1 s)) :
    s.Yields wildcard R a b (mergeFrames mergeParents a b ea eb s) := by
  obtain ⟨pa, ra⟩ := ea
  obtain ⟨pb, rb⟩ := eb
  have some (_ : wildcard = true) : a ≠ 0 ∧ b ≠ 0 := ⟨someA, someB⟩
  have hpa : s.graph.Present pa := keeps.tidy.entries_present a _ (by rw [onA]; exact .head _)
  have hpb : s.graph.Present pb := keeps.tidy.entries_present b _ (by rw [onB]; exact .head _)
  rw [mergeFrames]
  simp only
  split
  case isTrue same =>
      subst same
      have zips {R' : Nat → Nat → Nat → Prop} {parent : Nat} (related : R' pa pb parent) :
          Zips R' (s.graph.node a).entries (s.graph.node b).entries [(parent, ra)] := by
        rw [onA, onB]
        exact .both related (.left [])
      have present : ∀ e ∈ [((mergeParents pa pb s).1, ra)],
          (mergeParents pa pb s).2.graph.Present e.1 := by
        simpa using merges.present
      -- The result has the merged parent, be it new or one of the two.
      have old {id : Nat} (here : s.graph.Present id)
          (on : (s.graph.node id).entries = [((mergeParents pa pb s).1, ra)]) :
          s.Yields wildcard R a b (id, (mergeParents pa pb s).2) := by
        have is := (keeps.tidy.is_ofEntries here).mono merges.grown
        rw [on] at is
        exact rule.yields left right different some merges.grown merges.keeps present is
          (zips merges.related) merges.ordered merges.apart
      split
      case isTrue parent => exact old left (by rw [onA, parent])
      case isFalse =>
          split
          case isTrue parent => exact old right (by rw [onB, parent])
          case isFalse =>
              have zipped : s.Zipped wildcard R (s.graph.node a).entries (s.graph.node b).entries
                  ([((mergeParents pa pb s).1, ra)], (mergeParents pa pb s).2) :=
                ⟨merges.grown, merges.keeps, present,
                  zips ⟨merges.related, merges.present, merges.self⟩, merges.ordered, merges.apart⟩
              have yields := zipped.yields rule keeps.tidy left right different some
              exact yields.remember left right
  case isFalse apart =>
      have zipped : s.Zipped wildcard R (s.graph.node a).entries (s.graph.node b).entries
          (if ra < rb then [(pa, ra), (pb, rb)] else [(pb, rb), (pa, ra)], s) := by
        refine ⟨.refl _, keeps, ?_, ?_, id, fun _ => id⟩
        · split <;> simp [hpa, hpb]
        · rw [onA, onB]
          split
          case isTrue lt => exact .first lt (.left _)
          case isFalse ge => exact .second (by omega) (.right _)
      have yields := zipped.yields rule keeps.tidy left right different some
      exact yields.remember left right

/-- Merging two nodes, with more depth than the longest chain of parents has. -/
theorem mergeWithin_yields (rule : MergeRule wildcard R) {depth : Nat} {a b : Nat} {s : Stacks}
    (keeps : s.Keeps R) (left : s.graph.Present a) (right : s.graph.Present b)
    (deep : a + b < depth) : s.Yields wildcard R a b (mergeWithin wildcard depth a b s) := by
  induction depth generalizing a b s with
  | zero => exact absurd deep (Nat.not_lt_zero _)
  | succ depth ih =>
      have parents (different : a ≠ b) : ∀ ea ∈ (s.graph.node a).entries,
          ∀ eb ∈ (s.graph.node b).entries, ∀ s' : Stacks, s'.Keeps R →
            s'.graph.Present ea.1 → s'.graph.Present eb.1 →
            s'.Yields wildcard R ea.1 eb.1 (mergeWithin wildcard depth ea.1 eb.1 s') := by
        intro ea mema eb memb s' keeps' ha hb
        have le := keeps.tidy.entry_le left mema
        have le' := keeps.tidy.entry_le right memb
        refine ih keeps' ha hb ?_
        omega
      rw [mergeWithin]
      split
      case isTrue same =>
          subst same
          exact .refl keeps left (rule.same keeps.tidy a) fun _ => rfl
      case isFalse different =>
          simp only
          split
          case isTrue =>
              split
              case isTrue absorbs =>
                  simp only [Bool.and_eq_true, Bool.or_eq_true, beq_iff_eq] at absorbs
                  have absorbed := rule.absorb (g := s.graph) absorbs.1 different absorbs.2
                  exact .refl keeps present_zero absorbed fun same => absurd same different
              case isFalse apart =>
                  have some : wildcard = true → a ≠ 0 ∧ b ≠ 0 := by
                    rintro rfl
                    simpa using apart
                  cases known : s.merged? a b with
                  | some found => exact keeps.merged? rule different known
                  | none =>
                      have zipped := mergeEntries_zipped rule keeps (keeps.tidy.entries_present a)
                        (keeps.tidy.entries_present b) (parents different)
                      have yields := zipped.yields rule keeps.tidy left right different some
                      exact yields.remember left right
          case isFalse unbranched =>
              simp only [Bool.or_eq_true, not_or, Bool.not_eq_true] at unbranched
              cases known : s.merged? a b with
              | some found => exact keeps.merged? rule different known
              | none =>
                  simp only
                  cases rooted : s.mergeRoot? wildcard a b with
                  | some root =>
                      have yields := mergeRoot?_yields rule keeps left right different unbranched rooted
                      exact yields.remember left right
                  | none =>
                      obtain ⟨someA, someB⟩ := mergeRoot?_eq_none rooted
                      obtain ⟨ea, onA⟩ := StackNode.entries_of_unbranched unbranched.1
                      obtain ⟨eb, onB⟩ := StackNode.entries_of_unbranched unbranched.2
                      simp only [onA, onB]
                      have merges := parents different ea (onA ▸ .head _) eb (onB ▸ .head _) s keeps
                        (keeps.tidy.entries_present a ea (onA ▸ .head _))
                        (keeps.tidy.entries_present b eb (onB ▸ .head _))
                      exact mergeFrames_yields rule keeps left right different someA someB onA onB merges

/-- A merge keeps to every relation that obeys the rules. -/
theorem merge_yields (rule : MergeRule wildcard R) (keeps : s.Keeps R)
    (left : s.graph.Present a) (right : s.graph.Present b) :
    s.Yields wildcard R a b (s.merge wildcard a b) :=
  mergeWithin_yields rule keeps left right (Nat.lt_succ_self _)

end Passage

/-- Where the empty stack is a wildcard, the merge of two nodes follows the rules. -/
theorem mergeRule_merges (wildcard : Bool) :
    MergeRule wildcard fun g a b id => wildcard = true → g.Merges a b id where
  same _ a _ := .same a
  symm h wild := (h wild).symm
  mono h tidy grown left right _ wild := (h wild).mono tidy grown left right
  absorb _ different empty _ := .of_step (.wildcard different empty)
  beside exact _ _ _ _ _ _ _ wild := by
    rw [exact] at wild
    cases wild
  nodes _ _ _ different some _ zips made wild := by
    obtain ⟨someA, someB⟩ := some wild
    exact .of_step (.nodes different someA someB (zips.imp fun _ _ _ _ _ merges => merges wild) made)

theorem Sound.keeps (h : s.Sound wildcard) :
    s.Keeps fun g a b id => wildcard = true → g.Merges a b id :=
  ⟨h.tidy, h.memo⟩

/-- The node with the given ways on. -/
theorem Sound.ofEntries (h : s.Sound wildcard) {es : List (Nat × Nat)}
    (known : ∀ e ∈ es, s.graph.Present e.1) :
    let made := s.ofEntries es
    s.graph.Extends made.2.graph ∧ made.2.Sound wildcard ∧
      made.2.graph.Is (.ofEntries es) made.1 := by
  intro made
  obtain ⟨grown, keeps, is, -⟩ := h.keeps.ofEntries (mergeRule_merges wildcard) known
  exact ⟨grown, ⟨keeps.tidy, keeps.memo⟩, is⟩

/-- The union of two sets of stacks. -/
theorem merge_merged (s : Stacks) (sound : s.Sound wildcard) (left : s.graph.Present a)
    (right : s.graph.Present b) : s.Merged wildcard a b (s.merge wildcard a b) := by
  have yields := merge_yields (mergeRule_merges wildcard) sound.keeps left right
  exact ⟨yields.grown, ⟨yields.keeps.tidy, yields.keeps.memo⟩, yields.present, yields.related⟩

theorem merge_self (s : Stacks) (wildcard : Bool) (id : Nat) : s.merge wildcard id id = (id, s) := by
  rw [merge, mergeWithin, if_pos rfl]

/-- A merge can be repeated later, with another memo and a graph that has grown. -/
theorem merge_again (s : Stacks) {s' : Stacks} (sound : s.Sound true) (left : s.graph.Present a)
    (right : s.graph.Present b) (later : (s.merge true a b).2.graph.Extends s'.graph) (sound' : s'.Sound true) :
    (s'.merge true a b).1 = (s.merge true a b).1 := by
  have first := s.merge_merged sound left right
  have grown := first.grown.trans later
  have second := s'.merge_merged sound' (left.mono grown) (right.mono grown)
  have grown := later.trans second.grown
  have known := (first.merges rfl).mono first.sound.tidy grown (left.mono first.grown)
    (right.mono first.grown)
  exact (second.merges rfl).unique second.sound.tidy.distinct known

end Stacks

end AdaptiveLL
