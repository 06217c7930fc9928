import AdaptiveLL.Proofs.Tree.Grown
import Mathlib.Data.Finset.Card
import Mathlib.Data.List.Pairwise
/-!
Nodes below which the links to the children form a tree. Then no node is below itself and siblings
have no node below them in common, so a recursion from nodes to their children ends; it goes down
no more levels than there are nodes. Only what is below the node matters; the rest of the arena
may look like anything.
-/
namespace AdaptiveLL

namespace ParseTree

variable {t : ParseTree} {root id a b c c' x : NodeId}

theorem children_of_node {node : TreeNode} (here : t.node? id = some node) :
    t.children id = node.children := by
  simp [children, here]

theorem children_of_rule {node : RuleNode} (h : t.rule? id = some node) :
    t.children id = node.children.toList := by
  obtain ⟨found, here, rule⟩ := Option.bind_eq_some_iff.1 h
  cases found with
  | rule =>
      cases rule
      exact children_of_node here
  | terminal | error => cases rule

theorem isSome_rule?_of_listed (listed : c ∈ t.children id) : (t.rule? id).isSome := by
  cases here : t.node? id with
  | none => simp [children, here] at listed
  | some node =>
      cases node with
      | rule node => simp [rule?, here, TreeNode.rule?]
      | terminal | error => simp [children_of_node here, TreeNode.children] at listed

namespace Below

theorem trans (h : t.Below a b) (h' : t.Below b c) : t.Below a c := by
  induction h' with
  | root => exact h
  | child _ listed ih => exact ih.child listed

theorem of_child (listed : c ∈ t.children a) (h : t.Below c b) : t.Below a b :=
  (Below.root.child listed).trans h

end Below

/-- Below a node are the node itself and what is below its children. -/
theorem below_iff : t.Below a b ↔ b = a ∨ ∃ c ∈ t.children a, t.Below c b := by
  constructor
  · intro h
    induction h with
    | root => exact .inl rfl
    | child above listed ih =>
        rcases ih with rfl | ⟨c, mem, below⟩
        · exact .inr ⟨_, listed, .root⟩
        · exact .inr ⟨c, mem, below.child listed⟩
  · rintro (rfl | ⟨c, listed, below⟩)
    · exact .root
    · exact .of_child listed below

/-- The links below the node form a tree: they lead to nodes, none leads back to the node itself,
and no two lead to the same node. -/
structure IsSubtree (t : ParseTree) (root : NodeId) : Prop where
  lt_size : ∀ {id}, t.Below root id → id < t.size
  unlisted : ∀ {id}, t.Below root id → root ∉ t.children id
  nodup : ∀ {id}, t.Below root id → (t.children id).Nodup
  unshared : ∀ {a b c}, t.Below root a → t.Below root b → c ∈ t.children a →
    c ∈ t.children b → a = b

open Classical in
/-- The number of nodes at and below a node. -/
noncomputable def extent (t : ParseTree) (id : NodeId) : Nat :=
  ((Finset.range t.size).filter (t.Below id)).card

theorem extent_le_size : t.extent id ≤ t.size := by
  classical
  calc t.extent id ≤ (Finset.range t.size).card := Finset.card_filter_le _ _
    _ = t.size := Finset.card_range _

namespace IsSubtree

theorem exists_node (h : t.IsSubtree root) (below : t.Below root id) :
    ∃ node, t.node? id = some node :=
  ⟨_, Array.getElem?_eq_getElem (h.lt_size below)⟩

/-- No node is below itself. -/
theorem acyclic (h : t.IsSubtree root) (below : t.Below root id) (round : t.Below id x) :
    id ∉ t.children x := by
  induction below generalizing x with
  | root => exact h.unlisted round
  | @child parent id above listed ih =>
      intro back
      -- Nothing but its parent lists a node, so a way round leads through the parent as well.
      obtain rfl := h.unshared above ((above.child listed).trans round) listed back
      cases round with
      | root => exact ih .root listed
      | child round' listed' => exact ih (.of_child listed round') listed'

theorem not_below_child (h : t.IsSubtree root) (below : t.Below root id)
    (listed : c ∈ t.children id) : ¬ t.Below c id := by
  intro round
  cases round with
  | root => exact h.acyclic below .root listed
  | child round back => exact h.acyclic below (.of_child listed round) back

/-- Of two nodes with a common node below them, one is below the other. -/
theorem comparable (h : t.IsSubtree root) (first : t.Below root a) (second : t.Below root b)
    (hx : t.Below a x) (hx' : t.Below b x) : t.Below a b ∨ t.Below b a := by
  induction hx with
  | root => exact .inr hx'
  | child above listed ih =>
      cases hx' with
      | root => exact .inl (above.child listed)
      | child above' listed' =>
          obtain rfl := h.unshared (first.trans above) (second.trans above') listed listed'
          exact ih above'

theorem eq_of_below_sibling (h : t.IsSubtree root) (below : t.Below root id)
    (listed : c ∈ t.children id) (listed' : c' ∈ t.children id) (hc : t.Below c c') : c = c' := by
  cases hc with
  | root => rfl
  | child above mem =>
      obtain rfl := h.unshared below ((below.child listed).trans above) listed' mem
      exact absurd listed (h.acyclic (below.child listed) above)

/-- Siblings have no node below them in common. -/
theorem eq_of_common (h : t.IsSubtree root) (below : t.Below root id) (listed : c ∈ t.children id)
    (listed' : c' ∈ t.children id) (hx : t.Below c x) (hx' : t.Below c' x) : c = c' := by
  cases h.comparable (below.child listed) (below.child listed') hx hx' with
  | inl le => exact h.eq_of_below_sibling below listed listed' le
  | inr ge => exact (h.eq_of_below_sibling below listed' listed ge).symm

/-- Nodes below different children are different. -/
theorem pairwise_children (h : t.IsSubtree root) (below : t.Below root id) :
    (t.children id).Pairwise fun c c' => ∀ x, t.Below c x → ¬ t.Below c' x := by
  apply (h.nodup below).imp_of_mem
  intro c c' mem mem' ne x hx hx'
  exact ne (h.eq_of_common below mem mem' hx hx')

theorem extent_pos (h : t.IsSubtree root) (below : t.Below root id) : 0 < t.extent id := by
  classical
  apply Finset.card_pos.2
  exact ⟨id, by simp [h.lt_size below, Below.root]⟩

/-- Fewer nodes are below a child than below its parent, which is not below the child. -/
theorem extent_lt (h : t.IsSubtree root) (below : t.Below root id) (listed : c ∈ t.children id) :
    t.extent c < t.extent id := by
  classical
  apply Finset.card_lt_card
  rw [Finset.ssubset_iff_of_subset]
  · refine ⟨id, by simp [h.lt_size below, Below.root], ?_⟩
    simp [h.not_below_child below listed]
  · intro x mem
    simp only [Finset.mem_filter] at mem ⊢
    exact ⟨mem.1, .of_child listed mem.2⟩

/-- Induction over the nodes, with the number of levels that a recursion may still go down: it has
as many to begin with as there are nodes. -/
theorem descend {motive : Nat → NodeId → Prop} (h : t.IsSubtree root)
    (node : ∀ {levels id}, t.Below root id → (∀ c ∈ t.children id, motive levels c) →
      motive (levels + 1) id) {levels : Nat} (enough : t.size ≤ levels) : motive levels root := by
  have all (levels : Nat) : ∀ {id}, t.Below root id → t.extent id ≤ levels → motive levels id := by
    induction levels with
    | zero =>
        intro id below few
        have pos := h.extent_pos below
        omega
    | succ levels ih =>
        intro id below few
        apply node below
        intro c listed
        have lt := h.extent_lt below listed
        exact ih (below.child listed) (by omega)
  exact all levels .root (extent_le_size.trans enough)

end IsSubtree

/-- If no node of the arena is listed twice, what is below a node that is not listed is a tree. -/
theorem isSubtree_of_nodup (made : root < t.size)
    (links : ∀ id < t.size, ∀ c ∈ t.children id, c < t.size ∧ c ≠ root)
    (once : ((List.range t.size).flatMap t.children).Nodup) : t.IsSubtree root := by
  have inside {id : NodeId} (below : t.Below root id) : id < t.size := by
    induction below with
    | root => exact made
    | child _ listed ih => exact (links _ ih _ listed).1
  obtain ⟨each, apart⟩ := List.nodup_flatMap.1 once
  constructor
  case lt_size => exact inside
  case unlisted => exact fun below mem => (links _ (inside below) _ mem).2 rfl
  case nodup => exact fun below => each _ (List.mem_range.2 (inside below))
  case unshared =>
    intro a b c first second listed listed'
    by_contra ne
    have symm : Std.Symm (Function.onFun List.Disjoint t.children) := ⟨fun _ _ h => h.symm⟩
    have disjoint := apart.forall (List.mem_range.2 (inside first))
      (List.mem_range.2 (inside second)) ne
    exact disjoint listed listed'

/-- The tree of a call that read `a b` and left `?` over. The call for the operator, which is node 3,
was put around the call that read `a` when that had ended. -/
def wrapped : ParseTree :=
  let a : Token := { type := 1, index := some 0, text? := some "a" }
  let b : Token := { type := 1, index := some 1, text? := some "b" }
  let rest : Token := { type := 2, index := some 2, text? := some "?" }
  { nodes := #[
      .rule { rule := 0, children := #[3, 6], start := a, stop := rest },
      .rule { rule := 1, parent := some 3, children := #[2], start := a, stop := a },
      .terminal a (some 1),
      .rule { rule := 1, parent := some 0, children := #[1, 4], start := a, stop := b },
      .rule { rule := 1, parent := some 3, children := #[5], start := b, stop := b },
      .terminal b (some 4),
      .error rest (some 0)] }

theorem wrapped_isSubtree : wrapped.IsSubtree 0 := by
  apply isSubtree_of_nodup <;> decide

end ParseTree

end AdaptiveLL
