import AdaptiveLL.Proofs.Tree.Grown
/-!
Events of a tree that is still being built. Every rule node is entered when it is made and exited
some time later; a token of the input is told of once, and a token that was made up is not. So the
events of a parse that are no exits are those that the new nodes of its tree call for, in order.
-/
namespace AdaptiveLL

namespace TreeEvent

def node : TreeEvent → NodeId
  | enter id | exit id | terminal id | error id => id

def isExit : TreeEvent → Bool
  | exit _ => true
  | enter _ | terminal _ | error _ => false

/-- The nodes that are open behind an event, innermost first. Only the innermost node that is
open can be exited. -/
def open? (opened : List NodeId) : TreeEvent → Option (List NodeId)
  | enter id => some (id :: opened)
  | exit id => if opened.head? = some id then some opened.tail else none
  | terminal _ | error _ => some opened

/-- Every exit closes the node that was entered last and is still open, and in the end no node is
open. -/
def Balanced (events : List TreeEvent) : Prop :=
  events.foldlM open? [] = some []

instance (events : List TreeEvent) : Decidable (Balanced events) :=
  inferInstanceAs (Decidable (events.foldlM open? [] = some []))

end TreeEvent

namespace TreeNode

/-- The event that tells of a node which has just been made. -/
def arrival? (id : NodeId) : TreeNode → Option TreeEvent
  | rule _ => some (.enter id)
  | terminal token _ => if token.index.isSome then some (.terminal id) else none
  | error token _ => if token.index.isSome then some (.error id) else none

/-- All the events that tell of a node. -/
def events (id : NodeId) : TreeNode → List TreeEvent
  | rule _ => [.enter id, .exit id]
  | terminal token _ => if token.index.isSome then [.terminal id] else []
  | error token _ => if token.index.isSome then [.error id] else []

theorem node_arrival? {id : NodeId} {node : TreeNode} {e : TreeEvent}
    (h : node.arrival? id = some e) : e.node = id := by
  cases node with
  | rule => cases h; rfl
  | terminal token | error token =>
      simp only [arrival?, Option.ite_none_right_eq_some, Option.some.injEq] at h
      rw [← h.2]
      rfl

/-- The event that tells of a node, with the token of the node. -/
def news? (id : NodeId) (node : TreeNode) : Option (TreeEvent × Option Token) :=
  (node.arrival? id).map (·, node.token?)

@[simp] theorem news?_mapRule (id : NodeId) (f : RuleNode → RuleNode) (node : TreeNode) :
    (node.mapRule f).news? id = node.news? id := by
  cases node <;> rfl

@[simp] theorem news?_withParent (id : NodeId) (parent : Option NodeId) (node : TreeNode) :
    (node.withParent parent).news? id = node.news? id := by
  cases node <;> rfl

end TreeNode

namespace TreeEvent

/-- Events that nest still nest if those about some of the nodes are left out. -/
theorem foldlM_filter {events : List TreeEvent} {opened closed : List NodeId}
    (keep : NodeId → Bool) (nests : events.foldlM open? opened = some closed) :
    (events.filter fun e => keep e.node).foldlM open? (opened.filter keep) =
      some (closed.filter keep) := by
  induction events generalizing opened with
  | nil =>
      cases nests
      rfl
  | cons e rest ih =>
      rw [List.foldlM_cons, Option.bind_eq_bind, Option.bind_eq_some_iff] at nests
      obtain ⟨opened', step, nests⟩ := nests
      have rest := ih nests
      have step' : if keep e.node then open? (opened.filter keep) e = some (opened'.filter keep)
          else opened'.filter keep = opened.filter keep := by
        cases e with
        | enter id =>
            cases step
            cases kept : keep id <;> simp [node, kept, open?]
        | exit id =>
            simp only [open?, Option.ite_none_right_eq_some, Option.some.injEq] at step
            obtain ⟨top, rfl⟩ := step
            obtain ⟨inner, rfl⟩ := List.head?_eq_some_iff.1 top
            cases kept : keep id <;> simp [node, kept, open?]
        | terminal | error =>
            cases step
            split <;> rfl
      cases kept : keep e.node with
      | true =>
          rw [if_pos kept] at step'
          rw [List.filter_cons_of_pos (by simpa using kept), List.foldlM_cons, step']
          exact rest
      | false =>
          rw [if_neg (by simp [kept])] at step'
          rw [List.filter_cons_of_neg (by simp [kept]), ← step']
          exact rest

theorem eq_exit_of_isExit {e : TreeEvent} (h : e.isExit = true) : e = exit e.node := by
  cases e <;> first | rfl | cases h

/-- While nothing is entered, each exit closes one of the nodes that are open. -/
theorem eq_map_exit {events : List TreeEvent} {opened : List NodeId}
    (nests : events.foldlM open? opened = some []) (exits : ∀ e ∈ events, e.isExit = true) :
    events = opened.map exit := by
  induction events generalizing opened with
  | nil =>
      cases nests
      rfl
  | cons e rest ih =>
      obtain ⟨first, others⟩ := List.forall_mem_cons.1 exits
      rw [eq_exit_of_isExit first] at nests ⊢
      rw [List.foldlM_cons, Option.bind_eq_bind, Option.bind_eq_some_iff] at nests
      obtain ⟨opened', step, nests⟩ := nests
      simp only [open?, Option.ite_none_right_eq_some, Option.some.injEq] at step
      obtain ⟨top, rfl⟩ := step
      obtain ⟨inner, rfl⟩ := List.head?_eq_some_iff.1 top
      rw [ih nests others]
      rfl

end TreeEvent

namespace ParseTree

variable {t t' : ParseTree} {first : Nat}

/-- The events that tell of the nodes of a tree from one of them on, in the order in which they were
made, and the tokens of the nodes. -/
def arrivals (t : ParseTree) (first : Nat) : List (TreeEvent × Option Token) :=
  (List.range' first (t.size - first)).filterMap fun id => (t.node? id).bind (TreeNode.news? id)

theorem mem_numbers {id : Nat} :
    id ∈ List.range' first (t.size - first) ↔ first ≤ id ∧ id < t.size := by
  rw [List.mem_range'_1]
  omega

/-- The trees have the same nodes for somebody who is told when they are made. -/
structure SameNews (t t' : ParseTree) : Prop where
  size : t'.size = t.size
  news : ∀ id, (t'.node? id).bind (TreeNode.news? id) = (t.node? id).bind (TreeNode.news? id)

namespace SameNews

theorem refl (t : ParseTree) : SameNews t t :=
  ⟨rfl, fun _ => rfl⟩

theorem trans {t'' : ParseTree} (h : SameNews t t') (h' : SameNews t' t'') : SameNews t t'' :=
  ⟨h'.size.trans h.size, fun id => (h'.news id).trans (h.news id)⟩

theorem arrivals (h : SameNews t t') : t'.arrivals first = t.arrivals first := by
  rw [ParseTree.arrivals, ParseTree.arrivals, h.size]
  exact List.filterMap_congr fun id _ => h.news id

theorem modifyRule (t : ParseTree) (id : NodeId) (f : RuleNode → RuleNode) :
    SameNews t (t.modifyRule id f) where
  size := size_modifyRule t id f
  news other := by
    rw [node?_modifyRule]
    split
    · cases t.node? other <;> simp
    · rfl

theorem setParent (t : ParseTree) (id : NodeId) (parent : Option NodeId) :
    SameNews t (t.setParent id parent) where
  size := size_setParent t id parent
  news other := by
    rw [node?_setParent]
    split
    · cases t.node? other <;> simp
    · rfl

theorem addChild (t : ParseTree) (parent child : NodeId) : SameNews t (t.addChild parent child) :=
  modifyRule t parent _

end SameNews

@[simp] theorem arrivals_size (t : ParseTree) : t.arrivals t.size = [] := by
  simp [arrivals]

theorem mem_arrivals {e : TreeEvent} {token : Option Token} : (e, token) ∈ t.arrivals first ↔
    first ≤ e.node ∧ ∃ node, t.node? e.node = some node ∧ node.arrival? e.node = some e ∧
      node.token? = token := by
  rw [arrivals, List.mem_filterMap]
  constructor
  · rintro ⟨id, mem, tells⟩
    obtain ⟨node, here, tells⟩ := Option.bind_eq_some_iff.1 tells
    obtain ⟨e', arrives, same⟩ := Option.map_eq_some_iff.1 tells
    cases same
    obtain rfl := TreeNode.node_arrival? arrives
    exact ⟨(mem_numbers.1 mem).1, node, here, arrives, rfl⟩
  · rintro ⟨old, node, here, tells, rfl⟩
    refine ⟨e.node, mem_numbers.2 ⟨old, lt_size here⟩, ?_⟩
    rw [here, Option.bind_some, TreeNode.news?, tells, Option.map_some]

/-- Only new nodes of the tree are told of. -/
theorem exists_node {events : List TreeEvent} (balanced : TreeEvent.Balanced events)
    (made : events.filter (fun e => !e.isExit) = (t.arrivals first).map Prod.fst) {e : TreeEvent}
    (mem : e ∈ events) : first ≤ e.node ∧ ∃ node, t.node? e.node = some node := by
  by_contra unknown
  have nests := TreeEvent.foldlM_filter (· == e.node) balanced
  have exits : ∀ e' ∈ events.filter (·.node == e.node), e'.isExit = true := by
    intro e' mem'
    obtain ⟨mem', about⟩ := List.mem_filter.1 mem'
    refine Bool.not_eq_false _ |>.mp fun arrives => unknown ?_
    have arrived : e' ∈ (t.arrivals first).map Prod.fst := by
      rw [← made]
      exact List.mem_filter.2 ⟨mem', by simp [arrives]⟩
    obtain ⟨⟨_, token⟩, known, rfl⟩ := List.mem_map.1 arrived
    obtain ⟨new, node, here, -⟩ := mem_arrivals.1 known
    rw [← beq_iff_eq.1 about]
    exact ⟨new, node, here⟩
  have none := TreeEvent.eq_map_exit nests exits
  have about : e ∈ events.filter (·.node == e.node) := List.mem_filter.2 ⟨mem, by simp⟩
  rw [none] at about
  cases about

end ParseTree

end AdaptiveLL
