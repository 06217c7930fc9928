import AdaptiveLL.Proofs.Tree.Arrivals
import AdaptiveLL.Proofs.Tree.Subtree
/-!
Walks that go over a tree with a stack, compared with the recursive traversal. The traversal enters
a rule node, goes over its children from left to right and exits it; it visits a token. If the links
below a node form a tree, the walk with a stack tells of exactly these events (`walks_recursive`).
-/
namespace AdaptiveLL

/-- The node that is met at an event; a rule node is met when it is entered. -/
def TreeEvent.met? : TreeEvent → Option NodeId
  | exit _ => none
  | enter id | terminal id | error id => some id

namespace ParseTree

/-- The events of the recursive traversal of the nodes `cs`, one after the other. -/
inductive Traverses (t : ParseTree) : List NodeId → List TreeEvent → Prop
  | nil : Traverses t [] []
  | terminal {c : NodeId} {token : Token} {parent : Option NodeId} {cs : List NodeId}
      {events : List TreeEvent} (here : t.node? c = some (.terminal token parent))
      (rest : Traverses t cs events) : Traverses t (c :: cs) (.terminal c :: events)
  | error {c : NodeId} {token : Token} {parent : Option NodeId} {cs : List NodeId}
      {events : List TreeEvent} (here : t.node? c = some (.error token parent))
      (rest : Traverses t cs events) : Traverses t (c :: cs) (.error c :: events)
  | rule {c : NodeId} {node : RuleNode} {cs : List NodeId} {inner events : List TreeEvent}
      (here : t.node? c = some (.rule node)) (within : Traverses t node.children.toList inner)
      (rest : Traverses t cs events) :
      Traverses t (c :: cs) (.enter c :: inner ++ .exit c :: events)

/-- The nodes that a traversal meets, each when it is first met. -/
def met (events : List TreeEvent) : List NodeId :=
  events.filterMap TreeEvent.met?

section Met

variable {id : NodeId} {events events' : List TreeEvent}

@[simp] theorem met_nil : met [] = [] := rfl

@[simp] theorem met_enter : met (.enter id :: events) = id :: met events := rfl

@[simp] theorem met_exit : met (.exit id :: events) = met events := rfl

@[simp] theorem met_terminal : met (.terminal id :: events) = id :: met events := rfl

@[simp] theorem met_error : met (.error id :: events) = id :: met events := rfl

@[simp] theorem met_append : met (events ++ events') = met events ++ met events' :=
  List.filterMap_append

theorem length_met_rule : (met (.enter id :: events ++ .exit id :: events')).length =
    (met events).length + (met events').length + 1 := by
  simp

end Met

/-- A node weighs one more than its children together. -/
theorem weightWithin_succ (t : ParseTree) (levels : Nat) (id : NodeId) :
    t.weightWithin (levels + 1) id =
      ((t.children id).map (t.weightWithin levels)).foldr (· + ·) 0 + 1 :=
  rfl

namespace Traverses

variable {t : ParseTree} {root x : NodeId} {cs cs' : List NodeId} {events events' : List TreeEvent}
  {levels : Nat}

theorem append (h : t.Traverses cs events) (h' : t.Traverses cs' events') :
    t.Traverses (cs ++ cs') (events ++ events') := by
  induction h with
  | nil => exact h'
  | terminal here _ ih => exact .terminal here ih
  | error here _ ih => exact .error here ih
  | rule here within _ _ ih =>
      simpa only [List.cons_append, List.append_assoc] using .rule here within ih

theorem of_each (each : ∀ c ∈ cs, ∃ events, t.Traverses [c] events) :
    ∃ events, t.Traverses cs events := by
  induction cs with
  | nil => exact ⟨[], .nil⟩
  | cons c cs ih =>
      obtain ⟨first, others⟩ := List.forall_mem_cons.1 each
      obtain ⟨events, first⟩ := first
      obtain ⟨events', others⟩ := ih others
      exact ⟨events ++ events', first.append others⟩

/-- Exactly the nodes below the given ones are met. -/
theorem mem_met (h : t.Traverses cs events) : x ∈ met events ↔ ∃ c ∈ cs, t.Below c x := by
  induction h with
  | nil => simp
  | @terminal c _ _ _ _ here _ ih | @error c _ _ _ _ here _ ih =>
      have alone : t.Below c x ↔ x = c := by
        rw [below_iff, children_of_node here]
        simp [TreeNode.children]
      simp [alone, ih]
  | @rule c node cs inner events here _ _ ih ih' =>
      have around : t.Below c x ↔ x = c ∨ x ∈ met inner := by
        rw [below_iff, children_of_node here, ih, TreeNode.children]
      simp [around, ih', or_assoc]

/-- Every event tells of a node that is met. -/
theorem mem_node (h : t.Traverses cs events) :
    x ∈ events.map TreeEvent.node ↔ x ∈ met events := by
  induction h with
  | nil => simp
  | terminal here _ ih | error here _ ih => simp [TreeEvent.node, ← ih]
  | rule _ _ _ ih ih' =>
      simp [TreeEvent.node, ← ih, ← ih']
      grind

/-- Events tell of no node that is not met. -/
theorem filter_node (h : t.Traverses cs events) (fresh : x ∉ met events) :
    (events.map TreeEvent.node).filter (fun id => !id == x) = events.map TreeEvent.node := by
  rw [List.filter_eq_self]
  intro id mem
  have ne : id ≠ x := fun same => fresh (same ▸ h.mem_node.1 mem)
  simpa using ne

/-- If no node is met again, the nodes are met in the order in which events first tell of them. -/
theorem eraseDups_node (h : t.Traverses cs events) (once : (met events).Nodup) :
    (events.map TreeEvent.node).eraseDups = met events := by
  induction h with
  | nil => rfl
  | terminal _ rest ih | error _ rest ih =>
      obtain ⟨fresh, once⟩ := List.nodup_cons.1 once
      simp [TreeEvent.node, List.eraseDups_cons, rest.filter_node fresh, ih once]
  | @rule c node cs inner events _ within rest ih ih' =>
      simp only [List.cons_append, met_enter, met_append, met_exit, List.nodup_cons,
        List.mem_append, not_or, List.nodup_append'] at once
      obtain ⟨⟨fresh, fresh'⟩, once, once', apart⟩ := once
      have outside : (events.map TreeEvent.node).removeAll (inner.map TreeEvent.node) =
          events.map TreeEvent.node := by
        rw [List.removeAll, List.filter_eq_self]
        intro id mem
        have other : id ∉ inner.map TreeEvent.node := fun mem' =>
          apart (within.mem_node.1 mem') (rest.mem_node.1 mem)
        simpa using other
      calc ((.enter c :: inner ++ .exit c :: events).map TreeEvent.node).eraseDups
          = c :: (inner.map TreeEvent.node ++ events.map TreeEvent.node).eraseDups := by
            simp [TreeEvent.node, List.eraseDups_cons, within.filter_node fresh,
              rest.filter_node fresh']
        _ = c :: (met inner ++ met events) := by
            rw [List.eraseDups_append, outside, ih once, ih' once']
        _ = met (.enter c :: inner ++ .exit c :: events) := by simp

/-- At most two events tell of each node. -/
theorem length_le (h : t.Traverses cs events) : events.length ≤ 2 * (met events).length := by
  induction h with
  | nil => simp
  | terminal _ _ ih | error _ _ ih =>
      simp
      omega
  | rule _ _ _ ih ih' =>
      simp
      omega

/-- The walk with a stack tells of the nodes on top of the stack and goes on with the rest. -/
theorem walkWithin_append (h : t.Traverses cs events) (steps : Nat) (stack : List Pending) :
    t.walkWithin (events.length + steps) (cs.map .enter ++ stack) =
      (t.walkWithin steps stack).map (events ++ ·) := by
  induction h generalizing steps stack with
  | nil => simp
  | @terminal c _ _ _ events here _ ih | @error c _ _ _ events here _ ih =>
      rw [List.length_cons, Nat.add_right_comm]
      simp [walkWithin, here, ih, Function.comp_def]
  | @rule c node cs inner events here _ _ ih ih' =>
      have turn : (.enter c :: inner ++ .exit c :: events).length + steps =
          inner.length + (events.length + steps + 1) + 1 := by
        simp
        omega
      rw [turn]
      simp [walkWithin, here, ih, ih', Function.comp_def]

theorem descendantsWithin_append (h : t.Traverses cs events) (steps : Nat) (stack : List NodeId) :
    t.descendantsWithin ((met events).length + steps) (cs ++ stack) =
      met events ++ t.descendantsWithin steps stack := by
  induction h generalizing steps stack with
  | nil => simp
  | @terminal c _ _ _ events here _ ih | @error c _ _ _ events here _ ih =>
      simp only [met_terminal, met_error, List.length_cons, Nat.add_right_comm]
      simp [descendantsWithin, children_of_node here, TreeNode.children, ih]
  | @rule c node cs inner events here _ _ ih ih' =>
      rw [length_met_rule, Nat.add_right_comm, Nat.add_assoc (met inner).length]
      simp [descendantsWithin, children_of_node here, TreeNode.children, ih, ih']

/-- The recursive walk ends and tells of the events, if it may go down far enough. -/
theorem mapM_eventsWithin (h : t.Traverses cs events) (enough : (met events).length ≤ levels) :
    ∃ parts, cs.mapM (t.eventsWithin levels) = some parts ∧ parts.flatten = events := by
  induction h generalizing levels with
  | nil => exact ⟨[], rfl, rfl⟩
  | @terminal c _ _ _ events here _ ih =>
      cases levels with
      | zero => simp at enough
      | succ levels =>
          obtain ⟨parts, run, flat⟩ := ih (Nat.le_of_succ_le enough)
          have one : t.eventsWithin (levels + 1) c = some [.terminal c] := by rw [eventsWithin, here]
          exact ⟨[.terminal c] :: parts, by simp [one, run], by simp [flat]⟩
  | @error c _ _ _ events here _ ih =>
      cases levels with
      | zero => simp at enough
      | succ levels =>
          obtain ⟨parts, run, flat⟩ := ih (Nat.le_of_succ_le enough)
          have one : t.eventsWithin (levels + 1) c = some [.error c] := by rw [eventsWithin, here]
          exact ⟨[.error c] :: parts, by simp [one, run], by simp [flat]⟩
  | @rule c node cs inner events here _ _ ih ih' =>
      cases levels with
      | zero => simp at enough
      | succ levels =>
          rw [length_met_rule] at enough
          obtain ⟨parts, run, flat⟩ := @ih levels (by omega)
          obtain ⟨others, run', flat'⟩ := @ih' (levels + 1) (by omega)
          have one : t.eventsWithin (levels + 1) c = some (.enter c :: inner ++ [.exit c]) := by
            rw [eventsWithin, here]
            simp [run, flat]
          exact ⟨(.enter c :: inner ++ [.exit c]) :: others, by simp [one, run'], by simp [flat']⟩

/-- The weight counts the nodes that are met. -/
theorem foldr_weightWithin (h : t.Traverses cs events) (enough : (met events).length ≤ levels) :
    (cs.map (t.weightWithin levels)).foldr (· + ·) 0 = (met events).length := by
  induction h generalizing levels with
  | nil => rfl
  | @terminal c _ _ _ events here _ ih | @error c _ _ _ events here _ ih =>
      cases levels with
      | zero => simp at enough
      | succ levels =>
          have others := @ih (levels + 1) (Nat.le_of_succ_le enough)
          rw [List.map_cons, List.foldr_cons, others, weightWithin_succ, children_of_node here]
          simp [TreeNode.children]
          omega
  | @rule c node cs inner events here _ _ ih ih' =>
      cases levels with
      | zero => simp at enough
      | succ levels =>
          rw [length_met_rule] at enough
          have below := @ih levels (by omega)
          have others := @ih' (levels + 1) (by omega)
          rw [List.map_cons, List.foldr_cons, others, weightWithin_succ, children_of_node here,
            TreeNode.children, below, length_met_rule]
          omega

end Traverses

variable {t : ParseTree} {root id : NodeId} {events : List TreeEvent}

/-- The texts of the tokens that events tell of, one after the other. -/
def textOf (t : ParseTree) (events : List TreeEvent) : String :=
  String.join ((events.filterMap (TreeEvent.leaf? t)).map (·.token.text))

theorem textOf_append (t : ParseTree) (events events' : List TreeEvent) :
    t.textOf (events ++ events') = t.textOf events ++ t.textOf events' := by
  simp [textOf]

theorem join_map_textOf (t : ParseTree) (parts : List (List TreeEvent)) :
    String.join (parts.map t.textOf) = t.textOf parts.flatten := by
  induction parts with
  | nil => rfl
  | cons part parts ih => simp [textOf_append, ih]

/-- The text of a node is that of the tokens that the recursive walk visits. -/
theorem textWithin_eq (t : ParseTree) (levels : Nat) (id : NodeId) :
    t.textWithin levels id = (t.eventsWithin levels id).map t.textOf := by
  induction levels generalizing id with
  | zero => rfl
  | succ levels ih =>
      rw [textWithin, eventsWithin]
      cases here : t.node? id with
      | none => rfl
      | some node =>
          cases node with
          | terminal | error => simp [textOf, TreeEvent.leaf?, here, TreeNode.token?]
          | rule node =>
              have each (cs : List NodeId) : cs.mapM (t.textWithin levels) =
                  (cs.mapM (t.eventsWithin levels)).map (List.map t.textOf) := by
                induction cs with
                | nil => rfl
                | cons c cs ih' =>
                    rw [List.mapM_cons, List.mapM_cons, ih, ih']
                    cases t.eventsWithin levels c <;> cases cs.mapM (t.eventsWithin levels) <;> rfl
              simp only [each]
              cases node.children.toList.mapM (t.eventsWithin levels) with
              | none => rfl
              | some parts =>
                  have ends (events : List TreeEvent) :
                      t.textOf (.enter id :: (events ++ [.exit id])) = t.textOf events := by
                    simp [textOf, TreeEvent.leaf?, List.filterMap_cons]
                  simp [join_map_textOf, ends]

/-- The recursive traversal of a tree ends. -/
theorem IsSubtree.exists_traverses (h : t.IsSubtree root) :
    ∃ events, t.Traverses [root] events := by
  apply h.descend (motive := fun _ id => ∃ events, t.Traverses [id] events) _ (Nat.le_refl _)
  intro _ id below children
  have inner := Traverses.of_each children
  obtain ⟨node, here⟩ := h.exists_node below
  cases node with
  | terminal token parent => exact ⟨[.terminal id], .terminal here .nil⟩
  | error token parent => exact ⟨[.error id], .error here .nil⟩
  | rule node =>
      rw [children_of_node here] at inner
      obtain ⟨events, inner⟩ := inner
      exact ⟨.enter id :: events ++ [.exit id], .rule here inner .nil⟩

/-- A traversal of parts of a tree that lie apart meets no node again. -/
theorem Traverses.nodup_met {cs : List NodeId} (h : t.Traverses cs events) (tree : t.IsSubtree root)
    (below : ∀ c ∈ cs, t.Below root c)
    (apart : cs.Pairwise fun c c' => ∀ x, t.Below c x → ¬ t.Below c' x) : (met events).Nodup := by
  induction h with
  | nil => simp
  | @terminal c _ _ _ events _ rest ih | @error c _ _ _ events _ rest ih =>
      obtain ⟨outside, apart⟩ := List.pairwise_cons.1 apart
      have fresh : c ∉ met events := by
        intro mem
        obtain ⟨c', mem, under⟩ := rest.mem_met.1 mem
        exact outside c' mem c .root under
      exact List.nodup_cons.2 ⟨fresh, ih (List.forall_mem_cons.1 below).2 apart⟩
  | @rule c node cs inner events here within rest ih ih' =>
      obtain ⟨first, others⟩ := List.forall_mem_cons.1 below
      obtain ⟨outside, apart⟩ := List.pairwise_cons.1 apart
      have children : t.children c = node.children.toList := children_of_node here
      have inside : (met inner).Nodup := by
        apply ih
        · exact fun d mem => first.child (children ▸ mem)
        · exact children ▸ tree.pairwise_children first
      have lower {x : NodeId} (mem : x ∈ met inner) : ∃ d ∈ t.children c, t.Below d x := by
        rw [children]
        exact within.mem_met.1 mem
      have fresh : c ∉ met inner := by
        intro mem
        obtain ⟨d, listed, round⟩ := lower mem
        exact tree.not_below_child first listed round
      have fresh' : c ∉ met events := by
        intro mem
        obtain ⟨c', mem, under⟩ := rest.mem_met.1 mem
        exact outside c' mem c .root under
      have disjoint : (met inner).Disjoint (met events) := by
        intro x mem mem'
        obtain ⟨d, listed, under⟩ := lower mem
        obtain ⟨c', mem', under'⟩ := rest.mem_met.1 mem'
        exact outside c' mem' x (.of_child listed under) under'
      simp [List.nodup_append', fresh, fresh', inside, ih' others apart, disjoint]

namespace Traverses

theorem events_eq (h : t.Traverses [root] events) (few : (met events).length ≤ t.size) :
    t.events root = some events := by
  obtain ⟨parts, run, flat⟩ := h.mapM_eventsWithin (Nat.le_succ_of_le few)
  rw [ParseTree.events]
  cases found : t.eventsWithin (t.size + 1) root with
  | none => simp [found] at run
  | some part =>
      obtain rfl : [part] = parts := by simpa [found] using run
      simpa using flat

theorem weight_eq (h : t.Traverses [root] events) (few : (met events).length ≤ t.size) :
    t.weight root = (met events).length := by
  simpa [ParseTree.weight] using h.foldr_weightWithin (Nat.le_succ_of_le few)

theorem walk_eq (h : t.Traverses [root] events) (few : (met events).length ≤ t.size) :
    t.walk root = some events := by
  have enough : events.length ≤ 2 * (met events).length + 1 := Nat.le_succ_of_le h.length_le
  obtain ⟨spare, steps⟩ := Nat.exists_eq_add_of_le enough
  have run := h.walkWithin_append spare []
  rw [walk, h.weight_eq few, steps]
  simpa [walkWithin] using run

theorem descendants_eq (h : t.Traverses [root] events) (few : (met events).length ≤ t.size) :
    t.descendants root = met events := by
  have run := h.descendantsWithin_append 0 []
  rw [descendants, h.weight_eq few]
  simpa [descendantsWithin] using run

theorem text?_eq (h : t.Traverses [root] events) (few : (met events).length ≤ t.size) :
    t.text? root = some (t.textOf events) := by
  rw [text?, textWithin_eq, ← ParseTree.events, h.events_eq few, Option.map_some]

end Traverses

/-- Where the links below a node form a tree, the walk with a stack tells of the events of the
recursive traversal, the descendants are the nodes in the order in which it first meets them, and
the text is that of the tokens in this order. -/
theorem walks_recursive (tree : t.IsSubtree root) : ∃ events, t.Traverses [root] events ∧
    t.events root = some events ∧ t.walk root = some events ∧
    t.descendants root = (events.map TreeEvent.node).eraseDups ∧
    t.text? root = some (t.textOf events) := by
  obtain ⟨events, traversal⟩ := tree.exists_traverses
  have once : (met events).Nodup := by
    apply traversal.nodup_met tree
    · simp [Below.root]
    · simp
  have inside : met events ⊆ List.range t.size := by
    intro id mem
    obtain ⟨c, top, below⟩ := traversal.mem_met.1 mem
    obtain rfl := List.mem_singleton.1 top
    exact List.mem_range.2 (tree.lt_size below)
  have few : (met events).length ≤ t.size := by
    simpa using (List.subperm_of_subset once inside).length_le
  refine ⟨events, traversal, traversal.events_eq few, traversal.walk_eq few, ?_,
    traversal.text?_eq few⟩
  rw [traversal.eraseDups_node once]
  exact traversal.descendants_eq few

/-- The call for the operator comes before the call that it was put around. -/
theorem walks_recursive_wrapped : wrapped.IsSubtree 0 ∧
    (∃ events, wrapped.Traverses [0] events ∧ wrapped.events 0 = some events ∧
      wrapped.walk 0 = some events ∧
      wrapped.descendants 0 = (events.map TreeEvent.node).eraseDups ∧
      wrapped.text? 0 = some (wrapped.textOf events)) ∧
    wrapped.walk 0 = some [.enter 0, .enter 3, .enter 1, .terminal 2, .exit 1, .enter 4,
      .terminal 5, .exit 4, .exit 3, .error 6, .exit 0] ∧
    wrapped.descendants 0 = [0, 3, 1, 2, 4, 5, 6] ∧ wrapped.text? 0 = some "ab?" :=
  ⟨wrapped_isSubtree, walks_recursive wrapped_isSubtree, by decide, by decide, by decide⟩

end ParseTree

end AdaptiveLL
