import AdaptiveLL.Proofs.Tree.Outline
import AdaptiveLL.Tree.Walk
import Mathlib.Data.List.Nodup
import Mathlib.Data.List.Perm.Subperm
/-!
Complete parts of a tree: nodes below which nothing will be added, with their numbers in the
order of a walk and the leaves from left to right. In such a part every node is listed where
its parent link says, and the recursive walk meets exactly the leaves. So it is with every node of
a tree that is complete as a whole.
-/
namespace AdaptiveLL

/-- The leaf as a node. -/
def Leaf.node (l : Leaf) (parent : NodeId) : TreeNode :=
  if l.isError then .error l.token (some parent) else .terminal l.token (some parent)

namespace Leaf

variable {l : Leaf} {parent : NodeId}

@[simp] theorem parent_node : (l.node parent).parent = some parent := by
  unfold node
  split <;> rfl

@[simp] theorem children_node : (l.node parent).children = [] := by
  unfold node
  split <;> rfl

@[simp] theorem outline_node : (l.node parent).outline = l.node parent := by
  unfold node
  split <;> rfl

end Leaf

/-- The leaf that an event of a walk tells of. -/
def TreeEvent.leaf? (t : ParseTree) : TreeEvent → Option Leaf
  | enter _ | exit _ => none
  | terminal id => ((t.node? id).bind TreeNode.token?).map fun token => ⟨token, false⟩
  | error id => ((t.node? id).bind TreeNode.token?).map fun token => ⟨token, true⟩

namespace ParseTree

/-- The leaves below a node, from left to right. -/
def leaves? (t : ParseTree) (id : NodeId) : Option (List Leaf) :=
  (t.events id).map fun events => events.filterMap (TreeEvent.leaf? t)

/-- A node and the nodes below it. -/
inductive Below (t : ParseTree) (root : NodeId) : NodeId → Prop
  | root : Below t root root
  | child {parent id : NodeId} (above : Below t root parent) (listed : id ∈ t.children parent) :
      Below t root id

/-- Below the node there is a tree: each node there is listed once, by the parent that it is linked
to, and the node itself is not listed there. -/
structure IsTree (t : ParseTree) (root : NodeId) : Prop where
  acyclic : ∀ {id}, t.Below root id → root ∉ t.children id
  listed : ∀ {id}, t.Below root id → id ≠ root → ∃ parent, t.parent? id = some parent ∧
    (t.children parent).count id = 1 ∧ ∀ other, id ∈ t.children other → other = parent

/-- The node is the root of a tree: nothing is above it. -/
structure IsRoot (t : ParseTree) (root : NodeId) : Prop extends t.IsTree root where
  parent : t.parent? root = none
  unlisted : ∀ id, root ∉ t.children id

/-- The nodes `cs` are linked to `parent`, and complete: `ids` are the nodes at and below them in
the order of a walk, and `leaves` their leaves. -/
inductive Grown (t : ParseTree) : NodeId → List NodeId → List NodeId → List Leaf → Prop
  | nil {parent : NodeId} : Grown t parent [] [] []
  | leaf {parent c : NodeId} {l : Leaf} {cs ids : List NodeId} {leaves : List Leaf}
      (here : t.node? c = some (l.node parent)) (rest : Grown t parent cs ids leaves) :
      Grown t parent (c :: cs) (c :: ids) (l :: leaves)
  | rule {parent c : NodeId} {node : RuleNode} {cs inner ids : List NodeId}
      {below leaves : List Leaf} (here : t.node? c = some (.rule node))
      (linked : node.parent = some parent) (within : Grown t c node.children.toList inner below)
      (rest : Grown t parent cs ids leaves) :
      Grown t parent (c :: cs) (c :: inner ++ ids) (below ++ leaves)

namespace Grown

variable {t t' : ParseTree} {parent q c : NodeId} {cs cs' ids ids' : List NodeId}
  {leaves leaves' : List Leaf}

/-- Nodes elsewhere do not matter. -/
theorem congr (h : Grown t parent cs ids leaves) (same : ∀ id ∈ ids, t'.node? id = t.node? id) :
    Grown t' parent cs ids leaves := by
  induction h with
  | nil => exact .nil
  | leaf here _ ih =>
      obtain ⟨first, others⟩ := List.forall_mem_cons.1 same
      exact .leaf (first.trans here) (ih others)
  | rule here linked _ _ ih ih' =>
      obtain ⟨first, others⟩ := List.forall_mem_cons.1 same
      obtain ⟨inside, outside⟩ := List.forall_mem_append.1 others
      exact .rule (first.trans here) linked (ih inside) (ih' outside)

theorem append (h : Grown t parent cs ids leaves) (h' : Grown t parent cs' ids' leaves') :
    Grown t parent (cs ++ cs') (ids ++ ids') (leaves ++ leaves') := by
  induction h with
  | nil => exact h'
  | leaf here _ ih => exact .leaf here (ih h')
  | rule here linked within _ _ ih =>
      simpa only [List.cons_append, List.append_assoc] using .rule here linked within (ih h')

/-- Outlines know what is complete. -/
theorem of_outline (h : Grown t.outline parent cs ids leaves) : Grown t parent cs ids leaves := by
  induction h with
  | nil => exact .nil
  | @leaf _ _ l _ _ _ here _ ih =>
      rw [node?_outline, Option.map_eq_some_iff] at here
      obtain ⟨node, here, same⟩ := here
      refine .leaf (here.trans (congrArg some ?_)) ih
      cases node with
      | rule node =>
          unfold Leaf.node at same
          split at same <;> cases same
      | terminal | error => exact same
  | rule here linked _ _ ih ih' =>
      rw [node?_outline, Option.map_eq_some_iff] at here
      obtain ⟨node, here, same⟩ := here
      cases node with
      | rule node =>
          cases same
          exact .rule here linked ih ih'
      | terminal | error => cases same

/-- The parts are listed in the order of the walk, and linked to the parent. -/
theorem top (h : Grown t parent cs ids leaves) :
    cs.Sublist ids ∧ ∀ c ∈ cs, t.parent? c = some parent := by
  induction h with
  | nil => simp
  | leaf here _ ih =>
      refine ⟨ih.1.cons_cons _, List.forall_mem_cons.2 ⟨?_, ih.2⟩⟩
      simp [parent?, here]
  | @rule _ _ _ _ inner _ _ _ here linked _ _ _ ih =>
      refine ⟨(ih.1.trans (List.sublist_append_right inner _)).cons_cons _,
        List.forall_mem_cons.2 ⟨?_, ih.2⟩⟩
      simp [parent?, here, TreeNode.parent, linked]

/-- So are the children of each node below. -/
theorem inside (h : Grown t parent cs ids leaves) :
    ∀ q ∈ ids, (t.children q).Sublist ids ∧ ∀ c ∈ t.children q, t.parent? c = some q := by
  induction h with
  | nil => simp
  | leaf here _ ih =>
      refine List.forall_mem_cons.2 ⟨by simp [children, here], fun q mem => ?_⟩
      exact (ih q mem).imp_left (·.cons _)
  | @rule _ _ _ _ inner ids _ _ here _ within _ ih ih' =>
      refine List.forall_mem_cons.2 ⟨?_, List.forall_mem_append.2 ⟨fun q mem => ?_, fun q mem => ?_⟩⟩
      · have top := within.top
        simp only [children, here, Option.map_some, TreeNode.children, Option.getD_some]
        exact ⟨(top.1.trans (List.sublist_append_left inner ids)).cons _, top.2⟩
      · exact (ih q mem).imp_left fun sub => (sub.trans (List.sublist_append_left inner ids)).cons _
      · exact (ih' q mem).imp_left fun sub => (sub.trans (List.sublist_append_right inner ids)).cons _

/-- The recursive walk over complete parts ends, and meets their leaves. -/
theorem events (h : Grown t parent cs ids leaves) {fuel : Nat} (enough : ids.length ≤ fuel) :
    ∃ found, cs.mapM (t.eventsWithin fuel) = some found ∧
      found.flatten.filterMap (TreeEvent.leaf? t) = leaves := by
  induction h generalizing fuel with
  | nil => exact ⟨[], rfl, rfl⟩
  | @leaf _ c l _ _ _ here _ ih =>
      cases fuel with
      | zero => cases enough
      | succ fuel =>
          obtain ⟨found, run, met⟩ := ih (Nat.le_of_succ_le enough)
          have one : ∃ event, t.eventsWithin (fuel + 1) c = some [event] ∧
              event.leaf? t = some l := by
            obtain ⟨token, isError⟩ := l
            cases isError with
            | true => exact ⟨.error c, by rw [eventsWithin, here]; rfl, by rw [TreeEvent.leaf?, here]; rfl⟩
            | false =>
                exact ⟨.terminal c, by rw [eventsWithin, here]; rfl, by rw [TreeEvent.leaf?, here]; rfl⟩
          obtain ⟨event, runs, tells⟩ := one
          refine ⟨[event] :: found, by rw [List.mapM_cons, runs, run]; rfl, ?_⟩
          rw [List.flatten_cons, List.filterMap_append, met, List.filterMap_cons_some tells]
          rfl
  | @rule _ c node _ inner ids _ _ here _ _ _ ih ih' =>
      rw [List.cons_append, List.length_cons, List.length_append] at enough
      cases fuel with
      | zero => cases enough
      | succ fuel =>
          obtain ⟨within, runs, tells⟩ := @ih fuel (by omega)
          obtain ⟨found, run, met⟩ := @ih' (fuel + 1) (by omega)
          have one : t.eventsWithin (fuel + 1) c = some (.enter c :: within.flatten ++ [.exit c]) := by
            rw [eventsWithin, here]
            simp only [runs]
            rfl
          refine ⟨_, by rw [List.mapM_cons, one, run]; rfl, ?_⟩
          rw [List.flatten_cons, List.filterMap_append, met, List.filterMap_append, List.filterMap_cons,
            tells]
          simp [TreeEvent.leaf?]

theorem lt_size (h : Grown t parent cs ids leaves) : ∀ id ∈ ids, id < t.size := by
  induction h with
  | nil => simp
  | leaf here _ ih => exact List.forall_mem_cons.2 ⟨ParseTree.lt_size here, ih⟩
  | rule here _ _ _ ih ih' =>
      exact List.forall_mem_cons.2 ⟨ParseTree.lt_size here, List.forall_mem_append.2 ⟨ih, ih'⟩⟩

/-- Every node is linked to a parent. -/
theorem parented (h : Grown t parent cs ids leaves) : ∀ id ∈ ids, t.parent? id ≠ none := by
  induction h with
  | nil => simp
  | leaf here _ ih => exact List.forall_mem_cons.2 ⟨by simp [parent?, here], ih⟩
  | rule here linked _ _ ih ih' =>
      refine List.forall_mem_cons.2 ⟨?_, List.forall_mem_append.2 ⟨ih, ih'⟩⟩
      simp [parent?, here, TreeNode.parent, linked]

/-- Complete parts are below what is above the node that they are linked to. -/
theorem all_below {root : NodeId} (h : Grown t parent cs ids leaves) (above : t.Below root parent)
    (listed : ∀ c ∈ cs, c ∈ t.children parent) : ∀ id ∈ ids, t.Below root id := by
  induction h with
  | nil => simp
  | leaf here _ ih =>
      obtain ⟨first, others⟩ := List.forall_mem_cons.1 listed
      exact List.forall_mem_cons.2 ⟨.child above first, ih above others⟩
  | rule here linked within _ ih ih' =>
      obtain ⟨first, others⟩ := List.forall_mem_cons.1 listed
      have under := Below.child above first
      refine List.forall_mem_cons.2 ⟨under, List.forall_mem_append.2 ⟨ih under ?_, ih' above others⟩⟩
      simp [children, here, TreeNode.children]

variable {node : RuleNode}

/-- Every node of a complete part is complete. -/
theorem part (h : Grown t parent cs ids leaves) (mem : c ∈ ids) (here : t.node? c = some (.rule node)) :
    ∃ inner below, Grown t c node.children.toList inner below ∧ inner.Sublist ids := by
  induction h with
  | nil => cases mem
  | @leaf _ _ l _ _ _ here' _ ih =>
      rcases List.mem_cons.1 mem with rfl | mem
      · rw [here] at here'
        have clash := congrArg TreeNode.rule? (Option.some.inj here')
        unfold Leaf.node at clash
        split at clash <;> cases clash
      · obtain ⟨inner, below, within, sub⟩ := ih mem
        exact ⟨inner, below, within, sub.cons _⟩
  | @rule _ _ node' _ inner ids below _ here' _ within _ ih ih' =>
      rcases List.mem_cons.1 mem with rfl | mem
      · rw [here] at here'
        cases here'
        exact ⟨inner, below, within, (List.sublist_append_left inner ids).cons _⟩
      rcases List.mem_append.1 mem with mem | mem
      · obtain ⟨inner', below', within', sub⟩ := ih mem
        exact ⟨inner', below', within', (sub.trans (List.sublist_append_left inner ids)).cons _⟩
      · obtain ⟨inner', below', within', sub⟩ := ih' mem
        exact ⟨inner', below', within', (sub.trans (List.sublist_append_right inner ids)).cons _⟩

variable {root : NodeId} {inner : List NodeId}

/-- At and below a complete node, the children are further below, and linked where they are listed. -/
theorem lists (here : t.node? root = some (.rule node))
    (within : Grown t root node.children.toList inner leaves) : ∀ q ∈ root :: inner,
    (t.children q).Sublist inner ∧ ∀ c ∈ t.children q, t.parent? c = some q := by
  refine List.forall_mem_cons.2 ⟨?_, within.inside⟩
  rw [show t.children root = node.children.toList by simp [ParseTree.children, here, TreeNode.children]]
  exact within.top

theorem mem_of_below {id : NodeId} (here : t.node? root = some (.rule node))
    (within : Grown t root node.children.toList inner leaves) (h : t.Below root id) :
    id ∈ root :: inner := by
  induction h with
  | root => exact .head _
  | child _ listed ih => exact .tail _ ((lists here within _ ih).1.subset listed)

/-- Below a complete node there is a tree, if no node elsewhere lists one of its nodes. -/
theorem isTree (here : t.node? root = some (.rule node))
    (within : Grown t root node.children.toList inner leaves) (nodup : (root :: inner).Nodup)
    (apart : ∀ q, q ∉ root :: inner → ∀ c ∈ t.children q, c ∉ inner) : t.IsTree root := by
  obtain ⟨free, nodup⟩ := List.nodup_cons.1 nodup
  have lists := lists here within
  have below {id : NodeId} (h : t.Below root id) : id ∈ root :: inner := mem_of_below here within h
  constructor
  case acyclic => exact fun h mem => free ((lists _ (below h)).1.subset mem)
  case listed =>
    intro id h other
    cases h with
    | root => exact absurd rfl other
    | @child q _ above mem =>
        obtain ⟨sub, linked⟩ := lists q (below above)
        have known := sub.subset mem
        refine ⟨q, linked id mem, List.count_eq_one_of_mem (sub.nodup nodup) mem, fun q' mem' => ?_⟩
        have inside : q' ∈ root :: inner := by
          by_contra outside
          exact apart q' outside id mem' known
        exact Option.some.inj (((lists q' inside).2 id mem').symm.trans (linked id mem))

/-- The walk from a complete node meets its leaves. -/
theorem leaves?_eq (here : t.node? root = some (.rule node))
    (within : Grown t root node.children.toList inner leaves) (nodup : inner.Nodup) :
    t.leaves? root = some leaves := by
  have few : inner.length ≤ t.size := by
    have sub : inner ⊆ List.range t.size := fun id mem => List.mem_range.2 (within.lt_size id mem)
    simpa using (List.subperm_of_subset nodup sub).length_le
  obtain ⟨found, run, met⟩ := within.events few
  have runs : t.events root = some (.enter root :: found.flatten ++ [.exit root]) := by
    rw [ParseTree.events, eventsWithin, here]
    simp only [run]
    rfl
  rw [leaves?, runs, Option.map_some, List.filterMap_append, List.filterMap_cons, met]
  simp [TreeEvent.leaf?]

end Grown

/-- The tree below `root` is complete, and its nodes are those with the numbers from `first` on. -/
def Whole (t : ParseTree) (first : Nat) (root : NodeId) (leaves : List Leaf) : Prop :=
  ∃ node ids, t.node? root = some (.rule node) ∧ Grown t root node.children.toList ids leaves ∧
    (root :: ids).Nodup ∧ ∀ id, id ∈ root :: ids ↔ first ≤ id ∧ id < t.size

namespace Whole

variable {t t' : ParseTree} {first : Nat} {root id : NodeId} {leaves : List Leaf}

theorem root_le (h : t.Whole first root leaves) : first ≤ root ∧ root < t.size := by
  obtain ⟨node, ids, -, -, -, all⟩ := h
  exact (all root).1 (.head _)

theorem leaves?_eq (h : t.Whole first root leaves) : t.leaves? root = some leaves := by
  obtain ⟨node, ids, here, within, nodup, -⟩ := h
  exact within.leaves?_eq here (List.nodup_cons.1 nodup).2

theorem below (h : t.Whole first root leaves) (new : first ≤ id) (made : id < t.size) :
    t.Below root id := by
  obtain ⟨node, ids, here, within, -, all⟩ := h
  rcases List.mem_cons.1 ((all id).2 ⟨new, made⟩) with rfl | mem
  · exact .root
  · exact within.all_below .root (by simp [children, here, TreeNode.children]) id mem

/-- The root is the only one of its nodes that may lack a parent. -/
theorem eq_root (h : t.Whole first root leaves) (new : first ≤ id) (made : id < t.size)
    (orphan : t.parent? id = none) : id = root := by
  obtain ⟨node, ids, -, within, -, all⟩ := h
  have known := List.mem_cons.1 ((all id).2 ⟨new, made⟩)
  exact known.resolve_right fun mem => within.parented id mem orphan

/-- Every rule node is complete. -/
theorem part {node : RuleNode} (h : t.Whole first root leaves) (new : first ≤ id)
    (here : t.node? id = some (.rule node)) :
    ∃ inner below, Grown t id node.children.toList inner below ∧ inner.Nodup := by
  obtain ⟨rootNode, ids, root?, within, nodup, all⟩ := h
  have apart := (List.nodup_cons.1 nodup).2
  rcases List.mem_cons.1 ((all id).2 ⟨new, lt_size here⟩) with rfl | mem
  · rw [here] at root?
    cases root?
    exact ⟨ids, leaves, within, apart⟩
  · obtain ⟨inner, below, within, sub⟩ := within.part mem here
    exact ⟨inner, below, within, sub.nodup apart⟩

/-- Outlines know what is complete. -/
theorem of_outline (h : t.outline.Whole first root leaves) : t.Whole first root leaves := by
  obtain ⟨node, ids, here, within, nodup, all⟩ := h
  obtain ⟨node', here', outline⟩ := exists_of_node?_outline here
  cases outline
  rw [size_outline] at all
  exact ⟨node', ids, here', within.of_outline, nodup, all⟩

/-- It does not matter where the root is linked to. -/
theorem setParent (h : t.Whole first root leaves) (parent : Option NodeId) :
    (t.setParent root parent).Whole first root leaves := by
  obtain ⟨node, ids, here, within, nodup, all⟩ := h
  refine ⟨{ node with parent }, ids, ?_, within.congr fun id mem => ?_, nodup, ?_⟩
  · rw [node?_setParent, if_pos rfl, here]
    rfl
  · have apart : root ≠ id := fun same => (List.nodup_cons.1 nodup).1 (same ▸ mem)
    rw [node?_setParent, if_neg apart]
  · rwa [size_setParent]

/-- Older nodes do not matter. -/
theorem addChild (h : t.Whole first root leaves) {parent : NodeId} (older : parent < first)
    (child : NodeId) : (t.addChild parent child).Whole first root leaves := by
  obtain ⟨node, ids, here, within, nodup, all⟩ := h
  have same {id : NodeId} (mem : id ∈ root :: ids) :
      (t.addChild parent child).node? id = t.node? id := by
    have new := ((all id).1 mem).1
    rw [ParseTree.addChild, node?_modifyRule, if_neg (Nat.ne_of_lt (Nat.lt_of_lt_of_le older new))]
  refine ⟨node, ids, (same (.head _)).trans here, within.congr fun id mem => same (.tail _ mem), nodup, ?_⟩
  rwa [ParseTree.addChild, size_modifyRule]

end Whole

/-- Out of the tree `base` another one was made: below `root` there are its new nodes, and the old
ones have the children that they had, except that the root may have been put under one of them. -/
structure Made (base t : ParseTree) (parent : Option NodeId) (root : NodeId) (leaves : List Leaf) :
    Prop where
  whole : t.Whole base.size root leaves
  linked : t.parent? root = parent
  old : ∀ q < base.size, t.children q = base.children q ∨
    parent = some q ∧ t.children q = base.children q ++ [root]

namespace Made

variable {base t : ParseTree} {parent : Option NodeId} {root : NodeId} {leaves : List Leaf}

/-- The root is linked to nothing. -/
theorem loose (whole : t.Whole base.size root leaves)
    (old : ∀ q < base.size, t.node? q = base.node? q) :
    base.Made (t.setParent root none) none root leaves where
  whole := whole.setParent none
  linked := by
    obtain ⟨node, _, here, -⟩ := whole
    rw [parent?, node?_setParent, if_pos rfl, here]
    rfl
  old q lt := by
    have apart : root ≠ q := Nat.ne_of_gt (Nat.lt_of_lt_of_le lt whole.root_le.1)
    left
    rw [children, node?_setParent, if_neg apart, old q lt, children]

/-- The root is put under an older node. -/
theorem hang (whole : t.Whole base.size root leaves)
    (old : ∀ q < base.size, t.node? q = base.node? q) {ground : NodeId} (older : ground < base.size) :
    base.Made ((t.setParent root (some ground)).addChild ground root) (some ground) root leaves where
  whole := (whole.setParent _).addChild older root
  linked := by
    have apart : ground ≠ root := Nat.ne_of_lt (Nat.lt_of_lt_of_le older whole.root_le.1)
    obtain ⟨node, _, here, -⟩ := whole
    rw [parent?, ParseTree.addChild, node?_modifyRule, if_neg apart, node?_setParent, if_pos rfl, here]
    rfl
  old q lt := by
    have apart : root ≠ q := Nat.ne_of_gt (Nat.lt_of_lt_of_le lt whole.root_le.1)
    have same : (t.setParent root (some ground)).node? q = base.node? q := by
      rw [node?_setParent, if_neg apart, old q lt]
    by_cases here : ground = q
    · subst here
      rw [children, children, ParseTree.addChild, node?_modifyRule, if_pos rfl, same]
      cases known : base.node? ground with
      | none => simp
      | some node => cases node <;> simp [TreeNode.mapRule, TreeNode.children]
    · left
      rw [children, ParseTree.addChild, node?_modifyRule, if_neg here, same, children]

/-- Outlines know what was made. -/
theorem of_outline (h : base.outline.Made t.outline parent root leaves) :
    base.Made t parent root leaves where
  whole := by simpa using h.whole.of_outline
  linked := by simpa using h.linked
  old := by simpa using h.old

theorem isTree (h : base.Made t parent root leaves)
    (closed : ∀ q, ∀ c ∈ base.children q, c < base.size) : t.IsTree root := by
  obtain ⟨node, ids, here, within, nodup, all⟩ := h.whole
  refine within.isTree here nodup fun q outside c listed mem => ?_
  have made := lt_size_of_mem_children listed
  have older : q < base.size := Nat.lt_of_not_le fun new => outside ((all q).2 ⟨new, made⟩)
  have apart (known : c ∈ base.children q) : False :=
    Nat.not_le.2 (closed q c known) ((all c).1 (.tail _ mem)).1
  rcases h.old q older with same | ⟨-, same⟩ <;> rw [same] at listed
  · exact apart listed
  · rcases List.mem_append.1 listed with known | new
    · exact apart known
    · exact (List.nodup_cons.1 nodup).1 (List.mem_singleton.1 new ▸ mem)

theorem isRoot (h : base.Made t none root leaves)
    (closed : ∀ q, ∀ c ∈ base.children q, c < base.size) : t.IsRoot root where
  toIsTree := h.isTree closed
  parent := h.linked
  unlisted q listed := by
    have beyond := h.whole.root_le
    rcases Nat.lt_or_ge q base.size with older | new
    · rw [(h.old q older).resolve_right (by simp)] at listed
      exact Nat.not_le.2 (closed q root listed) beyond.1
    · have made := lt_size_of_mem_children listed
      exact (h.isTree closed).acyclic (h.whole.below new made) listed

end Made

end ParseTree

end AdaptiveLL
