import AdaptiveLL.Tree.Basic
import Mathlib.Data.List.Basic
/-!
Outlines of parse trees: what is left of a tree if everything is forgotten that is only noted
on its rule nodes, such as where they begin and end. Moves of a parser that change notes alone
leave the outline as it is.
-/
namespace AdaptiveLL

/-- A token in a tree, and whether it is an error node. -/
structure Leaf where
  token : Token
  isError : Bool
  deriving DecidableEq

/-- What links a rule node to the call that it stands for. -/
structure Link where
  rule : Nat
  invoking : Option Nat
  parent : Option NodeId
  deriving DecidableEq

namespace RuleNode

def link (node : RuleNode) : Link where
  rule := node.rule
  invoking := node.invoking
  parent := node.parent

/-- The node without notes. -/
def outline (node : RuleNode) : RuleNode :=
  { rule := node.rule, invoking := node.invoking, parent := node.parent
    children := node.children }

end RuleNode

namespace TreeNode

def outline : TreeNode → TreeNode
  | rule node => rule node.outline
  | terminal token parent => terminal token parent
  | error token parent => error token parent

@[simp] theorem outline_parent (node : TreeNode) : node.outline.parent = node.parent := by
  cases node <;> rfl

@[simp] theorem outline_children (node : TreeNode) : node.outline.children = node.children := by
  cases node <;> rfl

@[simp] theorem outline_rule? (node : TreeNode) :
    node.outline.rule? = node.rule?.map RuleNode.outline := by
  cases node <;> rfl

@[simp] theorem outline_withParent (node : TreeNode) (parent : Option NodeId) :
    (node.withParent parent).outline = node.outline.withParent parent := by
  cases node <;> rfl

end TreeNode

namespace ParseTree

variable {t t' t'' : ParseTree} {id parent : NodeId}

theorem ext_node? (h : ∀ id, t.node? id = t'.node? id) : t = t' :=
  congrArg ParseTree.mk (Array.ext_getElem? h)

theorem node?_push (t : ParseTree) (node : TreeNode) (id : NodeId) :
    (t.push node).2.node? id = if id = t.size then some node else t.node? id :=
  Array.getElem?_push

theorem node?_modifyRule (t : ParseTree) (id other : NodeId) (f : RuleNode → RuleNode) :
    (t.modifyRule id f).node? other =
      if id = other then (t.node? other).map (TreeNode.mapRule f) else t.node? other :=
  Array.getElem?_modify

theorem node?_setParent (t : ParseTree) (id other : NodeId) (parent : Option NodeId) :
    (t.setParent id parent).node? other =
      if id = other then (t.node? other).map (TreeNode.withParent parent) else t.node? other :=
  Array.getElem?_modify

theorem node?_eq_none (h : t.size ≤ id) : t.node? id = none :=
  Array.getElem?_eq_none h

theorem lt_size {node : TreeNode} (h : t.node? id = some node) : id < t.size :=
  (Array.getElem?_eq_some_iff.1 h).1

theorem lt_size_of_mem_children (h : id ∈ t.children parent) : parent < t.size := by
  by_contra beyond
  simp [children, node?_eq_none (Nat.le_of_not_lt beyond)] at h

@[simp] theorem size_push (t : ParseTree) (node : TreeNode) : (t.push node).2.size = t.size + 1 :=
  Array.size_push _

@[simp] theorem size_modifyRule (t : ParseTree) (id : NodeId) (f : RuleNode → RuleNode) :
    (t.modifyRule id f).size = t.size :=
  Array.size_modify

@[simp] theorem size_setParent (t : ParseTree) (id : NodeId) (parent : Option NodeId) :
    (t.setParent id parent).size = t.size :=
  Array.size_modify

def link? (t : ParseTree) (id : NodeId) : Option Link :=
  (t.rule? id).map RuleNode.link

theorem link?_eq_some {l : Link} : t.link? id = some l ↔
    ∃ node, t.node? id = some (.rule node) ∧ node.link = l := by
  unfold link? rule?
  cases t.node? id with
  | none => simp
  | some node => cases node <;> simp [TreeNode.rule?]

theorem parent?_of_link {l : Link} (h : t.link? id = some l) : t.parent? id = l.parent := by
  obtain ⟨node, here, rfl⟩ := link?_eq_some.1 h
  simp [parent?, here, TreeNode.parent, RuleNode.link]

def outline (t : ParseTree) : ParseTree :=
  ⟨t.nodes.map TreeNode.outline⟩

@[simp] theorem size_outline (t : ParseTree) : t.outline.size = t.size :=
  Array.size_map

@[simp] theorem node?_outline (t : ParseTree) (id : NodeId) :
    t.outline.node? id = (t.node? id).map TreeNode.outline :=
  Array.getElem?_map

theorem exists_of_node?_outline {node : RuleNode}
    (h : t.outline.node? id = some (.rule node)) :
    ∃ node', t.node? id = some (.rule node') ∧ node'.outline = node := by
  rw [node?_outline, Option.map_eq_some_iff] at h
  obtain ⟨node', here, same⟩ := h
  cases node' with
  | rule node' =>
      cases same
      exact ⟨node', here, rfl⟩
  | terminal | error => cases same

@[simp] theorem parent?_outline (t : ParseTree) (id : NodeId) :
    t.outline.parent? id = t.parent? id := by
  unfold parent?
  rw [node?_outline]
  cases t.node? id <;> simp

@[simp] theorem children_outline (t : ParseTree) (id : NodeId) :
    t.outline.children id = t.children id := by
  unfold children
  rw [node?_outline]
  cases t.node? id <;> simp

@[simp] theorem link?_outline (t : ParseTree) (id : NodeId) :
    t.outline.link? id = t.link? id := by
  unfold link? rule?
  rw [node?_outline]
  cases t.node? id with
  | none => rfl
  | some node => cases node <;> rfl

theorem outline_push (t : ParseTree) (node : TreeNode) :
    (t.push node).2.outline = (t.outline.push node.outline).2 := by
  refine ext_node? fun id => ?_
  rw [node?_outline, node?_push, node?_push, node?_outline, size_outline]
  split <;> rfl

/-- A change of notes. -/
theorem outline_note {f : RuleNode → RuleNode} (h : ∀ node, (f node).outline = node.outline)
    (t : ParseTree) (id : NodeId) : (t.modifyRule id f).outline = t.outline := by
  refine ext_node? fun other => ?_
  rw [node?_outline, node?_modifyRule, node?_outline]
  split
  · rcases t.node? other with _ | node
    · rfl
    · cases node with
      | rule node => exact congrArg (fun node => some (TreeNode.rule node)) (h node)
      | terminal => rfl
      | error => rfl
  · rfl

/-- A change that does not depend on notes. -/
theorem outline_modifyRule {f : RuleNode → RuleNode}
    (h : ∀ node, (f node).outline = f node.outline) (t : ParseTree) (id : NodeId) :
    (t.modifyRule id f).outline = t.outline.modifyRule id f := by
  refine ext_node? fun other => ?_
  rw [node?_outline, node?_modifyRule, node?_modifyRule, node?_outline]
  split
  · rcases t.node? other with _ | node
    · rfl
    · cases node with
      | rule node => exact congrArg (fun node => some (TreeNode.rule node)) (h node)
      | terminal => rfl
      | error => rfl
  · rfl

@[simp] theorem outline_addChild (t : ParseTree) (parent child : NodeId) :
    (t.addChild parent child).outline = t.outline.addChild parent child :=
  outline_modifyRule (f := fun node => { node with children := node.children.push child })
    (fun _ => rfl) t parent

@[simp] theorem outline_setParent (t : ParseTree) (id : NodeId) (parent : Option NodeId) :
    (t.setParent id parent).outline = t.outline.setParent id parent := by
  refine ext_node? fun other => ?_
  rw [node?_outline, node?_setParent, node?_setParent, node?_outline]
  split
  · rcases t.node? other with _ | node
    · rfl
    · exact congrArg some (TreeNode.outline_withParent node parent)
  · rfl

@[simp] theorem outline_addRule (t : ParseTree) (rule : Nat) (parent : Option NodeId)
    (invoking : Option Nat) :
    (t.addRule rule parent invoking).2.outline = (t.outline.addRule rule parent invoking).2 :=
  outline_push t _

@[simp] theorem outline_addToken (t : ParseTree) (parent : NodeId) (token : Token)
    (isError : Bool) :
    (t.addToken parent token isError).2.outline = (t.outline.addToken parent token isError).2 := by
  unfold addToken addDetached
  have id : t.outline.nodes.size = t.nodes.size := Array.size_map
  cases isError <;> simp only [Bool.false_eq_true, if_false, if_true, push, id] <;>
    exact (outline_addChild _ _ _).trans (congrArg (ParseTree.addChild · _ _) (outline_push t _))

/-- The tree with tokens added under a node, if there is one. -/
def graft (t : ParseTree) (parent : Option NodeId) (leaves : List Leaf) : ParseTree :=
  match parent with
  | none => t
  | some parent => leaves.foldl (fun t leaf => (t.addToken parent leaf.token leaf.isError).2) t

@[simp] theorem graft_nil (t : ParseTree) (parent : Option NodeId) : t.graft parent [] = t := by
  cases parent <;> rfl

theorem graft_append (t : ParseTree) (parent : Option NodeId) (first second : List Leaf) :
    t.graft parent (first ++ second) = (t.graft parent first).graft parent second := by
  cases parent with
  | none => rfl
  | some parent => exact List.foldl_append

/-- The rule nodes keep their links. -/
structure Keeps (t t' : ParseTree) : Prop where
  size : t.size ≤ t'.size
  link : ∀ {id l}, t.link? id = some l → t'.link? id = some l

namespace Keeps

theorem refl (t : ParseTree) : Keeps t t := ⟨Nat.le_refl _, id⟩

theorem trans (first : Keeps t t') (second : Keeps t' t'') : Keeps t t'' :=
  ⟨Nat.le_trans first.size second.size, fun h => second.link (first.link h)⟩

theorem push (t : ParseTree) (node : TreeNode) : Keeps t (t.push node).2 where
  size := by simp
  link {id l} h := by
    obtain ⟨node, here, same⟩ := link?_eq_some.1 h
    refine link?_eq_some.2 ⟨node, ?_, same⟩
    rw [node?_push, if_neg (Nat.ne_of_lt (lt_size here)), here]

theorem modify {f : RuleNode → RuleNode} (h : ∀ node, (f node).link = node.link)
    (t : ParseTree) (id : NodeId) : Keeps t (t.modifyRule id f) where
  size := by simp
  link {other l} linked := by
    obtain ⟨node, here, same⟩ := link?_eq_some.1 linked
    rw [link?_eq_some, node?_modifyRule, here]
    split
    · exact ⟨f node, rfl, (h node).trans same⟩
    · exact ⟨node, rfl, same⟩

theorem addChild (t : ParseTree) (parent child : NodeId) : Keeps t (t.addChild parent child) :=
  modify (f := fun node => { node with children := node.children.push child }) (fun _ => rfl) t
    parent

theorem addDetached (t : ParseTree) (parent : NodeId) (token : Token) (isError : Bool) :
    Keeps t (t.addDetached parent token isError).2 :=
  push t _

theorem addToken (t : ParseTree) (parent : NodeId) (token : Token) (isError : Bool) :
    Keeps t (t.addToken parent token isError).2 :=
  (push t _).trans (addChild _ _ _)

/-- Notes on several nodes. -/
theorem foldl_modify {f : RuleNode → RuleNode} (h : ∀ node, (f node).link = node.link)
    (ids : List NodeId) (t : ParseTree) :
    Keeps t (ids.foldl (fun t id => t.modifyRule id f) t) := by
  induction ids generalizing t with
  | nil => exact refl t
  | cons id rest ih => exact (modify h t id).trans (ih _)

end Keeps

theorem outline_foldl_note {f : RuleNode → RuleNode} (h : ∀ node, (f node).outline = node.outline)
    (ids : List NodeId) (t : ParseTree) :
    (ids.foldl (fun t id => t.modifyRule id f) t).outline = t.outline := by
  induction ids generalizing t with
  | nil => rfl
  | cons id rest ih => exact (ih _).trans (outline_note h t id)

end ParseTree

end AdaptiveLL
