import AdaptiveLL.Proofs.Tree.Grown
import Mathlib.Logic.Function.Basic
/-!
Layouts of trees: the leaves below each node that is complete. What a layout needs to know of a
tree is whether a node is a leaf or the call of a rule, and where a call is noted to begin and end.
Nodes are completed one by one, and what is complete does not change any more, so a layout only
ever learns.
-/
namespace AdaptiveLL

/-- What a node is: a leaf, or a call of a rule with its children. -/
inductive Face where
  | leaf (l : Leaf)
  | rule (rule : Nat) (children : List NodeId)

def Face.withChild (child : NodeId) : Face → Face
  | leaf l => leaf l
  | rule r children => rule r (children ++ [child])

/-- Where a call is noted to begin and end. -/
structure Notes where
  start : Option Token
  stop : Option Token

def RuleNode.notes (node : RuleNode) : Notes where
  start := node.start
  stop := node.stop

def TreeNode.face : TreeNode → Face
  | rule node => .rule node.rule node.children.toList
  | terminal token _ => .leaf ⟨token, false⟩
  | error token _ => .leaf ⟨token, true⟩

@[simp] theorem TreeNode.face_outline (node : TreeNode) : node.outline.face = node.face := by
  cases node <;> rfl

@[simp] theorem Leaf.face_node (l : Leaf) (parent : NodeId) : (l.node parent).face = .leaf l := by
  obtain ⟨token, isError⟩ := l
  cases isError <;> rfl

namespace ParseTree

variable {t t' : ParseTree} {id c : NodeId}

def face? (t : ParseTree) (id : NodeId) : Option Face :=
  (t.node? id).map TreeNode.face

def notes? (t : ParseTree) (id : NodeId) : Option Notes :=
  (t.rule? id).map RuleNode.notes

theorem face?_of_node {node : TreeNode} (here : t.node? id = some node) :
    t.face? id = some node.face := by
  rw [face?, here, Option.map_some]

theorem face?_eq_none (h : t.size ≤ id) : t.face? id = none := by
  rw [face?, node?_eq_none h, Option.map_none]

/-- Outlines know what the nodes are. -/
theorem face?_of_outline (same : t'.outline = t.outline) : t'.face? = t.face? := by
  have known (t : ParseTree) (id : NodeId) : t.outline.face? id = t.face? id := by
    simp [face?, Function.comp_def]
  funext id
  rw [← known t', same, known t]

/-- A new node has a face of its own. -/
theorem face?_push (t : ParseTree) (node : TreeNode) :
    (t.push node).2.face? = Function.update t.face? t.size (some node.face) := by
  funext id
  rw [face?, node?_push, Function.update_apply]
  split <;> rfl

/-- Notes on a node do not show on its face. -/
theorem face?_modifyRule {f : RuleNode → RuleNode}
    (h : ∀ node, (TreeNode.rule (f node)).face = (TreeNode.rule node).face) (t : ParseTree)
    (id : NodeId) : (t.modifyRule id f).face? = t.face? := by
  funext other
  rw [face?, node?_modifyRule, face?]
  split
  · rcases t.node? other with _ | node
    · rfl
    · cases node with
      | rule node => exact congrArg some (h node)
      | terminal | error => rfl
  · rfl

/-- A new child shows on the face of its parent. -/
theorem face?_addChild (t : ParseTree) (parent child : NodeId) : (t.addChild parent child).face? =
    Function.update t.face? parent ((t.face? parent).map (Face.withChild child)) := by
  funext other
  rw [face?, addChild, node?_modifyRule, Function.update_apply]
  by_cases same : parent = other
  · subst same
    rw [if_pos rfl, if_pos rfl, face?]
    rcases t.node? parent with _ | node
    · rfl
    · cases node with
      | rule node => simp [TreeNode.mapRule, TreeNode.face, Face.withChild]
      | terminal | error => rfl
  · rw [if_neg same, if_neg (Ne.symm same), face?]

/-- Parents do not show on faces. -/
theorem face?_setParent (t : ParseTree) (id : NodeId) (parent : Option NodeId) :
    (t.setParent id parent).face? = t.face? := by
  funext other
  rw [face?, node?_setParent, face?]
  split
  · rcases t.node? other with _ | node
    · rfl
    · cases node <;> rfl
  · rfl

theorem notes?_eq_some {x : Notes} : t.notes? id = some x ↔
    ∃ node, t.node? id = some (.rule node) ∧ node.notes = x := by
  unfold notes? rule?
  cases t.node? id with
  | none => simp
  | some node => cases node <;> simp [TreeNode.rule?]

theorem notes?_push (t : ParseTree) (node : TreeNode) : (t.push node).2.notes? =
    Function.update t.notes? t.size (node.rule?.map RuleNode.notes) := by
  funext id
  rw [notes?, rule?, node?_push, Function.update_apply]
  split <;> rfl

/-- Leaves have no notes. -/
theorem notes?_push_leaf {node : TreeNode} (leaf : node.rule? = none) (t : ParseTree) :
    (t.push node).2.notes? = t.notes? := by
  have unknown : t.notes? t.size = none := by simp [notes?, rule?, node?_eq_none]
  rw [notes?_push, leaf, Option.map_none, ← unknown, Function.update_eq_self]

/-- What is noted on a node is noted on no other. -/
theorem notes?_modifyRule {f : RuleNode → RuleNode} {g : Notes → Notes}
    (h : ∀ node, (f node).notes = g node.notes) (t : ParseTree) (id : NodeId) :
    (t.modifyRule id f).notes? = Function.update t.notes? id ((t.notes? id).map g) := by
  funext other
  rw [notes?, rule?, node?_modifyRule, Function.update_apply]
  by_cases same : id = other
  · subst same
    rw [if_pos rfl, if_pos rfl, notes?, rule?]
    rcases t.node? id with _ | node
    · rfl
    · cases node with
      | rule node => exact congrArg some (h node)
      | terminal | error => rfl
  · rw [if_neg same, if_neg (Ne.symm same), notes?, rule?]

/-- A change of something else than where the node begins and ends. -/
theorem notes?_keep {f : RuleNode → RuleNode} (h : ∀ node, (f node).notes = node.notes)
    (t : ParseTree) (id : NodeId) : (t.modifyRule id f).notes? = t.notes? := by
  have kept := notes?_modifyRule (f := f) (g := fun x => x) h t id
  rw [kept, Option.map_id', Function.update_eq_self]

theorem notes?_setParent (t : ParseTree) (id : NodeId) (parent : Option NodeId) :
    (t.setParent id parent).notes? = t.notes? := by
  funext other
  rw [notes?, rule?, node?_setParent, notes?, rule?]
  split
  · rcases t.node? other with _ | node
    · rfl
    · cases node <;> rfl
  · rfl

end ParseTree

/-- The nodes of a tree, and the notes about them. -/
structure View where
  face : NodeId → Option Face
  notes : NodeId → Option Notes

def ParseTree.view (t : ParseTree) : View where
  face := t.face?
  notes := t.notes?

namespace View

/-- A node that is new. -/
def put (v : View) (id : NodeId) (face : Face) : View :=
  { v with face := Function.update v.face id (some face) }

def attach (v : View) (parent child : NodeId) : View :=
  { v with face := Function.update v.face parent ((v.face parent).map (Face.withChild child)) }

/-- A node under its parent, if it has one. -/
def hang (v : View) (parent : Option NodeId) (child : NodeId) : View :=
  match parent with
  | none => v
  | some parent => v.attach parent child

/-- A new call. -/
def make (v : View) (id : NodeId) (rule : Nat) : View where
  face := Function.update v.face id (some (.rule rule []))
  notes := Function.update v.notes id (some ⟨none, none⟩)

def note (v : View) (id : NodeId) (f : Notes → Notes) : View :=
  { v with notes := Function.update v.notes id ((v.notes id).map f) }

def stop (v : View) (id : NodeId) (stop : Option Token) : View :=
  v.note id fun x => { x with stop }

/-- A new call around the node `id`, which stops there. -/
def wrap (v : View) (id around : NodeId) (rule : Nat) (stop : Option Token) : View :=
  let made := v.make around rule
  let begun (x : Notes) : Notes := { x with start := (made.notes id).bind Notes.start }
  ((made.stop id stop).note around begun).attach around id

section

variable (v : View) (id child : NodeId) (face : Face) (stop : Option Token)

@[simp] theorem face_put : (v.put id face).face = Function.update v.face id (some face) := rfl

@[simp] theorem notes_put : (v.put id face).notes = v.notes := rfl

@[simp] theorem face_attach : (v.attach id child).face =
    Function.update v.face id ((v.face id).map (Face.withChild child)) := rfl

@[simp] theorem notes_attach : (v.attach id child).notes = v.notes := rfl

/-- What is attached is a node already. -/
theorem face_attach_eq_none {other : NodeId} :
    (v.attach id child).face other = none ↔ v.face other = none := by
  by_cases same : other = id
  · simp [same]
  · simp [Function.update_of_ne same]

@[simp] theorem face_stop : (v.stop id stop).face = v.face := rfl

@[simp] theorem notes_stop : (v.stop id stop).notes =
    Function.update v.notes id ((v.notes id).map fun x => { x with stop }) := rfl

end

/-- The node looks the same. -/
def Agrees (v v' : View) (id : NodeId) : Prop :=
  v'.face id = v.face id ∧ v'.notes id = v.notes id

variable {v : View} {id other : NodeId}

theorem agrees_put (face : Face) (ne : other ≠ id) : v.Agrees (v.put id face) other :=
  ⟨Function.update_of_ne ne _ _, rfl⟩

theorem agrees_attach (child : NodeId) (ne : other ≠ id) : v.Agrees (v.attach id child) other :=
  ⟨Function.update_of_ne ne _ _, rfl⟩

theorem agrees_stop (stop : Option Token) (ne : other ≠ id) : v.Agrees (v.stop id stop) other :=
  ⟨rfl, Function.update_of_ne ne _ _⟩

section

variable {around : NodeId} (rule : Nat) (stop : Option Token)

theorem face_wrap : (v.wrap id around rule stop).face around = some (.rule rule [id]) := by
  simp [wrap, make, note, Face.withChild]

theorem notes_wrap (ne : id ≠ around) : (v.wrap id around rule stop).notes around =
    some ⟨(v.notes id).bind Notes.start, none⟩ := by
  simp [wrap, make, note, Function.update_of_ne ne, Function.update_of_ne ne.symm]

/-- An operator changes the view of nothing but the new context and the end of the old one. -/
theorem agrees_wrap (other : NodeId) (apart : other ≠ around) :
    (v.stop id stop).Agrees (v.wrap id around rule stop) other := by
  constructor
  · simp [wrap, make, note, Function.update_of_ne apart]
  · by_cases same : other = id
    · subst same
      simp [wrap, make, note, Function.update_of_ne apart]
    · simp [wrap, make, note, Function.update_of_ne apart, Function.update_of_ne same]

end

end View

namespace ParseTree

variable {t t' : ParseTree}

theorem view_of_outline (outline : t'.outline = t.outline) (notes : t'.notes? = t.notes?) :
    t'.view = t.view := by
  rw [view, face?_of_outline outline, notes, view]

/-- A new rule node has no children and no notes. -/
theorem view_addRule (t : ParseTree) (rule : Nat) (parent : Option NodeId) (invoking : Option Nat) :
    (t.addRule rule parent invoking).2.view = t.view.make t.size rule := by
  rw [addRule, view, face?_push, notes?_push]
  rfl

theorem view_note {f : RuleNode → RuleNode} {g : Notes → Notes}
    (face : ∀ node, (TreeNode.rule (f node)).face = (TreeNode.rule node).face)
    (notes : ∀ node, (f node).notes = g node.notes) (t : ParseTree) (id : NodeId) :
    (t.modifyRule id f).view = t.view.note id g := by
  rw [view, face?_modifyRule face, notes?_modifyRule notes]
  rfl

/-- A change of something else. -/
theorem view_keep {f : RuleNode → RuleNode}
    (face : ∀ node, (TreeNode.rule (f node)).face = (TreeNode.rule node).face)
    (notes : ∀ node, (f node).notes = node.notes) (t : ParseTree) (id : NodeId) :
    (t.modifyRule id f).view = t.view := by
  rw [view, face?_modifyRule face, notes?_keep notes, view]

theorem view_addChild (t : ParseTree) (parent child : NodeId) :
    (t.addChild parent child).view = t.view.attach parent child := by
  have kept : (t.addChild parent child).notes? = t.notes? :=
    notes?_keep (f := fun node => { node with children := node.children.push child }) (fun _ => rfl) t
      parent
  rw [view, face?_addChild, kept]
  rfl

theorem view_setParent (t : ParseTree) (id : NodeId) (parent : Option NodeId) :
    (t.setParent id parent).view = t.view := by
  rw [view, face?_setParent, notes?_setParent, view]

/-- A token is a leaf that is attached to its context. -/
theorem view_addToken (t : ParseTree) (parent : NodeId) (token : Token) (isError : Bool) :
    (t.addToken parent token isError).2.view =
      (t.view.put t.size (.leaf ⟨token, isError⟩)).attach parent t.size := by
  cases isError <;>
  · rw [addToken, addDetached, view_addChild, view, face?_push, notes?_push_leaf rfl]
    rfl

theorem notes?_addToken (t : ParseTree) (parent : NodeId) (token : Token) (isError : Bool) :
    (t.addToken parent token isError).2.notes? = t.notes? :=
  congrArg View.notes (t.view_addToken parent token isError)

end ParseTree

/-- The leaves below each node that is complete. -/
abbrev Layout := NodeId → Option (List Leaf)

namespace Layout

variable {e e' : Layout} {c : NodeId} {cs : List NodeId} {ls part : List Leaf}

/-- The nodes are complete, and `ls` are their leaves. -/
inductive Covers (e : Layout) : List NodeId → List Leaf → Prop
  | nil : Covers e [] []
  | cons {c : NodeId} {cs : List NodeId} {part ls : List Leaf} (here : e c = some part)
      (rest : Covers e cs ls) : Covers e (c :: cs) (part ++ ls)

/-- The layout knows what the other one does. -/
def Extends (e e' : Layout) : Prop :=
  ∀ c part, e c = some part → e' c = some part

theorem ne_of_unknown {new : NodeId} (unknown : e new = none) (known : e c ≠ none) : c ≠ new := by
  rintro rfl
  exact known unknown

/-- What a node spans may be learned if it is not known. -/
theorem extends_update (ls : List Leaf) (unknown : e c = none) :
    e.Extends (Function.update e c (some ls)) := by
  intro d part known
  rwa [Function.update_of_ne]
  rintro rfl
  rw [known] at unknown
  cases unknown

theorem Covers.mono (h : e.Covers cs ls) (more : e.Extends e') : e'.Covers cs ls := by
  induction h with
  | nil => exact .nil
  | cons here _ ih => exact .cons (more _ _ here) ih

/-- The leaves of one more child come behind those of the others. -/
theorem Covers.concat (h : e.Covers cs ls) (here : e c = some part) :
    e.Covers (cs ++ [c]) (ls ++ part) := by
  induction h with
  | nil => simpa using Covers.cons here .nil
  | cons here' _ ih =>
      rw [List.append_assoc]
      exact .cons here' ih

end Layout

end AdaptiveLL
