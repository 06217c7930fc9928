import AdaptiveLL.Tree.Basic
/-!
Walks over parse trees. A walk tells of every node: rule nodes are entered and exited,
tokens are visited. `events` is the recursive walk; `walk` keeps its own stack of what is
still to be done, so that the height of the tree does not matter. Queries list the nodes in
the order in which the walk first meets them.
-/
namespace AdaptiveLL

inductive TreeEvent where
  | enter (node : NodeId)
  | exit (node : NodeId)
  | terminal (node : NodeId)
  | error (node : NodeId)
  deriving DecidableEq, Repr

namespace ParseTree

/-- The events of a node that is at most `fuel` levels high. -/
def eventsWithin (t : ParseTree) : Nat → NodeId → Option (List TreeEvent)
  | 0, _ => none
  | fuel + 1, id =>
      match t.node? id with
      | none => none
      | some (.terminal ..) => some [.terminal id]
      | some (.error ..) => some [.error id]
      | some (.rule node) => do
          let inner ← node.children.toList.mapM (t.eventsWithin fuel)
          return .enter id :: inner.flatten ++ [.exit id]

/-- The events of the recursive walk. -/
def events (t : ParseTree) (id : NodeId) : Option (List TreeEvent) :=
  t.eventsWithin (t.size + 1) id

/-- The name of the rule of a node. -/
def ruleName (t : ParseTree) (names : GrammarNames) (id : NodeId) : String :=
  ((t.rule? id).map fun node => names.rule node.rule).getD "?"

/-- A line that tells of an event. Rule nodes are shown by `name`, tokens by their text. -/
def renderEvent (t : ParseTree) (name : NodeId → String) : TreeEvent → String
  | .enter id => "enter " ++ name id
  | .exit id => "exit " ++ name id
  | .terminal id => "terminal " ++ (t.text? id).getD ""
  | .error id => "error " ++ (t.text? id).getD ""

/-- The number of nodes that a walk from `id` meets, down to `fuel` levels. -/
def weightWithin (t : ParseTree) : Nat → NodeId → Nat
  | 0, _ => 1
  | fuel + 1, id => ((t.children id).map (t.weightWithin fuel)).sum + 1

def weight (t : ParseTree) (id : NodeId) : Nat :=
  t.weightWithin (t.size + 1) id

/-- What a walk still has to do. -/
inductive Pending where
  | enter (node : NodeId)
  | exit (node : NodeId)
  deriving DecidableEq, Repr

/-- Walk with a stack, at most `fuel` steps. Nothing comes out if a node is missing. -/
def walkWithin (t : ParseTree) : Nat → List Pending → Option (List TreeEvent)
  | _, [] => some []
  | 0, _ :: _ => none
  | fuel + 1, .exit id :: stack => (t.walkWithin fuel stack).map (.exit id :: ·)
  | fuel + 1, .enter id :: stack =>
      match t.node? id with
      | none => none
      | some (.terminal ..) => (t.walkWithin fuel stack).map (.terminal id :: ·)
      | some (.error ..) => (t.walkWithin fuel stack).map (.error id :: ·)
      | some (.rule node) =>
          (t.walkWithin fuel (node.children.toList.map .enter ++ .exit id :: stack)).map
            (.enter id :: ·)

/-- The events of the walk with a stack. -/
def walk (t : ParseTree) (id : NodeId) : Option (List TreeEvent) :=
  t.walkWithin (2 * t.weight id + 1) [.enter id]

/-- List nodes with a stack, at most `fuel` of them. -/
def descendantsWithin (t : ParseTree) : Nat → List NodeId → List NodeId
  | _, [] => []
  | 0, _ :: _ => []
  | fuel + 1, id :: stack => id :: t.descendantsWithin fuel (t.children id ++ stack)

/-- A node and every node below it, parents before their children. -/
def descendants (t : ParseTree) (id : NodeId) : List NodeId :=
  t.descendantsWithin (t.weight id) [id]

/-- The calls of a rule at and below a node. -/
def findRules (t : ParseTree) (id : NodeId) (rule : Nat) : List NodeId :=
  (t.descendants id).filter fun d => ((t.rule? d).map (·.rule == rule)).getD false

/-- The terminals of a type at and below a node. -/
def findTokens (t : ParseTree) (id : NodeId) (type : Symbol) : List NodeId :=
  (t.descendants id).filter fun d =>
    match t.node? d with
    | some (.terminal token _) => token.type == type
    | _ => false

def isAncestor (t : ParseTree) (ancestor id : NodeId) : Bool :=
  (t.ancestors id).contains ancestor

/-- The deepest rule node at or below a node of at most `fuel` levels whose tokens cover the
places from `start` to `stop`. -/
def enclosingWithin (t : ParseTree) (start stop : Nat) : Nat → NodeId → Option NodeId
  | 0, _ => none
  | fuel + 1, id =>
      match t.rule? id, t.interval? id with
      | some node, some (first, last) =>
          if start < first || last < stop then none
          else
            match node.children.toList.findSome? (t.enclosingWithin start stop fuel) with
            | some found => some found
            | none => some id
      | _, _ => none

def enclosing? (t : ParseTree) (id : NodeId) (start stop : Nat) : Option NodeId :=
  t.enclosingWithin start stop (t.size + 1) id

/-- A computation over a tree: a value for each token, and a way to put the values of the
children of a rule node together, which may stop before the last one. -/
structure Fold (α : Type) where
  initial : α
  terminal : Token → α
  error : Token → α
  combine : α → α → α
  goesOn : α → Bool := fun _ => true

/-- The value of a node that is at most `fuel` levels high. -/
def foldWithin {α : Type} (t : ParseTree) (f : Fold α) : Nat → NodeId → Option α
  | 0, _ => none
  | fuel + 1, id =>
      match t.node? id with
      | none => none
      | some (.terminal token _) => some (f.terminal token)
      | some (.error token _) => some (f.error token)
      | some (.rule node) =>
          node.children.toList.foldlM
            (fun acc child =>
              if f.goesOn acc then (t.foldWithin f fuel child).map (f.combine acc) else some acc)
            f.initial

def fold? {α : Type} (t : ParseTree) (f : Fold α) (id : NodeId) : Option α :=
  t.foldWithin f (t.size + 1) id

end ParseTree

end AdaptiveLL
