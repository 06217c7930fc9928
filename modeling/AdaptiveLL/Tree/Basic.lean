import AdaptiveLL.Grammar.Basic
import AdaptiveLL.Recognition.Error
/-!
Parse trees. The nodes of a tree are numbered in the order in which they were made and refer
to each other by number, so that the parser can move a node to another parent. A rule node
stands for one call of a rule and is the context of the parser while the call lasts; tokens
are terminals, or error nodes if recovery skipped them or made them up.
-/
namespace AdaptiveLL

structure RuleNode where
  rule : Nat
  /-- The state that called the rule; the start rule has none. -/
  invoking : Option Nat := none
  parent : Option NodeId := none
  children : Array NodeId := #[]
  start : Option Token := none
  stop : Option Token := none
  /-- The error that ended the call early. -/
  error : Option RecognitionError := none
  /-- The alternative of the rule that was taken. -/
  alt : Nat := 0
  deriving DecidableEq, Repr

inductive TreeNode where
  | rule (node : RuleNode)
  | terminal (token : Token) (parent : Option NodeId)
  | error (token : Token) (parent : Option NodeId)
  deriving DecidableEq, Repr

namespace TreeNode

def parent : TreeNode → Option NodeId
  | rule node => node.parent
  | terminal _ parent | error _ parent => parent

def children : TreeNode → List NodeId
  | rule node => node.children.toList
  | terminal .. | error .. => []

def token? : TreeNode → Option Token
  | rule _ => none
  | terminal token _ | error token _ => some token

def rule? : TreeNode → Option RuleNode
  | rule node => some node
  | terminal .. | error .. => none

def withParent (parent : Option NodeId) : TreeNode → TreeNode
  | rule node => rule { node with parent }
  | terminal token _ => terminal token parent
  | error token _ => error token parent

/-- Change a rule node; tokens stay as they are. -/
def mapRule (f : RuleNode → RuleNode) : TreeNode → TreeNode
  | rule node => rule (f node)
  | terminal token parent => terminal token parent
  | error token parent => error token parent

end TreeNode

structure ParseTree where
  nodes : Array TreeNode := #[]
  deriving DecidableEq, Repr, Inhabited

namespace ParseTree

def size (t : ParseTree) : Nat :=
  t.nodes.size

def node? (t : ParseTree) (id : NodeId) : Option TreeNode :=
  t.nodes[id]?

def rule? (t : ParseTree) (id : NodeId) : Option RuleNode :=
  (t.node? id).bind TreeNode.rule?

def parent? (t : ParseTree) (id : NodeId) : Option NodeId :=
  (t.node? id).bind TreeNode.parent

def children (t : ParseTree) (id : NodeId) : List NodeId :=
  ((t.node? id).map TreeNode.children).getD []

def child? (t : ParseTree) (id : NodeId) (i : Nat) : Option NodeId :=
  (t.children id)[i]?

/-- Add a node; the answer is its number. -/
def push (t : ParseTree) (node : TreeNode) : NodeId × ParseTree :=
  (t.nodes.size, ⟨t.nodes.push node⟩)

def modifyRule (t : ParseTree) (id : NodeId) (f : RuleNode → RuleNode) : ParseTree :=
  ⟨t.nodes.modify id (TreeNode.mapRule f)⟩

/-- A rule node that knows its parent but is not yet among its children. -/
def addRule (t : ParseTree) (rule : Nat) (parent : Option NodeId) (invoking : Option Nat) :
    NodeId × ParseTree :=
  t.push (.rule { rule, parent, invoking })

def addChild (t : ParseTree) (parent child : NodeId) : ParseTree :=
  t.modifyRule parent fun node => { node with children := node.children.push child }

/-- A token node that knows its parent but is not among its children. -/
def addDetached (t : ParseTree) (parent : NodeId) (token : Token) (isError : Bool) :
    NodeId × ParseTree :=
  t.push (if isError then .error token (some parent) else .terminal token (some parent))

/-- A token node as the last child of its parent. -/
def addToken (t : ParseTree) (parent : NodeId) (token : Token) (isError : Bool) :
    NodeId × ParseTree :=
  let (id, t) := t.addDetached parent token isError
  (id, t.addChild parent id)

def setParent (t : ParseTree) (id : NodeId) (parent : Option NodeId) : ParseTree :=
  ⟨t.nodes.modify id (TreeNode.withParent parent)⟩

/-- Take the last child away from a rule node. -/
def popChild (t : ParseTree) (parent : NodeId) : Option NodeId × ParseTree :=
  match t.rule? parent with
  | some node =>
      (node.children.back?, t.modifyRule parent fun node => { node with children := node.children.pop })
  | none => (none, t)

/-- The parents of a node up to the root, nearest first, at most `fuel` of them. -/
def ancestorsWithin (t : ParseTree) : Nat → NodeId → List NodeId
  | 0, _ => []
  | fuel + 1, id =>
      match t.parent? id with
      | some parent => parent :: t.ancestorsWithin fuel parent
      | none => []

def ancestors (t : ParseTree) (id : NodeId) : List NodeId :=
  t.ancestorsWithin t.size id

/-- A node and its ancestors, innermost first. -/
def chain (t : ParseTree) : Option NodeId → List NodeId
  | some id => id :: t.ancestors id
  | none => []

/-- The number of nodes from a node to the root, both included. -/
def depth (t : ParseTree) (id : NodeId) : Nat :=
  (t.chain (some id)).length

/-- The states that called the contexts from `node` outwards, up to the start rule. -/
def invokingStates (t : ParseTree) (node : Option NodeId) : List Nat :=
  let calls := (t.chain node).map fun id => (t.rule? id).bind RuleNode.invoking
  (calls.takeWhile Option.isSome).filterMap id

/-- The places of the first and the last token of a node. -/
def interval? (t : ParseTree) (id : NodeId) : Option (Nat × Nat) := do
  match ← t.node? id with
  | .terminal token _ | .error token _ => token.index.map fun i => (i, i)
  | .rule node => return (← (← node.start).index, ← (← node.stop).index)

/-- The text of the tokens below a node that is at most `fuel` levels high. -/
def textWithin (t : ParseTree) : Nat → NodeId → Option String
  | 0, _ => none
  | fuel + 1, id =>
      match t.node? id with
      | none => none
      | some (.terminal token _) | some (.error token _) => some token.text
      | some (.rule node) => (node.children.toList.mapM (t.textWithin fuel)).map String.join

/-- The text of the tokens below a node, error nodes included. A node that is missing, or
that is below itself, has none. -/
def text? (t : ParseTree) (id : NodeId) : Option String :=
  t.textWithin (t.size + 1) id

/-- The form in nested parentheses of a node that is at most `fuel` levels high. -/
def renderWithin (t : ParseTree) (names : GrammarNames) : Nat → NodeId → Option String
  | 0, _ => none
  | fuel + 1, id =>
      match t.node? id with
      | none => none
      | some (.terminal token _) | some (.error token _) => some (Text.escapeBlanks token.text)
      | some (.rule node) => do
          let name := Text.escapeBlanks (names.rule node.rule)
          let children ← node.children.toList.mapM (t.renderWithin names fuel)
          if children.isEmpty then return name
          return "(" ++ name ++ String.join (children.map (" " ++ ·)) ++ ")"

/-- The form `(rule child child)`, with tokens as their texts. -/
def render? (t : ParseTree) (names : GrammarNames) (id : NodeId) : Option String :=
  t.renderWithin names (t.size + 1) id

end ParseTree

end AdaptiveLL
