import AdaptiveLL.Network.Basic
/-!
Call stacks of simulated threads, as lists of return states. Stacks with common tails share
nodes, and equal nodes have the same number, so that equal stacks are recognized by their numbers
alone. The numbers have no bound here; those of 32 bits would run out after as many nodes.

Node 0 is the empty stack. In prediction without context it stands for any caller, in
prediction with the full context for the return of the start rule.
-/
namespace AdaptiveLL

inductive StackNode where
  | empty
  /-- One return state on top of the stacks of another node. -/
  | frame (parent resume : Nat)
  /-- Several stacks, ascending by return state; an empty stack comes last. -/
  | branch (entries : List (Nat × Nat))
  deriving DecidableEq, Repr, Inhabited

namespace StackNode

/-- The parent and the return state of each way on from the node. The empty stack is an
entry that returns to no state. -/
def entries : StackNode → List (Nat × Nat)
  | empty => [(0, noState)]
  | frame parent resume => [(parent, resume)]
  | branch es => es

/-- Whether one of the stacks is empty. -/
def hasEmptyStack (node : StackNode) : Bool :=
  (node.entries.getLast?.map Prod.snd) == some noState

def isBranch : StackNode → Bool
  | branch _ => true
  | _ => false

end StackNode

/-- The nodes by number, without the empty stack, which has number 0. -/
structure StackGraph where
  nodes : Array StackNode := #[]
  deriving DecidableEq, Repr, Inhabited

namespace StackGraph

/-- The node with this number. -/
def node (g : StackGraph) : Nat → StackNode
  | 0 => .empty
  | k + 1 => g.nodes[k]?.getD .empty

/-- The number of nodes, the empty stack included. -/
def size (g : StackGraph) : Nat :=
  g.nodes.size + 1

/-- The number of a node, which is a new one if the node was not there. -/
def intern (g : StackGraph) (node : StackNode) : Nat × StackGraph :=
  if node = .empty then (0, g)
  else
    match g.nodes.findIdx? (· == node) with
    | some k => (k + 1, g)
    | none => (g.nodes.size + 1, ⟨g.nodes.push node⟩)

/-- One return state on top of the stacks of `parent`. -/
def push (g : StackGraph) (parent resume : Nat) : Nat × StackGraph :=
  if resume = noState ∧ parent = 0 then (0, g) else g.intern (.frame parent resume)

def ofEntries (g : StackGraph) : List (Nat × Nat) → Nat × StackGraph
  | [] => (0, g)
  | [(parent, resume)] => g.push parent resume
  | es => g.intern (.branch es)

/-- The stack of return states, the last one on top. -/
def ofReturns (g : StackGraph) (returns : List Nat) : Nat × StackGraph :=
  returns.foldl (fun (top, g) resume => g.push top resume) (0, g)

/-- The stack of a chain of calls, given by their invoking states from the innermost
outwards. -/
def ofInvoking (g : StackGraph) (n : Network) (invoking : List Nat) : Nat × StackGraph :=
  g.ofReturns (n.followStates invoking).reverse

/-- The stacks of a node as lists of return states, innermost first. Parents have smaller
numbers than their children, which bounds the depth. -/
def stacksWithin (g : StackGraph) : Nat → Nat → List (List Nat)
  | 0, _ => []
  | depth + 1, id =>
      (g.node id).entries.flatMap fun (parent, resume) =>
        if resume = noState then [[]] else (g.stacksWithin depth parent).map (resume :: ·)

def stackList (g : StackGraph) (id : Nat) : List (List Nat) :=
  g.stacksWithin (id + 1) id

/-- How a stack is shown: its return states and the bottom. -/
def renderStack (returns : List Nat) : String :=
  "[" ++ String.join (returns.map fun r => toString r ++ " ") ++ "$]"

def describe (g : StackGraph) (id : Nat) : List String :=
  (g.stackList id).map renderStack

end StackGraph

/-- The results of the merges made during one prediction. -/
abbrev MergeMemo := List ((Nat × Nat) × Nat)

/-- A stack graph with the memo of the merges made in it. -/
structure Stacks where
  graph : StackGraph := {}
  memo : MergeMemo := []
  deriving DecidableEq, Repr, Inhabited

namespace Stacks

/-- The result of an earlier merge of the two nodes, in either order. -/
def merged? (s : Stacks) (a b : Nat) : Option Nat :=
  s.memo.lookup (a, b) <|> s.memo.lookup (b, a)

def remember (a b : Nat) (result : Nat × Stacks) : Nat × Stacks :=
  (result.1, { result.2 with memo := ((a, b), result.1) :: result.2.memo })

def push (s : Stacks) (parent resume : Nat) : Nat × Stacks :=
  let (id, graph) := s.graph.push parent resume
  (id, { s with graph })

def ofEntries (s : Stacks) (es : List (Nat × Nat)) : Nat × Stacks :=
  let (id, graph) := s.graph.ofEntries es
  (id, { s with graph })

/-- Merge ascending entries, with `mergeParents` for two entries that return to the same
state. -/
def mergeEntries (mergeParents : Nat → Nat → Stacks → Nat × Stacks) :
    List (Nat × Nat) → List (Nat × Nat) → Stacks → List (Nat × Nat) × Stacks
  | [], bs, s => (bs, s)
  | as, [], s => (as, s)
  | (pa, ra) :: as, (pb, rb) :: bs, s =>
      if ra = rb then
        let (parent, s) := if pa = pb then (pa, s) else mergeParents pa pb s
        let (rest, s) := mergeEntries mergeParents as bs s
        ((parent, ra) :: rest, s)
      else if ra < rb then
        let (rest, s) := mergeEntries mergeParents as ((pb, rb) :: bs) s
        ((pa, ra) :: rest, s)
      else
        let (rest, s) := mergeEntries mergeParents ((pa, ra) :: as) bs s
        ((pb, rb) :: rest, s)
  termination_by as bs => as.length + bs.length

/-- The merge of a node with the empty stack, if one of the two is empty. -/
def mergeRoot? (s : Stacks) (wildcard : Bool) (a b : Nat) : Option (Nat × Stacks) :=
  if a ≠ 0 ∧ b ≠ 0 then none
  else if wildcard then some (0, s)
  else some (s.ofEntries ((s.graph.node (max a b)).entries ++ [(0, noState)]))

/-- The merge of two nodes with one entry each. -/
def mergeFrames (mergeParents : Nat → Nat → Stacks → Nat × Stacks) (a b : Nat)
    (ea eb : Nat × Nat) (s : Stacks) : Nat × Stacks :=
  let (pa, ra) := ea
  let (pb, rb) := eb
  if ra = rb then
    let (parent, s) := mergeParents pa pb s
    if parent = pa then (a, s)
    else if parent = pb then (b, s)
    else remember a b (s.push parent ra)
  else
    remember a b (s.ofEntries (if ra < rb then [ea, eb] else [eb, ea]))

/-- The union of two sets of stacks. With a wildcard, the empty stack absorbs every other
one; without, it is kept beside the others. -/
def mergeWithin (wildcard : Bool) : Nat → Nat → Nat → Stacks → Nat × Stacks
  | 0, a, _, s => (a, s)
  | depth + 1, a, b, s =>
      if a = b then (a, s)
      else
        let na := s.graph.node a
        let nb := s.graph.node b
        if na.isBranch || nb.isBranch then
          if wildcard && (a == 0 || b == 0) then (0, s)
          else
            match s.merged? a b with
            | some found => (found, s)
            | none =>
                let (es, s) := mergeEntries (mergeWithin wildcard depth) na.entries nb.entries s
                remember a b (s.ofEntries es)
        else
          match s.merged? a b with
          | some found => (found, s)
          | none =>
              match s.mergeRoot? wildcard a b with
              | some root => remember a b root
              | none =>
                  match na.entries, nb.entries with
                  | [ea], [eb] => mergeFrames (mergeWithin wildcard depth) a b ea eb s
                  | _, _ => (a, s)

/-- Parents have smaller numbers than their children, so the sum of the two numbers bounds
the depth of the merge. -/
def merge (s : Stacks) (wildcard : Bool) (a b : Nat) : Nat × Stacks :=
  mergeWithin wildcard (a + b + 1) a b s

end Stacks

end AdaptiveLL
