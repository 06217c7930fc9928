import AdaptiveLL.Proofs.Parser.Follows
import AdaptiveLL.Proofs.Parser.Listening
import AdaptiveLL.Proofs.Parser.Yield
/-!
The traversal that listeners see during a parse. Between two turns the open nodes are the open
contexts: a call enters one more, a return exits the innermost one, and an operator exits the
context that it wraps before it enters the new one around it.
-/
namespace AdaptiveLL

variable {σ τ : Type} [TokenSource σ] {u : ParserSetup (τ × Record)} {opened : List NodeId}
  {origin p p' : Parser σ (τ × Record)} {f : Frame} {rest : List Frame} {ground : Ground}
  {Live : Nat → Prop}

open AdaptiveLL.ParseTree (SameNews)
open AdaptiveLL.Parser (Acts Heard Recorded Fails)

namespace Parsing

section Moves

variable (records : u.host.Records)

include records

end Moves

section Runs

variable (records : u.host.Records)

include records

end Runs

end Parsing

/-- What the listeners of a parser are told during a parse: `events`, each of them, one after the
other. Nodes are exited in the reverse order of their entries, and no node stays open. Every node
of the tree below `root` is told of as it should, and no other node is. The tokens that are told of
are those that were consumed, ends of the input included, one after the other. -/
structure Parser.Traverses (u : ParserSetup τ) (p : Parser σ (τ × Record)) (root : NodeId)
    (p' : Parser σ (τ × Record)) (events : List TreeEvent) (leaves : List Leaf) : Prop where
  received : ∀ i < u.host.listeners.length, Record.received p'.simulation.host.2 i =
    Record.received p.simulation.host.2 i ++ events
  order : p'.simulation.host.2 =
    p.simulation.host.2 ++ events.flatMap (TreeEvent.deliveries u.host.listeners.length)
  balanced : TreeEvent.Balanced events
  isTree : p'.tree.IsTree root
  inside : ∀ e ∈ events, p'.tree.Below root e.node
  told : ∀ {id node}, p'.tree.Below root id → p'.tree.node? id = some node →
    events.filter (·.node == id) = node.events id
  consumed : p'.consumed.toList =
    p.consumed.toList ++ (events.filterMap (TreeEvent.leaf? p'.tree)).map Leaf.token
  found : p'.tree.leaves? root = some leaves
  passed : leaves.filterMap Leaf.passed? = p'.input.between p.input.index p'.input.index

namespace Parsing

end Parsing

end AdaptiveLL
