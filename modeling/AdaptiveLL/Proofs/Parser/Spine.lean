import AdaptiveLL.Proofs.Parser.Standing
import AdaptiveLL.Proofs.Tree.Grown
/-!
How the tree of a parser grows. The contexts that are open form a spine, and everything that a
parse has made hangs complete on one side of it, so that the leaves are always those of the
tokens that were passed, skipped and made up so far, from left to right.
-/
namespace AdaptiveLL

open AdaptiveLL.ParseTree (Grown)

/-- Where an open context hangs in its parent. One of a left-recursive rule is attached when its
rule ends. -/
def Network.hanging (n : Network) (node : RuleNode) (c : NodeId) : List NodeId :=
  if n.isLeftRecursiveRule node.rule ∨ node.parent = none then [] else [c]

/-- The open contexts from one outwards, up to the context `ground` that was there before. `hanging`
is what is attached to the innermost and not complete; `ids` are the contexts and all that is
complete below them, and `leaves` the leaves. -/
inductive Spine (n : Network) (t : ParseTree) (ground : Option NodeId) :
    Option NodeId → List NodeId → List NodeId → List Leaf → Prop
  | nil {context : Option NodeId} (outside : context = none ∨ context = ground) :
      Spine n t ground context [] [] []
  | context {c : NodeId} {node : RuleNode} {hanging cs ids inner : List NodeId}
      {leaves below : List Leaf} (here : t.node? c = some (.rule node))
      (outer : Spine n t ground node.parent (n.hanging node c) ids leaves)
      (children : node.children.toList = cs ++ hanging) (within : Grown t c cs inner below) :
      Spine n t ground (some c) hanging (ids ++ c :: inner) (leaves ++ below)

namespace ParseTree

/-- The nodes that have been made since the tree was `base`, which has not changed. -/
structure Since (base t : ParseTree) (ids : List NodeId) : Prop where
  size : base.size ≤ t.size
  old : ∀ q < base.size, t.node? q = base.node? q
  new : ids.Perm (List.range' base.size (t.size - base.size))

namespace Since

variable {base t : ParseTree} {ids ids' : List NodeId} {id : Nat}

theorem refl (base : ParseTree) : Since base base [] where
  size := Nat.le_refl _
  old _ _ := rfl
  new := by simp

theorem mem_iff (h : Since base t ids) : id ∈ ids ↔ base.size ≤ id ∧ id < t.size := by
  rw [h.new.mem_iff, List.mem_range'_1, Nat.add_sub_cancel' h.size]

theorem nodup (h : Since base t ids) : ids.Nodup :=
  h.new.nodup_iff.2 List.nodup_range'

theorem perm (h : Since base t ids) (perm : ids'.Perm ids) : Since base t ids' :=
  { h with new := perm.trans h.new }

theorem push (h : Since base t ids) (node : TreeNode) :
    Since base (t.push node).2 (ids ++ [t.size]) where
  size := by
    rw [size_push]
    exact Nat.le_succ_of_le h.size
  old q lt := by
    rw [node?_push, if_neg (Nat.ne_of_lt (Nat.lt_of_lt_of_le lt h.size)), h.old q lt]
  new := by
    have size := h.size
    rw [size_push, Nat.sub_add_comm size, List.range'_1_concat, Nat.add_sub_cancel' size]
    exact h.new.append_right _

theorem modifyRule (h : Since base t ids) (made : id ∈ ids) (f : RuleNode → RuleNode) :
    Since base (t.modifyRule id f) ids where
  size := by
    rw [size_modifyRule]
    exact h.size
  old q lt := by
    have later := Nat.lt_of_lt_of_le lt (h.mem_iff.1 made).1
    rw [node?_modifyRule, if_neg (Nat.ne_of_gt later), h.old q lt]
  new := by
    rw [size_modifyRule]
    exact h.new

end Since

theorem setParent_eq_self {t : ParseTree} {id : NodeId} {node : RuleNode}
    (here : t.node? id = some (.rule node)) : t.setParent id node.parent = t := by
  refine ext_node? fun other => ?_
  rw [node?_setParent]
  split
  case isTrue same =>
      subst same
      rw [here]
      rfl
  case isFalse => rfl

end ParseTree

namespace Spine

variable {n : Network} {t t' base : ParseTree} {c d : NodeId} {node : RuleNode}
  {ground context : Option NodeId} {hanging ids more : List NodeId} {leaves below : List Leaf}

/-- Nodes elsewhere do not matter. -/
theorem congr (h : Spine n t ground context hanging ids leaves)
    (same : ∀ id ∈ ids, t'.node? id = t.node? id) : Spine n t' ground context hanging ids leaves := by
  induction h with
  | nil outside => exact .nil outside
  | context here _ children within ih =>
      obtain ⟨outside, inside⟩ := List.forall_mem_append.1 same
      obtain ⟨first, inside⟩ := List.forall_mem_cons.1 inside
      exact .context (first.trans here) (ih outside) children (within.congr inside)

theorem lt_size (h : Spine n t ground context hanging ids leaves) : ∀ id ∈ ids, id < t.size := by
  induction h with
  | nil => simp
  | context here _ _ within ih =>
      exact List.forall_mem_append.2
        ⟨ih, List.forall_mem_cons.2 ⟨ParseTree.lt_size here, within.lt_size⟩⟩

/-- The innermost context has been made, unless nothing has been entered. -/
theorem mem (h : Spine n t ground (some c) hanging ids leaves)
    (inside : some c ≠ ground ∨ hanging ≠ []) : c ∈ ids := by
  cases h with
  | nil outside => simp_all
  | context => simp

/-- There is nothing outside the first context. -/
theorem bottom (h : Spine n t ground context hanging ids leaves)
    (outside : context = none ∨ context = ground) (apart : ∀ c ∈ ground, c ∉ ids) :
    ids = [] ∧ leaves = [] := by
  cases h with
  | nil => exact ⟨rfl, rfl⟩
  | context =>
      rcases outside with outside | rfl
      · cases outside
      · exact absurd (by simp) (apart _ rfl)

theorem push (h : Spine n t ground context hanging ids leaves) (node : TreeNode) :
    Spine n (t.push node).2 ground context hanging ids leaves :=
  h.congr fun id mem => by rw [ParseTree.node?_push, if_neg (Nat.ne_of_lt (h.lt_size id mem))]

/-- A child is attached to the innermost context. -/
theorem addChild (h : Spine n t ground (some c) [] ids leaves) (mem : c ∈ ids) (nodup : ids.Nodup)
    (x : NodeId) : Spine n (t.addChild c x) ground (some c) [x] ids leaves := by
  cases h with
  | nil => cases mem
  | @context _ node _ cs outside inner _ _ here outer children within =>
      obtain ⟨-, inside, apart⟩ := List.nodup_append.1 nodup
      have others {id : NodeId} (other : c ≠ id) : (t.addChild c x).node? id = t.node? id := by
        rw [ParseTree.addChild, ParseTree.node?_modifyRule, if_neg other]
      let longer : RuleNode := { node with children := node.children.push x }
      have here' : (t.addChild c x).node? c = some (.rule longer) := by
        rw [ParseTree.addChild, ParseTree.node?_modifyRule, if_pos rfl, here]
        rfl
      have children' : longer.children.toList = cs ++ [x] := by simpa [longer] using children
      refine .context here' ?_ children' ?_
      · exact outer.congr fun id mem => others fun same => apart id mem c (.head _) same.symm
      · refine within.congr fun id mem => others fun same => ?_
        exact (List.nodup_cons.1 inside).1 (same ▸ mem)

/-- What hangs in the innermost context is complete. -/
theorem close (h : Spine n t ground (some c) hanging ids leaves) (mem : c ∈ ids)
    (grown : Grown t c hanging more below) :
    Spine n t ground (some c) [] (ids ++ more) (leaves ++ below) := by
  cases h with
  | nil => cases mem
  | @context _ node _ cs _ inner _ below' here outer children within =>
      have all : node.children.toList = (cs ++ hanging) ++ [] := by rw [children, List.append_nil]
      simpa only [List.append_assoc, List.cons_append] using
        Spine.context here outer all (within.append grown)

/-- A leaf is added. -/
theorem addToken (h : Spine n t ground (some c) [] ids leaves) (mem : c ∈ ids)
    (since : base.Since t ids) (l : Leaf) :
    Spine n (t.addToken c l.token l.isError).2 ground (some c) [] (ids ++ [t.size]) (leaves ++ [l]) ∧
      base.Since (t.addToken c l.token l.isError).2 (ids ++ [t.size]) := by
  have pushed := (since.push (l.node c))
  have attached := (h.push (l.node c)).addChild mem since.nodup t.size
  refine ⟨attached.close mem (.leaf ?_ .nil), pushed.modifyRule (List.mem_append_left _ mem) _⟩
  have other : c ≠ t.size := Nat.ne_of_lt (h.lt_size c mem)
  rw [ParseTree.addChild, ParseTree.node?_modifyRule, if_neg other, ParseTree.node?_push, if_pos rfl]

/-- Leaves are added. -/
theorem graft (h : Spine n t ground (some c) [] ids leaves) (mem : c ∈ ids)
    (since : base.Since t ids) (added : List Leaf) :
    ∃ ids', Spine n (t.graft c added) ground (some c) [] ids' (leaves ++ added) ∧
      base.Since (t.graft c added) ids' := by
  induction added generalizing t ids leaves with
  | nil => exact ⟨ids, by simpa using h, since⟩
  | cons l rest ih =>
      obtain ⟨spine, since⟩ := h.addToken mem since l
      have all := ih spine (List.mem_append_left _ mem) since
      rwa [List.append_assoc] at all

/-- A new context. -/
theorem begin {rule : Nat} {invoking : Option Nat}
    (here : t.node? c = some (.rule { rule, parent := context, invoking }))
    (outer : Spine n t ground context (n.hanging { rule, parent := context, invoking } c) ids leaves) :
    Spine n t ground (some c) [] (ids ++ [c]) leaves := by
  have childless : (#[] : Array NodeId).toList = [] ++ [] := rfl
  have opened := Spine.context here outer childless .nil
  rwa [List.append_nil] at opened

theorem node?_withCall (t : ParseTree) (rule : Nat) (parent : Option NodeId)
    (invoking : Option Nat) :
    (t.withCall rule parent invoking).node? t.size = some (.rule { rule, parent, invoking }) :=
  (ParseTree.node?_push t _ t.size).trans (if_pos rfl)

/-- The start rule is called. -/
theorem start (t : ParseTree) (ground : Option NodeId) (rule : Nat) :
    Spine n (t.withCall rule none none) ground (some t.size) [] [t.size] [] ∧
      t.Since (t.withCall rule none none) [t.size] := by
  have bare : n.hanging { rule, parent := none, invoking := none } t.size = [] := if_pos (.inr rfl)
  have outer : Spine n (t.withCall rule none none) ground none
      (n.hanging { rule, parent := none, invoking := none } t.size) [] [] := by
    rw [bare]
    exact .nil (.inl rfl)
  exact ⟨begin (node?_withCall t rule none none) outer, (ParseTree.Since.refl t).push _⟩

/-- A rule is called from the innermost context. -/
theorem call (h : Spine n t ground (some c) [] ids leaves) (mem : c ∈ ids) (since : base.Since t ids)
    (rule : Nat) (invoking : Option Nat) :
    let called := t.withCall rule (some c) invoking
    let t' := if n.isLeftRecursiveRule rule then called else called.attach true (some c) t.size
    Spine n t' ground (some t.size) [] (ids ++ [t.size]) leaves ∧ base.Since t' (ids ++ [t.size]) := by
  intro called t'
  have pushed : base.Since called (ids ++ [t.size]) := since.push _
  have spine : Spine n called ground (some c) [] ids leaves := h.push _
  have here : called.node? t.size = some (.rule { rule, parent := some c, invoking }) :=
    node?_withCall t rule (some c) invoking
  cases recursive : n.isLeftRecursiveRule rule with
  | true =>
      simp only [t', recursive, if_true]
      refine ⟨begin here ?_, pushed⟩
      simpa [Network.hanging, recursive] using spine
  | false =>
      simp only [t', recursive, Bool.false_eq_true, if_false]
      have other : c ≠ t.size := Nat.ne_of_lt (h.lt_size c mem)
      have attached := spine.addChild mem since.nodup t.size
      have here' : (called.addChild c t.size).node? t.size
          = some (.rule { rule, parent := some c, invoking }) := by
        rw [ParseTree.addChild, ParseTree.node?_modifyRule, if_neg other, here]
      refine ⟨begin here' ?_, pushed.modifyRule (List.mem_append_left _ mem) _⟩
      rw [ParseTree.attach_some, if_pos rfl]
      simpa [Network.hanging, recursive] using attached

/-- The innermost context, of a left-recursive rule, becomes the first child of a new one. -/
theorem wrap {parent : Option NodeId} (h : Spine n t ground (some c) [] ids leaves) (mem : c ∈ ids)
    (since : base.Since t ids) (here : t.node? c = some (.rule node))
    (recursive : n.isLeftRecursiveRule node.rule = true)
    (linked : parent = node.parent ∨ node.parent = none ∧ parent = ground)
    (invoking start : Option Nat) :
    let t' := ((t.withCall node.rule parent invoking).relink c (some t.size) start).attach true
      (some t.size) c
    ∃ ids', Spine n t' ground (some t.size) [] ids' leaves ∧ base.Since t' ids' := by
  intro t'
  let called := t.withCall node.rule parent invoking
  let linked' := called.relink c (some t.size) start
  let wrapped : RuleNode := { node with parent := some t.size, invoking := start }
  let wrapper : RuleNode := { rule := node.rule, parent, invoking, children := #[c] }
  have other : c ≠ t.size := Nat.ne_of_lt (h.lt_size c mem)
  have pushed : base.Since called (ids ++ [t.size]) := since.push _
  have made : base.Since t' (ids ++ [t.size]) :=
    (pushed.modifyRule (List.mem_append_left _ mem) _).modifyRule (by simp) _
  have called_node (id : NodeId) : called.node? id = if id = t.size then
      some (.rule { rule := node.rule, parent, invoking }) else t.node? id :=
    ParseTree.node?_push _ _ _
  have linked_node (id : NodeId) : linked'.node? id = if c = id then
      (called.node? id).map (TreeNode.mapRule fun node =>
        { node with parent := some t.size, invoking := start }) else called.node? id :=
    ParseTree.node?_modifyRule _ _ _ _
  have node? (id : NodeId) : t'.node? id = if t.size = id then
      (linked'.node? id).map (TreeNode.mapRule fun node =>
        { node with children := node.children.push c }) else linked'.node? id :=
    ParseTree.node?_modifyRule _ _ _ _
  have old {id : Nat} (lt : id < t.size) (apart : c ≠ id) : t'.node? id = t.node? id := by
    rw [node?, if_neg (Nat.ne_of_gt lt), linked_node, if_neg apart, called_node,
      if_neg (Nat.ne_of_lt lt)]
  have inner_node : t'.node? c = some (.rule wrapped) := by
    rw [node?, if_neg (Ne.symm other), linked_node, if_pos rfl, called_node, if_neg other, here]
    rfl
  have outer_node : t'.node? t.size = some (.rule wrapper) := by
    rw [node?, if_pos rfl, linked_node, if_neg other, called_node, if_pos rfl]
    rfl
  have nodup := since.nodup
  have lt_size := h.lt_size
  cases h with
  | nil => cases mem
  | @context _ node' _ cs outside inner before below here' outer children within =>
      rw [here] at here'
      cases here'
      obtain ⟨-, inside, apart⟩ := List.nodup_append.1 nodup
      have free := (List.nodup_cons.1 inside).1
      have outer' : Spine n t' ground parent (n.hanging wrapper t.size) outside before := by
        have hangs : n.hanging node c = [] := by simp [Network.hanging, recursive]
        rw [show n.hanging wrapper t.size = [] by simp [Network.hanging, wrapper, recursive]]
        rw [hangs] at outer
        rcases linked with rfl | ⟨orphan, rfl⟩
        · refine outer.congr fun id mem => old (lt_size id (by simp [mem])) fun same => ?_
          exact apart id mem c (.head _) same.symm
        · rw [orphan] at outer
          cases outer
          exact .nil (.inr rfl)
      have within' : Grown t' c node.children.toList inner below := by
        rw [children, List.append_nil]
        refine within.congr fun id mem => old (lt_size id (by simp [mem])) fun same => ?_
        exact free (same ▸ mem)
      have grown : Grown t' t.size [c] (c :: inner) below := by
        simpa using Grown.rule inner_node rfl within' .nil
      have children' : wrapper.children.toList = [c] ++ [] := rfl
      refine ⟨_, .context outer_node outer' children' grown, made.perm ?_⟩
      exact List.perm_middle.trans (List.perm_append_singleton t.size (outside ++ c :: inner)).symm

/-- The innermost context, of an ordinary rule, is complete. -/
theorem leave (h : Spine n t ground (some c) [] ids leaves) (mem : c ∈ ids)
    (here : t.node? c = some (.rule node)) (linked : node.parent = some d)
    (ordinary : n.isLeftRecursiveRule node.rule = false) :
    Spine n t ground (some d) [] ids leaves := by
  cases h with
  | nil => cases mem
  | @context _ _ _ cs outside inner _ below here' outer children within =>
      rw [here] at here'
      cases here'
      rw [List.append_nil] at children
      have hangs : n.hanging node c = [c] := by simp [Network.hanging, linked, ordinary]
      rw [linked, hangs] at outer
      have made := outer.mem (.inr (List.cons_ne_nil _ _))
      simpa using outer.close made (.rule here linked (children ▸ within) .nil)

/-- The innermost context, of a left-recursive rule, is complete and attached. -/
theorem unwrap (h : Spine n t ground (some c) [] ids leaves) (mem : c ∈ ids)
    (since : base.Since t ids) (here : t.node? c = some (.rule node)) (linked : node.parent = some d)
    (inside : some d ≠ ground) (recursive : n.isLeftRecursiveRule node.rule = true) :
    let t' := (t.setParent c (some d)).attach true (some d) c
    Spine n t' ground (some d) [] ids leaves ∧ base.Since t' ids := by
  have unchanged : t.setParent c (some d) = t := linked ▸ ParseTree.setParent_eq_self here
  rw [unchanged]
  have nodup := since.nodup
  cases h with
  | nil => cases mem
  | @context _ _ _ cs outside inner _ below here' outer children within =>
      rw [here] at here'
      cases here'
      rw [List.append_nil] at children
      have hangs : n.hanging node c = [] := by simp [Network.hanging, recursive]
      rw [linked, hangs] at outer
      have made : d ∈ outside := outer.mem (.inl inside)
      obtain ⟨nodup, -, apart⟩ := List.nodup_append.1 nodup
      have others {id : Nat} (inside : id ∈ c :: inner) : (t.addChild d c).node? id = t.node? id := by
        rw [ParseTree.addChild, ParseTree.node?_modifyRule, if_neg (apart d made id inside)]
      have attached := outer.addChild made nodup c
      refine ⟨?_, since.modifyRule (List.mem_append_left _ made) _⟩
      have grown : Grown (t.addChild d c) d [c] (c :: inner) below := by
        have within' := within.congr fun id inside => others (.tail _ inside)
        simpa using Grown.rule ((others (.head _)).trans here) linked (children ▸ within') .nil
      exact attached.close made grown

end Spine

end AdaptiveLL
