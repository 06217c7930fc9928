import AdaptiveLL.Proofs.Parser.Calls
/-!
Parse trees as derivations. A part of a tree that is complete is the drawing of a derivation, and
it stays so as long as its nodes are not touched. A call of a rule draws a derivation under the
context of its caller: the context of the call gets one child after the other, operators wrap it,
and when the call ends it is attached.
-/
namespace AdaptiveLL

/-- A derivation by itself: which rules were taken, and the tokens. -/
inductive Derivation where
  | terminal (token : Token)
  | rule (rule : Nat) (parts : List Derivation)

namespace ParseTree

/-- The nodes `cs` are linked to `parent`, and are the roots of drawings of the derivations; `ids`
are the nodes at and below them. -/
inductive Draws (t : ParseTree) : NodeId → List NodeId → List NodeId → List Derivation → Prop
  | nil {parent : NodeId} : Draws t parent [] [] []
  | terminal {parent c : NodeId} {token : Token} {cs ids : List NodeId} {ds : List Derivation}
      (here : t.node? c = some (.terminal token (some parent))) (rest : Draws t parent cs ids ds) :
      Draws t parent (c :: cs) (c :: ids) (.terminal token :: ds)
  | rule {parent c : NodeId} {node : RuleNode} {cs inner ids : List NodeId}
      {parts ds : List Derivation} (here : t.node? c = some (.rule node))
      (linked : node.parent = some parent) (within : Draws t c node.children.toList inner parts)
      (rest : Draws t parent cs ids ds) :
      Draws t parent (c :: cs) (c :: inner ++ ids) (.rule node.rule parts :: ds)

namespace Draws

variable {t t' : ParseTree} {parent c : NodeId} {cs cs' ids ids' : List NodeId}
  {ds ds' : List Derivation}

/-- Nodes elsewhere do not matter. -/
theorem congr (h : Draws t parent cs ids ds) (same : ∀ id ∈ ids, t'.node? id = t.node? id) :
    Draws t' parent cs ids ds := by
  induction h with
  | nil => exact .nil
  | terminal here _ ih =>
      obtain ⟨first, others⟩ := List.forall_mem_cons.1 same
      exact .terminal (first.trans here) (ih others)
  | rule here linked _ _ ih ih' =>
      obtain ⟨first, others⟩ := List.forall_mem_cons.1 same
      obtain ⟨inside, outside⟩ := List.forall_mem_append.1 others
      exact .rule (first.trans here) linked (ih inside) (ih' outside)

theorem append (h : Draws t parent cs ids ds) (h' : Draws t parent cs' ids' ds') :
    Draws t parent (cs ++ cs') (ids ++ ids') (ds ++ ds') := by
  induction h with
  | nil => exact h'
  | terminal here _ ih => exact .terminal here (ih h')
  | rule here linked within _ _ ih =>
      simpa only [List.cons_append, List.append_assoc] using .rule here linked within (ih h')

theorem lt_size (h : Draws t parent cs ids ds) : ∀ id ∈ ids, id < t.size := by
  induction h with
  | nil => simp
  | terminal here _ ih => exact List.forall_mem_cons.2 ⟨ParseTree.lt_size here, ih⟩
  | rule here _ _ _ ih ih' =>
      exact List.forall_mem_cons.2 ⟨ParseTree.lt_size here, List.forall_mem_append.2 ⟨ih, ih'⟩⟩

/-- The notes on rule nodes do not matter. -/
theorem of_outline (h : Draws t.outline parent cs ids ds) : Draws t parent cs ids ds := by
  induction h with
  | nil => exact .nil
  | terminal here _ ih =>
      rw [node?_outline, Option.map_eq_some_iff] at here
      obtain ⟨node, here, same⟩ := here
      cases node with
      | rule | error => cases same
      | terminal => exact .terminal (here.trans (congrArg some same)) ih
  | rule here linked _ _ ih ih' =>
      obtain ⟨node', here', rfl⟩ := exists_of_node?_outline here
      have drawn := Draws.rule here' linked ih ih'
      exact drawn

/-- A node draws one derivation only. -/
theorem unique (h : Draws t parent cs ids ds) (h' : Draws t parent cs ids' ds') : ds = ds' := by
  induction h generalizing ids' ds' with
  | nil =>
      cases h'
      rfl
  | terminal here _ ih =>
      cases h' with
      | terminal here' rest =>
          cases here.symm.trans here'
          rw [ih rest]
      | rule here' => cases here.symm.trans here'
  | rule here _ _ _ ih ih' =>
      cases h' with
      | terminal here' => cases here.symm.trans here'
      | rule here' _ within rest =>
          cases here.symm.trans here'
          rw [ih within, ih' rest]

end Draws

/-- The whole tree from the root draws the derivation of a rule from the parts. -/
structure DrawsFrom (t : ParseTree) (root : NodeId) (rule : Nat) (parts : List Derivation) :
    Prop where
  drawn : ∃ node ids, t.node? root = some (.rule node) ∧ node.parent = none ∧ node.rule = rule ∧
    t.Draws root node.children.toList ids parts

theorem DrawsFrom.of_outline {t : ParseTree} {root : NodeId} {rule : Nat} {parts : List Derivation}
    (h : t.outline.DrawsFrom root rule parts) : t.DrawsFrom root rule parts := by
  obtain ⟨node, ids, here, orphan, isRule, draws⟩ := h.drawn
  obtain ⟨node', here', rfl⟩ := exists_of_node?_outline here
  exact ⟨node', ids, here', orphan, isRule, draws.of_outline⟩

theorem DrawsFrom.unique {t : ParseTree} {root : NodeId} {rule rule' : Nat}
    {parts parts' : List Derivation} (h : t.DrawsFrom root rule parts)
    (h' : t.DrawsFrom root rule' parts') : parts = parts' := by
  obtain ⟨node, ids, here, -, -, draws⟩ := h.drawn
  obtain ⟨node', ids', here', -, -, draws'⟩ := h'.drawn
  cases here.symm.trans here'
  exact draws.unique draws'

/-- The tree has grown by new children of `c`, which draw the derivations. -/
structure Gains (t t' : ParseTree) (c : NodeId) (ds : List Derivation) : Prop where
  size : t.size ≤ t'.size
  old : ∀ q < t.size, q ≠ c → t'.node? q = t.node? q
  new : ∀ node, t.node? c = some (.rule node) → ∃ cs ids,
    t'.node? c = some (.rule { node with children := node.children ++ cs.toArray }) ∧
      t'.Draws c cs ids ds ∧ ∀ id ∈ ids, t.size ≤ id

namespace Gains

variable {t t' t'' : ParseTree} {c : NodeId} {ds ds' : List Derivation}

theorem trans (h : Gains t t' c ds) (h' : Gains t' t'' c ds') : Gains t t'' c (ds ++ ds') where
  size := Nat.le_trans h.size h'.size
  old q lt ne := (h'.old q (Nat.lt_of_lt_of_le lt h.size) ne).trans (h.old q lt ne)
  new node here := by
    have lt := ParseTree.lt_size here
    obtain ⟨cs, ids, here', draws, later⟩ := h.new node here
    obtain ⟨cs', ids', here'', draws', later'⟩ := h'.new _ here'
    have draws : t''.Draws c cs ids ds := draws.congr fun id mem =>
      h'.old id (draws.lt_size id mem) (Nat.ne_of_gt (Nat.lt_of_lt_of_le lt (later id mem)))
    refine ⟨cs ++ cs', ids ++ ids', ?_, draws.append draws', ?_⟩
    · simpa using here''
    · exact List.forall_mem_append.2 ⟨later, fun id mem => Nat.le_trans h.size (later' id mem)⟩

/-- A terminal is added. -/
theorem graft (t : ParseTree) (c : NodeId) (token : Token) (lt : c < t.size) :
    Gains t (t.graft (some c) [⟨token, false⟩]) c [.terminal token] := by
  let leaf : TreeNode := .terminal token (some c)
  have node? (id : NodeId) : (t.graft (some c) [⟨token, false⟩]).node? id =
      if c = id then ((t.push leaf).2.node? id).map (TreeNode.mapRule fun node =>
        { node with children := node.children.push t.size }) else (t.push leaf).2.node? id :=
    node?_modifyRule _ _ _ _
  have ne : c ≠ t.size := Nat.ne_of_lt lt
  refine ⟨?_, fun q lt other => ?_, fun node here =>
    ⟨[t.size], [t.size], ?_, .terminal ?_ .nil, ?_⟩⟩
  · simp [ParseTree.graft, addToken, addDetached, addChild]
  · rw [node?, if_neg (Ne.symm other), node?_push, if_neg (Nat.ne_of_lt lt)]
  · rw [node?, if_pos rfl, node?_push, if_neg ne, here]
    simp [TreeNode.mapRule]
  · rw [node?, if_neg ne, node?_push, if_pos rfl]
  · simp

end Gains

/-- During a call of the rule that was made at the state `number` in the context `c`: the context
of the call is `d`, its children draw the derivations, and what was there before the call is as it
was. -/
structure Grows (base t : ParseTree) (rule : Nat) (c : NodeId) (number : Nat) (d : NodeId)
    (ds : List Derivation) : Prop where
  size : base.size ≤ d
  old : ∀ q < base.size, t.node? q = base.node? q
  inside : ∃ children ids,
    t.node? d = some (.rule { rule, invoking := some number, parent := some c, children }) ∧
      t.Draws d children.toList ids ds ∧ ∀ id ∈ ids, base.size ≤ id ∧ id ≠ d

namespace Grows

variable {base t t' : ParseTree} {rule number : Nat} {c d : NodeId} {ds ds' : List Derivation}

theorem lt_size (h : Grows base t rule c number d ds) : d < t.size := by
  obtain ⟨_, _, here, -⟩ := h.inside
  exact ParseTree.lt_size here

theorem link? (h : Grows base t rule c number d ds) :
    t.link? d = some ⟨rule, some number, some c⟩ := by
  obtain ⟨_, _, here, -⟩ := h.inside
  exact link?_eq_some.2 ⟨_, here, rfl⟩

/-- A call begins. -/
theorem begin (t : ParseTree) (rule number : Nat) (c : NodeId) :
    Grows t (t.withCall rule (some c) (some number)) rule c number t.size [] where
  size := Nat.le_refl _
  old q lt := (node?_push t _ q).trans (if_neg (Nat.ne_of_lt lt))
  inside := ⟨#[], [], (node?_push t _ t.size).trans (if_pos rfl), .nil, by simp⟩

/-- The context of the call gets more children. -/
theorem gains (h : Grows base t rule c number d ds) (gains : Gains t t' d ds') :
    Grows base t' rule c number d (ds ++ ds') where
  size := h.size
  old q lt := by
    have before : q < d := Nat.lt_of_lt_of_le lt h.size
    rw [gains.old q (Nat.lt_trans before h.lt_size) (Nat.ne_of_lt before), h.old q lt]
  inside := by
    obtain ⟨children, ids, here, draws, apart⟩ := h.inside
    obtain ⟨cs, ids', here', draws', later⟩ := gains.new _ here
    have draws : t'.Draws d children.toList ids ds := draws.congr fun id mem =>
      gains.old id (draws.lt_size id mem) (apart id mem).2
    refine ⟨_, ids ++ ids', here', by simpa using draws.append draws', ?_⟩
    refine List.forall_mem_append.2 ⟨apart, fun id mem => ?_⟩
    have after : d < id := Nat.lt_of_lt_of_le h.lt_size (later id mem)
    exact ⟨Nat.le_trans h.size (Nat.le_of_lt after), Nat.ne_of_gt after⟩

/-- The context of the call becomes the only child of a new one. -/
theorem wrap (h : Grows base t rule c number d ds) (start : Nat) :
    Grows base (((t.withCall rule (some c) (some number)).relink d (some t.size)
      (some start)).attach true (some t.size) d) rule c number t.size [.rule rule ds] := by
  let wrapper : RuleNode := { rule, parent := some c, invoking := some number }
  have node? (id : NodeId) : (((t.withCall rule (some c) (some number)).relink d (some t.size)
      (some start)).attach true (some t.size) d).node? id =
      if t.size = id then ((((t.push (.rule wrapper)).2).relink d (some t.size)
        (some start)).node? id).map (TreeNode.mapRule fun node =>
          { node with children := node.children.push d })
      else (((t.push (.rule wrapper)).2).relink d (some t.size) (some start)).node? id :=
    node?_modifyRule _ _ _ _
  have relinked (id : NodeId) : (((t.push (.rule wrapper)).2).relink d (some t.size)
      (some start)).node? id = if d = id then ((t.push (.rule wrapper)).2.node? id).map
        (TreeNode.mapRule fun node => { node with parent := some t.size, invoking := some start })
      else (t.push (.rule wrapper)).2.node? id :=
    node?_modifyRule _ _ _ _
  have lt := h.lt_size
  have ne : d ≠ t.size := Nat.ne_of_lt lt
  have others {id : NodeId} (before : id < t.size) (apart : id ≠ d) :
      (((t.withCall rule (some c) (some number)).relink d (some t.size)
        (some start)).attach true (some t.size) d).node? id = t.node? id := by
    rw [node?, if_neg (Nat.ne_of_gt before), relinked, if_neg (Ne.symm apart), node?_push,
      if_neg (Nat.ne_of_lt before)]
  obtain ⟨children, ids, here, draws, apart⟩ := h.inside
  refine ⟨Nat.le_trans h.size (Nat.le_of_lt lt), fun q before => ?_, #[d], d :: ids ++ [],
    ?_, ?_, ?_⟩
  · have before' : q < d := Nat.lt_of_lt_of_le before h.size
    rw [others (Nat.lt_trans before' lt) (Nat.ne_of_lt before'), h.old q before]
  · rw [node?, if_pos rfl, relinked, if_neg ne, node?_push, if_pos rfl]
    rfl
  · let wrapped : RuleNode :=
      { rule, invoking := some start, parent := some t.size, children }
    have here' : (((t.withCall rule (some c) (some number)).relink d (some t.size)
        (some start)).attach true (some t.size) d).node? d = some (.rule wrapped) := by
      rw [node?, if_neg (Ne.symm ne), relinked, if_pos rfl, node?_push, if_neg ne, here]
      rfl
    refine Draws.rule here' rfl (draws.congr fun id mem => ?_) .nil
    exact others (draws.lt_size id mem) (apart id mem).2
  · simp only [List.append_nil, List.forall_mem_cons]
    refine ⟨⟨h.size, ne⟩, fun id mem => ⟨(apart id mem).1, ?_⟩⟩
    exact Nat.ne_of_lt (draws.lt_size id mem)

/-- The call ends: its context is attached to that of the caller. -/
theorem close (h : Grows base t rule c number d ds) (lt : c < base.size) :
    Gains base ((t.setParent d (some c)).attach true (some c) d) c [.rule rule ds] := by
  obtain ⟨children, ids, here, draws, apart⟩ := h.inside
  have unchanged : t.setParent d (some c) = t := by
    refine ext_node? fun id => ?_
    rw [node?_setParent]
    split
    case isTrue same =>
        subst same
        rw [here]
        rfl
    case isFalse => rfl
  have node? (id : NodeId) : (t.attach true (some c) d).node? id =
      if c = id then (t.node? id).map (TreeNode.mapRule fun node =>
        { node with children := node.children.push d }) else t.node? id :=
    node?_modifyRule _ _ _ _
  have later {id : NodeId} (le : base.size ≤ id) :
      (t.attach true (some c) d).node? id = t.node? id := by
    rw [node?, if_neg (Nat.ne_of_lt (Nat.lt_of_lt_of_le lt le))]
  rw [unchanged]
  refine ⟨?_, fun q before other => ?_, fun node caller => ⟨[d], d :: ids ++ [], ?_, ?_, ?_⟩⟩
  · have size : (t.attach true (some c) d).size = t.size := size_modifyRule _ _ _
    rw [size]
    exact Nat.le_trans h.size (Nat.le_of_lt h.lt_size)
  · rw [node?, if_neg (Ne.symm other), h.old q before]
  · rw [node?, if_pos rfl, h.old c lt, caller]
    simp [TreeNode.mapRule]
  · refine Draws.rule ((later h.size).trans here) rfl (draws.congr fun id mem => ?_) .nil
    exact later (apart id mem).1
  · simp only [List.append_nil, List.forall_mem_cons]
    exact ⟨h.size, fun id mem => (apart id mem).1⟩

end Grows

end ParseTree

end AdaptiveLL
