import AdaptiveLL.Proofs.Parser.Follows
/-!
Parsers that a parse can go on from. The context that is current, the callers that are remembered
and the links of the tree lead to nodes of the tree, and the input is in order. New parsers are
settled, and so is what becomes of them when they parse, whatever the outcome is, or are reset.
-/
namespace AdaptiveLL

variable {σ τ α : Type} {u : ParserSetup τ} {p : Parser σ τ}

/-- The links of the node lead to numbers below `size`. -/
def TreeNode.Within (size : Nat) (node : TreeNode) : Prop :=
  (∀ q ∈ node.parent, q < size) ∧ ∀ c ∈ node.children, c < size

namespace ParseTree

/-- The links of the tree, the context and the remembered callers lead to nodes of the tree. -/
structure Settled (t : ParseTree) (context : Option NodeId)
    (callers : List (Option NodeId × Option Nat)) : Prop where
  node : ∀ id node, t.node? id = some node → node.Within t.size
  context : ∀ c ∈ context, c < t.size
  callers : ∀ r ∈ callers, ∀ c ∈ r.1, c < t.size

namespace Settled

variable {t : ParseTree} {context above : Option NodeId} {callers : List (Option NodeId × Option Nat)}
  {id c : NodeId}

theorem children (h : t.Settled context callers) : ∀ q, ∀ c ∈ t.children q, c < t.size := by
  intro q c mem
  cases here : t.node? q with
  | none => simp [ParseTree.children, here] at mem
  | some node =>
      have mem : c ∈ node.children := by simpa [ParseTree.children, here] using mem
      exact (h.node q node here).2 c mem

theorem parent (h : t.Settled context callers) (id : NodeId) : ∀ q ∈ t.parent? id, q < t.size := by
  intro q linked
  obtain ⟨node, here, linked⟩ := Option.bind_eq_some_iff.1 linked
  exact (h.node id node here).1 q linked

/-- Another tree that is as large. -/
theorem congr {t' : ParseTree} (h : t.Settled context callers) (size : t'.size = t.size)
    (node : ∀ id node, t'.node? id = some node → node.Within t.size) : t'.Settled context callers where
  node := size ▸ node
  context := size ▸ h.context
  callers := size ▸ h.callers

/-- A new node has no children, and its parent is there. -/
theorem push {node : TreeNode} (h : t.Settled context callers) (leaf : node.children = [])
    (linked : ∀ q ∈ node.parent, q < t.size) : (t.push node).2.Settled context callers where
  node id other here := by
    rw [node?_push] at here
    rw [size_push]
    split at here
    case isTrue =>
        cases here
        exact ⟨fun q mem => Nat.lt_succ_of_lt (linked q mem), by simp [leaf]⟩
    case isFalse =>
        obtain ⟨parent, children⟩ := h.node id other here
        exact ⟨fun q mem => Nat.lt_succ_of_lt (parent q mem),
          fun c mem => Nat.lt_succ_of_lt (children c mem)⟩
  context c mem := (size_push t node).symm ▸ Nat.lt_succ_of_lt (h.context c mem)
  callers r mem c here := (size_push t node).symm ▸ Nat.lt_succ_of_lt (h.callers r mem c here)

/-- A rule node is changed. -/
theorem modifyRule {f : RuleNode → RuleNode} (h : t.Settled context callers)
    (keeps : ∀ node, (TreeNode.rule node).Within t.size → (TreeNode.rule (f node)).Within t.size) :
    (t.modifyRule id f).Settled context callers := by
  refine h.congr (size_modifyRule t id f) fun other node here => ?_
  rw [node?_modifyRule] at here
  split at here
  case isTrue =>
      obtain ⟨old, known, rfl⟩ := Option.map_eq_some_iff.1 here
      have within := h.node other old known
      cases old with
      | rule node => exact keeps node within
      | terminal | error => exact within
  case isFalse => exact h.node other node here

/-- A change of notes. -/
theorem note {f : RuleNode → RuleNode} (h : t.Settled context callers)
    (keeps : ∀ node, (f node).outline = node.outline) : (t.modifyRule id f).Settled context callers := by
  refine h.modifyRule fun node within => ?_
  have parent : (f node).parent = node.parent := by
    have same := congrArg RuleNode.parent (keeps node)
    exact same
  have children : (f node).children = node.children := by
    have same := congrArg RuleNode.children (keeps node)
    exact same
  simpa [TreeNode.Within, TreeNode.parent, TreeNode.children, parent, children] using within

theorem addChild (h : t.Settled context callers) (lt : c < t.size) :
    (t.addChild id c).Settled context callers := by
  refine h.modifyRule fun node within => ⟨within.1, fun c' mem => ?_⟩
  have known : c' ∈ node.children ∨ c' = c := by simpa [TreeNode.children] using mem
  rcases known with known | rfl
  · exact within.2 c' (by simpa [TreeNode.children] using known)
  · exact lt

/-- A node may be given another parent that is there. -/
theorem setParent (h : t.Settled context callers) (inside : ∀ q ∈ above, q < t.size) :
    (t.setParent id above).Settled context callers := by
  refine h.congr (size_setParent t id above) fun other node here => ?_
  rw [node?_setParent] at here
  split at here
  case isTrue =>
      obtain ⟨old, known, rfl⟩ := Option.map_eq_some_iff.1 here
      have within := h.node other old known
      cases old <;> exact ⟨inside, within.2⟩
  case isFalse => exact h.node other node here

theorem attach (h : t.Settled context callers) (build : Bool) (above : Option NodeId)
    (lt : c < t.size) :
    (t.attach build above c).Settled context callers ∧ (t.attach build above c).size = t.size := by
  unfold ParseTree.attach
  split
  · exact ⟨h.addChild lt, size_modifyRule _ _ _⟩
  · exact ⟨h, rfl⟩

theorem addToken (h : t.Settled context callers) (lt : c < t.size) (token : Token) (isError : Bool) :
    (t.addToken c token isError).2.Settled context callers := by
  refine Settled.addChild (h.push ?_ ?_) ?_
  · cases isError <;> rfl
  · cases isError <;> simpa [TreeNode.parent] using lt
  · simp [size]

end Settled

end ParseTree

variable [TokenSource σ]

/-- The parser can go on with a parse. -/
def Parser.Settled (p : Parser σ τ) : Prop :=
  p.input.Sound ∧ p.tree.Settled p.context p.recursions

/-- The parser is settled, and its tree has at least `size` nodes. -/
def Parser.SettledFrom (size : Nat) (p : Parser σ τ) : Prop :=
  p.Settled ∧ size ≤ p.tree.size

namespace Parser

variable {size : Nat}

theorem Settled.inside (h : p.Settled) : ∀ c ∈ p.context, c < p.tree.size :=
  h.2.context

/-- New parsers are settled. -/
theorem settled_ofInput {n : Network} {tables : Tables} {input : TokenStream σ} (sound : input.Sound)
    (host : τ) : (Parser.ofInput n tables input host).Settled where
  left := sound
  right := by
    constructor
    case node => intro id node here; cases here
    case context => intro c mem; cases mem
    case callers => intro r mem; cases mem

/-- A parser that is reset is settled. -/
theorem Settled.reset (h : p.Settled) : p.reset.Settled where
  left := (TokenStream.seek_leads 0 _).sound h.1
  right := by
    constructor
    case node => intro id node here; cases here
    case context => intro c mem; cases mem
    case callers => intro r mem; cases mem

namespace SettledFrom

theorem lt {c : NodeId} (h : p.SettledFrom size) (lt : c < size) : c < p.tree.size :=
  Nat.lt_of_lt_of_le lt h.2

theorem mono {larger : Nat} (h : p.SettledFrom larger) (le : size ≤ larger) : p.SettledFrom size :=
  ⟨h.1, Nat.le_trans le h.2⟩

/-- A change of the tree that keeps its size. -/
theorem reshape {t : ParseTree} (h : p.SettledFrom size) (same : t.size = p.tree.size)
    (settled : t.Settled p.context p.recursions) :
    ({ p with tree := t } : Parser σ τ).SettledFrom size :=
  ⟨⟨h.1.1, settled⟩, same ▸ h.2⟩

theorem note {f : RuleNode → RuleNode} (h : p.SettledFrom size) (id : NodeId)
    (keeps : ∀ node, (f node).outline = node.outline) :
    ({ p with tree := p.tree.modifyRule id f } : Parser σ τ).SettledFrom size :=
  h.reshape (ParseTree.size_modifyRule _ _ _) (h.1.2.note keeps)

theorem attach {c : NodeId} (h : p.SettledFrom size) (build : Bool) (above : Option NodeId)
    (lt : c < p.tree.size) :
    ({ p with tree := p.tree.attach build above c } : Parser σ τ).SettledFrom size := by
  obtain ⟨settled, same⟩ := h.1.2.attach build above lt
  exact h.reshape same settled

theorem addToken {c : NodeId} (h : p.SettledFrom size) (lt : c < p.tree.size) (token : Token)
    (isError : Bool) :
    ({ p with tree := (p.tree.addToken c token isError).2 } : Parser σ τ).SettledFrom size :=
  ⟨⟨h.1.1, h.1.2.addToken lt token isError⟩,
    Nat.le_trans h.2 (ParseTree.Keeps.addToken p.tree c token isError).size⟩

end SettledFrom

end Parser

namespace Parsing

open AdaptiveLL.Parser (SettledFrom)

variable {size : Nat}

/-- What is done within a rule leaves the callers where they are. -/
theorem settled_basis (size : Nat) : Basis u fun p : Parser σ τ => p.SettledFrom size where
  look k h := ⟨⟨(h.1.1.begun_lookahead? k).sound, h.1.2⟩, h.2⟩
  textRange i j h := ⟨⟨(h.1.1.begun_textRange i j).sound, h.1.2⟩, h.2⟩
  consume p h := by
    obtain ⟨tree, host, run, puts⟩ := putToken_run (u := u) p.currentToken (p.withInput p.behind)
    rw [consume_run, run]
    refine ⟨⟨(p.begun_behind h.1.1).sound, ?_⟩, Nat.le_trans h.2 puts.keeps.size⟩
    have token {c : NodeId} {isError : Bool} (lt : c < p.tree.size) :
        (p.tree.addDetached c p.currentToken isError).2.Settled p.context p.recursions := by
      apply h.1.2.push
      · cases isError <;> rfl
      · cases isError <;> simpa [TreeNode.parent] using lt
    cases puts with
    | nowhere => exact h.1.2
    | child here => exact h.1.2.addToken (h.1.inside _ here) _ _
    | detached here => exact token (h.1.inside _ here)
  conjure {p token _} _ here h := h.addToken (h.1.inside _ here) token true
  note id f keeps h := h.note id fun node => (keeps node).2.2
  report _ h := h
  settle _ _ _ h := h
  ask _ _ _ h := h
  act _ _ _ h := h
  predict decision node p h := by
    obtain ⟨s', run, predicted⟩ := predict_run (u := u) decision node p
    rw [run]
    exact ⟨⟨predicted.input.sound h.1.1, h.1.2⟩, h.2⟩

section Calls

theorem notify_settles (event : TreeEvent) :
    (notify u event : Parsing σ τ Unit).Preserves (SettledFrom size) :=
  .modify fun _ h => h

theorem notifyReversed_settles (event : TreeEvent) :
    (notifyReversed u event : Parsing σ τ Unit).Preserves (SettledFrom size) :=
  .modify fun _ h => h

theorem deepen_settles (rule : Nat) :
    (deepen u rule : Parsing σ τ Unit).Preserves (SettledFrom size) := by
  refine .bind_get fun p h => ?_
  have sets : Step.Preserves (SettledFrom size)
      (set { p with depth := p.depth + 1 } : Parsing σ τ PUnit) := fun _ _ => h
  split
  · exact h
  · exact sets p h

/-- The nodes that are there now stay. -/
theorem settles_of_larger {x : Parsing σ τ α} (h : p.SettledFrom size)
    (settles : x.Preserves (SettledFrom p.tree.size)) : (x.run p).2.SettledFrom size :=
  (settles p ⟨h.1, Nat.le_refl _⟩).mono h.2

/-- A new context is made under a node of the tree, and used. -/
theorem newContext_settles {f : NodeId → Parsing σ τ α} (h : p.SettledFrom size) {parent : Option NodeId}
    (inside : ∀ c ∈ parent, c < p.tree.size) (invoking : Option Nat) (rule : Nat)
    (rest : (f p.tree.size).Preserves (SettledFrom (p.tree.size + 1))) :
    (((newContext parent invoking rule : Parsing σ τ NodeId) >>= f).run p).2.SettledFrom size := by
  have called : (p.tree.withCall rule parent invoking).Settled p.context p.recursions :=
    h.1.2.push rfl inside
  have made : (p.withContext parent invoking rule).SettledFrom (p.tree.size + 1) := by
    refine ⟨⟨h.1.1, called.note fun _ => rfl⟩, ?_⟩
    rw [Parser.withContext, ParseTree.size_modifyRule]
    exact Nat.le_of_eq (ParseTree.size_push _ _).symm
  rw [Step.run_bind_ok (newContext_run _ _ _ p)]
  exact (rest _ made).mono (Nat.le_succ_of_le h.2)

theorem setContext_settles {context : Option NodeId} (inside : ∀ c ∈ context, c < size) :
    (setContext context : Parsing σ τ Unit).Preserves (SettledFrom size) :=
  .modify fun _ h => ⟨⟨h.1.1, { h.1.2 with context := fun c mem => h.lt (inside c mem) }⟩, h.2⟩

/-- A context is entered. -/
theorem enterCall_settles {context : NodeId} (lt : context < size) (start rule : Nat) (precedence : Int) :
    (enterCall u context start rule precedence : Parsing σ τ Unit).Preserves (SettledFrom size) := by
  have basis := settled_basis (u := u) (σ := σ) size
  have current : ∀ c ∈ some context, c < size := by simpa using lt
  unfold enterCall
  split
  case isTrue =>
      refine .bind (.modify fun p h => ⟨⟨h.1.1, ?_⟩, h.2⟩) fun _ => .bind (deepen_settles rule) fun _ => ?_
      · exact { h.1.2 with callers := List.forall_mem_cons.2 ⟨h.1.inside, h.1.2.callers⟩ }
      refine .bind (.modify fun p h => ⟨⟨h.1.1, ?_⟩, h.2⟩) fun _ => ?_
      · exact { h.1.2 with context := fun c mem => h.lt (current c mem) }
      refine .bind (basis.lookahead?_preserves 1) fun start => ?_
      exact .bind (.modify fun p h => h.note context fun _ => rfl) fun _ => notify_settles _
  case isFalse =>
      refine .bind (deepen_settles rule) fun _ => .bind (basis.setState_preserves start) fun _ => ?_
      refine .bind (setContext_settles current) fun _ => .bind (basis.lookahead?_preserves 1) fun start => ?_
      refine .bind (.modify fun p h => ?_) fun _ => notify_settles _
      have noted := h.note context (f := fun node => { node with start }) fun _ => rfl
      exact noted.attach u.options.buildTrees _ (noted.lt lt)

/-- An operator makes a new context around the current one. -/
theorem wrapContext_settles {context : NodeId} (lt : context < size) (state : Nat) :
    (wrapContext u context state : Parsing σ τ Unit).Preserves (SettledFrom size) := by
  refine .bind_get fun p h => ?_
  split
  case h_1 => exact h
  case h_2 previous here =>
      have basis := settled_basis (u := u) (σ := σ) p.tree.size
      have inside := h.1.inside previous here
      refine settles_of_larger h (.bind (basis.lookahead?_preserves (-1)) fun stop => ?_)
      refine .bind (.modify fun q h => h.note previous fun _ => rfl) fun _ => ?_
      refine .bind (notifyReversed_settles _) fun _ => .bind (.modify fun q h' => ?_) fun _ => notify_settles _
      have current := h'.lt (h.lt lt)
      let link (node : RuleNode) := { node with parent := some context, invoking := some state }
      have linked := h'.reshape (ParseTree.size_modifyRule q.tree previous link)
        (h'.1.2.modifyRule fun node within => ⟨by simpa [TreeNode.parent, link] using current, within.2⟩)
      have noted := linked.note context (f := fun node => { node with
        start := (q.tree.rule? previous).bind RuleNode.start }) fun _ => rfl
      have attached := noted.attach u.options.buildTrees (some context) (noted.lt inside)
      rw [ParseTree.attach_some] at attached
      have above := attached.lt (h.lt lt)
      exact ⟨⟨attached.1.1, { attached.1.2 with context := by simpa using above }⟩, attached.2⟩

theorem continueRecursion_settles (s : State) :
    (continueRecursion u s : Parsing σ τ Unit).Preserves (SettledFrom size) := by
  refine .bind_get fun p h => ?_
  extract_lets rule
  have inside : ∀ c ∈ (p.recursions.head?.getD (none, none)).1, c < p.tree.size := by
    cases known : p.recursions with
    | nil => simp
    | cons r rest => exact h.1.2.callers r (by simp [known])
  generalize p.recursions.head?.getD (none, none) = caller at inside ⊢
  obtain ⟨parent, invoking⟩ := caller
  refine newContext_settles h inside invoking rule (.bind (.required _ _) fun start => ?_)
  exact wrapContext_settles (Nat.lt_succ_self _) start

/-- At the end of a rule its caller becomes the current context, which is there. -/
theorem exitRule_settles : (exitRule u : Parsing σ τ Unit).Preserves (SettledFrom size) := by
  have basis := settled_basis (u := u) (σ := σ) size
  refine .bind .get fun p => ?_
  split
  case h_1 => exact .pure _
  case h_2 context _ =>
      refine .bind .get fun q => .bind (basis.lookahead?_preserves _) fun stop => ?_
      refine .bind (.modify fun q h => h.note context fun _ => rfl) fun _ => ?_
      refine .bind (notifyReversed_settles _) fun _ => .modify fun q h => ⟨⟨h.1.1, ?_⟩, h.2⟩
      refine { h.1.2 with context := fun c linked => h.1.2.parent context c ?_ }
      change (q.tree.rule? context).bind RuleNode.parent = some c at linked
      rw [ParseTree.rule?_bind_parent] at linked
      obtain ⟨l, link, parent⟩ := Option.bind_eq_some_iff.1 linked
      exact (ParseTree.parent?_of_link link).trans parent

/-- Contexts that have been wrapped are left one after the other. -/
theorem unwrapContexts_settles {parent : Option NodeId} (inside : ∀ c ∈ parent, c < size) :
    (unwrapContexts u parent : Parsing σ τ Unit).Preserves (SettledFrom size) := by
  refine .bind (.modify fun p h => h) fun _ => .bind_get fun p h => ?_
  split
  case h_1 => exact setContext_settles inside p h
  case h_2 context here =>
      have basis := settled_basis (u := u) (σ := σ) p.tree.size
      have below := h.1.inside context here
      refine settles_of_larger h (.bind (basis.lookahead?_preserves (-1)) fun stop => ?_)
      refine .bind (.modify fun q h => h.note context fun _ => rfl) fun _ => .bind .get fun q => ?_
      refine .bind (.forM (fun _ => notifyReversed_settles _) _) fun _ => .modify fun q h' => ?_
      have current (c : NodeId) (mem : c ∈ parent) : c < q.tree.size := h'.lt (h.lt (inside c mem))
      have linked := h'.reshape (ParseTree.size_setParent q.tree context parent) (h'.1.2.setParent current)
      have attached := linked.attach u.options.buildTrees parent (linked.lt below)
      exact ⟨⟨attached.1.1, { attached.1.2 with
        context := fun c mem => attached.lt (h.lt (inside c mem)) }⟩, attached.2⟩

end Calls

theorem takeEdge_settles (number : Nat) (s : State) (t : Transition) :
    (takeEdge u number s t : Parsing σ τ Unit).Preserves (SettledFrom size) := by
  have plain (plain : t.Plain) : (takeEdge u number s t : Parsing σ τ Unit).Preserves (SettledFrom size) :=
    (settled_basis size).takeEdge_preserves number s plain fun _ _ _ h => h
  cases t with
  | epsilon => exact .bind (.ofQuestion _) fun _ => .ite (continueRecursion_settles s) (.pure _)
  | call target rule precedence follow =>
      refine .bind (.ofQuestion _) fun callee => .bind_get fun p h => ?_
      refine newContext_settles h h.1.inside _ _ ?_
      exact enterCall_settles (Nat.lt_succ_self _) _ _ _
  | atom | range | set | notSet | wildcard | predicate | precedence | action => exact plain trivial

theorem visitState_settles (number : Nat) (s : State) :
    (visitState u number s : Parsing σ τ Unit).Preserves (SettledFrom size) := by
  have basis := settled_basis (u := u) (σ := σ) size
  unfold visitState
  extract_lets missing goOn
  have goesOn (alt : Nat) : (goOn alt).Preserves (SettledFrom size) := by
    refine .bind (.required _ _) fun t => .bind (takeEdge_settles number s t) fun _ => ?_
    exact basis.setState_preserves _
  split
  · exact .bind (basis.choose_preserves number s) goesOn
  · exact .bind (.pure _) goesOn

/-- The callers are others, and the nodes that are there now stay. -/
theorem modify_settles {f : Parser σ τ → Parser σ τ} {rest : Parsing σ τ α} (h : p.SettledFrom size)
    (modified : (f p).SettledFrom p.tree.size) (settles : rest.Preserves (SettledFrom p.tree.size)) :
    (((modify f : Parsing σ τ PUnit) >>= fun _ => rest).run p).2.SettledFrom size :=
  (settles (f p) modified).mono h.2

theorem visitRuleStop_settles (number : Nat) (s : State) :
    (visitRuleStop u number s : Parsing σ τ Unit).Preserves (SettledFrom size) := by
  unfold visitRuleStop
  extract_lets n goOn
  have goesOn (size : Nat) (x : PUnit) : (goOn x).Preserves (SettledFrom size) := by
    refine .bind .get fun p => .bind (.required _ _) fun follow => ?_
    exact (settled_basis (u := u) size).setState_preserves follow
  split
  case isTrue =>
      refine .bind_get fun p h => ?_
      split
      case h_1 => exact h
      case h_2 parent invoking recursions known =>
          have callers := h.1.2.callers
          rw [known] at callers
          obtain ⟨inside, others⟩ := List.forall_mem_cons.1 callers
          have popped : ({ p with recursions } : Parser σ τ).SettledFrom p.tree.size :=
            ⟨⟨h.1.1, { h.1.2 with callers := others }⟩, Nat.le_refl _⟩
          refine modify_settles h popped (.bind (unwrapContexts_settles inside) fun _ => ?_)
          exact .bind ((settled_basis (u := u) _).setState_preserves _) (goesOn _)
  case isFalse => exact .bind exitRule_settles (goesOn size)

theorem conclude_settles (leftRecursive : Bool) (root : NodeId) :
    (conclude u leftRecursive root : Parsing σ τ NodeId).Preserves (SettledFrom size) := by
  unfold conclude
  split
  case isTrue =>
      refine .bind_get fun p h => ?_
      have inside : ∀ c ∈ (p.recursions.head?.map Prod.fst).getD none, c < p.tree.size := by
        cases known : p.recursions with
        | nil => simp
        | cons r rest => exact h.1.2.callers r (by simp [known])
      have popped : ({ p with recursions := p.recursions.tail } : Parser σ τ).SettledFrom p.tree.size :=
        ⟨⟨h.1.1, { h.1.2 with callers := fun r mem => h.1.2.callers r (List.mem_of_mem_tail mem) }⟩,
          Nat.le_refl _⟩
      refine modify_settles h popped (.bind (unwrapContexts_settles inside) fun _ => ?_)
      exact .bind (.modify fun _ h => h) fun _ => .pure _
  case isFalse => exact .bind exitRule_settles fun _ => .pure _

theorem turn_settles (leftRecursive : Bool) (root : NodeId) :
    (turn u leftRecursive root : Parsing σ τ (Option NodeId)).Preserves (SettledFrom size) := by
  refine .bind .get fun p => .bind (.required _ _) fun s => ?_
  split
  case isTrue =>
      refine .bind (.bind .get fun _ => .pure _) fun outermost => .ite ?_ ?_
      · exact .bind (conclude_settles leftRecursive root) fun _ => .pure _
      · exact .bind (visitRuleStop_settles _ s) fun _ => .pure _
  case isFalse =>
      refine .bind (.attempt (visitState_settles _ s)) fun outcome => ?_
      match outcome with
      | .ok () => exact .pure _
      | .error (.recoverable error) =>
          exact .bind ((settled_basis size).abandonRule_preserves s error) fun _ => .pure _
      | .error (.fatal _) | .error (.fault _) => exact .throw _

theorem visitStates_settles (leftRecursive : Bool) (root : NodeId) (fuel : Nat) :
    (visitStates u leftRecursive root fuel : Parsing σ τ NodeId).Preserves (SettledFrom size) := by
  induction fuel with
  | zero => exact .throw _
  | succ fuel ih =>
      rw [visitStates_succ]
      refine .bind (turn_settles leftRecursive root) fun answer => ?_
      cases answer with
      | none => exact ih
      | some answer => exact .pure _

/-- Whatever its outcome is, a parse leaves a parser with which another parse can go on. -/
theorem parse_settles (rule : Nat) : (parse u rule : Parsing σ τ NodeId).Preserves Parser.Settled := by
  intro p h
  have settles : (parse u rule : Parsing σ τ NodeId).Preserves (SettledFrom 0) := by
    refine .bind (.required _ _) fun start p h => ?_
    refine newContext_settles h (by simp) none rule (.bind (.modify fun _ h => h) fun _ => ?_)
    refine .bind (enterCall_settles (Nat.lt_succ_self _) start rule 0) fun _ => ?_
    exact visitStates_settles _ _ _
  exact (settles p ⟨h, Nat.zero_le _⟩).1

end Parsing

end AdaptiveLL
