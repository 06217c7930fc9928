import AdaptiveLL.Proofs.Parser.Choice
/-!
What entering and leaving rules does. Each of these moves is a change of the stacks and of the
links in the tree, given here as a function on parsers, and apart from that a move that enters
and leaves no rule.
-/
namespace AdaptiveLL

namespace ParseTree

variable {t t' : ParseTree}

theorem Keeps.of_outline (same : t'.outline = t.outline) : Keeps t t' where
  size := Nat.le_of_eq (by rw [← size_outline t', same, size_outline])
  link {id l} h := by rwa [← link?_outline, same, link?_outline]

/-- The tree with a node under its parent, if trees are built. -/
def attach (t : ParseTree) (build : Bool) (parent : Option NodeId) (id : NodeId) : ParseTree :=
  match parent, build with
  | some parent, true => t.addChild parent id
  | _, _ => t

theorem attach_some (t : ParseTree) (build : Bool) (parent id : NodeId) :
    t.attach build (some parent) id = if build then t.addChild parent id else t := by
  cases build <;> rfl

theorem outline_attach (t : ParseTree) (build : Bool) (parent : Option NodeId) (id : NodeId) :
    (t.attach build parent id).outline = t.outline.attach build parent id := by
  cases parent <;> cases build <;> simp [attach]

/-- A new node for a call. -/
def withCall (t : ParseTree) (rule : Nat) (parent : Option NodeId) (invoking : Option Nat) :
    ParseTree :=
  (t.addRule rule parent invoking).2

theorem outline_withCall (t : ParseTree) (rule : Nat) (parent : Option NodeId)
    (invoking : Option Nat) :
    (t.withCall rule parent invoking).outline = t.outline.withCall rule parent invoking :=
  outline_addRule t rule parent invoking

theorem link?_withCall (t : ParseTree) (rule : Nat) (parent : Option NodeId)
    (invoking : Option Nat) :
    (t.withCall rule parent invoking).link? t.size = some ⟨rule, invoking, parent⟩ := by
  have here : (t.withCall rule parent invoking).node? t.size
      = some (.rule { rule, parent, invoking }) :=
    (node?_push t _ t.size).trans (if_pos rfl)
  exact link?_eq_some.2 ⟨_, here, rfl⟩

/-- A rule node under another parent. -/
def relink (t : ParseTree) (id : NodeId) (parent : Option NodeId) (invoking : Option Nat) :
    ParseTree :=
  t.modifyRule id fun node => { node with parent, invoking }

theorem outline_relink (t : ParseTree) (id : NodeId) (parent : Option NodeId)
    (invoking : Option Nat) :
    (t.relink id parent invoking).outline = t.outline.relink id parent invoking :=
  outline_modifyRule (f := fun node => { node with parent, invoking }) (fun _ => rfl) t id

theorem outline_attach_note {f : RuleNode → RuleNode} (h : ∀ node, (f node).outline = node.outline)
    (t : ParseTree) (build : Bool) (id : NodeId) :
    ((t.modifyRule id f).attach build ((t.modifyRule id f).parent? id) id).outline
      = (t.attach build (t.parent? id) id).outline := by
  rw [← parent?_outline, outline_attach, outline_attach, outline_note h, parent?_outline]

/-- The state that made a call is kept by the outline. -/
theorem rule?_bind_invoking (t : ParseTree) (id : NodeId) :
    (t.rule? id).bind RuleNode.invoking = (t.link? id).bind Link.invoking := by
  unfold link?
  cases t.rule? id <;> rfl

theorem rule?_bind_parent (t : ParseTree) (id : NodeId) :
    (t.rule? id).bind RuleNode.parent = (t.link? id).bind Link.parent := by
  unfold link?
  cases t.rule? id <;> rfl

end ParseTree

open AdaptiveLL.Parser (Acts Fails Looks Lasts)

variable {σ τ α β : Type} [TokenSource σ] {u : ParserSetup τ} {N R : Prop} {p p' : Parser σ τ}

namespace Parser

/-- A change of notes, of the host and of what has been looked at. -/
theorem Acts.of_outline {s : Simulation σ τ} {t : ParseTree} {root : Option NodeId}
    (input : p.input.Passes s.input []) (tables : s.tables = p.simulation.tables)
    (outline : t.outline = p.tree.outline) :
    Acts u p { p with simulation := s, tree := t, root } [] :=
  { refl u p with
    input := input.toLeads
    starts := congrArg Tables.starts tables
    within := fun _ _ h => tables ▸ h
    prescription := id
    keeps := .of_outline outline
    grafts := fun _ => outline.trans (ParseTree.graft_nil _ _).symm
    passes := input }

/-- A rule has been called. The node of the call is linked to `parent`: to the current context, or to
nothing if it is the start rule of a parse. -/
def entered (u : ParserSetup τ) (p : Parser σ τ) (parent : Option NodeId) (invoking : Option Nat)
    (rule start : Nat) (precedence : Int) : Parser σ τ :=
  let id := p.tree.size
  let tree := p.tree.withCall rule parent invoking
  if u.grammar.network.isLeftRecursiveRule rule then
    { p with
      tree, state := start, context := some id, depth := p.depth + 1
      precedences := precedence :: p.precedences
      recursions := (p.context, invoking) :: p.recursions }
  else
    { p with
      tree := tree.attach u.options.buildTrees parent id
      state := start, context := some id, depth := p.depth + 1 }

/-- The current context of a left-recursive rule has been wrapped in another one. -/
def wrapped (u : ParserSetup τ) (p : Parser σ τ) (rule start : Nat) : Parser σ τ :=
  let caller := p.recursions.head?.getD (none, none)
  let id := p.tree.size
  let tree := p.tree.withCall rule caller.1 caller.2
  match p.context with
  | none => { p with tree }
  | some previous =>
      { p with
        tree := (tree.relink previous (some id) (some start)).attach u.options.buildTrees (some id)
          previous
        context := some id }

omit [TokenSource σ] in
theorem wrapped_of_none (here : p.context = none) (rule start : Nat) :
    p.wrapped u rule start = { p with
      tree := p.tree.withCall rule (p.recursions.head?.getD (none, none)).1
        (p.recursions.head?.getD (none, none)).2 } := by
  simp only [wrapped, here]

omit [TokenSource σ] in
theorem wrapped_of_some {previous : NodeId} (here : p.context = some previous) (rule start : Nat) :
    p.wrapped u rule start = { p with
      tree := ((p.tree.withCall rule (p.recursions.head?.getD (none, none)).1
        (p.recursions.head?.getD (none, none)).2).relink previous (some p.tree.size)
          (some start)).attach u.options.buildTrees (some p.tree.size) previous
      context := some p.tree.size } := by
  simp only [wrapped, here]

/-- The rule of the current context has been left. -/
def left (p : Parser σ τ) : Parser σ τ :=
  match p.context with
  | none => p
  | some context =>
      { p with
        depth := p.depth - 1
        state := ((p.tree.link? context).bind Link.invoking).getD noState
        context := (p.tree.link? context).bind Link.parent }

omit [TokenSource σ] in
theorem left_of_none (here : p.context = none) : p.left = p := by
  simp only [left, here]

omit [TokenSource σ] in
theorem left_of_some {c : NodeId} (here : p.context = some c) :
    p.left = { p with
      depth := p.depth - 1
      state := ((p.tree.link? c).bind Link.invoking).getD noState
      context := (p.tree.link? c).bind Link.parent } := by
  simp only [left, here]

/-- A left-recursive rule has been left, and its outermost context attached to `parent`. -/
def unwrapped (u : ParserSetup τ) (p : Parser σ τ) (parent : Option NodeId) : Parser σ τ :=
  { p with
    precedences := p.precedences.tail
    depth := p.depth - 1
    recursions := p.recursions.tail
    context := parent
    tree := match p.context with
      | none => p.tree
      | some context =>
          (p.tree.setParent context parent).attach u.options.buildTrees parent context }

/-- Where a parser comes back to at the stop of a rule: to the state that made the call. -/
inductive Returns (u : ParserSetup τ) (p : Parser σ τ) (rule : Nat) : Parser σ τ → Prop
  | ordinary (plain : u.grammar.network.isLeftRecursiveRule rule = false) : Returns u p rule p.left
  | recursive (recursive : u.grammar.network.isLeftRecursiveRule rule = true)
      {parent : Option NodeId} {invoking : Option Nat} {rest : List (Option NodeId × Option Nat)}
      (top : p.recursions = (parent, invoking) :: rest) :
      Returns u p rule { p.unwrapped u parent with state := invoking.getD noState }

omit [TokenSource σ] in
theorem entered_simulation (p : Parser σ τ) {parent : Option NodeId} {invoking : Option Nat}
    {rule start : Nat} {precedence : Int} :
    (p.entered u parent invoking rule start precedence).simulation = p.simulation := by
  unfold entered
  split <;> rfl

omit [TokenSource σ] in
theorem entered_prescription (p : Parser σ τ) {parent : Option NodeId} {invoking : Option Nat}
    {rule start : Nat} {precedence : Int} :
    (p.entered u parent invoking rule start precedence).prescription = p.prescription := by
  unfold entered
  split <;> rfl

omit [TokenSource σ] in
theorem entered_state (p : Parser σ τ) {parent : Option NodeId} {invoking : Option Nat}
    {rule start : Nat} {precedence : Int} : (p.entered u parent invoking rule start precedence).state = start := by
  unfold entered
  split <;> rfl

omit [TokenSource σ] in
/-- A call makes the calls one deeper. -/
theorem entered_depth (p : Parser σ τ) {parent : Option NodeId} {invoking : Option Nat}
    {rule start : Nat} {precedence : Int} : (p.entered u parent invoking rule start precedence).depth = p.depth + 1 := by
  unfold entered
  split <;> rfl

omit [TokenSource σ] in
/-- An operator does not make the calls deeper. -/
theorem wrapped_depth (p : Parser σ τ) {rule start : Nat} :
    (p.wrapped u rule start).depth = p.depth := by
  unfold wrapped
  split <;> rfl

omit [TokenSource σ] in
theorem wrapped_simulation (p : Parser σ τ) {rule start : Nat} :
    (p.wrapped u rule start).simulation = p.simulation := by
  unfold wrapped
  split <;> rfl

omit [TokenSource σ] in
theorem wrapped_prescription (p : Parser σ τ) {rule start : Nat} :
    (p.wrapped u rule start).prescription = p.prescription := by
  unfold wrapped
  split <;> rfl

omit [TokenSource σ] in
theorem left_simulation (p : Parser σ τ) : p.left.simulation = p.simulation := by
  unfold left
  split <;> rfl

omit [TokenSource σ] in
theorem left_prescription (p : Parser σ τ) : p.left.prescription = p.prescription := by
  unfold left
  split <;> rfl

namespace Returns

variable {rule : Nat} {q q' : Parser σ τ}

theorem lasts (h : Returns u p rule q) : p.Lasts u q := by
  cases h with
  | ordinary => exact .of_eq p.left_simulation p.left_prescription
  | recursive => exact .of_eq rfl rfl

omit [TokenSource σ] in
/-- No return makes the calls deeper. -/
theorem depth_le (h : Returns u p rule q) : q.depth ≤ p.depth := by
  cases h with
  | ordinary =>
      unfold left
      split
      · exact Nat.le_refl _
      · exact Nat.sub_le _ _
  | recursive => exact Nat.sub_le _ _

omit [TokenSource σ] in
theorem unique (h : Returns u p rule q) (h' : Returns u p rule q') : q = q' := by
  cases h with
  | ordinary plain =>
      cases h' with
      | ordinary => rfl
      | recursive recursive => simp [plain] at recursive
  | recursive recursive top =>
      cases h' with
      | ordinary plain => simp [plain] at recursive
      | recursive _ top' =>
          rw [top] at top'
          cases top'
          rfl

end Returns

/-- The end of the start rule: its answer, and the parser behind it. -/
inductive Ends (u : ParserSetup τ) (p : Parser σ τ) (root : NodeId) :
    Bool → NodeId → Parser σ τ → Prop
  | ordinary {p' : Parser σ τ} (acts : Acts u p.left p' []) : Ends u p root false root p'
  | recursive {p' : Parser σ τ}
      (acts : Acts u (p.unwrapped u ((p.recursions.head?.map Prod.fst).getD none)) p' []) :
      Ends u p root true (p.context.getD root) p'

/-- Whether the parser stands in the call of the start rule. -/
def AtRoot (p : Parser σ τ) : Prop :=
  (p.context.bind p.tree.link?).bind Link.invoking = none

end Parser

open AdaptiveLL.Parser (Returns Ends)

namespace Parsing

omit [TokenSource σ] in
theorem newContext_run (parent : Option NodeId) (invoking : Option Nat) (rule : Nat)
    (p : Parser σ τ) :
    (newContext parent invoking rule).run p = (.ok p.tree.size, { p with
      tree := (p.tree.withCall rule parent invoking).modifyRule p.tree.size
        fun node => { node with alt := 1 } }) :=
  rfl

omit [TokenSource σ] in
/-- Whether there is room for one more call. -/
theorem deepen_ensures (rule : Nat) : (deepen u rule).Ensures p
    (fun _ p' => p' = { p with depth := p.depth + 1 } ∧ p.depth < u.options.maxDepth)
    fun e p' => p' = p ∧ e = .fatal (.tooDeep (p.depth + 1) rule) := by
  refine .bind (.of_ok rfl ?_)
  dsimp only
  split
  case isTrue deep => exact .of_error rfl ⟨rfl, rfl⟩
  case isFalse room => exact .of_ok rfl ⟨rfl, Nat.lt_of_not_le room⟩

/-- A rule is entered unless there are too many calls. -/
theorem enterRule_ensures (context state rule : Nat) : (enterRule u context state rule).Ensures p
    (fun _ p' => p.depth < u.options.maxDepth ∧ Acts u
      { p with
        depth := p.depth + 1, state, context := some context
        tree := p.tree.attach u.options.buildTrees (p.tree.parent? context) context } p' [])
    fun e p' => p' = p ∧ e = .fatal (.tooDeep (p.depth + 1) rule) := by
  refine .bind ((deepen_ensures rule).imp ?_ fun _ _ => id)
  rintro _ p₁ ⟨rfl, room⟩
  refine .of_ok rfl ⟨room, .of_outline (p.input.lookahead?_passes 1) rfl ?_⟩
  let note (node : RuleNode) := { node with start := (p.input.lookahead? 1).1 }
  exact ParseTree.outline_attach_note (f := note) (fun _ => rfl) p.tree u.options.buildTrees context

/-- A left-recursive rule is entered unless there are too many calls, and its precedence is put on
the stack. -/
theorem enterRecursiveRule_ensures (context state rule : Nat) (precedence : Int) :
    (enterRecursiveRule u context state rule precedence).Ensures p
      (fun _ p' => p.depth < u.options.maxDepth ∧ Acts u
        { p with
          depth := p.depth + 1, state, context := some context
          precedences := precedence :: p.precedences } p' [])
      fun e p' => p' = p ∧ e = .fatal (.tooDeep (p.depth + 1) rule) := by
  refine .bind ((deepen_ensures rule).imp ?_ fun _ _ => id)
  rintro _ p₁ ⟨rfl, room⟩
  refine .of_ok rfl ⟨room, .of_outline (p.input.lookahead?_passes 1) rfl ?_⟩
  let note (node : RuleNode) := { node with start := (p.input.lookahead? 1).1 }
  exact ParseTree.outline_note (f := note) (fun _ => rfl) p.tree context

/-- The context of a call that has just been made is entered. -/
theorem enterCall_ensures (parent : Option NodeId) (invoking : Option Nat) (rule start : Nat)
    (precedence : Int) (root : Option NodeId) :
    (enterCall u p.tree.size start rule precedence).Ensures
      { p with
        tree := (p.tree.withCall rule parent invoking).modifyRule p.tree.size
          fun node => { node with alt := 1 }
        root }
      (fun _ p' => p.depth < u.options.maxDepth ∧
        Acts u (p.entered u parent invoking rule start precedence) p' [])
      fun e p' => p.Lasts u p' ∧ e = .fatal (.tooDeep (p.depth + 1) rule) := by
  let note (node : RuleNode) := { node with alt := 1 }
  let called := p.tree.withCall rule parent invoking
  let tree := called.modifyRule p.tree.size note
  have noted : tree.outline = called.outline := ParseTree.outline_note (f := note) (fun _ => rfl) _ _
  have link : tree.link? p.tree.size = some ⟨rule, invoking, parent⟩ := by
    rw [← ParseTree.link?_outline, noted, ParseTree.link?_outline]
    exact ParseTree.link?_withCall _ _ _ _
  unfold enterCall
  split
  case isTrue recursive =>
      have invoked : (tree.rule? p.tree.size).bind RuleNode.invoking = invoking := by
        rw [ParseTree.rule?_bind_invoking, link]
        rfl
      let recursions := (p.context, (tree.rule? p.tree.size).bind RuleNode.invoking) :: p.recursions
      refine .bind (.of_ok (t := { p with tree, root, recursions }) rfl ?_)
      refine (enterRecursiveRule_ensures p.tree.size start rule precedence).imp ?_ ?_
      · rintro _ p' ⟨room, acts⟩
        refine ⟨room, Acts.trans (l := []) ?_ acts⟩
        rw [Parser.entered, if_pos recursive]
        simp only [recursions, invoked]
        exact .of_outline (.refl _) rfl noted
      · rintro e p' ⟨rfl, rfl⟩
        exact ⟨.of_eq rfl rfl, rfl⟩
  case isFalse ordinary =>
      refine (enterRule_ensures p.tree.size start rule).imp ?_ ?_
      · rintro _ p' ⟨room, acts⟩
        refine ⟨room, Acts.trans (l := []) ?_ acts⟩
        rw [Parser.entered, if_neg ordinary]
        refine .of_outline (.refl _) rfl ?_
        rw [ParseTree.parent?_of_link link, ParseTree.outline_attach, ParseTree.outline_attach]
        exact congrArg (ParseTree.attach · _ _ _) noted
      · rintro e p' ⟨rfl, rfl⟩
        exact ⟨.of_eq rfl rfl, rfl⟩

/-- A rule that ends leaves its context, and listeners are told. -/
theorem exitRule_run (p : Parser σ τ) :
    ∃ p', (exitRule u).run p = (.ok (), p') ∧ Acts u p.left p' [] := by
  obtain here | ⟨c, here⟩ := Option.eq_none_or_eq_some p.context
  · refine ⟨p, ?_, ?_⟩
    · simp [exitRule, Step.run_bind, here]
    · rw [Parser.left_of_none here]
      exact .refl u p
  · let looked := p.input.lookahead? (if p.matchedEof then 1 else -1)
    let note (node : RuleNode) := { node with stop := looked.1 }
    let tree := p.tree.modifyRule c note
    have noted : tree.outline = p.tree.outline := ParseTree.outline_note (f := note) (fun _ => rfl) _ _
    let host := u.host.listeners.foldr (fun l host => l (.exit c) tree host) p.simulation.host
    refine ⟨{ p.left with simulation := { p.simulation with input := looked.2, host }, tree }, ?_, ?_⟩
    · rw [Parser.left_of_some here, ← ParseTree.link?_outline, ← noted, ParseTree.link?_outline,
        ← ParseTree.rule?_bind_invoking, ← ParseTree.rule?_bind_parent]
      simp only [exitRule, Step.run_bind, Step.run_get, here]
      rfl
    · rw [Parser.left_of_some here]
      exact .of_outline (p.input.lookahead?_passes _) rfl noted

/-- An operator ends the context in front of it and goes on in a new one around it. -/
theorem wrapContext_run (context state : Nat) {previous : NodeId} (here : p.context = some previous) :
    ∃ p', (wrapContext u context state).run p = (.ok (), p') ∧ Acts u
      { p with
        context := some context
        tree := (p.tree.relink previous (some context) (some state)).attach u.options.buildTrees
          (some context) previous } p' [] := by
  let looked := p.input.lookahead? (-1)
  let ended (node : RuleNode) := { node with stop := looked.1 }
  let tree := p.tree.modifyRule previous ended
  have noted : tree.outline = p.tree.outline := ParseTree.outline_note (f := ended) (fun _ => rfl) _ _
  let begun (node : RuleNode) := { node with start := (tree.rule? previous).bind RuleNode.start }
  let rewired := (tree.relink previous (some context) (some state)).modifyRule context begun
  let tree' := if u.options.buildTrees then rewired.addChild context previous else rewired
  have same : tree'.outline = ((p.tree.relink previous (some context) (some state)).attach
      u.options.buildTrees (some context) previous).outline := by
    have attached := rewired.attach_some u.options.buildTrees context previous
    rw [show tree' = _ from attached.symm, ParseTree.outline_attach, ParseTree.outline_attach,
      ParseTree.outline_relink, ← noted, ← ParseTree.outline_relink]
    exact congrArg (ParseTree.attach · _ _ _) (ParseTree.outline_note (f := begun) (fun _ => rfl) _ _)
  let host := u.host.listeners.foldr (fun l host => l (.exit previous) tree host) p.simulation.host
  let host := u.host.listeners.foldl (fun host l => l (.enter context) tree' host) host
  refine ⟨{ p with
    simulation := { p.simulation with input := looked.2, host }
    context := some context, tree := tree' }, ?_, ?_⟩
  · simp only [wrapContext, Step.run_bind, Step.run_get, here]
    rfl
  · exact .of_outline (p.input.lookahead?_passes _) rfl same

/-- A context is wrapped, unless the network has no start for the rule of the state. -/
theorem continueRecursion_ensures (s : State) : (continueRecursion u s).Ensures p
    (fun _ p' => ∃ start, u.grammar.network.ruleStarts[s.rule]? = some start ∧
      Acts u (p.wrapped u ((p.contextRule?.map RuleNode.rule).getD s.rule) start) p' [])
    fun e p' => p.Lasts u p' ∧ ¬ (∃ error, e = .recoverable error) ∧
      u.grammar.network.ruleStarts[s.rule]? = none := by
  let caller := p.recursions.head?.getD (none, none)
  let rule := (p.contextRule?.map RuleNode.rule).getD s.rule
  let note (node : RuleNode) := { node with alt := 1 }
  let called := p.tree.withCall rule caller.1 caller.2
  let tree := called.modifyRule p.tree.size note
  have noted : tree.outline = called.outline := ParseTree.outline_note (f := note) (fun _ => rfl) _ _
  unfold continueRecursion
  refine .bind (.of_ok rfl (.bind (.of_ok (t := { p with tree }) rfl ?_)))
  cases starts : u.grammar.network.ruleStarts[s.rule]? with
  | none =>
      have lasts : p.Lasts u { p with tree } := ⟨.refl _, rfl, fun _ _ => id, id⟩
      exact .of_error rfl ⟨lasts, by simp, rfl⟩
  | some start =>
      refine .bind (.of_ok rfl ?_)
      let q := { p with tree }
      obtain here | ⟨previous, here⟩ := Option.eq_none_or_eq_some p.context
      · have run : (wrapContext u p.tree.size start).run q = (.ok (), q) := by
          simp [wrapContext, Step.run_bind, q, here]
        refine .of_ok run ⟨start, rfl, ?_⟩
        rw [Parser.wrapped_of_none here]
        exact .of_outline (.refl _) rfl noted
      · obtain ⟨p', run, acts⟩ := wrapContext_run (u := u) p.tree.size start (p := q) here
        refine .of_ok run ⟨start, rfl, Acts.trans (l := []) ?_ acts⟩
        rw [Parser.wrapped_of_some here]
        refine .of_outline (.refl _) rfl ?_
        rw [ParseTree.outline_attach, ParseTree.outline_attach, ParseTree.outline_relink,
          ParseTree.outline_relink]
        exact congrArg (fun t => ParseTree.attach (ParseTree.relink t _ _ _) _ _ _) noted

omit [TokenSource σ] in
/-- Listeners change the host alone. -/
theorem notifyExits_run (ids : List NodeId) (p : Parser σ τ) :
    ∃ host, (ids.forM fun id => notifyReversed u (.exit id)).run p
      = (.ok (), { p with simulation := { p.simulation with host } }) := by
  induction ids generalizing p with
  | nil => exact ⟨p.simulation.host, rfl⟩
  | cons id rest ih =>
      let told := u.host.listeners.foldr (fun l host => l (.exit id) p.tree host) p.simulation.host
      obtain ⟨host, run⟩ := ih { p with simulation := { p.simulation with host := told } }
      exact ⟨host, run⟩

/-- At the end of a left-recursive rule all contexts of its operators are left. -/
theorem unwrapContexts_ensures (parent : Option NodeId) : (unwrapContexts u parent).Ensures p
    (fun _ p' => Acts u { p.unwrapped u parent with recursions := p.recursions } p' [])
    fun _ _ => False := by
  let popped := { p with precedences := p.precedences.tail, depth := p.depth - 1 }
  refine .bind (.of_ok (t := popped) rfl (.bind (.of_ok (a := popped) (t := popped) rfl ?_)))
  obtain here | ⟨context, here⟩ := Option.eq_none_or_eq_some p.context
  · rw [show popped.context = none from here]
    refine .of_ok rfl ?_
    simp only [Parser.unwrapped, here]
    exact .refl _ _
  let looked := p.input.lookahead? (-1)
  let note (node : RuleNode) := { node with stop := looked.1 }
  let tree := p.tree.modifyRule context note
  have noted : tree.outline = p.tree.outline := ParseTree.outline_note (f := note) (fun _ => rfl) _ _
  let ended := { popped with
    simulation := { p.simulation with input := looked.2 }, tree }
  rw [show popped.context = some context from here]
  refine .bind (.of_ok (a := looked.1) (t := popped.withInput looked.2) rfl ?_)
  refine .bind (.of_ok (a := ()) (t := ended) rfl (.bind (.of_ok (a := ended) (t := ended) rfl ?_)))
  obtain ⟨host, told⟩ := notifyExits_run (u := u)
    ((ended.tree.chain (some context)).takeWhile fun id => some id != parent) ended
  refine .bind (.of_ok told (.of_ok rfl ?_))
  simp only [Parser.unwrapped, here]
  refine .of_outline (p.input.lookahead?_passes (-1)) rfl ?_
  change (ParseTree.attach _ u.options.buildTrees _ context).outline = _
  rw [ParseTree.outline_attach, ParseTree.outline_attach, ParseTree.outline_setParent,
    ParseTree.outline_setParent]
  exact congrArg (fun t => ParseTree.attach (ParseTree.setParent t _ _) _ _ _) noted

/-- The parser returns from a rule, unless there is no call to return to. -/
theorem visitRuleStop_ensures (number : Nat) (s : State) : (visitRuleStop u number s).Ensures p
    (fun _ p' => ∃ q follow, Returns u p s.rule q ∧
      u.grammar.network.followState? q.state = some follow ∧ Acts u { q with state := follow } p' [])
    fun e p' => p.Lasts u p' ∧ ¬ (∃ error, e = .recoverable error) ∧
      ∀ q, Returns u p s.rule q → u.grammar.network.followState? q.state = none := by
  unfold visitRuleStop
  extract_lets n goOn
  have goesOn {q p₁ : Parser σ τ} (returns : Returns u p s.rule q) (acts : Acts u q p₁ []) :
      (goOn ⟨⟩).Ensures p₁
        (fun _ p' => ∃ q follow, Returns u p s.rule q ∧
          u.grammar.network.followState? q.state = some follow ∧
          Acts u { q with state := follow } p' [])
        fun e p' => p.Lasts u p' ∧ ¬ (∃ error, e = .recoverable error) ∧
          ∀ q, Returns u p s.rule q → u.grammar.network.followState? q.state = none := by
    refine .bind (.of_ok rfl ?_)
    extract_lets invoking
    have state : q.state = p₁.state := acts.state.symm
    cases follows : u.grammar.network.followState? p₁.state with
    | none =>
        refine .of_error rfl ⟨returns.lasts.trans acts.toLasts, by simp, fun q' returns' => ?_⟩
        rw [returns'.unique returns, state]
        exact follows
    | some follow =>
        refine .bind (.of_ok rfl (.of_ok rfl ⟨q, follow, returns, ?_, acts.at_state follow⟩))
        rw [state]
        exact follows
  split
  case isTrue recursive =>
      refine .bind (.of_ok (a := p) (t := p) rfl ?_)
      cases top : p.recursions with
      | nil =>
          refine .of_error rfl ⟨.refl u p, by simp, fun q returns => ?_⟩
          cases returns with
          | ordinary plain => exact absurd recursive (by simp [n, plain])
          | recursive _ top' => simp [top] at top'
      | cons pair rest =>
          obtain ⟨parent, invoking⟩ := pair
          let popped := { p with recursions := rest }
          have same : { popped.unwrapped u parent with recursions := rest } = p.unwrapped u parent := by
            simp [popped, Parser.unwrapped, top]
          refine .bind (.of_ok (t := popped) rfl (.bind ((unwrapContexts_ensures parent).imp ?_ ?_)))
          · intro _ p₁ acts
            rw [same] at acts
            refine .bind (.of_ok rfl (goesOn (.recursive recursive top) ?_))
            exact acts.at_state (invoking.getD noState)
          · exact fun _ _ => False.elim
  case isFalse ordinary =>
      obtain ⟨p₁, run, acts⟩ := exitRule_run (u := u) p
      exact .bind (.of_ok run (goesOn (.ordinary (Bool.eq_false_iff.2 ordinary)) acts))

/-- The end of the start rule cannot fail. -/
theorem conclude_ensures (leftRecursive : Bool) (root : NodeId) :
    (conclude u leftRecursive root).Ensures p (fun r p' => Ends u p root leftRecursive r p')
      fun _ _ => False := by
  unfold conclude
  split
  case isTrue recursive =>
      subst recursive
      let popped := { p with recursions := p.recursions.tail }
      let parent := (p.recursions.head?.map Prod.fst).getD none
      refine .bind (.of_ok (a := p) (t := p) rfl (.bind (.of_ok (t := popped) rfl ?_)))
      refine .bind ((unwrapContexts_ensures parent).imp ?_ fun _ _ => id)
      intro _ p₁ acts
      refine .bind (.of_ok rfl (.of_ok rfl (.recursive ?_)))
      exact acts.at_root _
  case isFalse ordinary =>
      obtain ⟨p', run, acts⟩ := exitRule_run (u := u) p
      refine .bind (.of_ok run (.of_ok rfl ?_))
      rw [Bool.eq_false_iff.2 ordinary]
      exact .ordinary acts

omit [TokenSource σ] in
/-- Whether the parser is at the root is found out without a change. -/
theorem isOutermost_run (p : Parser σ τ) :
    ∃ b, isOutermost.run p = (.ok b, p) ∧ (b = true ↔ p.AtRoot) := by
  refine ⟨_, rfl, ?_⟩
  rw [Option.isNone_iff_eq_none, Parser.AtRoot, Parser.contextRule?]
  cases p.context with
  | none => rfl
  | some c => exact Eq.congr_left (p.tree.rule?_bind_invoking c)

end Parsing

end AdaptiveLL
