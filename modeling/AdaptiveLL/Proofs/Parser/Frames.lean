import AdaptiveLL.Proofs.Parser.Walk
/-!
The stacks of a parser. The calls that a parse has made and not left form a list of frames, innermost
first. The current context, the precedences, the remembered callers and the depth of the parser are
read off that list, above what a parse before has left behind; each frame but the last was made by a
call in the rule of the next one.
-/
namespace AdaptiveLL

/-- One active call: its context, where the parser goes back to, and the precedence if its rule is
left-recursive. -/
structure Frame where
  context : NodeId
  rule : Nat
  invoking : Option Nat
  parent : Option NodeId
  precedence? : Option Int

/-- What the stacks of a parser hold below the calls of a parse. -/
structure Ground where
  context : Option NodeId := none
  precedences : List Int := [0]
  recursions : List (Option NodeId × Option Nat) := []
  depth : Nat := 0

namespace Frame

def link (f : Frame) : Link where
  rule := f.rule
  invoking := f.invoking
  parent := f.parent

/-- What is remembered for a left-recursive rule. -/
def recursion? (f : Frame) : Option (Option NodeId × Option Nat) :=
  f.precedence?.map fun _ => (f.parent, f.invoking)

theorem recursion?_of_precedence? {f : Frame} {precedence : Int}
    (known : f.precedence? = some precedence) : f.recursion? = some (f.parent, f.invoking) := by
  rw [recursion?, known, Option.map_some]

/-- The precedence of the frame is that of its call, if its rule is left-recursive. -/
def Carries (f : Frame) (n : Network) (precedence : Int) : Prop :=
  f.precedence? = if n.isLeftRecursiveRule f.rule then some precedence else none

/-- The frame was made by a call in the rule of the other one, and goes back to the follow state
of that call. -/
def MadeBy (n : Network) (f caller : Frame) : Prop :=
  ∃ i s target rule precedence follow, f.invoking = some i ∧ n.states[i]? = some s ∧
    s.isRuleStop = false ∧ s.rule = caller.rule ∧
    .call target rule precedence follow ∈ s.transitions ∧
    (∃ callee, n.states[target]? = some callee ∧ callee.rule = f.rule) ∧
    n.followState? i = some follow ∧ f.Carries n precedence

/-- The context is linked in the tree as the frame says. The first context of a parse has no parent,
but that of a left-recursive rule goes back to the context that was current before. -/
def Linked (n : Network) (t : ParseTree) (f : Frame) : Prop :=
  t.link? f.context = some f.link ∨ n.isLeftRecursiveRule f.rule = true ∧
    t.link? f.context = some { f.link with parent := none }

section Linked

variable {n : Network} {t t' : ParseTree} {f : Frame}

theorem Linked.exists_link (h : f.Linked n t) :
    ∃ parent, t.link? f.context = some { f.link with parent } ∧
      (parent = f.parent ∨ n.isLeftRecursiveRule f.rule = true ∧ parent = none) := by
  obtain link | ⟨recursive, link⟩ := h
  · exact ⟨f.parent, link, .inl rfl⟩
  · exact ⟨none, link, .inr ⟨recursive, rfl⟩⟩

theorem Linked.of_link (h : f.Linked n t)
    (link : ∀ l, t.link? f.context = some l → t'.link? f.context = some l) : f.Linked n t' :=
  h.imp (link _) (And.imp_right (link _))

/-- Only the frame of a left-recursive rule can be linked otherwise. -/
theorem Linked.link (h : f.Linked n t)
    (ordinary : n.isLeftRecursiveRule f.rule = false ∨ f.parent = none) :
    t.link? f.context = some f.link := by
  obtain ⟨parent, link, rfl | ⟨recursive, rfl⟩⟩ := h.exists_link
  · exact link
  · rcases ordinary with plain | orphan
    · rw [plain] at recursive
      cases recursive
    · rw [link, Frame.link, orphan]

end Linked

end Frame

/-- The frames are linked in the tree as they follow each other, above the context `ground`. -/
inductive Stacked (n : Network) (t : ParseTree) (ground : Option NodeId) : List Frame → Prop
  | nil : Stacked n t ground []
  | root {f : Frame} (linked : f.Linked n t) (invoking : f.invoking = none)
      (parent : f.parent = ground) (older : ∀ c ∈ ground, c < f.context) (carries : f.Carries n 0) :
      Stacked n t ground [f]
  | call {f caller : Frame} {rest : List Frame} (link : t.link? f.context = some f.link)
      (parent : f.parent = some caller.context) (older : caller.context < f.context)
      (made : f.MadeBy n caller) (below : Stacked n t ground (caller :: rest)) :
      Stacked n t ground (f :: caller :: rest)

namespace Stacked

variable {n : Network} {t t' : ParseTree} {ground : Option NodeId} {f : Frame} {fs rest : List Frame}

theorem linked_head (h : Stacked n t ground (f :: rest)) : f.Linked n t := by
  cases h with
  | root linked => exact linked
  | call link => exact .inl link

theorem tail (h : Stacked n t ground (f :: rest)) : Stacked n t ground rest := by
  cases h with
  | root => exact .nil
  | call _ _ _ _ below => exact below

theorem parent_head (h : Stacked n t ground (f :: rest)) :
    f.parent = (rest.head?.map Frame.context).or ground := by
  cases h with
  | root _ _ parent => exact parent
  | call _ parent => exact parent

theorem carries_head (h : Stacked n t ground (f :: rest)) : ∃ precedence, f.Carries n precedence := by
  cases h with
  | root _ _ _ _ carries => exact ⟨0, carries⟩
  | call _ _ _ made =>
      obtain ⟨_, _, _, _, precedence, _, _, _, _, _, _, _, _, carries⟩ := made
      exact ⟨precedence, carries⟩

/-- The inner frames are younger. -/
theorem older (h : Stacked n t ground (f :: rest)) : ∀ g ∈ rest, g.context < f.context := by
  induction rest generalizing f with
  | nil => simp
  | cons caller rest ih =>
      cases h with
      | call _ _ older _ below =>
          intro g mem
          rcases List.mem_cons.1 mem with rfl | mem
          · exact older
          · exact Nat.lt_trans (ih below g mem) older

/-- The frames are younger than the context below. -/
theorem above (h : Stacked n t ground fs) : ∀ f ∈ fs, ∀ c ∈ ground, c < f.context := by
  induction h with
  | nil => simp
  | root _ _ _ older => simpa using older
  | call _ _ older _ _ ih =>
      refine List.forall_mem_cons.2 ⟨fun c mem => ?_, ih⟩
      exact Nat.lt_trans (ih _ (.head _) c mem) older

/-- The context below is not that of a frame. -/
theorem ne_ground (h : Stacked n t ground fs) (mem : f ∈ fs) : some f.context ≠ ground :=
  fun same => Nat.lt_irrefl _ (h.above f mem f.context same.symm)

theorem of_links (h : Stacked n t ground fs)
    (links : ∀ f ∈ fs, ∀ l, t.link? f.context = some l → t'.link? f.context = some l) :
    Stacked n t' ground fs := by
  induction h with
  | nil => exact .nil
  | root linked invoking parent older carries =>
      exact .root (linked.of_link (links _ (.head _))) invoking parent older carries
  | call link parent older made _ ih =>
      refine .call (links _ (.head _) _ link) parent older made (ih fun f mem => ?_)
      exact links f (.tail _ mem)

theorem keeps (h : Stacked n t ground fs) (keeps : t.Keeps t') : Stacked n t' ground fs :=
  h.of_links fun _ _ _ => keeps.link

theorem lt_size (h : Stacked n t ground fs) : ∀ f ∈ fs, f.context < t.size := by
  have inside {f : Frame} (linked : f.Linked n t) : f.context < t.size := by
    obtain ⟨_, link, -⟩ := linked.exists_link
    obtain ⟨_, here, _⟩ := ParseTree.link?_eq_some.1 link
    exact ParseTree.lt_size here
  induction h with
  | nil => simp
  | root linked => simpa using inside linked
  | call link _ _ _ _ ih => exact List.forall_mem_cons.2 ⟨inside (.inl link), ih⟩

/-- Only the outermost frame is the start rule's. -/
theorem invoking_eq_none (h : Stacked n t ground (f :: rest)) : f.invoking = none ↔ rest = [] := by
  cases h with
  | root _ invoking => simp [invoking]
  | call _ _ _ made =>
      obtain ⟨i, _, _, _, _, _, invoking, _⟩ := made
      simp [invoking]

/-- A frame that was made by a call is linked to its caller. -/
theorem link_head (h : Stacked n t ground (f :: rest))
    (plain : n.isLeftRecursiveRule f.rule = false ∨ rest ≠ [] ∨ ground = none) :
    t.link? f.context = some f.link := by
  cases h with
  | root linked _ parent => exact linked.link (plain.imp_right fun h => by simp_all)
  | call link => exact link

end Stacked

variable {σ τ : Type} [TokenSource σ] {u : ParserSetup τ} {p p' : Parser σ τ} {f : Frame}
  {fs rest : List Frame} {leaves : List Leaf} {ground : Ground}

open AdaptiveLL.Parser (Acts Returns Ends Lasts)

/-- The stacks of the parser are those of the frames, above the ground. -/
structure Parser.Above (ground : Ground) (p : Parser σ τ) (fs : List Frame) : Prop where
  precedences : p.precedences = fs.filterMap Frame.precedence? ++ ground.precedences
  recursions : p.recursions = fs.filterMap Frame.recursion? ++ ground.recursions
  depth : p.depth = fs.length + ground.depth

/-- The parser is in the calls of the frames. -/
structure Parser.On (n : Network) (ground : Ground) (p : Parser σ τ) (fs : List Frame) : Prop
    extends p.Above ground fs where
  stacked : Stacked n p.tree ground.context fs
  context : p.context = (fs.head?.map Frame.context).or ground.context

namespace Parser.On

variable {n : Network}

theorem acts (h : p.On n ground fs) (acts : Acts u p p' leaves) : p'.On n ground fs where
  stacked := h.stacked.keeps acts.keeps
  context := acts.context.trans h.context
  precedences := acts.precedences.trans h.precedences
  recursions := acts.recursions.trans h.recursions
  depth := acts.depth.trans h.depth

omit [TokenSource σ] in
theorem at_state (h : p.On n ground fs) (state : Nat) :
    ({ p with state } : Parser σ τ).On n ground fs :=
  ⟨⟨h.precedences, h.recursions, h.depth⟩, h.stacked, h.context⟩

omit [TokenSource σ] in
theorem context_cons (h : p.On n ground (f :: rest)) : p.context = some f.context :=
  h.context

omit [TokenSource σ] in
theorem atRoot_iff (h : p.On n ground (f :: rest)) : p.AtRoot ↔ rest = [] := by
  obtain ⟨parent, link, -⟩ := h.stacked.linked_head.exists_link
  rw [Parser.AtRoot, h.context_cons, Option.bind_some, link]
  exact h.stacked.invoking_eq_none

end Parser.On

namespace ParseTree

variable {t : ParseTree} {id other : NodeId} {parent : Option NodeId} {invoking : Option Nat}

theorem Keeps.attach (t : ParseTree) (build : Bool) (parent : Option NodeId) (id : NodeId) :
    Keeps t (t.attach build parent id) := by
  unfold ParseTree.attach
  split
  · exact .addChild _ _ _
  · exact .refl _

theorem Keeps.withCall (t : ParseTree) (rule : Nat) (parent : Option NodeId)
    (invoking : Option Nat) : Keeps t (t.withCall rule parent invoking) :=
  .push t _

theorem link?_relink (ne : id ≠ other) : (t.relink id parent invoking).link? other = t.link? other := by
  unfold link? rule? relink
  rw [node?_modifyRule, if_neg ne]

theorem link?_setParent (ne : id ≠ other) : (t.setParent id parent).link? other = t.link? other := by
  unfold link? rule?
  rw [node?_setParent, if_neg ne]

end ParseTree

/-- The frame of a call from where a parser stands. -/
def Parser.frame (u : ParserSetup τ) (p : Parser σ τ) (invoking : Option Nat) (rule : Nat)
    (precedence : Int) : Frame where
  context := p.tree.size
  rule := rule
  invoking := invoking
  parent := p.context
  precedence? := if u.grammar.network.isLeftRecursiveRule rule then some precedence else none

/-- The ground of a parse. An ordinary start rule forgets the context that is current. -/
def Parser.groundFor (u : ParserSetup τ) (rule : Nat) (p : Parser σ τ) : Ground where
  context := if u.grammar.network.isLeftRecursiveRule rule then p.context else none
  precedences := p.precedences
  recursions := p.recursions
  depth := p.depth

/-- The frame of the start rule of a parse. -/
def Parser.startFrame (u : ParserSetup τ) (rule : Nat) (p : Parser σ τ) : Frame :=
  { p.frame u none rule 0 with parent := (p.groundFor u rule).context }

omit [TokenSource σ] in
theorem Parser.groundFor_context_lt (inside : ∀ c ∈ p.context, c < p.tree.size) (rule : Nat) :
    ∀ c ∈ (p.groundFor u rule).context, c < p.tree.size := by
  intro c mem
  unfold groundFor at mem
  split at mem
  · exact inside c mem
  · cases mem

omit [TokenSource σ] in
theorem Parser.groundFor_context_of_ordinary {rule : Nat} (p : Parser σ τ)
    (ordinary : u.grammar.network.isLeftRecursiveRule rule = false) :
    (p.groundFor u rule).context = none := by
  simp [groundFor, ordinary]

omit [TokenSource σ] in
theorem Parser.above_groundFor (u : ParserSetup τ) (rule : Nat) (p : Parser σ τ) :
    p.Above (p.groundFor u rule) [] :=
  ⟨rfl, rfl, (Nat.zero_add _).symm⟩

namespace Parser.On

variable {n : Network}

omit [TokenSource σ] in
/-- Entering a rule puts a frame on top. -/
theorem entered {g : Frame} {parent invoking : Option Nat} {rule start : Nat} {precedence : Int}
    (h : p.Above ground fs) (same : g = { p.frame u invoking rule precedence with parent := g.parent })
    (caller : u.grammar.network.isLeftRecursiveRule rule = true → g.parent = p.context)
    (stacked : Stacked u.grammar.network (p.tree.withCall rule parent invoking) ground.context
      (g :: fs)) :
    (p.entered u parent invoking rule start precedence).On u.grammar.network ground (g :: fs) := by
  have context : g.context = p.tree.size := by rw [same]; rfl
  have called : g.invoking = invoking := by rw [same]; rfl
  have carried : g.precedence? =
      if u.grammar.network.isLeftRecursiveRule rule then some precedence else none := by rw [same]; rfl
  have depth : p.depth + 1 = (g :: fs).length + ground.depth := by
    rw [h.depth, List.length_cons]
    omega
  have top : some p.tree.size = (((g :: fs).head?.map Frame.context).or ground.context) := by
    rw [← context]
    rfl
  unfold Parser.entered
  split
  case isTrue recursive =>
      rw [if_pos recursive] at carried
      have remembered := Frame.recursion?_of_precedence? carried
      refine ⟨⟨?_, ?_, depth⟩, stacked, top⟩
      · rw [List.filterMap_cons_some carried, List.cons_append, ← h.precedences]
      · rw [List.filterMap_cons_some remembered, List.cons_append, ← h.recursions, called,
          caller recursive]
  case isFalse ordinary =>
      rw [if_neg ordinary] at carried
      have forgotten : g.recursion? = none := by rw [Frame.recursion?, carried, Option.map_none]
      refine ⟨⟨?_, ?_, depth⟩, stacked.keeps (.attach _ _ _ _), top⟩
      · rw [List.filterMap_cons_none carried]
        exact h.precedences
      · rw [List.filterMap_cons_none forgotten]
        exact h.recursions

omit [TokenSource σ] in
/-- The first call of a parse. -/
theorem entered_root (inside : ∀ c ∈ p.context, c < p.tree.size) (rule start : Nat) :
    (p.entered u none none rule start 0).On u.grammar.network (p.groundFor u rule)
      [p.startFrame u rule] := by
  have link := p.tree.link?_withCall rule none none
  refine entered (p.above_groundFor u rule) rfl (fun recursive => if_pos recursive) ?_
  refine .root ?_ rfl rfl (p.groundFor_context_lt inside rule) rfl
  cases recursive : u.grammar.network.isLeftRecursiveRule rule with
  | true => exact .inr ⟨recursive, link⟩
  | false =>
      refine .inl (link.trans ?_)
      simp [Frame.link, Parser.startFrame, Parser.groundFor, Parser.frame, recursive]

omit [TokenSource σ] in
/-- A call in the rule of the current frame. -/
theorem entered_call {number rule start : Nat} {precedence : Int}
    (h : p.On u.grammar.network ground (f :: rest))
    (made : (p.frame u (some number) rule precedence).MadeBy u.grammar.network f) :
    (p.entered u p.context (some number) rule start precedence).On u.grammar.network ground
      (p.frame u (some number) rule precedence :: f :: rest) := by
  refine entered h.toAbove rfl (fun _ => rfl) (.call ?_ h.context_cons ?_ made ?_)
  · exact ParseTree.link?_withCall _ _ _ _
  · exact h.stacked.lt_size f (.head _)
  · exact h.stacked.keeps (.withCall _ _ _ _)

omit [TokenSource σ] in
/-- The caller of a left-recursive rule is remembered on top. -/
theorem remembered (h : p.On n ground (f :: rest)) (recursive : n.isLeftRecursiveRule f.rule = true) :
    p.recursions = (f.parent, f.invoking) ::
      (rest.filterMap Frame.recursion? ++ ground.recursions) := by
  obtain ⟨precedence, carries⟩ := h.stacked.carries_head
  have known : f.precedence? = some precedence := by rw [carries, if_pos recursive]
  rw [h.recursions, List.filterMap_cons_some (Frame.recursion?_of_precedence? known), List.cons_append]

omit [TokenSource σ] in
/-- Wrapping renames the context of the current frame. -/
theorem wrapped {start : Nat} (h : p.On u.grammar.network ground (f :: rest))
    (recursive : u.grammar.network.isLeftRecursiveRule f.rule = true) :
    (p.wrapped u f.rule start).On u.grammar.network ground
      ({ f with context := p.tree.size } :: rest) := by
  have top : p.recursions.head?.getD (none, none) = (f.parent, f.invoking) := by
    rw [h.remembered recursive]
    rfl
  rw [Parser.wrapped_of_some h.context_cons, top]
  let called := p.tree.withCall f.rule f.parent f.invoking
  have below : f.context < p.tree.size := h.stacked.lt_size f (.head _)
  have link : (called.relink f.context (some p.tree.size) (some start)).link? p.tree.size
      = some ⟨f.rule, f.invoking, f.parent⟩ := by
    rw [ParseTree.link?_relink (Nat.ne_of_lt below)]
    exact ParseTree.link?_withCall _ _ _ _
  have others : Stacked u.grammar.network
      (called.relink f.context (some p.tree.size) (some start)) ground.context rest := by
    refine h.stacked.tail.of_links fun g mem l link => ?_
    rw [ParseTree.link?_relink (Nat.ne_of_gt (h.stacked.older g mem))]
    exact (ParseTree.Keeps.withCall _ _ _ _).link link
  refine ⟨⟨h.precedences, h.recursions, h.depth⟩, Stacked.keeps ?_ (.attach _ _ _ _), rfl⟩
  cases h.stacked with
  | root _ invoking parent older carries =>
      refine .root (.inl link) invoking parent (fun c mem => ?_) carries
      exact Nat.lt_trans (older c mem) below
  | call _ parent older made =>
      exact .call link parent (Nat.lt_trans older below) made others

omit [TokenSource σ] in
/-- Leaving a rule takes the frame away. -/
theorem left (h : p.On u.grammar.network ground (f :: rest))
    (ordinary : u.grammar.network.isLeftRecursiveRule f.rule = false) :
    p.left.On u.grammar.network ground rest ∧ p.left.state = f.invoking.getD noState := by
  obtain ⟨precedence, carries⟩ := h.stacked.carries_head
  have unknown : f.precedence? = none := by rw [carries, ordinary]; rfl
  have depth : p.depth - 1 = rest.length + ground.depth := by
    rw [h.depth, List.length_cons]
    omega
  rw [Parser.left_of_some h.context_cons, h.stacked.link_head (.inl ordinary)]
  refine ⟨⟨⟨?_, ?_, depth⟩, h.stacked.tail, h.stacked.parent_head⟩, rfl⟩
  · simpa [unknown] using h.precedences
  · simpa [Frame.recursion?, unknown] using h.recursions

omit [TokenSource σ] in
theorem unwrapped (h : p.On u.grammar.network ground (f :: rest))
    (recursive : u.grammar.network.isLeftRecursiveRule f.rule = true) :
    (p.unwrapped u f.parent).On u.grammar.network ground rest := by
  obtain ⟨precedence, carries⟩ := h.stacked.carries_head
  have known : f.precedence? = some precedence := by rw [carries, if_pos recursive]
  have depth : p.depth - 1 = rest.length + ground.depth := by
    rw [h.depth, List.length_cons]
    omega
  refine ⟨⟨?_, congrArg List.tail (h.remembered recursive), depth⟩, ?_, h.stacked.parent_head⟩
  · simp [Parser.unwrapped, h.precedences, known]
  · simp only [Parser.unwrapped, h.context_cons]
    refine Stacked.keeps (h.stacked.tail.of_links fun g mem l link => ?_) (.attach _ _ _ _)
    rwa [ParseTree.link?_setParent (Nat.ne_of_gt (h.stacked.older g mem))]

omit [TokenSource σ] in
/-- A return takes the frame away, and goes to the state that made the call. -/
theorem returns {q : Parser σ τ} (h : p.On u.grammar.network ground (f :: rest))
    (returns : Returns u p f.rule q) :
    q.On u.grammar.network ground rest ∧ q.state = f.invoking.getD noState := by
  cases returns with
  | ordinary plain => exact h.left plain
  | recursive recursive top =>
      rw [h.remembered recursive] at top
      cases top
      exact ⟨(h.unwrapped recursive).at_state _, rfl⟩

omit [TokenSource σ] in
/-- There is a return from every frame. -/
theorem exists_returns (h : p.On u.grammar.network ground (f :: rest)) :
    ∃ q, Returns u p f.rule q := by
  cases recursive : u.grammar.network.isLeftRecursiveRule f.rule with
  | false => exact ⟨_, .ordinary recursive⟩
  | true => exact ⟨_, .recursive recursive (h.remembered recursive)⟩

/-- The end of the start rule takes the last frame away. -/
theorem ends {root answer : NodeId} (h : p.On u.grammar.network ground [f])
    (ends : Ends u p root (u.grammar.network.isLeftRecursiveRule f.rule) answer p') :
    p'.On u.grammar.network ground [] := by
  generalize recursive : u.grammar.network.isLeftRecursiveRule f.rule = lr at ends
  cases ends with
  | ordinary acts => exact (h.left recursive).1.acts acts
  | recursive acts =>
      rw [h.remembered recursive] at acts
      exact (h.unwrapped recursive).acts acts

end Parser.On

end AdaptiveLL
