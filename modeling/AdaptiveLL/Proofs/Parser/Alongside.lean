import AdaptiveLL.Proofs.Parser.Effect
import AdaptiveLL.Proofs.Prediction.Rerun
import AdaptiveLL.Proofs.Tree.Likeness
/-!
The same moves by two parsers, one of which may have pulled more tokens, hold more stacks and have
reported more. The states of their hosts are free, as long as predicates are answered alike.
-/
namespace AdaptiveLL

variable {σ τ : Type} {lag : Nat} {older : List Report}

/-- A host whose answers depend on neither its state nor the numbers of stacks. -/
def ParserHost.Pure (h : ParserHost τ) : Prop :=
  ∀ (t t' : ParseTree) (question : Question) (host host' : τ), t.Like (fun _ _ => True) t' →
    (h.predicate t' question host').1 = (h.predicate t question host).1

theorem ParserHost.Pure.answers {h : ParserHost τ} (pure : h.Pure) {R : Nat → Nat → Prop}
    {t t' : ParseTree} (like : t.Like R t') : SameAnswers (h.predicate t) (h.predicate t') :=
  fun question host host' => pure t t' question host host' (like.imp fun _ _ _ => trivial)

namespace Parser

instance [TokenSource σ] : Step.Numbered (Parser σ τ) where
  Onward p q := p.simulation.GoesOn q.simulation
  Same p p' := p.simulation.Same p'.simulation
  refl p := Step.Numbered.refl p.simulation
  trans first second := Step.Numbered.trans (σ := Simulation σ τ) first second
  mono left right same := Step.Numbered.mono (σ := Simulation σ τ) left right same

/-- Parsers whose simulations and trees are alike, and which agree in everything else. -/
structure AlikeFrom (I : TokenStream σ → TokenStream σ → Prop) (lag : Nat) (older : List Report)
    (p p' : Parser σ τ) : Prop where
  simulation : p.simulation.forgetful.AlikeFrom I lag older p'.simulation.forgetful
  tree : p.tree.Like (p.simulation.Same p'.simulation) p'.tree
  rest : p' = { p with simulation := p'.simulation, tree := p'.tree }
  free : p.prescription = none

abbrev Alike [TokenSource σ] (lag : Nat) (older : List Report) (p p' : Parser σ τ) : Prop :=
  AlikeFrom TokenStream.Even lag older p p'

namespace AlikeFrom

variable {I J : TokenStream σ → TokenStream σ → Prop} {p p' q q' : Parser σ τ}

theorem imp (alike : p.AlikeFrom I lag older p') (weaker : ∀ i i', I i i' → J i i') :
    p.AlikeFrom J lag older p' :=
  { alike with simulation := { alike.simulation with input := weaker _ _ alike.simulation.input } }

theorem fields (alike : p.AlikeFrom I lag older p') :
    ∃ simulation tree, p' = { p with simulation, tree } :=
  ⟨_, _, alike.rest⟩

theorem invokingStates (alike : p.AlikeFrom I lag older p') : p'.invokingStates = p.invokingStates := by
  have same := alike.tree.invokingStates p.context
  obtain ⟨_, _, rfl⟩ := alike.fields
  exact same

variable [TokenSource σ]

/-- Moves that leave the simulations alone. -/
theorem moves (alike : p.AlikeFrom I lag older p') (left : q.simulation = p.simulation)
    (right : q'.simulation = p'.simulation) (tree : q.tree.Like (p.simulation.Same p'.simulation) q'.tree)
    (rest : q' = { q with simulation := q'.simulation, tree := q'.tree })
    (free : q.prescription = none) : Step.Later (AlikeFrom I lag older) p p' q q' where
  left := by
    change p.simulation.GoesOn q.simulation
    rw [left]
    exact Step.Numbered.refl p.simulation
  right := by
    change p'.simulation.GoesOn q'.simulation
    rw [right]
    exact Step.Numbered.refl p'.simulation
  like := by
    refine ⟨?_, ?_, rest, free⟩
    · rw [left, right]
      exact alike.simulation
    · rw [left, right]
      exact tree

/-- Moves of the simulations alone. -/
theorem simulates {s s' : Simulation σ τ} (alike : p.AlikeFrom I lag older p')
    (later : Step.Later (Simulation.AlikeFrom J lag older) p.simulation.forgetful
      p'.simulation.forgetful s.forgetful s'.forgetful) :
    Step.Later (AlikeFrom J lag older) p p' { p with simulation := s } { p' with simulation := s' } where
  left := ⟨later.left.graph, later.left.cleared, later.left.input, later.left.marks⟩
  right := ⟨later.right.graph, later.right.cleared, later.right.input, later.right.marks⟩
  like := by
    refine ⟨later.like, alike.tree.imp later.same, ?_, alike.free⟩
    obtain ⟨_, _, rfl⟩ := alike.fields
    rfl

end AlikeFrom

end Parser

namespace Parsing

variable [TokenSource σ] {I : TokenStream σ → TokenStream σ → Prop} {F : Parser σ τ → Parser σ τ → Prop}
  {p p' : Parser σ τ} {u : ParserSetup τ} {α : Type}

/-- Two parsers that have been in use end alike. -/
abbrev Together (lag : Nat) (older : List Report) (p p' : Parser σ τ) (x x' : Parsing σ τ α)
    (P : (Nat → Nat → Prop) → α → α → Prop) : Prop :=
  Step.Alongside (Parser.Alike lag older) (Parser.Alike lag older) p p' x x' P

section Fields

/-- A change that neither looks at the simulation nor at the tree. -/
theorem modify_together (alike : p.AlikeFrom I lag older p') {f : Parser σ τ → Parser σ τ}
    (blind : ∀ p simulation tree,
      f { p with simulation, tree } = { f p with simulation, tree })
    (free : ∀ p, p.prescription = none → (f p).prescription = none) :
    Step.Alongside (Parser.AlikeFrom I lag older) F p p' (modify f) (modify f) fun _ => Eq := by
  have kept (p : Parser σ τ) : (f p).simulation = p.simulation ∧ (f p).tree = p.tree := by
    have same : f p = { f p with simulation := p.simulation, tree := p.tree } :=
      blind p p.simulation p.tree
    rw [same]
    exact ⟨rfl, rfl⟩
  refine .modify (alike.moves (kept p).1 (kept p').1 ?_ ?_ (free p alike.free)) rfl
  · rw [(kept p).2, (kept p').2]
    exact alike.tree
  · obtain ⟨simulation, tree, rfl⟩ := alike.fields
    rw [blind]

theorem setState_together (alike : p.AlikeFrom I lag older p') (state : Nat) :
    Step.Alongside (Parser.AlikeFrom I lag older) F p p' (setState state) (setState state) fun _ => Eq :=
  modify_together alike (fun _ _ _ => rfl) fun _ => id

theorem setContext_together (alike : p.AlikeFrom I lag older p') (context : Option NodeId) :
    Step.Alongside (Parser.AlikeFrom I lag older) F p p' (setContext context) (setContext context)
      fun _ => Eq :=
  modify_together alike (fun _ _ _ => rfl) fun _ => id

theorem modifyRecovery_together (alike : p.AlikeFrom I lag older p') (f : Recovery → Recovery) :
    Step.Alongside (Parser.AlikeFrom I lag older) F p p' (modifyRecovery f) (modifyRecovery f)
      fun _ => Eq :=
  modify_together alike (fun _ _ _ => rfl) fun _ => id

theorem modifyTree_together (alike : p.AlikeFrom I lag older p') {f f' : ParseTree → ParseTree}
    (step : ParseTree.Like (p.simulation.Same p'.simulation) (f p.tree) (f' p'.tree)) :
    Step.Alongside (Parser.AlikeFrom I lag older) F p p' (modifyTree f) (modifyTree f') fun _ => Eq := by
  refine .modify (alike.moves rfl rfl step ?_ alike.free) rfl
  obtain ⟨_, _, rfl⟩ := alike.fields
  rfl

/-- What the hosts do is not seen. -/
theorem modifyHost_together (alike : p.AlikeFrom I lag older p') (f f' : ParseTree → τ → τ) :
    Step.Alongside (Parser.AlikeFrom I lag older) F p p' (modifyHost f) (modifyHost f') fun _ => Eq :=
  .modify (alike.simulates (alike.simulation.with_others _ _ _ _)) rfl

theorem notify_together (alike : p.AlikeFrom I lag older p') (event : TreeEvent) :
    Step.Alongside (Parser.AlikeFrom I lag older) F p p' (notify u event) (notify u event) fun _ => Eq :=
  modifyHost_together alike _ _

theorem notifyReversed_together (alike : p.AlikeFrom I lag older p') (event : TreeEvent) :
    Step.Alongside (Parser.AlikeFrom I lag older) F p p' (notifyReversed u event)
      (notifyReversed u event) fun _ => Eq :=
  modifyHost_together alike _ _

theorem act_together (alike : p.AlikeFrom I lag older p') (rule index : Nat) :
    Step.Alongside (Parser.AlikeFrom I lag older) F p p' (act u rule index) (act u rule index)
      fun _ => Eq :=
  .get (modifyHost_together alike _ _)

/-- New contexts get the same number. -/
theorem newContext_together (alike : p.AlikeFrom I lag older p') (parent : Option NodeId)
    (invoking : Option Nat) (rule : Nat) :
    Step.Alongside (Parser.AlikeFrom I lag older) F p p' (newContext parent invoking rule)
      (newContext parent invoking rule) fun _ => Eq := by
  obtain ⟨same, tree⟩ := alike.tree.addRule rule parent invoking
  refine .of_ok rfl rfl (alike.moves rfl rfl ?_ ?_ alike.free) same.symm
  · have size : p'.tree.nodes.size = p.tree.nodes.size := same
    dsimp only
    rw [size]
    exact tree.modifyBlind _ fun _ _ => rfl
  · obtain ⟨_, _, rfl⟩ := alike.fields
    rfl

theorem deepen_together (alike : p.AlikeFrom I lag older p') (rule : Nat) :
    Step.Alongside (Parser.AlikeFrom I lag older) (Parser.AlikeFrom I lag older) p p' (deepen u rule)
      (deepen u rule) fun _ => Eq := by
  refine .get ?_
  have depth : p'.depth = p.depth := by rw [alike.rest]
  rw [depth]
  refine .ite .rfl (fun _ => .throw alike (.fatal (.tooDeep _ _))) fun _ => ?_
  refine .set (alike.moves rfl rfl alike.tree ?_ alike.free) rfl
  obtain ⟨_, _, rfl⟩ := alike.fields
  rfl

end Fields

section Input

/-- The first or a later look at the input. -/
theorem onInput_together {f : TokenStream σ → α × TokenStream σ} (alike : p.AlikeFrom I lag older p')
    (agree : ∀ i i', I i i' → (f i').1 = (f i).1 ∧ TokenStream.Even (f i).2 (f i').2)
    (leads : ∀ i, TokenStream.Leads i (f i).2) (marks : ∀ i, (f i).2.marks = i.marks) :
    Step.Alongside (Parser.Alike lag older) F p p' (onInput f) (onInput f) fun _ => Eq := by
  obtain ⟨same, even⟩ := agree _ _ alike.simulation.input
  refine .of_ok rfl rfl ?_ same.symm
  exact alike.simulates (alike.simulation.with_input even (leads _) (leads _) (marks _) (marks _))

theorem lookahead?_together (alike : p.AlikeFrom I lag older p') (starts : ∀ i i', I i i' → i.Starts i')
    (k : Int) :
    Step.Alongside (Parser.Alike lag older) F p p' (onInput (·.lookahead? k)) (onInput (·.lookahead? k))
      fun _ => Eq :=
  onInput_together alike (fun i i' h => (starts i i' h).lookahead? k)
    (fun i => (TokenStream.lookahead?_passes k i).toLeads) (TokenStream.marks_lookahead? k)

variable (alike : p.Alike lag older p')

include alike

theorem look_together (k : Int) :
    Step.Alongside (Parser.Alike lag older) F p p' (onInput (·.lookahead? k)) (onInput (·.lookahead? k))
      fun _ => Eq :=
  lookahead?_together alike (fun _ _ even => even.starts) k

theorem lookahead_together (k : Int) :
    Step.Alongside (Parser.Alike lag older) F p p' (lookahead k) (lookahead k) fun _ => Eq := by
  refine onInput_together alike (fun i i' even => ?_)
    (fun i => (TokenStream.lookahead_passes k i).toLeads) (TokenStream.marks_lookahead k)
  obtain ⟨same, even⟩ := even.starts.lookahead? k
  exact ⟨congrArg (fun t => (t.map Token.type).getD Symbol.invalid) same, even⟩

theorem textRange_together (i j : Nat) :
    Step.Alongside (Parser.Alike lag older) F p p' (onInput (·.textRange i j)) (onInput (·.textRange i j))
      fun _ => Eq := by
  refine onInput_together alike (fun s s' even => ?_)
    (fun s => (TokenStream.textRange_passes i j s).toLeads) (TokenStream.marks_textRange i j)
  obtain ⟨same, ahead⟩ := even.ahead.textRange even.sound i j
  exact ⟨same.symm, ahead, (TokenStream.textRange_passes i j s).sound even.sound,
    TokenStream.started_textRange i j s⟩

theorem index_together :
    Step.Alongside (Parser.Alike lag older) F p p' index index fun _ => Eq :=
  .get (.pure alike alike.simulation.input.index.symm)

theorem currentToken_together :
    Step.Alongside (Parser.Alike lag older) F p p' currentToken currentToken fun _ => Eq := by
  refine .bind (look_together alike 1) ?_
  rintro token _ q q' later rfl
  exact .pure later.like rfl

theorem previousToken_together :
    Step.Alongside (Parser.Alike lag older) F p p' previousToken previousToken fun _ => Eq :=
  look_together alike (-1)

theorem consume_together :
    Step.Alongside (Parser.Alike lag older) F p p' (consume u) (consume u) fun _ => Eq := by
  refine .bind (currentToken_together alike) ?_
  rintro token _ q q' later rfl
  extract_lets build rest
  have rests {r r' : Parser σ τ} (alike : r.Alike lag older r') :
      Step.Alongside (Parser.Alike lag older) F r r' (rest ()) (rest ()) fun _ => Eq := by
    let note (p : Parser σ τ) : Parser σ τ := { p with consumed := p.consumed.push token }
    refine .bind (modify_together alike (f := note) (fun _ _ _ => rfl) fun _ => id) ?_
    rintro _ _ r r' later -
    have alike := later.like
    refine .get ?_
    obtain ⟨simulation, tree, eq⟩ := alike.fields
    have active : r'.recovery = r.recovery := by rw [eq]
    have context : r'.context = r.context := by rw [eq]
    rw [context, active]
    cases r.context with
    | none => exact .pure alike rfl
    | some context =>
        refine .ite .rfl (fun _ => .pure alike rfl) fun _ => ?_
        let add (t : ParseTree) : NodeId × ParseTree :=
          if build = true then t.addToken context token r.recovery.active
          else t.addDetached context token r.recovery.active
        have added : (add r'.tree).1 = (add r.tree).1 ∧
            ParseTree.Like (r.simulation.Same r'.simulation) (add r.tree).2 (add r'.tree).2 := by
          dsimp only [add]
          split
          · exact alike.tree.addToken context token r.recovery.active
          · exact alike.tree.addDetached context token r.recovery.active
        dsimp only
        rw [added.1]
        refine .bind (.set (R := fun _ => Eq) (alike.moves rfl rfl added.2 ?_ alike.free) rfl) ?_
        · rw [eq]
        · intro _ _ v v' later' _
          refine .bind (notify_together later'.like _) fun _ _ w w' later'' _ => ?_
          exact .pure later''.like rfl
  refine .ite .rfl (fun _ => ?_) fun _ => rests later.like
  refine .bind (onInput_together later.like (fun i i' even => ⟨rfl, even.use .consume⟩)
    TokenStream.consume_leads TokenStream.marks_consume) ?_
  exact fun _ _ r r' later' _ => rests later'.like

theorem ask_together (pure : u.host.Pure) (rule index : Nat) :
    Step.Alongside (Parser.Alike lag older) F p p' (ask u rule index) (ask u rule index) fun _ => Eq := by
  have place : p'.input.index = p.input.index := alike.simulation.input.index
  have context : p'.context = p.context := by rw [alike.rest]
  refine .of_ok rfl rfl (alike.simulates (alike.simulation.with_others _ _ _ _)) ?_
  rw [place, context]
  exact (pure.answers alike.tree _ _ _).symm

theorem allows_together (level : Int) :
    Step.Alongside (Parser.Alike lag older) F p p' (allows level) (allows level) fun _ => Eq := by
  have precedence : p'.precedence = p.precedence := by
    rw [alike.rest]
    rfl
  refine .get (.pure alike ?_)
  rw [precedence]

end Input

section Contexts

variable {J : TokenStream σ → TokenStream σ → Prop}

/-- Mistakes are reported and counted alike. -/
theorem reportMistake_together [TokenSource.Steady σ] (alike : p.Alike lag older p')
    (token : Option Token) (message : String) {error error' : Option RecognitionError}
    (same : Option.Rel (RecognitionError.Like (p.simulation.Same p'.simulation)) error error') :
    Step.Alongside (Parser.Alike lag older) F p p' (reportMistake token message error)
      (reportMistake token message error') fun _ => Eq := by
  have name : TokenSource.name p'.simulation.input.source = TokenSource.name p.simulation.input.source :=
    alike.simulation.input.ahead.name
  let mistake : Mistake := {
    source := TokenSource.name p.simulation.input.source, token, message, error
    line := (token.map Token.line).getD 0, column := (token.map Token.column).getD 0 }
  have same : mistake.Like (p.simulation.Same p'.simulation) { mistake with error := error' } :=
    ⟨error', same, rfl⟩
  have reported : Step.Later (Parser.Alike lag older) p p'
      { p with simulation := p.simulation.report (.mistake mistake) }
      { p' with simulation := p'.simulation.report (.mistake { mistake with error := error' }) } :=
    alike.simulates (alike.simulation.report (.mistake same))
  refine .modify (reported.trans (reported.like.moves rfl ?_ reported.like.tree ?_ alike.free)) rfl
  · simp only [name]
    rfl
  · obtain ⟨_, _, rfl⟩ := alike.fields
    rfl

/-- Entering a rule takes the first look at the input. -/
theorem enterRule_together (alike : p.AlikeFrom I lag older p') (starts : ∀ i i', I i i' → i.Starts i')
    (context state rule : Nat) :
    Step.Alongside (Parser.Alike lag older) (Parser.AlikeFrom I lag older) p p'
      (enterRule u context state rule) (enterRule u context state rule) fun _ => Eq := by
  refine .bind (deepen_together alike rule) fun _ _ q q' later _ => ?_
  refine .bind (setState_together later.like state) fun _ _ q q' later _ => ?_
  refine .bind (setContext_together later.like (some context)) fun _ _ q q' later _ => ?_
  refine .bind (lookahead?_together later.like starts 1) ?_
  rintro start _ q q' later rfl
  refine .bind (modifyTree_together later.like ?_) fun _ _ q q' later _ => notify_together later.like _
  have entered : ParseTree.Like (q.simulation.Same q'.simulation)
      (q.tree.modifyRule context fun node => { node with start })
      (q'.tree.modifyRule context fun node => { node with start }) :=
    later.like.tree.modifyBlind context fun _ _ => rfl
  dsimp only
  rw [entered.parent?]
  split
  · exact entered.addChild _ _
  · exact entered

theorem enterRecursiveRule_together (alike : p.AlikeFrom I lag older p')
    (starts : ∀ i i', I i i' → i.Starts i') (context state rule : Nat) (precedence : Int) :
    Step.Alongside (Parser.Alike lag older) (Parser.AlikeFrom I lag older) p p'
      (enterRecursiveRule u context state rule precedence)
      (enterRecursiveRule u context state rule precedence) fun _ => Eq := by
  refine .bind (deepen_together alike rule) fun _ _ q q' later _ => ?_
  refine .bind (modify_together later.like (fun _ _ _ => rfl) fun _ => id) fun _ _ q q' later _ => ?_
  refine .bind (lookahead?_together later.like starts 1) ?_
  rintro start _ q q' later rfl
  refine .bind (modifyTree_together later.like ?_) fun _ _ q q' later _ => notify_together later.like _
  exact later.like.tree.modifyBlind context fun _ _ => rfl

variable (alike : p.Alike lag older p')

include alike

/-- A change of a context that does not touch its error. -/
theorem modifyRule_together (context : NodeId) {f : RuleNode → RuleNode}
    (blind : ∀ n error, f { n with error } = { f n with error }) :
    Step.Alongside (Parser.Alike lag older) F p p' (modifyTree (·.modifyRule context f))
      (modifyTree (·.modifyRule context f)) fun _ => Eq :=
  modifyTree_together alike (alike.tree.modifyBlind context blind)

theorem exitRule_together :
    Step.Alongside (Parser.Alike lag older) F p p' (exitRule u) (exitRule u) fun _ => Eq := by
  unfold exitRule
  refine .get ?_
  have context : p'.context = p.context := by rw [alike.rest]
  rw [context]
  cases p.context with
  | none => exact .pure alike rfl
  | some context =>
      refine .get ?_
      have matched : p'.matchedEof = p.matchedEof := by rw [alike.rest]
      rw [matched]
      refine .bind (look_together alike _) ?_
      rintro stop _ q q' later rfl
      refine .bind (modifyRule_together later.like context fun _ _ => rfl) fun _ _ q q' later _ => ?_
      refine .bind (notifyReversed_together later.like _) fun _ _ q q' later _ => ?_
      have alike := later.like
      refine .modify (alike.moves rfl rfl alike.tree ?_ alike.free) rfl
      have parent := alike.tree.rule?_bind context RuleNode.parent fun _ _ => rfl
      have invoking := alike.tree.rule?_bind context RuleNode.invoking fun _ _ => rfl
      obtain ⟨_, _, rfl⟩ := alike.fields
      simp only [parent, invoking]

theorem takeAlternative_together (context alt : Nat) :
    Step.Alongside (Parser.Alike lag older) F p p' (takeAlternative u context alt)
      (takeAlternative u context alt) fun _ => Eq := by
  unfold takeAlternative
  refine .bind (modifyRule_together alike context fun _ _ => rfl) fun _ _ q q' later _ => .get ?_
  have alike := later.like
  have current : q'.context = q.context := by rw [alike.rest]
  have moves {r r' : Parser σ τ} (alike : r.Alike lag older r') :=
    setContext_together (F := F) alike (some context)
  dsimp only
  rw [current, alike.tree.parent? context]
  refine .ite .rfl (fun _ => ?_) fun _ => moves alike
  cases q.tree.parent? context with
  | none => exact moves alike
  | some parent =>
      refine .bind (modifyTree_together alike ((alike.tree.popChild parent).addChild parent context)) ?_
      exact fun _ _ r r' later _ => moves later.like

theorem wrapContext_together (context state : Nat) :
    Step.Alongside (Parser.Alike lag older) F p p' (wrapContext u context state)
      (wrapContext u context state) fun _ => Eq := by
  unfold wrapContext
  refine .get ?_
  have current : p'.context = p.context := by rw [alike.rest]
  rw [current]
  cases p.context with
  | none => exact .pure alike rfl
  | some previous =>
      refine .bind (previousToken_together alike) ?_
      rintro stop _ q q' later rfl
      refine .bind (modifyRule_together later.like previous fun _ _ => rfl) fun _ _ q q' later _ => ?_
      refine .bind (notifyReversed_together later.like _) fun _ _ q q' later _ => ?_
      have alike := later.like
      have start := alike.tree.rule?_bind previous RuleNode.start fun _ _ => rfl
      refine .bind (.modify (R := fun _ => Eq) (alike.moves rfl rfl ?_ ?_ alike.free) rfl)
        fun _ _ r r' later _ => notify_together later.like _
      · have wrapped := alike.tree.modifyBlind previous
          (f := fun node => { node with parent := some context, invoking := some state }) fun _ _ => rfl
        have begun := wrapped.modifyBlind context
          (f := fun node => { node with start := (q.tree.rule? previous).bind RuleNode.start }) fun _ _ => rfl
        dsimp only
        rw [start]
        split
        · exact begun.addChild context previous
        · exact begun
      · obtain ⟨_, _, rfl⟩ := alike.fields
        rfl

theorem unwrapContexts_together (parent : Option NodeId) :
    Step.Alongside (Parser.Alike lag older) F p p' (unwrapContexts u parent) (unwrapContexts u parent)
      fun _ => Eq := by
  unfold unwrapContexts
  refine .bind (modify_together alike (fun _ _ _ => rfl) fun _ => id) fun _ _ q q' later _ => .get ?_
  have current : q'.context = q.context := by rw [later.like.rest]
  rw [current]
  cases q.context with
  | none => exact setContext_together later.like parent
  | some context =>
      refine .bind (previousToken_together later.like) ?_
      rintro stop _ r r' later rfl
      refine .bind (modifyRule_together later.like context fun _ _ => rfl) fun _ _ r r' later _ => .get ?_
      rw [later.like.tree.chain]
      refine .bind (.forM later.like fun _ _ later' _ _ => notifyReversed_together later'.like _) ?_
      intro _ _ v v' later' _
      have alike := later'.like
      have attached := alike.tree.setParent context parent
      refine .modify (alike.moves rfl rfl ?_ ?_ alike.free) rfl
      · dsimp only
        split
        · exact attached.addChild _ context
        · exact attached
      · obtain ⟨_, _, rfl⟩ := alike.fields
        rfl

end Contexts

section Questions

variable (alike : p.Alike lag older p')

include alike

theorem expectedTokens_together :
    Together lag older p p' (expectedTokens u) (expectedTokens u) fun _ => Eq := by
  refine .get (.question alike alike ?_)
  rw [alike.invokingStates, alike.rest]

/-- The same prediction. -/
theorem predict_together (pure : u.host.Pure) (decision : Nat) (node : Option NodeId) :
    Together lag older p p' (predict u decision node) (predict u decision node) fun _ => Eq := by
  have situation : p'.situation u node = { p.situation u node with ask := u.host.predicate p'.tree } := by
    have fields : p'.state = p.state ∧ p'.precedence = p.precedence := by
      rw [alike.rest]
      exact ⟨rfl, rfl⟩
    simp only [Parser.situation, alike.tree.invokingStates, fields]
  have answers : Step.Alongside (fun t t' => t.forgetful.Alike lag older t'.forgetful)
      (fun t t' => t.forgetful.Alike lag older t'.forgetful) p.simulation p'.simulation
      (p.question u decision node) (p'.question u decision node) fun _ => Eq := by
    rw [Parser.question, Parser.question, situation]
    exact Prediction.adaptivePredict_together (pure.answers alike.tree) alike.simulation
  have later {s s' : Simulation σ τ} (later : Step.Later
      (fun t t' => t.forgetful.Alike lag older t'.forgetful) p.simulation p'.simulation s s') :
      Step.Later (Parser.Alike lag older) p p' { p with simulation := s } { p' with simulation := s' } :=
    alike.simulates
      ⟨⟨later.left.graph, later.left.cleared, later.left.input, later.left.marks⟩,
        ⟨later.right.graph, later.right.cleared, later.right.input, later.right.marks⟩, later.like⟩
  rcases answers.cases with
    ⟨alt, alt', t, t', asks, asks', since, answer⟩ | ⟨e, e', t, t', asks, asks', since, failure⟩
  · exact .of_ok (Parser.run_predict asks) (Parser.run_predict asks') (later since) answer
  · exact .of_error (Parser.run_predict asks) (Parser.run_predict asks') (later since) failure

end Questions

end Parsing

end AdaptiveLL
