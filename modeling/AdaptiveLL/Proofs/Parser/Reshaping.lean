import AdaptiveLL.Proofs.Parser.Follows
import AdaptiveLL.Proofs.Parser.Unfinished
/-!
What the moves of a parser note in the tree. Moves within a rule leave alone where calls are noted to
begin and end. A call that is entered begins with the current token; one that is left, or wrapped in
another one, ends with the token before. Only the exit of an ordinary rule knows of the end of the
input, if that has been matched.
-/
namespace AdaptiveLL

open AdaptiveLL.Parser (Acts)

variable {σ τ : Type} [TokenSource σ] {u : ParserSetup τ} {p p' : Parser σ τ}

/-- The parser has looked at its input, and its tree is now the one of the view. -/
structure Parser.Reshapes (p p' : Parser σ τ) (v : View) : Prop where
  begun : p'.input.Begun
  current : p'.currentToken = p.currentToken
  before : p'.input.before = p.input.before
  view : p'.tree.view = v
  matched : p'.matchedEof = p.matchedEof
  errors : p'.errorCount = p.errorCount
  active : p'.recovery.active = p.recovery.active

/-- Looking at the input changes nothing else. -/
theorem Parser.Reshapes.of_looked (begun : p.input.Begun) (begun' : p'.input.Begun)
    (passes : p.input.Passes p'.input []) {v : View} (view : p'.tree.view = v)
    (matched : p'.matchedEof = p.matchedEof) (errors : p'.errorCount = p.errorCount)
    (active : p'.recovery.active = p.recovery.active) : p.Reshapes p' v where
  begun := begun'
  current := congrArg (Option.getD · _) (begun.current_eq passes)
  before := by
    have passed := passes.before begun.sound
    rwa [List.append_nil] at passed
  view := view
  matched := matched
  errors := errors
  active := active

namespace ParseTree

theorem view_withCall (t : ParseTree) (rule : Nat) (parent : Option NodeId) (invoking : Option Nat) :
    (t.withCall rule parent invoking).view = t.view.make t.size rule :=
  t.view_addRule rule parent invoking

theorem view_attach (t : ParseTree) (parent : Option NodeId) (id : NodeId) :
    (t.attach true parent id).view = t.view.hang parent id := by
  cases parent with
  | none => rfl
  | some parent => exact t.view_addChild parent id

theorem view_relink (t : ParseTree) (id : NodeId) (parent : Option NodeId) (invoking : Option Nat) :
    (t.relink id parent invoking).view = t.view :=
  view_keep (f := fun node => { node with parent, invoking }) (fun _ => rfl) (fun _ => rfl) t id

theorem view_start (t : ParseTree) (id : NodeId) (start : Option Token) :
    (t.modifyRule id fun node => { node with start }).view = t.view.note id fun x => { x with start } :=
  view_note (f := fun node => { node with start }) (g := fun x => { x with start }) (fun _ => rfl)
    (fun _ => rfl) t id

theorem view_stop (t : ParseTree) (id : NodeId) (stop : Option Token) :
    (t.modifyRule id fun node => { node with stop }).view = t.view.stop id stop :=
  view_note (f := fun node => { node with stop }) (g := fun x => { x with stop }) (fun _ => rfl)
    (fun _ => rfl) t id

end ParseTree

namespace Parser

variable (parent : Option NodeId) (invoking : Option Nat) (rule : Nat)

omit [TokenSource σ] in
theorem view_withContext :
    (p.withContext parent invoking rule).tree.view = p.tree.view.make p.tree.size rule :=
  (ParseTree.view_keep (f := fun node => { node with alt := 1 }) (fun _ => rfl) (fun _ => rfl)
    (p.tree.withCall rule parent invoking) p.tree.size).trans (p.tree.view_withCall _ _ _)

omit [TokenSource σ] in
theorem link?_withContext : (p.withContext parent invoking rule).tree.link? p.tree.size =
    some ⟨rule, invoking, parent⟩ :=
  (ParseTree.Keeps.modify (f := fun node => { node with alt := 1 }) (fun _ => rfl)
    (p.tree.withCall rule parent invoking) p.tree.size).link (p.tree.link?_withCall _ _ _)

end Parser

/-- The parser is in use, and these are its notes. -/
def Parser.Noted (notes : NodeId → Option Notes) (matched : Bool) (p : Parser σ τ) : Prop :=
  p.input.Begun ∧ p.tree.notes? = notes ∧ p.matchedEof = matched

namespace Parsing

open AdaptiveLL.Parser (Noted)

/-- Moves within a rule leave alone where calls begin and end. -/
theorem noted_basis (build : u.options.buildTrees = true) (notes : NodeId → Option Notes) (b : Bool) :
    Basis (σ := σ) u (Noted notes b) := begun_basis.and {
  look _ h := h
  textRange _ _ h := h
  consume p h := by
    obtain here | ⟨c, here⟩ := Option.eq_none_or_eq_some p.context
    · rw [consume_outside here]
      exact h
    · rw [consume_under build here]
      exact ⟨(p.tree.notes?_addToken c p.currentToken p.recovery.active).trans h.1, h.2⟩
  conjure {p token context} _ _ h := ⟨(p.tree.notes?_addToken context token true).trans h.1, h.2⟩
  note {p} id f keeps h := by
    refine ⟨(ParseTree.notes?_keep (fun node => ?_) p.tree id).trans h.1, h.2⟩
    rw [RuleNode.notes, (keeps node).1, (keeps node).2.1, RuleNode.notes]
  report _ h := h
  settle _ _ _ h := h
  ask _ _ _ h := h
  act _ _ _ h := h
  predict decision node p h := by
    obtain ⟨s', run, -⟩ := predict_run (u := u) decision node p
    rw [run]
    exact h }

/-- If no error node is put, the edge has read the current token. -/
theorem matchWhere_reads (placed : p.input.Placed) (accept : Symbol → Bool) :
    Does u False True (matchWhere u accept) p fun token _ leaves =>
      (accept p.currentToken.type = true ∧ token = p.currentToken ∧ leaves = [⟨token, false⟩]) ∨
        ∃ l ∈ leaves, l.isError = true := by
  cases accepted : accept p.currentType with
  | true =>
      refine .ask (lookahead_one_asks (.ite (fun _ => ?_) fun no => absurd accepted no))
      refine .step rfl (.of_recovery fun _ => rfl) (consume_does.imp ?_)
      rintro _ _ _ - ⟨rfl, rfl, -⟩
      rw [Parser.currentType_of_placed placed] at accepted
      rw [Parser.currentToken_of_start (q := { p.withInput p.input.start with recovery := _ }) rfl]
      exact .inl ⟨accepted, rfl, rfl⟩
  | false =>
      -- The move is the one of an edge that accepts nothing.
      have run : (matchWhere u accept).run p = (matchWhere u fun _ => false).run p := by
        have looked : (lookahead 1 : Parsing σ τ Symbol).run p =
            (.ok p.currentType, p.withInput p.input.start) := by
          change (Except.ok (p.input.lookahead 1).1, p.withInput (p.input.lookahead 1).2) = _
          rw [TokenStream.lookahead, TokenStream.lookahead?_one, ← p.current?_eq]
          rfl
        rw [matchWhere, matchWhere, Step.run_bind_ok looked, Step.run_bind_ok looked, accepted]
      have does : Does u False True (matchWhere u fun _ => false) p fun token _ leaves =>
        Matches u p (fun _ => false) token leaves := matchWhere_does placed trivial _
      unfold Does Step.Ensures at does ⊢
      rw [run]
      split at does
      · obtain ⟨leaves, acts, matched⟩ := does
        refine ⟨leaves, acts, .inr ?_⟩
        cases matched with
        | accepted _ fits => cases fits
        | skipping | conjured => exact ⟨_, .head _, rfl⟩
      · exact does

/-- What a call has read stands in the view with the call. -/
def called (u : ParserSetup τ) (p : Parser σ τ) (parent : Option NodeId) (rule : Nat) : View :=
  let made := p.tree.view.make p.tree.size rule
  let v := made.note p.tree.size fun x => { x with start := p.current? }
  if u.grammar.network.isLeftRecursiveRule rule then v else v.hang parent p.tree.size

variable (build : u.options.buildTrees = true)

include build

theorem enterCall_reshapes (sound : p.input.Sound) (parent : Option NodeId) (invoking : Option Nat)
    (rule start : Nat) (precedence : Int) : (enterCall u p.tree.size start rule precedence).Ensures
      (p.withContext parent invoking rule) (fun _ p' => p.Reshapes p' (called u p parent rule))
      fun e _ => ∀ error, e ≠ .recoverable error := by
  let made := (p.withContext parent invoking rule).tree
  let note (node : RuleNode) := { node with start := p.current? }
  let begun := made.modifyRule p.tree.size note
  have view : begun.view = (p.tree.view.make p.tree.size rule).note p.tree.size
      fun x => { x with start := p.current? } := by
    rw [← Parser.view_withContext parent invoking rule]
    exact made.view_start p.tree.size p.current?
  have looks {p' : Parser σ τ} (input : p'.input = (p.input.lookahead? 1).2)
      (matched : p'.matchedEof = p.matchedEof) (errors : p'.errorCount = p.errorCount)
      (active : p'.recovery.active = p.recovery.active) {v : View} (view : p'.tree.view = v) :
      p.Reshapes p' v := by
    have start : p'.input = p.input.start := by rw [input, TokenStream.lookahead?_one]
    have passed := p.input.start_passes.before sound
    rw [List.append_nil, ← start] at passed
    have begun : p'.input.Begun := start ▸ sound.begun_start
    exact ⟨begun, Parser.currentToken_of_start start, passed, view, matched, errors, active⟩
  unfold enterCall called
  split
  case isTrue recursive =>
      refine .bind (.of_ok rfl (.bind ((deepen_ensures rule).imp ?_ ?_)))
      · rintro _ p₁ ⟨rfl, room⟩
        refine .of_ok rfl ?_
        refine looks ?_ ?_ ?_ ?_ ?_
        exacts [rfl, rfl, rfl, rfl, view]
      · rintro e p₁ ⟨-, rfl⟩
        simp
  case isFalse ordinary =>
      refine .bind ((deepen_ensures rule).imp ?_ ?_)
      · rintro _ p₁ ⟨rfl, room⟩
        have keeps := ParseTree.Keeps.modify (f := note) (fun _ => rfl) made p.tree.size
        have linked : begun.parent? p.tree.size = parent :=
          ParseTree.parent?_of_link (keeps.link (Parser.link?_withContext parent invoking rule))
        refine .of_ok rfl ?_
        refine looks ?_ ?_ ?_ ?_ ?_
        exacts [rfl, rfl, rfl, rfl, by
          change (begun.attach u.options.buildTrees (begun.parent? p.tree.size) p.tree.size).view = _
          rw [build, linked, ParseTree.view_attach, view]]
      · rintro e p₁ ⟨-, rfl⟩
        simp

omit build in
theorem exitRule_reshapes {context : NodeId} (here : p.context = some context)
    (begun : p.input.Begun) : (exitRule u).Ensures p
      (fun _ p' => p.Reshapes p' (p.tree.view.stop context
        (p.input.lookahead? (if p.matchedEof then 1 else -1)).1))
      fun _ _ => False := by
  unfold exitRule
  refine .bind (.of_ok (a := p) (t := p) rfl ?_)
  rw [here]
  let looked := p.input.lookahead? (if p.matchedEof then 1 else -1)
  refine .bind (.of_ok (a := p) (t := p) rfl (.bind (.of_ok (a := looked.1) rfl ?_)))
  refine .bind (.of_ok rfl (.bind (.of_ok rfl (.of_ok rfl ?_))))
  refine .of_looked begun ?_ ?_ ?_ rfl rfl rfl
  · exact begun.sound.begun_lookahead? _
  · exact p.input.lookahead?_passes _
  · exact p.tree.view_stop context looked.1

theorem unwrapContexts_reshapes (parent : Option NodeId) {context : NodeId}
    (here : p.context = some context) (begun : p.input.Begun) : (unwrapContexts u parent).Ensures p
      (fun _ p' => p.Reshapes p'
        ((p.tree.view.stop context (p.input.lookahead? (-1)).1).hang parent context))
      fun _ _ => False := by
  let popped := { p with precedences := p.precedences.tail, depth := p.depth - 1 }
  let looked := p.input.lookahead? (-1)
  let ended := { popped.withInput looked.2 with
    tree := p.tree.modifyRule context fun node => { node with stop := looked.1 } }
  refine .bind (.of_ok (t := popped) rfl (.bind (.of_ok (a := popped) (t := popped) rfl ?_)))
  rw [show popped.context = some context from here]
  refine .bind (.of_ok (a := looked.1) (t := popped.withInput looked.2) rfl ?_)
  refine .bind (.of_ok (a := ()) (t := ended) rfl (.bind (.of_ok (a := ended) (t := ended) rfl ?_)))
  obtain ⟨host, told⟩ := notifyExits_run (u := u)
    ((ended.tree.chain (some context)).takeWhile fun id => some id != parent) ended
  refine .bind (.of_ok told (.of_ok rfl ?_))
  refine .of_looked begun ?_ ?_ ?_ rfl rfl rfl
  · exact begun.sound.begun_lookahead? (-1)
  · exact p.input.lookahead?_passes (-1)
  change ((ended.tree.setParent context parent).attach u.options.buildTrees parent context).view = _
  rw [build, ParseTree.view_attach, ParseTree.view_setParent]
  exact congrArg (View.hang · parent context) (p.tree.view_stop context looked.1)

theorem wrapContext_reshapes (context state : Nat) {previous : NodeId}
    (here : p.context = some previous) (begun : p.input.Begun) :
    (wrapContext u context state).Ensures p (fun _ p' => p.Reshapes p'
        (((p.tree.view.stop previous (p.input.lookahead? (-1)).1).note context fun x =>
          { x with start := (p.tree.view.notes previous).bind Notes.start }).attach context previous))
      fun _ _ => False := by
  let looked := p.input.lookahead? (-1)
  let ended := p.tree.modifyRule previous fun node => { node with stop := looked.1 }
  let start := (ended.rule? previous).bind RuleNode.start
  let linked := ended.relink previous (some context) (some state)
  let rewired := linked.modifyRule context fun node => { node with start }
  have first : start = (p.tree.view.notes previous).bind Notes.start := by
    have known : (ended.notes? previous).bind Notes.start = start := by
      rw [ParseTree.notes?, Option.bind_map]
      rfl
    have noted := congrArg (View.notes · previous) (p.tree.view_stop previous looked.1)
    rw [← known, show ended.notes? previous = _ from noted, View.notes_stop, Function.update_self]
    cases p.tree.view.notes previous <;> rfl
  unfold wrapContext
  refine .bind (.of_ok (a := p) (t := p) rfl ?_)
  rw [here]
  refine .bind (.of_ok (a := looked.1) (t := p.withInput looked.2) rfl ?_)
  refine .bind (.of_ok (t := { p.withInput looked.2 with tree := ended }) rfl ?_)
  refine .bind (.of_ok rfl (.bind (.of_ok rfl ?_)))
  refine .of_ok rfl ?_
  refine .of_looked begun ?_ ?_ ?_ rfl rfl rfl
  · exact begun.sound.begun_lookahead? (-1)
  · exact p.input.lookahead?_passes (-1)
  change (if u.options.buildTrees then rewired.addChild context previous else rewired).view = _
  rw [if_pos build, ParseTree.view_addChild, ParseTree.view_start, ParseTree.view_relink, first]
  exact congrArg (fun v => View.attach (View.note v context _) context previous)
    (p.tree.view_stop previous looked.1)

theorem continueRecursion_reshapes (s : State) {context : NodeId} (here : p.context = some context)
    (begun : p.input.Begun) : (continueRecursion u s).Ensures p
      (fun _ p' => p.Reshapes p' (p.tree.view.wrap context p.tree.size
        ((p.contextRule?.map RuleNode.rule).getD s.rule) (p.input.lookahead? (-1)).1))
      fun e _ => ∀ error, e ≠ .recoverable error := by
  let caller := p.recursions.head?.getD (none, none)
  let q := p.withContext caller.1 caller.2 ((p.contextRule?.map RuleNode.rule).getD s.rule)
  unfold continueRecursion
  refine .bind (.of_ok rfl (.bind (.of_ok (newContext_run _ _ _ p) ?_)))
  cases u.grammar.network.ruleStarts[s.rule]? with
  | none => exact .of_error rfl (by simp)
  | some start =>
      have wraps := wrapContext_reshapes build p.tree.size start (p := q) here begun
      refine .bind (.of_ok rfl (wraps.imp ?_ fun _ _ => False.elim))
      rintro _ p' ⟨begun, current, before, view, matched, errors, active⟩
      rw [Parser.view_withContext] at view
      exact ⟨begun, current, before, view, matched, errors, active⟩

end Parsing

end AdaptiveLL
