import AdaptiveLL.Proofs.Parser.Basis
import AdaptiveLL.Proofs.Parser.InStep
/-!
Invariants of a parse that know the calls. Besides the parser, such an invariant is about the frames
of the calls that are active: a call puts a frame on top, an operator puts another context into the
innermost frame, and a return takes that frame away. If these moves and those within a rule keep the
invariant, it holds of no frames when a parse is over.
-/
namespace AdaptiveLL

open AdaptiveLL.Parser (Acts)

variable {σ τ : Type} [TokenSource σ] {u : ParserSetup τ} {p p' : Parser σ τ} {f : Frame}
  {fs rest : List Frame} {ground : Ground} {I : List Frame → Parser σ τ → Prop} {Live : Nat → Prop}

/-- The frames are determined by the tree, the innermost context and the precedences. -/
theorem Stacked.unique {n : Network} {t : ParseTree} {ground : Option NodeId} {gs : List Frame}
    (h : Stacked n t ground fs) (h' : Stacked n t ground gs)
    (top : fs.head?.map Frame.context = gs.head?.map Frame.context)
    (levels : fs.filterMap Frame.precedence? = gs.filterMap Frame.precedence?) : fs = gs := by
  induction fs generalizing gs with
  | nil =>
      cases gs with
      | nil => rfl
      | cons => cases top
  | cons f rest ih =>
      cases gs with
      | nil => cases top
      | cons g others =>
          have context : f.context = g.context := Option.some.inj top
          obtain ⟨parent, link, -⟩ := h.linked_head.exists_link
          obtain ⟨parent', link', -⟩ := h'.linked_head.exists_link
          rw [context, link'] at link
          obtain ⟨rule, invoking, -⟩ := Link.mk.inj (Option.some.inj link)
          change g.rule = f.rule at rule
          change g.invoking = f.invoking at invoking
          have inner : rest = [] ↔ others = [] := by
            rw [← h.invoking_eq_none, ← h'.invoking_eq_none]
            exact Eq.congr_left invoking.symm
          have above : rest.head?.map Frame.context = others.head?.map Frame.context := by
            cases rest with
            | nil => rw [inner.1 rfl]
            | cons =>
                cases others with
                | nil => cases inner.2 rfl
                | cons =>
                    have link := h.link_head (.inr (.inl (List.cons_ne_nil _ _)))
                    rw [context, h'.link_head (.inr (.inl (List.cons_ne_nil _ _)))] at link
                    have parent := congrArg Link.parent (Option.some.inj link)
                    exact h.parent_head.symm.trans (parent.symm.trans h'.parent_head)
          have recursive := h.carries_mem f (.head _)
          rw [← rule, ← h'.carries_mem g (.head _)] at recursive
          obtain ⟨precedence, levels⟩ : f.precedence? = g.precedence? ∧
              rest.filterMap Frame.precedence? = others.filterMap Frame.precedence? := by
            cases known : f.precedence? <;> cases known' : g.precedence? <;>
              simp_all
          obtain rfl := ih h.tail h'.tail above levels
          have parent := h.parent_head.trans h'.parent_head.symm
          cases f
          cases g
          simp_all

/-- The parser with a new context that is not entered yet. -/
def Parser.withContext (p : Parser σ τ) (parent : Option NodeId) (invoking : Option Nat)
    (rule : Nat) : Parser σ τ :=
  { p with
    tree := (p.tree.withCall rule parent invoking).modifyRule p.tree.size
      fun node => { node with alt := 1 } }

/-- Crossing the edge neither calls a rule nor wraps a context. -/
def Transition.Plain (t : Transition) : Prop :=
  match t with
  | .epsilon .. | .call .. => False
  | .atom .. | .range .. | .set .. | .notSet .. | .wildcard .. | .predicate .. | .precedence ..
  | .action .. => True

theorem Crosses.on {n : Network} {number : Nat} {s : State} {t : Transition} {leaves : List Leaf}
    (h : Crosses u number s p t p' leaves) (plain : t.Plain) (on : p.On n ground fs) :
    p'.On n ground fs := by
  cases h with
  | plain | wrap | call => exact plain.elim
  | precedence => exact on
  | read _ acts | predicate acts | action acts => exact on.acts acts

omit [TokenSource σ] in
theorem Parser.On.unique {n : Network} {gs : List Frame} (h : p.On n ground fs)
    (h' : p.On n ground gs) : fs = gs := by
  have same := h.context.symm.trans h'.context
  -- A frame is younger than the context of the ground.
  have top : fs.head?.map Frame.context = gs.head?.map Frame.context := by
    cases fs with
    | nil =>
        cases gs with
        | nil => rfl
        | cons => exact absurd same.symm (h'.stacked.ne_ground (.head _))
    | cons f =>
        cases gs with
        | nil => exact absurd same (h.stacked.ne_ground (.head _))
        | cons => exact same
  refine h.stacked.unique h'.stacked top ?_
  exact List.append_cancel_right (h.precedences.symm.trans h'.precedences)

namespace Parsing

/-- Crossing a plain edge is a move within a rule. It may note that the end of the input has been
matched. -/
theorem Basis.takeEdge_preserves {J : Parser σ τ → Prop} (h : Basis u J) (number : Nat) (s : State)
    {t : Transition} (plain : t.Plain)
    (ended : ∀ target, t = .atom target Symbol.eof → ∀ p, J p → J { p with matchedEof := true }) :
    (takeEdge u number s t).Preserves J := by
  unfold takeEdge
  cases t with
  | epsilon | call => exact plain.elim
  | atom target label =>
      refine .bind (h.matchToken_preserves label fun eof => ?_) fun _ => .pure _
      exact ended target (by rw [eof])
  | range | set | notSet | wildcard => exact .bind (h.matchWhere_preserves _) fun _ => .pure _
  | predicate =>
      refine .bind (h.ask _ _) fun _ => .ite ?_ (.pure _)
      exact .bind (h.failedPredicate_preserves _ _ _) fun _ => .throw _
  | precedence =>
      refine .bind (allows_preserves _) fun _ => .ite (.bind .get fun _ => ?_) (.pure _)
      exact .bind (h.failedPredicate_preserves _ _ _) fun _ => .throw _
  | action target rule index =>
      cases index with
      | some index => exact h.act rule index
      | none => exact .pure _

/-- The moves of a parse keep the invariant. It must hold behind a recognition error as well, as long
as the calls stay the same. -/
structure Follows (u : ParserSetup τ) (ground : Ground) (I : List Frame → Parser σ τ → Prop) : Prop where
  placed {p : Parser σ τ} {fs : List Frame} : I fs p → p.input.Placed
  settle {p : Parser σ τ} {fs : List Frame} (state : Nat) (root : Option NodeId) :
    I fs p → I fs { p with state, root }
  choose {p : Parser σ τ} {f : Frame} {rest : List Frame} (number : Nat) (s : State) :
    p.On u.grammar.network ground (f :: rest) → I (f :: rest) p →
    (choose u number s).Ensures p (fun _ p' => I (f :: rest) p')
      fun e p' => ∀ error, e = .recoverable error → I (f :: rest) p'
  cross {p : Parser σ τ} {f : Frame} {rest : List Frame} {number : Nat} {s : State}
    {t : Transition} : u.grammar.network.states[number]? = some s → t ∈ s.transitions → t.Plain →
    p.On u.grammar.network ground (f :: rest) → I (f :: rest) p →
    (takeEdge u number s t).Ensures p (fun _ p' => I (f :: rest) p')
      fun e p' => ∀ error, e = .recoverable error → I (f :: rest) p'
  abandon {p : Parser σ τ} {f : Frame} {rest : List Frame} (s : State) (error : RecognitionError) :
    p.On u.grammar.network ground (f :: rest) → I (f :: rest) p →
    (abandonRule u s error).Ensures p (fun _ p' => I (f :: rest) p') fun _ _ => True
  call {p : Parser σ τ} {f : Frame} {rest : List Frame} (invoking : Option Nat) (rule start : Nat)
    (precedence : Int) : p.On u.grammar.network ground (f :: rest) → I (f :: rest) p →
    (enterCall u p.tree.size start rule precedence).Ensures (p.withContext p.context invoking rule)
      (fun _ p' => I (p.frame u invoking rule precedence :: f :: rest) p')
      fun e _ => ∀ error, e ≠ .recoverable error
  wrap {p : Parser σ τ} {f : Frame} {rest : List Frame} (s : State) :
    u.grammar.network.isLeftRecursiveRule f.rule = true → p.On u.grammar.network ground (f :: rest) →
    I (f :: rest) p → (continueRecursion u s).Ensures p
      (fun _ p' => I ({ f with context := p.tree.size } :: rest) p')
      fun e _ => ∀ error, e ≠ .recoverable error
  exit {p : Parser σ τ} {f : Frame} {rest : List Frame} :
    u.grammar.network.isLeftRecursiveRule f.rule = false → p.On u.grammar.network ground (f :: rest) →
    I (f :: rest) p → (exitRule u).Ensures p (fun _ p' => I rest p') fun _ _ => False
  unwrap {p : Parser σ τ} {f : Frame} {rest : List Frame}
    (recursions : List (Option NodeId × Option Nat)) :
    u.grammar.network.isLeftRecursiveRule f.rule = true → p.On u.grammar.network ground (f :: rest) →
    I (f :: rest) p → (unwrapContexts u f.parent).Ensures { p with recursions }
      (fun _ p' => I rest p') fun _ _ => False

/-- The frames of the parser are such that the invariant holds of them. -/
def Followed (u : ParserSetup τ) (ground : Ground) (I : List Frame → Parser σ τ → Prop)
    (p : Parser σ τ) : Prop :=
  ∃ fs, p.On u.grammar.network ground fs ∧ I fs p

namespace Follows

variable (h : Follows u ground I)

include h

theorem settle_state (state : Nat) (inv : Followed u ground I p) : Followed u ground I { p with state } := by
  obtain ⟨fs, on, inv⟩ := inv
  exact ⟨fs, on.at_state state, h.settle state p.root inv⟩

theorem takeEdge (confined : u.grammar.network.Confined Live) {number : Nat} {s : State}
    {t : Transition} (here : u.grammar.network.states[number]? = some s)
    (going : s.isRuleStop = false) (mem : t ∈ s.transitions)
    (on : p.On u.grammar.network ground (f :: rest)) (same : s.rule = f.rule) (inv : I (f :: rest) p) :
    (takeEdge u number s t).Ensures p (fun _ p' => Followed u ground I p')
      fun e p' => ∀ error, e = .recoverable error → I (f :: rest) p' := by
  have quiet (plain : t.Plain) : (Parsing.takeEdge u number s t).Ensures p
      (fun _ p' => Followed u ground I p') fun e p' => ∀ error, e = .recoverable error → I (f :: rest) p' := by
    have crosses := takeEdge_ensures (u := u) (h.placed inv) number s t
    refine (crosses.and (h.cross here mem plain on inv)).imp ?_ fun _ _ failed => failed.2
    rintro _ p' ⟨⟨leaves, crosses⟩, inv⟩
    exact ⟨_, crosses.on plain on, inv⟩
  have missing {target : Nat} (known : u.grammar.network.states[target]? = none) :
      (Step.ofQuestion (u.grammar.network.state target)).run p =
        (.error (.fault (.noSuchState target)), p) := by
    simp [Network.state, known, Step.ofQuestion]
  cases t with
  | epsilon target outermost =>
      unfold Parsing.takeEdge
      cases known : u.grammar.network.states[target]? with
      | none => exact .bind (.of_error (missing known) (by simp))
      | some e =>
          refine .bind (.of_ok (a := e) (t := p) (by simp [Network.state, known, Step.ofQuestion]) ?_)
          split
          case isTrue loops =>
              have recursive : u.grammar.network.isLeftRecursiveRule f.rule = true :=
                same ▸ confined.loop here (Bool.and_eq_true_iff.1 loops).1
              have wraps := continueRecursion_ensures (u := u) (p := p) s
              refine (wraps.and (h.wrap s recursive on inv)).imp ?_
                fun e _ failed error eq => absurd eq (failed.2 error)
              rintro _ p' ⟨⟨start, -, acts⟩, inv⟩
              rw [on.contextRule?, Option.getD_some] at acts
              exact ⟨_, (on.wrapped recursive).acts acts, inv⟩
          case isFalse => exact .of_ok rfl ⟨_, on, inv⟩
  | call target rule precedence follow =>
      unfold Parsing.takeEdge
      cases known : u.grammar.network.states[target]? with
      | none => exact .bind (.of_error (missing known) (by simp))
      | some callee =>
          refine .bind (.of_ok (a := callee) (t := p)
            (by simp [Network.state, known, Step.ofQuestion]) ?_)
          refine .bind (.of_ok (a := p) (t := p) rfl (.bind (.of_ok (newContext_run _ _ _ p) ?_)))
          have enters := enterCall_ensures (u := u) (p := p) p.context (some number) callee.rule
            target precedence p.root
          have calls := h.call (some number) callee.rule target precedence on inv
          refine (enters.and calls).imp ?_ fun e _ failed error eq => absurd eq (failed.2 error)
          rintro _ p' ⟨⟨-, acts⟩, inv⟩
          have made : (p.frame u (some number) callee.rule precedence).MadeBy u.grammar.network f := by
            obtain ⟨-, follows⟩ := confined.call here going mem
            exact ⟨_, _, _, _, _, _, rfl, here, going, same, mem, ⟨_, known, rfl⟩, follows, rfl⟩
          exact ⟨_, (on.entered_call made).acts acts, inv⟩
  | atom | range | set | notSet | wildcard | predicate | precedence | action => exact quiet trivial

theorem visitState (confined : u.grammar.network.Confined Live) {s : State}
    (here : u.grammar.network.states[p.state]? = some s) (going : s.isRuleStop = false)
    (on : p.On u.grammar.network ground (f :: rest)) (same : s.rule = f.rule) (inv : I (f :: rest) p) :
    (visitState u p.state s).Ensures p (fun _ p' => Followed u ground I p')
      fun e p' => ∀ error, e = .recoverable error → I (f :: rest) p' := by
  unfold Parsing.visitState
  extract_lets missing goOn
  have goesOn {alt : Nat} {p₁ : Parser σ τ} (on₁ : p₁.On u.grammar.network ground (f :: rest))
      (inv₁ : I (f :: rest) p₁) : (goOn alt).Ensures p₁ (fun _ p' => Followed u ground I p')
        fun e p' => ∀ error, e = .recoverable error → I (f :: rest) p' := by
    simp only [goOn]
    cases edge : (if alt = 0 then none else s.transitions[alt - 1]? : Option Transition) with
    | none => exact .of_error rfl (by simp)
    | some t =>
        have pos : alt ≠ 0 := fun zero => by simp [zero] at edge
        rw [if_neg pos] at edge
        have takes := h.takeEdge confined here going (List.mem_of_getElem? edge) on₁ same inv₁
        refine .bind (.of_ok rfl (.bind (takes.imp ?_ fun _ _ => id)))
        exact fun _ _ followed => .of_ok rfl (h.settle_state _ followed)
  split
  case isTrue decides =>
      have chooses := choose_does (u := u) (p := p) p.state s (R := True) trivial
      have keeps := h.choose p.state s on inv
      refine Step.Ensures.bind ((Step.Ensures.and chooses keeps).imp ?_ fun _ _ failed => failed.2)
      rintro alt p₁ ⟨⟨skipped, acts, -⟩, inv⟩
      exact goesOn (on.acts acts) inv
  case isFalse single => exact .bind (.of_ok rfl (goesOn on inv))

/-- At the stop of a rule the innermost frame is taken away. -/
theorem visitRuleStop {s : State} (on : p.On u.grammar.network ground (f :: rest))
    (same : s.rule = f.rule) (number : Nat) (inv : I (f :: rest) p) :
    (visitRuleStop u number s).Ensures p (fun _ p' => I rest p') fun _ _ => True := by
  unfold Parsing.visitRuleStop
  extract_lets n goOn
  have goesOn {p₁ : Parser σ τ} (inv : I rest p₁) :
      (goOn ⟨⟩).Ensures p₁ (fun _ p' => I rest p') fun _ _ => True := by
    refine .bind (.of_ok rfl ?_)
    extract_lets invoking
    cases u.grammar.network.followState? p₁.state with
    | none => exact .of_error rfl trivial
    | some follow => exact .bind (.of_ok rfl (.of_ok rfl (h.settle follow p₁.root inv)))
  split
  case isTrue recursive =>
      have recursive : u.grammar.network.isLeftRecursiveRule f.rule = true := same ▸ recursive
      refine .bind (.of_ok (a := p) (t := p) rfl ?_)
      rw [on.remembered recursive]
      let popped := { p with recursions := rest.filterMap Frame.recursion? ++ ground.recursions }
      refine .bind (.of_ok (t := popped) rfl (.bind ?_))
      refine (h.unwrap _ recursive on inv).imp (fun _ p₁ inv => ?_) fun _ _ => False.elim
      exact .bind (.of_ok rfl (goesOn (h.settle _ p₁.root inv)))
  case isFalse ordinary =>
      have ordinary : u.grammar.network.isLeftRecursiveRule f.rule = false :=
        same ▸ Bool.eq_false_iff.2 ordinary
      exact .bind ((h.exit ordinary on inv).imp (fun _ _ => goesOn) fun _ _ => False.elim)

/-- At the end of the start rule no frame is left. -/
theorem conclude (on : p.On u.grammar.network ground [f]) (root : NodeId) (inv : I [f] p) :
    (conclude u (u.grammar.network.isLeftRecursiveRule f.rule) root).Ensures p
      (fun _ p' => I [] p') fun _ _ => False := by
  unfold Parsing.conclude
  split
  case isTrue recursive =>
      let popped := { p with recursions := p.recursions.tail }
      refine .bind (.of_ok (a := p) (t := p) rfl (.bind (.of_ok (t := popped) rfl ?_)))
      rw [show (p.recursions.head?.map Prod.fst).getD none = f.parent by
        rw [on.remembered recursive]; rfl]
      refine .bind ((h.unwrap _ recursive on inv).imp (fun _ p₁ inv => ?_) fun _ _ => False.elim)
      exact .bind (.of_ok rfl (.of_ok rfl (h.settle p₁.state _ inv)))
  case isFalse ordinary =>
      have exits := h.exit (Bool.eq_false_iff.2 ordinary) on inv
      exact .bind (exits.imp (fun _ _ inv => .of_ok rfl inv) fun _ _ => False.elim)

/-- One turn of a parse. -/
theorem turn (confined : u.grammar.network.Confined Live) {rule : Nat}
    (stands : p.Stands u.grammar.network ground Live rule f rest) (root : NodeId) (inv : I (f :: rest) p) :
    (turn u (u.grammar.network.isLeftRecursiveRule rule) root).Ensures p
      (fun answer p' => match answer with
        | none => Followed u ground I p'
        | some _ => I [] p')
      fun _ _ => True := by
  obtain ⟨-, s, here, same⟩ := stands.inside
  unfold Parsing.turn
  refine .bind (.of_ok (a := p) (t := p) rfl ?_)
  extract_lets number ended
  rw [show u.grammar.network.states[number]? = some s from here]
  refine .bind (.of_ok (a := s) (t := p) rfl ?_)
  split
  case isTrue stop =>
      obtain ⟨outermost, run, iff⟩ := isOutermost_run p
      refine .bind (.of_ok run ?_)
      split
      case isTrue root? =>
          obtain rfl := stands.atRoot_iff.1 (iff.1 root?)
          have base : f.rule = rule := stands.base
          subst base
          refine .bind ((h.conclude stands.toOn root inv).imp ?_ fun _ _ => False.elim)
          exact fun _ _ inv => .of_ok rfl inv
      case isFalse =>
          have returns := visitRuleStop_ensures (u := u) (p := p) p.state s
          have keeps := h.visitRuleStop stands.toOn same p.state inv
          refine .bind ((returns.and keeps).imp ?_ fun _ _ _ => trivial)
          rintro _ p' ⟨⟨q, follow, returns, -, acts⟩, inv⟩
          rw [same] at returns
          have on := ((stands.toOn.returns returns).1.at_state follow).acts acts
          exact .of_ok rfl ⟨rest, on, inv⟩
  case isFalse going =>
      have going := Bool.eq_false_iff.2 going
      have visits := visitState_ensures (u := u) (h.placed inv) rfl here going
      have keeps := h.visitState confined here going stands.toOn same inv
      obtain ⟨outcome, p₁, run⟩ : ∃ outcome p₁, (Parsing.visitState u p.state s).run p = (outcome, p₁) :=
        ⟨_, _, rfl⟩
      have tried : (Step.attempt (Parsing.visitState u p.state s)).run p = (.ok outcome, p₁) := by
        rw [Step.run_attempt, run]
      refine .bind (.of_ok tried ?_)
      match outcome with
      | .ok () => exact .of_ok rfl (keeps.ok run)
      | .error (.fatal error) | .error (.fault fault) => exact .of_error rfl trivial
      | .error (.recoverable error) =>
          have inv₁ := keeps.error run error rfl
          obtain ⟨-, skipped, acts, -⟩ := (visits.error run).recoverable error rfl
          have abandons := abandonRule_ensures (u := u) (p := p₁) s error
          have keeps := h.abandon s error (stands.toOn.acts acts) inv₁
          refine .bind ((abandons.and keeps).imp ?_ fun _ _ _ => trivial)
          rintro _ p' ⟨⟨stop, more, -, acts', -⟩, inv⟩
          have on := ((stands.toOn.acts acts).at_state stop).acts acts'
          exact .of_ok rfl ⟨_, on, inv⟩

theorem visitStates (confined : u.grammar.network.Confined Live) {rule : Nat}
    (stands : p.Stands u.grammar.network ground Live rule f rest) (root : NodeId) (fuel : Nat)
    (inv : I (f :: rest) p) :
    (visitStates u (u.grammar.network.isLeftRecursiveRule rule) root fuel).Ensures p
      (fun _ p' => I [] p') fun _ _ => True := by
  induction fuel generalizing p f rest with
  | zero => exact .of_error rfl trivial
  | succ fuel ih =>
      rw [visitStates_succ]
      have turns := turn_ensures (u := u) (h.placed inv)
        (u.grammar.network.isLeftRecursiveRule rule) root
      have keeps := h.turn confined stands root inv
      refine .bind ((turns.and keeps).imp ?_ fun _ _ _ => trivial)
      rintro (_ | answer) p' ⟨turned, followed⟩
      · obtain ⟨leaves, turned⟩ := turned
        obtain ⟨f', rest', stands⟩ := stands.turn confined turned
        obtain ⟨fs, on, inv⟩ := followed
        obtain rfl := on.unique stands.toOn
        exact ih stands inv
      · exact .of_ok rfl followed

end Follows

/-- If the invariant holds when the start rule has been called, it holds of no frames when the parse
is over. -/
theorem Follows.parse {rule : Nat} (h : Follows u (p.groundFor u rule) I)
    (confined : u.grammar.network.Confined Live) (inside : ∀ c ∈ p.context, c < p.tree.size)
    (calls : ∀ start, (enterCall u p.tree.size start rule 0).Ensures
      (({ p with root := some p.tree.size } : Parser σ τ).withContext none none rule)
      (fun _ q => I [p.startFrame u rule] q) fun _ _ => True) :
    (parse u rule).Ensures p (fun _ p' => I [] p') fun _ _ => True := by
  have enters := enter_ensures (u := u) (p := p) rule
  have keeps : (enter u rule).Ensures p (fun _ q => I [p.startFrame u rule] q)
      fun _ _ => True := by
    unfold enter
    cases u.grammar.network.ruleStarts[rule]? with
    | none => exact .of_error rfl trivial
    | some start =>
        refine .bind (.of_ok (t := p) rfl (.bind (.of_ok (newContext_run _ _ _ p) ?_)))
        refine .bind (.of_ok rfl (.bind ((calls start).imp (fun _ _ inv => ?_) fun _ _ _ => trivial)))
        exact .of_ok rfl inv
  rw [parse_eq]
  refine .bind ((enters.and keeps).imp ?_ fun _ _ _ => trivial)
  rintro root q ⟨⟨-, start, starts, -, acts⟩, inv⟩
  exact h.visitStates confined (Parser.stands_entered confined inside starts acts) root u.fuel inv

end Parsing

end AdaptiveLL
