import AdaptiveLL.Proofs.Parser.Effect
/-!
The moves of a parser that enter and leave no rule, one by one: questions about the input and
the network, reports, and the consumption of tokens.
-/
namespace AdaptiveLL

variable {σ τ α β : Type} [TokenSource σ]

namespace Parser

variable {u : ParserSetup τ} {p p' p'' : Parser σ τ}

/-- The token under the cursor. -/
def current? (p : Parser σ τ) : Option Token :=
  (p.input.lookahead? 1).1

/-- The token that a parser takes for the current one. -/
def currentToken (p : Parser σ τ) : Token :=
  p.current?.getD (.endOfInput none 0 0 0)

/-- The input once the current token has been passed. -/
def behind (p : Parser σ τ) : TokenStream σ :=
  if p.currentToken.isEof then p.input.start else p.input.consume

def withInput (p : Parser σ τ) (input : TokenStream σ) : Parser σ τ :=
  { p with simulation := { p.simulation with input } }

/-- The current token is the one that a started stream has at its index. -/
theorem current?_eq (p : Parser σ τ) :
    p.current? = p.input.start.tokens[p.input.start.index]? :=
  congrArg Prod.fst p.input.lookahead?_one

/-- A stream that is in its place has a current token. -/
theorem currentToken_of_placed (placed : p.input.Placed) :
    p.current? = some p.currentToken := by
  obtain ⟨t, here⟩ := placed.current
  rw [currentToken, current?_eq, here, Option.getD_some]

theorem currentToken_of_start {q : Parser σ τ} (h : q.input = p.input.start) :
    q.currentToken = p.currentToken := by
  rw [currentToken, currentToken, current?_eq, current?_eq, h, TokenStream.start_start]

/-- The current token comes from the stream, so it has an index. -/
theorem index_currentToken (placed : p.input.Placed) : p.currentToken.index ≠ none := by
  have here := (current?_eq p).symm.trans (currentToken_of_placed placed)
  simp [(p.input.start_passes.placed placed).place here]

/-- Where the stream is in its place, going behind the current token is consuming it. -/
theorem behind_of_placed (placed : p.input.Placed) : p.behind = p.input.consume := by
  unfold behind
  split
  case isTrue eof =>
      have here := (current?_eq p).symm.trans (currentToken_of_placed placed)
      exact (TokenStream.consume_eof here eof).symm
  case isFalse => rfl

/-- The type of the current token. -/
def currentType (p : Parser σ τ) : Symbol :=
  (p.current?.map Token.type).getD Symbol.invalid

theorem currentType_of_placed (placed : p.input.Placed) : p.currentType = p.currentToken.type := by
  rw [currentType, currentToken_of_placed placed]
  rfl

omit [TokenSource σ] in
@[simp] theorem input_withInput (input : TokenStream σ) : (p.withInput input).input = input := rfl

/-- Only the input has been looked at. -/
def Looks (p p' : Parser σ τ) : Prop :=
  ∃ input, p.input.Passes input [] ∧ p' = p.withInput input

namespace Looks

theorem refl (p : Parser σ τ) : Looks p p := ⟨p.input, .refl _, rfl⟩

theorem trans (first : Looks p p') (second : Looks p' p'') : Looks p p'' := by
  obtain ⟨input, passes, rfl⟩ := first
  obtain ⟨input', passes', rfl⟩ := second
  exact ⟨input', passes.trans passes', rfl⟩

theorem recovery (h : Looks p p') : p'.recovery = p.recovery := by
  obtain ⟨input, -, rfl⟩ := h
  rfl

theorem acts (h : Looks p p') : Acts u p p' [] := by
  obtain ⟨input, passes, rfl⟩ := h
  exact .of_simulation passes rfl

end Looks

end Parser

open AdaptiveLL.Parser (Acts Fails Looks)

/-- A question of a parser, which looks at the input alone. -/
def Asks (x : Parsing σ τ α) (p : Parser σ τ) (Answer : α → Parser σ τ → Prop) : Prop :=
  x.Ensures p (fun a p' => Looks p p' ∧ Answer a p') fun e p' => Looks p p' ∧ ∃ f, e = .fault f

namespace Asks

variable {u : ParserSetup τ} {N R : Prop} {x : Parsing σ τ α} {p p' : Parser σ τ} {a : α}
  {Answer Answer' : α → Parser σ τ → Prop} {Result : β → Parser σ τ → Prop}
  {f : α → Parsing σ τ β}

theorem pure (h : Answer a p) : Asks (Pure.pure a) p Answer :=
  ⟨.refl p, h⟩

theorem imp (h : Asks x p Answer) (weaker : ∀ a p', Looks p p' → Answer a p' → Answer' a p') :
    Asks x p Answer' :=
  Step.Ensures.imp h (fun a p' ⟨looks, holds⟩ => ⟨looks, weaker a p' looks holds⟩) fun _ _ => id

theorem bind (h : Asks x p fun a p' => Asks (f a) p' Result) : Asks (x >>= f) p Result := by
  refine Step.Ensures.bind (Step.Ensures.imp h ?_ fun _ _ => id)
  rintro a p' ⟨looks, rest⟩
  refine Step.Ensures.imp rest ?_ ?_
  · exact fun b p'' ⟨looks', holds⟩ => ⟨looks.trans looks', holds⟩
  · exact fun e p'' ⟨looks', fault⟩ => ⟨looks.trans looks', fault⟩

/-- A first part whose outcome is known. -/
theorem step (run : x.run p = (.ok a, p')) (looks : Looks p p') (rest : Asks (f a) p' Result) :
    Asks (x >>= f) p Result :=
  bind (Step.Ensures.of_ok run ⟨looks, rest⟩)

theorem ofQuestion {answer : Except Fault α} (h : ∀ a, answer = .ok a → Answer a p) :
    Asks (Step.ofQuestion answer) p Answer := by
  cases answer with
  | ok a => exact pure (h a rfl)
  | error fault => exact Step.Ensures.of_error rfl ⟨.refl p, fault, rfl⟩

theorem foldlM {f : β → α → Parsing σ τ β} {xs : List α} {b : β}
    (h : ∀ b x p, Asks (f b x) p fun _ _ => True) : Asks (xs.foldlM f b) p fun _ _ => True := by
  induction xs generalizing b p with
  | nil => exact pure trivial
  | cons x xs ih =>
      rw [List.foldlM_cons]
      exact bind ((h b x p).imp fun _ _ _ _ => ih)

theorem onInput {f : TokenStream σ → α × TokenStream σ}
    (passes : p.input.Passes (f p.input).2 [])
    (h : Answer (f p.input).1 (p.withInput (f p.input).2)) : Asks (Parsing.onInput f) p Answer :=
  Step.Ensures.of_ok rfl ⟨⟨_, passes, rfl⟩, h⟩

/-- Who only asks does nothing to the tree. -/
theorem does (h : Asks x p Answer) :
    Does u N R x p fun a p' leaves => leaves = [] ∧ Answer a p' := by
  refine Step.Ensures.imp h ?_ ?_
  · exact fun a p' ⟨looks, holds⟩ => ⟨[], looks.acts, rfl, holds⟩
  · rintro e p' ⟨looks, fault, rfl⟩
    exact ⟨(looks.acts (u := u)).toLasts, by simp, by simp⟩

end Asks

/-- A question may come before what a step does. -/
theorem Does.ask {u : ParserSetup τ} {N R : Prop} {x : Parsing σ τ α} {p : Parser σ τ}
    {f : α → Parsing σ τ β} {Result : β → Parser σ τ → List Leaf → Prop}
    (h : Asks x p fun a p' => Does u N R (f a) p' Result) : Does u N R (x >>= f) p Result :=
  .query h.does

namespace Parsing

variable {u : ParserSetup τ} {N R : Prop} {p : Parser σ τ}

theorem lookahead_asks (k : Int) {Answer : Symbol → Parser σ τ → Prop}
    (h : Answer (p.input.lookahead k).1 (p.withInput (p.input.lookahead k).2)) :
    Asks (lookahead k) p Answer :=
  .onInput (p.input.lookahead_passes k) h

/-- The next symbol is the type of the current token. -/
theorem lookahead_one_asks {Answer : Symbol → Parser σ τ → Prop}
    (h : Answer p.currentType (p.withInput p.input.start)) : Asks (lookahead 1) p Answer := by
  refine lookahead_asks 1 ?_
  rw [TokenStream.lookahead, TokenStream.lookahead?_one, ← p.current?_eq]
  exact h

theorem currentToken_run (p : Parser σ τ) :
    (currentToken : Parsing σ τ Token).run p = (.ok p.currentToken, p.withInput p.input.start) := by
  change (Except.ok p.currentToken, p.withInput (p.input.lookahead? 1).2) = _
  rw [TokenStream.lookahead?_one]

theorem currentToken_asks {Answer : Token → Parser σ τ → Prop}
    (h : Answer p.currentToken (p.withInput p.input.start)) : Asks currentToken p Answer :=
  Step.Ensures.of_ok (currentToken_run p) ⟨⟨_, p.input.start_passes, rfl⟩, h⟩

theorem previousToken_asks {Answer : Option Token → Parser σ τ → Prop}
    (h : ∀ t p', Looks p p' → Answer t p') : Asks previousToken p Answer :=
  .onInput (p.input.lookahead?_passes (-1)) (h _ _ ⟨_, p.input.lookahead?_passes (-1), rfl⟩)

theorem index_asks {Answer : Nat → Parser σ τ → Prop} (h : Answer p.input.index p) :
    Asks index p Answer :=
  .step rfl (.refl p) (.pure h)

theorem isRecovering_asks {Answer : Bool → Parser σ τ → Prop} (h : Answer p.recovery.active p) :
    Asks isRecovering p Answer :=
  .step rfl (.refl p) (.pure h)

theorem expectedTokens_asks {Answer : IntervalSet → Parser σ τ → Prop}
    (h : ∀ set, u.grammar.network.expectedTokens p.state p.invokingStates = .ok set →
      Answer set p) : Asks (expectedTokens u) p Answer :=
  .step rfl (.refl p) (.ofQuestion h)

theorem mismatch_asks (state : Nat) (node : Option NodeId)
    {Answer : RecognitionError → Parser σ τ → Prop} (h : ∀ e p', Looks p p' → Answer e p') :
    Asks (mismatch u state node) p Answer := by
  refine .step rfl (.refl p) (.bind (.ofQuestion fun expected _ => ?_))
  exact .bind (currentToken_asks (.pure (h _ _ ⟨_, p.input.start_passes, rfl⟩)))

theorem failedPredicate_asks (rule : Nat) (i : Option Nat) (text : String)
    {Answer : RecognitionError → Parser σ τ → Prop} (h : ∀ e p', Looks p p' → Answer e p') :
    Asks (failedPredicate rule i text) p Answer :=
  .step rfl (.refl p) (.bind (currentToken_asks (.pure
    (h _ _ ⟨_, p.input.start_passes, rfl⟩))))

theorem describe_asks (e : RecognitionError) {Answer : String → Parser σ τ → Prop}
    (h : ∀ text p', Looks p p' → Answer text p') : Asks (describe u e) p Answer := by
  unfold describe
  cases e.kind with
  | noViableAlt start deadEnd =>
      dsimp -zeta only
      extract_lets answer first last
      have answers (text : String) (p' : Parser σ τ) (looks : Looks p p') :
          Asks (answer text) p' Answer := .pure (h _ _ looks)
      split
      · exact .step rfl (.refl p) (answers _ _ (.refl p))
      · have passes := p.input.textRange_passes first (last + 1)
        exact .bind (.onInput passes (.bind (.pure (answers _ _ ⟨_, passes, rfl⟩))))
  | inputMismatch =>
      dsimp -zeta only
      extract_lets answer
      have answers (set : IntervalSet) : Asks (answer set) p Answer := .pure (h _ _ (.refl p))
      split
      · exact .step rfl (.refl p) (answers _)
      · exact .bind (expectedTokens_asks fun set _ => .bind (.pure (answers set)))
  | failedPredicate => exact .pure (h _ _ (.refl p))
  | noToken => exact .pure (h _ _ (.refl p))

/-- What a report leaves behind, from where it is made. -/
def Reports (x : Parsing σ τ Unit) (p : Parser σ τ) : Prop :=
  x.Ensures p
    (fun _ p' => ∃ seen report, Looks p seen ∧ p' = { seen with
      errorCount := seen.errorCount + 1
      simulation := seen.simulation.report report
      recovery := { seen.recovery with log := seen.recovery.log.push .reported } })
    fun e p' => Looks p p' ∧ ∃ f, e = .fault f

theorem Reports.reportMistake (token : Option Token) (message : String)
    (error : Option RecognitionError) : Reports (reportMistake token message error) p :=
  Step.Ensures.of_ok rfl ⟨p, _, .refl p, rfl⟩

theorem Reports.ask {x : Parsing σ τ α} {f : α → Parsing σ τ Unit}
    (h : Asks x p fun a p' => Reports (f a) p') : Reports (x >>= f) p := by
  refine Step.Ensures.bind (Step.Ensures.imp h ?_ fun _ _ => id)
  rintro a p' ⟨looks, rest⟩
  refine Step.Ensures.imp rest ?_ ?_
  · rintro _ p'' ⟨seen, report, looks', rfl⟩
    exact ⟨seen, report, looks.trans looks', rfl⟩
  · exact fun e p'' ⟨looks', fault⟩ => ⟨looks.trans looks', fault⟩

/-- A report counts an error and begins recovery, unless recovery is going on already. -/
theorem report_does {x : Parsing σ τ Unit} (h : ∀ p, Reports x p) :
    Does u N R
      (do
        if ← isRecovering then return
        beginRecovery
        x)
      p fun _ p' leaves => leaves = [] ∧ p'.recovery.active = true := by
  refine .ask (isRecovering_asks (.ite (fun active => .pure ⟨rfl, active⟩) fun _ => ?_))
  let alarmed := { p with recovery := { p.recovery with active := true } }
  refine Step.Ensures.bind (.of_ok (t := alarmed) rfl (Step.Ensures.imp (h alarmed) ?_ ?_))
  · rintro _ _ ⟨seen, report, ⟨input, passes, rfl⟩, rfl⟩
    refine ⟨[], ?_, rfl, rfl⟩
    refine { Acts.refl u p with
      input := passes.toLeads
      starts := rfl
      within := fun _ _ => id
      prescription := id
      errors := Nat.le_succ _
      calm := fun same => ?_
      passes }
    exact absurd same (Nat.succ_ne_self _)
  · rintro e _ ⟨⟨input, passes, rfl⟩, fault, rfl⟩
    refine ⟨⟨passes.toLeads, rfl, fun _ _ => id, id⟩, by simp, by simp⟩

/-- Behind a report the parser is recovering. -/
theorem reportError_does (e : RecognitionError) :
    Does u N R (reportError u e) p fun _ p' leaves => leaves = [] ∧ p'.recovery.active = true :=
  report_does fun _ => .ask (describe_asks e fun _ _ _ => .reportMistake _ _ _)

theorem reportUnwanted_does :
    Does u N R (reportUnwanted u) p fun _ p' leaves => leaves = [] ∧ p'.recovery.active = true :=
  report_does fun _ => .ask (currentToken_asks
    (.ask (expectedTokens_asks fun _ _ => .reportMistake _ _ _)))

theorem reportMissing_does :
    Does u N R (reportMissing u) p fun _ p' leaves => leaves = [] ∧ p'.recovery.active = true :=
  report_does fun _ => .ask (currentToken_asks
    (.ask (expectedTokens_asks fun _ _ => .reportMistake _ _ _)))

/-- Put a token that has been consumed under the current context, and tell the listeners. -/
def putToken (u : ParserSetup τ) (token : Token) : Parsing σ τ Token := do
  modify fun p => { p with consumed := p.consumed.push token }
  let build := u.options.buildTrees
  let p ← get
  match p.context with
  | none => return token
  | some context =>
      if !build && u.host.listeners.isEmpty then return token
      let isError := p.recovery.active
      let (id, tree) :=
        if build then p.tree.addToken context token isError
        else p.tree.addDetached context token isError
      set { p with tree }
      notify u (if isError then .error id else .terminal id)
      return token

/-- The end of the input is put into the tree, but the stream stays in front of it. -/
theorem consume_eq (u : ParserSetup τ) :
    (consume u : Parsing σ τ Token) = currentToken >>= fun token =>
      if token.isEof then putToken u token
      else onInput (fun input => ((), input.consume)) >>= fun _ => putToken u token := by
  unfold consume
  congr
  funext token
  cases token.isEof <;> rfl

/-- The tree with a token put under the current context, if there is one. Without trees, the token
is put nowhere if nobody listens, and is not a child if somebody does. -/
inductive Puts (u : ParserSetup τ) (p : Parser σ τ) (token : Token) : ParseTree → Prop
  | nowhere (outside : u.options.buildTrees = true → p.context = none) : Puts u p token p.tree
  | child {c : NodeId} (here : p.context = some c) :
      Puts u p token (p.tree.addToken c token p.recovery.active).2
  | detached {c : NodeId} (here : p.context = some c) (build : u.options.buildTrees = false) :
      Puts u p token (p.tree.addDetached c token p.recovery.active).2

namespace Puts

variable {token : Token} {t : ParseTree}

omit [TokenSource σ] in
/-- The nodes that are there stay as they are, but for a new last child. -/
theorem keeps (h : Puts u p token t) : p.tree.Keeps t := by
  cases h with
  | nowhere => exact .refl _
  | child => exact .addToken _ _ _ _
  | detached => exact .addDetached _ _ _ _

omit [TokenSource σ] in
/-- With trees, a leaf for the token is put below the current context. -/
theorem grafts (h : Puts u p token t) (build : u.options.buildTrees = true) :
    t.outline = p.tree.outline.graft p.context [⟨token, p.recovery.active⟩] := by
  cases h with
  | nowhere outside => rw [outside build, ParseTree.graft]
  | child here =>
      rw [here]
      exact ParseTree.outline_addToken _ _ _ _
  | detached _ unbuilt =>
      rw [build] at unbuilt
      cases unbuilt

end Puts

omit [TokenSource σ] in
/-- The token is put into the tree and noted, and the listeners are told. -/
theorem putToken_run (token : Token) (p : Parser σ τ) :
    ∃ tree host, (putToken u token).run p =
        (.ok token, { p with
          tree, consumed := p.consumed.push token, simulation := { p.simulation with host } }) ∧
      Puts u p token tree := by
  obtain here | ⟨context, here⟩ := Option.eq_none_or_eq_some p.context
  · have run : (putToken u token).run p =
        (.ok token, { p with consumed := p.consumed.push token }) := by
      simp [putToken, Step.run_bind, here]
    exact ⟨p.tree, p.simulation.host, run, .nowhere fun _ => here⟩
  let event := if p.recovery.active then TreeEvent.error p.tree.size else .terminal p.tree.size
  let told (tree : ParseTree) :=
    u.host.listeners.foldl (fun host l => l event tree host) p.simulation.host
  cases build : u.options.buildTrees with
  | true =>
      refine ⟨_, told (p.tree.addToken context token p.recovery.active).2, ?_, .child here⟩
      simp only [putToken, Step.run_bind, Step.run_modify, Step.run_get, here, build]
      rfl
  | false =>
      cases listeners : u.host.listeners.isEmpty with
      | true =>
          have run : (putToken u token).run p =
              (.ok token, { p with consumed := p.consumed.push token }) := by
            simp [putToken, Step.run_bind, here, build, listeners]
          exact ⟨p.tree, p.simulation.host, run, .nowhere (by simp [build])⟩
      | false =>
          refine ⟨_, told (p.tree.addDetached context token p.recovery.active).2, ?_,
            .detached here build⟩
          simp only [putToken, Step.run_bind, Step.run_modify, Step.run_get, here, build, listeners]
          rfl

theorem consume_run (p : Parser σ τ) :
    (consume u).run p = (putToken u p.currentToken).run (p.withInput p.behind) := by
  rw [consume_eq, Step.run_bind_ok (currentToken_run p), Parser.behind]
  cases p.currentToken.isEof with
  | true => rfl
  | false =>
      change (putToken u p.currentToken).run (p.withInput p.input.start.consume) = _
      rw [TokenStream.consume_start]
      rfl

/-- Going behind the current token passes it, unless it is the end of the input. -/
theorem behind_passes (p : Parser σ τ) (isError : Bool) :
    p.input.Passes p.behind ([⟨p.currentToken, isError⟩].filterMap Leaf.passed?) := by
  cases eof : p.currentToken.isEof with
  | true =>
      have passed : [Leaf.mk p.currentToken isError].filterMap Leaf.passed? = [] := by
        simp [Leaf.passed?, eof]
      rw [Parser.behind, if_pos eof, passed]
      exact p.input.start_passes
  | false =>
      have here : p.input.start.tokens[p.input.start.index]? = some p.currentToken := by
        rw [← p.current?_eq]
        cases current : p.current? with
        | some t => rw [Parser.currentToken, current, Option.getD_some]
        | none => simp [Parser.currentToken, current, Token.endOfInput, Token.isEof] at eof
      rw [Parser.behind, if_neg (by simp [eof])]
      refine (TokenStream.consume_passes here eof).congr fun sound => ?_
      have place := (p.input.start_passes.sound sound).place here
      simp [Leaf.passed?, eof, place]

/-- The current token is passed, unless it is the end of the input, and put under the current
context. -/
theorem consume_does : Does u N R (consume u) p fun token p' leaves =>
    token = p.currentToken ∧ leaves = [⟨token, p.recovery.active⟩] ∧ p'.recovery = p.recovery ∧
      p'.input = p.behind := by
  obtain ⟨tree, host, run, puts⟩ :=
    putToken_run (u := u) p.currentToken (p.withInput p.behind)
  rw [← consume_run] at run
  have passes := behind_passes p p.recovery.active
  refine .of_ok (l := [⟨p.currentToken, p.recovery.active⟩]) run ?_ ⟨rfl, rfl, rfl, rfl⟩
  exact { Acts.refl u p with
    input := passes.toLeads
    starts := rfl
    within := fun _ _ => id
    prescription := id
    keeps := puts.keeps
    grafts := puts.grafts
    calm := fun _ idle => ⟨idle, by simpa using idle⟩
    passes }

end Parsing

end AdaptiveLL
