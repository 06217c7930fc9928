import AdaptiveLL.Proofs.Network.Expected
import AdaptiveLL.Proofs.Parser.Reporting
import AdaptiveLL.Proofs.Parser.Yield
/-!
Where a mismatch is said to be. A decision whose lookahead does not hold the current token, but
whose rule can end, leaves a mark of its state and context; a later mismatch is reported there, with
the tokens that were expected there (`Parsing.mismatch_marked`). So the report may be about a place
that the parser has left behind (`Parsing.parse_lagRules`).
-/
namespace AdaptiveLL

open AdaptiveLL.Parser (Looks)

variable {σ τ α β : Type}

/-- A state of the network with a context. -/
abbrev Spot := Nat × Option NodeId

namespace Parser

def spot (p : Parser σ τ) : Spot :=
  (p.state, p.context)

/-- The place where a later mismatch is reported. -/
def mark (p : Parser σ τ) : Option Spot :=
  p.recovery.endedAt

end Parser

namespace Parsing

variable {u : ParserSetup τ} {spot : Spot} {mark : Option Spot}

/-- The step does not touch the mark, and makes no recognition error. -/
abbrev KeepsMark (mark : Option Spot) (x : Parsing σ τ α) : Prop :=
  Step.Upholds (fun p => p.mark = mark) (fun _ => False) x

/-- Besides, the parser stays where it is. -/
abbrev Stays (spot : Spot) (mark : Option Spot) (x : Parsing σ τ α) : Prop :=
  Step.Upholds (fun p => p.spot = spot ∧ p.mark = mark) (fun _ => False) x

/-- The same, whatever error the step may make. -/
abbrev Remains (spot : Spot) (mark : Option Spot) (x : Parsing σ τ α) : Prop :=
  Step.Upholds (fun p => p.spot = spot ∧ p.mark = mark) (fun _ => True) x

theorem Stays.remains {x : Parsing σ τ α} (h : Stays spot mark x) : Remains spot mark x :=
  fun p inv => ⟨(h p inv).1, fun _ _ => trivial⟩

theorem Remains.ensures {x : Parsing σ τ α} {p : Parser σ τ} (h : Remains spot mark x)
    (here : p.spot = spot ∧ p.mark = mark) :
    x.Ensures p (fun _ p' => p'.spot = spot ∧ p'.mark = mark) fun e p' =>
      (p'.spot = spot ∧ p'.mark = mark) ∧ ∀ error, e = .recoverable error → True :=
  Step.Upholds.ensures h here

theorem Stays.keepsMark {x : Parsing σ τ α} (h : ∀ spot, Stays spot mark x) : KeepsMark mark x :=
  fun p inv => ⟨(h p.spot p ⟨rfl, inv⟩).1.2, (h p.spot p ⟨rfl, inv⟩).2⟩

section Stays

theorem modifyTree_stays (f : ParseTree → ParseTree) :
    Stays spot mark (modifyTree f : Parsing σ τ Unit) :=
  .modify fun _ inv => inv

theorem modifyHost_stays (f : ParseTree → τ → τ) :
    Stays spot mark (modifyHost f : Parsing σ τ Unit) :=
  .modify fun _ inv => inv

theorem ask_stays (rule index : Nat) : Stays spot mark (ask u rule index : Parsing σ τ Bool) :=
  .bind_get fun _ inv => .bind (.set inv) fun _ => .pure _

theorem act_stays (rule index : Nat) : Stays spot mark (act u rule index : Parsing σ τ Unit) :=
  .bind .get fun _ => modifyHost_stays _

theorem prescribed?_stays (decision place : Nat) :
    Stays spot mark (prescribed? decision place : Parsing σ τ (Option Nat)) := by
  refine .bind .get fun p => ?_
  split
  · exact .ite (.bind (.modify fun _ inv => inv) fun _ => .pure _) (.pure _)
  · exact .pure _

/-- To take an alternative in the current context changes the tree only. -/
theorem takeAlternative_stays {context alt : Nat} (here : spot.2 = some context) :
    Stays spot mark (takeAlternative u context alt : Parsing σ τ Unit) := by
  have stays : Stays spot mark (setContext (some context) : Parsing σ τ Unit) :=
    .modify fun p inv => ⟨Prod.ext (congrArg Prod.fst inv.1 : p.state = spot.1) here.symm, inv.2⟩
  refine .bind (modifyTree_stays _) fun _ => .bind .get fun p => .ite ?_ stays
  split
  · exact .bind (modifyTree_stays _) fun _ => stays
  · exact stays

theorem onInput_stays (f : TokenStream σ → α × TokenStream σ) :
    Stays spot mark (onInput f : Parsing σ τ α) :=
  .bind_get fun _ inv => .bind (.set inv) fun _ => .pure _

theorem endRecovery_stays : Stays spot mark (endRecovery : Parsing σ τ Unit) :=
  .modify fun _ inv => inv

theorem report_stays {x : Parsing σ τ Unit} (h : Stays spot mark x) :
    Stays spot mark (guarded x) :=
  .bind (.bind .get fun _ => .pure _) fun _ => .ite (.pure _)
    (.bind (.modify fun _ inv => inv) fun _ => h)

theorem markContexts_stays (error : RecognitionError) :
    Stays spot mark (markContexts error : Parsing σ τ Unit) :=
  .modify fun _ inv => inv

variable [TokenSource σ]

/-- A question to the input or the network. -/
theorem stays_of_asks {x : Parsing σ τ α} (h : ∀ p, Asks x p fun _ _ => True) :
    Stays spot mark x := by
  intro p inv
  have asks := h p
  unfold Asks Step.Ensures at asks
  have same {p' : Parser σ τ} (looks : Looks p p') : p'.spot = spot ∧ p'.mark = mark := by
    obtain ⟨input, -, rfl⟩ := looks
    exact inv
  split at asks <;> rename_i run <;> rw [run]
  · exact ⟨same asks.1, by simp⟩
  · obtain ⟨looks, fault, rfl⟩ := asks
    exact ⟨same looks, by simp⟩

theorem currentToken_stays : Stays spot mark (currentToken : Parsing σ τ Token) :=
  stays_of_asks fun _ => currentToken_asks trivial

theorem expectedTokens_stays : Stays spot mark (expectedTokens u : Parsing σ τ IntervalSet) :=
  stays_of_asks fun _ => expectedTokens_asks fun _ _ => trivial

theorem followers_stays : Stays spot mark (followers u : Parsing σ τ IntervalSet) :=
  stays_of_asks fun _ => followers_asks

theorem consume_stays : Stays spot mark (consume u : Parsing σ τ Token) := by
  rw [consume_eq]
  refine .bind currentToken_stays fun token => ?_
  have puts : Stays spot mark (putToken u token : Parsing σ τ Token) := by
    refine .bind (.modify fun _ inv => inv) fun _ => .bind_get fun p inv => ?_
    split
    · exact .pure _
    · refine .ite (.pure _) (.bind (.set inv) fun _ => ?_)
      exact .bind (modifyHost_stays _) fun _ => .pure _
  exact .ite puts (.bind (onInput_stays _) fun _ => puts)

theorem reportError_stays (e : RecognitionError) :
    Stays spot mark (reportError u e : Parsing σ τ Unit) :=
  report_stays (.bind (stays_of_asks fun _ => describe_asks e fun _ _ _ => trivial) fun _ =>
    .modify fun _ inv => inv)

theorem reportUnwanted_stays : Stays spot mark (reportUnwanted u : Parsing σ τ Unit) :=
  report_stays (.bind currentToken_stays fun _ => .bind expectedTokens_stays fun _ =>
    .modify fun _ inv => inv)

theorem reportMissing_stays : Stays spot mark (reportMissing u : Parsing σ τ Unit) :=
  report_stays (.bind currentToken_stays fun _ => .bind expectedTokens_stays fun _ =>
    .modify fun _ inv => inv)

theorem deleteToken_stays : Stays spot mark (deleteToken u : Parsing σ τ (Option Token)) := by
  refine .bind (onInput_stays _) fun next => .bind expectedTokens_stays fun expected => ?_
  refine .ite (.pure _) (.bind reportUnwanted_stays fun _ => .bind consume_stays fun _ => ?_)
  exact .bind currentToken_stays fun _ => .bind endRecovery_stays fun _ => .pure _

theorem insertToken_stays : Stays spot mark (insertToken u : Parsing σ τ Bool) := by
  refine .bind (onInput_stays _) fun current => .bind .get fun p => .bind (.ofQuestion _) fun s => ?_
  split
  · exact .pure _
  · refine .bind (.ofQuestion _) fun following => .ite ?_ (.pure _)
    exact .bind reportMissing_stays fun _ => .pure _

theorem missingToken_stays : Stays spot mark (missingToken u : Parsing σ τ Token) :=
  stays_of_asks fun _ => missingToken_asks.imp fun _ _ _ _ => trivial

theorem consumeUntil_stays (stop : IntervalSet) (fuel : Nat) :
    Stays spot mark (consumeUntil u stop fuel : Parsing σ τ Unit) := by
  induction fuel with
  | zero => exact .throw (by simp)
  | succ fuel ih =>
      exact .bind (onInput_stays _) fun _ => .ite (.pure _) (.bind consume_stays fun _ => ih)

theorem recover_stays (error : RecognitionError) :
    Stays spot mark (recover u error : Parsing σ τ Unit) := by
  unfold recover
  split
  case h_1 =>
      refine .bind (.bind .get fun _ => .pure _) fun here => .bind .get fun p => ?_
      have resyncs : Stays spot mark (do
          let here ← index
          modifyRecovery fun r =>
            { r with
              lastIndex := some here
              lastStates :=
                if r.lastStates.contains p.state then r.lastStates else p.state :: r.lastStates }
          consumeUntil u (← followers u) u.fuel : Parsing σ τ Unit) := by
        refine .bind (.bind .get fun _ => .pure _) fun _ => .bind (.modify fun _ inv => inv) fun _ => ?_
        exact .bind followers_stays fun _ => consumeUntil_stays _ _
      exact .ite (.bind consume_stays fun _ => resyncs) resyncs
  case h_2 => exact .bind (markContexts_stays _) fun _ => .throw (by simp)

theorem markError_stays (error : RecognitionError) :
    Stays spot mark (markError error : Parsing σ τ Unit) := by
  unfold markError
  extract_lets type place
  have places (anchor : Token) : Stays spot mark (place anchor : Parsing σ τ Unit) := by
    refine .bind .get fun p => ?_
    split
    · exact modifyTree_stays _
    · exact .pure _
  split
  · exact .bind (.pure _) places
  · exact .bind currentToken_stays places

end Stays

section KeepsMark

theorem newContext_keepsMark (parent : Option NodeId) (invoking : Option Nat) (rule : Nat) :
    KeepsMark mark (newContext parent invoking rule : Parsing σ τ NodeId) :=
  .bind_get fun _ inv => .bind (.set inv) fun _ => .pure _

theorem deepen_keepsMark (rule : Nat) : KeepsMark mark (deepen u rule : Parsing σ τ Unit) :=
  .bind_get fun _ inv => .ite (.bind (.throw (by simp)) fun _ => .set inv) (.set inv)

theorem notify_keepsMark (f : ParseTree → τ → τ) :
    KeepsMark mark (modifyHost f : Parsing σ τ Unit) :=
  .modify fun _ inv => inv

theorem modifyTree_keepsMark (f : ParseTree → ParseTree) :
    KeepsMark mark (modifyTree f : Parsing σ τ Unit) :=
  .modify fun _ inv => inv

theorem setState_keepsMark (state : Nat) : KeepsMark mark (setState state : Parsing σ τ Unit) :=
  .modify fun _ inv => inv

theorem onInput_keepsMark (f : TokenStream σ → α × TokenStream σ) :
    KeepsMark mark (onInput f : Parsing σ τ α) :=
  Stays.keepsMark fun _ => onInput_stays f

variable [TokenSource σ]

theorem enterRule_keepsMark (context state rule : Nat) :
    KeepsMark mark (enterRule u context state rule : Parsing σ τ Unit) := by
  refine .bind (deepen_keepsMark rule) fun _ => .bind (setState_keepsMark _) fun _ => ?_
  refine .bind (.modify fun _ inv => inv) fun _ => .bind (onInput_keepsMark _) fun _ => ?_
  exact .bind (modifyTree_keepsMark _) fun _ => notify_keepsMark _

theorem enterRecursiveRule_keepsMark (context state rule : Nat) (precedence : Int) :
    KeepsMark mark (enterRecursiveRule u context state rule precedence : Parsing σ τ Unit) := by
  refine .bind (deepen_keepsMark rule) fun _ => .bind (.modify fun _ inv => inv) fun _ => ?_
  refine .bind (onInput_keepsMark _) fun _ => .bind (modifyTree_keepsMark _) fun _ => ?_
  exact notify_keepsMark _

theorem enterCall_keepsMark (context start rule : Nat) (precedence : Int) :
    KeepsMark mark (enterCall u context start rule precedence : Parsing σ τ Unit) :=
  .ite (.bind (.modify fun _ inv => inv) fun _ => enterRecursiveRule_keepsMark _ _ _ _)
    (enterRule_keepsMark _ _ _)

theorem exitRule_keepsMark : KeepsMark mark (exitRule u : Parsing σ τ Unit) := by
  refine .bind .get fun p => ?_
  split
  · exact .pure _
  · refine .bind .get fun _ => .bind (onInput_keepsMark _) fun _ => ?_
    refine .bind (modifyTree_keepsMark _) fun _ => .bind (notify_keepsMark _) fun _ => ?_
    exact .modify fun _ inv => inv

theorem wrapContext_keepsMark (context state : Nat) :
    KeepsMark mark (wrapContext u context state : Parsing σ τ Unit) := by
  refine .bind .get fun p => ?_
  split
  · exact .pure _
  · refine .bind (onInput_keepsMark _) fun _ => .bind (modifyTree_keepsMark _) fun _ => ?_
    refine .bind (notify_keepsMark _) fun _ => .bind (.modify fun _ inv => inv) fun _ => ?_
    exact notify_keepsMark _

theorem unwrapContexts_keepsMark (parent : Option NodeId) :
    KeepsMark mark (unwrapContexts u parent : Parsing σ τ Unit) := by
  refine .bind (.modify fun _ inv => inv) fun _ => .bind .get fun p => ?_
  split
  · exact .modify fun _ inv => inv
  · refine .bind (onInput_keepsMark _) fun _ => .bind (modifyTree_keepsMark _) fun _ => ?_
    refine .bind .get fun _ => .bind (.forM (fun id => ?_) _) fun _ => .modify fun _ inv => inv
    exact notify_keepsMark _

theorem continueRecursion_keepsMark (s : State) :
    KeepsMark mark (continueRecursion u s : Parsing σ τ Unit) :=
  .bind .get fun _ => .bind (newContext_keepsMark _ _ _) fun _ => .bind (.required _ _) fun _ =>
    wrapContext_keepsMark _ _

theorem visitRuleStop_keepsMark (number : Nat) (s : State) :
    KeepsMark mark (visitRuleStop u number s : Parsing σ τ Unit) := by
  unfold visitRuleStop
  extract_lets n goOn
  have goesOn (x : PUnit) : KeepsMark mark (goOn x) :=
    .bind .get fun _ => .bind (.required _ _) fun _ => setState_keepsMark _
  refine .ite (.bind .get fun p => ?_) (.bind exitRule_keepsMark goesOn)
  split
  · exact .throw (by simp)
  · refine .bind (.modify fun _ inv => inv) fun _ => .bind (unwrapContexts_keepsMark _) fun _ => ?_
    exact .bind (setState_keepsMark _) goesOn

theorem abandonRule_keepsMark (s : State) (error : RecognitionError) :
    KeepsMark mark (abandonRule u s error : Parsing σ τ Unit) := by
  unfold abandonRule
  refine .bind (.modify fun _ inv => inv) fun _ => .bind (.required _ _) fun stop => .bind (setState_keepsMark _) fun _ => .bind .get fun p => ?_
  extract_lets settle
  have settles (x : PUnit) : KeepsMark mark (settle x : Parsing σ τ Unit) :=
    Stays.keepsMark fun spot => .bind (reportError_stays _) fun _ =>
      .bind (.bind .get fun _ => .pure _) fun _ => .bind (recover_stays _) fun _ =>
        .bind (.bind .get fun _ => .pure _) fun _ => .ite (markError_stays _) (.pure _)
  split
  · exact .bind (modifyTree_keepsMark _) settles
  · exact settles ⟨⟩

end KeepsMark

section Reports

variable [TokenSource σ] {p p' : Parser σ τ} {x : Parsing σ τ α} {f : α → Parsing σ τ β}

/-- The error is about the place: it names the state and the context, and the tokens that can come
next there. -/
def About (u : ParserSetup τ) (p : Parser σ τ) (spot : Spot) (e : RecognitionError) : Prop :=
  e.state = some spot.1 ∧ e.node = spot.2 ∧ ∃ set, e.expected = some set ∧
    u.grammar.network.expectedTokens spot.1 (p.tree.invokingStates spot.2) = .ok set

/-- The step does not touch the mark. Where it fails on a mismatch, the error is about the marked
place, or about the place of the parser if there is no mark. -/
def Blames (u : ParserSetup τ) (x : Parsing σ τ α) (p : Parser σ τ) : Prop :=
  x.Ensures p (fun _ p' => p'.mark = p.mark) fun e p' => p'.mark = p.mark ∧
    ∀ error, e = .recoverable error → error.kind = .inputMismatch →
      About u p' (p.mark.getD p.spot) error

namespace Blames

omit [TokenSource σ]

theorem of_keepsMark (h : ∀ mark, KeepsMark mark x) : Blames u x p :=
  ((h p.mark).ensures (s := p) rfl).imp (fun _ _ => id)
    fun _ _ ⟨same, never⟩ => ⟨same, fun error eq => (never error eq).elim⟩

theorem of_stays (h : ∀ spot mark, Stays spot mark x) : Blames u x p :=
  of_keepsMark fun _ => Stays.keepsMark fun _ => h _ _

/-- What is done last makes no recognition error. -/
theorem ending (first : Blames u x p) (rest : ∀ a, KeepsMark p.mark (f a)) :
    Blames u (x >>= f) p := by
  refine Step.Ensures.bind (Step.Ensures.imp first (fun a p' same => ?_) fun _ _ => id)
  exact ((rest a).ensures same).imp (fun _ _ => id)
    fun _ _ ⟨same, never⟩ => ⟨same, fun error eq => (never error eq).elim⟩

/-- While the parser stays where it is, it does not matter what is done first. -/
theorem after (stays : ∀ spot mark, Stays spot mark x)
    (rest : ∀ a p', Blames u (f a) p') : Blames u (x >>= f) p := by
  have first := (stays p.spot p.mark).ensures (s := p) ⟨rfl, rfl⟩
  refine Step.Ensures.bind (first.imp ?_ ?_)
  · rintro a p' ⟨spot, mark⟩
    have rest := rest a p'
    rwa [Blames, spot, mark] at rest
  · exact fun e p' ⟨same, never⟩ => ⟨same.2, fun error eq => (never error eq).elim⟩

end Blames

theorem mismatch_about (spot : Spot) : (mismatch u spot.1 spot.2).Ensures p
    (fun e p' => p'.mark = p.mark ∧ About u p' spot e)
    fun e p' => p'.mark = p.mark ∧ ∃ fault, e = .fault fault := by
  refine .bind (.of_ok (a := p) (t := p) rfl ?_)
  cases answer : u.grammar.network.expectedTokens spot.1 (p.tree.invokingStates spot.2) with
  | error fault => exact .bind (.of_error (by rw [answer]; rfl) ⟨rfl, fault, rfl⟩)
  | ok set =>
      refine .bind (.of_ok (a := set) (t := p) (by rw [answer]; rfl) ?_)
      exact .bind (.of_ok (currentToken_run p) (.of_ok rfl ⟨rfl, rfl, rfl, set, rfl, answer⟩))

/-- A token that cannot be mended is reported at the mark. -/
theorem recoverInline_blames : Blames u (recoverInline u) p := by
  unfold recoverInline
  split
  case h_1 =>
      refine .after (fun _ _ => deleteToken_stays) fun deleted p => ?_
      cases deleted with
      | some matched => exact .of_stays fun _ _ => .bind consume_stays fun _ => .pure _
      | none =>
          refine .after (fun _ _ => insertToken_stays) fun inserted p => ?_
          cases inserted with
          | true => exact .of_stays fun _ _ => missingToken_stays
          | false =>
              refine Step.Ensures.bind (.of_ok (a := p) (t := p) rfl ?_)
              refine .bind ((mismatch_about (u := u) (p.mark.getD p.spot)).imp ?_ ?_)
              · rintro e p' ⟨same, about⟩
                refine .of_error rfl ⟨same, ?_⟩
                rintro _ ⟨⟩ -
                exact about
              · rintro _ p' ⟨same, fault, rfl⟩
                exact ⟨same, by simp⟩
  case h_2 =>
      refine .of_stays fun spot mark => .bind .get fun p => .bind ?_ fun error => ?_
      · exact stays_of_asks fun _ => mismatch_asks _ _ fun _ _ _ => trivial
      · exact .bind (markContexts_stays _) fun _ => .throw (by simp)

theorem matchWhere_blames (accept : Symbol → Bool) : Blames u (matchWhere u accept) p := by
  refine .after (fun _ _ => onInput_stays _) fun current p => ?_
  split
  · exact .of_stays fun _ _ => .bind endRecovery_stays fun _ => consume_stays
  · refine recoverInline_blames.ending fun token => .ite (.bind .get fun q => ?_) (.pure _)
    split
    · exact .bind (modifyTree_keepsMark _) fun _ => .pure _
    · exact .pure _

theorem matchToken_blames (type : Symbol) : Blames u (matchToken u type) p := by
  exact (matchWhere_blames _).ending fun token =>
    .ite (.bind (.modify fun _ inv => inv) fun _ => .pure _) (.pure _)

theorem failedPredicate_blames (rule : Nat) (i : Option Nat) (text : String) :
    Blames u (failedPredicate rule i text >>= fun e => throw (.recoverable e) : Parsing σ τ α) p := by
  simp only [failedPredicate, bind_assoc]
  refine .after (fun _ _ => .get) fun q p => .after (fun _ _ => currentToken_stays) fun token p => ?_
  refine .of_error rfl ⟨rfl, ?_⟩
  rintro _ ⟨⟩ ⟨⟩

/-- A mismatch at an edge is reported at the mark. -/
theorem takeEdge_blames (number : Nat) (s : State) (t : Transition) :
    Blames u (takeEdge u number s t) p := by
  unfold takeEdge
  extract_lets n
  cases t with
  | epsilon target outermost =>
      refine .of_keepsMark fun mark => .bind (.ofQuestion _) fun _ => ?_
      exact .ite (continueRecursion_keepsMark s) (.pure _)
  | atom target label => exact (matchToken_blames _).ending fun _ => .pure _
  | range | set | notSet | wildcard => exact (matchWhere_blames _).ending fun _ => .pure _
  | call target rule precedence follow =>
      refine .of_keepsMark fun mark => .bind (.ofQuestion _) fun callee => .bind .get fun _ => ?_
      exact .bind (newContext_keepsMark _ _ _) fun context => enterCall_keepsMark _ _ _ _
  | predicate target rule index contextual =>
      refine .after (fun _ _ => ask_stays rule index) fun holds p => ?_
      split
      · exact failedPredicate_blames _ _ _
      · exact .of_stays fun _ _ => .pure _
  | precedence target level =>
      refine .after (fun _ _ => .bind .get fun _ => .pure _) fun holds p => ?_
      split
      · exact .after (fun _ _ => .get) fun q p => failedPredicate_blames _ _ _
      · exact .of_stays fun _ _ => .pure _
  | action target rule index contextual =>
      refine .of_stays fun _ _ => ?_
      cases index with
      | some index => exact act_stays rule index
      | none => exact .pure _

end Reports

end Parsing

namespace Parser

variable [TokenSource σ]

/-- The parser is at a decision, and no recovery is going on, so that it looks ahead at what can
follow. -/
structure Checks (u : ParserSetup τ) (p : Parser σ τ) (following : IntervalSet) : Prop where
  repairs : u.options.errorStrategy = .repair
  idle : p.recovery.active = false
  decides : ∃ s, u.grammar.network.states[p.state]? = some s ∧ s.isRuleStop = false ∧
    s.isDecision = true ∧ 1 < s.transitions.length ∧ s.decision.isSome = true
  next : u.grammar.network.nextTokens p.state = .ok following

/-- The parser looks ahead, and the current token can come next. -/
def Fits (u : ParserSetup τ) (p : Parser σ τ) : Prop :=
  ∃ following, p.Checks u following ∧ p.currentType ∈ following

/-- The parser looks ahead, and the current token cannot come next before the end of the rule, which
can be reached. -/
def CanLeave (u : ParserSetup τ) (p : Parser σ τ) : Prop :=
  ∃ following, p.Checks u following ∧ ¬ p.currentType ∈ following ∧ Symbol.epsilon ∈ following

/-- What the visit of a state does to the mark. -/
structure Remarks (u : ParserSetup τ) (p : Parser σ τ) (mark : Option Spot) : Prop where
  fits : p.Fits u → mark = none
  leaves : p.CanLeave u → mark = (p.mark <|> some p.spot)
  others : ¬ p.Fits u → ¬ p.CanLeave u → mark = p.mark

variable {u : ParserSetup τ} {p p' : Parser σ τ} {following following' : IntervalSet}
  {mark : Option Spot} {spot : Spot}

omit [TokenSource σ] in
theorem Checks.unique (h : p.Checks u following) (h' : p.Checks u following') :
    following = following' :=
  Except.ok.inj (h.next.symm.trans h'.next)

theorem CanLeave.not_fits (h : p.CanLeave u) : ¬ p.Fits u := by
  rintro ⟨following', checks', mem⟩
  obtain ⟨following, checks, other, -⟩ := h
  exact other (checks'.unique checks ▸ mem)

/-- Where the parser does not look ahead, the mark stays. -/
theorem Remarks.of_unchecked (unchecked : ∀ following, ¬ p.Checks u following) :
    p.Remarks u p.mark where
  fits := fun ⟨_, checks, _⟩ => absurd checks (unchecked _)
  leaves := fun ⟨_, checks, _⟩ => absurd checks (unchecked _)
  others _ _ := rfl

/-- A mark behind a visit is about its place, or was there before and was not cleared. -/
theorem Remarks.cases (h : p.Remarks u (some spot)) :
    (p.CanLeave u ∧ p.mark = none ∧ spot = p.spot) ∨ (¬ p.Fits u ∧ p.mark = some spot) := by
  by_cases fits : p.Fits u
  · cases h.fits fits
  · by_cases leaves : p.CanLeave u
    · have marked := h.leaves leaves
      cases before : p.mark with
      | none =>
          rw [before] at marked
          exact .inl ⟨leaves, rfl, Option.some.inj marked⟩
      | some spot' =>
          rw [before] at marked
          exact .inr ⟨fits, marked.symm⟩
    · exact .inr ⟨fits, (h.others fits leaves).symm⟩

end Parser

namespace Parsing

open AdaptiveLL.Parser (Remarks)

variable [TokenSource σ] {u : ParserSetup τ} {p p' : Parser σ τ}

/-- The other moves of looking ahead neither touch the mark nor leave the place. -/
theorem resync_remains (s : State) (spot : Spot) (mark : Option Spot) (state : Nat)
    (context : Option NodeId) :
    Remains spot mark
      (match s.kind with
        | .blockStart .. | .starLoopEntry => do
            match ← deleteToken u with
            | some _ => return
            | none => throw (.recoverable (← mismatch u state context))
        | .plusLoopBack | .starLoopBack => do
            reportUnwanted u
            let stop := (← expectedTokens u).union (← followers u)
            consumeUntil u stop u.fuel
        | _ => return : Parsing σ τ Unit) := by
  have deletes {k : Option Token → Parsing σ τ Unit} (goOn : ∀ matched, k (some matched) = pure ())
      (giveUp : k none = do throw (.recoverable (← mismatch u state context))) :
      Remains spot mark (deleteToken u >>= k) := by
    refine .bind (Stays.remains deleteToken_stays) fun deleted => ?_
    cases deleted with
    | some matched => exact goOn matched ▸ .pure _
    | none =>
        rw [giveUp]
        refine .bind (Stays.remains (stays_of_asks fun _ => ?_)) fun _ => .throw fun _ _ => trivial
        exact mismatch_asks _ _ fun _ _ _ => trivial
  have skips : Stays spot mark (do
      reportUnwanted u
      let stop := (← expectedTokens u).union (← followers u)
      consumeUntil u stop u.fuel : Parsing σ τ Unit) :=
    .bind reportUnwanted_stays fun _ => .bind expectedTokens_stays fun _ =>
      .bind followers_stays fun _ => consumeUntil_stays _ _
  split
  · exact deletes (fun _ => rfl) rfl
  · exact deletes (fun _ => rfl) rfl
  · exact skips.remains
  · exact skips.remains
  · exact .pure _

theorem lookahead_one (p : Parser σ τ) : (lookahead 1 : Parsing σ τ Symbol).run p =
    (.ok p.currentType, p.withInput p.input.start) := by
  change (Except.ok (p.input.lookahead 1).1, p.withInput (p.input.lookahead 1).2) = _
  rw [TokenStream.lookahead, TokenStream.lookahead?_one, ← p.current?_eq]
  rfl

/-- Looking ahead remarks on the place of the parser. -/
theorem sync_remarks (decides : ∃ s, u.grammar.network.states[p.state]? = some s ∧
      s.isRuleStop = false ∧ s.isDecision = true ∧ 1 < s.transitions.length ∧
      s.decision.isSome = true) :
    p.Remarks u ((sync u).run p).2.mark ∧ ((sync u).run p).2.spot = p.spot := by
  refine Step.Ensures.state (P := fun p' : Parser σ τ => p.Remarks u p'.mark ∧ p'.spot = p.spot) ?_
  unfold sync
  refine .ite (fun bails => .of_ok rfl ⟨.of_unchecked fun _ checks => ?_, rfl⟩) fun goesOn => ?_
  · cases bails.symm.trans checks.repairs
  have repairs : u.options.errorStrategy = .repair := by
    cases strategy : u.options.errorStrategy with
    | repair => rfl
    | bail => exact absurd strategy goesOn
  refine .bind (.of_ok (a := p.recovery.active) (t := p) rfl (.ite (fun active => ?_) fun idle => ?_))
  · refine .of_ok rfl ⟨.of_unchecked fun _ checks => ?_, rfl⟩
    cases active.symm.trans checks.idle
  refine .bind (.of_ok (a := p) (t := p) rfl ?_)
  refine .bind (.of_ok (lookahead_one p) ?_)
  let q := p.withInput p.input.start
  cases next : u.grammar.network.nextTokens p.state with
  | error fault =>
      have fails : (Step.ofQuestion (.error fault) : Parsing σ τ IntervalSet).run q =
          (.error (.fault fault), q) := rfl
      refine .bind (.of_error fails ?_)
      refine ⟨.of_unchecked fun _ checks => ?_, rfl⟩
      cases next.symm.trans checks.next
  | ok following =>
      refine .bind (.of_ok (a := following) (t := q) rfl ?_)
      have checks : p.Checks u following :=
        ⟨repairs, Bool.eq_false_iff.2 idle, decides, next⟩
      have finds {x : Symbol} : following.contains x = true ↔ x ∈ following :=
        (Network.look_separated next).contains_iff
      refine .ite (fun fits => ?_) fun unfit => .ite (fun ends => ?_) fun endless => ?_
      · have fits : p.Fits u := ⟨following, checks, finds.1 fits⟩
        exact .of_ok rfl ⟨⟨fun _ => rfl, fun leaves => absurd fits leaves.not_fits,
          fun unfit => absurd fits unfit⟩, rfl⟩
      · have leaves : p.CanLeave u := ⟨following, checks, mt finds.2 unfit, finds.1 ends⟩
        exact .of_ok rfl ⟨⟨fun fits => absurd fits leaves.not_fits, fun _ => rfl,
          fun _ stays => absurd leaves stays⟩, rfl⟩
      · have remarks : p.Remarks u p.mark :=
          ⟨fun ⟨_, checks', fits⟩ => absurd (finds.2 (checks'.unique checks ▸ fits)) unfit,
            fun ⟨_, checks', _, ends⟩ => absurd (finds.2 (checks'.unique checks ▸ ends)) endless,
            fun _ _ => rfl⟩
        have settled {p' : Parser σ τ} (same : p'.spot = p.spot ∧ p'.mark = p.mark) :
            p.Remarks u p'.mark ∧ p'.spot = p.spot :=
          ⟨same.2.symm ▸ remarks, same.1⟩
        refine .bind ?_
        cases u.grammar.network.state p.state with
        | error fault => exact .of_error rfl (settled ⟨rfl, rfl⟩)
        | ok s =>
            refine .of_ok rfl ?_
            exact ((resync_remains s p.spot p.mark p.state p.context).ensures (p := q) ⟨rfl, rfl⟩).imp
              (fun _ _ => settled) fun _ _ same => settled same.1

theorem predict_remains (decision : Nat) (node : Option NodeId) (spot : Spot)
    (mark : Option Spot) : Remains spot mark (predict u decision node : Parsing σ τ Nat) :=
  .bind_get fun _ inv => .bind (.set inv) fun _ => .ofOutcome fun _ _ => trivial

omit [TokenSource σ] in
theorem noteAlternative_remains (number alt : Nat) (s : State) (spot : Spot) (mark : Option Spot) :
    Remains spot mark (do
      if isRuleBlock u.grammar.network s number then
        match (← get).context with
        | some context => takeAlternative u context alt
        | none => pure ()
      return alt : Parsing σ τ Nat) := by
  refine .ite (.bind_get fun p same => ?_) (.pure _)
  split
  case h_1 context inside =>
      have there : spot.2 = some context := (congrArg Prod.snd same.1).symm.trans inside
      exact .bind (Stays.remains (takeAlternative_stays there)) fun _ => .pure _
  case h_2 => exact .pure _

/-- A decision remarks on the place of the parser, and leaves it there. -/
theorem choose_remarks {s : State} (here : u.grammar.network.states[p.state]? = some s)
    (going : s.isRuleStop = false) (decides : s.isDecision = true) :
    p.Remarks u ((choose u p.state s).run p).2.mark ∧
      ((choose u p.state s).run p).2.spot = p.spot := by
  refine Step.Ensures.state (P := fun p' : Parser σ τ => p.Remarks u p'.mark ∧ p'.spot = p.spot) ?_
  have unchecked (less : s.transitions.length ≤ 1 ∨ s.decision = none) : p.Remarks u p.mark := by
    refine .of_unchecked fun _ checks => ?_
    obtain ⟨s', here', -, -, several, number⟩ := checks.decides
    obtain rfl := Option.some.inj (here.symm.trans here')
    rcases less with few | none
    · omega
    · simp [none] at number
  unfold choose
  refine .ite (fun few => .of_ok rfl ⟨unchecked (.inl few), rfl⟩) fun several => ?_
  cases number : s.decision with
  | none => exact .bind (.of_error rfl ⟨unchecked (.inr number), rfl⟩)
  | some d =>
      refine .bind (.of_ok (a := d) (t := p) rfl (.bind ?_))
      have remarks := sync_remarks (u := u) (p := p)
        ⟨s, here, going, decides, Nat.lt_of_not_le several, by simp [number]⟩
      obtain ⟨outcome, q, run⟩ : ∃ outcome q, (sync u).run p = (outcome, q) := ⟨_, _, rfl⟩
      rw [run] at remarks
      obtain ⟨remarks, place⟩ := remarks
      cases outcome with
      | error e => exact .of_error run ⟨remarks, place⟩
      | ok _ =>
          have settled (p' : Parser σ τ) (same : p'.spot = p.spot ∧ p'.mark = q.mark) :
              p.Remarks u p'.mark ∧ p'.spot = p.spot := ⟨same.2.symm ▸ remarks, same.1⟩
          refine .of_ok run (Step.Ensures.imp (Remains.ensures ?_ ⟨place, rfl⟩)
            (fun _ => settled) fun _ p' same => settled p' same.1)
          refine .bind (.bind .get fun _ => .pure _) fun i => ?_
          refine .bind (Stays.remains (prescribed?_stays d i)) fun prescribed => ?_
          cases prescribed with
          | some alt => exact noteAlternative_remains _ alt s _ _
          | none =>
              exact .bind .get fun _ => .bind (predict_remains d _ _ _) fun alt =>
                noteAlternative_remains _ alt s _ _

/-- The visit of a state remarks on it, whatever comes of the visit. -/
theorem visitState_remarks {s : State} (here : u.grammar.network.states[p.state]? = some s)
    (going : s.isRuleStop = false) : p.Remarks u ((visitState u p.state s).run p).2.mark := by
  refine Step.Ensures.state (P := fun p' : Parser σ τ => p.Remarks u p'.mark) ?_
  unfold visitState
  extract_lets missing goOn
  have goesOn {alt : Nat} {q : Parser σ τ} (remarks : p.Remarks u q.mark) :
      (goOn alt).Ensures q (fun _ p' => p.Remarks u p'.mark) fun _ p' => p.Remarks u p'.mark := by
    have crossed (t : Transition) : (takeEdge u p.state s t >>= fun _ => setState t.target).Ensures
        q (fun _ p' => p.Remarks u p'.mark) fun _ p' => p.Remarks u p'.mark :=
      .bind (Step.Ensures.imp (takeEdge_blames p.state s t)
        (fun _ _ same => .of_ok rfl (by exact same.symm ▸ remarks))
        fun _ _ same => same.1.symm ▸ remarks)
    refine .bind ?_
    cases (if alt = 0 then none else s.transitions[alt - 1]? : Option Transition) with
    | none => exact .of_error rfl remarks
    | some t => exact .of_ok rfl (crossed t)
  split
  case isTrue decides =>
      have remarks := (choose_remarks here going decides).1
      obtain ⟨outcome, q, run⟩ : ∃ outcome q, (choose u p.state s).run p = (outcome, q) :=
        ⟨_, _, rfl⟩
      rw [run] at remarks
      cases outcome with
      | error e => exact .bind (.of_error run remarks)
      | ok alt => exact .bind (.of_ok run (goesOn remarks))
  case isFalse single =>
      refine .bind (.of_ok rfl (goesOn (.of_unchecked fun _ checks => ?_)))
      obtain ⟨s', here', -, decides, -⟩ := checks.decides
      obtain rfl := Option.some.inj (here.symm.trans here')
      exact single decides

/-- A turn remarks on the place where it begins. -/
theorem turn_remarks {leftRecursive : Bool} {root : NodeId}
    (run : (turn u leftRecursive root).run p = (.ok none, p')) : p.Remarks u p'.mark := by
  suffices (turn u leftRecursive root).Ensures p
      (fun answer p' => answer = none → p.Remarks u p'.mark) fun _ _ => True from
    this.ok run rfl
  obtain missing | ⟨s, here⟩ := Option.eq_none_or_eq_some u.grammar.network.states[p.state]?
  · have fails : (turn u leftRecursive root).run p =
        (.error (.fatal (.network (.invalidState p.state))), p) := by
      simp [turn, Step.run_bind (x := get), missing, Step.required]
    exact .of_error fails trivial
  cases stop : s.isRuleStop with
  | true =>
      have unchecked : p.Remarks u p.mark := by
        refine .of_unchecked fun _ checks => ?_
        obtain ⟨s', here', going, -⟩ := checks.decides
        obtain rfl := Option.some.inj (here.symm.trans here')
        cases stop.symm.trans going
      rw [Step.Ensures, run_turn_stop leftRecursive root here stop]
      obtain ⟨outermost, asked, -⟩ := isOutermost_run p
      refine Step.Ensures.bind (.of_ok asked (.ite (fun _ => ?_) fun _ => ?_))
      · refine .bind ?_
        obtain ⟨outcome, q, concludes⟩ : ∃ outcome q,
          (conclude u leftRecursive root).run p = (outcome, q) := ⟨_, _, rfl⟩
        cases outcome with
        | error e => exact .of_error concludes trivial
        | ok answer => exact .of_ok concludes (.of_ok rfl fun unfinished => by cases unfinished)
      · refine .bind (((visitRuleStop_keepsMark p.state s).ensures (s := p) rfl).imp ?_ ?_)
        · exact fun _ p' same => .of_ok rfl fun _ => same.symm ▸ unchecked
        · exact fun _ _ _ => trivial
  | false =>
      have remarks := visitState_remarks (u := u) here stop
      rw [Step.Ensures, run_turn_going leftRecursive root here stop]
      obtain ⟨outcome, q, visit⟩ : ∃ outcome q, (visitState u p.state s).run p = (outcome, q) :=
        ⟨_, _, rfl⟩
      rw [visit] at remarks ⊢
      cases outcome with
      | ok _ => exact fun _ => remarks
      | error failure =>
          cases failure with
          | recoverable e =>
              refine Step.Ensures.bind (((abandonRule_keepsMark s e).ensures (s := q) rfl).imp ?_ ?_)
              · exact fun _ p' same => .of_ok rfl fun _ => same.symm ▸ remarks
              · exact fun _ _ _ => trivial
          | fatal | fault => trivial

/-- What is the same at every two states that are visited one after the other. -/
structure Succeeds (u : ParserSetup τ) (p p' : Parser σ τ) : Prop where
  remarks : p.Remarks u p'.mark
  index_le : p.input.index ≤ p'.input.index

theorem visitedFrom_head (leftRecursive : Bool) (root : NodeId) (fuel : Nat) :
    ∀ q ∈ (visitedFrom u leftRecursive root fuel p).head?, q = p := by
  cases fuel with
  | zero => simp [visitedFrom]
  | succ fuel => simp [visitedFrom]

theorem visitedFrom_chain (leftRecursive : Bool) (root : NodeId) (fuel : Nat)
    (sound : p.input.Sound) :
    (visitedFrom u leftRecursive root fuel p).IsChain (Succeeds u) := by
  induction fuel generalizing p with
  | zero => exact .nil
  | succ fuel ih =>
      rw [visitedFrom]
      split
      case h_1 p' run =>
          obtain ⟨leaves, turned⟩ := (turn_ensures sound.toPlaced leftRecursive root).ok run
          have sound' : p'.input.Sound := turned.passes.sound sound
          refine List.isChain_cons.2 ⟨fun q mem => ?_, ih sound'⟩
          obtain rfl := visitedFrom_head leftRecursive root fuel q mem
          exact ⟨turn_remarks run, (turned.passes.moves sound).1⟩
      case h_2 => exact List.isChain_singleton p

/-- A mark tells of the last decision at which the rule could end, or of an earlier one if no
decision has cleared the mark in between. -/
theorem exists_leaving {before : List (Parser σ τ)} {spot : Spot}
    (chain : (before ++ [p]).IsChain (Succeeds u))
    (start : ∀ q ∈ (before ++ [p]).head?, q.mark = none) (marked : p.mark = some spot) :
    ∃ earlier q later, before = earlier ++ q :: later ∧ spot = q.spot ∧ q.CanLeave u ∧
      (∀ r ∈ later, ¬ r.Fits u) ∧ q.input.index ≤ p.input.index := by
  induction before using List.reverseRecOn generalizing p with
  | nil =>
      cases (start p rfl).symm.trans marked
  | append_singleton before r ih =>
      rw [List.append_assoc] at chain start
      obtain ⟨chain', link, -⟩ := List.isChain_append_cons_cons.1 chain
      have start' : ∀ q ∈ (before ++ [r]).head?, q.mark = none := by
        intro q mem
        refine start q ?_
        cases before with
        | nil => exact mem
        | cons => exact mem
      rcases Remarks.cases (marked ▸ link.remarks) with ⟨leaves, -, rfl⟩ | ⟨unfit, marked'⟩
      · exact ⟨before, r, [], rfl, rfl, leaves, by simp, link.index_le⟩
      · obtain ⟨earlier, q, later, rfl, place, leaves, unfits, le⟩ := ih chain' start' marked'
        refine ⟨earlier, q, later ++ [r], by simp, place, leaves, ?_, le.trans link.index_le⟩
        exact List.forall_mem_append.2 ⟨unfits, List.forall_mem_singleton.2 unfit⟩

theorem enter_keepsMark (rule : Nat) (mark : Option Spot) :
    KeepsMark mark (enter u rule : Parsing σ τ NodeId) := by
  refine .bind (.required _ _) fun _ => .bind (newContext_keepsMark _ _ _) fun _ => ?_
  refine .bind (.modify fun _ inv => inv) fun _ => ?_
  exact .bind (enterCall_keepsMark _ _ _ _) fun _ => .pure _

/-- The states that a parse visits one after the other, from the first one without a mark. -/
theorem visited_chain {rule : Nat} (sound : p.input.Sound)
    (unmarked : p.mark = none) : (visited u rule p).IsChain (Succeeds u) ∧
      ∀ q ∈ (visited u rule p).head?, q.mark = none := by
  unfold visited
  split
  case h_1 root q run =>
      obtain ⟨-, start, -, -, acts⟩ := (enter_ensures rule).ok run
      have sound' : q.input.Sound := (acts.passes_from p.entered_simulation).sound sound
      have same := ((enter_keepsMark rule p.mark).ensures rfl).ok run
      refine ⟨visitedFrom_chain _ _ _ sound', fun r mem => ?_⟩
      obtain rfl := visitedFrom_head _ _ _ r mem
      exact same.trans unmarked
  case h_2 => exact ⟨.nil, by simp⟩

/-- At the state `s` the parser has chosen the edge `t`, and is `q` by then. -/
def TakesUp (u : ParserSetup τ) (p : Parser σ τ) (s : State) (t : Transition) (q : Parser σ τ) :
    Prop :=
  ∃ alt, (if s.isDecision then choose u p.state s else pure 1 : Parsing σ τ Nat).run p =
    (.ok alt, q) ∧ alt ≠ 0 ∧ s.transitions[alt - 1]? = some t

theorem TakesUp.remarks {s : State} {t : Transition} {q : Parser σ τ} (h : TakesUp u p s t q)
    (here : u.grammar.network.states[p.state]? = some s) (going : s.isRuleStop = false) :
    p.Remarks u q.mark ∧ q.spot = p.spot := by
  obtain ⟨alt, run, -⟩ := h
  cases decides : s.isDecision with
  | true =>
      rw [if_pos decides] at run
      have remarks := choose_remarks (u := u) here going decides
      rwa [run] at remarks
  | false =>
      rw [if_neg (by simp [decides])] at run
      obtain ⟨-, rfl⟩ := Prod.mk.inj run
      refine ⟨.of_unchecked fun _ checks => ?_, rfl⟩
      obtain ⟨s', here', -, decides', -⟩ := checks.decides
      obtain rfl := Option.some.inj (here.symm.trans here')
      cases decides.symm.trans decides'

/-- In every parse, a token that does not match an edge and cannot be mended is reported at the
place of the parser, or at one that it has visited before: a decision where the current token could
not come next but the rule could end, and no decision since has seen a token that could come next.
What is expected is what can come at that place. Tokens may have been consumed since. -/
theorem mismatch_marked {rule : Nat} {before after : List (Parser σ τ)} {p₀ q : Parser σ τ}
    {s : State} {t : Transition} {e : RecognitionError} (sound : p₀.input.Sound)
    (unmarked : p₀.mark = none) (visits : visited u rule p₀ = before ++ p :: after)
    (here : u.grammar.network.states[p.state]? = some s) (going : s.isRuleStop = false)
    (takes : TakesUp u p s t q)
    (fails : (takeEdge u p.state s t).run q = (.error (.recoverable e), p'))
    (mismatched : e.kind = .inputMismatch) :
    ∃ spot, About u p' spot e ∧ (spot = p.spot ∨ ∃ earlier r later, before = earlier ++ r :: later ∧
      spot = r.spot ∧ r.CanLeave u ∧ (∀ r' ∈ later ++ [p], ¬ r'.Fits u) ∧
      r.input.index ≤ p.input.index) := by
  obtain ⟨remarks, place⟩ := takes.remarks here going
  obtain ⟨-, about⟩ := Step.Ensures.error (takeEdge_blames p.state s t) fails
  have about := about e rfl mismatched
  refine ⟨_, about, ?_⟩
  cases marked : q.mark with
  | none => exact .inl (by rw [Option.getD_none, place])
  | some spot =>
      rw [Option.getD_some]
      rcases (marked ▸ remarks).cases with ⟨-, -, rfl⟩ | ⟨unfit, before'⟩
      · exact .inl rfl
      · obtain ⟨chain, start⟩ : (visited u rule p₀).IsChain (Succeeds u) ∧ _ :=
          visited_chain sound unmarked
        rw [visits, List.append_cons] at chain
        rw [visits] at start
        have start' : ∀ r ∈ (before ++ [p]).head?, r.mark = none := by
          intro r mem
          refine start r ?_
          cases before with
          | nil => exact mem
          | cons => exact mem
        obtain ⟨earlier, r, later, rfl, same, leaves, unfits, le⟩ :=
          exists_leaving chain.left_of_append start' before'
        refine .inr ⟨earlier, r, later, rfl, same, leaves, ?_, le⟩
        exact List.forall_mem_append.2 ⟨unfits, List.forall_mem_singleton.2 unfit⟩

/-- The recognition error with which a step fails. -/
def recognitionError? : Except Failure α → Option RecognitionError
  | .error (.recoverable e) => some e
  | _ => none

omit [TokenSource σ] in
theorem recognitionError?_eq_some {x : Parsing σ τ α} {e : RecognitionError}
    (h : recognitionError? (x.run p).1 = some e) : ∃ p', x.run p = (.error (.recoverable e), p') := by
  obtain ⟨result, p', run⟩ : ∃ result p', x.run p = (result, p') := ⟨_, _, rfl⟩
  rw [run] at h
  cases result with
  | ok a => cases h
  | error failure =>
      cases failure with
      | recoverable e' => cases h; exact ⟨p', run⟩
      | fatal | fault => cases h

/-- `s : x B C EOF ; x : A?` -/
def lagRules : RuleSet where
  kind := .parser
  maxToken := 3
  rules := [
    { body := some (.sequence [.ref 1 0, .token 2, .token 3, .token Symbol.eof]) },
    { body := some (.optional true [.token 1]) }]

def lagSetup (n : Network) : ParserSetup Unit where
  grammar := { network := n, names := {} }
  fuel := 100

/-- The parser in front of the tokens `B A A`. -/
def lagParser (n : Network) : Parser TokenList Unit :=
  .ofInput n (.ofNetwork n)
    { source := { tokens := #[{ type := 2 }, { type := 1 }, { type := 1 }] } } ()

/-- The second token, an `A`, does not match. The states that are visited in front of it are not the
one where it is reported. -/
theorem lagRules_mismatch : ∃ n, lagRules.build = .ok n ∧
    ((parse (lagSetup n) 0).run (lagParser n)).1 = .ok 0 ∧
      ∃ p ∈ visited (lagSetup n) 0 (lagParser n), ∃ s t e p', n.states[p.state]? = some s ∧
        s.isRuleStop = false ∧ TakesUp (lagSetup n) p s t p ∧
        (takeEdge (lagSetup n) p.state s t).run p = (.error (.recoverable e), p') ∧
        e.kind = .inputMismatch ∧ p.currentType = 1 ∧ e.expected = some (.ofRange 1 2) ∧
        ∀ r ∈ visited (lagSetup n) 0 (lagParser n),
          r.input.index = p.input.index → e.state ≠ some r.state := by
  have checks : lagRules.build.toOption.any (fun n =>
      decide (((parse (lagSetup n) 0).run (lagParser n)).1 = .ok 0) &&
      (visited (lagSetup n) 0 (lagParser n)).any fun p => n.states[p.state]?.any fun s =>
        !s.isRuleStop && (!s.isDecision && s.transitions[0]?.any fun t =>
          (recognitionError? ((takeEdge (lagSetup n) p.state s t).run p).1).any fun e =>
            decide (e.kind = .inputMismatch ∧ p.currentType = 1 ∧
              e.expected = some (.ofRange 1 2) ∧ ∀ r ∈ visited (lagSetup n) 0 (lagParser n),
                r.input.index = p.input.index → e.state ≠ some r.state))) = true := by
    decide +kernel
  cases built : lagRules.build with
  | error e => simp [built, Except.toOption] at checks
  | ok n =>
      simp only [built, Except.toOption, Option.any_some, Bool.and_eq_true, decide_eq_true_eq,
        List.any_eq_true, Option.any_eq_true, Bool.not_eq_true'] at checks
      obtain ⟨outcome, p, visits, s, here, going, single, t, edge, e, failed, reported⟩ := checks
      have takes : TakesUp (lagSetup n) p s t p := ⟨1, by rw [single]; rfl, Nat.one_ne_zero, edge⟩
      obtain ⟨p', run⟩ := recognitionError?_eq_some failed
      exact ⟨n, rfl, outcome, p, visits, s, t, e, p', here, going, takes, run, reported⟩

/-- The general statement at the second token. -/
theorem mismatch_marked_lagRules : ∃ n, lagRules.build = .ok n ∧
    let u := lagSetup n
    let p₀ := lagParser n
    p₀.input.Sound ∧ p₀.mark = none ∧ ∃ before p after s t q e p',
      visited u 0 p₀ = before ++ p :: after ∧ n.states[p.state]? = some s ∧
      s.isRuleStop = false ∧ TakesUp u p s t q ∧
      (takeEdge u p.state s t).run q = (.error (.recoverable e), p') ∧ e.kind = .inputMismatch ∧
      ∃ spot, About u p' spot e ∧ (spot = p.spot ∨ ∃ earlier r later,
        before = earlier ++ r :: later ∧ spot = r.spot ∧ r.CanLeave u ∧
        (∀ r' ∈ later ++ [p], ¬ r'.Fits u) ∧ r.input.index ≤ p.input.index) := by
  obtain ⟨n, built, -, p, visits, s, t, e, p', here, going, takes, run, mismatched, -⟩ :=
    lagRules_mismatch
  obtain ⟨before, after, split⟩ := List.append_of_mem visits
  have ends : TokenList.Ends { tokens := #[{ type := 2 }, { type := 1 }, { type := 1 }] } := by
    simp [TokenList.Ends]
  have sound : (lagParser n).input.Sound := .ofSource (ends.prompt _)
  exact ⟨n, built, sound, rfl, before, p, after, s, t, p, e, p', split, here, going, takes, run,
    mismatched, mismatch_marked sound rfl split here going takes run mismatched⟩

/-- For the tokens `B A A` the rule `x` is left before the first token, and the second one does not
match `C`. Then `A` and `B` are expected, as they were in the rule `x`: one of them is the token that
does not match. No state that is visited in front of this token is the one that is reported. -/
theorem parse_lagRules : ∃ n, lagRules.build = .ok n ∧
    ((parse (lagSetup n) 0).run (lagParser n)).1 = .ok 0 ∧
      ∃ p ∈ visited (lagSetup n) 0 (lagParser n), ∃ s t q e p', n.states[p.state]? = some s ∧
        TakesUp (lagSetup n) p s t q ∧
        (takeEdge (lagSetup n) p.state s t).run q = (.error (.recoverable e), p') ∧
        e.kind = .inputMismatch ∧ p.currentType = 1 ∧ e.expected = some (.ofRange 1 2) ∧
        ∀ r ∈ visited (lagSetup n) 0 (lagParser n),
          r.input.index = p.input.index → e.state ≠ some r.state := by
  obtain ⟨n, built, outcome, p, visits, s, t, e, p', here, -, takes, run, reported⟩ :=
    lagRules_mismatch
  exact ⟨n, built, outcome, p, visits, s, t, p, e, p', here, takes, run, reported⟩

end Parsing

end AdaptiveLL
