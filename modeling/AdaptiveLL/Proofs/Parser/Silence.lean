import AdaptiveLL.Proofs.Parser.Mending
import AdaptiveLL.Proofs.Parser.Walk
import AdaptiveLL.Proofs.Prediction.Discretion
/-!
The moves of a parser that have nothing to do with mistakes: they report nothing, acknowledge no
match and leave the flag alone that holds reports back.
-/
namespace AdaptiveLL

open AdaptiveLL.Parser (Looks)
open RecognitionError (Explained)

variable {σ τ : Type}

/-- What a parser remembers of mistakes. -/
structure Parser.Tally where
  active : Bool
  count : Nat
  told : List Mistake
  log : Array Notice

/-- The flag that holds reports back, the number of errors, the mistakes that were told of, and the
log of recovery. -/
def Parser.tally (p : Parser σ τ) : Tally where
  active := p.recovery.active
  count := p.errorCount
  told := p.simulation.mistakes
  log := p.recovery.log

namespace Parsing

variable {α : Type} {u : ParserSetup τ} {t : Parser.Tally}

/-- The step has nothing to do with mistakes, but for errors that it fails with. -/
abbrev Silent (t : Parser.Tally) (x : Parsing σ τ α) : Prop :=
  Step.Upholds (fun p => p.tally = t) Explained x

/-- The tree holds no mistakes. -/
theorem modifyTree_silent (f : ParseTree → ParseTree) :
    Silent t (modifyTree f : Parsing σ τ Unit) :=
  .modify fun _ inv => inv

theorem setState_silent (state : Nat) : Silent t (setState state : Parsing σ τ Unit) :=
  .modify fun _ inv => inv

theorem setContext_silent (context : Option NodeId) :
    Silent t (setContext context : Parsing σ τ Unit) :=
  .modify fun _ inv => inv

theorem modifyHost_silent (f : ParseTree → τ → τ) : Silent t (modifyHost f : Parsing σ τ Unit) :=
  .modify fun _ inv => inv

/-- What the host answers is no mistake of the input. -/
theorem ask_silent (rule index : Nat) : Silent t (ask u rule index : Parsing σ τ Bool) :=
  .bind_get fun _ inv => .bind (.set inv) fun _ => .pure _

theorem act_silent (rule index : Nat) : Silent t (act u rule index : Parsing σ τ Unit) :=
  .bind .get fun _ => modifyHost_silent _

/-- A new context is not noted anywhere else. -/
theorem newContext_silent (parent : Option NodeId) (invoking : Option Nat) (rule : Nat) :
    Silent t (newContext parent invoking rule : Parsing σ τ NodeId) :=
  .bind_get fun _ inv => .bind (.set inv) fun _ => .pure _

/-- Too many calls are no recognition error. -/
theorem deepen_silent (rule : Nat) : Silent t (deepen u rule : Parsing σ τ Unit) :=
  .bind_get fun _ inv => .ite (.bind (.throw (by simp)) fun _ => .set inv) (.set inv)

variable [TokenSource σ]

/-- A question to the input or the network is silent. -/
theorem silent_of_asks {x : Parsing σ τ α} (h : ∀ p, Asks x p fun _ _ => True) : Silent t x := by
  intro p inv
  have asks := h p
  unfold Asks Step.Ensures at asks
  have same {p' : Parser σ τ} (looks : Looks p p') : p'.tally = t := by
    obtain ⟨input, -, rfl⟩ := looks
    exact inv
  split at asks <;> rename_i run <;> rw [run]
  · exact ⟨same asks.1, by simp⟩
  · obtain ⟨looks, fault, rfl⟩ := asks
    exact ⟨same looks, by simp⟩

omit [TokenSource σ] in
/-- The input may be looked at and moved. -/
theorem onInput_silent (f : TokenStream σ → α × TokenStream σ) :
    Silent t (onInput f : Parsing σ τ α) :=
  .bind_get fun _ inv => .bind (.set inv) fun _ => .pure _

theorem currentToken_silent : Silent t (currentToken : Parsing σ τ Token) :=
  silent_of_asks fun _ => currentToken_asks trivial

theorem index_silent : Silent t (index : Parsing σ τ Nat) :=
  silent_of_asks fun _ => index_asks trivial

theorem expectedTokens_silent : Silent t (expectedTokens u : Parsing σ τ IntervalSet) :=
  silent_of_asks fun _ => expectedTokens_asks fun _ _ => trivial

theorem followers_silent : Silent t (followers u : Parsing σ τ IntervalSet) :=
  silent_of_asks fun _ => followers_asks

theorem missingToken_silent : Silent t (missingToken u : Parsing σ τ Token) :=
  silent_of_asks fun _ => missingToken_asks.imp fun _ _ _ _ => trivial

/-- A token is put into the tree, and the listeners are told. -/
theorem consume_silent : Silent t (consume u : Parsing σ τ Token) := by
  rw [consume_eq]
  refine .bind currentToken_silent fun token => ?_
  have puts : Silent t (putToken u token : Parsing σ τ Token) := by
    refine .bind (.modify fun _ inv => inv) fun _ => .bind_get fun p inv => ?_
    split
    · exact .pure _
    · refine .ite (.pure _) (.bind (.set inv) fun _ => ?_)
      exact .bind (modifyHost_silent _) fun _ => .pure _
  exact .ite puts (.bind (onInput_silent _) fun _ => puts)

/-- Listeners are told of a rule that is entered, which is no report. -/
theorem enterRule_silent (context state rule : Nat) :
    Silent t (enterRule u context state rule : Parsing σ τ Unit) := by
  refine .bind (deepen_silent rule) fun _ => .bind (setState_silent _) fun _ => ?_
  refine .bind (setContext_silent _) fun _ => .bind (onInput_silent _) fun _ => ?_
  exact .bind (modifyTree_silent _) fun _ => modifyHost_silent _

theorem enterRecursiveRule_silent (context state rule : Nat) (precedence : Int) :
    Silent t (enterRecursiveRule u context state rule precedence : Parsing σ τ Unit) := by
  refine .bind (deepen_silent rule) fun _ => .bind (.modify fun _ inv => inv) fun _ => ?_
  refine .bind (onInput_silent _) fun _ => .bind (modifyTree_silent _) fun _ => ?_
  exact modifyHost_silent _

/-- A call of a rule. -/
theorem enterCall_silent (context start rule : Nat) (precedence : Int) :
    Silent t (enterCall u context start rule precedence : Parsing σ τ Unit) :=
  .ite (.bind (.modify fun _ inv => inv) fun _ => enterRecursiveRule_silent _ _ _ _)
    (enterRule_silent _ _ _)

/-- The end of an ordinary rule. -/
theorem exitRule_silent : Silent t (exitRule u : Parsing σ τ Unit) := by
  refine .bind .get fun p => ?_
  split
  · exact .pure _
  · refine .bind .get fun _ => .bind (onInput_silent _) fun _ => ?_
    refine .bind (modifyTree_silent _) fun _ => .bind (modifyHost_silent _) fun _ => ?_
    exact .modify fun _ inv => inv

omit [TokenSource σ] in
/-- The alternative is noted in the tree. -/
theorem takeAlternative_silent (context alt : Nat) :
    Silent t (takeAlternative u context alt : Parsing σ τ Unit) := by
  refine .bind (modifyTree_silent _) fun _ => .bind .get fun p => .ite ?_ (setContext_silent _)
  split
  · exact .bind (modifyTree_silent _) fun _ => setContext_silent _
  · exact setContext_silent _

/-- Another turn of an operator loop. -/
theorem wrapContext_silent (context state : Nat) :
    Silent t (wrapContext u context state : Parsing σ τ Unit) := by
  refine .bind .get fun p => ?_
  split
  · exact .pure _
  · refine .bind (onInput_silent _) fun _ => .bind (modifyTree_silent _) fun _ => ?_
    refine .bind (modifyHost_silent _) fun _ => .bind (.modify fun _ inv => inv) fun _ => ?_
    exact modifyHost_silent _

/-- The end of a left-recursive rule. -/
theorem unwrapContexts_silent (parent : Option NodeId) :
    Silent t (unwrapContexts u parent : Parsing σ τ Unit) := by
  refine .bind (.modify fun _ inv => inv) fun _ => .bind .get fun p => ?_
  split
  · exact setContext_silent _
  · refine .bind (onInput_silent _) fun _ => .bind (modifyTree_silent _) fun _ => ?_
    refine .bind .get fun _ => .bind (.forM (fun id => ?_) _) fun _ => .modify fun _ inv => inv
    exact modifyHost_silent _

/-- A prediction reports events, but no mistake. -/
theorem predict_silent (decision : Nat) (node : Option NodeId) :
    Silent t (predict u decision node : Parsing σ τ Nat) := by
  rintro p rfl
  have discreet := Prediction.adaptivePredict_discreet u.grammar u.options.predictionMode u.fuel
    decision (p.situation u node) p.simulation rfl
  obtain ⟨outcome, s', run⟩ : ∃ outcome s', (p.question u decision node).run p.simulation =
    (outcome, s') := ⟨_, _, rfl⟩
  rw [show (Prediction.adaptivePredict _ _ _ _ _).run _ = _ from run] at discreet
  rw [Parser.run_predict run]
  exact ⟨congrArg (fun told => { p.tally with told }) discreet.1, discreet.2⟩

/-- A mismatch names what was expected. -/
theorem mismatch_silent {f : RecognitionError → Parsing σ τ α} (state : Nat) (node : Option NodeId)
    (rest : ∀ e : RecognitionError, e.Explained → Silent t (f e)) :
    Silent t (mismatch u state node >>= f) := by
  simp only [mismatch, bind_assoc]
  refine .bind .get fun _ => .bind (.ofQuestion _) fun expected => ?_
  exact .bind currentToken_silent fun token => rest _ fun _ => rfl

/-- A predicate that fails needs no explanation. -/
theorem failedPredicate_silent {f : RecognitionError → Parsing σ τ α} (rule : Nat)
    (i : Option Nat) (text : String)
    (rest : ∀ e : RecognitionError, e.Explained → Silent t (f e)) :
    Silent t (failedPredicate rule i text >>= f) := by
  simp only [failedPredicate, bind_assoc]
  exact .bind .get fun _ => .bind currentToken_silent fun token => rest _ (by simp [Explained])

/-- Skipping tokens. -/
theorem consumeUntil_silent (stop : IntervalSet) (fuel : Nat) :
    Silent t (consumeUntil u stop fuel : Parsing σ τ Unit) := by
  induction fuel with
  | zero => exact .throw (by simp)
  | succ fuel ih =>
      exact .bind (onInput_silent _) fun _ => .ite (.pure _) (.bind consume_silent fun _ => ih)

/-- What recovery does once the error has been reported. -/
theorem recover_silent (repairs : u.options.errorStrategy = .repair) (error : RecognitionError) :
    Silent t (recover u error : Parsing σ τ Unit) := by
  simp only [recover, repairs]
  refine .bind index_silent fun here => .bind .get fun p => ?_
  have resyncs : Silent t (do
      let here ← index
      modifyRecovery fun r =>
        { r with
          lastIndex := some here
          lastStates := if r.lastStates.contains p.state then r.lastStates else p.state :: r.lastStates }
      consumeUntil u (← followers u) u.fuel : Parsing σ τ Unit) := by
    refine .bind index_silent fun _ => .bind (.modify fun _ inv => inv) fun _ => ?_
    exact .bind followers_silent fun _ => consumeUntil_silent _ _
  exact .ite (.bind consume_silent fun _ => resyncs) resyncs

omit [TokenSource σ] in
/-- An alternative that is prescribed is used up. -/
theorem prescribed?_silent (decision place : Nat) :
    Silent t (prescribed? decision place : Parsing σ τ (Option Nat)) := by
  refine .bind .get fun p => ?_
  split
  · exact .ite (.bind (.modify fun _ inv => inv) fun _ => .pure _) (.pure _)
  · exact .pure _

theorem continueRecursion_silent (s : State) :
    Silent t (continueRecursion u s : Parsing σ τ Unit) :=
  .bind .get fun _ => .bind (newContext_silent _ _ _) fun _ => .bind (.required _ _) fun _ =>
    wrapContext_silent _ _

/-- A return from a rule. -/
theorem visitRuleStop_silent (number : Nat) (s : State) :
    Silent t (visitRuleStop u number s : Parsing σ τ Unit) := by
  unfold visitRuleStop
  extract_lets n goOn
  have goesOn (x : PUnit) : Silent t (goOn x) :=
    .bind .get fun _ => .bind (.required _ _) fun _ => setState_silent _
  refine .ite (.bind .get fun p => ?_) (.bind exitRule_silent goesOn)
  split
  · exact .throw (by simp)
  · refine .bind (.modify fun _ inv => inv) fun _ => .bind (unwrapContexts_silent _) fun _ => ?_
    exact .bind (setState_silent _) goesOn

/-- An error is made visible in the tree. -/
theorem markError_silent (error : RecognitionError) :
    Silent t (markError error : Parsing σ τ Unit) := by
  unfold markError
  extract_lets type mark
  have marks (anchor : Token) : Silent t (mark anchor : Parsing σ τ Unit) := by
    refine .bind .get fun p => ?_
    split
    · exact modifyTree_silent _
    · exact .pure _
  split
  · exact .bind (.pure _) marks
  · exact .bind currentToken_silent marks

/-- The end of the start rule. -/
theorem conclude_silent (leftRecursive : Bool) (root : NodeId) :
    Silent t (conclude u leftRecursive root : Parsing σ τ NodeId) := by
  refine .ite (.bind .get fun p => ?_) (.bind exitRule_silent fun _ => .pure _)
  refine .bind (.modify fun _ inv => inv) fun _ => .bind (unwrapContexts_silent _) fun _ => ?_
  exact .bind (.modify fun _ inv => inv) fun _ => .pure _

/-- The call of the start rule. -/
theorem enter_silent (rule : Nat) : Silent t (enter u rule : Parsing σ τ NodeId) := by
  refine .bind (.required _ _) fun _ => .bind (newContext_silent _ _ _) fun _ => ?_
  refine .bind (.modify fun _ inv => inv) fun _ => ?_
  exact .bind (enterCall_silent _ _ _ _) fun _ => .pure _

end Parsing

end AdaptiveLL
