import AdaptiveLL.Grammar.Samples
import AdaptiveLL.Proofs.Network.Answers
import AdaptiveLL.Proofs.Parser.Choice
import AdaptiveLL.Proofs.Parser.Signals
import AdaptiveLL.Proofs.Parser.Silence
/-!
One report for each mistake. The signals of every move are what the log of recovery has more behind
it than in front of it, and a monitor follows them through a whole parse (`parse_reports`).
-/
namespace AdaptiveLL

open RecognitionError (Explained)

variable {σ τ : Type}

/-- The mistake that a parser reports. -/
def Parser.mistakeOf [TokenSource σ] (p : Parser σ τ) (token : Option Token) (message : String)
    (error : Option RecognitionError) : Mistake where
  source := TokenSource.name p.simulation.input.source
  token
  message
  error
  line := (token.map Token.line).getD 0
  column := (token.map Token.column).getD 0

/-- The signals on the way from one parser to another: what the log has more. The reports among them
are the errors that have been counted and the mistakes that have been told of. -/
structure Parser.Signals (p p' : Parser σ τ) (signals : List Signal) : Prop where
  noted : p'.recovery.log.toList = p.recovery.log.toList ++ signals.map Signal.notice
  count : p'.errorCount = p.errorCount + (signals.filterMap Signal.mistake?).length
  told : p'.simulation.mistakes = p.simulation.mistakes ++ signals.filterMap Signal.mistake?

namespace Parser.Signals

variable {p p' p'' : Parser σ τ} {first rest : List Signal}

/-- A move that has nothing to do with mistakes signals nothing. -/
theorem of_tally (same : p'.tally = p.tally) : p.Signals p' [] := by
  obtain ⟨-, count, told, log⟩ := Tally.mk.inj same
  constructor
  case noted => simpa using log
  case count => exact count
  case told => simpa using told

theorem refl (p : Parser σ τ) : p.Signals p [] :=
  .of_tally rfl

/-- The signals of two moves, one after the other. -/
theorem trans (h : p.Signals p' first) (h' : p'.Signals p'' rest) :
    p.Signals p'' (first ++ rest) := by
  constructor
  case noted => rw [h'.noted, h.noted, List.map_append, List.append_assoc]
  case count => rw [h'.count, h.count, List.filterMap_append, List.length_append, Nat.add_assoc]
  case told => rw [h'.told, h.told, List.filterMap_append, List.append_assoc]

/-- What is noted first comes before everything else. -/
theorem caught (e : RecognitionError)
    (h : Parser.Signals { p with recovery := { p.recovery with log := p.recovery.log.push .caught } }
      p' rest) : p.Signals p' (.caught e :: rest) where
  noted := by simp [h.noted, Signal.notice]
  count := h.count
  told := h.told

end Parser.Signals

namespace Parsing

variable {α β : Type} {u : ParserSetup τ}

section Moves

variable {p p' : Parser σ τ} {x : Parsing σ τ α} {f : α → Parsing σ τ β} {signals : List Signal}

/-- The match of a token is signalled. -/
theorem endRecovery_signals : p.Signals ((endRecovery : Parsing σ τ Unit).run p).2 [.matched] where
  noted := Array.toList_push
  count := rfl
  told := (List.append_nil _).symm

/-- The monitor follows the signals of the step, and none of them is that of an error. Where the step
does not break off with a fault, the monitor ends in the mood that the flag shows, and the errors of
the step are explained. -/
def Monitored (x : Parsing σ τ α) (p : Parser σ τ) : Prop :=
  ∃ signals alarm, p.Signals (x.run p).2 signals ∧ Signal.Uncaught signals ∧
    (Mood.ofAlarm p.recovery.active).follow? signals = some (.ofAlarm alarm) ∧
    ((∃ fault, (x.run p).1 = .error (.fault fault)) ∨ alarm = (x.run p).2.recovery.active) ∧
    ∀ e, (x.run p).1 = .error (.recoverable e) → e.Explained

namespace Monitored

/-- Where nothing is signalled, the monitor stays where it is. -/
theorem silent (h : ∀ t, Silent t x) : Monitored x p := by
  obtain ⟨same, explained⟩ := h p.tally p rfl
  have flag := congrArg Parser.Tally.active same
  exact ⟨[], _, .of_tally same, by simp [Signal.Uncaught], rfl, .inr flag.symm, explained⟩

theorem bind (first : Monitored x p) (rest : ∀ a p', Monitored (f a) p') :
    Monitored (x >>= f) p := by
  obtain ⟨signals, alarm, gives, uncaught, follows, ends, explained⟩ := first
  obtain ⟨outcome, p', run⟩ : ∃ outcome p', x.run p = (outcome, p') := ⟨_, _, rfl⟩
  rw [run] at gives ends explained
  unfold Monitored
  cases outcome with
  | error e =>
      rw [Step.run_bind_error run]
      refine ⟨signals, alarm, gives, uncaught, follows, ?_, fun e' eq => ?_⟩
      · exact ends.imp (fun ⟨fault, eq⟩ => ⟨fault, congrArg _ (Except.error.inj eq)⟩) id
      · exact explained e' (congrArg _ (Except.error.inj eq))
  | ok a =>
      obtain ⟨signals', alarm', gives', uncaught', follows', ends', explained'⟩ := rest a p'
      have calm : alarm = p'.recovery.active := ends.resolve_left (by simp)
      rw [Step.run_bind_ok run]
      refine ⟨signals ++ signals', alarm', gives.trans gives', uncaught.append uncaught', ?_, ends',
        explained'⟩
      rw [Mood.follow?_append, follows, calm]
      exact follows'

theorem ite {c : Prop} [Decidable c] {y : Parsing σ τ α} (yes : Monitored x p)
    (no : Monitored y p) : Monitored (if c then x else y) p := by
  split
  · exact yes
  · exact no

theorem pure (a : α) : Monitored (Pure.pure a) p :=
  silent fun _ => .pure a

theorem get : Monitored (MonadState.get : Parsing σ τ (Parser σ τ)) p :=
  silent fun _ => .get

theorem ofQuestion (answer : Except Fault α) : Monitored (Step.ofQuestion answer) p :=
  silent fun _ => .ofQuestion answer

/-- An acknowledgement brings the monitor to rest. -/
theorem acknowledge : Monitored endRecovery p := by
  refine ⟨[.matched], false, endRecovery_signals, by simp [Signal.Uncaught], ?_, .inr rfl, ?_⟩
  · cases p.recovery.active <;> rfl
  · simp [endRecovery, modifyRecovery]

end Monitored

/-- A report that is held back while another one is unacknowledged. -/
def guarded (x : Parsing σ τ Unit) : Parsing σ τ Unit := do
  if ← isRecovering then return
  beginRecovery
  x

/-- With the flag set nothing is reported. -/
theorem guarded_active (active : p.recovery.active = true) (x : Parsing σ τ Unit) :
    (guarded x).run p = (.ok (), p) := by
  have asked : (isRecovering : Parsing σ τ Bool).run p = (.ok true, p) := by rw [← active]; rfl
  rw [guarded, Step.run_bind_ok asked]
  rfl

/-- The parser with the flag set. -/
def alarmed (p : Parser σ τ) : Parser σ τ :=
  { p with recovery := { p.recovery with active := true } }

/-- Without the flag the report is made, with the flag set. -/
theorem guarded_idle (idle : p.recovery.active = false) (x : Parsing σ τ Unit) :
    (guarded x).run p = x.run (alarmed p) := by
  have asked : (isRecovering : Parsing σ τ Bool).run p = (.ok false, p) := by rw [← idle]; rfl
  have began : (beginRecovery : Parsing σ τ Unit).run p = (.ok (), alarmed p) := rfl
  rw [guarded, Step.run_bind_ok asked]
  exact Step.run_bind_ok began

/-- The flag is not among what is signalled. -/
theorem signals_of_alarmed (h : (alarmed p).Signals p' signals) : p.Signals p' signals :=
  ⟨h.noted, h.count, h.told⟩

variable [TokenSource σ]

/-- A report is signalled and told of. -/
theorem reportMistake_signals (token : Option Token) (message : String)
    (error : Option RecognitionError) :
    p.Signals ((reportMistake token message error).run p).2
      [.reported (p.mistakeOf token message error)] where
  noted := Array.toList_push
  count := rfl
  told := by
    change ((p.simulation.reports.push _).toList).filterMap Report.mistake? = _
    rw [Array.toList_push, List.filterMap_append]
    rfl

/-- The step reports a mistake with this error, or breaks off with a fault before. -/
def Announces (error : Option RecognitionError) (x : Parsing σ τ Unit) (p : Parser σ τ) : Prop :=
  (∃ m, m.error = error ∧ p.Signals (x.run p).2 [.reported m] ∧ (x.run p).1 = .ok () ∧
      (x.run p).2.recovery.active = p.recovery.active) ∨
    p.Signals (x.run p).2 [] ∧ ∃ fault, (x.run p).1 = .error (.fault fault)

namespace Announces

variable {error : Option RecognitionError}

theorem reportMistake (token : Option Token) (message : String) :
    Announces error (reportMistake token message error) p :=
  .inl ⟨_, rfl, reportMistake_signals token message error, rfl, rfl⟩

/-- A question comes before the report. -/
theorem ask {f : α → Parsing σ τ Unit} (h : Asks x p fun a p' => Announces error (f a) p') :
    Announces error (x >>= f) p := by
  unfold Asks Step.Ensures at h
  split at h <;> rename_i run
  · obtain ⟨⟨input, -, rfl⟩, announces⟩ := h
    rw [Announces, Step.run_bind_ok run]
    have here : p.Signals (p.withInput input) [] := .of_tally rfl
    exact announces.imp (fun ⟨m, tells, gives, done⟩ => ⟨m, tells, here.trans gives, done⟩)
      fun ⟨gives, fails⟩ => ⟨here.trans gives, fails⟩
  · obtain ⟨⟨input, -, rfl⟩, fault, rfl⟩ := h
    rw [Announces, Step.run_bind_error run]
    exact .inr ⟨.of_tally rfl, fault, rfl⟩

end Announces

omit [TokenSource σ] in
/-- A report that is not held back leads to the alarm. -/
theorem guarded_monitored {x : Parsing σ τ Unit} (h : ∀ p, Announces none x p) :
    Monitored (guarded x) p := by
  unfold Monitored
  cases flag : p.recovery.active with
  | true =>
      rw [guarded_active flag]
      exact ⟨[], true, .refl p, by simp [Signal.Uncaught], rfl, .inr flag.symm, by simp⟩
  | false =>
      rw [guarded_idle flag]
      rcases h (alarmed p) with ⟨m, tells, gives, done, same⟩ | ⟨gives, fault, failed⟩
      · refine ⟨[.reported m], true, signals_of_alarmed gives, by simp [Signal.Uncaught], ?_,
          .inr same.symm, by simp [done]⟩
        simp [Mood.ofAlarm, Mood.follow?_cons, Mood.after?, tells]
      · exact ⟨[], _, signals_of_alarmed gives, by simp [Signal.Uncaught], rfl, .inl ⟨fault, failed⟩,
          by simp [failed]⟩

/-- A token that is in the way is reported as one mistake. -/
theorem reportUnwanted_monitored : Monitored (reportUnwanted u) p :=
  guarded_monitored fun _ => .ask (currentToken_asks (.ask (expectedTokens_asks fun _ _ =>
    .reportMistake _ _)))

/-- A token that is missing is reported as one mistake. -/
theorem reportMissing_monitored : Monitored (reportMissing u) p :=
  guarded_monitored fun _ => .ask (currentToken_asks (.ask (expectedTokens_asks fun _ _ =>
    .reportMistake _ _)))

/-- A token that is deleted is reported, and the match of the next one is acknowledged. -/
theorem deleteToken_monitored : Monitored (deleteToken u) p := by
  refine .bind (.silent fun _ => onInput_silent _) fun _ p => ?_
  refine .bind (.silent fun _ => expectedTokens_silent) fun _ p => .ite (.pure _) ?_
  refine .bind reportUnwanted_monitored fun _ p => .bind (.silent fun _ => consume_silent) fun _ p => ?_
  refine .bind (.silent fun _ => currentToken_silent) fun _ p => ?_
  exact .bind .acknowledge fun _ p => .pure _

/-- A token that is made up is reported as missing. -/
theorem insertToken_monitored : Monitored (insertToken u) p := by
  refine .bind (.silent fun _ => onInput_silent _) fun _ p => .bind .get fun _ p => ?_
  refine .bind (.ofQuestion _) fun s p => ?_
  split
  · exact .pure _
  · refine .bind (.ofQuestion _) fun _ p => .ite ?_ (.pure _)
    exact .bind reportMissing_monitored fun _ p => .pure _

/-- A mismatch where the parser gives up is explained. -/
theorem throwMismatch_monitored (state : Nat) (node : Option NodeId) :
    Monitored (mismatch u state node >>= fun e => throw (.recoverable e) : Parsing σ τ α) p :=
  .silent fun _ => mismatch_silent state node fun _ explained =>
    .throw fun _ eq => Failure.recoverable.inj eq ▸ explained

/-- A mismatch is reported before it is mended, unless reports are held back. -/
theorem recoverInline_monitored (repairs : u.options.errorStrategy = .repair) :
    Monitored (recoverInline u) p := by
  simp only [recoverInline, repairs]
  refine .bind deleteToken_monitored fun deleted p => ?_
  split
  · exact .bind (.silent fun _ => consume_silent) fun _ p => .pure _
  · refine .bind insertToken_monitored fun inserted p => .ite (.silent fun _ => missingToken_silent) ?_
    exact .bind .get fun _ p => throwMismatch_monitored _ _

/-- Before a decision a token may be reported, and skipped or deleted. -/
theorem sync_monitored : Monitored (sync u) p := by
  refine .ite (.pure _) (.bind (.silent fun _ => silent_of_asks fun _ => isRecovering_asks trivial)
    fun _ p => .ite (.pure _) (.bind .get fun _ p => ?_))
  refine .bind (.silent fun _ => onInput_silent _) fun _ p => .bind (.ofQuestion _) fun _ p => ?_
  refine .ite (.silent fun _ => .modify fun _ inv => inv) (.ite (.silent fun _ => .modify fun _ inv => inv) ?_)
  refine .bind (.ofQuestion _) fun s p => ?_
  have skips (p : Parser σ τ) : Monitored (do
      reportUnwanted u
      let stop := (← expectedTokens u).union (← followers u)
      consumeUntil u stop u.fuel : Parsing σ τ Unit) p := by
    refine .bind reportUnwanted_monitored fun _ p => .bind (.silent fun _ => expectedTokens_silent) fun _ p => ?_
    exact .bind (.silent fun _ => followers_silent) fun _ p => .silent fun _ => consumeUntil_silent _ _
  split
  case h_1 | h_2 =>
    refine .bind deleteToken_monitored fun deleted p => ?_
    cases deleted with
    | some => exact .pure _
    | none => exact throwMismatch_monitored _ _
  case h_3 | h_4 => exact skips _
  case h_5 => exact .pure _

/-- A match is acknowledged, and what does not match is mended. -/
theorem matchWhere_monitored (repairs : u.options.errorStrategy = .repair)
    (accept : Symbol → Bool) : Monitored (matchWhere u accept) p := by
  refine .bind (.silent fun _ => onInput_silent _) fun _ p => .ite ?_ ?_
  · exact .bind .acknowledge fun _ p => .silent fun _ => consume_silent
  · refine .bind (recoverInline_monitored repairs) fun token p => ?_
    extract_lets answer
    split
    · refine .bind .get fun _ p => ?_
      split
      · exact .bind (.silent fun _ => modifyTree_silent _) fun _ p => .pure _
      · exact .pure _
    · exact .pure _

/-- A match is acknowledged; a mismatch is reported and mended. -/
theorem matchToken_monitored (repairs : u.options.errorStrategy = .repair) (type : Symbol) :
    Monitored (matchToken u type) p := by
  refine .bind (matchWhere_monitored repairs _) fun _ p => .ite ?_ (.pure _)
  exact .bind (.silent fun _ => .modify fun _ inv => inv) fun _ p => .pure _

/-- The input may be mended before a decision is made. -/
theorem choose_monitored (number : Nat) (s : State) : Monitored (choose u number s) p := by
  refine .ite (.pure _) (.bind (.silent fun _ => .required _ _) fun d p => .bind sync_monitored ?_)
  refine fun _ p => .bind (.silent fun _ => index_silent) fun _ p => ?_
  refine .bind (.silent fun _ => prescribed?_silent _ _) fun given p => ?_
  extract_lets chosen
  have chooses (alt : Nat) (p : Parser σ τ) : Monitored (chosen alt) p := by
    refine .ite (.bind .get fun _ p => ?_) (.pure _)
    split
    · exact .bind (.silent fun _ => takeAlternative_silent _ _) fun _ p => .pure _
    · exact .pure _
  split
  · exact .bind (.pure _) chooses
  · exact .bind .get fun _ p => .bind (.silent fun _ => predict_silent _ _) chooses

/-- Crossing an edge. A predicate that fails is not reported yet. -/
theorem takeEdge_monitored (repairs : u.options.errorStrategy = .repair) (number : Nat) (s : State)
    (t : Transition) : Monitored (takeEdge u number s t) p := by
  have fails (rule : Nat) (i : Option Nat) (text : String) (p : Parser σ τ) :
      Monitored (failedPredicate rule i text >>= fun e => throw (.recoverable e) :
        Parsing σ τ Unit) p :=
    .silent fun _ => failedPredicate_silent rule i text fun _ explained =>
      .throw fun _ eq => Failure.recoverable.inj eq ▸ explained
  unfold takeEdge
  cases t with
  | epsilon =>
      refine .bind (.ofQuestion _) fun _ p => .ite ?_ (.pure _)
      exact .silent fun _ => continueRecursion_silent _
  | atom => exact .bind (matchToken_monitored repairs _) fun _ p => .pure _
  | range | set | notSet | wildcard => exact .bind (matchWhere_monitored repairs _) fun _ p => .pure _
  | call =>
      refine .bind (.ofQuestion _) fun _ p => .bind .get fun _ p => ?_
      exact .bind (.silent fun _ => newContext_silent _ _ _) fun _ p => .silent fun _ => enterCall_silent _ _ _ _
  | predicate => exact .bind (.silent fun _ => ask_silent _ _) fun _ p => .ite (fails _ _ _ _) (.pure _)
  | precedence =>
      refine .bind (.silent fun _ => .bind .get fun _ => .pure _) fun _ p => .ite ?_ (.pure _)
      exact .bind .get fun _ p => fails _ _ _ _
  | action target rule index =>
      cases index with
      | some index => exact .silent fun _ => act_silent _ _
      | none => exact .pure _

/-- A visit of a state. -/
theorem visitState_monitored (repairs : u.options.errorStrategy = .repair) (number : Nat)
    (s : State) : Monitored (visitState u number s) p := by
  unfold visitState
  extract_lets missing goOn
  have goesOn (alt : Nat) (p : Parser σ τ) : Monitored (goOn alt) p :=
    .bind (.silent fun _ => .required _ _) fun _ p => .bind (takeEdge_monitored repairs _ _ _)
      fun _ p => .silent fun _ => setState_silent _
  exact .ite (.bind (choose_monitored _ _) goesOn) (.bind (.pure _) goesOn)

/-- An error that is explained can be described. -/
theorem describe_run {e : RecognitionError} (explained : e.Explained) :
    ∃ text input, (describe u e).run p = (.ok text, p.withInput input) := by
  unfold describe
  cases kind : e.kind with
  | noViableAlt start deadEnd =>
      dsimp -zeta only
      extract_lets answer first last
      split
      · exact ⟨_, p.simulation.input, rfl⟩
      · exact ⟨_, _, rfl⟩
  | inputMismatch =>
      obtain ⟨expected, known⟩ := Option.isSome_iff_exists.1 (explained kind)
      rw [known]
      exact ⟨_, p.simulation.input, rfl⟩
  | failedPredicate | noToken => exact ⟨_, p.simulation.input, rfl⟩

/-- The report of an error that is explained, where it is not held back. -/
theorem announce_error {e : RecognitionError} (explained : e.Explained) :
    let x : Parsing σ τ Unit := do
      let message ← describe u e
      reportMistake e.token message (some e)
    ∃ m, m.error = some e ∧ p.Signals (x.run p).2 [.reported m] ∧ (x.run p).1 = .ok () ∧
      (x.run p).2.recovery.active = p.recovery.active := by
  obtain ⟨text, input, run⟩ := describe_run (u := u) (p := p) explained
  intro x
  have described : x.run p = (reportMistake e.token text (some e)).run (p.withInput input) :=
    Step.run_bind_ok run
  have here : p.Signals (p.withInput input) [] := .of_tally rfl
  rw [described]
  exact ⟨_, rfl, here.trans (reportMistake_signals _ _ _), rfl, rfl⟩

/-- What is signalled by the step is in order where the error `e` has just been caught, and then a
report is unacknowledged. -/
def Answers (e : RecognitionError) (x : Parsing σ τ α) (p : Parser σ τ) : Prop :=
  ∃ signals, p.Signals (x.run p).2 signals ∧ Signal.Uncaught signals ∧
    (Mood.ofAlarm p.recovery.active).follow? (.caught e :: signals) = some .alarm ∧
    ((∃ fault, (x.run p).1 = .error (.fault fault)) ∨ (x.run p).2.recovery.active = true)

omit [TokenSource σ] in
/-- Nothing that has to do with mistakes comes between the error and the answer. -/
theorem Answers.after {e : RecognitionError} {a : α} (run : x.run p = (.ok a, p'))
    (same : p'.tally = p.tally) (h : Answers e (f a) p') : Answers e (x >>= f) p := by
  obtain ⟨signals, gives, uncaught, follows, ends⟩ := h
  have here : p.Signals p' [] := .of_tally same
  rw [Answers, Step.run_bind_ok run]
  have flag : p'.recovery.active = p.recovery.active := congrArg Parser.Tally.active same
  exact ⟨signals, here.trans gives, uncaught, flag ▸ follows, ends⟩

/-- An error is reported unless a report is unacknowledged, and then one is. -/
theorem reportError_answers {e : RecognitionError} (explained : e.Explained)
    {rest : Parsing σ τ β} (silent : ∀ t, Silent t rest) :
    Answers e (reportError u e >>= fun _ => rest) p := by
  obtain ⟨signals, q, run, gives, uncaught, follows, active⟩ : ∃ signals q,
      (reportError u e).run p = (.ok (), q) ∧ p.Signals q signals ∧ Signal.Uncaught signals ∧
      (Mood.ofAlarm p.recovery.active).follow? (.caught e :: signals) = some .alarm ∧
      q.recovery.active = true := by
    let x : Parsing σ τ Unit := describe u e >>= fun message =>
      reportMistake e.token message (some e)
    cases flag : p.recovery.active with
    | true => exact ⟨[], p, guarded_active flag x, .refl p, by simp [Signal.Uncaught], rfl, flag⟩
    | false =>
        obtain ⟨m, tells, gives, done, same⟩ := announce_error (u := u) (p := alarmed p) explained
        refine ⟨[.reported m], _, (guarded_idle flag x).trans (Prod.ext done rfl),
          signals_of_alarmed gives, by simp [Signal.Uncaught], ?_, same⟩
        simp [Mood.ofAlarm, Mood.follow?_cons, Mood.after?, tells]
  obtain ⟨same, -⟩ := silent q.tally q rfl
  have later : q.Signals (rest.run q).2 [] := .of_tally same
  rw [Answers, Step.run_bind_ok run]
  refine ⟨signals, ?_, uncaught, follows, .inr ?_⟩
  · simpa using gives.trans later
  · exact (congrArg Parser.Tally.active same).trans active

/-- When a parser gives up a rule, it notes the error, which is reported unless a report is
unacknowledged. If the network has no such rule, the parse ends before that. -/
theorem abandonRule_signals (repairs : u.options.errorStrategy = .repair) (s : State)
    {e : RecognitionError} (explained : e.Explained) :
    ∃ after, p.Signals ((abandonRule u s e).run p).2 (.caught e :: after) ∧
      Signal.Uncaught after ∧
      (after = [] ∧ u.grammar.network.ruleStops[s.rule]? = none ∧
          ((abandonRule u s e).run p).1 = .error (.fatal (.network (.invalidRule s.rule))) ∧
          ((abandonRule u s e).run p).2.recovery.active = p.recovery.active ∨
        (Mood.ofAlarm p.recovery.active).follow? (.caught e :: after) = some .alarm ∧
          ((∃ fault, ((abandonRule u s e).run p).1 = .error (.fault fault)) ∨
            ((abandonRule u s e).run p).2.recovery.active = true)) := by
  let noted := { p with recovery := { p.recovery with log := p.recovery.log.push .caught } }
  have notes : (modifyRecovery fun r => { r with log := r.log.push .caught } : Parsing σ τ Unit).run p
      = (.ok (), noted) := rfl
  unfold abandonRule
  rw [Step.run_bind_ok notes]
  obtain missing | ⟨stop, known⟩ := Option.eq_none_or_eq_some u.grammar.network.ruleStops[s.rule]?
  · rw [missing]
    exact ⟨[], .caught e (.refl noted), by simp [Signal.Uncaught], .inl ⟨rfl, rfl, rfl, rfl⟩⟩
  rw [known]
  suffices answers : Answers e _ noted by
    obtain ⟨after, gives, uncaught, follows, ends⟩ := answers
    exact ⟨after, .caught e gives, uncaught, .inr ⟨follows, ends⟩⟩
  refine .after (x := Step.required _ (some stop)) rfl rfl ?_
  refine .after (x := setState stop) rfl rfl ?_
  refine .after (x := MonadState.get) rfl rfl ?_
  extract_lets settle
  have settles (x : PUnit) (q : Parser σ τ) : Answers e (settle x) q := by
    refine reportError_answers explained fun _ => ?_
    refine .bind index_silent fun here => .bind (recover_silent repairs e) fun _ => ?_
    exact .bind index_silent fun _ => .ite (markError_silent e) (.pure _)
  split
  · exact .after (x := modifyTree _) rfl rfl (settles ⟨⟩ _)
  · exact settles ⟨⟩ _

end Moves

/-- What a parser signals at a state that it visits. At the stop of a rule that is nothing. An error
is caught where it ends the visit, behind the signals of the visit and in front of those of giving
up the rule, and nowhere else. -/
inductive SignalsHere [TokenSource σ] (u : ParserSetup τ) (p : Parser σ τ) : List Signal → Prop
  | still (stop : ∀ s, u.grammar.network.states[p.state]? = some s → s.isRuleStop = true) :
      SignalsHere u p []
  | visit {s : State} {signals : List Signal} (here : u.grammar.network.states[p.state]? = some s)
      (going : s.isRuleStop = false)
      (gives : p.Signals ((visitState u p.state s).run p).2 signals)
      (uncaught : Signal.Uncaught signals)
      (sound : ∀ e, ((visitState u p.state s).run p).1 ≠ .error (.recoverable e)) :
      SignalsHere u p signals
  | abandon {s : State} {e : RecognitionError} {q : Parser σ τ} {before after : List Signal}
      (here : u.grammar.network.states[p.state]? = some s) (going : s.isRuleStop = false)
      (failed : (visitState u p.state s).run p = (.error (.recoverable e), q))
      (gives : p.Signals q before) (uncaught : Signal.Uncaught before)
      (gives' : q.Signals ((abandonRule u s e).run q).2 (.caught e :: after))
      (uncaught' : Signal.Uncaught after) :
      SignalsHere u p (before ++ .caught e :: after)

section Runs

variable [TokenSource σ] {p : Parser σ τ}

/-- How the mood of the monitor shows in what a parse comes to. If an error is due, the parse has
ended with a rule that the network does not have. -/
def Shows (u : ParserSetup τ) (mood : Mood) (outcome : Except Failure α) (p : Parser σ τ) : Prop :=
  (∃ alarm, mood = .ofAlarm alarm ∧
      ((∃ fault, outcome = .error (.fault fault)) ∨ alarm = p.recovery.active)) ∨
    ∃ e rule, mood = .due e ∧ u.grammar.network.ruleStops[rule]? = none ∧
      outcome = .error (.fatal (.network (.invalidRule rule)))

/-- What is signalled up to the result, and what the parse comes to there. -/
def Accounts (u : ParserSetup τ) (p : Parser σ τ) (signals : List Signal)
    (result : Except Failure α × Parser σ τ) : Prop :=
  p.Signals result.2 signals ∧
    ∃ mood, (Mood.ofAlarm p.recovery.active).follow? signals = some mood ∧
      Shows u mood result.1 result.2

namespace Accounts

variable {signals more : List Signal} {q : Parser σ τ} {result : Except Failure α × Parser σ τ}

omit [TokenSource σ] in
/-- Where nothing is signalled, the flag stays as it is. -/
theorem silent {x : Parsing σ τ α} (h : ∀ t, Silent t x) : Accounts u p [] (x.run p) := by
  obtain ⟨same, -⟩ := h p.tally p rfl
  have flag := congrArg Parser.Tally.active same
  exact ⟨.of_tally same, _, rfl, .inl ⟨_, rfl, .inr flag.symm⟩⟩

omit [TokenSource σ] in
/-- What is signalled in front of a parser that the flag shows the mood of. -/
theorem append (gives : p.Signals q signals)
    (follows : (Mood.ofAlarm p.recovery.active).follow? signals = some (.ofAlarm q.recovery.active))
    (h : Accounts u q more result) : Accounts u p (signals ++ more) result := by
  obtain ⟨gives', mood, follows', shows⟩ := h
  refine ⟨gives.trans gives', mood, ?_, shows⟩
  rw [Mood.follow?_append, follows]
  exact follows'

end Accounts

/-- A turn at the end of a rule. -/
theorem run_turn_stop {s : State} (leftRecursive : Bool) (root : NodeId)
    (here : u.grammar.network.states[p.state]? = some s) (stop : s.isRuleStop = true) :
    (turn u leftRecursive root).run p = (do
      if ← isOutermost then return some (← conclude u leftRecursive root)
      visitRuleStop u p.state s
      return none : Parsing σ τ (Option NodeId)).run p := by
  simp only [turn, Step.run_bind (x := get), Step.run_get]
  rw [here, Step.required, pure_bind, if_pos stop]

/-- A turn within a rule: a recoverable failure makes the parser abandon the rule. -/
theorem run_turn_going {s : State} (leftRecursive : Bool) (root : NodeId)
    (here : u.grammar.network.states[p.state]? = some s) (going : s.isRuleStop = false) :
    (turn u leftRecursive root).run p = match (visitState u p.state s).run p with
      | (.ok (), q) => (.ok none, q)
      | (.error (.recoverable e), q) => (abandonRule u s e >>= fun _ => pure none).run q
      | (.error failure, q) => (.error failure, q) := by
  simp only [turn, Step.run_bind (x := get), Step.run_get]
  rw [here, Step.required, pure_bind, if_neg (by simp [going]), Step.run_bind, Step.run_attempt]
  obtain ⟨outcome, q, run⟩ : ∃ outcome q, (visitState u p.state s).run p = (outcome, q) := ⟨_, _, rfl⟩
  rw [run]
  rcases outcome with (e | e | e) | ⟨⟩ <;> rfl

/-- The signals where a rule is given up. -/
theorem abandon_accounts (repairs : u.options.errorStrategy = .repair) (s : State)
    {e : RecognitionError} (explained : e.Explained) : ∃ after,
      p.Signals ((abandonRule u s e).run p).2 (.caught e :: after) ∧ Signal.Uncaught after ∧
      Accounts u p (.caught e :: after)
        ((abandonRule u s e >>= fun _ => pure none : Parsing σ τ (Option α)).run p) := by
  obtain ⟨after, gives, uncaught, answers⟩ := abandonRule_signals (p := p) repairs s explained
  refine ⟨after, gives, uncaught, ?_⟩
  obtain ⟨outcome, q, run⟩ : ∃ outcome q, (abandonRule u s e).run p = (outcome, q) := ⟨_, _, rfl⟩
  rw [run] at gives answers
  rcases answers with ⟨rfl, missing, rfl, same⟩ | ⟨follows, ends⟩
  · -- The error is never reported.
    rw [Step.run_bind_error run]
    cases flag : p.recovery.active with
    | true =>
        refine ⟨gives, .alarm, by rw [flag]; rfl, .inl ⟨true, rfl, .inr ?_⟩⟩
        exact (same.trans flag).symm
    | false => exact ⟨gives, .due e, by rw [flag]; rfl, .inr ⟨e, s.rule, rfl, missing, rfl⟩⟩
  cases outcome with
  | ok =>
      rw [Step.run_bind_ok run]
      have active : q.recovery.active = true := ends.resolve_left (by simp)
      exact ⟨gives, .alarm, follows, .inl ⟨true, rfl, .inr active.symm⟩⟩
  | error failure =>
      rw [Step.run_bind_error run]
      refine ⟨gives, .alarm, follows, .inl ⟨true, rfl, ends.imp ?_ Eq.symm⟩⟩
      exact fun ⟨fault, eq⟩ => ⟨fault, congrArg _ (Except.error.inj eq)⟩

/-- One round of a parse. -/
theorem turn_signals (repairs : u.options.errorStrategy = .repair) (leftRecursive : Bool)
    (root : NodeId) : ∃ signals, SignalsHere u p signals ∧
      Accounts u p signals ((turn u leftRecursive root).run p) := by
  obtain missing | ⟨s, here⟩ := Option.eq_none_or_eq_some u.grammar.network.states[p.state]?
  · have run : (turn u leftRecursive root).run p =
        (throw (.fatal (.network (.invalidState p.state))) : Parsing σ τ (Option NodeId)).run p := by
      simp only [turn, Step.run_bind (x := get), Step.run_get]
      rw [missing]
      rfl
    rw [run]
    exact ⟨[], .still fun s here => by simp [missing] at here, .silent fun _ => .throw (by simp)⟩
  cases stop : s.isRuleStop with
  | true =>
      refine ⟨[], .still fun s' here' => ?_, ?_⟩
      · rwa [Option.some.inj (here'.symm.trans here)]
      rw [run_turn_stop leftRecursive root here stop]
      refine .silent fun t => .bind (.bind .get fun _ => .pure _) fun outermost => .ite ?_ ?_
      · exact .bind (conclude_silent _ _) fun _ => .pure _
      · exact .bind (visitRuleStop_silent _ _) fun _ => .pure _
  | false =>
      rw [run_turn_going leftRecursive root here stop]
      obtain ⟨signals, alarm, gives, uncaught, follows, ends, explained⟩ :=
        visitState_monitored (p := p) repairs p.state s
      obtain ⟨outcome, q, run⟩ : ∃ outcome q, (visitState u p.state s).run p = (outcome, q) :=
        ⟨_, _, rfl⟩
      rw [run] at ends explained gives ⊢
      have accounts {shown : Except Failure (Option NodeId)}
          (shows : (∃ fault, shown = .error (.fault fault)) ∨ alarm = q.recovery.active) :
          Accounts u p signals (shown, q) :=
        ⟨gives, _, follows, .inl ⟨alarm, rfl, shows⟩⟩
      have visit (sound : ∀ e, outcome ≠ .error (.recoverable e)) : SignalsHere u p signals :=
        .visit here stop (by rwa [run]) uncaught (by rwa [run])
      cases outcome with
      | ok => exact ⟨signals, visit (by simp), accounts (.inr (ends.resolve_left (by simp)))⟩
      | error failure =>
          cases failure with
          | fatal e =>
              exact ⟨signals, visit (by simp), accounts (.inr (ends.resolve_left (by simp)))⟩
          | fault fault => exact ⟨signals, visit (by simp), accounts (.inl ⟨fault, rfl⟩)⟩
          | recoverable e =>
              have calm := ends.resolve_left (by simp)
              obtain ⟨after, gives', uncaught', accounts'⟩ :=
                abandon_accounts (p := q) repairs s (explained e rfl)
              exact ⟨_, .abandon here stop run gives uncaught gives' uncaught',
                accounts'.append gives (calm ▸ follows)⟩

/-- The states that a parse visits, with the signals at each of them. -/
theorem visitStates_signals (repairs : u.options.errorStrategy = .repair) (leftRecursive : Bool)
    (root : NodeId) (fuel : Nat) (p : Parser σ τ) : ∃ turns : List (List Signal),
      List.Forall₂ (SignalsHere u) (visitedFrom u leftRecursive root fuel p) turns ∧
      Accounts u p turns.flatten ((visitStates u leftRecursive root fuel).run p) := by
  induction fuel generalizing p with
  | zero => exact ⟨[], .nil, .silent fun _ => .throw (by simp)⟩
  | succ fuel ih =>
      obtain ⟨signals, here, gives, mood, follows, shows⟩ :=
        turn_signals (p := p) repairs leftRecursive root
      rw [visitStates_succ, visitedFrom]
      obtain ⟨outcome, q, run⟩ : ∃ outcome q, (turn u leftRecursive root).run p = (outcome, q) :=
        ⟨_, _, rfl⟩
      rw [run] at gives shows ⊢
      rcases outcome with failure | none | answer
      case error =>
          rw [Step.run_bind_error run]
          refine ⟨[signals], .cons here .nil, ?_⟩
          rw [List.flatten_singleton]
          exact ⟨gives, mood, follows, by simpa [Shows] using shows⟩
      case ok.some =>
          rw [Step.run_bind_ok run]
          refine ⟨[signals], .cons here .nil, ?_⟩
          rw [List.flatten_singleton]
          exact ⟨gives, mood, follows, by simpa [Shows] using shows⟩
      case ok.none =>
          rw [Step.run_bind_ok run]
          obtain ⟨turns, all, accounts⟩ := ih q
          have calm : mood = .ofAlarm q.recovery.active := by simpa [Shows] using shows
          exact ⟨signals :: turns, .cons here all, accounts.append gives (calm ▸ follows)⟩

/-- A whole parse, with the signals at each state that it visits. -/
theorem parse_signals (repairs : u.options.errorStrategy = .repair) (rule : Nat) (p : Parser σ τ) :
    ∃ turns : List (List Signal), List.Forall₂ (SignalsHere u) (visited u rule p) turns ∧
      Accounts u p turns.flatten ((parse u rule).run p) := by
  rw [parse_eq, visited]
  obtain ⟨outcome, q, run⟩ : ∃ outcome q, (enter u rule).run p = (outcome, q) := ⟨_, _, rfl⟩
  have entered := Accounts.silent (u := u) (p := p) fun _ => enter_silent (u := u) rule
  have same := (enter_silent (u := u) rule p rfl).1
  rw [run] at entered same ⊢
  obtain ⟨gives, mood, follows, shows⟩ := entered
  cases outcome with
  | error failure =>
      rw [Step.run_bind_error run]
      exact ⟨[], .nil, gives, mood, follows, by simpa [Shows] using shows⟩
  | ok root =>
      rw [Step.run_bind_ok run]
      obtain ⟨turns, all, accounts⟩ := visitStates_signals repairs
        (u.grammar.network.isLeftRecursiveRule rule) root u.fuel q
      have flag := congrArg Parser.Tally.active same
      exact ⟨turns, all, accounts.append gives (congrArg (fun alarm => some (Mood.ofAlarm alarm)) flag.symm)⟩

/-- One report for each mistake. The signals at the states that a parse visits are what the log of
recovery has more in the end, and:
the errors counted are the mistakes told of, and these are the ones reported;
between two reports a match is acknowledged;
an error that ends the visit of a state is reported at once if no report is unacknowledged, and not
at all otherwise, and it is reported nowhere else.
Only where the error is found in a rule that the network does not have, the parse ends without a
report of it. -/
theorem parse_reports (repairs : u.options.errorStrategy = .repair) (rule : Nat) (p : Parser σ τ) :
    let result := (parse u rule).run p
    ∃ turns : List (List Signal), List.Forall₂ (SignalsHere u) (visited u rule p) turns ∧
      let signals := turns.flatten
      let reported := signals.filterMap Signal.mistake?
      result.2.recovery.log.toList = p.recovery.log.toList ++ signals.map Signal.notice ∧
      (result.2.errorCount = p.errorCount + reported.length ∧
        result.2.simulation.mistakes = p.simulation.mistakes ++ reported) ∧
      (∀ before m between m' after,
        signals = before ++ .reported m :: between ++ .reported m' :: after → .matched ∈ between) ∧
      (∀ before e after, signals = before ++ .caught e :: after →
        if Signal.unacknowledged p.recovery.active before then
          ∀ m rest, after ≠ .reported m :: rest
        else
          (∃ m rest, after = .reported m :: rest ∧ m.error = some e) ∨
            after = [] ∧ ∃ rule, u.grammar.network.ruleStops[rule]? = none ∧
              result.1 = .error (.fatal (.network (.invalidRule rule)))) ∧
      ∀ before m after e, signals = before ++ .reported m :: after → m.error = some e →
        ∃ earlier, before = earlier ++ [.caught e] := by
  intro result
  obtain ⟨turns, all, gives, mood, follows, shows⟩ := parse_signals repairs rule p
  refine ⟨turns, all, gives.noted, ⟨gives.count, gives.told⟩, ?_, ?_, ?_⟩
  · intro before m between m' after eq
    rw [eq] at follows
    exact Mood.matched_between follows
  · intro before e after eq
    rw [eq] at follows
    split
    case isTrue alarmed => exact Mood.caught_alarm follows alarmed
    case isFalse quiet =>
        refine (Mood.caught_rest follows (Bool.eq_false_iff.2 quiet)).imp id ?_
        rintro ⟨last, rfl⟩
        refine ⟨last, ?_⟩
        rcases shows with ⟨alarm, due, -⟩ | ⟨e', rule, -, missing, ended⟩
        · cases alarm <;> cases due
        · exact ⟨rule, missing, ended⟩
  · intro before m after e eq tells
    rw [eq] at follows
    exact Mood.caught_before follows tells

/-- A parser for sums and products at the start of the tokens `1 + * 2`, with one mistake. -/
theorem parse_reports_expression : ∃ n, Samples.expression.rules.build = .ok n ∧
    let u : ParserSetup Unit := {
      grammar := { network := n, names := Samples.expression.names }, fuel := 100 }
    let tokens : TokenList :=
      { tokens := #[{ type := 1 }, { type := 3 }, { type := 4 }, { type := 1 }] }
    let p : Parser TokenList Unit := .ofInput n (.ofNetwork n) { source := tokens } ()
    ∃ turns : List (List Signal), List.Forall₂ (SignalsHere u) (visited u 0 p) turns ∧
      (turns.flatten.filterMap Signal.mistake?).length = 1 := by
  let setup (n : Network) : ParserSetup Unit := {
    grammar := { network := n, names := Samples.expression.names }, fuel := 100 }
  let tokens : TokenList := { tokens := #[{ type := 1 }, { type := 3 }, { type := 4 }, { type := 1 }] }
  let parser (n : Network) : Parser TokenList Unit := .ofInput n (.ofNetwork n) { source := tokens } ()
  have checks : Samples.expression.rules.build.toOption.any (fun n =>
      ((parse (setup n) 0).run (parser n)).2.errorCount = 1) = true := by
    decide +kernel
  cases built : Samples.expression.rules.build with
  | error e => simp [built, Except.toOption] at checks
  | ok n =>
      simp only [built, Except.toOption, Option.any_some, decide_eq_true_eq] at checks
      obtain ⟨turns, all, -, ⟨count, -⟩, -⟩ := parse_reports (u := setup n) rfl 0 (parser n)
      refine ⟨n, rfl, turns, all, ?_⟩
      rw [checks] at count
      exact (count.trans (Nat.zero_add _)).symm

/-- Whether an error ends the visit of the state where the parser stands. -/
def breaksOff (u : ParserSetup τ) (p : Parser σ τ) : Bool :=
  u.grammar.network.states[p.state]?.any fun s =>
    match ((visitState u p.state s).run p).1 with
    | .error (.recoverable _) => true
    | _ => false

/-- In a rule that the network does not have, an error ends the parse without any report. -/
theorem parse_reports_stray : ∃ g, Description.stray.build = .ok g ∧
    let u : ParserSetup Unit := { grammar := g, fuel := 20 }
    let tokens : TokenList := { tokens := #[{ type := 1 }] }
    let p : Parser TokenList Unit :=
      .ofInput g.network (.ofNetwork g.network) { source := tokens } ()
    let result := (parse u 0).run p
    (∃ q ∈ visited u 0 p, ∃ s e, g.network.states[q.state]? = some s ∧
        ((visitState u q.state s).run q).1 = .error (.recoverable e)) ∧
      result.1 = .error (.fatal (.network (.invalidRule 7))) ∧
      result.2.errorCount = 0 ∧ result.2.simulation.mistakes = [] := by
  let setup (g : Grammar) : ParserSetup Unit := { grammar := g, fuel := 20 }
  let tokens : TokenList := { tokens := #[{ type := 1 }] }
  let parser (g : Grammar) : Parser TokenList Unit :=
    .ofInput g.network (.ofNetwork g.network) { source := tokens } ()
  have checks : Description.stray.build.toOption.any (fun g =>
      let result := (parse (setup g) 0).run (parser g)
      (visited (setup g) 0 (parser g)).any (breaksOff (setup g)) &&
        decide (result.1 = .error (.fatal (.network (.invalidRule 7))) ∧
          result.2.errorCount = 0 ∧ result.2.simulation.mistakes.length = 0)) = true := by
    decide +kernel
  cases built : Description.stray.build with
  | error e => simp [built, Except.toOption] at checks
  | ok g =>
      simp only [built, Except.toOption, Option.any_some, Bool.and_eq_true, decide_eq_true_eq,
        List.length_eq_zero_iff] at checks
      obtain ⟨breaks, ended⟩ := checks
      obtain ⟨q, mem, breaks⟩ := List.any_eq_true.1 breaks
      refine ⟨g, rfl, ⟨q, mem, ?_⟩, ended⟩
      obtain ⟨s, here, breaks⟩ := (Option.any_eq_true _ _).1 breaks
      split at breaks
      case h_1 e failed => exact ⟨s, e, here, failed⟩
      case h_2 => cases breaks

end Runs

end Parsing

end AdaptiveLL
