import AdaptiveLL.Proofs.Parser.Turn
import AdaptiveLL.Proofs.Prediction.Chart
/-!
Parsers that make no mistake. If every decision has a chart, the tables are parts of the charts,
and the tokens to come fit, then the moves of a parser cannot fail: they count no error, predict
what the charts say, and leave the tables parts of the charts.
-/
namespace AdaptiveLL

open AdaptiveLL.Parser (Acts Looks Returns)

variable {σ τ α β : Type}

/-- A chart for each decision, and what it is about. -/
abbrev Atlas := List (Subject × Chart)

/-- The alternative of a decision at the start of its chart for the precedence. -/
def Atlas.alt? (a : Atlas) (d : Nat) (level : Int) (x : Symbol) : Option Nat := do
  let (v, c) ← a[d]?
  c.alt? (if v.byPrecedence then level else 0) level x

/-- What to draw of a decision. -/
structure Plan where
  decisionState : Nat
  byPrecedence : Bool := false
  levels : List Int := [0]
  symbols : List Symbol

def Atlas.draw (g : Grammar) (mode : PredictionMode) (fuel : Nat) (plans : List Plan) : Atlas :=
  plans.map fun plan =>
    let v : Subject := ⟨g, mode, plan.decisionState, plan.byPrecedence⟩
    (v, .draw v fuel plan.levels plan.symbols)

/-- The charts hold for the predictions of a parser. -/
structure Atlas.Holds (a : Atlas) (u : ParserSetup τ) : Prop where
  fuel : 0 < u.fuel
  about : ∀ {d : Nat} {v : Subject} {c : Chart}, a[d]? = some (v, c) →
    v.grammar = u.grammar ∧ v.mode = u.options.predictionMode
  charts : ∀ {d : Nat} {v : Subject} {c : Chart}, a[d]? = some (v, c) →
    ∃ limit ≤ u.fuel, c.Holds v limit

/-- Charts hold as they are drawn. -/
theorem Atlas.draw_holds {u : ParserSetup τ} {fuel : Nat} {plans : List Plan} (pos : 0 < fuel)
    (le : fuel ≤ u.fuel)
    (distinct : ∀ x ∈ Atlas.draw u.grammar u.options.predictionMode fuel plans, x.2.Distinct) :
    (Atlas.draw u.grammar u.options.predictionMode fuel plans).Holds u := by
  refine ⟨Nat.lt_of_lt_of_le pos le, fun {d v c} listed => ?_, fun {d v c} listed => ?_⟩
  · obtain ⟨plan, -, eq⟩ := List.mem_map.1 (List.mem_of_getElem? listed)
    obtain ⟨rfl, -⟩ := Prod.mk.inj eq
    exact ⟨rfl, rfl⟩
  · have distinct := distinct _ (List.mem_of_getElem? listed)
    obtain ⟨plan, -, eq⟩ := List.mem_map.1 (List.mem_of_getElem? listed)
    obtain ⟨rfl, rfl⟩ := Prod.mk.inj eq
    exact ⟨fuel, le, Chart.draw_holds _ _ _ _ distinct⟩

/-- The tables are parts of the charts. -/
structure Tables.Mapped (a : Atlas) (t : Tables) : Prop where
  sound : t.arena.Sound true
  charted : ∀ {d : Nat} {v : Subject} {c : Chart}, a[d]? = some (v, c) →
    ∃ table, t.tables[d]? = some table ∧ table.Charted v c

namespace Tables.Mapped

variable {a : Atlas} {t t' : Tables}

/-- New tables know nothing. -/
theorem ofNetwork {n : Network} (parses : n.kind = .parser)
    (decides : ∀ {d : Nat} {v : Subject} {c : Chart}, a[d]? = some (v, c) →
      n.decisions[d]? = some v.decisionState ∧
      v.byPrecedence = (n.states[v.decisionState]?.map State.precedenceLoop).getD false) :
    (Tables.ofNetwork n).Mapped a := by
  refine ⟨⟨.empty, fun _ mem => by cases mem⟩, fun {d v c} listed => ?_⟩
  obtain ⟨here, byPrecedence⟩ := decides listed
  let table : PredictionTable := {
    decision := d, startState := v.decisionState
    byPrecedence := (n.states[v.decisionState]?.map State.precedenceLoop).getD false }
  refine ⟨table, by simp [Tables.ofNetwork, parses, here, table], ?_⟩
  exact .of_empty rfl byPrecedence.symm rfl rfl rfl rfl

/-- New tables know nothing of what is drawn. -/
theorem of_plans {n : Network} {g : Grammar} {mode : PredictionMode} {fuel : Nat}
    {plans : List Plan} (parses : n.kind = .parser)
    (fits : ∀ x ∈ plans.zipIdx, n.decisions[x.2]? = some x.1.decisionState ∧
      x.1.byPrecedence = (n.states[x.1.decisionState]?.map State.precedenceLoop).getD false) :
    (Tables.ofNetwork n).Mapped (.draw g mode fuel plans) := by
  refine .ofNetwork parses fun {d v c} listed => ?_
  rw [Atlas.draw, List.getElem?_map, Option.map_eq_some_iff] at listed
  obtain ⟨plan, here, eq⟩ := listed
  obtain ⟨rfl, -⟩ := Prod.mk.inj eq
  exact fits (plan, d) (List.mk_mem_zipIdx_iff_getElem?.2 here)

/-- A prediction that keeps to the chart of its decision. -/
theorem predicted (h : t.Mapped a) {d : Nat} {v : Subject} {c : Chart}
    (listed : a[d]? = some (v, c)) (charted : t'.Charted d v c t) : t'.Mapped a where
  sound := charted.sound
  charted {e v' c'} listed' := by
    by_cases same : e = d
    · subst same
      obtain ⟨rfl, rfl⟩ := Prod.mk.inj (Option.some.inj (listed.symm.trans listed'))
      exact charted.own
    · rw [charted.others e same]
      exact h.charted listed'

end Tables.Mapped

variable [TokenSource σ] {a : Atlas} {u : ParserSetup τ} {p p' p'' q : Parser σ τ}
  {leaves more : List Leaf} {t : Token} {ts : List Token}

namespace Parser

/-- The parser has made no mistake, and these tokens are to come. -/
structure Calm (a : Atlas) (p : Parser σ τ) (ts : List Token) : Prop where
  sound : p.input.Sound
  upcoming : p.input.Upcoming ts
  mapped : p.simulation.tables.Mapped a
  active : p.recovery.active = false
  unprescribed : p.prescription = none
  errors : p.errorCount = 0

/-- Moves that count no error and keep to the charts. -/
structure Fares (a : Atlas) (u : ParserSetup τ) (p p' : Parser σ τ) (leaves : List Leaf) : Prop
    extends Acts u p p' leaves where
  count : p'.errorCount = p.errorCount
  mapped : p.simulation.tables.Mapped a → p'.simulation.tables.Mapped a

namespace Fares

theorem refl (a : Atlas) (u : ParserSetup τ) (p : Parser σ τ) : Fares a u p p [] :=
  ⟨.refl u p, rfl, id⟩

theorem trans (h : Fares a u p p' leaves) (h' : Fares a u p' p'' more) :
    Fares a u p p'' (leaves ++ more) :=
  ⟨h.toActs.trans h'.toActs, h'.count.trans h.count, fun mapped => h'.mapped (h.mapped mapped)⟩

/-- Moves that neither report nor predict. -/
theorem of_acts (acts : Acts u p p' leaves) (count : p'.errorCount = p.errorCount)
    (tables : p'.simulation.tables = p.simulation.tables) : Fares a u p p' leaves :=
  ⟨acts, count, fun mapped => tables ▸ mapped⟩

theorem of_looks (h : Looks p p') : Fares a u p p' [] := by
  refine of_acts h.acts ?_ ?_ <;> obtain ⟨input, -, rfl⟩ := h <;> rfl

end Fares

namespace Calm

/-- What is passed was to come. -/
theorem fares (h : p.Calm a ts) (fares : Fares a u p p' leaves) :
    ∃ rest, ts = leaves.filterMap Leaf.passed? ++ rest ∧ p'.Calm a rest := by
  obtain ⟨rest, eq, upcoming⟩ := h.upcoming.passes h.sound fares.passes
  refine ⟨rest, eq, fares.passes.sound h.sound, upcoming, fares.mapped h.mapped, ?_, ?_, ?_⟩
  · exact (fares.calm fares.count h.active).1
  · exact fares.prescription h.unprescribed
  · exact fares.count.trans h.errors

theorem still (h : p.Calm a ts) (fares : Fares a u p p' []) : p'.Calm a ts := by
  obtain ⟨rest, rfl, calm⟩ := h.fares fares
  exact calm

theorem of_eq (h : p.Calm a ts) (simulation : p'.simulation = p.simulation)
    (recovery : p'.recovery = p.recovery) (prescription : p'.prescription = p.prescription)
    (errors : p'.errorCount = p.errorCount) : p'.Calm a ts where
  sound := by
    rw [Parser.input, simulation]
    exact h.sound
  upcoming := by
    rw [Parser.input, simulation]
    exact h.upcoming
  mapped := simulation ▸ h.mapped
  active := recovery ▸ h.active
  unprescribed := prescription.trans h.unprescribed
  errors := errors.trans h.errors

theorem at_state (h : p.Calm a ts) (state : Nat) : ({ p with state } : Parser σ τ).Calm a ts :=
  h.of_eq rfl rfl rfl rfl

/-- The current token is the next one to come. -/
theorem currentToken (h : p.Calm a (t :: ts)) : p.currentToken = t := by
  have placed := h.sound.toPlaced
  have get := (current?_eq p).symm.trans (currentToken_of_placed placed)
  have current := h.upcoming.current h.sound get
  split at current
  · cases current
  · obtain ⟨_, same⟩ := current
    exact (List.cons.inj same).1.symm

/-- If nothing is to come, the current token is the end of the input. -/
theorem currentToken_end (h : p.Calm a []) : p.currentToken.isEof = true := by
  have get := (current?_eq p).symm.trans (currentToken_of_placed h.sound.toPlaced)
  have current := h.upcoming.current h.sound get
  split at current
  · assumption
  · obtain ⟨_, same⟩ := current
    cases same

end Calm

end Parser

/-! ### Moves that neither report nor predict -/

/-- Wherever the move ends, it has counted no error and left the tables as they were. -/
def Quiet (x : Parsing σ τ α) : Prop :=
  ∀ p, x.Ensures p (fun _ p' => p'.errorCount = p.errorCount ∧
    p'.simulation.tables = p.simulation.tables) fun _ _ => True

namespace Quiet

omit [TokenSource σ]

theorem pure (b : α) : Quiet (Pure.pure b : Parsing σ τ α) :=
  fun _ => .of_ok rfl ⟨rfl, rfl⟩

theorem throw (e : Failure) : Quiet (throw e : Parsing σ τ α) :=
  fun _ => .of_error rfl trivial

theorem get : Quiet (MonadState.get : Parsing σ τ (Parser σ τ)) :=
  fun _ => .of_ok rfl ⟨rfl, rfl⟩

theorem modify {f : Parser σ τ → Parser σ τ} (h : ∀ p, (f p).errorCount = p.errorCount ∧
    (f p).simulation.tables = p.simulation.tables) : Quiet (modify f : Parsing σ τ PUnit) :=
  fun p => .of_ok rfl (h p)

theorem bind {x : Parsing σ τ α} {f : α → Parsing σ τ β} (first : Quiet x)
    (rest : ∀ b, Quiet (f b)) : Quiet (x >>= f) := by
  refine fun p => .bind ((first p).imp ?_ fun _ _ => id)
  rintro b p₁ ⟨count, tables⟩
  refine (rest b p₁).imp ?_ fun _ _ => id
  rintro _ p₂ ⟨count', tables'⟩
  exact ⟨count'.trans count, tables'.trans tables⟩

theorem required (error : NetworkError) (answer : Option α) :
    Quiet (Step.required error answer : Parsing σ τ α) := by
  cases answer with
  | none => exact .throw _
  | some b => exact .pure b

theorem forM {f : β → Parsing σ τ PUnit} (h : ∀ b, Quiet (f b)) (bs : List β) :
    Quiet (bs.forM f) := by
  induction bs with
  | nil => exact .pure _
  | cons b bs ih => exact .bind (h b) fun _ => ih

end Quiet

namespace Parsing

section

omit [TokenSource σ]

theorem notify_quiet (event : TreeEvent) : Quiet (notify u event : Parsing σ τ Unit) :=
  .modify fun _ => ⟨rfl, rfl⟩

theorem notifyReversed_quiet (event : TreeEvent) :
    Quiet (notifyReversed u event : Parsing σ τ Unit) :=
  .modify fun _ => ⟨rfl, rfl⟩

theorem modifyTree_quiet (f : ParseTree → ParseTree) : Quiet (modifyTree f : Parsing σ τ Unit) :=
  .modify fun _ => ⟨rfl, rfl⟩

theorem setState_quiet (state : Nat) : Quiet (setState state : Parsing σ τ Unit) :=
  .modify fun _ => ⟨rfl, rfl⟩

theorem setContext_quiet (context : Option NodeId) :
    Quiet (setContext context : Parsing σ τ Unit) :=
  .modify fun _ => ⟨rfl, rfl⟩

theorem newContext_quiet (parent : Option NodeId) (invoking : Option Nat) (rule : Nat) :
    Quiet (newContext parent invoking rule : Parsing σ τ NodeId) :=
  fun _ => .of_ok rfl ⟨rfl, rfl⟩

theorem deepen_quiet (rule : Nat) : Quiet (deepen u rule : Parsing σ τ Unit) := by
  refine fun p => (deepen_ensures rule).imp ?_ fun _ _ _ => trivial
  rintro _ _ ⟨rfl, -⟩
  exact ⟨rfl, rfl⟩

theorem onInput_quiet (f : TokenStream σ → α × TokenStream σ) : Quiet (onInput f : Parsing σ τ α) :=
  fun _ => .of_ok rfl ⟨rfl, rfl⟩

end

theorem enterRule_quiet (context state rule : Nat) :
    Quiet (enterRule u context state rule : Parsing σ τ Unit) :=
  .bind (deepen_quiet rule) fun _ => .bind (setState_quiet state) fun _ =>
    .bind (setContext_quiet _) fun _ => .bind (onInput_quiet _) fun _ =>
      .bind (modifyTree_quiet _) fun _ => notify_quiet _

theorem enterRecursiveRule_quiet (context state rule : Nat) (precedence : Int) :
    Quiet (enterRecursiveRule u context state rule precedence : Parsing σ τ Unit) :=
  .bind (deepen_quiet rule) fun _ => .bind (.modify fun _ => ⟨rfl, rfl⟩) fun _ =>
    .bind (onInput_quiet _) fun _ => .bind (modifyTree_quiet _) fun _ => notify_quiet _

theorem enterCall_quiet (context start rule : Nat) (precedence : Int) :
    Quiet (enterCall u context start rule precedence : Parsing σ τ Unit) := by
  unfold enterCall
  split
  · exact .bind (.modify fun _ => ⟨rfl, rfl⟩) fun _ => enterRecursiveRule_quiet _ _ _ _
  · exact enterRule_quiet _ _ _

theorem exitRule_quiet : Quiet (exitRule u : Parsing σ τ Unit) := by
  refine .bind .get fun p => ?_
  split
  · exact .pure _
  · exact .bind .get fun _ => .bind (onInput_quiet _) fun _ => .bind (modifyTree_quiet _) fun _ =>
      .bind (notifyReversed_quiet _) fun _ => .modify fun _ => ⟨rfl, rfl⟩

theorem wrapContext_quiet (context state : Nat) :
    Quiet (wrapContext u context state : Parsing σ τ Unit) := by
  refine .bind .get fun p => ?_
  split
  · exact .pure _
  · exact .bind (onInput_quiet _) fun _ => .bind (modifyTree_quiet _) fun _ =>
      .bind (notifyReversed_quiet _) fun _ => .bind (.modify fun _ => ⟨rfl, rfl⟩) fun _ =>
        notify_quiet _

theorem unwrapContexts_quiet (parent : Option NodeId) :
    Quiet (unwrapContexts u parent : Parsing σ τ Unit) := by
  refine .bind (.modify fun _ => ⟨rfl, rfl⟩) fun _ => .bind .get fun p => ?_
  split
  · exact setContext_quiet _
  · exact .bind (onInput_quiet _) fun _ => .bind (modifyTree_quiet _) fun _ =>
      .bind .get fun _ => .bind (.forM (fun _ => notifyReversed_quiet _) _) fun _ =>
        .modify fun _ => ⟨rfl, rfl⟩

theorem continueRecursion_quiet (s : State) : Quiet (continueRecursion u s : Parsing σ τ Unit) :=
  .bind .get fun _ => .bind (newContext_quiet _ _ _) fun _ => .bind (.required _ _) fun _ =>
    wrapContext_quiet _ _

theorem visitRuleStop_quiet (number : Nat) (s : State) :
    Quiet (visitRuleStop u number s : Parsing σ τ Unit) := by
  have goesOn : Quiet (do
      let invoking := (← get).state
      let follow ← Step.required (.unexpectedTransition invoking "non-rule")
        (u.grammar.network.followState? invoking)
      setState follow : Parsing σ τ Unit) :=
    .bind .get fun _ => .bind (.required _ _) fun _ => setState_quiet _
  unfold visitRuleStop
  extract_lets n goOn
  split
  · refine .bind .get fun p => ?_
    split
    · exact .throw _
    · exact .bind (.modify fun _ => ⟨rfl, rfl⟩) fun _ => .bind (unwrapContexts_quiet _) fun _ =>
        .bind (setState_quiet _) fun _ => goesOn
  · exact .bind exitRule_quiet fun _ => goesOn

end Parsing

end AdaptiveLL
