import AdaptiveLL.Proofs.Network.Answers
import AdaptiveLL.Proofs.Prediction.Searching
import AdaptiveLL.Proofs.Stream.Upcoming
/-!
How far predictions look. Each turn of a stage but the last one passes a token. At the end of the
input nothing can be passed, so that the turn made there has to be the last one: whatever is left has
finished its rules, and is a conflict if it does not agree.
-/
namespace AdaptiveLL

open StackGraph

variable {σ τ : Type}

/-- The edges of the state lead to states of one rule. -/
def Network.OneRule (n : Network) (q : Nat) : Prop :=
  ∃ rule, ∀ s ∈ n.states[q]?, ∀ t ∈ s.transitions, n.InRule t.target rule

namespace Prediction

variable [TokenSource σ]

/-- The tokens that are to come. -/
structure Faces (s : Simulation σ τ) (ts : List Token) : Prop where
  sound : s.input.Sound
  upcoming : s.input.Upcoming ts

theorem Faces.passes {s s' : Simulation σ τ} {ts : List Token} (h : Faces s ts)
    (passes : s.input.Passes s'.input []) : Faces s' ts := by
  obtain ⟨rest, rfl, upcoming⟩ := h.upcoming.passes h.sound passes
  exact ⟨passes.sound h.sound, upcoming⟩

section Stages

variable {α : Type} {q : Problem τ} {known full : Prop} {near far : Nat} {s₀ s : Simulation σ τ}
  {ts : List Token} {symbol : Symbol}

/-- However the step ends, only so many tokens have been counted since `s₀`. -/
abbrev Spends (q : Problem τ) (known full : Prop) (near far : Nat) (s₀ s : Simulation σ τ)
    (x : Prediction σ τ α) : Prop :=
  x.Ensures s (fun _ s' => Searching q known full near far s₀ s')
    fun _ s' => Searching q known full near far s₀ s'

theorem Spends.imp {near' far' : Nat} {x : Prediction σ τ α} (h : Spends q known full near far s₀ s x)
    (near_le : known → near ≤ near') (far_le : full → far ≤ far') :
    Spends q known full near' far' s₀ s x :=
  Step.Ensures.imp h (fun _ _ inv => inv.imp near_le far_le) fun _ _ inv => inv.imp near_le far_le

/-- What is done beside counts no tokens. -/
theorem Searching.beside {x : Prediction σ τ α} (inv : Searching q known full near far s₀ s)
    (h : ∀ {Inv : Simulation σ τ → Prop}, Aside Inv → Step.Keeps Inv x fun _ => True) :
    Spends q known full near far s₀ s x :=
  (h Searching.aside s inv).imp (fun _ _ => And.left) fun _ _ => And.left

/-- What a turn and those behind the token that it passes may count. -/
theorem turn_le (more : ts ≠ []) (k : Nat) : k + 1 + ts.tail.length + 1 ≤ k + ts.length + 1 := by
  have := List.length_pos_of_ne_nil more
  rw [List.length_tail]
  omega

/-- When the cursor is put back to where the prediction started, the same tokens are to come. -/
theorem Searching.seek_start {P : Prop} (inv : Searching q known full near far s₀ s)
    (start : q.start = s₀.input.index) (faces : P → Faces s₀ ts) :
    let back : Simulation σ τ := { s with input := s.input.seek q.start }
    Searching q known full near far s₀ back ∧ (P → Faces back ts) := by
  have passes : s₀.input.Passes (s.input.seek q.start) [] := start ▸ TokenStream.seek_back inv.led
  exact ⟨{ inv with led := passes.toLeads }, fun yes => (faces yes).passes passes⟩

/-- The cursor stands on the next token. -/
theorem current_run (faces : Faces s ts) :
    current.run s = (.ok (Token.nextType ts), { s with input := s.input.start }) := by
  rw [current, onInput, Step.run_bind_ok (Step.run_get s), faces.upcoming.lookahead_one faces.sound]
  rfl

/-- Stepping on: the next token is passed. -/
theorem advance_run (faces : Faces s ts) : ∃ input,
    (advance (Token.nextType ts)).run s = (.ok (Token.nextType ts.tail), { s with input }) ∧
      s.input.Leads input ∧ input.Upcoming ts.tail := by
  cases ts with
  | nil => exact ⟨s.input, rfl, .refl _, faces.upcoming⟩
  | cons t rest =>
      have more : Token.nextType (t :: rest) ≠ Symbol.eof :=
        fun eof => List.cons_ne_nil t rest (faces.upcoming.nextType_eq_eof faces.sound eof)
      obtain ⟨passes, upcoming⟩ := faces.upcoming.consume faces.sound
      have stepped : Faces { s with input := s.input.consume } rest :=
        ⟨passes.sound faces.sound, upcoming⟩
      have started := TokenStream.start_passes s.input.consume
      obtain ⟨_, rfl, upcoming'⟩ := upcoming.passes stepped.sound started
      refine ⟨s.input.consume.start, ?_, passes.toLeads.trans started.toLeads, upcoming'⟩
      rw [advance, if_neg more]
      have passed : (consume : Prediction σ τ Unit).run s = (.ok (), { s with input := s.input.consume }) :=
        rfl
      exact (Step.run_bind_ok passed).trans (current_run stepped)

/-- Stepping on, whether or not it is known what is to come. -/
theorem advance_searches {P : Prop} (inv : Searching q known full near far s₀ s)
    (reads : P → Faces s ts ∧ symbol = Token.nextType ts) :
    (advance symbol).Ensures s
      (fun next s' => Searching q known full near far s₀ s' ∧ s'.tables = s.tables ∧
        (P → Faces s' ts.tail ∧ next = Token.nextType ts.tail))
      fun _ s' => Searching q known full near far s₀ s' := by
  by_cases told : P
  · obtain ⟨faces, rfl⟩ := reads told
    obtain ⟨input, run, leads, upcoming⟩ := advance_run faces
    exact .of_ok run ⟨{ inv with led := inv.led.trans leads }, rfl,
      fun _ => ⟨⟨leads.sound faces.sound, upcoming⟩, rfl⟩⟩
  · have kept : Step.Keeps (fun s' : Simulation σ τ =>
        Searching q known full near far s₀ s' ∧ s'.tables = s.tables) (advance symbol) fun _ => True :=
      (Searching.aside.and (.tables s.tables)).advance symbol
    refine (kept s ⟨inv, rfl⟩).imp ?_ fun _ _ h => h.1.1
    exact fun _ s' ⟨⟨inv, same⟩, _⟩ => ⟨inv, same, fun yes => absurd yes told⟩

theorem current_searches {P : Prop} (inv : Searching q known full near far s₀ s)
    (faces : P → Faces s ts) :
    current.Ensures s
      (fun symbol s' => Searching q known full near far s₀ s' ∧ s'.tables = s.tables ∧
        (P → Faces s' ts ∧ symbol = Token.nextType ts))
      fun _ s' => Searching q known full near far s₀ s' := by
  by_cases told : P
  · have started := TokenStream.start_passes s.input
    refine .of_ok (current_run (faces told)) ⟨{ inv with led := inv.led.trans started.toLeads }, rfl, ?_⟩
    exact fun _ => ⟨(faces told).passes started, rfl⟩
  · have kept : Step.Keeps (fun s' : Simulation σ τ =>
        Searching q known full near far s₀ s' ∧ s'.tables = s.tables) current fun _ => True :=
      (Searching.aside.and (.tables s.tables)).current
    refine (kept s ⟨inv, rfl⟩).imp ?_ fun _ _ h => h.1.1
    exact fun _ s' ⟨⟨inv, same⟩, _⟩ => ⟨inv, same, fun yes => absurd yes told⟩

/-- The stage with the full context. -/
theorem predictFully_searches (confines : Confines q.grammar.network full q) (fuel : Nat) {rule : Nat}
    {configs : ConfigurationSet} (inv : Searching q known full near far s₀ s)
    (kept : configs.Kept q.grammar.network full rule s.tables.graph)
    (reads : full → Faces s ts ∧ symbol = Token.nextType ts) :
    Spends q known full near (far + ts.length + 1) s₀ s (predictFully q fuel configs symbol) := by
  induction fuel generalizing far s configs symbol ts with
  | zero => exact inv.imp (fun _ => Nat.le_refl _) fun _ => by omega
  | succ fuel ih =>
      rw [predictFully]
      refine .bind (.of_ok rfl ?_)
      have counted : Searching q known full near (far + 1) s₀
          (s.modifyStats q.decision fun i => { i with fullLookahead := i.fullLookahead + 1 }) :=
        { inv with
          counted := inv.counted.modifyStats (a := 0) (b := 1) q.decision fun _ => ⟨rfl, rfl⟩ }
      have once : far + 1 ≤ far + ts.length + 1 := by omega
      refine .bind (((reach_reached confines (fun _ => rfl) counted.keeps kept.rooted kept.spent
        symbol).seeking counted).imp ?_ fun _ _ inv => inv.imp (fun _ => Nat.le_refl _) fun _ => once)
      rintro reached s₁ ⟨inv₁, grown, passes, all⟩
      have stays {x : Prediction σ τ Nat} (h : ∀ {Inv : Simulation σ τ → Prop}, Aside Inv →
          Step.Keeps Inv x fun _ => True) :
          Spends q known full near (far + ts.length + 1) s₀ s₁ x :=
        (inv₁.beside h).imp (fun _ => Nat.le_refl _) fun _ => once
      cases reached with
      | none => exact stays (·.deadEnd (fun _ => id) _)
      | some set =>
          have set_reached := all set rfl
          refine .ite (fun _ => ?_) fun disagree => .ite (fun _ => ?_) fun goesOn => ?_
          · refine stays fun aside => .bind (aside.count fun _ => ⟨rfl, rfl⟩) fun _ _ => ?_
            exact .bind index_keeps fun _ _ => .bind (aside.report (fun _ _ => id) _ _ _) fun _ _ => .pure trivial
          · refine stays fun aside => .bind index_keeps fun _ _ => ?_
            exact .bind (aside.reportAmbiguity (fun _ _ => id) _ _ _ _) fun _ _ => .pure trivial
          · have disagree : set.agreedAlt = noAlt := not_not.1 disagree
            have reads₁ : full → Faces s₁ ts ∧ symbol = Token.nextType ts :=
              fun yes => ⟨(reads yes).1.passes passes, (reads yes).2⟩
            -- At the end of the input the stage would have stopped.
            have more : full → ts ≠ [] := by
              rintro yes rfl
              obtain rfl : symbol = Symbol.eof := (reads yes).2
              obtain ⟨certain, equal, viable⟩ :=
                set_reached.stops yes (confines.enclosed yes) disagree
              refine goesOn ?_
              cases exact : q.mode == .exactAmbiguity with
              | true => simp [certain, equal]
              | false => simp [viable]
            refine .bind ((advance_searches inv₁ reads₁).imp ?_ fun _ _ inv =>
              inv.imp (fun _ => Nat.le_refl _) fun _ => once)
            rintro next s₂ ⟨inv₂, same, reads₂⟩
            have kept : ConfigurationSet.Kept q.grammar.network full rule s₂.tables.graph
                { set with uniqueAlt := set.agreedAlt } := by
              have h := set_reached.kept disagree
              rw [same]
              exact ⟨h.rooted, h.spent, disagree, h.unmarked.2⟩
            exact (ih inv₂ kept reads₂).imp (fun _ => Nat.le_refl _) fun yes => turn_le (more yes) far

/-- The stage without context, if what it hands over to is bounded. -/
theorem predictLocally_searches (fuel : Nat) {far' : Nat} (le : far ≤ far')
    (resolves : ∀ {near : Nat} {s : Simulation σ τ} (d : TableState),
      Searching q known full near far s₀ s → Spends q known full near far' s₀ s (resolve q d))
    {d : TableState} (inv : Searching q known full near far s₀ s)
    (settled : d.Settled q.grammar.network s.tables.graph)
    (reads : known → Faces s ts ∧ symbol = Token.nextType ts) :
    Spends q known full (near + ts.length + 1) far' s₀ s (predictLocally q fuel d symbol) := by
  induction fuel generalizing near s d symbol ts with
  | zero => exact inv.imp (fun _ => by omega) fun _ => le
  | succ fuel ih =>
      rw [predictLocally]
      refine .bind (.of_ok rfl ?_)
      have counted : Searching q known full (near + 1) far s₀
          (s.modifyStats q.decision fun i => { i with localLookahead := i.localLookahead + 1 }) :=
        { inv with
          counted := inv.counted.modifyStats (a := 1) (b := 0) q.decision fun _ => ⟨rfl, rfl⟩ }
      have once : near + 1 ≤ near + ts.length + 1 := by omega
      refine .bind ((target_seeking counted settled).imp ?_
        fun _ _ inv => inv.imp (fun _ => once) fun _ => le)
      rintro target s₁ ⟨inv₁, -, passes, arrives⟩
      cases target with
      | dead => exact (inv₁.beside (·.deadEnd (fun _ => id) _)).imp (fun _ => once) fun _ => le
      | state d' =>
          obtain ⟨settled', stops⟩ := arrives d' rfl
          refine .ite (fun _ => ?_) fun _ => .ite (fun _ => ?_) fun goesOn => ?_
          · exact (resolves d' inv₁).imp (fun _ => once) fun _ => Nat.le_refl _
          · exact (inv₁.beside (·.accept (fun _ => id) (fun _ _ => id) d')).imp (fun _ => once) fun _ => le
          · have reads₁ : known → Faces s₁ ts ∧ symbol = Token.nextType ts :=
              fun yes => ⟨(reads yes).1.passes passes, (reads yes).2⟩
            have more : known → ts ≠ [] := by
              rintro yes rfl
              exact goesOn (stops (reads yes).2)
            refine .bind ((advance_searches inv₁ reads₁).imp ?_
              fun _ _ inv => inv.imp (fun _ => once) fun _ => le)
            rintro next s₂ ⟨inv₂, same, reads₂⟩
            exact (ih inv₂ (same ▸ settled') reads₂).imp (fun yes => turn_le (more yes) near)
              fun _ => Nat.le_refl _

/-- The stack with which the second stage starts is that of the calls that the parser is in. Below all
calls, the threads are in one rule. -/
theorem ofInvoking_rooted {n : Network} {g : StackGraph} {decision : Nat} (tidy : g.Tidy)
    (small : full → n.states.size ≤ noState) (enclosed : full → n.Enclosed)
    (oneRule : full → n.OneRule decision) (invoking : List Nat) :
    let made := g.ofInvoking n invoking
    g.Extends made.2 ∧ made.2.Tidy ∧ ∃ rule, ∀ here, n.states[decision]? = some here →
      ∀ t ∈ here.transitions, ∀ alt ≠ noAlt,
        Configuration.Rooted n full rule made.2 { state := t.target, alt, stack := made.1 } := by
  intro made
  obtain ⟨grown, tidy', present⟩ := tidy.ofReturns (n.followStates invoking).reverse
  refine ⟨grown, tidy', ?_⟩
  by_cases exact : full
  · have belongs : ∀ follow ∈ n.followStates invoking, ∃ rule, n.InRule follow rule := by
      intro follow mem
      obtain ⟨q, s, target, callee, precedence, here, call⟩ := Network.followStates_follows n _ follow mem
      exact ⟨_, (enclosed exact).follows s (Array.mem_of_getElem? here) _ call follow rfl⟩
    have states : ∀ follow ∈ (n.followStates invoking).reverse, follow ≠ noState := by
      intro follow mem
      obtain ⟨rule, inRule⟩ := belongs follow (List.mem_reverse.1 mem)
      obtain ⟨next, get, -⟩ := Option.map_eq_some_iff.1 inRule
      have inside := (Array.getElem?_eq_some_iff.1 get).1
      exact Nat.ne_of_lt (Nat.lt_of_lt_of_le inside (small exact))
    have holds : made.2.Holds made.1 (n.followStates invoking) := by
      have := StackGraph.holds_ofReturns g states
      rwa [List.reverse_reverse] at this
    have only : made.2.stackSet made.1 = {n.followStates invoking} := holds.stackSet_eq tidy'
    obtain ⟨rule, edges⟩ := oneRule exact
    cases calls : (n.followStates invoking).getLast? with
    | none =>
        refine ⟨rule, fun here found t mem alt chosen => ⟨chosen, present, fun _ frames inside => ?_⟩⟩
        obtain rfl : frames = n.followStates invoking := by simpa [only] using inside
        rw [List.getLastD_eq_getLast?, calls]
        exact edges here found t mem
    | some follow =>
        obtain ⟨rule, inRule⟩ := belongs follow (List.mem_of_getLast? calls)
        refine ⟨rule, fun here found t mem alt chosen => ⟨chosen, present, fun _ frames inside => ?_⟩⟩
        obtain rfl : frames = n.followStates invoking := by simpa [only] using inside
        rw [List.getLastD_eq_getLast?, calls]
        exact inRule
  · exact ⟨0, fun _ _ t _ alt chosen => ⟨chosen, present, fun yes => absurd yes exact⟩⟩

/-- Resolving a conflict starts again where the prediction started. -/
theorem resolve_searches (confines : Confines q.grammar.network full q)
    (oneRule : full → q.grammar.network.OneRule q.decisionState) (start : q.start = s₀.input.index)
    (reads : full → Faces s₀ ts) (d : TableState) (inv : Searching q known full near far s₀ s) :
    Spends q known full near (far + ts.length + 1) s₀ s (resolve q d) := by
  have fails {s : Simulation σ τ} (inv : Searching q known full near far s₀ s) :
      Searching q known full near (far + ts.length + 1) s₀ s :=
    inv.imp (fun _ => Nat.le_refl _) fun _ => by omega
  have first {α : Type} {x : Prediction σ τ α} {s : Simulation σ τ}
      (inv : Searching q known full near far s₀ s)
      (h : ∀ {Inv : Simulation σ τ → Prop}, Aside Inv → Step.Keeps Inv x fun _ => True) :
      x.Ensures s (fun _ s' => Searching q known full near far s₀ s' ∧ s'.tables = s.tables)
        fun _ s' => Searching q known full near (far + ts.length + 1) s₀ s' :=
    (h (Searching.aside.and (.tables s.tables)) s ⟨inv, rfl⟩).imp (fun _ _ => And.left)
      fun _ _ h => fails h.1.1
  unfold resolve
  refine .bind ((first inv fun _ => index_keeps).imp ?_ fun _ _ => id)
  rintro here s₁ ⟨inv₁, -⟩
  extract_lets resolved
  have resolves (conflicting : Option AltSet) {s : Simulation σ τ}
      (inv : Searching q known full near far s₀ s) :
      Spends q known full near (far + ts.length + 1) s₀ s (resolved conflicting) := by
    simp only [resolved]
    split
    · exact fails inv
    · refine .bind ((first inv (·.seek _)).imp ?_ fun _ _ => id)
      rintro _ s₁ ⟨inv₁, -⟩
      refine .bind ((first inv₁ fun aside => aside.count (q := q)
        (f := fun i => { i with fallbacks := i.fallbacks + 1 }) fun _ => ⟨rfl, rfl⟩).imp ?_ fun _ _ => id)
      rintro _ s₂ ⟨inv₂, -⟩
      refine .bind (.of_ok rfl ?_)
      obtain ⟨grown, tidy, rule, rooted⟩ := ofInvoking_rooted inv₂.keeps.tidy confines.small
        confines.enclosed oneRule q.situation.invoking
      let graph := (s₂.tables.graph.ofInvoking q.grammar.network q.situation.invoking).2
      let s₃ := { s₂ with tables := { s₂.tables with arena := { s₂.tables.arena with graph } } }
      have inv₃ : Searching q known full near far s₀ s₃ := by
        have keeps := inv₂.keeps.grow (mergeRule_among true) grown tidy
        exact inv₂.abides ⟨rfl, rfl, grown, keeps, .refl _⟩
      have starts := (startConfigs_kept confines (fun _ => rfl) inv₃.keeps rooted).seeking inv₃
      refine .bind (.of_ok (t := s₃) rfl (.bind (starts.imp ?_ fun _ _ => fails)))
      rintro configs s₄ ⟨inv₄, -, -, kept⟩
      refine .bind ((first inv₄ (·.report (fun _ _ => id) _ _ _)).imp ?_ fun _ _ => id)
      rintro _ s₅ ⟨inv₅, same₅⟩
      obtain ⟨inv₆, faces⟩ := inv₅.seek_start start reads
      refine .bind (.of_ok rfl ?_)
      refine .bind ((current_searches inv₆ faces).imp ?_ fun _ _ => fails)
      rintro symbol s₇ ⟨inv₇, same₇, reads⟩
      have kept : configs.Kept q.grammar.network full rule s₇.tables.graph := by
        rw [same₇]
        exact same₅ ▸ kept
      exact predictFully_searches confines _ inv₇ kept reads
  cases d.guards with
  | none => exact .bind (.of_ok rfl (resolves _ inv₁))
  | some guards =>
      refine .bind ((first inv₁ (·.seek _)).imp ?_ fun _ _ => id)
      rintro _ s₂ ⟨inv₂, -⟩
      refine .bind ((first inv₂ (·.viable _)).imp ?_ fun _ _ => id)
      rintro alts s₃ ⟨inv₃, -⟩
      exact .bind (.of_ok rfl (resolves _ inv₃))

theorem predict_searches (confines : Confines q.grammar.network full q)
    (oneRule : full → q.grammar.network.OneRule q.decisionState) (start : q.start = s₀.input.index)
    (implied : full → known) (begins : known → Faces s₀ ts) (faces : known → Faces s ts)
    (inv : Searching q known full near far s₀ s) :
    Spends q known full (near + ts.length + 1) (far + ts.length + 1) s₀ s (predict q) := by
  have fails {s : Simulation σ τ} (inv : Searching q known full near far s₀ s) :
      Searching q known full (near + ts.length + 1) (far + ts.length + 1) s₀ s :=
    inv.imp (fun _ => by omega) fun _ => by omega
  refine .bind ((startState_seeking inv).imp ?_ fun _ _ => fails)
  rintro d s₁ ⟨inv₁, -, passes, settled⟩
  refine .bind ((current_searches inv₁ fun yes => (faces yes).passes passes).imp ?_ fun _ _ => fails)
  rintro symbol s₂ ⟨inv₂, same, reads⟩
  refine predictLocally_searches _ (by omega) (fun {near s} d inv => ?_) inv₂ (same ▸ settled) reads
  exact resolve_searches confines oneRule start (fun yes => begins (implied yes)) d inv

/-- What a prediction leaves behind. -/
theorem adaptivePredict_searches {g : Grammar} (mode : PredictionMode) (fuel decision : Nat)
    (situation : Situation τ) (decisive : s.tables.Decisive g.network) (implied : full → known)
    (faces : known → Faces s ts) (small : full → g.network.states.size ≤ noState)
    (enclosed : full → g.network.Enclosed)
    (oneRule : ∀ table, s.tables.tables[decision]? = some table → full →
      g.network.OneRule table.startState) :
    let s' := ((adaptivePredict g mode fuel decision situation).run s).2
    s'.tables.Decisive g.network ∧ s.Counts known full (ts.length + 1) (ts.length + 1) s' := by
  unfold adaptivePredict
  rw [Step.run_bind_ok (Step.run_get s)]
  cases here : s.tables.tables[decision]? with
  | none =>
      exact ⟨decisive, (Simulation.Counts.refl s).imp (fun _ => Nat.zero_le _) fun _ => Nat.zero_le _⟩
  | some table =>
      simp only
      let q : Problem τ := {
        grammar := g, mode, fuel, decision, start := s.input.index, situation
        decisionState := table.startState, byPrecedence := table.byPrecedence }
      let marked : Simulation σ τ := { s with input := s.input.mark, tables := s.tables.forgetMerges }
      have opened : Searching q known full 0 0 marked marked := by
        refine ⟨.refl _, ⟨decisive.tidy, fun _ mem => by cases mem⟩, ?_, decisive.tables, .refl _⟩
        exact (Array.getElem?_eq_some_iff.1 here).1
      have faces : known → Faces marked ts :=
        fun yes => (faces yes).passes (TokenStream.passes_of_marks s.input _)
      let begun := marked.modifyStats decision fun i => { i with invocations := i.invocations + 1 }
      have inv : Searching q known full 0 0 marked begun :=
        Searching.aside.counts marked decision _ (fun _ => ⟨rfl, rfl⟩) opened
      have confines : Confines q.grammar.network full q := ⟨rfl, small, enclosed⟩
      have begins : known → Faces begun ts := fun yes => ⟨(faces yes).sound, (faces yes).upcoming⟩
      have start : q.start = marked.input.index := rfl
      have searched :=
        (predict_searches confines (oneRule table here) start implied faces begins inv).state
      obtain ⟨outcome, last, run⟩ : ∃ outcome last, (predict q).run begun = (outcome, last) :=
        ⟨_, _, rfl⟩
      rw [run, Nat.zero_add] at searched
      refine Step.Ensures.state (P := fun s' : Simulation σ τ => s'.tables.Decisive g.network ∧
        s.Counts known full (ts.length + 1) (ts.length + 1) s') ?_
      refine .bind (.of_ok rfl (.bind (.of_ok rfl (.bind (.of_ok (Step.run_attempt _ _) ?_)))))
      rw [show (predict q).run _ = (outcome, last) from run]
      refine .bind (.of_ok rfl (.bind (.of_ok rfl ?_)))
      cases outcome with
      | ok alt => exact .of_ok rfl ⟨searched.decisive, searched.counted⟩
      | error e =>
          have counted := searched.counted.modifyStats (a := 0) (b := 0) decision
            (f := fun i => { i with errors := i.errors + 1 }) fun _ => ⟨rfl, rfl⟩
          exact .bind (.of_ok rfl (.of_error rfl ⟨searched.decisive, counted⟩))

end Stages

end Prediction

/-- Whatever is learned, the tables are decisive. -/
theorem Tables.Learned.decisive {g : Grammar} {Mode : PredictionMode → Prop} {t : Tables}
    (h : t.Learned g Mode) : t.Decisive g.network := by
  induction h with
  | new => exact .ofNetwork g.network
  | clear _ ih => exact ih.clear
  | @predict σ τ _ s _ mode _ fuel decision situation ih =>
      have unknown : False → Prediction.Faces s [] := False.elim
      exact (Prediction.adaptivePredict_searches mode fuel decision situation ih id unknown False.elim
        False.elim fun _ _ => False.elim).1

namespace Prediction

variable [TokenSource σ] {s : Simulation σ τ} {ts : List Token}

/-- Lookahead stops at the end of the input, whatever the tables hold. Without context, a prediction
looks at most once more than there are tokens to come. So it does with the full context, if no rule can
be left in two ways, callers go on in their own rules, and the edges of the decision lead to states of
one rule. -/
theorem adaptivePredict_lookahead {g : Grammar} (mode : PredictionMode) (fuel decision : Nat)
    (situation : Situation τ) (parses : g.network.kind = .parser)
    (small : g.network.states.size ≤ noState) (learned : s.tables.Learned g fun _ => True)
    (sound : s.input.Sound) (upcoming : s.input.Upcoming ts) :
    let s' := ((adaptivePredict g mode fuel decision situation).run s).2
    ∀ i', s'.stats[decision]? = some i' → ∃ i, s.stats[decision]? = some i ∧
      i'.localLookahead ≤ i.localLookahead + (ts.length + 1) ∧
      (g.network.Enclosed → (∀ q ∈ g.network.decisions[decision]?, g.network.OneRule q) →
        i'.fullLookahead ≤ i.fullLookahead + (ts.length + 1)) := by
  intro s' i' here
  let full : Prop := g.network.Enclosed ∧ ∀ q ∈ g.network.decisions[decision]?, g.network.OneRule q
  have starts : s.tables.starts = g.network.decisions :=
    learned.starts_within.1.trans (Tables.starts_ofNetwork parses)
  have oneRule (table : PredictionTable) (found : s.tables.tables[decision]? = some table)
      (yes : full) : g.network.OneRule table.startState := by
    refine yes.2 _ ?_
    rw [← starts, Tables.starts, Array.getElem?_map, found]
    rfl
  have counted : s.Counts True full (ts.length + 1) (ts.length + 1) s' :=
    (adaptivePredict_searches mode fuel decision situation learned.decisive (fun _ => trivial)
      (fun _ => ⟨sound, upcoming⟩) (fun _ => small) And.left oneRule).2
  obtain ⟨i, found, locally, fully⟩ := counted decision i' here
  exact ⟨i, found, locally trivial, fun enclosed edges => fully ⟨enclosed, edges⟩⟩

end Prediction

/-- `s : (A | A)`, where the second alternative leads to a state of its own. -/
def forked (second : Nat) (last : StateKind) : Blueprint where
  maxToken := 1
  states := [
    { rule := 0, kind := .ruleStart 5 false, transitions := [.plain 1] },
    { rule := 0, kind := .blockStart .choice 4, transitions := [.plain 2, .plain 3] },
    { rule := 0, kind := .basic, transitions := [.atom 5 1] },
    { rule := 0, kind := .basic, transitions := [.atom second 1] },
    { rule := 0, kind := .blockEnd, transitions := [.plain 5] },
    { rule := 0, kind := .ruleStop },
    { rule := 0, kind := last }]
  rules := [⟨0, none⟩]
  decisions := [1]

/-- `s : (x | A) ; x : A ; y : ;`, where the caller of `x` goes on in `y`. -/
def strayed : Blueprint where
  maxToken := 1
  states := [
    { rule := 0, kind := .ruleStart 5 false, transitions := [.plain 1] },
    { rule := 0, kind := .blockStart .choice 4, transitions := [.plain 2, .plain 3] },
    { rule := 0, kind := .basic, transitions := [.call 6 1 0 9] },
    { rule := 0, kind := .basic, transitions := [.atom 5 1] },
    { rule := 0, kind := .blockEnd, transitions := [.plain 5] },
    { rule := 0, kind := .ruleStop },
    { rule := 1, kind := .ruleStart 8 false, transitions := [.plain 7] },
    { rule := 1, kind := .basic, transitions := [.atom 8 1] },
    { rule := 1, kind := .ruleStop },
    { rule := 2, kind := .ruleStart 10 false, transitions := [.plain 10] },
    { rule := 2, kind := .ruleStop }]
  rules := [⟨0, none⟩, ⟨6, none⟩, ⟨9, none⟩]
  decisions := [1]

/-- `s : (x | A) ; x : A ;`, where the decision itself makes the call. -/
def entered : Blueprint where
  maxToken := 1
  states := [
    { rule := 0, kind := .ruleStart 4 false, transitions := [.plain 1] },
    { rule := 0, kind := .blockStart .choice 3, transitions := [.call 5 1 0 3, .plain 2] },
    { rule := 0, kind := .basic, transitions := [.atom 3 1] },
    { rule := 0, kind := .blockEnd, transitions := [.plain 4] },
    { rule := 0, kind := .ruleStop },
    { rule := 1, kind := .ruleStart 7 false, transitions := [.plain 6] },
    { rule := 1, kind := .basic, transitions := [.atom 7 1] },
    { rule := 1, kind := .ruleStop }]
  rules := [⟨0, none⟩, ⟨5, none⟩]
  decisions := [1]

/-- Nothing has been read of the only token. -/
def beforeToken (n : Network) : Simulation TokenList Unit :=
  .ofInput n (.ofNetwork n) { source := { tokens := #[{ type := 1, text? := some "a" }] } } ()

/-- The parser is in no calls. -/
def uncalled : Situation Unit where
  node := none
  invoking := []
  precedence := 0
  state := 1
  ask _ host := (true, host)

instance (n : Network) : Decidable n.StaysInside :=
  inferInstanceAs (Decidable (∀ s ∈ n.states, _ → ∀ t ∈ s.transitions, _ → n.InRule t.target s.rule))

instance (n : Network) : Decidable n.Enclosed :=
  decidable_of_iff (n.StaysInside ∧
    (∀ s ∈ n.states, ∀ t ∈ s.transitions, ∀ follow ∈ t.follow?, n.InRule follow s.rule) ∧
    n.states.toList.Pairwise fun s s' =>
      s.isRuleStop = true → s'.isRuleStop = true → s.rule ≠ s'.rule)
    ⟨fun ⟨inside, follows, oneStop⟩ => ⟨inside, follows, oneStop⟩,
      fun h => ⟨h.inside, h.follows, h.oneStop⟩⟩

namespace Prediction

theorem faces_beforeToken (n : Network) : ∃ t, Faces (beforeToken n) [t] := by
  have sound : (beforeToken n).input.Sound :=
    .ofSource (TokenList.Ends.prompt (fun t mem => by cases mem) _)
  exact ⟨_, sound, .ofList (by decide)⟩

/-- Two alternatives that start alike and end alike. -/
theorem adaptivePredict_lookahead_choice : ∃ n, Network.assemble .parser (forked 5 .basic) = .ok n ∧
    n.kind = .parser ∧ n.states.size ≤ noState ∧ n.Enclosed ∧
    (∀ q ∈ n.decisions[0]?, n.OneRule q) ∧
    let g : Grammar := { network := n, names := {} }
    let s := beforeToken n
    let s' := ((adaptivePredict g .ll 20 0 uncalled).run s).2
    s.tables.Learned g (fun _ => True) ∧ ∃ ts, s.input.Sound ∧ s.input.Upcoming ts ∧
      ∃ i', s'.stats[0]? = some i' ∧ ∃ i, s.stats[0]? = some i ∧
        i'.localLookahead ≤ i.localLookahead + (ts.length + 1) ∧
        i'.fullLookahead ≤ i.fullLookahead + (ts.length + 1) := by
  have known : (Network.assemble .parser (forked 5 .basic)).toOption.any (fun n =>
      decide (n.kind = .parser ∧ n.states.size ≤ noState ∧ n.Enclosed ∧
        ∀ q ∈ n.decisions[0]?, ∀ s ∈ n.states[q]?, ∀ t ∈ s.transitions, n.InRule t.target 0) &&
      ((adaptivePredict { network := n, names := {} } .ll 20 0 uncalled).run
        (beforeToken n)).2.stats[0]?.isSome) = true := by
    decide +kernel
  cases built : Network.assemble .parser (forked 5 .basic) with
  | error e => simp [built, Except.toOption] at known
  | ok n =>
      simp only [built, Except.toOption, Option.any_some, Bool.and_eq_true, decide_eq_true_eq,
        Option.isSome_iff_exists] at known
      obtain ⟨⟨parses, small, enclosed, edges⟩, i', here⟩ := known
      have oneRule : ∀ q ∈ n.decisions[0]?, n.OneRule q := fun q mem => ⟨0, edges q mem⟩
      obtain ⟨t, sound, upcoming⟩ := faces_beforeToken n
      obtain ⟨i, before, locally, fully⟩ := adaptivePredict_lookahead .ll 20 0 uncalled parses small .new
        sound upcoming i' here
      exact ⟨n, rfl, parses, small, enclosed, oneRule, .new, [t], sound, upcoming, i', here, i, before,
        locally, fully enclosed oneRule⟩

/-- Edges stay in their rules and nothing recurs silently, and still a prediction looks further than to
the end behind the only token. -/
def LooksOn (plan : Blueprint) : Prop :=
  ∃ n, Network.assemble .parser plan = .ok n ∧ n.StaysInside ∧ n.NoSilentCycle ∧
    let g : Grammar := { network := n, names := {} }
    let s := beforeToken n
    let s' := ((adaptivePredict g .ll 20 0 uncalled).run s).2
    s.tables.Learned g (fun _ => True) ∧ ∃ ts, s.input.Sound ∧ s.input.Upcoming ts ∧
      ∃ i i', s.stats[0]? = some i ∧ s'.stats[0]? = some i' ∧
        i.fullLookahead + (ts.length + 1) < i'.fullLookahead

theorem LooksOn.of_run {plan : Blueprint} (ranks : List Nat)
    (known : (Network.assemble .parser plan).toOption.any (fun n =>
      decide (n.StaysInside ∧ n.Descends (ranks.getD · 0)) &&
        (beforeToken n).stats[0]? == some { decision := 0 } &&
        ((adaptivePredict { network := n, names := {} } .ll 20 0 uncalled).run (beforeToken n)).2.stats[0]?.any
          (2 < ·.fullLookahead)) = true) : LooksOn plan := by
  cases built : Network.assemble .parser plan with
  | error e => simp [built, Except.toOption] at known
  | ok n =>
      simp only [built, Except.toOption, Option.any_some, Bool.and_eq_true, decide_eq_true_eq, beq_iff_eq,
        Option.any_eq_true] at known
      obtain ⟨⟨⟨inside, descends⟩, before⟩, i', after, far⟩ := known
      obtain ⟨t, sound, upcoming⟩ := faces_beforeToken n
      refine ⟨n, built, inside, Network.noSilentCycle_of_descends descends, .new, [t], sound, upcoming,
        _, i', before, after, ?_⟩
      simpa using far

/-- None of the conditions can be left out: a rule with two stop states, a caller that goes on in another
rule, and a decision that leads to two rules each keep threads apart that have nothing left to read. -/
theorem looksOn_apart : LooksOn (forked 6 .ruleStop) ∧ LooksOn strayed ∧ LooksOn entered := by
  refine ⟨.of_run [4, 3, 1, 1, 2, 1, 1] ?_, .of_run [9, 6, 5, 1, 3, 1, 2, 1, 1, 2, 1] ?_,
    .of_run [9, 6, 1, 2, 1, 2, 1, 1] ?_⟩
  all_goals decide +kernel

end Prediction

end AdaptiveLL
