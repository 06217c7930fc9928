import AdaptiveLL.Proofs.Prediction.Memo
import AdaptiveLL.Proofs.Prediction.Session
/-!
Predictions keep the tables as memos. A prediction without context adds to the table of its
decision only what it has computed; what it does with the full context is not kept. Hence the
tables of a session are memos at all times.
-/
namespace AdaptiveLL

open StackGraph PredictionTable

variable {σ τ : Type}

/-- What a table of a grammar is about. -/
def PredictionTable.subject (t : PredictionTable) (g : Grammar) (mode : PredictionMode) : Subject :=
  ⟨g, mode, t.startState, t.byPrecedence⟩

/-- Every table is a memo. -/
structure Tables.Memo (g : Grammar) (mode : PredictionMode) (t : Tables) : Prop where
  tidy : t.graph.Tidy
  tables : ∀ table ∈ t.tables, table.Memo (table.subject g mode) t.graph none

/-- During a prediction every table is a memo; `pending` is about the table of the decision. -/
structure Simulation.Memoizes (q : Problem τ) (pending : Option Nat) (s : Simulation σ τ) : Prop where
  tidy : s.tables.graph.Tidy
  own : ∃ table, s.tables.tables[q.decision]? = some table ∧
    table.Memo q.subject s.tables.graph pending
  others : ∀ i ≠ q.decision, ∀ table, s.tables.tables[i]? = some table →
    table.Memo (table.subject q.grammar q.mode) s.tables.graph none

/-- The state is one of the table of the decision. -/
def Simulation.Has (q : Problem τ) (s : Simulation σ τ) (d : TableState) : Prop :=
  ∃ table, s.tables.tables[q.decision]? = some table ∧ table.states[d.number]? = some d

namespace Simulation

variable {q : Problem τ} {pending : Option Nat} {s s' : Simulation σ τ} {d : TableState}
  {full : Bool}

theorem Memoizes.grows (h : s.Memoizes q pending) (grows : s.Grows full s') :
    s'.Memoizes q pending where
  tidy := grows.sound.tidy
  own := by
    obtain ⟨table, here, memo⟩ := h.own
    exact ⟨table, grows.tables ▸ here, memo.mono grows.graph⟩
  others i ne table here := (h.others i ne table (grows.tables ▸ here)).mono grows.graph

theorem Has.grows (h : s.Has q d) (grows : s.Grows full s') : s'.Has q d := by
  obtain ⟨table, here, held⟩ := h
  exact ⟨table, grows.tables ▸ here, held⟩

/-- What a prediction leaves behind is a memo for the next one. -/
theorem Memoizes.memo (h : s.Memoizes q none) : s.tables.Memo q.grammar q.mode where
  tidy := h.tidy
  tables table mem := by
    obtain ⟨i, here⟩ := Array.mem_iff_getElem?.1 mem
    by_cases own : i = q.decision
    · obtain ⟨table', here', memo⟩ := h.own
      rw [own] at here
      obtain rfl := Option.some.inj (here'.symm.trans here)
      have same : table'.subject q.grammar q.mode = q.subject := by
        rw [PredictionTable.subject, memo.startState, memo.byPrecedence]
        rfl
      rwa [same]
    · exact h.others i own table here

/-- Changing the table of the decision. -/
theorem Memoizes.modify (h : s.Memoizes q pending) {table : PredictionTable}
    {pending' : Option Nat} (memo : table.Memo q.subject s.tables.graph pending') :
    let s' := { s with tables := s.tables.modifyTable q.decision fun _ => table }
    s'.Memoizes q pending' ∧ s'.tables.tables[q.decision]? = some table := by
  intro s'
  obtain ⟨old, here, -⟩ := h.own
  have now : s'.tables.tables[q.decision]? = some table := by
    simp [s', Tables.modifyTable, Array.getElem?_modify, here]
  refine ⟨⟨h.tidy, ⟨table, now, memo⟩, fun i ne table' here' => h.others i ne table' ?_⟩, now⟩
  simpa [s', Tables.modifyTable, Array.getElem?_modify, ne.symm] using here'

end Simulation

namespace Prediction

variable {q : Problem τ} {pending : Option Nat} {s s' : Simulation σ τ} {source d : TableState}
  {x : Symbol}

/-- The stage without context: the tables are memos, and so are the merges made so far. -/
structure Learns (q : Problem τ) (s : Simulation σ τ) : Prop where
  memo : s.Memoizes q none
  sound : s.tables.arena.Sound true

theorem Learns.grows (h : Learns q s) (grows : s.Grows false s') : Learns q s' :=
  ⟨h.memo.grows grows, grows.sound⟩

theorem onTable_run {α : Type} [Inhabited α] {f : PredictionTable → α × PredictionTable}
    {table : PredictionTable} (here : s.tables.tables[q.decision]? = some table) :
    (onTable q f).run s = (.ok (f table).1,
      { s with tables := s.tables.modifyTable q.decision fun _ => (f table).2 }) := by
  rw [onTable, Step.run_bind_ok (Step.run_get s)]
  simp only [here]
  rfl

/-- Changing the table of the decision. -/
theorem onTable_memoizes {α : Type} [Inhabited α] {f : PredictionTable → α × PredictionTable}
    {table : PredictionTable} {pending' : Option Nat} (h : s.Memoizes q pending)
    (here : s.tables.tables[q.decision]? = some table)
    (memo : (f table).2.Memo q.subject s.tables.graph pending') :
    (onTable q f).Ensures s
      (fun a s' => s'.Memoizes q pending' ∧ a = (f table).1 ∧ s'.tables.arena = s.tables.arena ∧
        s'.tables.tables[q.decision]? = some (f table).2)
      fun _ _ => False := by
  obtain ⟨memo', now⟩ := h.modify memo
  exact .of_ok (onTable_run here) ⟨memo', rfl, rfl, now⟩

/-- The table of the decision may be changed to another memo. -/
theorem onTable_learns {α : Type} [Inhabited α] {f : PredictionTable → α × PredictionTable}
    {table : PredictionTable} (h : Learns q s) (here : s.tables.tables[q.decision]? = some table)
    (memo : (f table).2.Memo q.subject s.tables.graph none) :
    (onTable q f).Ensures s
      (fun a s' => Learns q s' ∧ a = (f table).1 ∧ s'.tables.graph = s.tables.graph ∧
        s'.tables.tables[q.decision]? = some (f table).2)
      fun _ _ => False := by
  refine (onTable_memoizes h.memo here memo).imp ?_ fun _ _ => id
  rintro a s' ⟨memo, answer, arena, now⟩
  exact ⟨⟨memo, arena ▸ h.sound⟩, answer, congrArg Stacks.graph arena, now⟩

/-- Where states are held there is a state where predictions start. -/
theorem started {table : PredictionTable} (memo : table.Memo q.subject s.tables.graph none) {k : Nat}
    (held : table.states[k]? = some d) : q.subject.byPrecedence = false → table.start ≠ none := by
  intro loop none
  cases memo.started loop none _ (Array.getElem?_eq_some_iff.1 held).1

variable [TokenSource σ]

/-- The edge to a state made of the threads that the symbol leads to is entered. -/
theorem enter_learns {configs : ConfigurationSet} (h : Learns q s) (has : s.Has q source)
    (opened : configs.Open false s.tables.graph)
    (reaches : q.subject.Recomputes s.tables.graph
      (fun q => reach q source.configs x false) (some configs)) :
    Step.Ensures
      (do
        let d ← addState q (concluded q (← settle q configs))
        addEdge q source x (.state d)
        return TableTarget.state d : Prediction σ τ TableTarget) s
      (fun target s' => Learns q s' ∧ ∀ d, target = .state d → s'.Has q d)
      fun _ s' => s'.Memoizes q none := by
  have derived := Subject.Recomputes.of_runs (fun q => derive q configs) (s := s) (q := q)
    fun q' akin => derive_runs akin h.sound opened
  refine .bind (derived.of_map.imp ?_ fun _ _ grows => h.memo.grows grows)
  rintro judged s₁ ⟨grows, ⟨marked, judges⟩, again⟩
  generalize concluded q judged = e at marked judges again
  have h₁ := h.grows grows
  obtain ⟨table, here, memo⟩ := h₁.memo.own
  obtain ⟨table', here', held⟩ := has.grows grows
  obtain rfl := Option.some.inj (here.symm.trans here')
  have stored : ∀ c ∈ e.configs.toList, s₁.tables.graph.Present c.stack := by
    rw [← marked] at opened
    exact fun c mem => (opened.stored c mem).mono grows.graph
  have answers : e.AnswersAs (verdict q.subject.alternatives e.configs) := by
    rw [← judges]
    exact .refl e
  have derives : q.subject.Derives s₁.tables.graph e := ⟨e, by rwa [marked], rfl⟩
  have adds := memo.addState_adds answers
  have memo₂ := memo.addState_derived stored answers derives (started memo held)
  refine .bind ((onTable_learns h₁ here memo₂).imp ?_ fun _ _ => False.elim)
  rintro _ s₂ ⟨h₂, rfl, graph, now⟩
  rw [← graph] at memo₂
  have carries : q.subject.Carries s₂.tables.graph source x (table.addState e).1 := by
    refine ⟨configs, e, ?_, ?_, adds.same, adds.answers⟩
    · rw [graph]
      exact reaches.mono grows.graph
    · rwa [graph]
  have memo₃ := memo₂.addEdge (adds.keeps held) adds.has carries
  refine .bind ((onTable_learns h₂ now memo₃).imp ?_ fun _ _ => False.elim)
  rintro _ s₃ ⟨h₃, -, -, now⟩
  refine ⟨h₃, fun d eq => ?_⟩
  obtain rfl := TableTarget.state.inj eq
  refine ⟨_, now, ?_⟩
  rw [(addEdge_states _ _ _).1]
  exact adds.has

/-- Computing where a symbol leads enters what has been computed. -/
theorem computeTarget_learns (h : Learns q s) (has : s.Has q source) :
    (computeTarget q source x).Ensures s
      (fun target s' => Learns q s' ∧ ∀ d, target = .state d → s'.Has q d)
      fun _ s' => s'.Memoizes q none := by
  obtain ⟨table, here, memo⟩ := h.memo.own
  have stored : ∀ c ∈ source.configs.toList, s.tables.graph.Present c.stack := by
    obtain ⟨table', here', held⟩ := has
    obtain rfl := Option.some.inj (here.symm.trans here')
    exact (memo.entry held).stored
  have reached := Subject.Recomputes.of_runs (fun q => reach q source.configs x false) (s := s)
    (q := q)
    fun q' akin => reach_runs akin x h.sound stored
  refine .bind (reached.imp ?_ fun _ _ grows => h.memo.grows grows)
  rintro reached s₁ ⟨grows, opened, again⟩
  have h₁ := h.grows grows
  have has := has.grows grows
  cases reached with
  | some configs => exact enter_learns h₁ has (opened configs rfl) again
  | none =>
      obtain ⟨table, here, memo⟩ := h₁.memo.own
      obtain ⟨table', here', held⟩ := has
      obtain rfl := Option.some.inj (here.symm.trans here')
      refine .bind ((onTable_learns h₁ here (memo.addEdge_dead held again)).imp ?_ fun _ _ => False.elim)
      rintro _ s₂ ⟨h₂, -⟩
      exact ⟨h₂, nofun⟩

/-- A target is stored, or computed and stored. -/
theorem target_learns (h : Learns q s) (has : s.Has q source) :
    (target q source x).Ensures s
      (fun target s' => Learns q s' ∧ ∀ d, target = .state d → s'.Has q d)
      fun _ s' => s'.Memoizes q none := by
  obtain ⟨table, here, memo⟩ := h.memo.own
  obtain ⟨table', here', held⟩ := id has
  obtain rfl := Option.some.inj (here.symm.trans here')
  refine .bind ((onTable_learns h here memo).imp ?_ fun _ _ => False.elim)
  rintro _ s₁ ⟨h₁, rfl, -, now⟩
  have has : s₁.Has q source := ⟨table, now, held⟩
  simp only
  cases known : table.edge? source x with
  | none => exact computeTarget_learns h₁ has
  | some target =>
      refine ⟨h₁, fun d eq => ?_⟩
      subst eq
      obtain ⟨j, -, hd⟩ := (PredictionTable.Memo.edge?_eq_state held).1 known
      obtain rfl := (memo.entry hd).number
      exact ⟨table, now, hd⟩

omit [TokenSource σ] in
/-- The threads of a start are entered as they are, and linked as a start. -/
theorem enterStart_learns {configs : ConfigurationSet}
    (link : TableState → PredictionTable → PredictionTable) {table : PredictionTable}
    (h : Learns q s) (here : s.tables.tables[q.decision]? = some table)
    (opened : configs.Open false s.tables.graph)
    (linked : ∀ added, added = table.addState { configs } →
      table.Memo q.subject s.tables.graph none → table.Adds { configs } added →
      added.2.Memo q.subject s.tables.graph (some added.1.number) →
        (link added.1 added.2).Memo q.subject s.tables.graph none ∧
          (link added.1 added.2).states = added.2.states) :
    Step.Ensures
      (do
        let d ← addState q { configs }
        onTable q fun table => ((), link d table)
        return d : Prediction σ τ TableState) s
      (fun d s' => Learns q s' ∧ s'.Has q d) fun _ s' => s'.Memoizes q none := by
  obtain ⟨table', here', memo⟩ := h.memo.own
  obtain rfl := Option.some.inj (here.symm.trans here')
  have answers := answers_open q.subject.alternatives opened
  have adds := memo.addState_adds answers
  have memo₁ := memo.addState_bare opened.stored answers rfl
  obtain ⟨memo₂, states⟩ := linked _ rfl memo adds memo₁
  refine .bind ((onTable_memoizes h.memo here memo₁).imp ?_ fun _ _ => False.elim)
  rintro _ s₁ ⟨h₁, rfl, arena, now⟩
  have graph : s₁.tables.graph = s.tables.graph := congrArg Stacks.graph arena
  rw [← graph] at memo₂
  refine .bind ((onTable_memoizes h₁ now memo₂).imp ?_ fun _ _ => False.elim)
  rintro _ s₂ ⟨h₂, -, arena', now⟩
  refine ⟨⟨h₂, (arena'.trans arena) ▸ h.sound⟩, _, now, ?_⟩
  rw [states]
  exact adds.has

/-- The start state is stored, or computed and stored. -/
theorem startState_learns (h : Learns q s) :
    (startState q).Ensures s (fun d s' => Learns q s' ∧ s'.Has q d)
      fun _ s' => s'.Memoizes q none := by
  obtain ⟨table, here, memo⟩ := h.memo.own
  refine .bind ((onTable_learns h here memo).imp ?_ fun _ _ => False.elim)
  rintro _ s₁ ⟨h₁, rfl, graph, now⟩
  rw [← graph] at memo
  simp only
  cases loop : q.byPrecedence with
  | true =>
      simp only [if_true]
      cases known : table.precedenceStart? q.situation.precedence with
      | some d =>
          obtain ⟨k, -, hd⟩ := Option.bind_eq_some_iff.1 known
          obtain rfl := (memo.entry hd).number
          exact ⟨h₁, table, now, hd⟩
      | none =>
          have opens := Subject.Recomputes.of_runs
            (fun q' => operatorStart q.situation.precedence q') (s := s₁) (q := q)
            fun q' akin => operatorStart_runs akin q.situation.precedence h₁.sound
          suffices Step.Ensures (operatorStart q.situation.precedence q >>= fun configs => do
              let d ← addState q { configs }
              onTable q fun table => ((), table.setPrecedenceStart q.situation.precedence d)
              return d) s₁ (fun d s' => Learns q s' ∧ s'.Has q d) fun _ s' => s'.Memoizes q none by
            rwa [operatorStart, bind_assoc] at this
          refine .bind (opens.imp ?_ fun _ _ grows => h₁.memo.grows grows)
          rintro configs s₂ ⟨grows, opened, again⟩
          have now : s₂.tables.tables[q.decision]? = some table := grows.tables ▸ now
          refine enterStart_learns _ (h₁.grows grows) now opened ?_
          intro added _ memo adds memo'
          refine ⟨memo'.setPrecedenceStart adds.has loop ?_ ⟨configs, again, adds.same⟩,
            (setPrecedenceStart_states _ _).1⟩
          rw [adds.precedenceStarts]
          exact memo.lookup_none known
  | false =>
      simp only [Bool.false_eq_true, if_false]
      cases known : table.start? with
      | some d =>
          obtain ⟨k, -, hd⟩ := Option.bind_eq_some_iff.1 known
          obtain rfl := (memo.entry hd).number
          exact ⟨h₁, table, now, hd⟩
      | none =>
          have starts := Subject.Recomputes.of_runs (fun q => startConfigs q false 0) (s := s₁)
            (q := q)
            fun q' akin => startConfigs_runs akin false h₁.sound present_zero
          refine .bind (starts.imp ?_ fun _ _ grows => h₁.memo.grows grows)
          rintro configs s₂ ⟨grows, opened, again⟩
          have h₂ := h₁.grows grows
          have now : s₂.tables.tables[q.decision]? = some table := grows.tables ▸ now
          refine enterStart_learns (fun d table => table.setStart d) h₂ now opened ?_
          intro added eq memo adds memo'
          refine ⟨memo'.setStart adds.has ?_ ?_, (setStart_states _).1⟩
          · exact adds.start.trans (memo.start_none known)
          · rwa [eq, memo.addState_fresh (answers_open _ opened) loop (memo.start_none known)]

/-- What leaves the tables alone. -/
abbrev Untouched {α : Type} (x : Prediction σ τ α) : Prop :=
  ∀ t : Tables, Step.Keeps (fun s => s.tables = t) x fun _ => True

theorem Untouched.of_aside {α : Type} {x : Prediction σ τ α}
    (h : ∀ {Inv : Simulation σ τ → Prop}, Aside Inv → Step.Keeps Inv x fun _ => True) : Untouched x :=
  fun t => h (.tables t)

omit [TokenSource σ] in
theorem count_untouched (f : DecisionStats → DecisionStats) :
    Untouched (count q f : Prediction σ τ Unit) :=
  fun _ => .modify fun _ same => same

section Full

/-- What happens with the full context leaves the tables alone, and the stacks stay. -/
abbrev Spares {α : Type} (s : Simulation σ τ) (x : Prediction σ τ α)
    (P : StackGraph → α → Prop) : Prop :=
  Runs true s x x P

omit [TokenSource σ] in
theorem Untouched.spares {α : Type} {x : Prediction σ τ α} (h : Untouched x)
    (sound : s.tables.arena.Sound (!true)) : Spares s x fun _ _ => True :=
  .of_keeps sound rfl (h s.tables)

/-- The stage with the full context stores nothing. -/
theorem predictFully_spares (fuel : Nat) {configs : ConfigurationSet} (symbol : Symbol)
    {s : Simulation σ τ} (sound : s.tables.arena.Sound (!true))
    (stored : ∀ c ∈ configs.toList, s.tables.graph.Present c.stack) :
    Spares s (predictFully q fuel configs symbol) fun _ _ => True := by
  induction fuel generalizing configs symbol s with
  | zero => exact .throw sound _
  | succ fuel ih =>
      rw [predictFully]
      refine .bind ((count_untouched _).spares sound) fun _ s₁ grows _ => ?_
      have stored : ∀ c ∈ configs.toList, s₁.tables.graph.Present c.stack :=
        fun c mem => (stored c mem).mono grows.graph
      refine .bind (reach_runs (.refl q) symbol grows.sound stored) ?_
      intro reached s₂ grows' opened
      cases reached with
      | none => exact Untouched.spares (.of_aside (·.deadEnd (fun _ => id) _)) grows'.sound
      | some configs =>
          have opened := opened configs rfl
          refine .ite (fun _ => ?_) fun _ => .ite (fun _ => ?_) fun _ => ?_
          · refine Untouched.spares (fun t => ?_) grows'.sound
            refine .bind (count_untouched _ t) fun _ _ => .bind index_keeps fun _ _ => ?_
            exact .bind ((Aside.tables t).report (fun _ _ => id) _ _ _) fun _ _ => .pure trivial
          · refine Untouched.spares (fun t => ?_) grows'.sound
            refine .bind index_keeps fun _ _ => ?_
            exact .bind ((Aside.tables t).reportAmbiguity (fun _ _ => id) _ _ _ _) fun _ _ => .pure trivial
          · refine .bind (Untouched.spares (.of_aside (·.advance symbol)) grows'.sound) ?_
            intro next s₃ grows'' _
            exact ih next grows''.sound fun c mem => (opened.stored c mem).mono grows''.graph

omit [TokenSource σ] in
theorem Spares.behind {α : Type} {x y : Prediction σ τ α} (grows : s.Grows true s')
    (h : Spares s' x fun _ _ => True) :
    Step.Ensures x s'
      (fun a s'' => s.Grows true s'' ∧ True ∧ (true = false → Repeats y s''.tables.graph a))
      fun _ s'' => s.Grows true s'' := by
  refine Step.Ensures.imp h ?_ fun _ _ => grows.trans
  rintro a s'' ⟨grows', -, -⟩
  exact ⟨grows.trans grows', trivial, nofun⟩

/-- To resolve a conflict is to store nothing. -/
theorem resolve_spares (d : TableState) (sound : s.tables.arena.Sound (!true)) :
    Spares s (resolve q d) fun _ _ => True := by
  unfold resolve
  refine .bind (Untouched.spares (fun _ => index_keeps) sound) fun here s₁ grows _ => ?_
  extract_lets resolved
  have resolves (conflicting : Option AltSet) {s : Simulation σ τ}
      (sound : s.tables.arena.Sound (!true)) : Spares s (resolved conflicting) fun _ _ => True := by
    simp only [resolved]
    split
    · exact .pure sound trivial
    · refine .bind (Untouched.spares (.of_aside (·.seek _)) sound) fun _ s₁ grows _ => ?_
      refine .bind ((count_untouched _).spares grows.sound) fun _ s₂ grows _ => ?_
      -- The stack of the calls that the parser is in is put to the graph.
      obtain ⟨grown, tidy, present⟩ := grows.sound.tidy.ofReturns
        (q.grammar.network.followStates q.situation.invoking).reverse
      have sound₃ := grows.sound.grow grown tidy
      refine Step.Ensures.bind (.of_ok rfl (.bind (.of_ok rfl ?_)))
      refine Spares.behind (s := s₂) ?_ ?_
      · exact ⟨rfl, grown, sound₃, fun exact => by cases exact⟩
      refine .bind (startConfigs_runs (.refl q) true sound₃ present) fun configs s₄ grows h => ?_
      refine .bind (Untouched.spares (.of_aside (·.report (fun _ _ => id) _ _ _)) grows.sound) fun _ s₅ grows₅ _ => ?_
      refine .bind (Untouched.spares (.of_aside (·.seek _)) grows₅.sound) fun _ s₆ grows₆ _ => ?_
      refine .bind (Untouched.spares (.of_aside (·.current)) grows₆.sound) fun symbol s₇ grows₇ _ => ?_
      refine predictFully_spares _ symbol grows₇.sound fun c mem => ?_
      exact (h.stored c mem).mono (grows₅.trans (grows₆.trans grows₇)).graph
  cases d.guards with
  | none =>
      refine .bind (.pure (P := fun _ _ => True) grows.sound trivial) fun found s₂ grows₂ _ => ?_
      exact resolves _ grows₂.sound
  | some guards =>
      refine .bind (Untouched.spares (.of_aside (·.seek _)) grows.sound) fun _ s₂ grows₂ _ => ?_
      refine .bind (Untouched.spares (.of_aside (·.viable _)) grows₂.sound) fun alts s₃ grows₃ _ => ?_
      refine .bind (.pure (P := fun _ _ => True) grows₃.sound trivial) fun found s₄ grows₄ _ => ?_
      exact resolves _ grows₄.sound

end Full

omit [TokenSource σ] in
theorem Spares.memoizes {α : Type} {x : Prediction σ τ α} {P : StackGraph → α → Prop}
    (h : Spares s x P) (memo : s.Memoizes q none) :
    x.Ensures s (fun _ s' => s'.Memoizes q none) fun _ s' => s'.Memoizes q none :=
  Step.Ensures.imp h (fun _ _ spared => memo.grows spared.1) fun _ _ grows => memo.grows grows

omit [TokenSource σ] in
theorem Untouched.learns {α : Type} {x : Prediction σ τ α} (h : Untouched x) (learns : Learns q s) :
    x.Ensures s (fun _ s' => Learns q s' ∧ ∀ d, s.Has q d → s'.Has q d)
      fun _ s' => s'.Memoizes q none := by
  have grows {s' : Simulation σ τ} (same : s'.tables = s.tables) : s.Grows true s' := by
    refine ⟨by rw [same], ?_, same ▸ learns.sound.weaken, fun exact => by cases exact⟩
    rw [same]
    exact .refl _
  refine Step.Ensures.imp (h s.tables s rfl) ?_ ?_
  · rintro a s' ⟨same, -⟩
    exact ⟨⟨learns.memo.grows (grows same), same ▸ learns.sound⟩, fun d has => has.grows (grows same)⟩
  · rintro e s' ⟨same, -⟩
    exact learns.memo.grows (grows same)

/-- The stage without context, and what it hands over to, keeps the tables as memos. -/
theorem predictLocally_memoizes (fuel : Nat) {d : TableState} (symbol : Symbol) {s : Simulation σ τ}
    (h : Learns q s) (has : s.Has q d) :
    (predictLocally q fuel d symbol).Ensures s (fun _ s' => s'.Memoizes q none)
      fun _ s' => s'.Memoizes q none := by
  induction fuel generalizing d symbol s with
  | zero => exact h.memo
  | succ fuel ih =>
      rw [predictLocally]
      refine .bind (((count_untouched _).learns h).imp ?_ fun _ _ => id)
      rintro _ s₁ ⟨h₁, keeps⟩
      refine .bind ((target_learns h₁ (keeps d has)).imp ?_ fun _ _ => id)
      rintro target s₂ ⟨h₂, held⟩
      have sound : s₂.tables.arena.Sound (!true) := h₂.sound.weaken
      cases target with
      | dead => exact (Untouched.spares (.of_aside (·.deadEnd (fun _ => id) _)) sound).memoizes h₂.memo
      | state d' =>
          simp only
          split
          · exact (resolve_spares d' sound).memoizes h₂.memo
          · split
            · exact (Untouched.spares (.of_aside (·.accept (fun _ => id) (fun _ _ => id) d')) sound).memoizes h₂.memo
            · refine .bind ((Untouched.learns (.of_aside (·.advance symbol)) h₂).imp ?_ fun _ _ => id)
              rintro next s₃ ⟨h₃, keeps⟩
              exact ih next h₃ (keeps d' (held d' rfl))

theorem predict_memoizes (h : Learns q s) :
    (predict q).Ensures s (fun _ s' => s'.Memoizes q none) fun _ s' => s'.Memoizes q none := by
  refine .bind ((startState_learns h).imp ?_ fun _ _ => id)
  rintro d s₁ ⟨h₁, has⟩
  refine .bind ((Untouched.learns (.of_aside (·.current)) h₁).imp ?_ fun _ _ => id)
  rintro symbol s₂ ⟨h₂, keeps⟩
  exact predictLocally_memoizes _ symbol h₂ (keeps d has)

/-- Whatever comes of a prediction, the tables are memos behind it. -/
theorem adaptivePredict_memo {g : Grammar} {mode : PredictionMode} (fuel decision : Nat)
    (situation : Situation τ) (h : s.tables.Memo g mode) :
    ((adaptivePredict g mode fuel decision situation).run s).2.tables.Memo g mode := by
  unfold adaptivePredict
  rw [Step.run_bind_ok (Step.run_get s)]
  cases here : s.tables.tables[decision]? with
  | none => exact h
  | some table =>
      simp only
      let q : Problem τ := {
        grammar := g, mode, fuel, decision, start := s.input.index, situation
        decisionState := table.startState, byPrecedence := table.byPrecedence }
      let begun : Simulation σ τ :=
        ({ s with input := s.input.mark, tables := s.tables.forgetMerges } : Simulation σ τ).modifyStats
          decision fun i => { i with invocations := i.invocations + 1 }
      have learns : Learns q begun := by
        refine ⟨⟨h.tidy, ⟨table, here, ?_⟩, fun i _ table here => ?_⟩, h.tidy, nofun⟩
        · exact h.tables table (Array.mem_of_getElem? here)
        · exact h.tables table (Array.mem_of_getElem? here)
      obtain ⟨outcome, last, run⟩ : ∃ outcome last, (predict q).run begun = (outcome, last) :=
        ⟨_, _, rfl⟩
      have kept : last.tables.Memo g mode := by
        have memo := (predict_memoizes learns).state.memo
        rwa [run] at memo
      refine Step.Ensures.state (P := fun s' : Simulation σ τ => s'.tables.Memo g mode) ?_
      refine .bind (.of_ok rfl (.bind (.of_ok rfl (.bind (.of_ok (Step.run_attempt _ _) ?_)))))
      rw [show (predict q).run _ = (outcome, last) from run]
      refine .bind (.of_ok rfl (.bind (.of_ok rfl ?_)))
      cases outcome with
      | ok alt => exact .of_ok rfl kept
      | error e => exact .bind (.of_ok rfl (.of_error rfl kept))

end Prediction

namespace Tables

variable {g : Grammar} {mode : PredictionMode} {t : Tables}

/-- The tables of a new simulation are empty. -/
theorem Memo.ofNetwork (g : Grammar) (mode : PredictionMode) :
    (Tables.ofNetwork g.network).Memo g mode := by
  refine ⟨.empty, fun table mem => ?_⟩
  unfold Tables.ofNetwork at mem
  split at mem
  · obtain ⟨i, lt, rfl⟩ := Array.getElem_of_mem mem
    simp only [Array.getElem_mapIdx]
    exact .of_empty rfl rfl rfl rfl rfl rfl
  · obtain ⟨i, lt, rfl⟩ := Array.getElem_of_mem mem
    simp only [Array.getElem_mapIdx]
    exact .of_empty rfl rfl rfl rfl rfl rfl

theorem Memo.clear (h : t.Memo g mode) : t.clear.Memo g mode := by
  refine ⟨h.tidy, fun table mem => ?_⟩
  obtain ⟨old, -, rfl⟩ := Array.mem_map.1 mem
  exact .of_empty rfl rfl rfl rfl rfl rfl

theorem Memo.sound (h : t.Memo g mode) : t.forgetMerges.arena.Sound true :=
  ⟨h.tidy, fun _ mem => by cases mem⟩

/-- Tables that were used in one mode only are memos. -/
theorem Learned.memo (h : t.Learned g (· = mode)) : t.Memo g mode := by
  induction h with
  | new => exact .ofNetwork g mode
  | clear _ ih => exact ih.clear
  | predict _ permitted fuel decision situation ih =>
      obtain rfl := permitted
      exact Prediction.adaptivePredict_memo fuel decision situation ih

/-- A session in which all predictions are made in one mode leaves every table a faithful memo of
prediction without context, and the graph as it has to be for recomputing. -/
theorem Learned.faithful (h : t.Learned g (· = mode)) :
    t.forgetMerges.arena.Sound true ∧
      ∀ table ∈ t.tables, table.Faithful (table.subject g mode) t.graph :=
  ⟨h.memo.sound, fun table mem => (h.memo.tables table mem).toFaithful⟩

/-- What is learned from asking once, at the end of the input, whether the operator loop of
expressions goes on inside a factor. -/
def afterFactor (n : Network) : Tables :=
  let g : Grammar := { network := n, names := Samples.expression.names }
  let situation : Situation Unit :=
    { node := some 0, invoking := [], precedence := 4, state := 0, ask := fun _ host => (true, host) }
  let input : TokenStream TokenList := { source := { tokens := #[] } }
  ((Prediction.adaptivePredict g .sll 100 2 situation).run
    (.ofInput n (.ofNetwork n) input.start ())).2.tables

theorem Learned.afterFactor (n : Network) :
    (afterFactor n).Learned { network := n, names := Samples.expression.names } (· = .sll) := by
  refine .predict .new ?_ 100 2 _
  rfl

theorem Learned.faithful_afterFactor : ∃ n, Samples.expression.rules.build = .ok n ∧
    let g : Grammar := { network := n, names := Samples.expression.names }
    let t := Tables.afterFactor n
    t.Learned g (· = .sll) ∧ t.forgetMerges.arena.Sound true ∧
      ∀ table ∈ t.tables, table.Faithful (table.subject g .sll) t.graph := by
  have known : Samples.expression.rules.build.toOption.isSome = true := by decide +kernel
  cases built : Samples.expression.rules.build with
  | error e => simp [built, Except.toOption] at known
  | ok n =>
      have learned := Learned.afterFactor n
      exact ⟨n, rfl, learned, learned.faithful⟩

/-- All threads with which the loop starts inside a factor leave it, so that prediction would
accept. The state is a start, however, and is entered as it is. -/
theorem Learned.start_undecided : ∃ n, Samples.expression.rules.build = .ok n ∧
    let g : Grammar := { network := n, names := Samples.expression.names }
    let t := Tables.afterFactor n
    t.Learned g (· = .sll) ∧ ∃ table ∈ t.tables, ∃ d ∈ table.states,
      ¬ (table.subject g .sll).Derives t.graph d := by
  have agreed : Samples.expression.rules.build.toOption.any (fun n =>
      (Tables.afterFactor n).tables.any fun table => table.states.any fun d =>
        d.configs.unsettled.agreedAlt ≠ noAlt && !d.isAccept) = true := by
    decide +kernel
  cases built : Samples.expression.rules.build with
  | error e => simp [built, Except.toOption] at agreed
  | ok n =>
      simp only [built, Except.toOption, Option.any_some, Array.any_eq_true', Bool.and_eq_true,
        decide_eq_true_eq, Bool.not_eq_true'] at agreed
      obtain ⟨table, ht, d, hd, agreed, undecided⟩ := agreed
      have learned := Learned.afterFactor n
      refine ⟨n, rfl, learned, table, ht, d, hd, fun derives => ?_⟩
      let input : TokenStream TokenList := { source := { tokens := #[] } }
      let s : Simulation TokenList Unit := .ofInput n (Tables.afterFactor n).forgetMerges input ()
      have accepts := derives.isAccept (s := s) (.refl _) learned.memo.sound agreed
      cases undecided.symm.trans accepts

end Tables

end AdaptiveLL
