import AdaptiveLL.Proofs.Lexer.Footprint
import AdaptiveLL.Proofs.Lexer.Table
/-!
The prediction tables of a lexer after any history of matches. They are sound whatever was
matched before; a match finds in them what it would compute, and only adds to them.
-/
namespace AdaptiveLL

open Thread (RepresentsAll)

namespace Tables

structure Sound (n : Network) (t : Tables) : Prop where
  distinct : t.graph.Distinct
  size : t.tables.size = n.modes.size
  tables : ∀ {mode : Nat} {table : PredictionTable}, t.tables[mode]? = some table →
    ∃ start, n.modes[mode]? = some start ∧ table.Sound n t.graph start

/-- What is known about one mode is true. -/
structure SoundAt (n : Network) (mode : Nat) (t : Tables) : Prop where
  distinct : t.graph.Distinct
  size : t.tables.size = n.modes.size
  table : ∀ {table : PredictionTable}, t.tables[mode]? = some table →
    ∃ start, n.modes[mode]? = some start ∧ table.Sound n t.graph start

theorem Sound.soundAt {n : Network} {t : Tables} (h : t.Sound n) (mode : Nat) : t.SoundAt n mode :=
  ⟨h.distinct, h.size, h.tables⟩

/-- What is known about a mode stays true when only the table of another one changes. -/
theorem SoundAt.changesAt {n : Network} {t t' : Tables} {mode other : Nat} (h : t.SoundAt n mode)
    (changes : t.ChangesAt other t') (apart : mode ≠ other) : t'.SoundAt n mode where
  distinct := changes.grown.distinct h.distinct
  size := changes.size.trans h.size
  table found := by
    obtain ⟨start, hstart, table⟩ := h.table ((changes.others apart).symm.trans found)
    exact ⟨start, hstart, table.extend changes.grown⟩

/-- The state is in the table of the mode and stands for the threads. -/
def Has (n : Network) (mode : Nat) (t : Tables) (s : TableState) (ts : List Thread) : Prop :=
  ∃ table, t.tables[mode]? = some table ∧ table.Has n t.graph s ts

/-- The target is a state for the threads, or there are no threads. -/
def Leads (n : Network) (mode : Nat) (t : Tables) : TableTarget → List Thread → Prop
  | .dead, ts => ts = []
  | .state s, ts => ts ≠ [] ∧ t.Has n mode s ts

theorem getElem?_modifyTable {t : Tables} {mode : Nat} {table : PredictionTable}
    (found : t.tables[mode]? = some table) (table' : PredictionTable) :
    (t.modifyTable mode fun _ => table').tables[mode]? = some table' := by
  rw [modifyTable, Array.getElem?_modify, if_pos rfl, found]
  rfl

theorem sound_ofNetwork {n : Network} (lexer : n.kind = .lexer) : (ofNetwork n).Sound n where
  distinct id id' _ present := by
    exact absurd (by cases id <;> simp [ofNetwork, graph, StackGraph.node]) present
  size := by simp [ofNetwork, lexer]
  tables {mode table} found := by
    simp only [ofNetwork, lexer, Array.getElem?_mapIdx, Option.map_eq_some_iff] at found
    obtain ⟨start, hstart, rfl⟩ := found
    exact ⟨start, hstart, .of_empty rfl rfl rfl rfl⟩

end Tables

namespace Scanner

variable {τ : Type} {n : Network} {mode : Nat} {s s' s'' : Scanner τ}

/-- The scanner is the same but for what its tables have learned. -/
structure Learns (n : Network) (mode : Nat) (s s' : Scanner τ) : Prop where
  same : s' = { s with tables := s'.tables }
  sound : s'.tables.SoundAt n mode
  has : ∀ {state : TableState} {ts : List Thread},
    s.tables.Has n mode state ts → s'.tables.Has n mode state ts

namespace Learns

theorem refl (sound : s.tables.SoundAt n mode) : s.Learns n mode s :=
  ⟨rfl, sound, fun h => h⟩

theorem trans (h : s.Learns n mode s') (h' : s'.Learns n mode s'') : s.Learns n mode s'' := by
  refine ⟨?_, h'.sound, fun has => h'.has (h.has has)⟩
  rw [h'.same, h.same]

theorem leads (h : s.Learns n mode s') {target : TableTarget} {ts : List Thread}
    (leads : s.tables.Leads n mode target ts) : s'.tables.Leads n mode target ts := by
  cases target with
  | dead => exact leads
  | state => exact ⟨leads.1, h.has leads.2⟩

/-- New nodes of the stack graph do not change what the tables stand for. -/
theorem of_widens (sound : s.tables.SoundAt n mode) (h : s.Widens s') : s.Learns n mode s' := by
  obtain ⟨g, grown, rfl⟩ := h
  refine ⟨rfl, ⟨grown.distinct sound.distinct, sound.size, fun found => ?_⟩, ?_⟩
  · obtain ⟨start, hstart, table⟩ := sound.table found
    exact ⟨start, hstart, table.extend grown⟩
  · rintro state ts ⟨table, found, has⟩
    exact ⟨table, found, has.mono grown fun h => h⟩

/-- A table may be replaced by a sound one with more states. -/
theorem of_table (sound : s.tables.SoundAt n mode) {table table' : PredictionTable} {start : Nat}
    (found : s.tables.tables[mode]? = some table) (hstart : n.modes[mode]? = some start)
    (sound' : table'.Sound n s.tables.graph start)
    (more : ∀ {k : Nat} {state : TableState}, table.states[k]? = some state →
      table'.states[k]? = some state) :
    s.Learns n mode { s with tables := s.tables.modifyTable mode fun _ => table' } := by
  refine ⟨rfl, ⟨sound.distinct, by simpa [Tables.modifyTable] using sound.size, ?_⟩, ?_⟩
  · intro other h
    rw [Tables.getElem?_modifyTable found] at h
    obtain rfl := Option.some.inj h
    exact ⟨start, hstart, sound'⟩
  · rintro state ts ⟨old, hold, has⟩
    obtain rfl := Option.some.inj (found.symm.trans hold)
    exact ⟨table', Tables.getElem?_modifyTable found table', has.mono (.refl _) more⟩

end Learns

end Scanner

namespace Scan

variable {τ : Type} {u : LexerSetup τ} {n : Network} {mode : Nat} {s s' : Scanner τ}
  {ts ts' : List Thread} {table : PredictionTable}

theorem run_onTable {α : Type} [Inhabited α] (f : PredictionTable → α × PredictionTable)
    (found : s.tables.tables[mode]? = some table) :
    (onTable mode f).run s =
      (.ok (f table).1, { s with tables := s.tables.modifyTable mode fun _ => (f table).2 }) := by
  rw [onTable, Step.run_bind_ok (Step.run_get s)]
  simp only [found]
  rfl

/-- Reading from the table leaves the scanner as it is. -/
theorem run_onTable_read {α : Type} [Inhabited α] (f : PredictionTable → α)
    (found : s.tables.tables[mode]? = some table) :
    (onTable mode fun table => (f table, table)).run s = (.ok (f table), s) := by
  have same : (s.tables.tables.modify mode fun _ => table) = s.tables.tables := by
    refine Array.ext_getElem? fun k => ?_
    rw [Array.getElem?_modify]
    split
    case isTrue eq =>
        subst eq
        simp [found]
    case isFalse => rfl
  rw [run_onTable _ found, Tables.modifyTable, same]

/-- The first configuration that has finished stands for the first finished thread. -/
theorem verdict_of_represents {g : StackGraph} {cs : List Configuration}
    (each : List.Forall₂ (Thread.Represents g) cs ts) :
    Option.Rel (fun a b => a.1.actions = b.1.actions ∧ a.2 = b.2)
      (cs.findSome? fun c =>
        (n.states[c.state]?.filter State.isRuleStop).map fun s => (c, s.rule))
      (Thread.verdict n ts) := by
  rw [Thread.verdict]
  induction each with
  | nil => exact .none
  | @cons c t cs ts head _ ih =>
      obtain ⟨stack, -, rfl⟩ := head
      rw [List.findSome?_cons, List.findSome?_cons]
      cases h : n.states[t.state]?.filter State.isRuleStop with
      | none => simpa [Thread.configuration, h] using ih
      | some s => simp [Thread.configuration, h]

/-- The state that is proposed to the table for a set of threads. -/
def proposal (n : Network) (set : ConfigurationSet) : TableState :=
  match set.toList.findSome? fun c =>
      (n.states[c.state]?.filter State.isRuleStop).map fun s => (c, s.rule) with
  | some (c, rule) =>
      { configs := set, isAccept := true, tokenType := n.ruleTokens[rule]?, actions := c.actions }
  | none => { configs := set }

theorem proposal_stands {g : StackGraph} {set : ConfigurationSet}
    (reps : RepresentsAll g set ts) : (proposal n set).Stands n g ts := by
  obtain ⟨items, rfl, each⟩ := id reps
  have agree := verdict_of_represents (n := n) each
  unfold proposal
  split
  case h_1 c rule found =>
      rw [show items.toList.findSome? _ = some (c, rule) from found] at agree
      cases verdict : Thread.verdict n ts with
      | none => simp [verdict] at agree
      | some b =>
          rw [verdict] at agree
          obtain ⟨actions, rfl⟩ : c.actions = b.1.actions ∧ rule = b.2 := by simpa using agree
          refine ⟨reps, by simp [verdict], fun t rule h => ?_⟩
          obtain rfl := Option.some.inj (verdict.symm.trans h)
          exact ⟨rfl, actions⟩
  case h_2 found =>
      rw [show items.toList.findSome? _ = none from found] at agree
      cases verdict : Thread.verdict n ts with
      | none => exact ⟨reps, by simp [verdict], fun t rule h => by simp [verdict] at h⟩
      | some b => simp [verdict] at agree

/-- Entering threads into the table. The answer is a state for them. -/
theorem addState_learns (hu : u.grammar.network = n) (sound : s.tables.SoundAt n mode)
    (valid : mode < n.modes.size) {set : ConfigurationSet}
    (reps : RepresentsAll s.tables.graph set ts) :
    ∃ state s', (addState u mode set).run s = (.ok state, s') ∧ s.Learns n mode s' ∧
      s'.tables.Has n mode state ts := by
  obtain ⟨table, found⟩ : ∃ table, s.tables.tables[mode]? = some table :=
    ⟨_, Array.getElem?_eq_getElem (sound.size ▸ valid)⟩
  obtain ⟨start, hstart, tableSound⟩ := sound.table found
  obtain ⟨sound', has, more⟩ := tableSound.addState (proposal_stands reps)
  subst hu
  exact ⟨_, _, run_onTable _ found, .of_table sound found hstart sound' more, _,
    Tables.getElem?_modifyTable found _, has⟩

/-- Writing down the start state of a mode. -/
theorem setStart_learns (sound : s.tables.SoundAt n mode) {start : Nat}
    (hstart : n.modes[mode]? = some start) {state : TableState}
    (has : s.tables.Has n mode state ts) (begins : Thread.Begins n start ts) :
    ∃ s', (onTable mode fun table => ((), table.setStart state)).run s = (.ok (), s') ∧
      s.Learns n mode s' := by
  obtain ⟨table, found, inTable⟩ := has
  obtain ⟨start', hstart', tableSound⟩ := sound.table found
  obtain rfl := Option.some.inj (hstart.symm.trans hstart')
  exact ⟨_, run_onTable _ found, .of_table sound found hstart (tableSound.setStart inTable begins)
    fun h => by simpa using h⟩

/-- Writing down an edge. -/
theorem addEdge_learns (sound : s.tables.SoundAt n mode) {source : TableState} {target : TableTarget}
    {x : Symbol} (has : s.tables.Has n mode source ts) (become : Thread.LeadTo n ts x ts')
    (leads : s.tables.Leads n mode target ts') :
    ∃ s', (onTable mode fun table => ((), table.addEdge source x target)).run s = (.ok (), s') ∧
      s.Learns n mode s' := by
  obtain ⟨table, found, inTable⟩ := has
  obtain ⟨start, hstart, tableSound⟩ := sound.table found
  have leadsIn : table.Leads n s.tables.graph target ts' := by
    cases target with
    | dead => exact leads
    | state state =>
        obtain ⟨alive, table', found', inTable'⟩ := leads
        obtain rfl := Option.some.inj (found.symm.trans found')
        exact ⟨alive, inTable'⟩
  exact ⟨_, run_onTable _ found,
    .of_table sound found hstart (tableSound.addEdge inTable become leadsIn) fun h => by simpa using h⟩

/-- What a scanner computes for a symbol is what the threads become. -/
theorem computeTarget_agrees {area : Set Nat} (scannable : n.IsScannableIn area)
    (hu : u.grammar.network = n) (sound : s.tables.SoundAt n mode) (known : ∀ t ∈ ts, t.IsIn area)
    {source : TableState} (has : s.tables.Has n mode source ts) (x : Symbol) :
    Step.Agrees (computeTarget u mode source x) s
      (Thread.reach n u.fuel (s.input.position - s.start) ts x)
      (fun ts' target s' => s.Learns n mode s' ∧ s'.tables.Leads n mode target ts')
      (s.Learns n mode) := by
  obtain ⟨table, found, inTable⟩ := id has
  obtain ⟨start, hstart, -⟩ := sound.table found
  have reached := reach_follows scannable hu x sound.distinct known inTable.2.configs
  rw [computeTarget]
  cases become : Thread.reach n u.fuel (s.input.position - s.start) ts x with
  | none =>
      rw [become] at reached
      obtain ⟨fault, s', run, widens⟩ := reached
      exact ⟨fault, s', Step.run_bind_error run, .of_widens sound widens⟩
  | some ts' =>
      rw [become] at reached
      obtain ⟨set, s₁, run, widens, reps⟩ := reached
      refine .bind_ok run ?_
      have learns₁ : s.Learns n mode s₁ := .of_widens sound widens
      obtain ⟨items, rfl, each⟩ := id reps
      have record {s₂ : Scanner τ} (learns : s.Learns n mode s₂) {target : TableTarget}
          (leads : s₂.tables.Leads n mode target ts') :
          Step.Agrees (if decide (0 ≤ x) then do
              onTable mode fun table => ((), table.addEdge source x target)
              return target
            else return target : Scan τ TableTarget) s₂ (some ts')
            (fun ts' target s' => s.Learns n mode s' ∧ s'.tables.Leads n mode target ts')
            (s.Learns n mode) := by
        split
        · obtain ⟨s₃, run, learns₃⟩ := addEdge_learns learns.sound (learns.has has)
            ⟨_, _, become⟩ leads
          exact .bind_ok run (.pure ⟨learns.trans learns₃, learns₃.leads leads⟩)
        · exact .pure ⟨learns, leads⟩
      by_cases dead : ({ items, ordered := true } : ConfigurationSet).isEmpty = true
      · simp only [dead, if_true, Bool.not_false, Bool.true_and]
        exact record learns₁ (reps.isEmpty_iff.1 dead)
      · have valid : mode < n.modes.size := (Array.getElem?_eq_some_iff.1 hstart).1
        obtain ⟨state, s₂, run, learns₂, has₂⟩ := addState_learns hu learns₁.sound valid reps
        simp only [dead]
        refine .bind_ok (Step.run_bind_ok run) ?_
        exact record (learns₁.trans learns₂) ⟨fun none => dead (reps.isEmpty_iff.2 none), has₂⟩

/-- Where a symbol leads, be it found in the table or computed. -/
theorem target_spec {area : Set Nat} (scannable : n.IsScannableIn area)
    (hu : u.grammar.network = n) (sound : s.tables.SoundAt n mode) (known : ∀ t ∈ ts, t.IsIn area)
    {source : TableState} (has : s.tables.Has n mode source ts) (x : Symbol) :
    (∃ next s' ts', (target u mode source x).run s = (.ok next, s') ∧ s.Learns n mode s' ∧
      Thread.LeadTo n ts x ts' ∧ s'.tables.Leads n mode next ts') ∨
    (∃ fault s', (target u mode source x).run s = (.error (.fault fault), s') ∧
      s.Learns n mode s' ∧ Thread.reach n u.fuel (s.input.position - s.start) ts x = none) := by
  obtain ⟨table, found, inTable⟩ := id has
  obtain ⟨start, hstart, tableSound⟩ := sound.table found
  have look := run_onTable_read
    (fun table => if 0 ≤ x then table.edge? source x else none) found
  rw [target, Step.run_bind_ok look]
  cases written : (if 0 ≤ x then table.edge? source x else none) with
  | some next =>
      left
      split at written
      case isFalse => cases written
      case isTrue =>
          obtain ⟨ts', become, leads⟩ := tableSound.edge? inTable written
          refine ⟨next, s, ts', rfl, .refl sound, become, ?_⟩
          cases next with
          | dead => exact leads
          | state => exact ⟨leads.1, table, found, leads.2⟩
  | none =>
      have computed := computeTarget_agrees scannable hu sound known has x
      cases become : Thread.reach n u.fuel (s.input.position - s.start) ts x with
      | some ts' =>
          rw [become] at computed
          obtain ⟨next, s', run, learns, leads⟩ := computed
          exact .inl ⟨next, s', ts', run, learns, ⟨_, _, become⟩, leads⟩
      | none =>
          rw [become] at computed
          obtain ⟨fault, s', run, learns⟩ := computed
          exact .inr ⟨fault, s', run, learns, rfl⟩

/-- Where a match begins, be it found in the table or computed. -/
theorem startState_spec {area : Set Nat} {start : Nat} (scannable : n.IsScannableFrom start area)
    (hu : u.grammar.network = n) (sound : s.tables.SoundAt n mode)
    (hstart : n.modes[mode]? = some start) :
    (∃ state s' ts, (startState u mode).run s = (.ok state, s') ∧ s.Learns n mode s' ∧
      Thread.Begins n start ts ∧ s'.tables.Has n mode state ts) ∨
    (∃ fault s', (startState u mode).run s = (.error (.fault fault), s') ∧
      s.Learns n mode s' ∧ Thread.starts n u.fuel start = none) := by
  have valid : mode < n.modes.size := (Array.getElem?_eq_some_iff.1 hstart).1
  obtain ⟨table, found⟩ : ∃ table, s.tables.tables[mode]? = some table :=
    ⟨_, Array.getElem?_eq_getElem (sound.size ▸ valid)⟩
  obtain ⟨start', hstart', tableSound⟩ := sound.table found
  obtain rfl := Option.some.inj (hstart.symm.trans hstart')
  rw [startState, Step.run_bind_ok (run_onTable_read PredictionTable.start? found)]
  cases known : table.start? with
  | some state =>
      obtain ⟨ts, has, begins⟩ := tableSound.start? known
      exact .inl ⟨state, s, ts, rfl, .refl sound, begins, table, found, has⟩
  | none =>
      simp only
      rw [Step.run_bind_ok (run_onTable_read PredictionTable.startState found),
        tableSound.startState]
      have computed := startConfigs_follows scannable hu sound.distinct
      cases begins : Thread.starts n u.fuel start with
      | none =>
          rw [begins] at computed
          obtain ⟨fault, s', run, widens⟩ := computed
          exact .inr ⟨fault, s', Step.run_bind_error run, .of_widens sound widens, rfl⟩
      | some ts =>
          rw [begins] at computed
          obtain ⟨set, s₁, run, widens, reps⟩ := computed
          have learns₁ : s.Learns n mode s₁ := .of_widens sound widens
          obtain ⟨items, rfl, each⟩ := id reps
          obtain ⟨state, s₂, added, learns₂, has₂⟩ := addState_learns hu learns₁.sound valid reps
          obtain ⟨s₃, set, learns₃⟩ := setStart_learns learns₂.sound hstart has₂ ⟨_, begins⟩
          refine .inl ⟨state, s₃, ts, ?_, (learns₁.trans learns₂).trans learns₃, ⟨_, begins⟩,
            learns₃.has has₂⟩
          have entered : (enter u mode { items, ordered := true }).run s₁ =
              (.ok (state, false), s₂) := Step.run_bind_ok added
          rw [Step.run_bind_ok run, Step.run_bind_ok entered]
          exact Step.run_bind_ok set

end Scan

end AdaptiveLL
