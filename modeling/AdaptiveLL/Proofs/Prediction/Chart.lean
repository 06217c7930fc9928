import AdaptiveLL.Proofs.Prediction.Faithful
import AdaptiveLL.Proofs.Stream.Upcoming
/-!
Charts: what prediction finds out about decisions that one token settles. A chart is drawn up
once, by predicting with empty tables and no stacks. As long as predictions keep to it, the
tables hold nothing but parts of the chart, and every prediction answers what the chart says,
whatever was predicted before.
-/
namespace AdaptiveLL

open StackGraph

variable {σ τ α : Type}

namespace Prediction

/-- The threads with which predictions start; in an operator loop they depend on the
precedence. -/
def opening [TokenSource σ] (level : Int) (q : Problem τ) : Prediction σ τ ConfigurationSet :=
  if q.byPrecedence then operatorStart level q else startConfigs q false 0

theorem opening_runs {σ' τ' : Type} [TokenSource σ] [TokenSource σ'] {q : Problem τ}
    {q' : Problem τ'} {s : Simulation σ τ} (akin : Akin q q') (level : Int) (sound : s.tables.arena.Sound true) :
    Runs false s (opening level q) (opening level q' : Prediction σ' τ' _)
      (ConfigurationSet.Open false) := by
  unfold opening
  rw [akin.byPrecedence]
  exact .ite (fun _ => operatorStart_runs akin level sound) fun _ =>
    startConfigs_runs akin false sound present_zero

/-- A simulation that knows nothing. -/
def blank : Simulation TokenList Unit where
  input := { source := { tokens := #[] } }
  host := ()
  tables := { tables := #[] }
  stats := #[]

/-- The answer of a step that begins with no stacks and makes none. -/
def answer? (x : Prediction TokenList Unit α) : Option α :=
  match x.run blank with
  | (.ok a, s) => if s.tables.graph = {} then some a else none
  | (.error _, _) => none

end Prediction

open Prediction

/-- A problem about the subject. -/
def Subject.problem (u : Subject) (fuel : Nat) : Problem Unit where
  grammar := u.grammar
  mode := u.mode
  fuel := fuel
  decision := 0
  decisionState := u.decisionState
  byPrecedence := u.byPrecedence
  start := 0
  situation := {
    node := none, invoking := [], precedence := 0, state := 0, ask := fun _ host => (true, host) }

namespace Subject

variable {u : Subject} {fuel : Nat}
  {step : ∀ {σ τ : Type} [TokenSource σ], Problem τ → Prediction σ τ α}
  {a : α} {P : StackGraph → α → Prop}

/-- Every problem about the subject has the answer, whatever stacks there are. -/
structure Answers (u : Subject) (fuel : Nat)
    (step : ∀ {σ τ : Type} [TokenSource σ], Problem τ → Prediction σ τ α) (a : α) : Prop where
  repeats : ∀ {σ τ : Type} [TokenSource σ] (q : Problem τ), q.subject = u → fuel ≤ q.fuel →
    Repeats (step q : Prediction σ τ α) {} a

theorem Answers.run [TokenSource σ] (h : u.Answers fuel step a) {q : Problem τ}
    (about : q.subject = u) (le : fuel ≤ q.fuel) {s : Simulation σ τ} (sound : s.tables.arena.Sound true) :
    ∃ s', (step q).run s = (.ok a, s') ∧ s.Grows false s' := by
  refine h.repeats q about le s ⟨fun {id} some => ?_, fun _ => sound.tidy.distinct⟩ sound
  cases id <;> exact absurd rfl some

variable (step) in
/-- What is answered once without stacks is answered always. -/
theorem answers_of_answer?
    (runs : ∀ {σ τ : Type} [TokenSource σ] (q : Problem τ), Akin (u.problem fuel) q →
      Runs false blank (step (u.problem fuel)) (step q : Prediction σ τ α) P)
    (found : answer? (step (u.problem fuel)) = some a) : P {} a ∧ u.Answers fuel step a := by
  unfold answer? at found
  split at found
  case h_2 => cases found
  case h_1 a' s run =>
      split at found
      case isFalse => cases found
      case isTrue none =>
          obtain rfl := Option.some.inj found
          have once : Runs false blank (step (u.problem fuel))
              (step (u.problem fuel) : Prediction TokenList Unit α) P := runs _ (.refl _)
          refine ⟨none ▸ (Step.Ensures.ok once run).2.1, ⟨fun {σ τ} _ q about le => ?_⟩⟩
          have akin : Akin (u.problem fuel) q := {
            grammar := congrArg Subject.grammar about
            mode := congrArg Subject.mode about
            decisionState := congrArg Subject.decisionState about
            byPrecedence := congrArg Subject.byPrecedence about
            fuel := le }
          exact none ▸ (Step.Ensures.ok (runs q akin) run).2.2 rfl

end Subject

/-- The state by itself, without its place in a table. -/
def TableState.unplaced (d : TableState) : TableState :=
  { d with number := noState, generation := 0 }

/-- The alternative that a state without conflicts predicts, if its guards can be told from the
precedence. -/
def TableState.chosen? (d : TableState) (level : Int) : Option Nat :=
  if d.isAccept && !d.needsFullContext then
    match d.guards with
    | none => some d.prediction
    | some [(.precedence l, alt)] => if level ≤ l then some alt else none
    | some _ => none
  else none

/-- The threads with which predictions start under each precedence, and the states to which
symbols lead from there. -/
structure Chart where
  starts : List (Int × ConfigurationSet)
  edges : List ((ConfigurationSet × Symbol) × TableState)

namespace Chart

/-- The state to which a symbol leads. -/
def target? (u : Subject) (fuel : Nat) (threads : ConfigurationSet) (x : Symbol) :
    Option TableState := do
  let reached ← (answer? (reach (u.problem fuel) threads x false)).join
  answer? (derive (u.problem fuel) reached)

/-- The chart for some precedences and symbols. -/
def draw (u : Subject) (fuel : Nat) (levels : List Int) (symbols : List Symbol) : Chart :=
  let starts := levels.filterMap fun level =>
    (answer? (opening level (u.problem fuel))).map (level, ·)
  { starts
    edges := starts.flatMap fun start => symbols.filterMap fun x =>
      (target? u fuel start.2 x).map ((start.2, x), ·) }

def states (c : Chart) : List TableState :=
  c.starts.map (fun start => { configs := start.2 }) ++ c.edges.map Prod.snd

/-- The alternative that is predicted at a start by the next symbol, under a precedence. -/
def alt? (c : Chart) (start level : Int) (x : Symbol) : Option Nat := do
  let threads ← c.starts.lookup start
  let d ← c.edges.lookup (threads, x)
  d.chosen? level

/-- No two states of the chart have equal threads. -/
def Distinct (c : Chart) : Prop :=
  ∀ d ∈ c.states, d.unplaced = d ∧ ∀ e ∈ c.states, d.configs.same e.configs = true → d = e

instance (c : Chart) : Decidable c.Distinct :=
  inferInstanceAs (Decidable (∀ d ∈ c.states, d.unplaced = d ∧
    ∀ e ∈ c.states, d.configs.same e.configs = true → d = e))

/-- The chart tells what all predictions about the subject find out. -/
structure Holds (c : Chart) (u : Subject) (fuel : Nat) : Prop where
  opens : ∀ {level : Int} {threads : ConfigurationSet}, c.starts.lookup level = some threads →
    u.Answers fuel (fun q => opening level q) threads
  leads : ∀ {threads : ConfigurationSet} {x : Symbol} {d : TableState},
    c.edges.lookup (threads, x) = some d → ∃ reached,
      u.Answers fuel (fun q => reach q threads x false) (some reached) ∧
      u.Answers fuel (fun q => derive q reached) d
  distinct : c.Distinct

theorem draw_holds (u : Subject) (fuel : Nat) (levels : List Int) (symbols : List Symbol)
    (distinct : (draw u fuel levels symbols).Distinct) :
    (draw u fuel levels symbols).Holds u fuel := by
  have sound : blank.tables.arena.Sound true := ⟨.empty, fun _ mem => by cases mem⟩
  have opened {level : Int} {threads : ConfigurationSet}
      (mem : (level, threads) ∈ (draw u fuel levels symbols).starts) :
      threads.Open false {} ∧ u.Answers fuel (fun q => opening level q) threads := by
    obtain ⟨level', -, listed⟩ := List.mem_filterMap.1 mem
    obtain ⟨threads', found, eq⟩ := Option.map_eq_some_iff.1 listed
    obtain ⟨rfl, rfl⟩ := Prod.mk.inj eq
    exact Subject.answers_of_answer? (fun q => opening level' q)
      (fun q akin => opening_runs akin level' sound) found
  refine ⟨fun found => (opened (mem_of_lookup found)).2, fun {threads x d} found => ?_, distinct⟩
  obtain ⟨⟨level, threads'⟩, mem, listed⟩ := List.mem_flatMap.1 (mem_of_lookup found)
  obtain ⟨x', -, listed⟩ := List.mem_filterMap.1 listed
  obtain ⟨d', target, eq⟩ := Option.map_eq_some_iff.1 listed
  obtain ⟨key, rfl⟩ := Prod.mk.inj eq
  obtain ⟨rfl, rfl⟩ := Prod.mk.inj key
  obtain ⟨reached, moves, settles⟩ := Option.bind_eq_some_iff.1 target
  have stored := (opened mem).1.stored
  obtain ⟨opened, reaches⟩ := Subject.answers_of_answer? (fun q => reach q threads' x' false)
    (fun q akin => reach_runs akin x' sound stored) (Option.join_eq_some_iff.1 moves)
  obtain ⟨-, derives⟩ := Subject.answers_of_answer? (fun q => derive q reached)
    (fun q akin => derive_runs akin sound (opened reached rfl)) settles
  exact ⟨reached, reaches, derives⟩

end Chart

namespace PredictionTable

variable {t : PredictionTable} {u : Subject} {c : Chart} {d e : TableState} {k : Nat}
  {x : Symbol} {level : Int} {threads : ConfigurationSet}

/-- The state of this number is one of the chart. -/
def Shows (t : PredictionTable) (k : Nat) (e : TableState) : Prop :=
  ∃ d, t.states[k]? = some d ∧ d.unplaced = e

/-- The table is about the subject, and a part of the chart. -/
structure Charted (u : Subject) (c : Chart) (t : PredictionTable) : Prop where
  startState : t.startState = u.decisionState
  byPrecedence : t.byPrecedence = u.byPrecedence
  entry : ∀ {k : Nat} {d : TableState}, t.states[k]? = some d →
    d.number = k ∧ d.generation = t.generation ∧ d.unplaced ∈ c.states
  start : ∀ {k : Nat}, t.start = some k →
    ∃ threads, c.starts.lookup 0 = some threads ∧ t.Shows k { configs := threads }
  opens : ∀ {level : Int} {k : Nat}, (level, k) ∈ t.precedenceStarts →
    ∃ threads, c.starts.lookup level = some threads ∧ t.Shows k { configs := threads }
  leads : ∀ {k : Nat} {x : Symbol} {target : Option Nat}, ((k, x), target) ∈ t.edges →
    ∃ s j e, target = some j ∧ t.states[k]? = some s ∧
      c.edges.lookup (s.configs, x) = some e ∧ t.Shows j e

namespace Charted

/-- A table that knows nothing. -/
theorem of_empty (startState : t.startState = u.decisionState)
    (byPrecedence : t.byPrecedence = u.byPrecedence) (states : t.states = #[])
    (start : t.start = none) (starts : t.precedenceStarts = []) (edges : t.edges = []) :
    t.Charted u c where
  startState := startState
  byPrecedence := byPrecedence
  entry here := by simp [states] at here
  start here := by cases start.symm.trans here
  opens mem := by simp [starts] at mem
  leads mem := by simp [edges] at mem

/-- Adding a state of the chart. -/
theorem addState (h : t.Charted u c) (distinct : c.Distinct) (mem : e ∈ c.states) :
    let added := t.addState e
    added.2.Charted u c ∧ added.2.states[added.1.number]? = some added.1 ∧ added.1.unplaced = e ∧
      ∀ {k : Nat} {s : TableState}, t.states[k]? = some s → added.2.states[k]? = some s := by
  unfold PredictionTable.addState
  split
  case h_1 d found =>
      obtain ⟨k, here⟩ := Array.mem_iff_getElem?.1 (Array.mem_of_find?_eq_some found)
      obtain ⟨rfl, -, listed⟩ := h.entry here
      have same := Array.find?_some found
      exact ⟨h, here, (distinct _ listed).2 e mem same, id⟩
  case h_2 =>
      have kept {k : Nat} {s : TableState} (here : t.states[k]? = some s) :
          (t.states.push { e with number := t.states.size, generation := t.generation })[k]? =
            some s := by
        obtain ⟨lt, -⟩ := Array.getElem?_eq_some_iff.1 here
        rw [Array.getElem?_push, if_neg (Nat.ne_of_lt lt), here]
      have unplaced : TableState.unplaced
          { e with number := t.states.size, generation := t.generation } = e :=
        (distinct e mem).1
      refine ⟨?_, Array.getElem?_push_size, unplaced, kept⟩
      exact { h with
        entry := fun {k s} here => by
          simp only [Array.getElem?_push] at here
          split at here
          case isTrue last =>
              obtain rfl := Option.some.inj here
              exact ⟨last.symm, rfl, unplaced ▸ mem⟩
          case isFalse => exact h.entry here
        start := fun here => by
          obtain ⟨threads, listed, s, hs, shown⟩ := h.start here
          exact ⟨threads, listed, s, kept hs, shown⟩
        opens := fun mem => by
          obtain ⟨threads, listed, s, hs, shown⟩ := h.opens mem
          exact ⟨threads, listed, s, kept hs, shown⟩
        leads := fun mem => by
          obtain ⟨s, j, e, rfl, hs, listed, d, hd, shown⟩ := h.leads mem
          exact ⟨s, j, e, rfl, kept hs, listed, d, kept hd, shown⟩ }

theorem setStart (h : t.Charted u c) (here : t.states[d.number]? = some d)
    (listed : c.starts.lookup 0 = some threads) (shown : d.unplaced = { configs := threads }) :
    (t.setStart d).Charted u c := by
  rw [PredictionTable.setStart, if_pos (holds_of_stored here)]
  exact { h with
    start := fun {k} start => by
      obtain rfl := Option.some.inj start
      exact ⟨threads, listed, d, here, shown⟩ }

theorem setPrecedenceStart (h : t.Charted u c) (here : t.states[d.number]? = some d)
    (listed : c.starts.lookup level = some threads) (shown : d.unplaced = { configs := threads }) :
    (t.setPrecedenceStart level d).Charted u c := by
  rw [PredictionTable.setPrecedenceStart, if_pos (holds_of_stored here)]
  exact { h with
    opens := fun {level' k} mem => by
      rcases List.mem_cons.1 mem with new | old
      · obtain ⟨rfl, rfl⟩ := Prod.mk.inj new
        exact ⟨threads, listed, d, here, shown⟩
      · exact h.opens (List.mem_of_mem_filter old) }

theorem addEdge (h : t.Charted u c) {s : TableState} (hs : t.states[s.number]? = some s)
    (hd : t.states[d.number]? = some d) (listed : c.edges.lookup (s.configs, x) = some e)
    (shown : d.unplaced = e) : (t.addEdge s x (.state d)).Charted u c := by
  simp only [PredictionTable.addEdge, holds_of_stored hs, holds_of_stored hd, if_true]
  exact { h with
    leads := fun mem => by
      rcases List.mem_cons.1 mem with new | old
      · obtain ⟨key, rfl⟩ := Prod.mk.inj new
        obtain ⟨rfl, rfl⟩ := Prod.mk.inj key
        exact ⟨s, d.number, e, rfl, hs, listed, d, hd, shown⟩
      · exact h.leads (List.mem_of_mem_filter old) }

/-- The start that a prediction finds. -/
theorem start? (h : t.Charted u c) (listed : c.starts.lookup 0 = some threads)
    (known : t.start? = some d) :
    t.states[d.number]? = some d ∧ d.unplaced = { configs := threads } := by
  obtain ⟨k, hk, hd⟩ := Option.bind_eq_some_iff.1 known
  obtain ⟨threads', listed', d', hd', shown⟩ := h.start hk
  obtain rfl := Option.some.inj (hd'.symm.trans hd)
  obtain rfl := Option.some.inj (listed'.symm.trans listed)
  obtain ⟨rfl, -⟩ := h.entry hd
  exact ⟨hd, shown⟩

theorem precedenceStart? (h : t.Charted u c) (listed : c.starts.lookup level = some threads)
    (known : t.precedenceStart? level = some d) :
    t.states[d.number]? = some d ∧ d.unplaced = { configs := threads } := by
  obtain ⟨k, hk, hd⟩ := Option.bind_eq_some_iff.1 known
  obtain ⟨threads', listed', d', hd', shown⟩ := h.opens (mem_of_lookup hk)
  obtain rfl := Option.some.inj (hd'.symm.trans hd)
  obtain rfl := Option.some.inj (listed'.symm.trans listed)
  obtain ⟨rfl, -⟩ := h.entry hd
  exact ⟨hd, shown⟩

/-- The state to which a prediction finds that a symbol leads. -/
theorem edge? (h : t.Charted u c) {s : TableState} (hs : t.states[s.number]? = some s)
    (listed : c.edges.lookup (s.configs, x) = some e) {target : TableTarget}
    (known : t.edge? s x = some target) :
    ∃ d, target = .state d ∧ t.states[d.number]? = some d ∧ d.unplaced = e := by
  rw [PredictionTable.edge?, if_pos (holds_of_stored hs)] at known
  cases found : t.edges.lookup (s.number, x) with
  | none => simp [found] at known
  | some number =>
      obtain ⟨s', j, e', rfl, hs', listed', d, hd, shown⟩ := h.leads (mem_of_lookup found)
      obtain rfl := Option.some.inj (hs'.symm.trans hs)
      obtain rfl := Option.some.inj (listed'.symm.trans listed)
      obtain ⟨rfl, -⟩ := h.entry hd
      simp only [found, hd, Option.map_some, Option.some.injEq] at known
      exact ⟨d, known.symm, hd, shown⟩

end Charted

end PredictionTable

/-- The table of the decision is a part of the chart, and the other tables are as they were. -/
structure Tables.Charted (decision : Nat) (u : Subject) (c : Chart) (t t₀ : Tables) : Prop where
  sound : t.arena.Sound true
  own : ∃ table, t.tables[decision]? = some table ∧ table.Charted u c
  others : ∀ i ≠ decision, t.tables[i]? = t₀.tables[i]?

/-- During a prediction, before tokens are looked at. -/
structure Simulation.Charted (q : Problem τ) (c : Chart) (s s₀ : Simulation σ τ) : Prop
    extends s.tables.Charted q.decision q.subject c s₀.tables where
  input : s.input = s₀.input

namespace Simulation.Charted

variable {q : Problem τ} {c : Chart} {s₀ s s' : Simulation σ τ}

theorem grows (h : s.Charted q c s₀) (grows : s.Grows false s') : s'.Charted q c s₀ where
  sound := grows.sound
  own := by rw [grows.tables]; exact h.own
  others i ne := by rw [grows.tables]; exact h.others i ne
  input := (grows.input rfl).trans h.input

end Simulation.Charted

namespace Prediction

variable {q : Problem τ} {c : Chart} {s₀ s : Simulation σ τ} {d e : TableState} {x : Symbol}
  {alt fuel : Nat} {threads : ConfigurationSet}

/-- Changing the table of the decision. -/
theorem onTable_charted [Inhabited α] {f : PredictionTable → α × PredictionTable}
    (h : s.Charted q c s₀) {t : PredictionTable} (here : s.tables.tables[q.decision]? = some t)
    (charted : (f t).2.Charted q.subject c) :
    (onTable q f).Ensures s (fun a s' => a = (f t).1 ∧ s'.Charted q c s₀ ∧
      s'.tables.tables[q.decision]? = some (f t).2) fun _ _ => False := by
  have now : (s.tables.modifyTable q.decision fun _ => (f t).2).tables[q.decision]?
      = some (f t).2 := by
    simp [Tables.modifyTable, Array.getElem?_modify, here]
  refine .of_ok (onTable_run here)
    ⟨rfl, ⟨⟨h.sound, ⟨_, now, charted⟩, fun i ne => ?_⟩, h.input⟩, now⟩
  rw [← h.others i ne]
  simp [Tables.modifyTable, Array.getElem?_modify, ne.symm]

/-- Entering a state of the chart. -/
theorem addState_charted (h : s.Charted q c s₀) (distinct : c.Distinct) (mem : e ∈ c.states) :
    (addState q e).Ensures s (fun d s' => s'.Charted q c s₀ ∧ s'.Has q d ∧ d.unplaced = e ∧
      ∀ d', s.Has q d' → s'.Has q d') fun _ _ => False := by
  obtain ⟨t, here, charted⟩ := h.own
  obtain ⟨charted', held, shown, kept⟩ := charted.addState distinct mem
  refine (onTable_charted h here charted').imp ?_ fun _ _ => id
  rintro _ s' ⟨rfl, h', now⟩
  refine ⟨h', ⟨_, now, held⟩, shown, ?_⟩
  rintro d' ⟨t', here', held'⟩
  obtain rfl := Option.some.inj (here'.symm.trans here)
  exact ⟨_, now, kept held'⟩

variable [TokenSource σ]

/-- A prediction starts where the chart says. -/
theorem startState_charted {limit : Nat} (h : s.Charted q c s₀) (chart : c.Holds q.subject limit)
    (le : limit ≤ q.fuel)
    (listed : c.starts.lookup (if q.byPrecedence then q.situation.precedence else 0)
      = some threads) :
    (startState q).Ensures s (fun d s' => s'.Charted q c s₀ ∧ s'.Has q d ∧
      d.unplaced = { configs := threads }) fun _ _ => False := by
  have mem : { configs := threads } ∈ c.states :=
    List.mem_append_left _ (List.mem_map.2 ⟨_, mem_of_lookup listed, rfl⟩)
  -- What is computed is entered, and linked as a start.
  have enter {s : Simulation σ τ} (h : s.Charted q c s₀)
      {link : TableState → PredictionTable → PredictionTable}
      (linked : ∀ t d, t.Charted q.subject c → t.states[d.number]? = some d →
        d.unplaced = { configs := threads } →
          (link d t).Charted q.subject c ∧ (link d t).states = t.states) :
      Step.Ensures
        (do
          let d ← addState q { configs := threads }
          onTable q fun table => ((), link d table)
          return d : Prediction σ τ TableState) s
        (fun d s' => s'.Charted q c s₀ ∧ s'.Has q d ∧ d.unplaced = { configs := threads })
        fun _ _ => False := by
    refine .bind ((addState_charted h chart.distinct mem).imp ?_ fun _ _ => id)
    rintro d s₁ ⟨h₁, ⟨t, here, held⟩, shown, -⟩
    obtain ⟨t', here', charted⟩ := h₁.own
    obtain rfl := Option.some.inj (here'.symm.trans here)
    obtain ⟨charted', states⟩ := linked t' d charted held shown
    refine .bind ((onTable_charted h₁ here charted').imp ?_ fun _ _ => id)
    rintro _ s₂ ⟨-, h₂, now⟩
    exact ⟨h₂, ⟨_, now, by rwa [states]⟩, shown⟩
  obtain ⟨t, here, charted⟩ := h.own
  refine .bind ((onTable_charted h here charted).imp ?_ fun _ _ => id)
  rintro _ s₁ ⟨rfl, h₁, now⟩
  simp only
  cases byPrecedence : q.byPrecedence with
  | true =>
      simp only [byPrecedence, if_true] at listed ⊢
      cases known : t.precedenceStart? q.situation.precedence with
      | some d =>
          obtain ⟨held, shown⟩ := charted.precedenceStart? listed known
          exact ⟨h₁, ⟨t, now, held⟩, shown⟩
      | none =>
          obtain ⟨s₂, run, grows⟩ := (chart.opens listed).run rfl le h₁.sound
          simp only [opening, byPrecedence, if_true] at run
          suffices Step.Ensures (operatorStart q.situation.precedence q >>= fun configs => do
              let d ← addState q { configs }
              onTable q fun table => ((), table.setPrecedenceStart q.situation.precedence d)
              return d) s₁ (fun d s' => s'.Charted q c s₀ ∧ s'.Has q d ∧
                d.unplaced = { configs := threads }) fun _ _ => False by
            rwa [operatorStart, bind_assoc] at this
          refine .bind (.of_ok run (enter (h₁.grows grows) fun t d charted held shown => ?_))
          exact ⟨charted.setPrecedenceStart held listed shown, (t.setPrecedenceStart_states _ d).1⟩
  | false =>
      simp only [byPrecedence, Bool.false_eq_true, if_false] at listed ⊢
      cases known : t.start? with
      | some d =>
          obtain ⟨held, shown⟩ := charted.start? listed known
          exact ⟨h₁, ⟨t, now, held⟩, shown⟩
      | none =>
          obtain ⟨s₂, run, grows⟩ := (chart.opens listed).run rfl le h₁.sound
          simp only [opening, byPrecedence, Bool.false_eq_true, if_false] at run
          refine .bind (.of_ok run (enter (h₁.grows grows) fun t d charted held shown => ?_))
          exact ⟨charted.setStart held listed shown, (t.setStart_states d).1⟩

/-- A symbol leads where the chart says. -/
theorem target_charted {limit : Nat} (h : s.Charted q c s₀) (chart : c.Holds q.subject limit)
    (le : limit ≤ q.fuel) (has : s.Has q d) (listed : c.edges.lookup (d.configs, x) = some e) :
    (target q d x).Ensures s (fun t s' => s'.Charted q c s₀ ∧ ∃ d', t = .state d' ∧ d'.unplaced = e)
      fun _ _ => False := by
  obtain ⟨t, here, charted⟩ := h.own
  obtain ⟨t', here', held⟩ := has
  obtain rfl := Option.some.inj (here'.symm.trans here)
  refine .bind ((onTable_charted h here charted).imp ?_ fun _ _ => id)
  rintro _ s₁ ⟨rfl, h₁, now⟩
  simp only
  cases known : t'.edge? d x with
  | some target =>
      obtain ⟨d', rfl, -, shown⟩ := charted.edge? held listed known
      exact ⟨h₁, d', rfl, shown⟩
  | none =>
      obtain ⟨reached, reaches, derives⟩ := chart.leads listed
      obtain ⟨s₂, run, grows⟩ := reaches.run rfl le h₁.sound
      obtain ⟨s₃, run', grows'⟩ := derives.run rfl le grows.sound
      have has₃ : s₃.Has q d := Simulation.Has.grows ⟨t', now, held⟩ (grows.trans grows')
      have mem : e ∈ c.states :=
        List.mem_append_right _ (List.mem_map.2 ⟨_, mem_of_lookup listed, rfl⟩)
      have settled : (derive q reached).Ensures s₂ (fun a s' => a = e ∧ s' = s₃) fun _ _ => False :=
        .of_ok run' ⟨rfl, rfl⟩
      refine .bind (.of_ok run (.bind (settled.of_map.imp ?_ fun _ _ => id)))
      rintro judged _ ⟨rfl, rfl⟩
      refine .bind ((addState_charted ((h₁.grows grows).grows grows') chart.distinct mem).imp ?_
        fun _ _ => id)
      rintro d' s₄ ⟨h₄, ⟨t₄, here₄, held'⟩, shown, kept⟩
      obtain ⟨t₅, here₅, held⟩ := kept d has₃
      obtain rfl := Option.some.inj (here₅.symm.trans here₄)
      obtain ⟨t₆, here₆, charted₄⟩ := h₄.own
      obtain rfl := Option.some.inj (here₆.symm.trans here₄)
      have linked := charted₄.addEdge held held' listed shown
      refine .bind ((onTable_charted h₄ here₄ linked).imp ?_ fun _ _ => id)
      rintro _ s₅ ⟨-, h₅, -⟩
      exact ⟨h₅, d', rfl, shown⟩

/-- A state that has chosen an alternative answers it. -/
theorem accept_chosen (chosen : d.chosen? q.situation.precedence = some alt) :
    (accept q d).Ensures s (fun a s' => a = alt ∧ s'.tables = s.tables) fun _ _ => False := by
  unfold TableState.chosen? at chosen
  split at chosen
  case isFalse => cases chosen
  case isTrue =>
    unfold accept
    split at chosen
    case h_1 none =>
        rw [none]
        exact ⟨Option.some.inj chosen, rfl⟩
    case h_2 l a guards =>
        rw [guards]
        split at chosen
        case isFalse => cases chosen
        case isTrue allowed =>
            obtain rfl := Option.some.inj chosen
            have run (s : Simulation σ τ) :
                (viable q [(.precedence l, a)]).run s = (.ok [a], s) := by
              have holds : (admits q (.precedence l)).run s = (.ok true, s) := by
                rw [← decide_eq_true allowed]
                rfl
              rw [viable, List.foldlM_cons, bind_assoc, Step.run_bind_ok holds]
              rfl
            refine .bind (.of_ok rfl (.bind (.of_ok rfl (.bind (.of_ok (run _) ?_)))))
            exact ⟨rfl, rfl⟩
    case h_3 => cases chosen

/-- The start of a prediction in the chart. -/
def Problem.key (q : Problem τ) : Int :=
  if q.byPrecedence then q.situation.precedence else 0

theorem predict_charted {limit : Nat} {ts : List Token} (h : s.Charted q c s₀)
    (chart : c.Holds q.subject limit) (le : limit ≤ q.fuel) (pos : 0 < q.fuel)
    (sound : s.input.Sound) (upcoming : s.input.Upcoming ts)
    (settled : c.alt? (Problem.key q) q.situation.precedence (Token.nextType ts) = some alt) :
    (predict q).Ensures s
      (fun a s' => a = alt ∧ s'.tables.Charted q.decision q.subject c s₀.tables)
      fun _ _ => False := by
  obtain ⟨threads, listed, settled⟩ := Option.bind_eq_some_iff.1 settled
  obtain ⟨e, listed', chosen⟩ := Option.bind_eq_some_iff.1 settled
  refine .bind ((startState_charted h chart le listed).imp ?_ fun _ _ => id)
  rintro d s₁ ⟨h₁, has, shown⟩
  have look : s₁.input.lookahead 1 = (Token.nextType ts, s.input.start) := by
    rw [h₁.input, ← h.input]
    exact upcoming.lookahead_one sound
  have current : (current : Prediction σ τ Symbol).run s₁
      = (.ok (Token.nextType ts), { s₁ with input := s.input.start }) := by
    change (Except.ok (s₁.input.lookahead 1).1, { s₁ with input := (s₁.input.lookahead 1).2 }) = _
    rw [look]
  refine .bind (.of_ok current ?_)
  obtain ⟨fuel, eq⟩ := Nat.exists_eq_succ_of_ne_zero (Nat.ne_of_gt pos)
  rw [eq, predictLocally]
  have configs : d.configs = threads := congrArg TableState.configs shown
  have h₂ : Simulation.Charted q c
      ({ s₁ with input := s.input.start }.modifyStats q.decision fun i =>
        { i with localLookahead := i.localLookahead + 1 })
      { s₀ with input := s.input.start } := ⟨⟨h₁.sound, h₁.own, h₁.others⟩, rfl⟩
  have has₂ : Simulation.Has q
      ({ s₁ with input := s.input.start }.modifyStats q.decision fun i =>
        { i with localLookahead := i.localLookahead + 1 }) d := has
  refine .bind (.of_ok rfl (.bind ((target_charted h₂ chart le has₂ (configs ▸ listed')).imp ?_
    fun _ _ => id)))
  rintro _ s₃ ⟨h₃, d', rfl, rfl⟩
  have chosen : d'.chosen? q.situation.precedence = some alt := chosen
  have accepts : d'.isAccept = true ∧ d'.needsFullContext = false := by
    unfold TableState.chosen? at chosen
    split at chosen
    case isTrue accepts => simpa using accepts
    case isFalse => cases chosen
  simp only [accepts, Bool.false_and, Bool.false_eq_true, if_false, if_true]
  refine (accept_chosen chosen).imp ?_ fun _ _ => id
  rintro a s₄ ⟨rfl, tables⟩
  rw [tables]
  exact ⟨rfl, h₃.toCharted⟩

/-- The answer to a decision that one token settles. -/
theorem adaptivePredict_charted {grammar : Grammar} {mode : PredictionMode} {decision limit : Nat}
    {situation : Situation τ} {u : Subject} {ts : List Token} {t : PredictionTable}
    (here : s.tables.tables[decision]? = some t) (charted : t.Charted u c)
    (about : u.grammar = grammar ∧ u.mode = mode) (arena : s.tables.arena.Sound true)
    (chart : c.Holds u limit) (le : limit ≤ fuel) (pos : 0 < fuel) (sound : s.input.Sound)
    (upcoming : s.input.Upcoming ts)
    (settled : c.alt? (if u.byPrecedence then situation.precedence else 0) situation.precedence
      (Token.nextType ts) = some alt) :
    (adaptivePredict grammar mode fuel decision situation).Ensures s
      (fun a s' => a = alt ∧ s'.tables.Charted decision u c s.tables) fun _ _ => False := by
  obtain ⟨rfl, rfl⟩ := about
  unfold adaptivePredict
  refine .bind (.of_ok rfl ?_)
  rw [here]
  simp only
  let q : Problem τ := {
    grammar := u.grammar, mode := u.mode, fuel, decision, start := s.input.index, situation
    decisionState := t.startState, byPrecedence := t.byPrecedence }
  have subject : q.subject = u := by
    simp [q, Problem.subject, charted.startState, charted.byPrecedence]
  let begun : Simulation σ τ :=
    ({ s with input := s.input.mark, tables := s.tables.forgetMerges } : Simulation σ τ).modifyStats
      decision fun i => { i with invocations := i.invocations + 1 }
  have marks : s.input.Passes begun.input [] := s.input.passes_of_marks _
  obtain ⟨_, rfl, upcoming⟩ := upcoming.passes sound marks
  have begins : begun.Charted q c begun :=
    ⟨⟨arena.forgets true, ⟨t, here, subject ▸ charted⟩, fun _ _ => rfl⟩, rfl⟩
  have predicts : (predict q).Ensures begun
      (fun a s' => a = alt ∧ s'.tables.Charted decision u c s.tables) fun _ _ => False := by
    have settled : c.alt? (Problem.key q) q.situation.precedence (Token.nextType ts)
        = some alt := by
      rw [← settled, Problem.key, ← charted.byPrecedence]
    refine (predict_charted begins (subject ▸ chart) le pos (marks.sound sound) upcoming
      settled).imp ?_ fun _ _ => id
    rintro a s' ⟨rfl, charted⟩
    exact ⟨rfl, charted.sound, subject ▸ charted.own, charted.others⟩
  refine .bind (.of_ok rfl (.bind (.of_ok rfl (.bind (.of_ok (Step.run_attempt _ _) ?_)))))
  unfold Step.Ensures at predicts
  change Step.Ensures _ ((predict q).run begun).2 _ _
  split at predicts
  case h_1 a s' run =>
      obtain ⟨rfl, charted⟩ := predicts
      rw [show (predict q).run _ = (.ok a, s') from run]
      exact .bind (.of_ok rfl (.bind (.of_ok rfl (.of_ok rfl ⟨rfl, charted⟩))))
  case h_2 => exact predicts.elim

end Prediction

end AdaptiveLL
