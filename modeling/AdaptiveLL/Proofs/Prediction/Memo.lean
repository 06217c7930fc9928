import AdaptiveLL.Proofs.Prediction.Replay
/-!
Prediction tables are memos. A session leaves in the tables what prediction without context
would compute again: the threads with which it starts, where a symbol leads from a state, and
what a state answers. States are shared by all predictions that reach equal sets of threads,
so that what is kept on a state has to be a function of what this equality compares.
-/
namespace AdaptiveLL

open StackGraph

variable {σ τ : Type}

/-- Nothing has been entered into the state but its threads. -/
def TableState.Bare (d : TableState) : Prop :=
  d = { configs := d.configs, number := d.number, generation := d.generation }

/-- The states answer alike, whatever their threads are. -/
structure TableState.AnswersAs (d e : TableState) : Prop where
  isAccept : d.isAccept = e.isAccept
  needsFullContext : d.needsFullContext = e.needsFullContext
  prediction : d.prediction = e.prediction
  guards : d.guards = e.guards

namespace TableState.AnswersAs

variable {d e f : TableState}

theorem refl (d : TableState) : d.AnswersAs d :=
  ⟨rfl, rfl, rfl, rfl⟩

theorem symm (h : d.AnswersAs e) : e.AnswersAs d :=
  ⟨h.isAccept.symm, h.needsFullContext.symm, h.prediction.symm, h.guards.symm⟩

theorem trans (h : d.AnswersAs e) (h' : e.AnswersAs f) : d.AnswersAs f :=
  ⟨h.isAccept.trans h'.isAccept, h.needsFullContext.trans h'.needsFullContext,
    h.prediction.trans h'.prediction, h.guards.trans h'.guards⟩

end TableState.AnswersAs

namespace Prediction

/-- The state that a prediction makes of the threads that it has reached. -/
def derive (q : Problem τ) (configs : ConfigurationSet) : Prediction σ τ TableState := do
  return concluded q (← settle q configs)

/-- The threads with which an operator loop starts under a precedence. -/
def operatorStart [TokenSource σ] (level : Int) (q : Problem τ) :
    Prediction σ τ ConfigurationSet := do
  let configs ← startConfigs q false 0
  filterByPrecedence { q with situation.precedence := level } configs

/-- What a state answers, by the marks on its threads and the number of alternatives. -/
def verdict (count : Nat) (configs : ConfigurationSet) : TableState :=
  let d := TableState.judged configs
  if d.isAccept && d.configs.hasGuards then withGuards count d else d

end Prediction

open Prediction

/-- What prediction without context depends on besides the stacks that are there. -/
structure Subject where
  grammar : Grammar
  mode : PredictionMode
  decisionState : Nat
  byPrecedence : Bool

/-- What a problem is about, whatever input, host and situation there is. -/
def Problem.subject (q : Problem τ) : Subject :=
  ⟨q.grammar, q.mode, q.decisionState, q.byPrecedence⟩

/-- The number of alternatives of the decision. -/
def Subject.alternatives (u : Subject) : Nat :=
  ((u.grammar.network.states[u.decisionState]?.map State.transitions).getD []).length

namespace Prediction

variable {a b : ConfigurationSet} {count : Nat}

theorem guardOf_same (h : a.same b = true) (alt : Nat) : guardOf a alt = guardOf b alt := by
  have guards (set : ConfigurationSet) :
      (set.toList.filter (·.alt == alt)).map Configuration.guard =
        ((set.toList.map fun c => (c.alt, c.guard)).filter (·.1 == alt)).map Prod.snd := by
    rw [List.filter_map, List.map_map]
    rfl
  rw [guardOf, guardOf, guards, guards, ConfigurationSet.same_guards h]

theorem guardsOf_same (h : a.same b = true) (alts : AltSet) :
    guardsOf alts a count = guardsOf alts b count := by
  unfold guardsOf
  simp only [guardOf_same h]

/-- What a state answers is a function of what the equality of sets compares. -/
theorem verdict_same (h : a.same b = true) : (verdict count a).AnswersAs (verdict count b) := by
  obtain ⟨unique, conflicting, guards⟩ := ConfigurationSet.same_marks h
  have answers : (TableState.judged a).AnswersAs (TableState.judged b) := by
    unfold TableState.judged
    rw [unique, conflicting]
    split
    · exact ⟨rfl, rfl, rfl, rfl⟩
    · split <;> exact ⟨rfl, rfl, rfl, rfl⟩
  have kept (set : ConfigurationSet) : (TableState.judged set).configs = set := by
    unfold TableState.judged
    split
    · rfl
    · split <;> rfl
  unfold verdict
  simp only [kept, answers.isAccept, guards]
  split
  case isTrue =>
      unfold withGuards
      simp only [kept, unique, conflicting, guardsOf_same h]
      split
      · exact ⟨answers.isAccept, answers.needsFullContext, rfl, rfl⟩
      · exact ⟨answers.isAccept, answers.needsFullContext, rfl, answers.guards⟩
  case isFalse => exact answers

theorem concluded_judged (q : Problem τ) (configs : ConfigurationSet) :
    concluded q (TableState.judged configs) = verdict q.subject.alternatives configs :=
  rfl

/-- A set about which nothing has been settled answers nothing. -/
theorem verdict_open {full : Bool} {graph : StackGraph} {set : ConfigurationSet}
    (h : set.Open full graph) : verdict count set = { configs := set } := by
  simp [verdict, TableState.judged, h.uniqueAlt, h.conflicting]

theorem answers_open {graph : StackGraph} {configs : ConfigurationSet} (count : Nat)
    (opened : configs.Open false graph) :
    TableState.AnswersAs { configs } (verdict count configs) := by
  rw [verdict_open opened]
  exact .refl _

/-- The threads with which an operator loop starts can be computed again. -/
theorem operatorStart_runs {σ τ σ' τ' : Type} [TokenSource σ] [TokenSource σ'] {q : Problem τ}
    {q' : Problem τ'} {s : Simulation σ τ} (akin : Akin q q') (level : Int)
    (sound : s.tables.arena.Sound true) :
    Runs false s (operatorStart level q) (operatorStart level q' : Prediction σ' τ' _)
      (ConfigurationSet.Open false) := by
  refine .bind (startConfigs_runs akin false sound present_zero) fun configs s' grows opened => ?_
  exact filterByPrecedence_runs rfl grows.sound opened

/-- What becomes of a set where prediction may stop can be found out again. -/
theorem derive_runs {σ τ σ' τ' : Type} {q : Problem τ} {q' : Problem τ'} {s : Simulation σ τ}
    {set : ConfigurationSet} (akin : Akin q q') (sound : s.tables.arena.Sound true)
    (h : set.Open false s.tables.graph) :
    Runs false s (derive q set) (derive q' set : Prediction σ' τ' TableState) fun _ d =>
      d.configs.unsettled = set ∧ d = verdict q.subject.alternatives d.configs := by
  have same : (concluded q' : TableState → TableState) = concluded q := by
    funext d
    rw [concluded, concluded, akin.grammar, akin.decisionState]
  unfold derive
  rw [same]
  refine .bind (settle_runs akin sound h) ?_
  rintro d s' grows ⟨marked, judged⟩
  refine .pure grows.sound ⟨(configs_concluded q d).symm ▸ marked, ?_⟩
  rw [configs_concluded, ← concluded_judged, ← judged]

end Prediction

namespace Subject

variable {u : Subject} {graph graph' : StackGraph} {α : Type}
  {step : ∀ {σ τ : Type} [TokenSource σ], Problem τ → Prediction σ τ α} {a : α}

/-- Whoever takes the step for a problem about the subject gets this answer, if there are the
stacks of the graph and there is enough fuel. -/
def Recomputes (u : Subject) (graph : StackGraph)
    (step : ∀ {σ τ : Type} [TokenSource σ], Problem τ → Prediction σ τ α) (a : α) : Prop :=
  ∃ fuel, ∀ {σ τ : Type} [TokenSource σ] (q : Problem τ), q.subject = u → fuel ≤ q.fuel →
    Repeats (step q : Prediction σ τ α) graph a

theorem Recomputes.mono (h : u.Recomputes graph step a) (grown : graph.Extends graph') :
    u.Recomputes graph' step a := by
  obtain ⟨fuel, repeats⟩ := h
  exact ⟨fuel, fun q about le => (repeats q about le).mono grown⟩

variable (step) in
/-- What has been computed once can be computed again. -/
theorem Recomputes.of_runs [TokenSource σ] {q : Problem τ} {s : Simulation σ τ}
    {P : StackGraph → α → Prop}
    (runs : ∀ {σ' τ' : Type} [TokenSource σ'] (q' : Problem τ'), Akin q q' →
      Runs false s (step q) (step q' : Prediction σ' τ' α) P) :
    Step.Ensures (step q) s
      (fun a s' => s.Grows false s' ∧ P s'.tables.graph a ∧
        q.subject.Recomputes s'.tables.graph step a)
      fun _ s' => s.Grows false s' := by
  have once : Runs false s (step q) (step q : Prediction σ τ α) P := runs q (.refl q)
  unfold Step.Ensures
  split
  case h_1 a s' run =>
      obtain ⟨grows, holds, -⟩ := Step.Ensures.ok once run
      refine ⟨grows, holds, q.fuel, fun {σ' τ'} _ q' about le => ?_⟩
      have akin : Akin q q' := {
        grammar := congrArg Subject.grammar about
        mode := congrArg Subject.mode about
        decisionState := congrArg Subject.decisionState about
        byPrecedence := congrArg Subject.byPrecedence about
        fuel := le }
      exact (Step.Ensures.ok (runs q' akin) run).2.2 rfl
  case h_2 e s' run => exact Step.Ensures.error once run

/-- The state is what prediction makes of its threads. -/
def Derives (u : Subject) (graph : StackGraph) (d : TableState) : Prop :=
  ∃ e, u.Recomputes graph (fun q => derive q d.configs.unsettled) e ∧
    d = { e with number := d.number, generation := d.generation }

/-- The symbol carries the threads of `s` to those of `d`, and `d` answers what prediction makes
of them. -/
def Carries (u : Subject) (graph : StackGraph) (s : TableState) (x : Symbol)
    (d : TableState) : Prop :=
  ∃ configs e, u.Recomputes graph (fun q => reach q s.configs x false) (some configs) ∧
    u.Recomputes graph (fun q => derive q configs) e ∧ d.configs.same e.configs = true ∧
    d.AnswersAs e

/-- The symbol ends all threads of the state. -/
def Ends (u : Subject) (graph : StackGraph) (s : TableState) (x : Symbol) : Prop :=
  u.Recomputes graph (fun q => reach q s.configs x false) none

/-- The state has the threads with which the operator loop starts under the precedence. -/
def Opens (u : Subject) (graph : StackGraph) (level : Int) (d : TableState) : Prop :=
  ∃ configs, u.Recomputes graph (fun q => operatorStart level q) configs ∧
    d.configs.same configs = true

/-- What is kept of a state of a table. -/
structure Entry (u : Subject) (graph : StackGraph) (generation number : Nat)
    (d : TableState) : Prop where
  number : d.number = number
  generation : d.generation = generation
  stored : ∀ c ∈ d.configs.toList, graph.Present c.stack
  answers : d.AnswersAs (verdict u.alternatives d.configs)

variable {s d : TableState} {x : Symbol} {level : Int}

theorem Derives.mono (h : u.Derives graph d) (grown : graph.Extends graph') :
    u.Derives graph' d := by
  obtain ⟨e, again, eq⟩ := h
  exact ⟨e, again.mono grown, eq⟩

/-- Prediction accepts where all threads agree. -/
theorem Derives.isAccept (h : u.Derives graph d) {s : Simulation σ Unit}
    (later : graph.Extends s.tables.graph) (sound : s.tables.arena.Sound true) [TokenSource σ]
    (agreed : d.configs.unsettled.agreedAlt ≠ noAlt) : d.isAccept = true := by
  obtain ⟨e, ⟨fuel, again⟩, eq⟩ := h
  let q : Problem Unit := {
    grammar := u.grammar, mode := u.mode, fuel, decision := 0, start := 0
    decisionState := u.decisionState, byPrecedence := u.byPrecedence
    situation := {
      node := none, invoking := [], precedence := 0, state := 0, ask := fun _ host => (true, host) } }
  have repeats : Repeats (derive q d.configs.unsettled : Prediction σ Unit _) graph e :=
    again q rfl (Nat.le_refl _)
  obtain ⟨s', run, -⟩ := repeats s later sound
  simp only [derive, settle, if_pos agreed] at run
  obtain rfl : concluded q _ = e := Except.ok.inj (congrArg Prod.fst run)
  rw [eq]
  exact isAccept_concluded _ _

theorem Carries.mono (h : u.Carries graph s x d) (grown : graph.Extends graph') :
    u.Carries graph' s x d := by
  obtain ⟨configs, e, reached, derived, same, answers⟩ := h
  exact ⟨configs, e, reached.mono grown, derived.mono grown, same, answers⟩

theorem Opens.mono (h : u.Opens graph level d) (grown : graph.Extends graph') :
    u.Opens graph' level d := by
  obtain ⟨configs, again, same⟩ := h
  exact ⟨configs, again.mono grown, same⟩

end Subject

namespace PredictionTable

variable {t : PredictionTable} {u : Subject} {graph graph' : StackGraph} {s d : TableState}
  {x : Symbol} {pending : Option Nat} {level : Int}

/-- Predictions start in the state. -/
def Begins (t : PredictionTable) (d : TableState) : Prop :=
  t.start? = some d ∨ ∃ level, t.precedenceStart? level = some d

/-- The table is a memo of prediction without context. A state in which predictions start is
entered as it is; every other state is what prediction makes of its threads. -/
structure Faithful (u : Subject) (graph : StackGraph) (t : PredictionTable) : Prop where
  start : ∀ d, t.start? = some d →
    u.Recomputes graph (fun q => startConfigs q false 0) d.configs
  opens : ∀ level d, t.precedenceStart? level = some d → u.Opens graph level d
  carries : ∀ s ∈ t.states, ∀ x d, t.edge? s x = some (.state d) → u.Carries graph s x d
  ends : ∀ s ∈ t.states, ∀ x, t.edge? s x = some .dead → u.Ends graph s x
  states : ∀ d ∈ t.states, t.Begins d ∧ d.Bare ∨ u.Derives graph d

/-- How a table is kept; `pending` is the number of a state that is about to become one in which
predictions start. -/
structure Memo (u : Subject) (graph : StackGraph) (pending : Option Nat)
    (t : PredictionTable) : Prop where
  startState : t.startState = u.decisionState
  byPrecedence : t.byPrecedence = u.byPrecedence
  entry : ∀ {k : Nat} {d : TableState}, t.states[k]? = some d → u.Entry graph t.generation k d
  origin : ∀ {k : Nat} {d : TableState}, t.states[k]? = some d →
    (t.start = some k ∨ (∃ level, t.precedenceStarts.lookup level = some k) ∨
      pending = some k) ∧ d.Bare ∨ u.Derives graph d
  started : u.byPrecedence = false → t.start = none → ∀ k < t.states.size, pending = some k
  start : ∀ {k : Nat}, t.start = some k → ∃ d, t.states[k]? = some d ∧
    u.Recomputes graph (fun q => startConfigs q false 0) d.configs
  opens : ∀ {level : Int} {k : Nat}, (level, k) ∈ t.precedenceStarts →
    ∃ d, t.states[k]? = some d ∧ u.Opens graph level d
  carries : ∀ {k j : Nat} {x : Symbol}, ((k, x), some j) ∈ t.edges →
    ∃ s d, t.states[k]? = some s ∧ t.states[j]? = some d ∧ u.Carries graph s x d
  ends : ∀ {k : Nat} {x : Symbol}, ((k, x), none) ∈ t.edges →
    ∃ s, t.states[k]? = some s ∧ u.Ends graph s x

/-- What comes of adding a state: one with equal threads that answers alike. -/
structure Adds (t : PredictionTable) (d : TableState) (added : TableState × PredictionTable) :
    Prop where
  has : added.2.states[added.1.number]? = some added.1
  same : added.1.configs.same d.configs = true
  answers : added.1.AnswersAs d
  keeps : ∀ {k : Nat} {s : TableState}, t.states[k]? = some s → added.2.states[k]? = some s
  start : added.2.start = t.start
  precedenceStarts : added.2.precedenceStarts = t.precedenceStarts

namespace Memo

/-- New stacks do not matter. -/
theorem mono (h : t.Memo u graph pending) (grown : graph.Extends graph') :
    t.Memo u graph' pending where
  startState := h.startState
  byPrecedence := h.byPrecedence
  entry here :=
    { h.entry here with stored := fun c mem => ((h.entry here).stored c mem).mono grown }
  origin here := (h.origin here).imp_right fun derived => derived.mono grown
  started := h.started
  start here := by
    obtain ⟨d, held, again⟩ := h.start here
    exact ⟨d, held, again.mono grown⟩
  opens mem := by
    obtain ⟨d, held, opens⟩ := h.opens mem
    exact ⟨d, held, opens.mono grown⟩
  carries mem := by
    obtain ⟨s, d, hs, hd, carries⟩ := h.carries mem
    exact ⟨s, d, hs, hd, carries.mono grown⟩
  ends mem := by
    obtain ⟨s, hs, ends⟩ := h.ends mem
    exact ⟨s, hs, ends.mono grown⟩

/-- A table that knows nothing. -/
theorem of_empty (startState : t.startState = u.decisionState)
    (byPrecedence : t.byPrecedence = u.byPrecedence) (states : t.states = #[])
    (start : t.start = none) (starts : t.precedenceStarts = []) (edges : t.edges = []) :
    t.Memo u graph pending where
  startState := startState
  byPrecedence := byPrecedence
  entry here := by simp [states] at here
  origin here := by simp [states] at here
  started _ _ k lt := by simp [states] at lt
  start here := by cases start.symm.trans here
  opens mem := by simp [starts] at mem
  carries mem := by simp [edges] at mem
  ends mem := by simp [edges] at mem

/-- An edge to a state, as it is written down. -/
theorem edge?_eq_state (here : t.states[s.number]? = some s) :
    t.edge? s x = some (.state d) ↔
      ∃ j, t.edges.lookup (s.number, x) = some (some j) ∧ t.states[j]? = some d := by
  rw [PredictionTable.edge?, if_pos (holds_of_stored here)]
  cases t.edges.lookup (s.number, x) with
  | none => simp
  | some j => cases j <;> simp

theorem edge?_eq_dead (here : t.states[s.number]? = some s) :
    t.edge? s x = some .dead ↔ t.edges.lookup (s.number, x) = some none := by
  rw [PredictionTable.edge?, if_pos (holds_of_stored here)]
  cases t.edges.lookup (s.number, x) with
  | none => simp
  | some j => cases j <;> simp

/-- What is kept makes the table a memo. -/
theorem toFaithful (h : t.Memo u graph none) : t.Faithful u graph where
  start d here := by
    obtain ⟨k, hk, hd⟩ := Option.bind_eq_some_iff.1 here
    obtain ⟨d', hd', again⟩ := h.start hk
    obtain rfl := Option.some.inj (hd'.symm.trans hd)
    exact again
  opens level d here := by
    obtain ⟨k, hk, hd⟩ := Option.bind_eq_some_iff.1 here
    obtain ⟨d', hd', opens⟩ := h.opens (mem_of_lookup hk)
    obtain rfl := Option.some.inj (hd'.symm.trans hd)
    exact opens
  carries s mem x d known := by
    obtain ⟨k, hk⟩ := Array.mem_iff_getElem?.1 mem
    obtain rfl := (h.entry hk).number
    obtain ⟨j, found, hd⟩ := (edge?_eq_state hk).1 known
    obtain ⟨s', d', hs', hd', carries⟩ := h.carries (mem_of_lookup found)
    obtain rfl := Option.some.inj (hs'.symm.trans hk)
    obtain rfl := Option.some.inj (hd'.symm.trans hd)
    exact carries
  ends s mem x known := by
    obtain ⟨k, hk⟩ := Array.mem_iff_getElem?.1 mem
    obtain rfl := (h.entry hk).number
    obtain ⟨s', hs', ends⟩ := h.ends (mem_of_lookup ((edge?_eq_dead hk).1 known))
    obtain rfl := Option.some.inj (hs'.symm.trans hk)
    exact ends
  states d mem := by
    obtain ⟨k, hk⟩ := Array.mem_iff_getElem?.1 mem
    refine (h.origin hk).imp_left ?_
    rintro ⟨start | ⟨level, listed⟩ | ⟨⟨⟩⟩, bare⟩
    · exact ⟨.inl (Option.bind_eq_some_iff.2 ⟨k, start, hk⟩), bare⟩
    · exact ⟨.inr ⟨level, Option.bind_eq_some_iff.2 ⟨k, listed, hk⟩⟩, bare⟩

/-- An equal state answers alike. -/
theorem answers_same (h : t.Memo u graph pending) {k : Nat} (here : t.states[k]? = some s)
    (same : s.configs.same d.configs = true)
    (answers : d.AnswersAs (verdict u.alternatives d.configs)) : s.AnswersAs d :=
  ((h.entry here).answers.trans (verdict_same same)).trans answers.symm

theorem start_none (h : t.Memo u graph pending) (unknown : t.start? = none) : t.start = none := by
  cases here : t.start with
  | none => rfl
  | some k =>
      obtain ⟨d, hd, -⟩ := h.start here
      simp [PredictionTable.start?, here, hd] at unknown

theorem lookup_none (h : t.Memo u graph pending) (unknown : t.precedenceStart? level = none) :
    t.precedenceStarts.lookup level = none := by
  cases here : t.precedenceStarts.lookup level with
  | none => rfl
  | some k =>
      obtain ⟨d, hd, -⟩ := h.opens (mem_of_lookup here)
      simp [PredictionTable.precedenceStart?, here, hd] at unknown

/-- A new state, which is made of its threads or about to become one where predictions start. -/
theorem push (h : t.Memo u graph none)
    (stored : ∀ c ∈ d.configs.toList, graph.Present c.stack)
    (answers : d.AnswersAs (verdict u.alternatives d.configs))
    (origin : pending = some t.states.size ∧ d.Bare ∨ u.Derives graph d)
    (started : u.byPrecedence = false → t.start = none → pending = some t.states.size) :
    Memo u graph pending { t with states := (t.states.push
      { d with number := t.states.size, generation := t.generation }) } := by
  have kept {k : Nat} {s : TableState} (here : t.states[k]? = some s) :
      (t.states.push { d with number := t.states.size, generation := t.generation })[k]? =
        some s := by
    obtain ⟨lt, -⟩ := Array.getElem?_eq_some_iff.1 here
    rw [Array.getElem?_push, if_neg (Nat.ne_of_lt lt), here]
  have each {k : Nat} {s : TableState} (here : (t.states.push
      { d with number := t.states.size, generation := t.generation })[k]? = some s) :
      t.states[k]? = some s ∨ k = t.states.size ∧
        s = { d with number := t.states.size, generation := t.generation } := by
    rw [Array.getElem?_push] at here
    split at here
    case isTrue last => exact .inr ⟨last, (Option.some.inj here).symm⟩
    case isFalse => exact .inl here
  exact {
    startState := h.startState
    byPrecedence := h.byPrecedence
    entry := fun here => by
      rcases each here with old | ⟨rfl, rfl⟩
      · exact h.entry old
      · exact ⟨rfl, rfl, stored, answers.1, answers.2, answers.3, answers.4⟩
    origin := fun {k s} here => by
      rcases each here with old | ⟨rfl, rfl⟩
      · refine (h.origin old).imp_left ?_
        rintro ⟨start | level | ⟨⟨⟩⟩, bare⟩
        · exact ⟨.inl start, bare⟩
        · exact ⟨.inr (.inl level), bare⟩
      · refine origin.imp ?_ ?_
        · rintro ⟨pending, bare⟩
          exact ⟨.inr (.inr pending), by rw [TableState.Bare, bare]⟩
        · rintro ⟨e, derived, eq⟩
          exact ⟨e, derived, by rw [eq]⟩
    started := fun loop none k lt => by
      rw [Array.size_push] at lt
      rcases Nat.lt_succ_iff_lt_or_eq.1 lt with old | rfl
      · exact absurd (h.started loop none k old) (by simp)
      · exact started loop none
    start := fun here => by
      obtain ⟨s, hs, again⟩ := h.start here
      exact ⟨s, kept hs, again⟩
    opens := fun mem => by
      obtain ⟨s, hs, opens⟩ := h.opens mem
      exact ⟨s, kept hs, opens⟩
    carries := fun mem => by
      obtain ⟨s, s', hs, hs', carries⟩ := h.carries mem
      exact ⟨s, s', kept hs, kept hs', carries⟩
    ends := fun mem => by
      obtain ⟨s, hs, ends⟩ := h.ends mem
      exact ⟨s, kept hs, ends⟩ }

theorem weaken (h : t.Memo u graph none) : t.Memo u graph pending :=
  { h with
    origin := fun here => by
      refine (h.origin here).imp_left ?_
      rintro ⟨start | level | ⟨⟨⟩⟩, bare⟩
      · exact ⟨.inl start, bare⟩
      · exact ⟨.inr (.inl level), bare⟩
    started := fun loop none k lt => absurd (h.started loop none k lt) nofun }

theorem addState_cases (h : t.Memo u graph none)
    (answers : d.AnswersAs (verdict u.alternatives d.configs)) :
    let added := t.addState d
    (added.2 = t ∧ t.Adds d added) ∨
      added = ({ d with number := t.states.size, generation := t.generation }, { t with
        states := (t.states.push { d with number := t.states.size, generation := t.generation }) }) := by
  unfold PredictionTable.addState
  split
  case h_1 s found =>
      obtain ⟨k, hk⟩ := Array.mem_iff_getElem?.1 (Array.mem_of_find?_eq_some found)
      obtain rfl := (h.entry hk).number
      have same := Array.find?_some found
      exact .inl ⟨rfl, hk, same, h.answers_same hk same answers, fun here => here, rfl, rfl⟩
  case h_2 => exact .inr rfl

theorem addState_adds (h : t.Memo u graph none)
    (answers : d.AnswersAs (verdict u.alternatives d.configs)) : t.Adds d (t.addState d) := by
  rcases h.addState_cases answers with ⟨-, adds⟩ | new
  · exact adds
  · rw [new]
    refine ⟨Array.getElem?_push_size, ConfigurationSet.same_self _, ⟨rfl, rfl, rfl, rfl⟩, ?_, rfl, rfl⟩
    intro k s here
    obtain ⟨lt, -⟩ := Array.getElem?_eq_some_iff.1 here
    rw [Array.getElem?_push, if_neg (Nat.ne_of_lt lt), here]

/-- A table without a start is empty, so that a state is new. -/
theorem addState_fresh (h : t.Memo u graph none)
    (answers : d.AnswersAs (verdict u.alternatives d.configs)) (alone : u.byPrecedence = false)
    (unknown : t.start = none) : (t.addState d).1.configs = d.configs := by
  rcases h.addState_cases answers with ⟨same, adds⟩ | new
  · have held := adds.has
    rw [same] at held
    obtain ⟨lt, -⟩ := Array.getElem?_eq_some_iff.1 held
    cases h.started alone unknown _ lt
  · rw [new]

/-- Adding a state that is made of its threads. -/
theorem addState_derived (h : t.Memo u graph none)
    (stored : ∀ c ∈ d.configs.toList, graph.Present c.stack)
    (answers : d.AnswersAs (verdict u.alternatives d.configs)) (derives : u.Derives graph d)
    (started : u.byPrecedence = false → t.start ≠ none) : (t.addState d).2.Memo u graph none := by
  rcases h.addState_cases answers with ⟨same, -⟩ | new
  · rwa [same]
  · rw [new]
    exact h.push stored answers (.inr derives) fun loop none => absurd none (started loop)

/-- Adding a state that is about to become one where predictions start. -/
theorem addState_bare (h : t.Memo u graph none)
    (stored : ∀ c ∈ d.configs.toList, graph.Present c.stack)
    (answers : d.AnswersAs (verdict u.alternatives d.configs)) (bare : d.Bare) :
    (t.addState d).2.Memo u graph (some (t.addState d).1.number) := by
  rcases h.addState_cases answers with ⟨same, -⟩ | new
  · rw [same]
    exact h.weaken
  · rw [new]
    exact h.push stored answers (.inl ⟨rfl, bare⟩) fun _ _ => rfl

/-- The state becomes the one where predictions start. -/
theorem setStart (h : t.Memo u graph (some s.number)) (here : t.states[s.number]? = some s)
    (unknown : t.start = none) (again : u.Recomputes graph (fun q => startConfigs q false 0) s.configs) :
    (t.setStart s).Memo u graph none := by
  rw [PredictionTable.setStart, if_pos (holds_of_stored here)]
  exact { h with
    origin := fun listed => by
      refine (h.origin listed).imp_left ?_
      rintro ⟨start | level | pending, bare⟩
      · cases unknown.symm.trans start
      · exact ⟨.inr (.inl level), bare⟩
      · exact ⟨.inl pending, bare⟩
    started := fun _ none => by cases none
    start := fun {k} start => by
      obtain rfl := Option.some.inj start
      exact ⟨s, here, again⟩ }

/-- The state becomes the one where predictions under the precedence start. -/
theorem setPrecedenceStart (h : t.Memo u graph (some s.number))
    (here : t.states[s.number]? = some s) (loop : u.byPrecedence = true)
    (unknown : t.precedenceStarts.lookup level = none) (opens : u.Opens graph level s) :
    (t.setPrecedenceStart level s).Memo u graph none := by
  rw [PredictionTable.setPrecedenceStart, if_pos (holds_of_stored here)]
  have kept : t.precedenceStarts.filter (·.1 ≠ level) = t.precedenceStarts := by
    refine List.filter_eq_self.2 fun entry mem => ?_
    have other := List.lookup_eq_none_iff.1 unknown entry mem
    simp only [bne_iff_ne, ne_eq] at other
    exact decide_eq_true fun eq => other eq.symm
  rw [kept]
  exact { h with
    origin := fun {k s'} listed => by
      refine (h.origin listed).imp_left ?_
      rintro ⟨start | ⟨level', known⟩ | pending, bare⟩
      · exact ⟨.inl start, bare⟩
      · have other : level' ≠ level := by
          rintro rfl
          cases unknown.symm.trans known
        refine ⟨.inr (.inl ⟨level', ?_⟩), bare⟩
        rw [List.lookup_cons, beq_false_of_ne other]
        exact known
      · refine ⟨.inr (.inl ⟨level, ?_⟩), bare⟩
        rw [List.lookup_cons, beq_self_eq_true]
        exact pending
    started := fun alone => by cases loop.symm.trans alone
    opens := fun {level' k} mem => by
      rcases List.mem_cons.1 mem with new | old
      · obtain ⟨rfl, rfl⟩ := Prod.mk.inj new
        exact ⟨s, here, opens⟩
      · exact h.opens old }

/-- A symbol leads from one state to another. -/
theorem addEdge (h : t.Memo u graph none) (hs : t.states[s.number]? = some s)
    (hd : t.states[d.number]? = some d) (carries : u.Carries graph s x d) :
    (t.addEdge s x (.state d)).Memo u graph none := by
  simp only [PredictionTable.addEdge, holds_of_stored hs, holds_of_stored hd, if_true]
  exact { h with
    carries := fun mem => by
      rcases List.mem_cons.1 mem with new | old
      · obtain ⟨⟨rfl, rfl⟩, ⟨rfl⟩⟩ := Prod.mk.inj new
        exact ⟨s, d, hs, hd, carries⟩
      · exact h.carries (List.mem_of_mem_filter old)
    ends := fun mem => by
      rcases List.mem_cons.1 mem with new | old
      · cases (Prod.mk.inj new).2
      · exact h.ends (List.mem_of_mem_filter old) }

/-- A symbol ends the threads of a state. -/
theorem addEdge_dead (h : t.Memo u graph none) (hs : t.states[s.number]? = some s)
    (ends : u.Ends graph s x) : (t.addEdge s x .dead).Memo u graph none := by
  simp only [PredictionTable.addEdge, holds_of_stored hs, if_true]
  exact { h with
    carries := fun mem => by
      rcases List.mem_cons.1 mem with new | old
      · cases (Prod.mk.inj new).2
      · exact h.carries (List.mem_of_mem_filter old)
    ends := fun mem => by
      rcases List.mem_cons.1 mem with new | old
      · obtain ⟨⟨rfl, rfl⟩, -⟩ := Prod.mk.inj new
        exact ⟨s, hs, ends⟩
      · exact h.ends (List.mem_of_mem_filter old) }

end Memo

end PredictionTable

end AdaptiveLL
