import AdaptiveLL.Prediction.Table
import AdaptiveLL.Proofs.Prediction.Merge
import Mathlib.Data.List.Forall2
import Mathlib.Tactic.Tauto
/-!
Generations of a table. Any number of clients use a table, one use after the other, and pass in
states that they got from it before, perhaps before it was cleared. Still no client sees anything of
an earlier generation, and none brings it back. What a table has to show is said by the history of
its uses alone.
-/
namespace AdaptiveLL

/-- A use of a table by one of its clients. -/
inductive TableUse where
  | add (s : TableState)
  | setStart (s : TableState)
  | setPrecedenceStart (level : Int) (s : TableState)
  | addEdge (source : TableState) (symbol : Symbol) (target : TableTarget)
  | edge (source : TableState) (symbol : Symbol)
  | start
  | precedenceStart (level : Int)
  | clear
  deriving DecidableEq

def TableTarget.states : TableTarget → List TableState
  | state s => [s]
  | dead => []

namespace TableUse

/-- The states of the table that the client passes in. A state to be added is none of them. -/
def handles : TableUse → List TableState
  | setStart s | setPrecedenceStart _ s | edge s _ => [s]
  | addEdge source _ target => source :: target.states
  | add _ | start | precedenceStart _ | clear => []

/-- The start state that the use publishes. -/
def start? : TableUse → Option TableState
  | setStart s => some s
  | _ => none

/-- The start state that the use publishes for a precedence. -/
def precedenceStart? (level : Int) : TableUse → Option TableState
  | setPrecedenceStart level' s => if level' = level then some s else none
  | _ => none

/-- Where the use says that an edge leads. -/
def edge? (source : TableState) (symbol : Symbol) : TableUse → Option TableTarget
  | addEdge source' symbol' target =>
      if source' = source ∧ symbol' = symbol then some target else none
  | _ => none

end TableUse

/-- A use of a table and what was answered to it. -/
structure TableEvent where
  use : TableUse
  answer : Option TableTarget

namespace TableEvent

/-- The states that were given out, the latest first. Histories begin with the latest event. -/
def issued (history : List TableEvent) : List TableState :=
  history.flatMap fun e => (e.answer.map TableTarget.states).getD []

/-- The states that were given out since the table was last cleared. -/
def current (history : List TableEvent) : List TableState :=
  issued (history.takeWhile fun e => e.use ≠ .clear)

/-- What was last published since the table was last cleared, through states of that time. -/
def latest {α : Type} (publishes : TableUse → Option α) : List TableEvent → Option α
  | [] => none
  | e :: earlier =>
      if e.use = .clear then none
      else if ∀ s ∈ e.use.handles, s ∈ current earlier then
        (publishes e.use).or (latest publishes earlier)
      else latest publishes earlier

end TableEvent

open TableEvent (issued current latest)

namespace PredictionTable

variable {t : PredictionTable} {history : List TableEvent} {s : TableState}

/-- What is answered to a use, and the table behind it. -/
def use (t : PredictionTable) : TableUse → Option TableTarget × PredictionTable
  | .add s => (some (.state (t.addState s).1), (t.addState s).2)
  | .setStart s => (none, t.setStart s)
  | .setPrecedenceStart level s => (none, t.setPrecedenceStart level s)
  | .addEdge source symbol target => (none, t.addEdge source symbol target)
  | .edge source symbol => (t.edge? source symbol, t)
  | .start => (t.start?.map .state, t)
  | .precedenceStart level => ((t.precedenceStart? level).map .state, t)
  | .clear => (none, t.clear)

/-- The table can have this history. It was new in the beginning, and every state that was passed
in had been given out before. -/
inductive HasHistory : PredictionTable → List TableEvent → Prop
  | new (decision startState : Nat) (byPrecedence : Bool) :
      HasHistory { decision, startState, byPrecedence } []
  | use {t : PredictionTable} {history : List TableEvent} (earlier : t.HasHistory history)
      (u : TableUse) (known : ∀ s ∈ u.handles, s ∈ issued history) :
      HasHistory (t.use u).2 (⟨u, (t.use u).1⟩ :: history)

/-- Only the generation of now is in the table, and only what was published in it can be read. -/
structure OfOneGeneration (t : PredictionTable) (history : List TableEvent) : Prop where
  /-- States are numbered by their position. -/
  number : ∀ {k : Nat} {s : TableState}, t.states[k]? = some s → s.number = k
  /-- No two states have equal configurations. -/
  distinct : ∀ {j k : Nat} {s s' : TableState}, t.states[j]? = some s → t.states[k]? = some s' →
    s.configs.same s'.configs = true → j = k
  /-- The start states and the ends of edges are in the table. -/
  start_lt : ∀ k ∈ t.start, k < t.states.size
  precedenceStart_lt : ∀ e ∈ t.precedenceStarts, e.2 < t.states.size
  edge_lt : ∀ e ∈ t.edges, e.1.1 < t.states.size ∧ ∀ k ∈ e.2, k < t.states.size
  /-- The states that were given out since the last clear are those of the table. -/
  current_mem : ∀ s ∈ current history, s ∈ t.states
  stale_not_mem : ∀ s ∈ issued history, s ∉ current history → s ∉ t.states
  /-- What is read is what was last published. -/
  start_eq : t.start? = latest TableUse.start? history
  precedenceStart_eq : ∀ level : Int,
    t.precedenceStart? level = latest (TableUse.precedenceStart? level) history
  edge_eq : ∀ s ∈ current history, ∀ symbol : Symbol,
    t.edge? s symbol = latest (TableUse.edge? s symbol) history
  /-- A state from before a clear has no edges and publishes nothing. -/
  stale : ∀ s ∈ issued history, s ∉ current history → ∀ (level : Int) (symbol : Symbol),
    t.edge? s symbol = none ∧ t.setStart s = t ∧ t.setPrecedenceStart level s = t ∧
      (∀ target, t.addEdge s symbol target = t) ∧
      ∀ source, t.addEdge source symbol (.state s) = t
  /-- A state with equal configurations is not added again. -/
  addState_mem : ∀ s d : TableState, d ∈ t.states → d.configs.same s.configs = true →
    t.addState s = (d, t)

end PredictionTable

/-- What the equality of threads compares. -/
def Configuration.essence (c : Configuration) : Configuration :=
  { c with outerDepth := 0 }

theorem Configuration.same_iff {a b : Configuration} : a.same b = true ↔ a.essence = b.essence := by
  obtain ⟨_, _, _, _, _, _, _, _⟩ := a
  obtain ⟨_, _, _, _, _, _, _, _⟩ := b
  simp only [Configuration.same, essence, Bool.and_eq_true, beq_iff_eq, mk.injEq]
  tauto

/-- What the equality of sets compares. -/
def ConfigurationSet.essence (set : ConfigurationSet) : ConfigurationSet :=
  { set with items := set.items.map Configuration.essence, ordered := false }

/-- Sets that count as the same have the same essence. -/
theorem ConfigurationSet.same_iff {a b : ConfigurationSet} :
    a.same b = true ↔ a.essence = b.essence := by
  have items : a.size = b.size ∧ (∀ p ∈ a.toList.zip b.toList, Configuration.same p.1 p.2 = true) ↔
      a.items.map Configuration.essence = b.items.map Configuration.essence := by
    rw [← Array.toList_inj, Array.toList_map, Array.toList_map, ← List.forall₂_eq_eq_eq,
      List.forall₂_map_left_iff, List.forall₂_map_right_iff, List.forall₂_iff_zip]
    simp only [← Configuration.same_iff]
    exact and_congr Iff.rfl ⟨fun h x y mem => h (x, y) mem, fun h p mem => h mem⟩
  simp only [same, essence, Bool.and_eq_true, beq_iff_eq, List.all_eq_true, mk.injEq, ← items]
  tauto

namespace TableEvent

variable {history : List TableEvent} {e : TableEvent} {s : TableState}

/-- The states that were given out with the event. -/
def states (e : TableEvent) : List TableState :=
  (e.answer.map TableTarget.states).getD []

theorem issued_cons : issued (e :: history) = e.states ++ issued history :=
  List.flatMap_cons

theorem current_cons (going : e.use ≠ .clear) :
    current (e :: history) = e.states ++ current history := by
  rw [current, List.takeWhile_cons_of_pos (by simpa using going)]
  exact issued_cons

theorem current_clear (clear : e.use = .clear) : current (e :: history) = [] := by
  rw [current, List.takeWhile_cons_of_neg (by simpa using clear)]
  rfl

section Latest

variable {α : Type} {publishes : TableUse → Option α} {a : α}

theorem latest_clear (clear : e.use = .clear) : latest publishes (e :: history) = none := by
  rw [latest, if_pos clear]

/-- A use that publishes nothing of the kind, or that passes in a state from before a clear,
changes nothing. -/
theorem latest_of_none (going : e.use ≠ .clear)
    (nothing : (∀ s ∈ e.use.handles, s ∈ current history) → publishes e.use = none) :
    latest publishes (e :: history) = latest publishes history := by
  rw [latest, if_neg going]
  split
  case isTrue known => rw [nothing known, Option.none_or]
  case isFalse => rfl

theorem latest_of_some (going : e.use ≠ .clear) (known : ∀ s ∈ e.use.handles, s ∈ current history)
    (published : publishes e.use = some a) : latest publishes (e :: history) = some a := by
  rw [latest, if_neg going, if_pos known, published, Option.some_or]

/-- What was last published was published through states that are still current. -/
theorem exists_of_latest (h : latest publishes history = some a) :
    ∃ u, publishes u = some a ∧ ∀ s ∈ u.handles, s ∈ current history := by
  induction history with
  | nil => cases h
  | cons e earlier ih =>
      by_cases going : e.use = .clear
      case pos => cases (latest_clear going).symm.trans h
      have later {s : TableState} (mem : s ∈ current earlier) : s ∈ current (e :: earlier) := by
        rw [current_cons going]
        exact List.mem_append_right _ mem
      rw [latest, if_neg going] at h
      split at h
      case isTrue known =>
          cases published : publishes e.use with
          | some a' =>
              rw [published, Option.some_or] at h
              exact ⟨e.use, published.trans h, fun s mem => later (known s mem)⟩
          | none =>
              rw [published, Option.none_or] at h
              obtain ⟨u, hu, all⟩ := ih h
              exact ⟨u, hu, fun s mem => later (all s mem)⟩
      case isFalse =>
          obtain ⟨u, hu, all⟩ := ih h
          exact ⟨u, hu, fun s mem => later (all s mem)⟩

end Latest

end TableEvent

namespace PredictionTable

section Writing

variable {κ ν : Type} [BEq κ] [LawfulBEq κ] [DecidableEq κ] {entries : List (κ × ν)} {key key' : κ} {value : ν}

/-- What is found after an entry has been replaced. -/
theorem lookup_replace : ((key, value) :: entries.filter (·.1 ≠ key)).lookup key' =
    if key' = key then some value else entries.lookup key' := by
  rw [List.lookup_cons]
  split
  case h_1 same => rw [if_pos (beq_iff_eq.1 same)]
  case h_2 other =>
      have other : key' ≠ key := by simpa using other
      rw [if_neg other]
      induction entries with
      | nil => rfl
      | cons entry entries ih =>
          obtain ⟨k, v⟩ := entry
          by_cases gone : k = key
          · subst gone
            rw [List.filter_cons_of_neg (by simp), ih, List.lookup_cons, beq_false_of_ne other]
          · rw [List.filter_cons_of_pos (by simpa using gone), List.lookup_cons, List.lookup_cons, ih]

omit [BEq κ] [LawfulBEq κ] in
theorem mem_replace {entry : κ × ν} (mem : entry ∈ (key, value) :: entries.filter (·.1 ≠ key)) :
    entry = (key, value) ∨ entry ∈ entries := by
  rcases List.mem_cons.1 mem with new | old
  · exact .inl new
  · exact .inr (List.mem_of_mem_filter old)

end Writing

variable {t : PredictionTable} {history : List TableEvent} {s d : TableState} {symbol : Symbol}
  {level : Int} {u : TableUse}

/-- How a table and the history of its uses belong together. -/
structure Follows (t : PredictionTable) (history : List TableEvent) : Prop where
  state : ∀ {k : Nat} {s : TableState}, t.states[k]? = some s →
    s.number = k ∧ s.generation = t.generation
  distinct : ∀ {j k : Nat} {s s' : TableState}, t.states[j]? = some s → t.states[k]? = some s' →
    s.configs.same s'.configs = true → j = k
  start_lt : ∀ k ∈ t.start, k < t.states.size
  precedenceStart_lt : ∀ e ∈ t.precedenceStarts, e.2 < t.states.size
  edge_lt : ∀ e ∈ t.edges, e.1.1 < t.states.size ∧ ∀ k ∈ e.2, k < t.states.size
  current : ∀ s ∈ current history, t.states[s.number]? = some s
  stale : ∀ s ∈ issued history, s ∉ TableEvent.current history → s.generation < t.generation
  start_eq : t.start? = latest TableUse.start? history
  precedenceStart_eq : ∀ level : Int,
    t.precedenceStart? level = latest (TableUse.precedenceStart? level) history
  edge_eq : ∀ {s : TableState}, t.states[s.number]? = some s → ∀ symbol : Symbol,
    t.edge? s symbol = latest (TableUse.edge? s symbol) history

namespace Follows

/-- A new table has no history. -/
theorem new (decision startState : Nat) (byPrecedence : Bool) :
    Follows { decision, startState, byPrecedence } [] where
  state here := by simp at here
  distinct here := by simp at here
  start_lt _ mem := by simp at mem
  precedenceStart_lt _ mem := by simp at mem
  edge_lt _ mem := by simp at mem
  current _ mem := by simp [TableEvent.current, issued] at mem
  stale _ mem := by simp [issued] at mem
  start_eq := rfl
  precedenceStart_eq _ := rfl
  edge_eq here := by simp at here

/-- The table holds the states that are current, of all that have been given out. -/
theorem holds_iff (h : t.Follows history) (known : s ∈ issued history) :
    t.holds s = true ↔ s ∈ TableEvent.current history := by
  constructor
  · intro held
    by_contra old
    have lt := h.stale s known old
    obtain ⟨stored, here, same⟩ := (Option.any_eq_true _ _).1 held
    have stamp : s.generation = t.generation := (beq_iff_eq.1 same).symm.trans (h.state here).2
    exact absurd stamp (Nat.ne_of_lt lt)
  · intro mem
    exact holds_of_stored (h.current s mem)

theorem mem_states (h : t.Follows history) (mem : s ∈ t.states) :
    t.states[s.number]? = some s := by
  obtain ⟨k, hk⟩ := Array.mem_iff_getElem?.1 mem
  rw [(h.state hk).1]
  exact hk

/-- What has been given out, after a use that is no clear and answers with states of the table. -/
theorem given (h : t.Follows history) {r : PredictionTable} {e : TableEvent}
    (going : e.use ≠ .clear) (same : r.generation = t.generation)
    (kept : ∀ {k : Nat} {s : TableState}, t.states[k]? = some s → r.states[k]? = some s)
    (stored : ∀ s ∈ e.states, r.states[s.number]? = some s) :
    (∀ s ∈ TableEvent.current (e :: history), r.states[s.number]? = some s) ∧
      ∀ s ∈ issued (e :: history), s ∉ TableEvent.current (e :: history) →
        s.generation < r.generation := by
  rw [TableEvent.current_cons going, TableEvent.issued_cons, same]
  constructor
  · intro s mem
    rcases List.mem_append.1 mem with new | old
    · exact stored s new
    · exact kept (h.current s old)
  · intro s mem outside
    rw [List.mem_append, not_or] at outside
    exact h.stale s ((List.mem_append.1 mem).resolve_left outside.1) outside.2

/-- The table does not change if the use publishes nothing, or nothing that is current. -/
theorem unchanged (h : t.Follows history) {e : TableEvent} (going : e.use ≠ .clear)
    (stored : ∀ s ∈ e.states, t.states[s.number]? = some s)
    (nothing : (∀ s ∈ e.use.handles, s ∈ TableEvent.current history) →
      e.use.start? = none ∧ (∀ level, e.use.precedenceStart? level = none) ∧
        ∀ s symbol, e.use.edge? s symbol = none) : t.Follows (e :: history) where
  state := h.state
  distinct := h.distinct
  start_lt := h.start_lt
  precedenceStart_lt := h.precedenceStart_lt
  edge_lt := h.edge_lt
  current := (h.given going rfl id stored).1
  stale := (h.given going rfl id stored).2
  start_eq := h.start_eq.trans (TableEvent.latest_of_none going fun known => (nothing known).1).symm
  precedenceStart_eq level := (h.precedenceStart_eq level).trans
    (TableEvent.latest_of_none going fun known => (nothing known).2.1 level).symm
  edge_eq here symbol := (h.edge_eq here symbol).trans
    (TableEvent.latest_of_none going fun known => (nothing known).2.2 _ symbol).symm

/-- A state from before a clear publishes nothing. -/
theorem ignored (h : t.Follows history) {e : TableEvent} (going : e.use ≠ .clear)
    (silent : e.states = []) (mem : s ∈ e.use.handles) (old : s ∉ TableEvent.current history) :
    t.Follows (e :: history) := by
  refine h.unchanged going ?_ ?_
  · rw [silent]
    exact fun s none => absurd none (List.not_mem_nil)
  · intro known
    exact absurd (known s mem) old

/-- Whatever is read is a state of the table. -/
theorem stored_start? (h : t.Follows history) (read : t.start? = some d) :
    t.states[d.number]? = some d := by
  obtain ⟨k, -, here⟩ := Option.bind_eq_some_iff.1 read
  exact h.mem_states (Array.mem_of_getElem? here)

theorem stored_precedenceStart? (h : t.Follows history) (read : t.precedenceStart? level = some d) :
    t.states[d.number]? = some d := by
  obtain ⟨k, -, here⟩ := Option.bind_eq_some_iff.1 read
  exact h.mem_states (Array.mem_of_getElem? here)

/-- An edge leads to a state that is stored. -/
theorem stored_edge? (h : t.Follows history) (read : t.edge? s symbol = some (.state d)) :
    t.states[d.number]? = some d := by
  unfold PredictionTable.edge? at read
  split at read
  case isFalse => cases read
  case isTrue =>
      split at read
      case h_1 => cases read
      case h_2 => cases read
      case h_3 =>
          obtain ⟨d', here, eq⟩ := Option.map_eq_some_iff.1 read
          obtain rfl := TableTarget.state.inj eq
          exact h.mem_states (Array.mem_of_getElem? here)

/-- No edge is published through a state that is not in the table. -/
theorem unpublished (h : t.Follows history) (outside : t.states[s.number]? ≠ some s)
    (symbol : Symbol) : latest (TableUse.edge? s symbol) history = none := by
  cases published : latest (TableUse.edge? s symbol) history with
  | none => rfl
  | some target =>
      obtain ⟨u, leads, known⟩ := TableEvent.exists_of_latest published
      cases u with
      | addEdge source symbol' target' =>
          simp only [TableUse.edge?, Option.ite_none_right_eq_some] at leads
          refine absurd (h.current s (known s ?_)) outside
          simp [TableUse.handles, leads.1.1]
      | _ => cases leads

/-- A new state has no edges yet, since no edge can have been published through it. -/
theorem push (h : t.Follows history)
    (fresh : ∀ d ∈ t.states, d.configs.same s.configs = false) :
    let new : TableState := { s with number := t.states.size, generation := t.generation }
    Follows { t with states := t.states.push new } (⟨.add s, some (.state new)⟩ :: history) := by
  intro new
  have kept {k : Nat} {d : TableState} (here : t.states[k]? = some d) :
      (t.states.push new)[k]? = some d := by
    rw [Array.getElem?_push, if_neg (Nat.ne_of_lt (Array.getElem?_eq_some_iff.1 here).1), here]
  have each {k : Nat} {d : TableState} (here : (t.states.push new)[k]? = some d) :
      k = t.states.size ∧ d = new ∨ k ≠ t.states.size ∧ t.states[k]? = some d := by
    rw [Array.getElem?_push] at here
    split at here
    case isTrue last => exact .inl ⟨last, (Option.some.inj here).symm⟩
    case isFalse other => exact .inr ⟨other, here⟩
  have later : t.states.size < (t.states.push new).size := by simp
  have found {k : Nat} (lt : k < t.states.size) : (t.states.push new)[k]? = t.states[k]? := by
    rw [Array.getElem?_push, if_neg (Nat.ne_of_lt lt)]
  have given := h.given (r := { t with states := t.states.push new })
    (e := ⟨.add s, some (.state new)⟩) (by simp) rfl kept (by simp [TableEvent.states, TableTarget.states, new])
  refine {
    state := ?_, distinct := ?_, start_lt := fun k mem => Nat.lt_trans (h.start_lt k mem) later
    precedenceStart_lt := fun e mem => Nat.lt_trans (h.precedenceStart_lt e mem) later
    edge_lt := ?_, current := given.1, stale := given.2
    start_eq := ?_, precedenceStart_eq := ?_, edge_eq := ?_ }
  · intro k d here
    rcases each here with ⟨rfl, rfl⟩ | ⟨-, old⟩
    · exact ⟨rfl, rfl⟩
    · exact h.state old
  · intro j k d d' hj hk same
    rcases each hj with ⟨rfl, rfl⟩ | ⟨-, oldJ⟩ <;> rcases each hk with ⟨rfl, rfl⟩ | ⟨-, oldK⟩
    · rfl
    · have symm := ConfigurationSet.same_iff.2 (ConfigurationSet.same_iff.1 same).symm
      cases (fresh d' (Array.mem_of_getElem? oldK)).symm.trans symm
    · cases (fresh d (Array.mem_of_getElem? oldJ)).symm.trans same
    · exact h.distinct oldJ oldK same
  · intro e mem
    obtain ⟨lt, all⟩ := h.edge_lt e mem
    exact ⟨Nat.lt_trans lt later, fun k mem => Nat.lt_trans (all k mem) later⟩
  · rw [TableEvent.latest_of_none (by simp) fun _ => rfl, ← h.start_eq]
    unfold PredictionTable.start?
    cases start : t.start with
    | none => rfl
    | some k => exact found (h.start_lt k start)
  · intro level
    rw [TableEvent.latest_of_none (by simp) fun _ => rfl, ← h.precedenceStart_eq level]
    unfold PredictionTable.precedenceStart?
    cases start : t.precedenceStarts.lookup level with
    | none => rfl
    | some k => exact found (h.precedenceStart_lt _ (mem_of_lookup start))
  · intro d here symbol
    rw [TableEvent.latest_of_none (by simp) fun _ => rfl]
    rcases each here with ⟨-, rfl⟩ | ⟨-, old⟩
    · have unwritten : t.edges.lookup (t.states.size, symbol) = none := by
        refine List.lookup_eq_none_iff.2 fun e mem => ?_
        have other : e.1.1 ≠ t.states.size := Nat.ne_of_lt (h.edge_lt e mem).1
        simp [Prod.ext_iff, other.symm]
      have outside : t.states[new.number]? ≠ some new := by simp [new]
      rw [h.unpublished outside symbol, PredictionTable.edge?, unwritten]
      split <;> rfl
    · rw [← h.edge_eq old symbol]
      rw [PredictionTable.edge?, PredictionTable.edge?, if_pos (holds_of_stored here),
        if_pos (holds_of_stored old)]
      cases leads : t.edges.lookup (d.number, symbol) with
      | none => rfl
      | some entry =>
          cases entry with
          | none => rfl
          | some k => exact congrArg (Option.map TableTarget.state) (found ((h.edge_lt _ (mem_of_lookup leads)).2 k rfl))

/-- A state that is added is issued, under its number and the stamp of the generation. -/
theorem add (h : t.Follows history) (s : TableState) :
    (t.addState s).2.Follows (⟨.add s, some (.state (t.addState s).1)⟩ :: history) := by
  unfold PredictionTable.addState
  split
  case h_1 existing found =>
      refine h.unchanged (by simp) ?_ fun _ => ⟨rfl, fun _ => rfl, fun _ _ => rfl⟩
      intro d mem
      obtain rfl := List.mem_singleton.1 mem
      exact h.mem_states (Array.mem_of_find?_eq_some found)
  case h_2 missing =>
      refine h.push fun d mem => ?_
      simpa using Array.find?_eq_none.1 missing d mem

/-- A start state is kept, unless it is of an earlier generation. -/
theorem setStart (h : t.Follows history) (known : s ∈ issued history) :
    (t.setStart s).Follows (⟨.setStart s, none⟩ :: history) := by
  by_cases mem : s ∈ TableEvent.current history
  case neg =>
      rw [PredictionTable.setStart, if_neg ((h.holds_iff known).not.2 mem)]
      exact h.ignored (by simp) rfl (.head _) mem
  case pos =>
      have stored := h.current s mem
      have given := h.given (r := { t with start := some s.number }) (e := ⟨.setStart s, none⟩)
        (by simp) rfl id (List.forall_mem_nil _)
      rw [PredictionTable.setStart, if_pos (holds_of_stored stored)]
      exact {
        state := h.state
        distinct := h.distinct
        start_lt := fun k start => by
          obtain rfl := Option.some.inj start
          exact (Array.getElem?_eq_some_iff.1 stored).1
        precedenceStart_lt := h.precedenceStart_lt
        edge_lt := h.edge_lt
        current := given.1
        stale := given.2
        start_eq := by
          rw [TableEvent.latest_of_some (a := s) (by simp) (by simpa [TableUse.handles]) rfl]
          exact stored
        precedenceStart_eq := fun level =>
          (h.precedenceStart_eq level).trans (TableEvent.latest_of_none (by simp) fun _ => rfl).symm
        edge_eq := fun here symbol =>
          (h.edge_eq here symbol).trans (TableEvent.latest_of_none (by simp) fun _ => rfl).symm }

theorem setPrecedenceStart (h : t.Follows history) (level : Int) (known : s ∈ issued history) :
    (t.setPrecedenceStart level s).Follows (⟨.setPrecedenceStart level s, none⟩ :: history) := by
  by_cases mem : s ∈ TableEvent.current history
  case neg =>
      rw [PredictionTable.setPrecedenceStart, if_neg ((h.holds_iff known).not.2 mem)]
      exact h.ignored (by simp) rfl (.head _) mem
  case pos =>
      have stored := h.current s mem
      have given := h.given (r := t.setPrecedenceStart level s)
        (e := ⟨.setPrecedenceStart level s, none⟩) (by simp)
      rw [PredictionTable.setPrecedenceStart, if_pos (holds_of_stored stored)] at given ⊢
      obtain ⟨current, stale⟩ := given rfl id (List.forall_mem_nil _)
      exact {
        state := h.state
        distinct := h.distinct
        start_lt := h.start_lt
        precedenceStart_lt := fun e listed => by
          rcases mem_replace listed with rfl | old
          · exact (Array.getElem?_eq_some_iff.1 stored).1
          · exact h.precedenceStart_lt e old
        edge_lt := h.edge_lt
        current := current
        stale := stale
        start_eq := h.start_eq.trans (TableEvent.latest_of_none (by simp) fun _ => rfl).symm
        precedenceStart_eq := fun level' => by
          rw [PredictionTable.precedenceStart?, lookup_replace]
          split
          case isTrue same =>
              subst same
              rw [TableEvent.latest_of_some (a := s) (by simp) (by simpa [TableUse.handles])
                (if_pos rfl)]
              exact stored
          case isFalse other =>
              rw [TableEvent.latest_of_none (by simp) fun _ => if_neg (Ne.symm other)]
              exact h.precedenceStart_eq level'
        edge_eq := fun here symbol =>
          (h.edge_eq here symbol).trans (TableEvent.latest_of_none (by simp) fun _ => rfl).symm }

/-- An edge between states of the table is written down, and reads as the target. -/
theorem addEdge_eq (h : t.Follows history) {source : TableState} {target : TableTarget}
    (known : ∀ s ∈ source :: target.states, s ∈ TableEvent.current history) (symbol : Symbol) :
    ∃ entry : Option Nat, t.addEdge source symbol target =
        { t with edges := ((source.number, symbol), entry) ::
          t.edges.filter (·.1 ≠ (source.number, symbol)) } ∧
      (∀ k ∈ entry, k < t.states.size) ∧
      (match entry with
        | none => some .dead
        | some k => t.states[k]?.map .state) = some target := by
  have held {s : TableState} (mem : s ∈ source :: target.states) : t.holds s = true :=
    holds_of_stored (h.current s (known s mem))
  cases target with
  | dead =>
      refine ⟨none, ?_, nofun, rfl⟩
      exact if_pos (held (.head _))
  | state s =>
      have stored := h.current s (known s (.tail _ (.head _)))
      refine ⟨some s.number, ?_, ?_, congrArg (Option.map TableTarget.state) stored⟩
      · exact (if_pos (held (.tail _ (.head _)))).trans (if_pos (held (.head _)))
      · intro k mem
        obtain rfl := Option.some.inj mem
        exact (Array.getElem?_eq_some_iff.1 stored).1

/-- An edge between states of the present generation is kept. -/
theorem addEdge_current (h : t.Follows history) {source : TableState} {target : TableTarget}
    (known : ∀ s ∈ source :: target.states, s ∈ TableEvent.current history) (symbol : Symbol) :
    (t.addEdge source symbol target).Follows (⟨.addEdge source symbol target, none⟩ :: history) := by
  have stored := h.current source (known source (.head _))
  obtain ⟨entry, eq, lt, reads⟩ := h.addEdge_eq known symbol
  have given := h.given (r := t.addEdge source symbol target)
    (e := ⟨.addEdge source symbol target, none⟩) (by simp)
  rw [eq] at given ⊢
  obtain ⟨current, stale⟩ := given rfl id (List.forall_mem_nil _)
  refine {
    state := h.state, distinct := h.distinct, start_lt := h.start_lt
    precedenceStart_lt := h.precedenceStart_lt, edge_lt := ?_, current := current, stale := stale
    start_eq := h.start_eq.trans (TableEvent.latest_of_none (by simp) fun _ => rfl).symm
    precedenceStart_eq := fun level =>
      (h.precedenceStart_eq level).trans (TableEvent.latest_of_none (by simp) fun _ => rfl).symm
    edge_eq := ?_ }
  · intro e mem
    rcases mem_replace mem with rfl | old
    · exact ⟨(Array.getElem?_eq_some_iff.1 stored).1, lt⟩
    · exact h.edge_lt e old
  · intro d here symbol'
    have held : t.holds d = true := holds_of_stored here
    have same : (d.number, symbol') = (source.number, symbol) ↔ source = d ∧ symbol = symbol' := by
      constructor
      · intro eq
        obtain ⟨number, rfl⟩ := Prod.mk.inj eq
        rw [number] at here
        exact ⟨Option.some.inj (stored.symm.trans here), rfl⟩
      · rintro ⟨rfl, rfl⟩
        rfl
    refine (if_pos held).trans ?_
    dsimp only
    rw [lookup_replace]
    by_cases this : (d.number, symbol') = (source.number, symbol)
    · have published : latest (TableUse.edge? d symbol')
          (⟨.addEdge source symbol target, none⟩ :: history) = some target :=
        TableEvent.latest_of_some (by simp) known (if_pos (same.1 this))
      rw [if_pos this, published, ← reads]
      cases entry <;> rfl
    · rw [if_neg this, TableEvent.latest_of_none (by simp) fun _ => if_neg (same.not.1 this),
        ← h.edge_eq here symbol', PredictionTable.edge?, if_pos held]

/-- Nothing is written down where one of the states is from before a clear. -/
theorem addEdge_stale (h : t.Follows history) {source : TableState} {target : TableTarget}
    (known : ∀ s ∈ source :: target.states, s ∈ issued history)
    (old : ¬ ∀ s ∈ source :: target.states, s ∈ TableEvent.current history) (symbol : Symbol) :
    t.addEdge source symbol target = t := by
  have refused (mem : source ∉ TableEvent.current history) (written : PredictionTable) :
      (if t.holds source then written else t) = t :=
    if_neg ((h.holds_iff (known source (.head _))).not.2 mem)
  cases target with
  | dead => exact refused (fun mem => old (by simpa [TableTarget.states] using mem)) _
  | state s =>
      by_cases mem : s ∈ TableEvent.current history
      · refine (if_pos ((h.holds_iff (known s (.tail _ (.head _)))).2 mem)).trans ?_
        exact refused (fun mem' => old (by simpa [TableTarget.states] using ⟨mem', mem⟩)) _
      · exact if_neg ((h.holds_iff (known s (.tail _ (.head _)))).not.2 mem)

/-- An edge is kept, unless it has to do with an earlier generation. -/
theorem addEdge (h : t.Follows history) {source : TableState} {target : TableTarget}
    (known : ∀ s ∈ source :: target.states, s ∈ issued history) (symbol : Symbol) :
    (t.addEdge source symbol target).Follows (⟨.addEdge source symbol target, none⟩ :: history) := by
  by_cases all : ∀ s ∈ source :: target.states, s ∈ TableEvent.current history
  · exact h.addEdge_current all symbol
  · rw [h.addEdge_stale known all symbol]
    refine h.unchanged (by simp) (List.forall_mem_nil _) ?_
    intro current
    exact absurd current all

/-- A table that is cleared shows nothing. -/
theorem clear (h : t.Follows history) : t.clear.Follows (⟨.clear, none⟩ :: history) where
  state here := by simp [PredictionTable.clear] at here
  distinct here := by simp [PredictionTable.clear] at here
  start_lt _ mem := by simp [PredictionTable.clear] at mem
  precedenceStart_lt _ mem := by simp [PredictionTable.clear] at mem
  edge_lt _ mem := by simp [PredictionTable.clear] at mem
  current s mem := by simp [TableEvent.current_clear] at mem
  stale s mem _ := by
    have known : s ∈ issued history := mem
    change s.generation < t.generation + 1
    by_cases here : s ∈ TableEvent.current history
    · have := (h.state (h.current s here)).2
      omega
    · have := h.stale s known here
      omega
  start_eq := (TableEvent.latest_clear rfl).symm
  precedenceStart_eq _ := (TableEvent.latest_clear rfl).symm
  edge_eq here := by simp [PredictionTable.clear] at here

/-- Every use keeps the table and its history together. -/
theorem use (h : t.Follows history) (u : TableUse) (known : ∀ s ∈ u.handles, s ∈ issued history) :
    (t.use u).2.Follows (⟨u, (t.use u).1⟩ :: history) := by
  have silent (u : TableUse) (answer : Option TableTarget) (going : u ≠ .clear)
      (stored : ∀ target ∈ answer, ∀ s ∈ target.states, t.states[s.number]? = some s)
      (nothing : u.start? = none ∧ (∀ level, u.precedenceStart? level = none) ∧
        ∀ s symbol, u.edge? s symbol = none) : t.Follows (⟨u, answer⟩ :: history) := by
    refine h.unchanged going ?_ fun _ => nothing
    cases answer with
    | none => exact List.forall_mem_nil _
    | some target => exact stored target rfl
  cases u with
  | add s => exact h.add s
  | setStart s => exact h.setStart (known s (.head _))
  | setPrecedenceStart level s => exact h.setPrecedenceStart level (known s (.head _))
  | addEdge source symbol target => exact h.addEdge known symbol
  | edge source symbol =>
      refine silent _ _ (by simp) ?_ ⟨rfl, fun _ => rfl, fun _ _ => rfl⟩
      intro target read s mem
      cases target with
      | dead => cases mem
      | state d =>
          obtain rfl := List.mem_singleton.1 mem
          exact h.stored_edge? read
  | start =>
      refine silent _ _ (by simp) ?_ ⟨rfl, fun _ => rfl, fun _ _ => rfl⟩
      intro target read s mem
      obtain ⟨d, found, rfl⟩ := Option.map_eq_some_iff.1 read
      obtain rfl := List.mem_singleton.1 mem
      exact h.stored_start? found
  | precedenceStart level =>
      refine silent _ _ (by simp) ?_ ⟨rfl, fun _ => rfl, fun _ _ => rfl⟩
      intro target read s mem
      obtain ⟨d, found, rfl⟩ := Option.map_eq_some_iff.1 read
      obtain rfl := List.mem_singleton.1 mem
      exact h.stored_precedenceStart? found
  | clear => exact h.clear

end Follows

theorem HasHistory.follows (h : t.HasHistory history) : t.Follows history := by
  induction h with
  | new decision startState byPrecedence => exact .new decision startState byPrecedence
  | use _ u known ih => exact ih.use u known

/-- However many clients use a table, in whatever order, and however old the states are that they
pass in: the table never mixes generations. -/
theorem HasHistory.ofOneGeneration (h : t.HasHistory history) : t.OfOneGeneration history := by
  have follows := h.follows
  have absent {s : TableState} (known : s ∈ issued history) (old : s ∉ current history) :
      t.holds s = false := by
    simpa using (follows.holds_iff known).not.2 old
  exact {
    number := fun here => (follows.state here).1
    distinct := follows.distinct
    start_lt := follows.start_lt
    precedenceStart_lt := follows.precedenceStart_lt
    edge_lt := follows.edge_lt
    current_mem := fun s mem => Array.mem_of_getElem? (follows.current s mem)
    stale_not_mem := fun s known old mem => by
      have held := holds_of_stored (follows.mem_states mem)
      cases (absent known old).symm.trans held
    start_eq := follows.start_eq
    precedenceStart_eq := follows.precedenceStart_eq
    edge_eq := fun s mem symbol => follows.edge_eq (follows.current s mem) symbol
    stale := fun s known old level symbol => by
      refine ⟨?_, ?_, ?_, ?_, ?_⟩
      · simp [edge?, absent known old]
      · simp [setStart, absent known old]
      · simp [setPrecedenceStart, absent known old]
      · intro target
        cases target <;> simp [addEdge, absent known old]
      · intro source
        simp [addEdge, absent known old]
    addState_mem := fun s d mem same => by
      obtain ⟨j, hj⟩ := Array.mem_iff_getElem?.1 mem
      have found : (t.states.find? fun e => e.configs.same s.configs).isSome = true := by
        rw [Array.find?_isSome]
        exact ⟨d, mem, same⟩
      obtain ⟨e, he⟩ := Option.isSome_iff_exists.1 found
      obtain ⟨k, hk⟩ := Array.mem_iff_getElem?.1 (Array.mem_of_find?_eq_some he)
      have twin : e.configs.same s.configs = true := by
        simpa using Array.find?_some he
      have alike : d.configs.same e.configs = true :=
        ConfigurationSet.same_iff.2 ((ConfigurationSet.same_iff.1 same).trans
          (ConfigurationSet.same_iff.1 twin).symm)
      obtain rfl := follows.distinct hj hk alike
      obtain rfl := Option.some.inj (hj.symm.trans hk)
      rw [addState, he] }

/-- The only state of a table in a generation, with one thread. -/
def lone (generation place : Nat) : TableState :=
  { number := 0, generation, configs := { items := #[{ state := place, alt := 1 }] } }

/-- A state that was published before a clear is published again, and its edge is asked for, when
its number stands for another state. -/
theorem HasHistory.ofOneGeneration_reused : ∃ (t : PredictionTable) (history : List TableEvent),
    t.HasHistory history ∧ t.OfOneGeneration history ∧
      history.map TableEvent.use = [.edge (lone 0 1) 5, .setStart (lone 0 1), .setStart (lone 1 2),
        .add (lone 0 2), .clear, .addEdge (lone 0 1) 5 .dead, .setStart (lone 0 1), .add (lone 0 1)] ∧
      t.start? = some (lone 1 2) := by
  have first := HasHistory.use (.new 0 0 false) (.add (lone 0 1)) (List.forall_mem_nil _)
  have second := (first.use (.setStart (lone 0 1)) (by decide)).use (.addEdge (lone 0 1) 5 .dead)
    (by decide)
  have third := (second.use .clear (List.forall_mem_nil _)).use (.add (lone 0 2)) (List.forall_mem_nil _)
  have fourth := (third.use (.setStart (lone 1 2)) (by decide)).use (.setStart (lone 0 1))
    (by decide)
  have last := fourth.use (.edge (lone 0 1) 5) (by decide)
  exact ⟨_, _, last, last.ofOneGeneration, rfl, by decide⟩

end PredictionTable

end AdaptiveLL
