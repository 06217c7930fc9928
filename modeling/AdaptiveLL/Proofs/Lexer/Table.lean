import AdaptiveLL.Proofs.Lexer.Refinement
import AdaptiveLL.Proofs.Prediction.Alternatives
/-!
What the prediction table of a lexer mode knows is true. A table is sound if its states stand
for lists of threads, its start state for the threads at the start of a match, and its edges
lead from threads to what these become by reading. Adding states and edges keeps it sound.
-/
namespace AdaptiveLL

open Thread (RepresentsAll)

variable {n : Network} {g g' : StackGraph} {ts ts' : List Thread} {start : Nat} {x : Symbol}

namespace Thread

/-- The first thread that has finished, with the rule that it has finished. -/
def verdict (n : Network) (ts : List Thread) : Option (Thread × Nat) :=
  ts.findSome? fun t => (n.states[t.state]?.filter State.isRuleStop).map fun s => (t, s.rule)

/-- A match can begin with these threads. -/
def Begins (n : Network) (start : Nat) (ts : List Thread) : Prop :=
  ∃ fuel, starts n fuel start = some ts

/-- The threads become others by reading a symbol, at some distance from the start of the
match. -/
def LeadTo (n : Network) (ts : List Thread) (x : Symbol) (ts' : List Thread) : Prop :=
  ∃ fuel offset, reach n fuel offset ts x = some ts'

variable {area : Set Nat}

theorem Begins.isIn (scannable : n.IsScannableFrom start area) (h : Begins n start ts) :
    ∀ t ∈ ts, t.IsIn area := by
  obtain ⟨fuel, h⟩ := h
  exact starts_isIn scannable h

theorem LeadTo.isIn (scannable : n.IsScannableIn area) (h : LeadTo n ts x ts')
    (known : ∀ t ∈ ts, t.IsIn area) : ∀ t ∈ ts', t.IsIn area := by
  obtain ⟨fuel, offset, h⟩ := h
  exact reach_isIn scannable known h

end Thread

namespace TableState

/-- The state stands for the threads, and answers what the first finished one says. -/
structure Stands (n : Network) (g : StackGraph) (s : TableState) (ts : List Thread) : Prop where
  configs : RepresentsAll g s.configs ts
  accepts : s.isAccept = (Thread.verdict n ts).isSome
  token : ∀ t rule, Thread.verdict n ts = some (t, rule) →
    s.tokenType = n.ruleTokens[rule]? ∧ s.actions = t.actions

theorem Stands.extend {s : TableState} (h : s.Stands n g ts) (grown : g.Extends g') :
    s.Stands n g' ts :=
  { h with configs := h.configs.extend grown }

theorem Stands.unique {s : TableState} (h : s.Stands n g ts) (h' : s.Stands n g ts') :
    ts = ts' := by
  exact h.configs.eq_of_same h'.configs (ConfigurationSet.same_self _)

end TableState

namespace PredictionTable

/-- The state is in the table and stands for the threads. -/
def Has (n : Network) (g : StackGraph) (t : PredictionTable) (s : TableState)
    (ts : List Thread) : Prop :=
  t.states[s.number]? = some s ∧ s.Stands n g ts

/-- The target is a state for the threads, or there are no threads. -/
def Leads (n : Network) (g : StackGraph) (t : PredictionTable) :
    TableTarget → List Thread → Prop
  | .dead, ts => ts = []
  | .state s, ts => ts ≠ [] ∧ t.Has n g s ts

/-- The number under which a target is written down. -/
def entry : TableTarget → Option Nat
  | .dead => none
  | .state s => some s.number

structure Sound (n : Network) (g : StackGraph) (start : Nat) (t : PredictionTable) : Prop where
  startState : t.startState = start
  states : ∀ {k : Nat} {s : TableState}, t.states[k]? = some s →
    s.number = k ∧ s.generation = t.generation ∧ ∃ ts, s.Stands n g ts
  begins : ∀ {k : Nat}, t.start = some k →
    ∃ s ts, s.number = k ∧ t.Has n g s ts ∧ Thread.Begins n start ts
  edges : ∀ {k : Nat} {x : Symbol} {number : Option Nat}, ((k, x), number) ∈ t.edges →
    ∃ source ts target ts', source.number = k ∧ entry target = number ∧ t.Has n g source ts ∧
      Thread.LeadTo n ts x ts' ∧ t.Leads n g target ts'

variable {t t' : PredictionTable} {s : TableState} {target : TableTarget}

theorem Has.mono (h : t.Has n g s ts) (grown : g.Extends g')
    (more : ∀ {k : Nat} {s : TableState}, t.states[k]? = some s → t'.states[k]? = some s) :
    t'.Has n g' s ts :=
  ⟨more h.1, h.2.extend grown⟩

theorem Leads.mono (h : t.Leads n g target ts) (grown : g.Extends g')
    (more : ∀ {k : Nat} {s : TableState}, t.states[k]? = some s → t'.states[k]? = some s) :
    t'.Leads n g' target ts := by
  cases target with
  | dead => exact h
  | state s => exact ⟨h.1, h.2.mono grown more⟩

namespace Sound

theorem extend (h : t.Sound n g start) (grown : g.Extends g') : t.Sound n g' start where
  startState := h.startState
  states hs := by
    obtain ⟨number, generation, ts, stands⟩ := h.states hs
    exact ⟨number, generation, ts, stands.extend grown⟩
  begins hk := by
    obtain ⟨s, ts, number, has, begins⟩ := h.begins hk
    exact ⟨s, ts, number, has.mono grown fun h => h, begins⟩
  edges he := by
    obtain ⟨source, ts, target, ts', number, hentry, has, become, leads⟩ := h.edges he
    exact ⟨source, ts, target, ts', number, hentry, has.mono grown fun h => h, become,
      leads.mono grown fun h => h⟩

/-- A table without states and edges knows nothing that could be wrong. -/
theorem of_empty (startState : t.startState = start) (states : t.states = #[])
    (begins : t.start = none) (edges : t.edges = []) : t.Sound n g start where
  startState
  states hs := by simp [states] at hs
  begins hk := by cases begins.symm.trans hk
  edges he := by simp [edges] at he

/-- The start state of the table stands for the threads at the start of a match. -/
theorem start? (h : t.Sound n g start) (known : t.start? = some s) :
    ∃ ts, t.Has n g s ts ∧ Thread.Begins n start ts := by
  obtain ⟨k, hk, hs⟩ := Option.bind_eq_some_iff.1 known
  obtain ⟨s', ts, rfl, has, begins⟩ := h.begins hk
  obtain rfl := Option.some.inj (has.1.symm.trans hs)
  exact ⟨ts, has, begins⟩

/-- An edge of the table leads to what the threads of its source become. -/
theorem edge? (h : t.Sound n g start) (has : t.Has n g s ts)
    (known : t.edge? s x = some target) :
    ∃ ts', Thread.LeadTo n ts x ts' ∧ t.Leads n g target ts' := by
  rw [PredictionTable.edge?, if_pos (holds_of_stored has.1)] at known
  have written {number : Option Nat} (found : t.edges.lookup (s.number, x) = some number) :
      ((s.number, x), number) ∈ t.edges := by
    obtain ⟨before, behind, eq, -⟩ := List.lookup_eq_some_iff.1 found
    simp [eq]
  have leadsTo {number : Option Nat} (found : t.edges.lookup (s.number, x) = some number) :
      ∃ target ts', entry target = number ∧ Thread.LeadTo n ts x ts' ∧ t.Leads n g target ts' := by
    obtain ⟨source, ts₀, target, ts', number, rfl, has₀, become, leads⟩ := h.edges (written found)
    obtain rfl := Option.some.inj (has₀.1.symm.trans (number ▸ has.1))
    obtain rfl := has₀.2.unique has.2
    exact ⟨target, ts', rfl, become, leads⟩
  cases found : t.edges.lookup (s.number, x) with
  | none => simp [found] at known
  | some number =>
      rw [found] at known
      obtain ⟨target', ts', rfl, become, leads⟩ := leadsTo found
      refine ⟨ts', become, ?_⟩
      cases target' with
      | dead =>
          obtain rfl := Option.some.inj known
          exact leads
      | state s' =>
          have known : (t.states[s'.number]?).map TableTarget.state = some target := known
          rw [leads.2.1] at known
          obtain rfl := Option.some.inj known
          exact leads

/-- Adding a state that stands for threads. The answer is a state for the same threads. -/
theorem addState (h : t.Sound n g start) (stands : s.Stands n g ts) :
    (t.addState s).2.Sound n g start ∧ (t.addState s).2.Has n g (t.addState s).1 ts ∧
      ∀ {k : Nat} {s' : TableState}, t.states[k]? = some s' →
        (t.addState s).2.states[k]? = some s' := by
  unfold PredictionTable.addState
  split
  case h_1 existing found =>
      obtain ⟨k, hk⟩ := Array.mem_iff_getElem?.1 (Array.mem_of_find?_eq_some found)
      obtain ⟨rfl, -, ts', stands'⟩ := h.states hk
      have same := Array.find?_some found
      obtain rfl := stands'.configs.eq_of_same stands.configs same
      exact ⟨h, ⟨hk, stands'⟩, fun h => h⟩
  case h_2 =>
      have more {k : Nat} {s' : TableState} (hs : t.states[k]? = some s') :
          (t.states.push { s with number := t.states.size, generation := t.generation })[k]? =
            some s' := by
        rw [Array.getElem?_push, if_neg (Array.getElem?_eq_some_iff.1 hs).1.ne, hs]
      have new : TableState.Stands n g { s with number := t.states.size, generation := t.generation } ts :=
        ⟨stands.configs, stands.accepts, stands.token⟩
      refine ⟨⟨h.startState, fun {k s'} hs => ?_, fun hk => ?_, fun he => ?_⟩,
        ⟨by simp, new⟩, more⟩
      · rw [Array.getElem?_push] at hs
        split at hs
        case isTrue last =>
            obtain rfl := Option.some.inj hs
            exact ⟨last.symm, rfl, ts, new⟩
        case isFalse => exact h.states hs
      · obtain ⟨s', ts', number, has, begins⟩ := h.begins hk
        exact ⟨s', ts', number, has.mono (.refl g) more, begins⟩
      · obtain ⟨source, ts, target, ts', number, hentry, has, become, leads⟩ := h.edges he
        exact ⟨source, ts, target, ts', number, hentry, has.mono (.refl g) more, become,
          leads.mono (.refl g) more⟩

theorem setStart (h : t.Sound n g start) (has : t.Has n g s ts) (begins : Thread.Begins n start ts) :
    (t.setStart s).Sound n g start := by
  rw [PredictionTable.setStart, if_pos (holds_of_stored has.1)]
  exact { h with
    begins := fun hk => ⟨s, ts, Option.some.inj hk, has, begins⟩ }

theorem addEdge (h : t.Sound n g start) (has : t.Has n g s ts) (become : Thread.LeadTo n ts x ts')
    (leads : t.Leads n g target ts') : (t.addEdge s x target).Sound n g start := by
  have written : t.addEdge s x target =
      { t with edges := ((s.number, x), entry target) :: t.edges.filter (·.1 ≠ (s.number, x)) } := by
    cases target with
    | dead => simp only [PredictionTable.addEdge, holds_of_stored has.1, if_true, entry]
    | state s' =>
        simp only [PredictionTable.addEdge, holds_of_stored has.1, holds_of_stored leads.2.1, if_true, entry]
  rw [written]
  refine { h with edges := fun he => ?_ }
  rcases List.mem_cons.1 he with new | old
  · obtain ⟨key, rfl⟩ := Prod.mk.inj new
    obtain ⟨rfl, rfl⟩ := Prod.mk.inj key
    exact ⟨s, ts, target, ts', rfl, rfl, has, become, leads⟩
  · exact h.edges (List.mem_of_mem_filter old)

end Sound

@[simp] theorem states_setStart : (t.setStart s).states = t.states := by
  unfold setStart
  split <;> rfl

@[simp] theorem states_addEdge : (t.addEdge s x target).states = t.states := by
  unfold addEdge
  cases target <;> dsimp only <;> split <;> (try split) <;> rfl

end PredictionTable

end AdaptiveLL
