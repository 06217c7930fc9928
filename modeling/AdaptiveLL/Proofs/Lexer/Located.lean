import AdaptiveLL.Proofs.Lexer.Match
import AdaptiveLL.Proofs.Lexer.Whereabouts
/-!
Matches of a lexer with predicates. In a lexer none of whose token rules matches the empty text, a
match either moves on behind at least one character and gives the type and the commands of a token
rule, or finds an error, or stands at the end of the input, whatever matches have left in the
prediction tables (`matchToken_located`). It comes to its end with enough fuel.
-/
namespace AdaptiveLL

open Relation (ReflTransGen)

/-- The type and the commands are those of a token rule. -/
def Network.Gives (n : Network) (type : Symbol) (actions : Option ActionList) : Prop :=
  (∃ st ∈ n.states, st.isRuleStop = true ∧ type = (n.ruleTokens[st.rule]?).getD Symbol.eof) ∧
    ∀ a ∈ actions.getD [], n.Commands a

variable {n : Network} {g g' : StackGraph} {start : Nat} {x : Symbol} {area : Set Place}
  {state source target : TableState}

namespace TableState

/-- The threads of the state are at places of the network, and it accepts if one of them has
finished. -/
structure Located (n : Network) (g : StackGraph) (s : TableState) : Prop where
  configs : s.configs.StandsIn n g Set.univ
  accepts : s.isAccept = true ↔ ∃ p ∈ s.configs.places n g, n.IsEnd p
  gives : s.isAccept = true → n.Gives (s.tokenType.getD Symbol.eof) s.actions

/-- The symbol leads from the threads of one state to some threads of the other. -/
def Follows (n : Network) (g : StackGraph) (source : TableState) (x : Symbol) (target : TableState) :
    Prop :=
  target.configs.isEmpty = false ∧ target.configs.StandsIn n g (n.fed x (source.configs.places n g))

theorem Located.extend (h : state.Located n g) (grown : g.Extends g') : state.Located n g' where
  configs := h.configs.extend grown
  accepts := by rw [h.configs.places_extend grown, h.accepts]
  gives := h.gives

theorem Follows.extend (h : source.Follows n g x target) (located : source.Located n g)
    (grown : g.Extends g') : source.Follows n g' x target := by
  refine ⟨h.1, ?_⟩
  rw [located.configs.places_extend grown]
  exact h.2.extend grown

end TableState

/-- The proposal for threads at places of the network accepts if one of them has finished. -/
theorem Scan.proposal_located {set : ConfigurationSet} (standsIn : set.StandsIn n g area) :
    (proposal n set).Located n g := by
  have configs := standsIn.mono (Set.subset_univ area)
  unfold proposal
  split
  case h_1 c rule found =>
      obtain ⟨c', mem, eq⟩ := List.exists_of_findSome?_eq_some found
      obtain ⟨st, here, eq⟩ := Option.map_eq_some_iff.1 eq
      obtain ⟨rfl, rfl⟩ := Prod.mk.inj eq
      obtain ⟨known, stop⟩ := Option.filter_eq_some_iff.1 here
      obtain ⟨p, at_place, stands, st', here', kept⟩ := standsIn.self.each c' mem
      obtain rfl := Option.some.inj ((stands.state ▸ known).symm.trans here')
      have bottom : p.2 = [] := by simpa [stop] using kept
      refine ⟨configs, iff_of_true rfl ⟨p, at_place, bottom, st, here', stop⟩, fun _ => ?_⟩
      exact ⟨⟨st, Array.mem_of_getElem? known, stop, rfl⟩, stands.commands⟩
  case h_2 found =>
      refine ⟨configs, iff_of_false Bool.false_ne_true ?_, fun accepts => by cases accepts⟩
      rintro ⟨p, ⟨c, mem, stands⟩, -, st, here, stop⟩
      have none := List.findSome?_eq_none_iff.1 found c mem
      rw [stands.state, here] at none
      simp [stop] at none

namespace PredictionTable

variable {t t' : PredictionTable}

/-- The state is in the table. -/
def Lists (t : PredictionTable) (s : TableState) : Prop :=
  t.states[s.number]? = some s

/-- The states of the table are at places of the network, its start state in the opening of the
mode, and its edges lead to places that are fed with their symbols. -/
structure Located (n : Network) (g : StackGraph) (start : Nat) (t : PredictionTable) : Prop where
  startState : t.startState = start
  states : ∀ {k : Nat} {s : TableState}, t.states[k]? = some s → s.number = k ∧ s.Located n g
  begins : ∀ {k : Nat}, t.start = some k →
    ∃ s, t.states[k]? = some s ∧ s.configs.StandsIn n g (n.opening start)
  edges : ∀ {k k' : Nat} {x : Symbol}, ((k, x), some k') ∈ t.edges →
    ∃ source target, t.states[k]? = some source ∧ t.states[k']? = some target ∧
      source.Follows n g x target

namespace Located

theorem extend (h : t.Located n g start) (grown : g.Extends g') : t.Located n g' start where
  startState := h.startState
  states here := ⟨(h.states here).1, (h.states here).2.extend grown⟩
  begins known := by
    obtain ⟨s, here, opens⟩ := h.begins known
    exact ⟨s, here, opens.extend grown⟩
  edges written := by
    obtain ⟨source, target, here, there, follows⟩ := h.edges written
    exact ⟨source, target, here, there, follows.extend (h.states here).2 grown⟩

theorem of_empty (startState : t.startState = start) (states : t.states = #[])
    (begins : t.start = none) (edges : t.edges = []) : t.Located n g start where
  startState
  states here := by simp [states] at here
  begins known := by cases begins.symm.trans known
  edges written := by simp [edges] at written

/-- The start state that the table knows. -/
theorem start? (h : t.Located n g start) (known : t.start? = some state) :
    t.Lists state ∧ state.configs.StandsIn n g (n.opening start) := by
  obtain ⟨k, hk, here⟩ := Option.bind_eq_some_iff.1 known
  obtain ⟨s, here', opens⟩ := h.begins hk
  obtain rfl := Option.some.inj (here.symm.trans here')
  obtain ⟨rfl, -⟩ := h.states here
  exact ⟨here, opens⟩

/-- The state that an edge of the table leads to. -/
theorem edge? (h : t.Located n g start) (lists : t.Lists source)
    (known : t.edge? source x = some (.state target)) :
    t.Lists target ∧ source.Follows n g x target := by
  unfold PredictionTable.edge? at known
  split at known
  case isFalse => cases known
  case isTrue =>
      cases found : t.edges.lookup (source.number, x) with
      | none => simp [found] at known
      | some entry =>
          cases entry with
          | none => simp [found] at known
          | some k =>
              simp only [found, Option.map_eq_some_iff, TableTarget.state.injEq, exists_eq_right]
                at known
              obtain ⟨before, behind, eq, -⟩ := List.lookup_eq_some_iff.1 found
              have written : ((source.number, x), some k) ∈ t.edges := by simp [eq]
              obtain ⟨s, s', here, there, follows⟩ := h.edges written
              obtain rfl := Option.some.inj (here.symm.trans lists)
              obtain rfl := Option.some.inj (there.symm.trans known)
              obtain ⟨rfl, -⟩ := h.states there
              exact ⟨there, follows⟩

/-- Adding a state. The answer is in the table and has the same places. -/
theorem addState (h : t.Located n g start) (located : state.Located n g) :
    let added := t.addState state
    added.2.Located n g start ∧ added.2.Lists added.1 ∧
      (∀ {k : Nat} {s : TableState}, t.states[k]? = some s → added.2.states[k]? = some s) ∧
      added.1.configs.isEmpty = state.configs.isEmpty ∧
      ∀ {area : Set Place}, state.configs.StandsIn n g area → added.1.configs.StandsIn n g area := by
  unfold PredictionTable.addState
  split
  case h_1 existing found =>
      obtain ⟨k, here⟩ := Array.mem_iff_getElem?.1 (Array.mem_of_find?_eq_some found)
      obtain ⟨rfl, known⟩ := h.states here
      have same := Array.find?_some found
      refine ⟨h, here, fun here => here, ?_, fun standsIn => .of_same same known.configs.ordered standsIn⟩
      simp only [ConfigurationSet.same, Bool.and_eq_true, beq_iff_eq] at same
      have size : existing.configs.items.size = state.configs.items.size := same.1.1.1.1.1.1
      rw [ConfigurationSet.isEmpty, ConfigurationSet.isEmpty, Array.isEmpty, Array.isEmpty, size]
  case h_2 =>
      have more {k : Nat} {s : TableState} (here : t.states[k]? = some s) :
          (t.states.push { state with number := t.states.size, generation := t.generation })[k]? =
            some s := by
        rw [Array.getElem?_push, if_neg (Array.getElem?_eq_some_iff.1 here).1.ne, here]
      refine ⟨⟨h.startState, fun {k s} here => ?_, fun known => ?_, fun written => ?_⟩,
        by simp [Lists], more, rfl, fun standsIn => standsIn⟩
      · rw [Array.getElem?_push] at here
        split at here
        case isTrue last =>
            obtain rfl := Option.some.inj here
            exact ⟨last.symm, located.configs, located.accepts, located.gives⟩
        case isFalse => exact h.states here
      · obtain ⟨s, here, opens⟩ := h.begins known
        exact ⟨s, more here, opens⟩
      · obtain ⟨source, target, here, there, follows⟩ := h.edges written
        exact ⟨source, target, more here, more there, follows⟩

theorem setStart (h : t.Located n g start) (lists : t.Lists state)
    (opens : state.configs.StandsIn n g (n.opening start)) : (t.setStart state).Located n g start := by
  unfold PredictionTable.setStart
  split
  · exact { h with begins := fun known => ⟨state, Option.some.inj known ▸ lists, opens⟩ }
  · exact h

theorem addEdge (h : t.Located n g start) (lists : t.Lists source) {next : TableTarget}
    (follows : ∀ target, next = .state target → t.Lists target ∧ source.Follows n g x target) :
    (t.addEdge source x next).Located n g start := by
  have write (entry : Option Nat) (leads : ∀ k, entry = some k →
      ∃ target, t.states[k]? = some target ∧ source.Follows n g x target) :
      (if t.holds source then
        { t with edges :=
            ((source.number, x), entry) :: t.edges.filter (·.1 ≠ (source.number, x)) }
      else t).Located n g start := by
    split
    · refine { h with edges := fun written => ?_ }
      rcases List.mem_cons.1 written with new | old
      · obtain ⟨key, eq⟩ := Prod.mk.inj new
        obtain ⟨rfl, rfl⟩ := Prod.mk.inj key
        obtain ⟨target, there, follows⟩ := leads _ eq.symm
        exact ⟨source, target, lists, there, follows⟩
      · exact h.edges (List.mem_of_mem_filter old)
    · exact h
  cases next with
  | dead => exact write none fun k eq => by cases eq
  | state target =>
      obtain ⟨listed, leads⟩ := follows target rfl
      unfold PredictionTable.addEdge
      dsimp only
      split
      · exact write (some target.number) fun k eq => ⟨target, Option.some.inj eq ▸ listed, leads⟩
      · exact h

end Located

end PredictionTable

namespace Tables

structure Located (n : Network) (t : Tables) : Prop where
  size : t.tables.size = n.modes.size
  tables : ∀ {mode : Nat} {table : PredictionTable}, t.tables[mode]? = some table →
    ∃ start, n.modes[mode]? = some start ∧ table.Located n t.graph start

/-- The state is in the table of the mode. -/
def Lists (mode : Nat) (t : Tables) (s : TableState) : Prop :=
  ∃ table, t.tables[mode]? = some table ∧ table.Lists s

variable {t : Tables} {mode : Nat}

theorem Located.of_lists (h : t.Located n) (lists : t.Lists mode state) : state.Located n t.graph := by
  obtain ⟨table, found, here⟩ := lists
  obtain ⟨start, -, located⟩ := h.tables found
  exact (located.states here).2

theorem located_ofNetwork (lexer : n.kind = .lexer) : (ofNetwork n).Located n where
  size := by simp [ofNetwork, lexer]
  tables {mode table} found := by
    simp only [ofNetwork, lexer, Array.getElem?_mapIdx, Option.map_eq_some_iff] at found
    obtain ⟨start, hstart, rfl⟩ := found
    exact ⟨start, hstart, .of_empty rfl rfl rfl rfl⟩

theorem Located.clear (h : t.Located n) : t.clear.Located n where
  size := by simpa [Tables.clear] using h.size
  tables {mode table} found := by
    simp only [Tables.clear, Array.getElem?_map, Option.map_eq_some_iff] at found
    obtain ⟨old, hold, rfl⟩ := found
    obtain ⟨start, hstart, located⟩ := h.tables hold
    exact ⟨start, hstart, .of_empty located.startState rfl rfl rfl⟩

end Tables

namespace Scanner

variable {τ : Type} {mode : Nat} {s s' s'' : Scanner τ}

/-- The scanner stays where it is. Its host may have answered and its tables may have learned. -/
structure Advances (n : Network) (mode : Nat) (s s' : Scanner τ) : Prop where
  same : s' = { s with tables := s'.tables, host := s'.host }
  located : s'.tables.Located n
  grown : s.tables.graph.Extends s'.tables.graph
  lists : ∀ {state : TableState}, s.tables.Lists mode state → s'.tables.Lists mode state

namespace Advances

theorem refl (located : s.tables.Located n) : s.Advances n mode s :=
  ⟨rfl, located, .refl _, id⟩

theorem trans (h : s.Advances n mode s') (h' : s'.Advances n mode s'') : s.Advances n mode s'' := by
  refine ⟨?_, h'.located, h.grown.trans h'.grown, fun lists => h'.lists (h.lists lists)⟩
  rw [h'.same, h.same]

theorem input_eq (h : s.Advances n mode s') : s'.input = s.input := by
  rw [h.same]

theorem start_eq (h : s.Advances n mode s') : s'.start = s.start := by
  rw [h.same]

theorem of_ponders (located : s.tables.Located n) (h : s.Ponders s') : s.Advances n mode s' := by
  obtain ⟨g, host, grown, rfl⟩ := h
  refine ⟨rfl, ⟨located.size, fun found => ?_⟩, grown, id⟩
  obtain ⟨start, hstart, table⟩ := located.tables found
  exact ⟨start, hstart, table.extend grown⟩

/-- A table may be replaced by one with more states. -/
theorem of_table (located : s.tables.Located n) {table table' : PredictionTable}
    (found : s.tables.tables[mode]? = some table) (hstart : n.modes[mode]? = some start)
    (located' : table'.Located n s.tables.graph start)
    (more : ∀ {k : Nat} {state : TableState}, table.states[k]? = some state →
      table'.states[k]? = some state) :
    s.Advances n mode { s with tables := s.tables.modifyTable mode fun _ => table' } := by
  refine ⟨rfl, ⟨by simpa [Tables.modifyTable] using located.size, ?_⟩, .refl _, ?_⟩
  · intro m other h
    simp only [Tables.modifyTable, Array.getElem?_modify] at h
    split at h
    case isTrue eq =>
        subst eq
        rw [found] at h
        obtain rfl := Option.some.inj h
        exact ⟨start, hstart, located'⟩
    case isFalse => exact located.tables h
  · rintro state ⟨old, hold, here⟩
    obtain rfl := Option.some.inj (found.symm.trans hold)
    exact ⟨table', Tables.getElem?_modifyTable found table', more here⟩

end Advances

end Scanner

namespace Scan

open Step (Ensures)

variable {τ : Type} {u : LexerSetup τ} {mode : Nat} {s : Scanner τ}

theorem addState_located (hu : u.grammar.network = n) (located : s.tables.Located n)
    (valid : mode < n.modes.size) {set : ConfigurationSet}
    (standsIn : set.StandsIn n s.tables.graph area) :
    ∃ state s', (addState u mode set).run s = (.ok state, s') ∧ s.Advances n mode s' ∧
      s'.tables.Lists mode state ∧ state.configs.isEmpty = set.isEmpty ∧
      state.configs.StandsIn n s'.tables.graph area := by
  obtain ⟨table, found⟩ : ∃ table, s.tables.tables[mode]? = some table :=
    ⟨_, Array.getElem?_eq_getElem (located.size ▸ valid)⟩
  obtain ⟨start, hstart, tableLocated⟩ := located.tables found
  obtain ⟨located', lists, more, empty, area⟩ := tableLocated.addState (proposal_located standsIn)
  have configs : (proposal n set).configs = set := by
    unfold proposal
    split <;> rfl
  rw [configs] at empty area
  subst hu
  exact ⟨_, _, run_onTable _ found, .of_table located found hstart located' more,
    ⟨_, Tables.getElem?_modifyTable found _, lists⟩, empty, area standsIn⟩

theorem setStart_advances (located : s.tables.Located n) (hstart : n.modes[mode]? = some start)
    (lists : s.tables.Lists mode state)
    (opens : state.configs.StandsIn n s.tables.graph (n.opening start)) :
    ∃ s', (onTable mode fun table => ((), table.setStart state)).run s = (.ok (), s') ∧
      s.Advances n mode s' := by
  obtain ⟨table, found, here⟩ := lists
  obtain ⟨start', hstart', tableLocated⟩ := located.tables found
  obtain rfl := Option.some.inj (hstart.symm.trans hstart')
  exact ⟨_, run_onTable _ found, .of_table located found hstart (tableLocated.setStart here opens)
    fun h => by simpa using h⟩

theorem addEdge_advances (located : s.tables.Located n) (lists : s.tables.Lists mode source)
    {next : TableTarget} (follows : ∀ target, next = .state target →
      s.tables.Lists mode target ∧ source.Follows n s.tables.graph x target) :
    ∃ s', (onTable mode fun table => ((), table.addEdge source x next)).run s = (.ok (), s') ∧
      s.Advances n mode s' := by
  obtain ⟨table, found, here⟩ := lists
  obtain ⟨start, hstart, tableLocated⟩ := located.tables found
  refine ⟨_, run_onTable _ found, .of_table located found hstart
    (tableLocated.addEdge here fun target eq => ?_) fun h => by simpa using h⟩
  obtain ⟨⟨table', found', there⟩, leads⟩ := follows target eq
  obtain rfl := Option.some.inj (found.symm.trans found')
  exact ⟨there, leads⟩

/-- What a symbol leads to: a state that follows the source, if a state. -/
def Leads (n : Network) (mode : Nat) (s : Scanner τ) (source : TableState) (x : Symbol)
    (next : TableTarget) (s' : Scanner τ) : Prop :=
  s.Advances n mode s' ∧ ∀ target, next = .state target →
    s'.tables.Lists mode target ∧ source.Follows n s'.tables.graph x target

/-- A thread of the source gets tired when it has read the symbol. -/
def Tired (n : Network) (u : LexerSetup τ) (mode : Nat) (s : Scanner τ) (source : TableState)
    (x : Symbol) (e : Failure) (s' : Scanner τ) : Prop :=
  s.Advances n mode s' ∧ e.IsFault ∧ ∃ p ∈ source.configs.places n s.tables.graph,
    ∃ p₁, n.Reads 0 Symbol.lastChar x p p₁ ∧ n.Tires u.fuel p₁

theorem computeTarget_located (wf : n.WellFormed) (small : n.states.size ≤ noState)
    (hu : u.grammar.network = n) (located : s.tables.Located n)
    (lists : s.tables.Lists mode source) : Ensures (computeTarget u mode source x) s
      (Leads n mode s source x) (Tired n u mode s source x) := by
  have known := located.of_lists lists
  obtain ⟨table, found, -⟩ := id lists
  obtain ⟨start, hstart, -⟩ := located.tables found
  have valid : mode < n.modes.size := (Array.getElem?_eq_some_iff.1 hstart).1
  refine .bind ((reach_stands wf small hu known.configs).imp ?_ ?_)
  · rintro configs s₁ ⟨ponders, standsIn⟩
    have advances : s.Advances n mode s₁ := .of_ponders located ponders
    rw [← known.configs.places_extend ponders.extends_graph] at standsIn
    have record {s₂ : Scanner τ} (advances₂ : s.Advances n mode s₂) {next : TableTarget}
        (follows : ∀ target, next = .state target →
          s₂.tables.Lists mode target ∧ source.Follows n s₂.tables.graph x target) (c : Bool) :
        Ensures (if c = true then do
            onTable mode fun table => ((), table.addEdge source x next)
            return next
          else return next : Scan τ TableTarget) s₂ (Leads n mode s source x)
          (Tired n u mode s source x) := by
      refine .ite (fun _ => ?_) fun _ => .of_ok rfl ⟨advances₂, follows⟩
      obtain ⟨s₃, run, advances₃⟩ := addEdge_advances advances₂.located (advances₂.lists lists) follows
      refine .bind (.of_ok run (.of_ok rfl ⟨advances₂.trans advances₃, fun target eq => ?_⟩))
      obtain ⟨listed, leads⟩ := follows target eq
      exact ⟨advances₃.lists listed, leads.extend (known.extend advances₂.grown) advances₃.grown⟩
    refine .ite (fun _ => ?_) fun some => ?_
    · exact record advances (fun target eq => by cases eq) _
    · obtain ⟨state, s₂, run, advances₂, listed, empty, stands⟩ :=
        addState_located hu advances.located valid (standsIn.withGuards false)
      have entered : (enter u mode configs).run s₁ = (.ok (state, configs.hasGuards), s₂) :=
        Step.run_bind_ok run
      refine .bind (.of_ok entered ?_)
      refine @record _ (advances.trans advances₂) (.state state) (fun target eq => ?_) _
      obtain rfl := TableTarget.state.inj eq
      refine ⟨listed, empty.trans (by simpa [ConfigurationSet.isEmpty] using some), ?_⟩
      rwa [(known.extend advances.grown).configs.places_extend advances₂.grown]
  · rintro e s₁ ⟨ponders, failed⟩
    exact ⟨.of_ponders located ponders, failed⟩

/-- Where a symbol leads, be it found in the table or computed. -/
theorem target_located (wf : n.WellFormed) (small : n.states.size ≤ noState)
    (hu : u.grammar.network = n) (located : s.tables.Located n)
    (lists : s.tables.Lists mode source) : Ensures (Scan.target u mode source x) s
      (Leads n mode s source x) (Tired n u mode s source x) := by
  obtain ⟨table, found, here⟩ := id lists
  obtain ⟨start, hstart, tableLocated⟩ := located.tables found
  refine .bind (.of_ok (run_onTable_read
    (fun table => if 0 ≤ x then table.edge? source x else none) found) ?_)
  cases known : (if 0 ≤ x then table.edge? source x else none) with
  | none => exact computeTarget_located wf small hu located lists
  | some next =>
      refine .of_ok rfl ⟨.refl located, ?_⟩
      rintro target rfl
      split at known
      case isFalse => cases known
      case isTrue =>
          obtain ⟨there, follows⟩ := tableLocated.edge? here known
          exact ⟨⟨table, found, there⟩, follows⟩

/-- Where a match begins, be it found in the table or computed. -/
theorem startState_located (wf : n.WellFormed) (small : n.states.size ≤ noState)
    (hu : u.grammar.network = n) (located : s.tables.Located n)
    (hstart : n.modes[mode]? = some start) : Ensures (startState u mode) s
      (fun state s' => s.Advances n mode s' ∧ s'.tables.Lists mode state ∧
        state.configs.StandsIn n s'.tables.graph (n.opening start))
      fun e s' => s.Advances n mode s' ∧ e.IsFault ∧ ∃ st e, n.states[start]? = some st ∧
        e ∈ st.transitions ∧ n.Tires u.fuel (e.target, []) := by
  have valid : mode < n.modes.size := (Array.getElem?_eq_some_iff.1 hstart).1
  obtain ⟨table, found⟩ : ∃ table, s.tables.tables[mode]? = some table :=
    ⟨_, Array.getElem?_eq_getElem (located.size ▸ valid)⟩
  obtain ⟨start', hstart', tableLocated⟩ := located.tables found
  obtain rfl := Option.some.inj (hstart.symm.trans hstart')
  refine .bind (.of_ok (run_onTable_read PredictionTable.start? found) ?_)
  cases known : table.start? with
  | some state =>
      obtain ⟨here, opens⟩ := tableLocated.start? known
      exact .of_ok rfl ⟨.refl located, ⟨table, found, here⟩, opens⟩
  | none =>
      refine .bind (.of_ok (run_onTable_read PredictionTable.startState found) (.bind ?_))
      rw [tableLocated.startState]
      refine (startConfigs_stands wf small hu (wf.mode_lt hstart)).imp ?_ ?_
      · rintro configs s₁ ⟨ponders, opens⟩
        have advances : s.Advances n mode s₁ := .of_ponders located ponders
        obtain ⟨state, s₂, run, advances₂, listed, -, opens₂⟩ :=
          addState_located hu advances.located valid (opens.withGuards false)
        have entered : (enter u mode configs).run s₁ = (.ok (state, configs.hasGuards), s₂) :=
          Step.run_bind_ok run
        have both := advances.trans advances₂
        refine .bind (.of_ok entered (.ite (fun _ => ?_) fun _ => .of_ok rfl ⟨both, listed, opens₂⟩))
        obtain ⟨s₃, run, advances₃⟩ := setStart_advances both.located hstart listed opens₂
        exact .bind (.of_ok run (.of_ok rfl
          ⟨both.trans advances₃, advances₃.lists listed, opens₂.extend advances₃.grown⟩))
      · rintro e s₁ ⟨ponders, failed⟩
        exact ⟨.of_ponders located ponders, failed⟩

/-- The scanner is in the text `cs`, not before the start of the match. -/
structure Passes (n : Network) (start : Nat) (cs : Array Char) (s : Scanner τ) : Prop where
  located : s.tables.Located n
  chars : s.input.chars = cs
  begun : start ≤ s.input.position
  inside : s.input.position ≤ cs.size

/-- What is remembered of a match is a token rule that has ended behind the start of the match. -/
structure Notes (n : Network) (start : Nat) (cs : Array Char) (a : Acceptance) : Prop where
  begun : start < a.position
  inside : a.position ≤ cs.size
  gives : n.Gives (a.state.tokenType.getD Symbol.eof) a.state.actions

/-- What a match gives: the type and the commands of a token rule behind at least one character, or
the end of the input where it began. -/
def Gets (n : Network) (start : Nat) (cs : Array Char) (m : Match) (s : Scanner τ) : Prop :=
  (start < s.input.position ∧ n.Gives m.type m.actions) ∨
    m = { type := Symbol.eof } ∧ s.input.position = start ∧ start = cs.size

section Reading

variable {last : Option Acceptance} {cs : Array Char}

theorem Passes.advances {s' : Scanner τ} (passes : Passes n start cs s)
    (h : s.Advances n mode s') : Passes n start cs s' :=
  ⟨h.located, h.input_eq ▸ passes.chars, h.input_eq ▸ passes.begun, h.input_eq ▸ passes.inside⟩

theorem Passes.length_remaining (passes : Passes n start cs s) :
    s.input.remaining.length = cs.size - s.input.position := by
  rw [CharStream.length_remaining, CharStream.size, passes.chars]

/-- A character is ahead, if not the end of the input. -/
theorem Passes.ahead (passes : Passes n start cs s) :
    (s.input.lookahead 1 = Symbol.eof ∧ s.input.remaining = [] ∧ s.input.position = cs.size) ∨
      s.input.lookahead 1 ≠ Symbol.eof ∧ s.input.position < cs.size ∧
        s.input.remaining = s.input.lookahead 1 :: s.consume.input.remaining := by
  have length := passes.length_remaining
  have inside := passes.inside
  rw [CharStream.lookahead_one]
  cases ahead : s.input.remaining with
  | nil =>
      rw [ahead, List.length_nil] at length
      exact .inl ⟨rfl, rfl, by omega⟩
  | cons c rest =>
      have char := (CharStream.char_of_mem_remaining (ahead ▸ List.mem_cons_self : c ∈ _)).1
      rw [ahead, List.length_cons] at length
      refine .inr ⟨?_, by omega, ?_⟩
      · rw [List.headD_cons]
        rintro rfl
        exact absurd char (by decide)
      · have within : s.input.position ≤ s.input.size := by
          rw [CharStream.size, passes.chars]
          exact inside
        rw [Scanner.input_consume, CharStream.remaining_consume within, ahead]
        rfl

theorem Passes.consume (passes : Passes n start cs s) (more : s.input.position < cs.size) :
    Passes n start cs s.consume ∧ s.consume.input.position = s.input.position + 1 := by
  have moved : s.consume.input.position = s.input.position + 1 := by
    rw [Scanner.input_consume, CharStream.consume, CharStream.size, passes.chars]
    exact Nat.min_eq_left more
  refine ⟨⟨?_, ?_, ?_, ?_⟩, moved⟩
  · rw [Scanner.tables_consume]
    exact passes.located
  · rw [Scanner.input_consume]
    exact passes.chars
  · rw [moved]
    exact Nat.le_succ_of_le passes.begun
  · rw [moved]
    exact more

theorem acceptance_notes (passes : Passes n start cs s) (known : state.Located n s.tables.graph)
    (behind : state.isAccept = true → start < s.input.position)
    (noted : ∀ a ∈ last, Notes n start cs a) : Ensures (acceptance state last) s
      (fun last' s' => s' = s ∧ ∀ a ∈ last', Notes n start cs a) fun _ _ => False := by
  unfold acceptance
  split
  case isTrue => exact .of_ok rfl ⟨rfl, noted⟩
  case isFalse accepts =>
      have accepts : state.isAccept = true := by simpa using accepts
      refine .of_ok rfl ⟨rfl, ?_⟩
      rintro _ ⟨⟩
      exact ⟨behind accepts, passes.inside, known.gives accepts⟩

/-- The end of a match. -/
theorem conclude_located (passes : Passes n s.start cs s) (noted : ∀ a ∈ last, Notes n s.start cs a) :
    Ensures (conclude source (s.input.lookahead 1) last) s
      (fun m s' => Passes n s.start cs s' ∧ Gets n s.start cs m s')
      fun e s' => Passes n s.start cs s' ∧ ∃ error, e = .recoverable error := by
  refine .bind (.of_ok (Step.run_get s) ?_)
  cases last with
  | some a =>
      have noted := noted a rfl
      have position : (s.input.seek a.position).position = a.position := by
        rw [CharStream.seek, CharStream.size, passes.chars]
        exact Nat.min_eq_left noted.inside
      refine .bind (.of_ok (Step.run_set s _) (.of_ok rfl ⟨⟨passes.located, passes.chars, ?_, ?_⟩, ?_⟩))
      · exact noted.begun.le.trans_eq position.symm
      · exact position.trans_le noted.inside
      · exact .inl ⟨noted.begun.trans_eq position.symm, noted.gives⟩
  | none =>
      refine .ite (fun ended => .of_ok rfl ⟨passes, .inr ⟨rfl, ended.2, ?_⟩⟩)
        fun _ => .of_error rfl ⟨passes, _, rfl⟩
      rcases passes.ahead with ⟨-, -, atEnd⟩ | ⟨more, -⟩
      · exact ended.2.symm.trans atEnd
      · exact absurd ended.1 more

/-- Reading on from a state of the table. -/
theorem readOn_located (wf : n.WellFormed) (small : n.states.size ≤ noState)
    (hu : u.grammar.network = n) (endless : ∀ p ∈ n.opening start, ¬ n.IsEnd p) (fuel : Nat)
    (passes : Passes n s.start cs s) (lists : s.tables.Lists mode source)
    (fresh : s.input.position = s.start →
      source.configs.places n s.tables.graph ⊆ n.opening start)
    (noted : ∀ a ∈ last, Notes n s.start cs a) : Ensures (readOn u mode fuel source last) s
      (fun m s' => Passes n s.start cs s' ∧ Gets n s.start cs m s')
      fun e s' => Passes n s.start cs s' ∧ ((∃ error, e = .recoverable error) ∨
        e.IsFault ∧ ∀ depth < u.fuel, ¬ n.Manages depth fuel s.input.remaining
          (source.configs.places n s.tables.graph)) := by
  induction fuel generalizing s source last with
  | zero =>
      refine .of_error rfl ⟨passes, .inr ⟨trivial, fun depth _ manages => ?_⟩⟩
      exact absurd manages.pos (Nat.lt_irrefl 0)
  | succ fuel ih =>
      have known := passes.located.of_lists lists
      rw [readOn]
      refine .bind (.of_ok (Step.run_get s) (.bind ?_))
      refine (target_located wf small hu passes.located lists).imp ?_ ?_
      · rintro next s₁ ⟨advances, leads⟩
        have passes₁ : Passes n s₁.start cs s₁ := advances.start_eq ▸ passes.advances advances
        have noted₁ : ∀ a ∈ last, Notes n s₁.start cs a := advances.start_eq ▸ noted
        rw [← advances.input_eq, ← advances.start_eq]
        cases next with
        | dead =>
            exact (conclude_located passes₁ noted₁).imp (fun _ _ => id)
              fun e s' ends => ⟨ends.1, .inl ends.2⟩
        | state next =>
            obtain ⟨listed, some, standsIn⟩ := leads next rfl
            have known₁ := advances.located.of_lists listed
            have sub := standsIn.places_subset
            rw [known.configs.places_extend advances.grown] at sub
            have keeps := fun p => known.configs.keeps (p := p)
            dsimp only
            rcases passes₁.ahead with ⟨atEnd, none, -⟩ | ⟨more, inside, ahead⟩
            · -- At the end of the input.
              rw [if_pos atEnd]
              rw [← advances.input_eq, atEnd] at sub
              have fresh₁ (here : s₁.input.position = s₁.start) :
                  next.configs.places n s₁.tables.graph ⊆ n.opening start := by
                rw [advances.input_eq, advances.start_eq] at here
                exact sub.trans (Network.fed_eof_subset endless (fresh here) keeps)
              refine .ite (fun accepts => ?_) fun going => ?_
              · have behind : s₁.start < s₁.input.position := by
                  refine lt_of_le_of_ne passes₁.begun fun here => ?_
                  obtain ⟨p, mem, isEnd⟩ := known₁.accepts.1 accepts
                  exact endless p (fresh₁ here.symm mem) isEnd
                refine .bind ((acceptance_notes passes₁ known₁ (fun _ => behind) noted₁).imp ?_
                  fun _ _ => False.elim)
                rintro last' _ ⟨rfl, noted'⟩
                exact (conclude_located passes₁ noted').imp (fun _ _ => id)
                  fun e s' ends => ⟨ends.1, .inl ends.2⟩
              · refine (ih passes₁ listed fresh₁ noted₁).imp (fun _ _ => id) ?_
                rintro e s' ⟨kept, failed⟩
                refine ⟨kept, failed.imp_right fun tired => ⟨tired.1, fun depth lt manages => ?_⟩⟩
                refine tired.2 depth lt ?_
                rw [none] at manages ⊢
                refine manages.ended sub (known₁.configs.nonempty some) fun p mem => ?_
                exact ⟨known₁.configs.keeps mem, fun isEnd => going (known₁.accepts.2 ⟨p, mem, isEnd⟩)⟩
            · -- Before a character.
              rw [if_neg more]
              obtain ⟨passes₂, moved⟩ := passes₁.consume inside
              have start_eq : s₁.consume.start = s₁.start := Scanner.start_consume s₁
              have behind : s₁.start < s₁.consume.input.position := by
                rw [moved]
                exact Nat.lt_succ_of_le passes₁.begun
              rw [← Scanner.tables_consume s₁] at known₁ listed
              refine .bind (.of_ok (Step.run_modify _ s₁) (.bind ?_))
              refine (acceptance_notes passes₂ known₁ (fun _ => behind) noted₁).imp ?_
                fun _ _ => False.elim
              rintro last' _ ⟨rfl, noted'⟩
              rw [← start_eq] at passes₂ noted' behind ⊢
              refine (ih passes₂ listed (fun here => absurd here behind.ne') noted').imp
                (fun _ _ => id) ?_
              rintro e s' ⟨kept, failed⟩
              refine ⟨kept, failed.imp_right fun tired => ⟨tired.1, fun depth lt manages => ?_⟩⟩
              refine tired.2 depth lt ?_
              rw [ahead] at manages
              rw [Scanner.tables_consume]
              exact manages.char (advances.input_eq ▸ sub)
      · rintro e s₁ ⟨advances, fault, p, mem, p₁, read, tires⟩
        refine ⟨passes.advances advances, .inr ⟨fault, fun depth lt manages => tires depth lt ?_⟩⟩
        rw [CharStream.lookahead_one] at read
        exact manages.reads mem read

/-- A match gets what it can, or finds an error. If the fuel is enough for the places where the mode
begins, it does not run out. -/
theorem matchToken_located (wf : n.WellFormed) (small : n.states.size ≤ noState)
    (hu : u.grammar.network = n) (endless : ∀ start ∈ n.modes, ∀ p ∈ n.opening start, ¬ n.IsEnd p)
    (located : s.tables.Located n) (inside : s.input.position ≤ s.input.size) (mode : Nat) :
    Ensures (matchToken u mode) s
      (fun m s' => Passes n s.input.position s.input.chars s' ∧
        Gets n s.input.position s.input.chars m s')
      fun e s' => Passes n s.input.position s.input.chars s' ∧
        ((∃ error, e = .recoverable error) ∨ e.IsFault ∧ ∃ start ∈ n.modes, ∀ depth < u.fuel,
          ¬ n.Manages depth u.fuel s.input.remaining (n.opening start)) := by
  have passes₀ : Passes n s.input.position s.input.chars (begun s) :=
    ⟨⟨located.size, located.tables⟩, rfl, Nat.le_refl _, inside⟩
  have released : Ensures (if mode < s.tables.tables.size then do
        let start ← startState u mode
        readOn u mode u.fuel start (← acceptance start none)
      else
        throw (.recoverable {
          kind := .noToken s.input.position none
          text? := some ("no such lexer mode: " ++ toString mode) }) : Scan τ Match) (begun s)
      (fun m s' => Passes n s.input.position s.input.chars s' ∧
        Gets n s.input.position s.input.chars m s')
      fun e s' => Passes n s.input.position s.input.chars s' ∧
        ((∃ error, e = .recoverable error) ∨ e.IsFault ∧ ∃ start ∈ n.modes, ∀ depth < u.fuel,
          ¬ n.Manages depth u.fuel s.input.remaining (n.opening start)) := by
    refine .ite (fun valid => ?_) fun _ => .of_error rfl ⟨passes₀, .inl ⟨_, rfl⟩⟩
    obtain ⟨start, hstart⟩ : ∃ start, n.modes[mode]? = some start :=
      ⟨_, Array.getElem?_eq_getElem (located.size ▸ valid)⟩
    have memStart := Array.mem_of_getElem? hstart
    refine .bind ((startState_located wf small hu passes₀.located hstart).imp ?_ ?_)
    · rintro source s₁ ⟨advances, lists, opens⟩
      have known := advances.located.of_lists lists
      have passes₁ : Passes n s₁.start s.input.chars s₁ :=
        advances.start_eq ▸ passes₀.advances advances
      have unfinished : source.isAccept = true → s₁.start < s₁.input.position := fun accepts => by
        obtain ⟨p, mem, isEnd⟩ := known.accepts.1 accepts
        exact absurd isEnd (endless start memStart p (opens.places_subset mem))
      have nothing : ∀ a ∈ (none : Option Acceptance), Notes n s₁.start s.input.chars a :=
        fun a mem => (Option.not_mem_none a mem).elim
      refine .bind ((acceptance_notes passes₁ known unfinished nothing).imp ?_
        fun _ _ => False.elim)
      rintro last _ ⟨rfl, noted⟩
      have reads := readOn_located wf small hu (endless start memStart) u.fuel passes₁ lists
        (fun _ => opens.places_subset) noted
      rw [advances.start_eq, advances.input_eq] at reads
      refine reads.imp (fun _ _ => id) fun e s' ends => ⟨ends.1, ends.2.imp_right ?_⟩
      rintro ⟨fault, lacks⟩
      exact ⟨fault, start, memStart, fun depth lt manages =>
        lacks depth lt (manages.mono opens.places_subset)⟩
    · rintro e s₁ ⟨advances, fault, st, t, here, mem, tires⟩
      refine ⟨passes₀.advances advances, .inr ⟨fault, start, memStart, fun depth lt manages => ?_⟩⟩
      exact tires depth lt (manages.settles ⟨st, t, here, mem, .refl⟩)
  unfold Ensures at released ⊢
  rw [run_matchToken]
  dsimp only
  split at released <;> rename_i run <;> rw [run] <;> exact
    ⟨⟨released.1.located, released.1.chars, released.1.begun, released.1.inside⟩, released.2⟩

end Reading

end Scan

namespace Tables

/-- No history of matches leaves anything else in the tables. -/
theorem Cached.located (wf : n.WellFormed) (small : n.states.size ≤ noState) (lexer : n.kind = .lexer)
    (endless : ∀ start ∈ n.modes, ∀ p ∈ n.opening start, ¬ n.IsEnd p) {t : Tables}
    (h : Cached n t) : t.Located n := by
  induction h with
  | fresh => exact located_ofNetwork lexer
  | matched u hu mode s inside _ ih =>
      exact ((Scan.matchToken_located wf small hu endless ih inside mode).imp
        (fun _ _ kept => kept.1.located) fun _ _ kept => kept.1.located).state
  | cleared _ ih => exact ih.clear

end Tables

end AdaptiveLL
