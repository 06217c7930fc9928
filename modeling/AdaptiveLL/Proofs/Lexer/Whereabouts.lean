import AdaptiveLL.Proofs.Lexer.Refinement
import AdaptiveLL.Proofs.Network.PastEnd
import AdaptiveLL.Proofs.Step.Contract
/-!
Where the threads of a lexer can be, whatever its predicates answer. A configuration stands at one
place of the network. A closure leads to places that silent moves lead to, those over labels for the
end of the input included, and a symbol leads to the places that are fed with it. Every closure comes
to its end where the silent moves do.
-/
namespace AdaptiveLL

open Relation (ReflTransGen)

/-- The command without its pins. -/
def LexerAction.core : LexerAction → LexerAction
  | pinned _ action => action.core
  | action => action

@[simp] theorem LexerAction.core_pin (offset : Nat) (a : LexerAction) :
    (a.pin offset).core = a.core := by
  unfold pin
  split <;> rfl

/-- The command is one of the network, be it pinned or not. -/
def Network.Commands (n : Network) (a : LexerAction) : Prop :=
  ∃ b ∈ n.actions, a.core = b.core

variable {n : Network} {g g' : StackGraph} {p p' : Place} {area area' : Set Place}
  {x : Symbol} {fuel : Nat}

namespace Configuration

variable {c c' : Configuration}

/-- The thread is at this place, with commands of the network. -/
structure Stands (n : Network) (g : StackGraph) (c : Configuration) (p : Place) : Prop where
  state : c.state = p.1
  stack : g.Holds c.stack p.2
  inRange : n.InRange p
  commands : ∀ a ∈ c.actions.getD [], n.Commands a

namespace Stands

theorem extend (h : c.Stands n g p) (grown : g.Extends g') : c.Stands n g' p :=
  { h with stack := grown.holds h.stack }

theorem unique (h : c.Stands n g p) (h' : c.Stands n g p') : p = p' :=
  Prod.ext (h.state.symm.trans h'.state) (h.stack.unique h'.stack)

theorem of_same (same : c'.same c = true) (h : c.Stands n g p) : c'.Stands n g p := by
  simp only [Configuration.same, Bool.and_eq_true, beq_iff_eq] at same
  obtain ⟨⟨⟨⟨⟨⟨state, -⟩, stack⟩, -⟩, -⟩, -⟩, actions⟩ := same
  exact ⟨state ▸ h.state, stack ▸ h.stack, h.inRange, actions ▸ h.commands⟩

/-- The thread has moved on along an edge or to its caller. -/
theorem move (h : c.Stands n g p) (q : Nat) (passed : Bool) {stack : Nat} {frames : List Nat}
    (holds : g.Holds stack frames) (inRange : n.InRange (q, frames)) :
    ({ c with state := q, passedNonGreedy := passed, stack } : Configuration).Stands n g
      (q, frames) :=
  ⟨rfl, holds, inRange, h.commands⟩

end Stands

end Configuration

namespace ConfigurationSet

variable {set set' : ConfigurationSet} {c : Configuration}

/-- The places of the threads of the set. -/
def places (n : Network) (g : StackGraph) (set : ConfigurationSet) : Set Place :=
  {p | ∃ c ∈ set.toList, c.Stands n g p}

/-- The set is one of a lexer, and its threads are at these places, where they can read or have
finished. -/
structure StandsIn (n : Network) (g : StackGraph) (set : ConfigurationSet) (area : Set Place) :
    Prop where
  ordered : set.ordered = true
  each : ∀ c ∈ set.toList, ∃ p ∈ area, c.Stands n g p ∧ n.Keeps p

namespace StandsIn

theorem mono (h : set.StandsIn n g area) (sub : area ⊆ area') : set.StandsIn n g area' where
  ordered := h.ordered
  each c mem := by
    obtain ⟨p, at_place, stands⟩ := h.each c mem
    exact ⟨p, sub at_place, stands⟩

theorem extend (h : set.StandsIn n g area) (grown : g.Extends g') : set.StandsIn n g' area where
  ordered := h.ordered
  each c mem := by
    obtain ⟨p, at_place, stands, keeps⟩ := h.each c mem
    exact ⟨p, at_place, stands.extend grown, keeps⟩

/-- The places of the set are among these places. -/
theorem places_subset (h : set.StandsIn n g area) : set.places n g ⊆ area := by
  rintro p ⟨c, mem, stands⟩
  obtain ⟨p', at_place, stands', -⟩ := h.each c mem
  exact stands.unique stands' ▸ at_place

theorem self (h : set.StandsIn n g area) : set.StandsIn n g (set.places n g) where
  ordered := h.ordered
  each c mem := by
    obtain ⟨p, -, stands, keeps⟩ := h.each c mem
    exact ⟨p, ⟨c, mem, stands⟩, stands, keeps⟩

theorem keeps (h : set.StandsIn n g area) (mem : p ∈ set.places n g) : n.Keeps p := by
  obtain ⟨c, inside, stands⟩ := mem
  obtain ⟨p', -, stands', keeps⟩ := h.each c inside
  exact stands.unique stands' ▸ keeps

theorem places_extend (h : set.StandsIn n g area) (grown : g.Extends g') :
    set.places n g' = set.places n g :=
  Set.Subset.antisymm (h.self.extend grown).places_subset fun _ ⟨c, mem, stands⟩ =>
    ⟨c, mem, stands.extend grown⟩

theorem nonempty (h : set.StandsIn n g area) (some : set.isEmpty = false) :
    (set.places n g).Nonempty := by
  obtain ⟨c, mem⟩ : ∃ c, c ∈ set.toList := by
    refine List.exists_mem_of_ne_nil _ fun none => ?_
    simp_all [ConfigurationSet.isEmpty, ConfigurationSet.toList]
  obtain ⟨p, -, stands, -⟩ := h.each c mem
  exact ⟨p, c, mem, stands⟩

theorem empty : ({ ordered := true } : ConfigurationSet).StandsIn n g area :=
  ⟨rfl, fun _ mem => absurd mem (by simp [ConfigurationSet.toList])⟩

theorem withGuards (h : set.StandsIn n g area) (hasGuards : Bool) :
    ({ set with hasGuards } : ConfigurationSet).StandsIn n g area :=
  ⟨h.ordered, h.each⟩

/-- Threads may be added at the places. -/
theorem add (h : set.StandsIn n g area) (at_place : p ∈ area) (stands : c.Stands n g p)
    (keeps : n.Keeps p) : (Scan.add set c).StandsIn n g area := by
  simp only [Scan.add, ConfigurationSet.insert, ConfigurationSet.add, h.ordered, if_true]
  split
  · refine ⟨rfl, fun c' mem => ?_⟩
    rcases List.mem_append.1 (Array.toList_push ▸ mem : c' ∈ set.items.toList ++ [c]) with old | new
    · exact h.each c' old
    · obtain rfl := List.mem_singleton.1 new
      exact ⟨p, at_place, stands, keeps⟩
  · exact ⟨rfl, h.each⟩

/-- Sets that are taken to be the same have the same places. -/
theorem of_same (same : set'.same set = true) (ordered : set'.ordered = true)
    (h : set.StandsIn n g area) : set'.StandsIn n g area := by
  refine ⟨ordered, fun c' mem => ?_⟩
  simp only [ConfigurationSet.same, Bool.and_eq_true, beq_iff_eq, List.all_eq_true] at same
  obtain ⟨⟨⟨⟨⟨⟨size, pairs⟩, -⟩, -⟩, -⟩, -⟩, -⟩ := same
  obtain ⟨k, here', rfl⟩ := List.mem_iff_getElem.1 mem
  have here : k < set.toList.length := here'.trans_eq size
  obtain ⟨p, at_place, stands, keeps⟩ := h.each set.toList[k] (List.getElem_mem here)
  refine ⟨p, at_place, stands.of_same (pairs (set'.toList[k], set.toList[k]) ?_), keeps⟩
  exact List.mem_iff_getElem.2 ⟨k, by simpa using ⟨here', here⟩, List.getElem_zip⟩

end StandsIn

end ConfigurationSet

namespace Scanner

variable {τ : Type} {s s' s'' : Scanner τ}

/-- The scanner has only thought: its stack graph may have grown, and its host may have answered. -/
def Ponders (s s' : Scanner τ) : Prop :=
  ∃ graph host, s.tables.graph.Extends graph ∧ s' = { s.withGraph graph with host }

namespace Ponders

theorem refl (s : Scanner τ) : s.Ponders s :=
  ⟨_, _, .refl _, rfl⟩

theorem trans (h : s.Ponders s') (h' : s'.Ponders s'') : s.Ponders s'' := by
  obtain ⟨g, host, grown, rfl⟩ := h
  obtain ⟨g', host', grown', rfl⟩ := h'
  exact ⟨g', host', grown.trans grown', rfl⟩

theorem extends_graph (h : s.Ponders s') : s.tables.graph.Extends s'.tables.graph := by
  obtain ⟨g, host, grown, rfl⟩ := h
  exact grown

end Ponders

end Scanner

namespace Network

/-- More than `fuel` silent moves may follow on each other. -/
def Tires (n : Network) (fuel : Nat) (p : Place) : Prop :=
  ∀ depth < fuel, ¬ n.pastEnd.SettlesWithin depth p

theorem Tires.zero : n.Tires 0 p :=
  fun _ lt => absurd lt (Nat.not_lt_zero _)

theorem Tires.silent (h : n.Tires fuel p') (move : n.pastEnd.Silent p p') : n.Tires (fuel + 1) p := by
  intro depth lt settles
  cases depth with
  | zero => exact settles p' move
  | succ depth => exact h depth (Nat.lt_of_succ_lt_succ lt) (settles p' move)

end Network

/-- The step ran out of fuel. -/
def Failure.IsFault : Failure → Prop
  | fault _ => True
  | _ => False

namespace Scan

open Step (Ensures)

variable {τ : Type} {u : LexerSetup τ} {c : Configuration} {s : Scanner τ} {mode : ClosureMode}
  {set : ConfigurationSet} {st : State} {accepted : Bool}

/-- A scanner crosses edges as silent moves do. -/
theorem cross_stands (wf : n.WellFormed) (small : n.states.size ≤ noState)
    (hu : u.grammar.network = n) (stands : c.Stands n s.tables.graph p)
    (here : n.states[c.state]? = some st) (inside : st.isRuleStop = false) {t : Transition}
    (mem : t ∈ st.transitions) : Ensures (cross u mode c t) s
      (fun found s' => s.Ponders s' ∧
        ∀ c' ∈ found, ∃ p', n.pastEnd.Silent p p' ∧ c'.Stands n s'.tables.graph p')
      fun _ _ => False := by
  subst hu
  obtain ⟨q, frames⟩ := p
  obtain rfl : c.state = q := stands.state
  have target_lt := wf.target_lt here mem
  obtain ⟨target, there⟩ : ∃ target, u.grammar.network.states[t.target]? = some target :=
    ⟨_, Array.getElem?_eq_getElem target_lt⟩
  have inRange : u.grammar.network.InRange (t.target, frames) := ⟨target_lt, stands.inRange.2⟩
  have moves (s' : Scanner τ) := run_move there c s'
  have moved (passed : Bool) := stands.move t.target passed stands.stack inRange
  have silent (plain : t.silently? frames = some (t.target, frames)) :
      u.grammar.network.pastEnd.Silent (c.state, frames) (t.target, frames) :=
    (Network.Silent.edge here inside mem plain).pastEnd
  cases t with
  | call target rule precedence follow =>
      have follow_lt := wf.follow_lt here mem
      have isState : follow ≠ noState := by omega
      obtain ⟨pushed, grown⟩ := StackGraph.push_spec isState stands.stack
      refine .bind (.of_ok (Step.run_get s) (.bind (.of_ok (Step.run_set s _) (.bind ?_))))
      refine .of_ok (moves _) (.of_ok rfl ⟨⟨_, _, grown, rfl⟩, ?_⟩)
      rintro _ ⟨⟩
      refine ⟨(target, follow :: frames), (Network.Silent.edge here inside mem rfl).pastEnd, ?_⟩
      exact ⟨rfl, pushed, ⟨target_lt, List.forall_mem_cons.2 ⟨follow_lt, stands.inRange.2⟩⟩,
        stands.commands⟩
  | precedence => exact .of_ok rfl ⟨.refl s, by simp⟩
  | predicate target rule index contextual =>
      refine .bind (.of_ok rfl ?_)
      refine .ite (fun _ => .bind (.of_ok (moves _) (.of_ok rfl ⟨⟨_, _, .refl _, rfl⟩, ?_⟩)))
        fun _ => .of_ok rfl ⟨⟨_, _, .refl _, rfl⟩, by simp⟩
      rintro _ ⟨⟩
      exact ⟨_, silent rfl, moved _⟩
  | action target rule index contextual =>
      refine .bind (.of_ok (moves s) (.bind (.of_ok rfl ?_)))
      split
      case h_1 action _ known =>
          obtain ⟨k, -, found⟩ := Option.bind_eq_some_iff.1 known
          refine .of_ok rfl ⟨.refl s, ?_⟩
          rintro _ ⟨⟩
          refine ⟨_, silent rfl, rfl, stands.stack, inRange, fun a mem => ?_⟩
          rcases List.mem_append.1 mem with old | new
          · exact stands.commands a old
          · obtain rfl := List.mem_singleton.1 new
            exact ⟨a, Array.mem_of_getElem? found, rfl⟩
      case h_2 =>
          refine .of_ok rfl ⟨.refl s, ?_⟩
          rintro _ ⟨⟩
          exact ⟨_, silent rfl, moved _⟩
  | epsilon =>
      refine .bind (.of_ok (moves s) (.of_ok rfl ⟨.refl s, ?_⟩))
      rintro _ ⟨⟩
      exact ⟨_, silent rfl, moved _⟩
  | atom | range | set =>
      refine .ite (fun crossed => .bind (.of_ok (moves s) (.of_ok rfl ⟨.refl s, ?_⟩)))
        fun _ => .of_ok rfl ⟨.refl s, by simp⟩
      rintro _ ⟨⟩
      have reads := (Bool.and_eq_true_iff.1 crossed).2
      have read : u.grammar.network.Reads 0 Symbol.lastChar Symbol.eof (c.state, frames) _ :=
        .edge here (fun stop => by cases inside.symm.trans stop) mem reads
      exact ⟨_, read.silent_pastEnd here inside, moved _⟩
  | notSet | wildcard => exact .of_ok rfl ⟨.refl s, by simp⟩

/-- A closure leads to places that silent moves lead to. -/
theorem close_stands (wf : n.WellFormed) (small : n.states.size ≤ noState)
    (hu : u.grammar.network = n) (stands : c.Stands n s.tables.graph p)
    (reached : ∀ p', ReflTransGen n.pastEnd.Silent p p' → p' ∈ area)
    (standsIn : set.StandsIn n s.tables.graph area) : Ensures (close u mode fuel c accepted set) s
      (fun found s' => s.Ponders s' ∧ found.2.StandsIn n s'.tables.graph area)
      fun e s' => s.Ponders s' ∧ e.IsFault ∧ n.Tires fuel p := by
  induction fuel generalizing c p s set accepted with
  | zero => exact .of_error rfl ⟨.refl s, trivial, .zero⟩
  | succ fuel ih =>
      obtain ⟨q, frames⟩ := p
      obtain rfl : c.state = q := stands.state
      obtain ⟨st, here⟩ : ∃ st, n.states[c.state]? = some st :=
        ⟨_, Array.getElem?_eq_getElem stands.inRange.1⟩
      have own := reached _ .refl
      cases stop : st.isRuleStop with
      | true =>
          cases frames with
          | nil =>
              have bottom : c.stack = 0 := stands.stack.eq_zero
              refine .of_ok (run_close_end hu here stop bottom) ⟨.refl s, ?_⟩
              exact standsIn.add own stands ⟨st, here, .inl ⟨stop, rfl⟩⟩
          | cons resume frames =>
              obtain ⟨called, isState, parent, node, below⟩ := stands.stack.node_cons
              have back : n.pastEnd.Silent (c.state, resume :: frames) (resume, frames) :=
                (Network.Silent.back here stop).pastEnd
              have inRange := stands.inRange.silent_pastEnd wf back
              obtain ⟨st', there⟩ : ∃ st', n.states[resume]? = some st' :=
                ⟨_, Array.getElem?_eq_getElem inRange.1⟩
              unfold Ensures
              rw [run_close_back hu here stop called node isState]
              refine Ensures.bind (.of_ok (run_move there c s) ?_)
              refine (ih (stands.move resume _ below inRange)
                (fun p' path => reached p' (.head back path)) standsIn).imp (fun _ _ => id) ?_
              rintro e s' ⟨ponders, fault, tires⟩
              exact ⟨ponders, fault, tires.silent back⟩
      | false =>
          unfold Ensures
          rw [run_close_inside hu here stop]
          refine Ensures.foldlM (P := fun (found : Bool × ConfigurationSet) s' => s.Ponders s' ∧
            found.2.StandsIn n s'.tables.graph area) ?_ ⟨.refl s, ?_⟩
          · rintro t mem ⟨accepted, found⟩ s₁ ⟨ponders, standsIn⟩
            refine .bind ((cross_stands wf small hu (stands.extend ponders.extends_graph) here stop
              mem).imp ?_ fun _ _ => False.elim)
            rintro crossed s₂ ⟨ponders₂, lands⟩
            have standsIn₂ := (standsIn.extend ponders₂.extends_graph).withGuards
              (found.hasGuards || isPredicate t)
            cases crossed with
            | none => exact .of_ok rfl ⟨ponders.trans ponders₂, standsIn₂⟩
            | some c' =>
                obtain ⟨p', move, stands'⟩ := lands c' rfl
                refine (ih stands' (fun p'' path => reached p'' (.head move path)) standsIn₂).imp ?_ ?_
                · rintro _ s₃ ⟨ponders₃, kept⟩
                  exact ⟨(ponders.trans ponders₂).trans ponders₃, kept⟩
                · rintro e s₃ ⟨ponders₃, fault, tires⟩
                  exact ⟨(ponders.trans ponders₂).trans ponders₃, fault, tires.silent move⟩
          · split
            case isTrue kept =>
                have reads : st.isEpsilonOnly = false := by simp_all
                exact standsIn.add own stands ⟨st, here, .inr ⟨stop, reads⟩⟩
            case isFalse => exact standsIn

/-- At the start of a match the threads are in the opening of the mode. -/
theorem startConfigs_stands (wf : n.WellFormed) (small : n.states.size ≤ noState)
    (hu : u.grammar.network = n) {start : Nat} (valid : start < n.states.size) :
    Ensures (startConfigs u start) s
      (fun found s' => s.Ponders s' ∧ found.StandsIn n s'.tables.graph (n.opening start))
      fun e s' => s.Ponders s' ∧ e.IsFault ∧ ∃ st e, n.states[start]? = some st ∧
        e ∈ st.transitions ∧ n.Tires u.fuel (e.target, []) := by
  obtain ⟨st, here⟩ : ∃ st, n.states[start]? = some st := ⟨_, Array.getElem?_eq_getElem valid⟩
  refine .bind (.of_ok (run_state hu here) ?_)
  refine .foldlM (P := fun (found : ConfigurationSet) s' => s.Ponders s' ∧
    found.StandsIn n s'.tables.graph (n.opening start)) ?_ ⟨.refl s, .empty⟩
  rintro ⟨t, i⟩ memIndexed found s₁ ⟨ponders, standsIn⟩
  have mem : t ∈ st.transitions := List.mem_of_getElem? (List.mem_zipIdx_iff_getElem?.1 memIndexed)
  have stands : ({ state := t.target, alt := i + 1 } : Configuration).Stands n s₁.tables.graph
      (t.target, []) :=
    ⟨rfl, .empty, ⟨wf.target_lt here mem, by simp⟩, by simp⟩
  have opens (p' : Place) (path : ReflTransGen n.pastEnd.Silent (t.target, []) p') :
      p' ∈ n.opening start := ⟨st, t, here, mem, path⟩
  refine .bind ((close_stands wf small hu stands opens standsIn).imp ?_ ?_)
  · rintro ⟨finished, found⟩ s₂ ⟨ponders₂, kept⟩
    exact .of_ok rfl ⟨ponders.trans ponders₂, kept⟩
  · rintro e s₂ ⟨ponders₂, fault, tires⟩
    exact ⟨ponders.trans ponders₂, fault, st, t, here, mem, tires⟩

/-- A thread that reads a symbol gets to places that are fed with it. -/
theorem advanceThread_stands (wf : n.WellFormed) (small : n.states.size ≤ noState)
    (hu : u.grammar.network = n) (stands : c.Stands n s.tables.graph p) (keeps : n.Keeps p)
    (here : n.states[c.state]? = some st) {ts : List Transition} (edges : ∀ t ∈ ts, t ∈ st.transitions)
    (fed : n.fed x {p} ⊆ area) (standsIn : set.StandsIn n s.tables.graph area) :
    Ensures (advanceThread u x c accepted ts set) s
      (fun found s' => s.Ponders s' ∧ found.2.StandsIn n s'.tables.graph area)
      fun e s' => s.Ponders s' ∧ e.IsFault ∧
        ∃ p₁, n.Reads 0 Symbol.lastChar x p p₁ ∧ n.Tires u.fuel p₁ := by
  induction ts generalizing s set with
  | nil => exact .of_ok rfl ⟨.refl s, standsIn⟩
  | cons t ts ih =>
      have rest : ∀ t ∈ ts, t ∈ st.transitions := fun t mem => edges t (.tail _ mem)
      rw [advanceThread]
      refine .ite (fun _ => ih stands rest standsIn) fun reading => ?_
      have mem : t ∈ st.transitions := edges t (.head _)
      obtain ⟨q, frames⟩ := p
      obtain rfl : c.state = q := stands.state
      have bottom : st.isRuleStop = true → frames = [] := by
        obtain ⟨st', here', kept⟩ := keeps
        obtain rfl := Option.some.inj (here.symm.trans here')
        intro stop
        simpa [stop] using kept
      have read : n.Reads 0 Symbol.lastChar x (c.state, frames) (t.target, frames) :=
        .edge here bottom mem (by simpa using reading)
      have inRange := stands.inRange.reads wf read
      obtain ⟨target, there⟩ : ∃ target, n.states[t.target]? = some target :=
        ⟨_, Array.getElem?_eq_getElem inRange.1⟩
      subst hu
      refine .bind (.of_ok (Step.run_get s) (.bind (.of_ok (run_move there c s) ?_)))
      have moved : Configuration.Stands u.grammar.network s.tables.graph
          { c with
            state := t.target
            passedNonGreedy := c.passedNonGreedy || u.grammar.network.isNonGreedy t.target
            actions := c.actions.map (·.pin (s.input.position - s.start)) } (t.target, frames) := by
        refine ⟨rfl, stands.stack, inRange, fun a mem => ?_⟩
        cases carried : c.actions with
        | none => simp [carried] at mem
        | some actions =>
            simp only [carried, Option.map_some, Option.getD_some, ActionList.pin] at mem
            obtain ⟨b, memB, rfl⟩ := List.mem_map.1 mem
            obtain ⟨known, memK, core⟩ := stands.commands b (by simpa [carried] using memB)
            exact ⟨known, memK, (LexerAction.core_pin _ b).trans core⟩
      refine .bind ((close_stands wf small rfl moved
        (fun p' path => fed ⟨_, rfl, _, read, path⟩) standsIn).imp ?_ ?_)
      · rintro ⟨finished, found⟩ s₁ ⟨ponders, standsIn₁⟩
        refine .ite (fun _ => .of_ok rfl ⟨ponders, standsIn₁⟩) fun _ => ?_
        refine (ih (stands.extend ponders.extends_graph) rest standsIn₁).imp ?_ ?_
        · rintro _ s₂ ⟨ponders₂, kept⟩
          exact ⟨ponders.trans ponders₂, kept⟩
        · rintro e s₂ ⟨ponders₂, failed⟩
          exact ⟨ponders.trans ponders₂, failed⟩
      · rintro e s₁ ⟨ponders, fault, tires⟩
        exact ⟨ponders, fault, _, read, tires⟩

/-- Threads that read a symbol get to places that are fed with it. -/
theorem reach_stands (wf : n.WellFormed) (small : n.states.size ≤ noState)
    (hu : u.grammar.network = n) (standsIn : set.StandsIn n s.tables.graph area) :
    Ensures (reach u set x) s
      (fun found s' => s.Ponders s' ∧
        found.StandsIn n s'.tables.graph (n.fed x (set.places n s.tables.graph)))
      fun e s' => s.Ponders s' ∧ e.IsFault ∧ ∃ p ∈ set.places n s.tables.graph,
        ∃ p₁, n.Reads 0 Symbol.lastChar x p p₁ ∧ n.Tires u.fuel p₁ := by
  refine .bind (.imp (.foldlM (P := fun (found : Option Nat × ConfigurationSet) s' => s.Ponders s' ∧
    found.2.StandsIn n s'.tables.graph (n.fed x (set.places n s.tables.graph))) ?_
    ⟨.refl s, .empty⟩) (fun found s' kept => .of_ok rfl kept) fun _ _ => id)
  rintro c mem ⟨finishedAlt, reached⟩ s₁ ⟨ponders, standsIn₁⟩
  obtain ⟨p, at_place, stands, keeps⟩ := standsIn.self.each c mem
  obtain ⟨st, here⟩ : ∃ st, n.states[c.state]? = some st :=
    ⟨_, Array.getElem?_eq_getElem (stands.state ▸ stands.inRange.1)⟩
  refine .ite (fun _ => .of_ok rfl ⟨ponders, standsIn₁⟩) fun _ => .bind ?_
  refine .of_ok (run_state hu here) (.bind ?_)
  refine (advanceThread_stands wf small hu (stands.extend ponders.extends_graph) keeps here
    (fun _ mem => mem) (Network.fed_mono (Set.singleton_subset_iff.2 at_place)) standsIn₁).imp ?_ ?_
  · rintro _ s₂ ⟨ponders₂, kept⟩
    exact .of_ok rfl ⟨ponders.trans ponders₂, kept⟩
  · rintro e s₂ ⟨ponders₂, fault, tires⟩
    exact ⟨ponders.trans ponders₂, fault, p, at_place, tires⟩

end Scan

end AdaptiveLL
