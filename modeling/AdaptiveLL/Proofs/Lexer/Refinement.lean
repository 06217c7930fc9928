import AdaptiveLL.Proofs.Lexer.Thread
import AdaptiveLL.Proofs.Network.WellFormed
import AdaptiveLL.Proofs.Prediction.StackGraph
import AdaptiveLL.Proofs.Step
/-!
Scanners compute with threads. A configuration of a lexer stands for one thread, and a
configuration set for a list of different threads; closures and reading steps of a scanner
yield what the functions on threads yield, and change nothing but the stack graph, which grows.
-/
namespace AdaptiveLL

open StackGraph (Holds Extends Distinct)

/-- No edge asks a predicate. -/
def Network.IsUnguarded (n : Network) : Prop :=
  ∀ s ∈ n.states, ∀ e ∈ s.transitions, Scan.isPredicate e = false

instance (n : Network) : Decidable n.IsUnguarded :=
  inferInstanceAs (Decidable (∀ s ∈ n.states, ∀ e ∈ s.transitions, Scan.isPredicate e = false))

/-- What scanners need of a network in order to follow threads. The number that stands for no
state is no state. -/
structure Network.IsScannable (n : Network) : Prop where
  wf : n.WellFormed
  small : n.states.size ≤ noState
  unguarded : n.IsUnguarded

/-- What scanners need of some states of a network in order to follow threads there. Threads do
not leave these states, no edge of theirs asks a predicate, and the number that stands for no state
is none to go back to. -/
structure Network.IsScannableIn (n : Network) (area : Set Nat) : Prop where
  wf : n.WellFormed
  target : ∀ {q : Nat} {s : State} {e : Transition}, q ∈ area → n.states[q]? = some s →
    e ∈ s.transitions → s.isRuleStop = false ∨ e.isEpsilon = false → e.target ∈ area
  unguarded : ∀ {q : Nat} {s : State} {e : Transition}, q ∈ area → n.states[q]? = some s →
    s.isRuleStop = false → e ∈ s.transitions → Scan.isPredicate e = false
  follow : ∀ {q : Nat} {s : State} {target rule follow : Nat} {level : Int}, q ∈ area →
    n.states[q]? = some s → s.isRuleStop = false → .call target rule level follow ∈ s.transitions →
    follow ∈ area ∧ follow ≠ noState

/-- Scanners can follow the threads with which a match begins. -/
structure Network.IsScannableFrom (n : Network) (start : Nat) (area : Set Nat) : Prop
    extends n.IsScannableIn area where
  opens : ∀ {s : State} {e : Transition}, n.states[start]? = some s → e ∈ s.transitions →
    e.target ∈ area

/-- Without predicates, threads can be followed wherever they go. -/
theorem Network.IsScannable.everywhere {n : Network} (h : n.IsScannable) (start : Nat) :
    n.IsScannableFrom start Set.univ where
  wf := h.wf
  target _ _ _ _ := trivial
  unguarded _ here _ mem := h.unguarded _ (Array.mem_of_getElem? here) _ mem
  follow _ here _ mem := by
    have := h.wf.follow_lt here mem
    have := h.small
    exact ⟨trivial, by omega⟩
  opens _ _ := trivial

theorem Transition.isEpsilon_of_reads {e : Transition} {x low high : Symbol}
    (reads : e.reads x low high = true) : e.isEpsilon = false := by
  cases e with
  | atom | range | set | notSet | wildcard => rfl
  | epsilon | call | predicate | precedence | action => cases reads

namespace Thread

section Areas

variable {n : Network} {area : Set Nat} {t t' : Thread} {ts ts' : List Thread} {s : State}
  {e : Transition} {x : Symbol}

/-- The thread is in the area, and so is all that it goes back to. -/
def IsIn (area : Set Nat) (t : Thread) : Prop :=
  t.state ∈ area ∧ ∀ q ∈ t.frames, q ∈ area

theorem IsIn.back {resume : Nat} {frames : List Nat} (h : t.IsIn area)
    (called : t.frames = resume :: frames) : (t.back n resume frames).IsIn area :=
  List.forall_mem_cons.1 (called ▸ h.2)

theorem IsIn.cross {crossEof : Bool} (scannable : n.IsScannableIn area) (h : t.IsIn area)
    (here : n.states[t.state]? = some s) (inside : s.isRuleStop = false) (mem : e ∈ s.transitions)
    (crossed : t.cross n crossEof e = some t') : t'.IsIn area := by
  have moved : (t.move n e.target).IsIn area :=
    ⟨scannable.target h.1 here mem (.inl inside), h.2⟩
  cases e with
  | call target rule level follow =>
      obtain rfl := Option.some.inj crossed
      have back := scannable.follow h.1 here inside mem
      exact ⟨moved.1, List.forall_mem_cons.2 ⟨back.1, h.2⟩⟩
  | action =>
      simp only [Thread.cross] at crossed
      split at crossed <;> obtain rfl := Option.some.inj crossed <;> exact moved
  | epsilon =>
      obtain rfl := Option.some.inj crossed
      exact moved
  | atom | range | set =>
      simp only [Thread.cross] at crossed
      split at crossed
      · obtain rfl := Option.some.inj crossed
        exact moved
      · cases crossed
  | notSet | wildcard | precedence | predicate => cases crossed

theorem IsIn.read (scannable : n.IsScannableIn area) (h : t.IsIn area)
    (here : n.states[t.state]? = some s) (mem : e ∈ s.transitions)
    (reads : e.reads x 0 Symbol.lastChar = true) (offset : Nat) : (t.read n offset e).IsIn area :=
  ⟨scannable.target h.1 here mem (.inr (Transition.isEpsilon_of_reads reads)), h.2⟩

theorem settle_isIn {crossEof accepted b : Bool} {fuel : Nat} {new : List Thread}
    (scannable : n.IsScannableIn area) (h : t.IsIn area)
    (settled : t.settle n crossEof fuel accepted = some (b, new)) : ∀ t' ∈ new, t'.IsIn area :=
  fun t' mem => (settle_all (fun _ _ _ _ _ _ called inside => inside.back called)
    (fun _ _ _ _ here inside mem crossed isIn => isIn.cross scannable here inside mem crossed)
    h settled t' mem).1

theorem reach_isIn {fuel offset : Nat} (scannable : n.IsScannableIn area)
    (h : ∀ t ∈ ts, t.IsIn area) (reached : reach n fuel offset ts x = some ts') :
    ∀ t ∈ ts', t.IsIn area :=
  reach_all (fun t mem _ _ here memE reads _ _ _ settled =>
    settle_isIn scannable ((h t mem).read scannable here memE reads offset) settled) reached

theorem starts_isIn {fuel start : Nat} (scannable : n.IsScannableFrom start area)
    (begins : starts n fuel start = some ts) : ∀ t ∈ ts, t.IsIn area :=
  starts_all_of_mem (fun _ _ here mem _ _ _ settled =>
    settle_isIn scannable.toIsScannableIn ⟨scannable.opens here mem, by simp⟩ settled) begins

end Areas

variable {g g' : StackGraph} {c c' : Configuration} {t t' : Thread} {set : ConfigurationSet}
  {ts ts' : List Thread}

/-- The configuration that stands for the thread, given the node of its stack. -/
def configuration (t : Thread) (stack : Nat) : Configuration :=
  { state := t.state, alt := t.alt, stack, actions := t.actions
    passedNonGreedy := t.passedNonGreedy }

/-- The configuration stands for the thread. -/
def Represents (g : StackGraph) (c : Configuration) (t : Thread) : Prop :=
  ∃ stack, g.Holds stack t.frames ∧ c = t.configuration stack

/-- The configuration set stands for the list of threads. -/
def RepresentsAll (g : StackGraph) (set : ConfigurationSet) (ts : List Thread) : Prop :=
  ∃ items : Array Configuration, set = { items, ordered := true } ∧
    List.Forall₂ (Represents g) items.toList ts

theorem Represents.extend (h : Represents g c t) (grown : g.Extends g') : Represents g' c t := by
  obtain ⟨stack, holds, rfl⟩ := h
  exact ⟨stack, grown.holds holds, rfl⟩

theorem RepresentsAll.extend (h : RepresentsAll g set ts) (grown : g.Extends g') :
    RepresentsAll g' set ts := by
  obtain ⟨items, rfl, each⟩ := h
  exact ⟨items, rfl, each.imp fun _ _ h => h.extend grown⟩

theorem RepresentsAll.isEmpty_iff (h : RepresentsAll g set ts) : set.isEmpty = true ↔ ts = [] := by
  obtain ⟨items, rfl, each⟩ := h
  rw [← List.length_eq_zero_iff, ← each.length_eq, Array.length_toList]
  simp [ConfigurationSet.isEmpty]

theorem representsAll_nil (g : StackGraph) : RepresentsAll g { ordered := true } [] :=
  ⟨#[], rfl, .nil⟩

/-- Configurations that are taken to be the same stand for the same thread. -/
theorem Represents.eq_of_same (h : Represents g c t) (h' : Represents g c' t')
    (same : c.same c' = true) : t = t' := by
  obtain ⟨stack, holds, rfl⟩ := h
  obtain ⟨stack', holds', rfl⟩ := h'
  simp only [Configuration.same, configuration, Bool.and_eq_true, beq_iff_eq] at same
  obtain ⟨⟨⟨⟨⟨⟨state, alt⟩, rfl⟩, -⟩, -⟩, passed⟩, actions⟩ := same
  have frames := holds.unique holds'
  cases t
  cases t'
  simp_all

/-- Configuration sets that are taken to be the same stand for the same threads. -/
theorem RepresentsAll.eq_of_same {set' : ConfigurationSet} (h : RepresentsAll g set ts)
    (h' : RepresentsAll g set' ts') (same : set.same set' = true) : ts = ts' := by
  obtain ⟨⟨items⟩, rfl, each⟩ := h
  obtain ⟨⟨items'⟩, rfl, each'⟩ := h'
  simp only [ConfigurationSet.same, ConfigurationSet.size, ConfigurationSet.toList,
    Bool.and_eq_true, beq_iff_eq, List.size_toArray, List.all_eq_true, and_true] at same
  obtain ⟨size, pairs⟩ := same
  change List.Forall₂ (Represents g) items ts at each
  change List.Forall₂ (Represents g) items' ts' at each'
  induction each generalizing items' ts' with
  | nil =>
      obtain rfl := List.length_eq_zero_iff.1 size.symm
      cases each'
      rfl
  | cons head _ ih =>
      cases each' with
      | nil => cases size
      | cons head' each' =>
          rw [List.zip_cons_cons, List.forall_mem_cons] at pairs
          rw [head.eq_of_same head' pairs.1, ih _ (Nat.succ.inj size) pairs.2 each']

theorem Represents.same_iff (distinct : g.Distinct) (h : Represents g c t)
    (h' : Represents g c' t') : c.same c' = true ↔ t = t' := by
  refine ⟨h.eq_of_same h', ?_⟩
  rintro rfl
  obtain ⟨stack, holds, rfl⟩ := h
  obtain ⟨stack', holds', rfl⟩ := h'
  obtain rfl := holds.injective distinct holds'
  simp [Configuration.same]

theorem forall_not_same_iff (distinct : g.Distinct) (h : Represents g c t)
    {items : List Configuration} (each : List.Forall₂ (Represents g) items ts) :
    (∀ c' ∈ items, c.same c' = false) ↔ t ∉ ts := by
  induction each with
  | nil => simp
  | cons head _ ih =>
      rw [List.forall_mem_cons, List.mem_cons, not_or, ih, ← h.same_iff distinct head,
        Bool.not_eq_true]

theorem RepresentsAll.add (distinct : g.Distinct) (h : RepresentsAll g set ts)
    (hc : Represents g c t) : RepresentsAll g (Scan.add set c) (enlist ts t) := by
  obtain ⟨items, rfl, each⟩ := h
  have unguarded : c.guard.isAlways = true ∧ c.outerDepth = 0 := by
    obtain ⟨stack, -, rfl⟩ := hc
    exact ⟨rfl, rfl⟩
  have known : items.findIdx? c.same = none ↔ t ∉ ts := by
    rw [Array.findIdx?_eq_none_iff, ← forall_not_same_iff distinct hc each]
    simp only [Array.mem_toList_iff]
  simp only [Scan.add, ConfigurationSet.insert, ConfigurationSet.add, unguarded, Bool.not_true,
    Bool.or_false, Nat.lt_irrefl, decide_false, if_true]
  split
  case h_1 missing =>
      rw [enlist, if_neg (known.1 missing)]
      exact ⟨items.push c, rfl, by simpa using List.rel_append each (.cons hc .nil)⟩
  case h_2 found =>
      have mem : t ∈ ts := by
        by_contra new
        simp [known.2 new] at found
      rw [enlist, if_pos mem]
      exact ⟨items, rfl, each⟩

end Thread

namespace Scanner

variable {τ : Type} {s s' s'' : Scanner τ}

/-- The scanner with another stack graph. -/
def withGraph (s : Scanner τ) (graph : StackGraph) : Scanner τ :=
  { s with tables := { s.tables with arena := { s.tables.arena with graph } } }

/-- The scanner is the same but for new nodes of its stack graph. -/
def Widens (s s' : Scanner τ) : Prop :=
  ∃ graph, s.tables.graph.Extends graph ∧ s' = s.withGraph graph

namespace Widens

theorem refl (s : Scanner τ) : s.Widens s :=
  ⟨_, .refl _, rfl⟩

theorem trans (h : s.Widens s') (h' : s'.Widens s'') : s.Widens s'' := by
  obtain ⟨g, grown, rfl⟩ := h
  obtain ⟨g', grown', rfl⟩ := h'
  exact ⟨g', grown.trans grown', rfl⟩

theorem extends_graph (h : s.Widens s') : s.tables.graph.Extends s'.tables.graph := by
  obtain ⟨g, grown, rfl⟩ := h
  exact grown

end Widens

end Scanner

namespace Scan

open Thread (IsIn Represents RepresentsAll settle enlist)

variable {τ : Type} {u : LexerSetup τ} {n : Network} {c : Configuration} {t : Thread}
  {s s₀ : Scanner τ}

/-- The step agrees with a computation on threads, and only widens the scanner. -/
abbrev Follows {α β : Type} (x : Scan τ α) (s : Scanner τ) (result : Option β)
    (After : β → α → Scanner τ → Prop) : Prop :=
  Step.Agrees x s result (fun b a s' => s.Widens s' ∧ After b a s') s.Widens

theorem run_move {q : Nat} {st : State} (here : n.states[q]? = some st) (c : Configuration)
    (s : Scanner τ) :
    (move n c q).run s =
      (.ok { c with state := q, passedNonGreedy := c.passedNonGreedy || n.isNonGreedy q }, s) := by
  simp only [move, Network.state, here, Step.ofQuestion, Network.isNonGreedy]
  rfl

theorem run_move_missing {q : Nat} (missing : n.states[q]? = none) (c : Configuration)
    (s : Scanner τ) : (move n c q).run s = (.error (.fault (.noSuchState q)), s) := by
  simp only [move, Network.state, missing, Step.ofQuestion]
  rfl

theorem run_inTokenRule {stack : Nat} (holds : s.tables.graph.Holds stack t.frames) :
    (inTokenRule (t.configuration stack)).run s = (.ok t.frames.isEmpty, s) := by
  have answer : (stack == 0 || (s.tables.graph.node stack).hasEmptyStack) = t.frames.isEmpty := by
    cases hf : t.frames with
    | nil =>
        rw [hf] at holds
        obtain rfl := holds.eq_zero
        rfl
    | cons resume frames =>
        rw [hf] at holds
        obtain ⟨nonzero, isState, parent, node, -⟩ := holds.node_cons
        simp [nonzero, node, StackNode.hasEmptyStack, StackNode.entries, isState]
  rw [← answer]
  rfl

/-- A scanner crosses the edges that a thread crosses. -/
theorem cross_follows {area : Set Nat} (scannable : n.IsScannableIn area) (known : t.IsIn area)
    (hu : u.grammar.network = n) (mode : ClosureMode) {st : State}
    (here : n.states[t.state]? = some st) (inside : st.isRuleStop = false) {e : Transition}
    (mem : e ∈ st.transitions) (rep : Represents s.tables.graph c t) :
    Follows (cross u mode c e) s (some (t.cross n mode.crossEof e))
      fun t' c' s' => Option.Rel (fun c t => Represents s'.tables.graph c t) c' t' := by
  obtain ⟨target, there⟩ : ∃ target, n.states[e.target]? = some target :=
    ⟨_, Array.getElem?_eq_getElem (scannable.wf.target_lt here mem)⟩
  obtain ⟨stack, holds, rfl⟩ := rep
  subst hu
  have moved : Represents s.tables.graph
      { t.configuration stack with
        state := e.target
        passedNonGreedy := t.passedNonGreedy || u.grammar.network.isNonGreedy e.target }
      (t.move u.grammar.network e.target) := ⟨stack, holds, rfl⟩
  cases e with
  | predicate => cases scannable.unguarded known.1 here inside mem
  | precedence => exact ⟨_, _, rfl, .refl s, .none⟩
  | epsilon q _ =>
      refine ⟨_, _, Step.run_bind_ok (run_move there _ s), .refl s, .some moved⟩
  | call q rule precedence follow =>
      obtain ⟨-, isState⟩ := scannable.follow known.1 here inside mem
      obtain ⟨pushed, grown⟩ := StackGraph.push_spec isState holds
      refine ⟨_, s.withGraph (s.tables.graph.push stack follow).2, ?_, ⟨_, grown, rfl⟩,
        .some ⟨_, pushed, rfl⟩⟩
      refine (Step.run_bind_ok (Step.run_get s)).trans ?_
      refine (Step.run_bind_ok (Step.run_set s _)).trans ?_
      exact (Step.run_bind_ok (run_move there _ _)).trans rfl
  | action q rule index contextual =>
      refine Step.Agrees.bind_ok (run_move there _ s) ?_
      refine Step.Agrees.bind_ok (run_inTokenRule holds) ?_
      cases hf : t.frames.isEmpty <;> cases ha : index.bind (u.grammar.network.actions[·]?) <;>
        simp only [Thread.cross, hf, ha]
      case true.some action => exact ⟨_, _, rfl, .refl s, .some ⟨stack, holds, rfl⟩⟩
      all_goals exact ⟨_, _, rfl, .refl s, .some moved⟩
  | atom q _ | range q _ _ | set q _ =>
      simp only [cross, Thread.cross]
      split
      case isTrue => exact ⟨_, _, Step.run_bind_ok (run_move there _ s), .refl s, .some moved⟩
      case isFalse => exact ⟨_, _, rfl, .refl s, .none⟩
  | notSet | wildcard => exact ⟨_, _, rfl, .refl s, .none⟩

section Close

variable {mode : ClosureMode} {fuel : Nat} {accepted : Bool} {set : ConfigurationSet} {st : State}

theorem run_state (hu : u.grammar.network = n) {q : Nat} (here : n.states[q]? = some st) :
    (Step.ofQuestion (u.grammar.network.state q)).run s = (.ok st, s) := by
  rw [hu, Network.state, here]
  rfl

theorem run_close_missing (hu : u.grammar.network = n) (missing : n.states[c.state]? = none) :
    (close u mode (fuel + 1) c accepted set).run s =
      (.error (.fault (.noSuchState c.state)), s) := by
  rw [close, hu, Network.state, missing]
  rfl

/-- At the end of the token rule, the thread has finished. -/
theorem run_close_end (hu : u.grammar.network = n) (here : n.states[c.state]? = some st)
    (stop : st.isRuleStop = true) (bottom : c.stack = 0) :
    (close u mode (fuel + 1) c accepted set).run s = (.ok (true, add set c), s) := by
  rw [close, Step.run_bind_ok (run_state hu here), if_pos stop, if_pos bottom]
  rfl

/-- At the end of a rule that was called, the closure goes on with the caller. -/
theorem run_close_back {resume parent : Nat} (hu : u.grammar.network = n)
    (here : n.states[c.state]? = some st) (stop : st.isRuleStop = true) (called : c.stack ≠ 0)
    (node : s.tables.graph.node c.stack = .frame parent resume) (isState : resume ≠ noState) :
    (close u mode (fuel + 1) c accepted set).run s =
      (do
        let returned ← move n c resume
        close u mode fuel { returned with stack := parent } accepted set : Scan τ _).run s := by
  rw [close, Step.run_bind_ok (run_state hu here), if_pos stop, if_neg called,
    Step.run_bind_ok (Step.run_get s)]
  simp [node, StackNode.hasEmptyStack, StackNode.entries, isState, hu]

/-- Inside of a rule, the closure keeps the thread if it can read, and crosses the edges. -/
theorem run_close_inside (hu : u.grammar.network = n) (here : n.states[c.state]? = some st)
    (inside : st.isRuleStop = false) :
    (close u mode (fuel + 1) c accepted set).run s =
      (st.transitions.foldlM
        (fun (accepted, configs) e => do
          let configs := { configs with hasGuards := configs.hasGuards || isPredicate e }
          match ← cross u mode c e with
          | none => return (accepted, configs)
          | some target => close u mode fuel target accepted configs)
        (accepted, if !st.isEpsilonOnly && (!accepted || !c.passedNonGreedy) then add set c else set)
        : Scan τ _).run s := by
  rw [close, Step.run_bind_ok (run_state hu here)]
  exact congrArg (fun step : Scan τ _ => step.run s) (if_neg (by simp [inside]))

end Close

/-- What a closure has found so far, and the threads that were there before it. -/
def Settled (ts : List Thread) (b : Bool × List Thread) (a : Bool × ConfigurationSet)
    (s : Scanner τ) : Prop :=
  a.1 = b.1 ∧ RepresentsAll s.tables.graph a.2 (b.2.foldl enlist ts)

/-- A closure of a scanner finds what a thread becomes. -/
theorem close_follows {area : Set Nat} (scannable : n.IsScannableIn area)
    (hu : u.grammar.network = n) (mode : ClosureMode) (fuel : Nat) {set : ConfigurationSet}
    {ts : List Thread} (accepted : Bool) (distinct : s.tables.graph.Distinct)
    (known : t.IsIn area) (rep : Represents s.tables.graph c t)
    (reps : RepresentsAll s.tables.graph set ts) :
    Follows (close u mode fuel c accepted set) s (settle n mode.crossEof fuel accepted t)
      (Settled ts) := by
  induction fuel generalizing c t s set ts accepted with
  | zero => exact .throw (.refl s)
  | succ fuel ih =>
      have rep' := rep
      obtain ⟨stack, holds, rfl⟩ := rep'
      cases here : n.states[t.state]? with
      | none =>
          rw [Thread.settle_missing here]
          exact ⟨_, s, run_close_missing hu here, .refl s⟩
      | some st =>
          rw [settle, here, Option.bind_eq_bind, Option.bind_some]
          cases stop : st.isRuleStop with
          | true =>
              rw [if_pos rfl]
              cases hf : t.frames with
              | nil =>
                  obtain rfl := (hf ▸ holds).eq_zero
                  exact ⟨_, s, run_close_end hu here stop rfl, .refl s, rfl, reps.add distinct rep⟩
              | cons resume frames =>
                  obtain ⟨called, isState, parent, node, below⟩ := (hf ▸ holds).node_cons
                  refine .of_run_eq (run_close_back hu here stop called node isState) ?_
                  cases there : n.states[resume]? with
                  | none =>
                      simp only [Thread.settle_missing (t := t.back n resume frames) there]
                      exact ⟨_, s, Step.run_bind_error (run_move_missing there _ s), .refl s⟩
                  | some q =>
                      refine .bind_ok (run_move there _ s)
                        (ih accepted distinct (known.back hf) ?_ reps)
                      exact ⟨parent, below, rfl⟩
          | false =>
              rw [if_neg Bool.false_ne_true]
              refine .of_run_eq (run_close_inside hu here stop) (.foldlM_mem _ ?_ ⟨.refl s, rfl, ?_⟩)
              · rintro e mem ⟨_, settled⟩ ⟨accepted, set⟩ s' ⟨widens, rfl, reps⟩
                have unasked := scannable.unguarded known.1 here stop mem
                simp only [unasked, Bool.or_false]
                obtain ⟨out, s'', run, wider, crossed⟩ := cross_follows scannable known hu mode here
                  stop mem (rep.extend widens.extends_graph)
                refine .bind_ok run ?_
                have wide := widens.trans wider
                cases hc : t.cross n mode.crossEof e with
                | none =>
                    rw [hc] at crossed
                    cases crossed
                    exact .pure ⟨wide, rfl, reps.extend wider.extends_graph⟩
                | some t' =>
                    rw [hc] at crossed
                    cases crossed with
                    | some rep' =>
                        have closed := ih accepted (wide.extends_graph.distinct distinct)
                          (known.cross scannable here stop mem hc) rep'
                          (reps.extend wider.extends_graph)
                        simp only [Option.bind_eq_bind]
                        refine .map (fun b => (b.1, settled ++ b.2)) closed ?_
                          fun _ wider => wide.trans wider
                        rintro ⟨accepted, new⟩ ⟨_, set⟩ s''' ⟨wider, rfl, reps⟩
                        exact ⟨wide.trans wider, rfl, by rwa [List.foldl_append]⟩
              · by_cases own : (!st.isEpsilonOnly && (!accepted || !t.passedNonGreedy)) = true
                · simp only [Thread.configuration, own, if_true]
                  exact reps.add distinct rep
                · simp only [Thread.configuration, own]
                  exact reps

/-- A match begins with the threads at its start. -/
theorem startConfigs_follows {area : Set Nat} {start : Nat}
    (scannable : n.IsScannableFrom start area) (hu : u.grammar.network = n)
    (distinct : s.tables.graph.Distinct) :
    Follows (startConfigs u start) s (Thread.starts n u.fuel start)
      fun ts set s' => RepresentsAll s'.tables.graph set ts := by
  rw [startConfigs, Thread.starts]
  cases here : n.states[start]? with
  | none =>
      refine ⟨.noSuchState start, s, ?_, .refl s⟩
      rw [hu, Network.state, here]
      rfl
  | some st =>
      refine .bind_ok (run_state hu here) ?_
      rw [Option.bind_eq_bind, Option.bind_some]
      refine .foldlM_mem _ ?_ ⟨.refl s, Thread.representsAll_nil _⟩
      rintro ⟨e, i⟩ edge ts set s' ⟨widens, reps⟩
      have mem : e ∈ st.transitions := List.mem_of_getElem? (List.mem_zipIdx_iff_getElem?.1 edge)
      have known : IsIn area { state := e.target, alt := i + 1 } :=
        ⟨scannable.opens here mem, by simp⟩
      have rep : Represents s'.tables.graph { state := e.target, alt := i + 1 }
          { state := e.target, alt := i + 1 } := ⟨0, .empty, rfl⟩
      have closed := close_follows scannable.toIsScannableIn hu ⟨false, false⟩ u.fuel false
        (widens.extends_graph.distinct distinct) known rep reps
      have after := closed.imp (fun _ _ _ h => (⟨widens.trans h.1, h.2⟩ : s.Widens _ ∧ _))
        fun _ wider => widens.trans wider
      simp only [Option.bind_eq_bind]
      refine after.bind ?_
      rintro ⟨_, new⟩ ⟨_, set⟩ s'' ⟨wider, rfl, reps⟩
      exact .pure ⟨wider, reps⟩

/-- A thread that reads a symbol becomes in the scanner what it becomes by itself. -/
theorem advanceThread_follows {area : Set Nat} (scannable : n.IsScannableIn area)
    (hu : u.grammar.network = n) (x : Symbol) (accepted : Bool) (known : t.IsIn area) {st : State} (here : n.states[t.state]? = some st) {es : List Transition}
    (edges : ∀ e ∈ es, e ∈ st.transitions) {set : ConfigurationSet} {ts : List Thread}
    (distinct : s.tables.graph.Distinct) (rep : Represents s.tables.graph c t)
    (reps : RepresentsAll s.tables.graph set ts) :
    Follows (advanceThread u x c accepted es set) s
      (t.advance n u.fuel (s.input.position - s.start) x accepted es) (Settled ts) := by
  subst hu
  induction es generalizing s set ts with
  | nil => exact .pure ⟨.refl s, rfl, reps⟩
  | cons e es ih =>
      have rest : ∀ e ∈ es, e ∈ st.transitions := fun e mem => edges e (.tail _ mem)
      rw [advanceThread, Thread.advance]
      cases reads : e.reads x 0 Symbol.lastChar with
      | false => exact ih rest distinct rep reps
      | true =>
          obtain ⟨target, there⟩ : ∃ target, u.grammar.network.states[e.target]? = some target :=
            ⟨_, Array.getElem?_eq_getElem (scannable.wf.target_lt here (edges e (.head _)))⟩
          obtain ⟨stack, holds, rfl⟩ := id rep
          simp only [Bool.not_true, Bool.false_eq_true, if_false, if_true]
          refine .bind_ok (Step.run_get s) ?_
          refine .bind_ok (run_move there _ s) ?_
          have read : Represents s.tables.graph _
              (t.read u.grammar.network (s.input.position - s.start) e) := ⟨stack, holds, rfl⟩
          have closed := close_follows scannable rfl ⟨true, x == Symbol.eof⟩ u.fuel accepted distinct
            (known.read scannable here (edges e (.head _)) reads _) read reps
          simp only [Option.bind_eq_bind]
          refine .bind closed ?_
          rintro ⟨_, new⟩ ⟨finished, set⟩ s' ⟨widens, rfl, reps⟩
          cases finished with
          | true => exact .pure ⟨widens, rfl, reps⟩
          | false =>
              obtain ⟨g, grown, rfl⟩ := id widens
              refine .map (fun b => (b.1, new ++ b.2))
                (ih (s := s.withGraph g) rest (grown.distinct distinct) (rep.extend grown) reps) ?_
                fun _ wider => widens.trans wider
              rintro ⟨_, others⟩ ⟨finished, set⟩ s' ⟨wider, rfl, reps⟩
              exact ⟨widens.trans wider, rfl, by rwa [List.foldl_append]⟩

/-- A list of threads that reads a symbol becomes in the scanner what it becomes by itself. -/
theorem reach_follows {area : Set Nat} (scannable : n.IsScannableIn area)
    (hu : u.grammar.network = n) (x : Symbol) {set : ConfigurationSet} {ts : List Thread}
    (distinct : s.tables.graph.Distinct) (known : ∀ t ∈ ts, t.IsIn area)
    (reps : RepresentsAll s.tables.graph set ts) :
    Follows (reach u set x) s (Thread.reach n u.fuel (s.input.position - s.start) ts x)
      fun ts' set' s' => RepresentsAll s'.tables.graph set' ts' := by
  subst hu
  obtain ⟨items, rfl, each⟩ := reps
  rw [reach, Thread.reach]
  simp only [Option.bind_eq_bind]
  have each : List.Forall₂ (fun c t => t.IsIn area ∧ Represents s.tables.graph c t) items.toList ts :=
    ((List.forall₂_and_left ts items.toList).2 ⟨known, each.flip⟩).flip
  refine .bind (.foldlM (fun b a s' => s.Widens s' ∧ a.1 = b.1 ∧
    RepresentsAll s'.tables.graph a.2 b.2) each ?_ ⟨.refl s, rfl, Thread.representsAll_nil _⟩) ?_
  · rintro c t ⟨known, rep⟩ ⟨_, reached⟩ ⟨finishedAlt, set⟩ s' ⟨widens, rfl, reps⟩
    obtain ⟨g, grown, rfl⟩ := id widens
    have rep' := rep.extend grown
    have fields : c.alt = t.alt ∧ c.passedNonGreedy = t.passedNonGreedy ∧ c.state = t.state := by
      obtain ⟨_, -, rfl⟩ := rep
      exact ⟨rfl, rfl, rfl⟩
    obtain ⟨alt, passed, state⟩ := fields
    simp only [alt, passed, state]
    split
    · exact .pure ⟨widens, rfl, reps⟩
    · cases here : u.grammar.network.states[t.state]? with
      | none =>
          refine ⟨.noSuchState t.state, _, ?_, widens⟩
          rw [Network.state, here]
          rfl
      | some st =>
          refine .bind_ok (run_state rfl here) ?_
          have read := advanceThread_follows scannable rfl x (finishedAlt == some t.alt) known
            here (fun _ mem => mem) (s := s.withGraph g) (grown.distinct distinct) rep' reps
          have after := read.imp (fun _ _ _ h => (⟨widens.trans h.1, h.2⟩ : s.Widens _ ∧ _))
            fun _ wider => widens.trans wider
          rw [Option.bind_some]
          refine .bind after ?_
          rintro ⟨_, new⟩ ⟨finished, set⟩ s' ⟨wider, rfl, reps⟩
          exact .pure ⟨wider, rfl, reps⟩
  · rintro ⟨_, reached⟩ ⟨_, set⟩ s' ⟨widens, rfl, reps⟩
    exact .pure ⟨widens, reps⟩

end Scan

end AdaptiveLL
