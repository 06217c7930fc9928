import AdaptiveLL.Prediction.Reach
import AdaptiveLL.Proofs.Prediction.Rooted
/-!
Between two tokens. Prediction closes threads and reaches on over a symbol without passing anything
of the input: whatever it asks the host, the cursor is put back. All threads stay rooted meanwhile,
and at the end of the input only threads are left that have finished their rules.
-/
namespace AdaptiveLL

open StackGraph

variable {σ τ : Type} [TokenSource σ]

/-- Nothing has been counted or entered into the tables, and the stacks are still there. -/
structure Simulation.Abides (s s' : Simulation σ τ) : Prop where
  stats : s'.stats = s.stats
  tables : s'.tables.tables = s.tables.tables
  grown : s.tables.graph.Extends s'.tables.graph
  keeps : s'.tables.arena.Keeps Among
  led : s.input.Leads s'.input

namespace Simulation.Abides

variable {s s' s'' : Simulation σ τ}

theorem refl (keeps : s.tables.arena.Keeps Among) : s.Abides s :=
  ⟨rfl, rfl, .refl _, keeps, .refl _⟩

theorem trans (h : s.Abides s') (h' : s'.Abides s'') : s.Abides s'' where
  stats := h'.stats.trans h.stats
  tables := h'.tables.trans h.tables
  grown := h.grown.trans h'.grown
  keeps := h'.keeps
  led := h.led.trans h'.led

theorem tidy (h : s.Abides s') : s'.tables.graph.Tidy :=
  h.keeps.tidy

/-- Neither where the input stands nor the host nor what has been reported matters. -/
theorem of_eq (h : s.Abides s') (stats : s''.stats = s'.stats) (tables : s''.tables = s'.tables)
    (led : s'.input.Leads s''.input) : s.Abides s'' where
  stats := stats.trans h.stats
  tables := by rw [tables, h.tables]
  grown := tables ▸ h.grown
  keeps := tables ▸ h.keeps
  led := h.led.trans led

end Simulation.Abides

/-- Besides, nothing of the input has been passed. -/
structure Simulation.Lingers (s s' : Simulation σ τ) : Prop extends s.Abides s' where
  input : s.input.Passes s'.input []

namespace Simulation.Lingers

variable {s s' s'' : Simulation σ τ}

theorem refl (keeps : s.tables.arena.Keeps Among) : s.Lingers s :=
  ⟨.refl keeps, .refl _⟩

theorem trans (h : s.Lingers s') (h' : s'.Lingers s'') : s.Lingers s'' :=
  ⟨h.toAbides.trans h'.toAbides, h.input.trans h'.input⟩

end Simulation.Lingers

namespace Prediction

variable {α β : Type} {s s' : Simulation σ τ} {a : α} {b : β}

/-- The step passes nothing of the input, and its answer fits the stacks that are there then. -/
def Lingering (s : Simulation σ τ) (x : Prediction σ τ α) (P : StackGraph → α → Prop) : Prop :=
  Step.Ensures x s (fun a s' => s.Lingers s' ∧ P s'.tables.graph a) fun _ s' => s.Abides s'

namespace Lingering

variable {x y : Prediction σ τ α} {f : α → Prediction σ τ β} {P P' : StackGraph → α → Prop}
  {R : StackGraph → β → Prop}

theorem pure (keeps : s.tables.arena.Keeps Among) (h : P s.tables.graph a) :
    Lingering s (Pure.pure a) P :=
  ⟨.refl keeps, h⟩

theorem throw (keeps : s.tables.arena.Keeps Among) (e : Failure) :
    Lingering s (MonadExcept.throw e) P :=
  .refl keeps

theorem imp (h : Lingering s x P)
    (weaker : ∀ s', s.Lingers s' → ∀ a, P s'.tables.graph a → P' s'.tables.graph a) :
    Lingering s x P' :=
  Step.Ensures.imp h (fun a s' ⟨lingers, holds⟩ => ⟨lingers, weaker s' lingers a holds⟩) fun _ _ => id

/-- What comes behind a step that lingers. -/
theorem after (lingers : s.Lingers s') (h : Lingering s' x P) :
    Step.Ensures x s' (fun a s'' => s.Lingers s'' ∧ P s''.tables.graph a) fun _ s'' => s.Abides s'' :=
  Step.Ensures.imp h (fun _ _ ⟨later, holds⟩ => ⟨lingers.trans later, holds⟩)
    fun _ _ => lingers.toAbides.trans

theorem bind (first : Lingering s x P)
    (rest : ∀ a s', s.Lingers s' → P s'.tables.graph a → Lingering s' (f a) R) :
    Lingering s (x >>= f) R :=
  Step.Ensures.bind (Step.Ensures.imp first
    (fun a s' ⟨lingers, holds⟩ => (rest a s' lingers holds).after lingers) fun _ _ => id)

theorem ite {c : Prop} [Decidable c] (yes : c → Lingering s x P) (no : ¬ c → Lingering s y P) :
    Lingering s (if c then x else y) P := by
  split
  · exact yes ‹_›
  · exact no ‹_›

theorem question {answer : Except Fault α} (keeps : s.tables.arena.Keeps Among) :
    Lingering s (Step.ofQuestion answer) fun _ a => answer = .ok a := by
  cases answer with
  | ok a => exact pure keeps rfl
  | error fault => exact throw keeps _

/-- A fold, by what one of its steps keeps. -/
theorem foldlM {γ : Type} {f : β → γ → Prediction σ τ β} {xs : List γ}
    (keeps : s.tables.arena.Keeps Among) (start : R s.tables.graph b)
    (step : ∀ s', s.Lingers s' → ∀ b, R s'.tables.graph b → ∀ x ∈ xs, Lingering s' (f b x) R) :
    Lingering s (xs.foldlM f b) R := by
  induction xs generalizing s b with
  | nil => exact pure keeps start
  | cons x xs ih =>
      rw [List.foldlM_cons]
      refine bind (step s (.refl keeps) b start x (.head _)) fun b' s' lingers holds => ?_
      refine ih lingers.keeps holds fun s'' later b holds x mem => ?_
      exact step s'' (lingers.trans later) b holds x (.tail _ mem)

end Lingering

end Prediction

/-- What is kept of threads: they are rooted, and where the bottom is known, those in stop states have
ended their last rule. Nothing has been settled about them. -/
structure ConfigurationSet.Kept (n : Network) (full : Prop) (rule : Nat) (g : StackGraph)
    (set : ConfigurationSet) : Prop where
  rooted : set.Rooted n full rule g
  spent : full → set.Spent n
  unmarked : set.uniqueAlt = noAlt ∧ set.conflicting = none

namespace ConfigurationSet.Kept

variable {n : Network} {full : Prop} {rule : Nat} {g g' : StackGraph} {set : ConfigurationSet}

theorem empty (n : Network) (full : Prop) (rule : Nat) (g : StackGraph) (fullContext : Bool) :
    Kept n full rule g { fullContext } :=
  ⟨.empty n full rule g fullContext, fun _ => .empty n fullContext, rfl, rfl⟩

theorem mono (h : set.Kept n full rule g) (tidy : g.Tidy) (grown : g.Extends g') :
    set.Kept n full rule g' :=
  ⟨h.rooted.mono tidy grown, h.spent, h.unmarked⟩

/-- Leaving a rule without knowing its caller is noted on the set. -/
theorem dips (h : set.Kept n full rule g) : Kept n full rule g { set with dipsOutside := true } :=
  ⟨h.rooted, h.spent, h.unmarked⟩

end ConfigurationSet.Kept

/-- What is kept of the threads that a closure has put together. -/
abbrev Closure.Kept (n : Network) (full : Prop) (rule : Nat) (g : StackGraph) (acc : Closure) : Prop :=
  acc.configs.Kept n full rule g

namespace Prediction

variable {n : Network} {full : Prop} {rule : Nat} {s : Simulation σ τ} {set : ConfigurationSet}
  {c : Configuration} {q : Problem τ}

theorem addTo_rooted (keeps : s.tables.arena.Keeps Among)
    (h : set.Rooted n full rule s.tables.graph) (thread : c.Rooted n full rule s.tables.graph) :
    Lingering s (addTo set c) (ConfigurationSet.Rooted n full rule) := by
  obtain ⟨grown, keeps', rooted⟩ := h.insert keeps thread
  exact .of_ok rfl ⟨⟨⟨rfl, rfl, grown, keeps', .refl _⟩, .refl _⟩, rooted⟩

/-- A thread that is rooted may be added. -/
theorem addTo_kept (keeps : s.tables.arena.Keeps Among) (h : set.Kept n full rule s.tables.graph)
    (thread : c.Rooted n full rule s.tables.graph)
    (ended : full → n.IsStop c.state → c.stack = 0) :
    Lingering s (addTo set c) (ConfigurationSet.Kept n full rule) := by
  obtain ⟨grown, keeps', rooted⟩ := h.rooted.insert keeps thread
  refine .of_ok rfl ⟨⟨⟨rfl, rfl, grown, keeps', .refl _⟩, .refl _⟩, rooted, fun exact => ?_, ?_, ?_⟩
  · exact (h.spent exact).insert fun here found stop => ended exact ⟨here, found, stop⟩
  · exact ConfigurationSet.uniqueAlt_insert.trans h.unmarked.1
  · exact ConfigurationSet.conflicting_insert.trans h.unmarked.2

/-- A new frame stands on top of all stacks of its parent. -/
theorem pushFrame_lingering {parent resume : Nat} (keeps : s.tables.arena.Keeps Among)
    (present : s.tables.graph.Present parent) :
    Lingering s (pushFrame parent resume) fun g id => g.Present id ∧
      (resume ≠ noState → g.stackSet id = (resume :: ·) '' g.stackSet parent) := by
  have known : ∀ e ∈ [(parent, resume)], s.tables.graph.Present e.1 := by
    intro e mem
    rwa [List.mem_singleton.1 mem]
  obtain ⟨grown, keeps', is, -⟩ := keeps.ofEntries (mergeRule_among true) known
  refine .of_ok rfl ⟨⟨⟨rfl, rfl, grown, keeps', .refl _⟩, .refl _⟩, is.1, fun isState => ?_⟩
  refine (is.stackSet_eq keeps'.tidy (List.cons_ne_nil _ _)).trans ?_
  rw [through_cons, through_nil, Set.union_empty, way, if_neg isState]
  rfl

omit [TokenSource σ] in
/-- Asking the host about a guard changes only the host. -/
theorem holds_stays (q : Problem τ) (g : Guard) (s : Simulation σ τ) :
    (holds q g).Ensures s
      (fun _ s' => s'.input = s.input ∧ s'.stats = s.stats ∧ s'.tables = s.tables)
      fun _ s' => s'.input = s.input ∧ s'.stats = s.stats ∧ s'.tables = s.tables := by
  have kept : Step.Keeps (fun s' : Simulation σ τ =>
      s'.input = s.input ∧ s'.stats = s.stats ∧ s'.tables = s.tables) (holds q g) fun _ => True :=
    eval_keeps (fun _ _ _ => .bind .get fun _ inv => .bind (.set inv) fun _ _ => .pure trivial) _ g
  exact (kept s ⟨rfl, rfl, rfl⟩).imp (fun _ _ => And.left) fun _ _ => And.left

/-- The host is asked back at the decision. -/
theorem crossGuard_rooted (exact collect : Bool) (target : Nat) (g : Guard)
    (keeps : s.tables.arena.Keeps Among)
    (thread : ∀ guard, Configuration.Rooted n full rule s.tables.graph { c with state := target, guard }) :
    Lingering s (crossGuard q exact collect c target g)
      fun g moved => ∀ c' ∈ moved, c'.Rooted n full rule g := by
  have here (guard : Guard) : ∀ c' ∈ some { c with state := target, guard },
      c'.Rooted n full rule s.tables.graph := by
    rintro _ ⟨⟩
    exact thread guard
  unfold crossGuard
  refine .ite (fun _ => .pure keeps (here c.guard)) fun _ => .ite (fun _ => ?_) fun _ =>
    .pure keeps (here _)
  refine Step.Ensures.bind (.of_ok rfl (.bind (.of_ok rfl (.bind ((holds_stays q g _).imp ?_ ?_)))))
  · rintro answer s' ⟨input, stats, tables⟩
    have back : s.input.Passes (s'.input.seek s.input.index) [] := by
      rw [input]
      exact TokenStream.seek_back (TokenStream.seek_leads _ _)
    refine .bind (.of_ok rfl (.of_ok rfl
      ⟨⟨.of_eq (.refl keeps) stats tables back.toLeads, back⟩, ?_⟩))
    have graph : s'.tables.graph = s.tables.graph := congrArg Tables.graph tables
    intro c' mem
    cases answer with
    | true => exact graph ▸ here c.guard c' mem
    | false => cases mem
  · rintro e s' ⟨input, stats, tables⟩
    refine .of_eq (.refl keeps) stats tables ?_
    rw [input]
    exact TokenStream.seek_leads _ _

/-- What closures rely on: the numbers of states stand for states, and where the bottom is to be known,
rules are left only through their stops. -/
structure Confines (n : Network) (full : Prop) (q : Problem τ) : Prop where
  network : q.grammar.network = n
  small : full → n.states.size ≤ noState
  enclosed : full → n.Enclosed

variable {mode : ClosureMode}

omit [TokenSource σ] in
theorem Confines.inRule (h : Confines n full q) {here : State} {t : Transition}
    (found : n.states[c.state]? = some here) (mem : t ∈ here.transitions) (exact : full)
    (inside : here.isRuleStop = false) (noCall : t.follow? = none) {r : Nat}
    (belongs : n.InRule c.state r) : n.InRule t.target r := by
  have same : here.rule = r := by simpa [Network.InRule, found] using belongs
  exact same ▸ (h.enclosed exact).inside here (Array.mem_of_getElem? found) inside t mem noCall

/-- A thread stays rooted over an edge of its rule, and over a call and the frame that it leaves.
-/
theorem cross_rooted (confines : Confines n full q) (collect inRule : Bool) {here : State}
    {t : Transition} (found : n.states[c.state]? = some here) (mem : t ∈ here.transitions)
    (inside : full → here.isRuleStop = false)
    (keeps : s.tables.arena.Keeps Among)
    (thread : c.Rooted n full rule s.tables.graph) :
    Lingering s (cross q mode collect inRule c t)
      fun g moved => ∀ c' ∈ moved, c'.Rooted n full rule g := by
  have goesOn (noCall : t.follow? = none) (guard : Guard) :
      Configuration.Rooted n full rule s.tables.graph { c with state := t.target, guard } :=
    thread.goOn rfl rfl fun exact _ => confines.inRule found mem exact (inside exact) noCall
  have goes (noCall : t.follow? = none) : ∀ c' ∈ some { c with state := t.target },
      c'.Rooted n full rule s.tables.graph := by
    rintro _ ⟨⟩
    exact goesOn noCall c.guard
  have reads (noCall : t.follow? = none) :
      Lingering s (pure (if mode.crossEof && t.reads Symbol.eof 0 1
        then some { c with state := t.target } else none) : Prediction σ τ _)
        fun g moved => ∀ c' ∈ moved, c'.Rooted n full rule g := by
    refine .pure keeps ?_
    split
    · exact goes noCall
    · simp
  cases t with
  | call target callee precedence follow =>
      refine .bind (pushFrame_lingering keeps thread.present) fun stack s' lingers ⟨present, pushed⟩ => ?_
      refine .pure lingers.keeps ?_
      rintro _ ⟨⟩
      have belongs (exact : full) : n.InRule follow here.rule :=
        (confines.enclosed exact).follows here (Array.mem_of_getElem? found) _ mem follow rfl
      have isState (exact : full) : follow ≠ noState := by
        obtain ⟨next, get, -⟩ := Option.map_eq_some_iff.1 (belongs exact)
        have inRange := (Array.getElem?_eq_some_iff.1 get).1
        exact Nat.ne_of_lt (Nat.lt_of_lt_of_le inRange (confines.small exact))
      refine thread.call lingers.grown keeps.tidy present rfl (fun exact => pushed (isState exact)) ?_
      intro exact r same
      have same : here.rule = r := by simpa [Network.InRule, found] using same
      exact same ▸ belongs exact
  | precedence => exact crossGuard_rooted _ _ _ _ keeps (goesOn rfl)
  | predicate => exact crossGuard_rooted _ _ _ _ keeps (goesOn rfl)
  | action => exact .pure keeps (goes rfl)
  | epsilon => exact .pure keeps (goes rfl)
  | atom => exact reads rfl
  | range => exact reads rfl
  | set => exact reads rfl
  | notSet => exact .pure keeps (by simp)
  | wildcard => exact .pure keeps (by simp)

/-- What a closure does: it keeps rooted threads. -/
def Continues (n : Network) (full : Prop) (rule : Nat)
    (onward : Bool → Int → Configuration → Closure → Prediction σ τ Closure) : Prop :=
  ∀ collect depth c (acc : Closure) (s : Simulation σ τ), s.tables.arena.Keeps Among →
    c.Rooted n full rule s.tables.graph → acc.Kept n full rule s.tables.graph →
    Lingering s (onward collect depth c acc) (Closure.Kept n full rule)

variable {onward : Bool → Int → Configuration → Closure → Prediction σ τ Closure} {acc : Closure}
  {here : State}

theorem followEdge_kept (confines : Confines n full q)
    (continues : Continues n full rule onward) (decisionRule : Nat) (collect : Bool)
    (depth : Int) {t : Transition} (found : n.states[c.state]? = some here)
    (mem : t ∈ here.transitions) (inside : full → here.isRuleStop = false)
    (keeps : s.tables.arena.Keeps Among) (thread : c.Rooted n full rule s.tables.graph)
    (h : acc.Kept n full rule s.tables.graph) :
    Lingering s (followEdge q mode decisionRule onward collect depth c here acc t)
      (Closure.Kept n full rule) := by
  unfold followEdge
  refine .bind (cross_rooted confines _ _ found mem inside keeps thread) fun moved s' lingers rooted => ?_
  have h := h.mono keeps.tidy lingers.grown
  have keeps := lingers.keeps
  cases moved with
  | none => exact .pure keeps h
  | some target =>
      have thread := rooted target rfl
      refine .ite (fun _ => .ite (fun _ => .pure keeps h) fun _ => ?_) fun _ => ?_
      · refine continues _ _ _ _ _ keeps (thread.goOn rfl rfl fun _ _ => id) h.dips
      · refine .ite (fun _ => continues _ _ _ _ _ keeps thread h) fun _ => ?_
        exact .ite (fun _ => .pure keeps h) fun _ => continues _ _ _ _ _ keeps thread h

theorem expand_kept (confines : Confines n full q)
    (continues : Continues n full rule onward) (collect : Bool) (depth : Int)
    (found : n.states[c.state]? = some here)
    (inside : full → here.isRuleStop = false)
    (keeps : s.tables.arena.Keeps Among) (thread : c.Rooted n full rule s.tables.graph)
    (h : acc.Kept n full rule s.tables.graph) :
    Lingering s (expand q mode onward collect depth c acc) (Closure.Kept n full rule) := by
  refine .bind (.question keeps) fun here' s₁ lingers known => ?_
  rw [confines.network, Lookahead.state_eq_ok, found] at known
  obtain rfl := Option.some.inj known
  have thread := thread.mono keeps.tidy lingers.grown
  have h := h.mono keeps.tidy lingers.grown
  have keeps := lingers.keeps
  extract_lets follow
  have edges {s : Simulation σ τ} {acc : Closure} (keeps : s.tables.arena.Keeps Among)
      (thread : c.Rooted n full rule s.tables.graph)
      (h : acc.Kept n full rule s.tables.graph) :
      Lingering s (follow acc) (Closure.Kept n full rule) := by
    refine .bind (.question keeps) fun decision s₂ lingers _ => ?_
    refine .foldlM lingers.keeps (h.mono keeps.tidy lingers.grown) fun s₃ later acc h t mem => ?_
    have lingers := lingers.trans later
    exact followEdge_kept confines continues _ _ _ found mem inside lingers.keeps
      (thread.mono keeps.tidy lingers.grown) h
  refine .ite (fun _ => .bind (.pure (P := Closure.Kept n full rule) keeps h) fun acc s₂ lingers h => ?_)
    fun _ => ?_
  · exact edges lingers.keeps (thread.mono keeps.tidy lingers.grown) h
  · refine .bind (addTo_kept keeps h thread ?_) fun set s₂ lingers h => ?_
    · rintro exact ⟨here', found', stop⟩
      rw [found] at found'
      obtain rfl := Option.some.inj found'
      cases (inside exact).symm.trans stop
    · refine .bind (.pure (P := Closure.Kept n full rule) lingers.keeps h) fun acc s₃ later h => ?_
      have lingers := lingers.trans later
      exact edges later.keeps (thread.mono keeps.tidy lingers.grown) h

/-- A closure keeps to rooted threads. -/
theorem close_follows (mode : ClosureMode) (confines : Confines n full q)
    (context : full → mode.fullContext = true) (fuel : Nat) :
    Continues n full rule (close q mode fuel : _ → _ → _ → _ → Prediction σ τ Closure) := by
  induction fuel with
  | zero => exact fun _ _ _ _ _ keeps _ _ => .throw keeps _
  | succ fuel ih =>
      intro collect depth c acc s keeps thread h
      rw [Prediction.close]
      refine .bind (.question keeps) fun here s₁ lingers found => ?_
      rw [confines.network, Lookahead.state_eq_ok] at found
      have thread := thread.mono keeps.tidy lingers.grown
      have h := h.mono keeps.tidy lingers.grown
      have keeps := lingers.keeps
      refine .ite (fun inner => ?_) fun _ => .ite (fun bare => .ite (fun _ => ?_) fun inexact => ?_)
        fun _ => ?_
      · refine expand_kept confines ih collect depth found (fun _ => ?_) keeps thread h
        simpa using inner
      · exact .bind (addTo_kept keeps h thread fun _ _ => bare) fun _ _ lingers h =>
          .pure lingers.keeps h
      · exact expand_kept confines ih collect depth found (fun exact => absurd (context exact) inexact) keeps
          thread h
      · refine Step.Ensures.bind (.of_ok rfl ?_)
        refine Lingering.foldlM (R := Closure.Kept n full rule) keeps h ?_
        rintro s₂ later acc h ⟨parent, resume⟩ mem
        have keeps₂ := later.keeps
        have thread₂ := thread.mono keeps.tidy later.grown
        rw [← thread.present.node_eq later.grown] at mem
        refine .ite (fun bottom => .ite (fun _ => ?_) fun inexact => ?_) fun isState => ?_
        · refine .bind (addTo_kept keeps₂ h (thread₂.finish later.tidy rfl rfl rfl (bottom ▸ mem))
            fun _ _ => rfl) fun _ _ lingers h => .pure lingers.keeps h
        · exact expand_kept confines ih collect depth found
            (fun exact => absurd (context exact) inexact) keeps₂ thread₂ h
        · exact ih _ _ _ _ _ keeps₂ (thread₂.back later.tidy rfl rfl mem isState) h

/-- The threads with which a prediction starts are rooted if those at the edges of the decision are. -/
theorem startConfigs_kept (confines : Confines n full q) {fullContext : Bool}
    (context : full → fullContext = true) {stack : Nat}
    (keeps : s.tables.arena.Keeps Among)
    (starts : ∀ here, n.states[q.decisionState]? = some here → ∀ t ∈ here.transitions, ∀ alt ≠ noAlt,
      Configuration.Rooted n full rule s.tables.graph { state := t.target, alt, stack }) :
    Lingering s (startConfigs q fullContext stack) (ConfigurationSet.Kept n full rule) := by
  refine .bind (.question keeps) fun here s₁ lingers found => ?_
  rw [confines.network, Lookahead.state_eq_ok] at found
  refine .foldlM lingers.keeps (.empty n full rule _ _) fun s₂ later configs h (t, i) mem => ?_
  have lingers := lingers.trans later
  have edge : t ∈ here.transitions := List.mem_of_getElem? (List.mem_zipIdx_iff_getElem?.1 mem)
  have thread := (starts here found t edge (i + 1) (Nat.succ_ne_zero i)).mono keeps.tidy lingers.grown
  refine .bind (close_follows ⟨fullContext, false⟩ confines context q.fuel
    _ _ _ _ _ lingers.keeps thread h) fun acc s₃ last h => ?_
  exact .pure last.keeps h

/-- The threads behind a symbol, and those that have finished their rules. -/
theorem moved_rooted (confines : Confines n full q) {configs : ConfigurationSet}
    (keeps : s.tables.arena.Keeps Among) (h : configs.Rooted n full rule s.tables.graph)
    (symbol : Symbol) (fullContext : Bool) :
    Lingering s (moved q configs symbol fullContext) fun g (moved, finished) =>
      moved.Rooted n full rule g ∧ ∀ c ∈ finished, c ∈ configs.toList ∧ n.IsStop c.state := by
  refine .foldlM keeps ⟨.empty n full rule _ _, by simp⟩ ?_
  rintro s₁ lingers ⟨moved, finished⟩ ⟨rooted, stops⟩ c mem
  refine .bind (.question lingers.keeps) fun here s₂ later found => ?_
  rw [confines.network, Lookahead.state_eq_ok] at found
  have rooted := rooted.mono lingers.tidy later.grown
  have lingers := lingers.trans later
  refine .ite (fun stop => .ite (fun _ => ?_) fun _ => .pure lingers.keeps ⟨rooted, stops⟩) fun inner => ?_
  · refine .pure lingers.keeps ⟨rooted, fun c' mem' => ?_⟩
    rcases List.mem_append.1 mem' with mem' | mem'
    · exact stops c' mem'
    · rw [List.mem_singleton.1 mem']
      exact ⟨mem, here, found, stop⟩
  · refine .bind (Lingering.foldlM (R := fun g set => set.Rooted n full rule g) lingers.keeps rooted ?_)
      fun moved s₃ later rooted => .pure later.keeps ⟨rooted, stops⟩
    intro s₃ later moved rooted t edge
    refine .ite (fun reads => ?_) fun _ => .pure later.keeps rooted
    have thread := (h c mem).mono keeps.tidy (lingers.trans later).grown
    refine addTo_rooted later.keeps rooted (thread.goOn rfl rfl fun exact _ => ?_)
    exact confines.inRule found edge exact (Bool.not_eq_true _ ▸ inner) (Transition.follow?_of_reads reads)

theorem addTo_ended (keeps : s.tables.arena.Keeps Among) (h : set.Kept n full rule s.tables.graph)
    (ended : set.Ended n) (thread : c.Rooted n full rule s.tables.graph) (stop : n.IsStop c.state)
    (bare : full → c.stack = 0) :
    Lingering s (addTo set c) fun g set => set.Kept n full rule g ∧ set.Ended n := by
  have made : (addTo set c).Ensures s (fun set _ => set.Ended n) fun _ _ => True :=
    .of_ok rfl (ended.insert stop)
  refine ((addTo_kept keeps h thread fun exact _ => bare exact).and made).imp ?_ fun _ _ => And.left
  exact fun set s' ⟨⟨lingers, kept⟩, ended⟩ => ⟨lingers, kept, ended⟩

/-- Threads that have finished stand at the stop of a rule. -/
theorem finishedOnly_ended (confines : Confines n full q) {configs : ConfigurationSet}
    (keeps : s.tables.arena.Keeps Among) (h : configs.Kept n full rule s.tables.graph) :
    Lingering s (finishedOnly q configs false) fun g set => set.Kept n full rule g ∧ set.Ended n := by
  refine .bind (.question keeps) fun all s₁ lingers known => ?_
  have h := h.mono keeps.tidy lingers.grown
  rw [confines.network] at known
  refine .ite (fun yes => .pure lingers.keeps ⟨h, ?_⟩) fun _ => ?_
  · exact ConfigurationSet.allInRuleStop_eq_true.1 (yes ▸ known)
  refine .foldlM lingers.keeps ⟨.empty n full rule _ _, .empty n _⟩ ?_
  rintro s₂ later result ⟨kept, ended⟩ c mem
  refine .bind (.question later.keeps) fun here s₃ last found => ?_
  rw [confines.network, Lookahead.state_eq_ok] at found
  have kept := kept.mono later.tidy last.grown
  have later := later.trans last
  refine .ite (fun stop => ?_) fun _ => .ite (fun no => ?_) fun _ => .pure later.keeps ⟨kept, ended⟩
  · have thread := (h.rooted c mem).mono lingers.tidy later.grown
    exact addTo_ended later.keeps kept ended thread ⟨here, found, stop⟩ fun exact =>
      h.spent exact c mem here found stop
  · simp at no

end Prediction

namespace ConfigurationSet

variable {n : Network} {full : Prop} {rule : Nat} {g : StackGraph} {symbol : Symbol}
  {set reached : ConfigurationSet}

theorem nonempty_of_isEmpty (mem : reached ∈ if set.isEmpty then none else some set) :
    reached = set ∧ set.toList ≠ [] := by
  split at mem
  · cases mem
  · refine ⟨(Option.some.inj mem).symm, fun empty => ?_⟩
    simp_all [isEmpty, toList]

/-- What a symbol leads to. -/
structure Reached (n : Network) (full : Prop) (rule : Nat) (g : StackGraph) (symbol : Symbol)
    (set : ConfigurationSet) : Prop where
  rooted : set.Rooted n full rule g
  nonempty : set.toList ≠ []
  ended : symbol = Symbol.eof → set.Ended n
  kept : set.agreedAlt = noAlt → set.Kept n full rule g

/-- At the end of the input every mode stops on what is reached. -/
theorem Reached.stops (h : set.Reached n full rule g Symbol.eof) (exact : full) (enclosed : n.Enclosed)
    (disagree : set.agreedAlt = noAlt) :
    Conflict.allConflict set.altSubsets = true ∧ Conflict.allEqual set.altSubsets = true ∧
      Conflict.viableAlt set.altSubsets ≠ noAlt := by
  obtain ⟨c, rest, threads⟩ := List.exists_cons_of_ne_nil h.nonempty
  have spent := (h.kept disagree).spent exact
  refine stops_of_one_place threads (fun c' mem => ?_) (fun c mem => (h.rooted c mem).chosen) disagree
  exact h.rooted.one_place exact enclosed (h.ended rfl) spent (threads ▸ .tail _ mem) (threads ▸ .head _)

/-- Threads that were not closed agree on an alternative. -/
theorem Reached.of_settled (rooted : set.Rooted n full rule g) (nonempty : set.toList ≠ [])
    (more : symbol ≠ Symbol.eof) (settled : set.size = 1 ∨ set.agreedAlt ≠ noAlt) :
    set.Reached n full rule g symbol := by
  refine ⟨rooted, nonempty, fun eof => absurd eof more, fun disagree => ?_⟩
  obtain alone | agreed := settled
  · obtain ⟨c, only⟩ := List.length_eq_one_iff.1 (Array.length_toList.trans alone)
    have agreed : set.agreedAlt = c.alt :=
      agreedAlt_of_forall (by simp [toList, only]) nonempty
    have mem : c ∈ set.toList := by simp [toList, only]
    exact absurd (agreed.symm.trans disagree) (rooted c mem).chosen
  · exact absurd disagree agreed

end ConfigurationSet

namespace Prediction

variable {n : Network} {full : Prop} {rule : Nat} {s : Simulation σ τ} {q : Problem τ}

/-- The threads that have finished their rules are put to those that were closed. -/
theorem gather_reached {fullContext : Bool} {set : ConfigurationSet} {finished : List Configuration}
    {symbol : Symbol} (keeps : s.tables.arena.Keeps Among) (h : set.Kept n full rule s.tables.graph)
    (ended : symbol = Symbol.eof → set.Ended n)
    (threads : ∀ c ∈ finished, c.Rooted n full rule s.tables.graph ∧ n.IsStop c.state ∧
      (full → c.stack = 0)) :
    Lingering s
      (do
        let ended ← Step.ofQuestion (set.anyInRuleStop q.grammar.network)
        let reached ← if fullContext && ended then pure set else finished.foldlM addTo set
        return if reached.isEmpty then none else some reached : Prediction σ τ _)
      fun g reached => ∀ set ∈ reached, set.Reached n full rule g symbol := by
  have answer {s : Simulation σ τ} {set : ConfigurationSet} (keeps : s.tables.arena.Keeps Among)
      (kept : set.Kept n full rule s.tables.graph) (ended : symbol = Symbol.eof → set.Ended n) :
      Lingering s (pure (if set.isEmpty then none else some set) : Prediction σ τ _)
        fun g reached => ∀ set ∈ reached, set.Reached n full rule g symbol := by
    refine .pure keeps fun reached mem => ?_
    obtain ⟨rfl, nonempty⟩ := ConfigurationSet.nonempty_of_isEmpty mem
    exact ⟨kept.rooted, nonempty, ended, fun _ => kept⟩
  refine .bind (.question keeps) fun any s₁ lingers _ => .ite (fun _ => ?_) fun _ => ?_
  · refine .bind (.pure (P := fun g set => set.Kept n full rule g ∧ (symbol = Symbol.eof → set.Ended n))
      lingers.keeps ⟨h.mono keeps.tidy lingers.grown, ended⟩) fun set s₂ later ⟨kept, ended⟩ => ?_
    exact answer later.keeps kept ended
  · refine .bind (Lingering.foldlM (R := fun g set =>
        set.Kept n full rule g ∧ (symbol = Symbol.eof → set.Ended n)) lingers.keeps
      ⟨h.mono keeps.tidy lingers.grown, ended⟩ ?_) fun set s₂ later ⟨kept, ended⟩ =>
        answer later.keeps kept ended
    intro s₂ later set ⟨kept, ended⟩ c mem
    obtain ⟨thread, stop, bare⟩ := threads c mem
    have thread := thread.mono keeps.tidy (lingers.trans later).grown
    by_cases atEnd : symbol = Symbol.eof
    · exact (addTo_ended later.keeps kept (ended atEnd) thread stop bare).imp
        fun _ _ _ ⟨kept, ended⟩ => ⟨kept, fun _ => ended⟩
    · exact (addTo_kept later.keeps kept thread fun exact _ => bare exact).imp
        fun _ _ _ kept => ⟨kept, fun eof => absurd eof atEnd⟩

/-- Reading a symbol leads from rooted threads to rooted threads. -/
theorem reach_reached (confines : Confines n full q) {fullContext : Bool}
    (context : full → fullContext = true) {configs : ConfigurationSet}
    (keeps : s.tables.arena.Keeps Among) (h : configs.Rooted n full rule s.tables.graph)
    (spent : full → configs.Spent n) (symbol : Symbol) :
    Lingering s (reach q configs symbol fullContext) fun g reached =>
      ∀ set ∈ reached, set.Reached n full rule g symbol := by
  unfold reach
  refine .bind (moved_rooted confines keeps h symbol fullContext) ?_
  rintro ⟨moved, finished⟩ s₁ lingers ⟨rooted, stops⟩
  simp only
  generalize eq : (finished.isEmpty && !symbol == Symbol.eof &&
    (moved.size == 1 || moved.agreedAlt != noAlt)) = settled
  cases settled with
  | true =>
      simp only [Bool.and_eq_true, Bool.not_eq_true', beq_eq_false_iff_ne, Bool.or_eq_true, beq_iff_eq,
        bne_iff_ne, List.isEmpty_iff] at eq
      obtain ⟨⟨rfl, more⟩, settled⟩ := eq
      have notEnd : ¬ (symbol == Symbol.eof) = true := by simpa using more
      simp only [if_true, if_neg notEnd, pure_bind, List.foldlM_nil, ite_self]
      refine .bind (.question lingers.keeps) fun _ s₂ later _ => .pure later.keeps fun reached mem => ?_
      obtain ⟨rfl, nonempty⟩ := ConfigurationSet.nonempty_of_isEmpty mem
      exact .of_settled (rooted.mono lingers.tidy later.grown) nonempty more settled
  | false =>
      have threads {s₂ : Simulation σ τ} (later : s.Lingers s₂) : ∀ c ∈ finished,
          c.Rooted n full rule s₂.tables.graph ∧ n.IsStop c.state ∧ (full → c.stack = 0) := by
        intro c mem
        obtain ⟨mem, here, found, stop⟩ := stops c mem
        exact ⟨(h c mem).mono keeps.tidy later.grown, ⟨here, found, stop⟩,
          fun exact => spent exact c mem here found stop⟩
      rw [if_neg Bool.false_ne_true]
      refine .bind (Lingering.foldlM (R := Closure.Kept n full rule) lingers.keeps
        (.empty n full rule _ _) ?_) fun closure s₂ later kept => ?_
      · intro s₂ later acc kept c mem
        exact close_follows ⟨fullContext, symbol == Symbol.eof⟩ confines context q.fuel _ _ _ _
          _ later.keeps ((rooted c mem).mono lingers.tidy later.grown) kept
      rw [pure_bind]
      have lingers := lingers.trans later
      refine .ite (fun atEnd => ?_) fun more => ?_
      · refine .bind (finishedOnly_ended confines lingers.keeps kept) ?_
        rintro set s₃ last ⟨kept, ended⟩
        exact gather_reached last.keeps kept (fun _ => ended) (threads (lingers.trans last))
      · rw [pure_bind]
        refine gather_reached lingers.keeps kept (fun eof => absurd ?_ more) (threads lingers)
        simpa using eof

end Prediction

end AdaptiveLL
