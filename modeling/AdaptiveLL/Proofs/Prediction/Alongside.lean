import AdaptiveLL.Prediction.Adaptive
import AdaptiveLL.Proofs.Prediction.Likeness
import AdaptiveLL.Proofs.Step.Alongside
import AdaptiveLL.Proofs.Stream.Prefetch
/-!
The same prediction by two simulations. One may have pulled more tokens than the other, hold stacks
that the other never needed, and have reported more; their tables may be of different generations.
Closures and what a symbol leads to come out alike, as long as the host answers alike.
-/
namespace AdaptiveLL

variable {σ τ : Type} {R R' : Nat → Nat → Prop} {lag : Nat} {older : List Report}

/-- States of tables that are the same up to their stacks; the second table has been cleared `lag`
times more. -/
def TableState.Like (lag : Nat) (R : Nat → Nat → Prop) (d d' : TableState) : Prop :=
  ∃ configs, d.configs.Like R configs ∧ d' = { d with configs, generation := d.generation + lag }

theorem TableState.Like.imp {d d' : TableState} (like : d.Like lag R d')
    (weaker : ∀ a b, R a b → R' a b) : d.Like lag R' d' := by
  obtain ⟨configs, same, rfl⟩ := like
  exact ⟨configs, same.imp weaker, rfl⟩

inductive TableTarget.Like (lag : Nat) (R : Nat → Nat → Prop) : TableTarget → TableTarget → Prop
  | state {d d' : TableState} (like : d.Like lag R d') : Like lag R (.state d) (.state d')
  | dead : Like lag R .dead .dead

def PredictionTable.Like (lag : Nat) (R : Nat → Nat → Prop) (t t' : PredictionTable) : Prop :=
  ∃ states, List.Forall₂ (TableState.Like lag R) t.states.toList states ∧
    t' = { t with states := states.toArray, generation := t.generation + lag }

namespace Simulation

/-- What every step of a prediction keeps. -/
structure GoesOn [TokenSource σ] (s t : Simulation σ τ) : Prop where
  graph : s.tables.graph.Extends t.tables.graph
  cleared : t.tables.clear.tables = s.tables.clear.tables
  input : s.input.Leads t.input
  marks : t.input.marks = s.input.marks

/-- The nodes of the two simulations that are built alike. -/
abbrev Same (s s' : Simulation σ τ) : Nat → Nat → Prop :=
  s.tables.graph.Alike s'.tables.graph

instance [TokenSource σ] : Step.Numbered (Simulation σ τ) where
  Onward := GoesOn
  Same := Same
  refl _ := ⟨.refl _, rfl, .refl _, rfl⟩
  trans h h' := ⟨h.graph.trans h'.graph, h'.cleared.trans h.cleared, h.input.trans h'.input,
    h'.marks.trans h.marks⟩
  mono h h' same := same.mono h.graph h'.graph

/-- Simulations that predict alike. Their inputs are as `I` says, and the second one has made the
reports `older` besides those that the first one has made as well. -/
structure AlikeFrom (I : TokenStream σ → TokenStream σ → Prop) (lag : Nat) (older : List Report)
    (s s' : Simulation σ τ) : Prop where
  input : I s.input s'.input
  arena : s.tables.arena.Alike s'.tables.arena
  tables : List.Forall₂ (PredictionTable.Like lag (s.Same s')) s.tables.tables.toList
    s'.tables.tables.toList
  reports : ∃ newer, s'.reports.toList = older ++ newer ∧
    List.Forall₂ (Report.Like (s.Same s')) s.reports.toList newer

namespace AlikeFrom

variable [TokenSource σ] {I : TokenStream σ → TokenStream σ → Prop} {s s' : Simulation σ τ}

/-- More stacks, and merges of them. -/
theorem more_stacks {α : Type} {P : (Nat → Nat → Prop) → α → α → Prop} {made made' : α × Stacks}
    (alike : s.AlikeFrom I lag older s')
    (h : Stacks.Together P s.tables.arena s'.tables.arena made made') :
    Step.Later (AlikeFrom I lag older) s s' { s with tables := { s.tables with arena := made.2 } }
      { s' with tables := { s'.tables with arena := made'.2 } } where
  left := ⟨h.grown, rfl, .refl _, rfl⟩
  right := ⟨h.grown', rfl, .refl _, rfl⟩
  like := by
    refine ⟨alike.input, h.alike, ?_, ?_⟩
    · exact alike.tables.imp fun _ _ ⟨states, each, eq⟩ =>
        ⟨states, each.imp fun _ _ like => like.imp fun _ _ => h.same, eq⟩
    · obtain ⟨newer, eq, each⟩ := alike.reports
      exact ⟨newer, eq, each.imp fun _ _ like => like.imp fun _ _ => h.same⟩

/-- What is done to the inputs alone. -/
theorem with_input {J : TokenStream σ → TokenStream σ → Prop} {i i' : TokenStream σ}
    (alike : s.AlikeFrom I lag older s') (input : J i i') (leads : s.input.Leads i)
    (leads' : s'.input.Leads i') (marks : i.marks = s.input.marks)
    (marks' : i'.marks = s'.input.marks) :
    Step.Later (AlikeFrom J lag older) s s' { s with input := i } { s' with input := i' } where
  left := ⟨.refl _, rfl, leads, marks⟩
  right := ⟨.refl _, rfl, leads', marks'⟩
  like := { alike with input }

/-- The hosts and the counts do not matter. -/
theorem with_others (alike : s.AlikeFrom I lag older s') (host host' : τ)
    (stats stats' : Array DecisionStats) :
    Step.Later (AlikeFrom I lag older) s s' { s with host, stats }
      { s' with host := host', stats := stats' } where
  left := ⟨.refl _, rfl, .refl _, rfl⟩
  right := ⟨.refl _, rfl, .refl _, rfl⟩
  like := { alike with }

/-- Like reports are made at the same time. -/
theorem report {r r' : Report} (alike : s.AlikeFrom I lag older s') (like : r.Like (s.Same s') r') :
    Step.Later (AlikeFrom I lag older) s s' (s.report r) (s'.report r') where
  left := ⟨.refl _, rfl, .refl _, rfl⟩
  right := ⟨.refl _, rfl, .refl _, rfl⟩
  like := by
    obtain ⟨newer, eq, each⟩ := alike.reports
    refine { alike with reports := ⟨newer ++ [r'], ?_, ?_⟩ }
    · simp [Simulation.report, eq]
    · simp only [Simulation.report, Array.toList_push]
      exact List.rel_append each (.cons like .nil)

end AlikeFrom

/-- The simulation without the merges made so far. -/
def forgetful (s : Simulation σ τ) : Simulation σ τ :=
  { s with tables := s.tables.forgetMerges }

theorem AlikeFrom.forgetful {I : TokenStream σ → TokenStream σ → Prop} {s s' : Simulation σ τ}
    (alike : s.AlikeFrom I lag older s') : s.forgetful.AlikeFrom I lag older s'.forgetful :=
  { alike with arena := ⟨alike.arena.sound.forgets false, alike.arena.sound'.forgets false, .nil⟩ }

/-- Simulations whose inputs differ at most in how many tokens have been pulled. -/
abbrev Alike [TokenSource σ] (lag : Nat) (older : List Report) (s s' : Simulation σ τ) : Prop :=
  AlikeFrom TokenStream.Even lag older s s'

end Simulation

/-- The answers of two hosts are the same, whatever the states of the hosts. -/
def SameAnswers (ask ask' : Question → τ → Bool × τ) : Prop :=
  ∀ question host host', (ask' question host').1 = (ask question host).1

/-- The same problem, with another host to ask. -/
def Problem.asking (q : Problem τ) (ask : Question → τ → Bool × τ) : Problem τ :=
  { q with situation := { q.situation with ask } }

namespace Prediction

variable [TokenSource σ] {α : Type}

/-- Two predictions end alike. -/
abbrev Together (lag : Nat) (older : List Report) (s s' : Simulation σ τ) (x x' : Prediction σ τ α)
    (P : (Nat → Nat → Prop) → α → α → Prop) : Prop :=
  Step.Alongside (Simulation.Alike lag older) (Simulation.Alike lag older) s s' x x' P

section Threads

variable {s s' : Simulation σ τ} {set set' : ConfigurationSet} {c c' : Configuration}

theorem addTo_together (alike : s.Alike lag older s') (sets : set.Like (s.Same s') set')
    (threads : c.Like (s.Same s') c') :
    Together lag older s s' (addTo set c) (addTo set' c') ConfigurationSet.Like := by
  have made := sets.insert alike.arena threads
  exact .of_ok rfl rfl (alike.more_stacks made) made.answer

theorem foldlM_addTo_together {cs cs' : List Configuration} (alike : s.Alike lag older s')
    (sets : set.Like (s.Same s') set') (threads : Threads.Like (s.Same s') cs cs') :
    Together lag older s s' (cs.foldlM addTo set) (cs'.foldlM addTo set') ConfigurationSet.Like := by
  refine .foldlM (E := Configuration.Like) alike (fun later _ _ h => h.imp later.same) threads sets ?_
  exact fun t t' later set set' sets c _ c' thread => addTo_together later.like sets thread

theorem pushFrame_together {parent parent' : Nat} (alike : s.Alike lag older s')
    (parents : s.Same s' parent parent') (resume : Nat) :
    Together lag older s s' (pushFrame parent resume) (pushFrame parent' resume) fun R => R := by
  have made := alike.arena.push parents resume
  exact .of_ok rfl rfl (alike.more_stacks made) made.answer

end Threads

section Input

variable {s s' : Simulation σ τ}

/-- What a stream answers does not depend on how much was pulled before. -/
theorem onInput_together {f : TokenStream σ → α × TokenStream σ} (alike : s.Alike lag older s')
    (agree : ∀ i i' : TokenStream σ, i.Ahead i' → i.Sound → TokenStream.Agree (f i) (f i'))
    (leads : ∀ i, TokenStream.Leads i (f i).2) (marks : ∀ i, (f i).2.marks = i.marks)
    (started : ∀ i, (f i).2.position.isSome) :
    Together lag older s s' (onInput f) (onInput f) fun _ => Eq := by
  obtain ⟨ahead, sound, -⟩ := alike.input
  obtain ⟨same, ahead'⟩ := agree _ _ ahead sound
  refine .of_ok rfl rfl ?_ same
  exact alike.with_input ⟨ahead', (leads _).sound sound, started _⟩ (leads _) (leads _) (marks _)
    (marks _)

theorem current_together (alike : s.Alike lag older s') :
    Together lag older s s' current current fun _ => Eq :=
  onInput_together alike (fun _ _ ahead sound => ahead.lookahead sound 1)
    (fun i => (TokenStream.lookahead_passes 1 i).toLeads) (TokenStream.marks_lookahead 1)
    (TokenStream.started_lookahead? 1)

theorem seek_together (alike : s.Alike lag older s') (place : Nat) :
    Together lag older s s' (seek place) (seek place) fun _ => Eq :=
  onInput_together alike (fun _ _ ahead sound => ⟨rfl, ahead.seek sound place⟩)
    (TokenStream.seek_leads place) (TokenStream.marks_seek place) fun _ => rfl

theorem consume_together (alike : s.Alike lag older s') :
    Together lag older s s' consume consume fun _ => Eq :=
  onInput_together alike (fun _ _ ahead sound => ⟨rfl, ahead.consume sound⟩)
    TokenStream.consume_leads TokenStream.marks_consume TokenStream.started_consume

theorem index_together (alike : s.Alike lag older s') :
    Together lag older s s' index index fun _ => Eq := by
  refine .get ?_
  rw [alike.input.index]
  exact .pure alike rfl

theorem advance_together (alike : s.Alike lag older s') (symbol : Symbol) :
    Together lag older s s' (advance symbol) (advance symbol) fun _ => Eq := by
  refine .ite .rfl (fun _ => .pure alike rfl) fun _ => ?_
  exact .bind (consume_together alike) fun _ _ t t' later _ => current_together later.like

end Input

section Guards

variable {q : Problem τ} {ask' : Question → τ → Bool × τ}

theorem ask_together (hosts : SameAnswers q.situation.ask ask') {s s' : Simulation σ τ}
    (alike : s.Alike lag older s') (node : Option NodeId) (rule index : Nat) :
    Together lag older s s' (ask q node rule index) (ask (q.asking ask') node rule index)
      fun _ => Eq := by
  refine .of_ok rfl rfl (alike.with_others _ _ s.stats s'.stats) ?_
  rw [alike.input.index]
  exact (hosts _ _ _).symm

mutual

/-- A guard has the same value for hosts that answer the same. -/
theorem eval_together (hosts : SameAnswers q.situation.ask ask') (node : Option Nat) (g : Guard)
    {s s' : Simulation σ τ} (alike : s.Alike lag older s') :
    Together lag older s s' (g.eval (evaluator q) node)
      (g.eval (evaluator (q.asking ask')) node) fun _ => Eq := by
  match g with
  | .always => exact .pure alike rfl
  | .predicate rule index contextual => exact ask_together hosts alike _ rule index
  | .precedence _ => exact .pure alike rfl
  | .all gs => exact evalAll_together hosts node gs alike
  | .any gs => exact evalAny_together hosts node gs alike

theorem evalAll_together (hosts : SameAnswers q.situation.ask ask') (node : Option Nat)
    (gs : List Guard) {s s' : Simulation σ τ} (alike : s.Alike lag older s') :
    Together lag older s s' (Guard.evalAll (evaluator q) node gs)
      (Guard.evalAll (evaluator (q.asking ask')) node gs) fun _ => Eq := by
  match gs with
  | [] => exact .pure alike rfl
  | g :: rest =>
      refine .bind (eval_together hosts node g alike) fun answer answer' t t' later same => ?_
      subst same
      exact .ite .rfl (fun _ => evalAll_together hosts node rest later.like) fun _ => .pure later.like rfl

theorem evalAny_together (hosts : SameAnswers q.situation.ask ask') (node : Option Nat)
    (gs : List Guard) {s s' : Simulation σ τ} (alike : s.Alike lag older s') :
    Together lag older s s' (Guard.evalAny (evaluator q) node gs)
      (Guard.evalAny (evaluator (q.asking ask')) node gs) fun _ => Eq := by
  match gs with
  | [] => exact .pure alike rfl
  | g :: rest =>
      refine .bind (eval_together hosts node g alike) fun answer answer' t t' later same => ?_
      subst same
      exact .ite .rfl (fun _ => .pure later.like rfl) fun _ => evalAny_together hosts node rest later.like

end

theorem admits_together (hosts : SameAnswers q.situation.ask ask') {s s' : Simulation σ τ}
    (alike : s.Alike lag older s') (g : Guard) :
    Together lag older s s' (admits q g) (admits (q.asking ask') g) fun _ => Eq :=
  .ite .rfl (fun _ => .pure alike rfl) fun _ => eval_together hosts _ g alike

end Guards

/-- Closures under construction that are the same up to their stacks. -/
structure Closure.Like (R : Nat → Nat → Prop) (acc acc' : Closure) : Prop where
  configs : acc.configs.Like R acc'.configs
  busy : Threads.Like R acc.busy acc'.busy

theorem Closure.Like.imp {acc acc' : Closure} (h : Closure.Like R acc acc')
    (weaker : ∀ a b, R a b → R' a b) : Closure.Like R' acc acc' :=
  ⟨h.configs.imp weaker, h.busy.imp weaker⟩

section Closure

variable {q : Problem τ} {ask' : Question → τ → Bool × τ} {s s' : Simulation σ τ}
  {c c' : Configuration} {set set' : ConfigurationSet} {acc acc' : Closure}

/-- A guard on an edge stops both threads or none. -/
theorem crossGuard_together (hosts : SameAnswers q.situation.ask ask') (alike : s.Alike lag older s')
    (thread : c.Like (s.Same s') c') (full collect : Bool) (target : Nat) (guard : Guard) :
    Together lag older s s' (crossGuard q full collect c target guard)
      (crossGuard (q.asking ask') full collect c' target guard)
      fun R => Option.Rel (Configuration.Like R) := by
  obtain ⟨stack, same, rfl⟩ := thread
  have moved {t t' : Simulation σ τ} (same : t.Same t' c.stack stack) (guard : Guard) :
      Configuration.Like (t.Same t') { c with state := target, guard }
        { c with stack, state := target, guard } := ⟨stack, same, rfl⟩
  refine .ite .rfl (fun _ => .pure alike (.some (moved same _))) fun _ => ?_
  refine .ite .rfl (fun _ => ?_) fun _ => .pure alike (.some (moved same _))
  refine .bind (index_together alike) ?_
  rintro here _ t t' later rfl
  refine .bind (seek_together later.like _) fun _ _ u u' later' _ => ?_
  refine .bind (eval_together hosts _ guard later'.like) ?_
  rintro answer _ v v' later'' rfl
  refine .bind (seek_together later''.like _) fun _ _ w w' later₃ _ => .pure later₃.like ?_
  have same := (((later.trans later').trans later'').trans later₃).same _ _ same
  split
  · exact .some (moved same _)
  · exact .none

/-- Like threads cross an edge to like threads. -/
theorem cross_together (hosts : SameAnswers q.situation.ask ask') (alike : s.Alike lag older s')
    (thread : c.Like (s.Same s') c') (mode : ClosureMode) (collect inRule : Bool) (t : Transition) :
    Together lag older s s' (cross q mode collect inRule c t)
      (cross (q.asking ask') mode collect inRule c' t) fun R => Option.Rel (Configuration.Like R) := by
  have guards (collect : Bool) (target : Nat) (guard : Guard) :=
    crossGuard_together hosts alike thread mode.fullContext collect target guard
  obtain ⟨stack, same, rfl⟩ := thread
  have here (target : Nat) : Configuration.Like (s.Same s') { c with state := target }
      { c with stack, state := target } := ⟨stack, same, rfl⟩
  have reads (target : Nat) (t : Transition) : Together lag older s s'
      (pure (if mode.crossEof && t.reads Symbol.eof 0 1 then some { c with state := target } else none))
      (pure (if mode.crossEof && t.reads Symbol.eof 0 1 then some { c with stack, state := target }
        else none)) fun R => Option.Rel (Configuration.Like R) := by
    refine .pure alike ?_
    split
    · exact .some (here target)
    · exact .none
  cases t with
  | call target rule precedence follow =>
      refine .bind (pushFrame_together alike same follow) fun id id' t t' later pushed => ?_
      exact .pure later.like (.some ⟨id', pushed, rfl⟩)
  | precedence => exact guards _ _ _
  | predicate => exact guards _ _ _
  | action => exact .pure alike (.some (here _))
  | epsilon => exact .pure alike (.some (here _))
  | atom => exact reads _ _
  | range => exact reads _ _
  | set => exact reads _ _
  | notSet => exact .pure alike .none
  | wildcard => exact .pure alike .none

/-- Two ways of closing that do the same to threads that are alike. -/
def ClosesTogether (lag : Nat) (older : List Report)
    (onward onward' : Bool → Int → Configuration → Closure → Prediction σ τ Closure) : Prop :=
  ∀ (s s' : Simulation σ τ) (collect : Bool) (depth : Int) (c c' : Configuration) (acc acc' : Closure),
    s.Alike lag older s' → c.Like (s.Same s') c' → Closure.Like (s.Same s') acc acc' →
    Together lag older s s' (onward collect depth c acc) (onward' collect depth c' acc') Closure.Like

variable {onward onward' : Bool → Int → Configuration → Closure → Prediction σ τ Closure}

theorem followEdge_together (hosts : SameAnswers q.situation.ask ask')
    (closes : ClosesTogether lag older onward onward') (alike : s.Alike lag older s')
    (thread : c.Like (s.Same s') c') (accs : Closure.Like (s.Same s') acc acc') (mode : ClosureMode)
    (rule : Nat) (collect : Bool) (depth : Int) (from_ : State) (t : Transition) :
    Together lag older s s' (followEdge q mode rule onward collect depth c from_ acc t)
      (followEdge (q.asking ask') mode rule onward' collect depth c' from_ acc' t) Closure.Like := by
  refine .bind (cross_together hosts alike thread mode _ _ t) fun moved moved' u u' later targets => ?_
  have accs := accs.imp later.same
  cases targets with
  | none => exact .pure later.like accs
  | @some target target' targets =>
      have known {d d' : Configuration} (like : d.Like (u.Same u') d') :
          (acc.busy.any d.same = true) ↔ (acc'.busy.any d'.same = true) := by
        rw [Threads.Like.any_same later.like.arena.biUnique accs.busy like]
      obtain ⟨stack, same, rfl⟩ := targets
      refine .ite .rfl (fun _ => ?_) fun _ => ?_
      · have returned (suppressed : Bool) : Configuration.Like (u.Same u')
            { target with suppressed, outerDepth := target.outerDepth + 1 }
            { target with stack, suppressed, outerDepth := target.outerDepth + 1 } :=
          ⟨stack, same, rfl⟩
        refine .ite (known (returned _)) (fun _ => .pure later.like accs) fun _ => ?_
        refine closes _ _ _ _ _ _ _ _ later.like (returned _) ⟨?_, .cons (returned _) accs.busy⟩
        obtain ⟨threads, each, eq⟩ := accs.configs
        exact ⟨threads, each, by rw [eq]⟩
      · have moved : Configuration.Like (u.Same u') target { target with stack } := ⟨stack, same, rfl⟩
        refine .ite .rfl (fun _ => closes _ _ _ _ _ _ _ _ later.like moved accs) fun _ => ?_
        refine .ite (known moved) (fun _ => .pure later.like accs) fun _ => ?_
        exact closes _ _ _ _ _ _ _ _ later.like moved ⟨accs.configs, .cons moved accs.busy⟩

theorem expand_together (hosts : SameAnswers q.situation.ask ask')
    (closes : ClosesTogether lag older onward onward') (alike : s.Alike lag older s')
    (thread : c.Like (s.Same s') c') (accs : Closure.Like (s.Same s') acc acc') (mode : ClosureMode)
    (collect : Bool) (depth : Int) :
    Together lag older s s' (expand q mode onward collect depth c acc)
      (expand (q.asking ask') mode onward' collect depth c' acc') Closure.Like := by
  unfold expand
  have follows {u u' : Simulation σ τ} (alike : u.Alike lag older u') (thread : c.Like (u.Same u') c')
      {acc acc' : Closure} (accs : Closure.Like (u.Same u') acc acc') (from_ : State) :
      Together lag older u u'
        (do
          let rule := (← Step.ofQuestion (q.grammar.network.state q.decisionState)).rule
          from_.transitions.foldlM (followEdge q mode rule onward collect depth c from_) acc)
        (do
          let rule := (← Step.ofQuestion (q.grammar.network.state q.decisionState)).rule
          from_.transitions.foldlM
            (followEdge (q.asking ask') mode rule onward' collect depth c' from_) acc')
        Closure.Like := by
    refine .bind (.question alike alike rfl) ?_
    rintro decision _ v v' later rfl
    refine .foldlM_same later.like (accs.imp later.same) fun w w' later' acc acc' accs t _ => ?_
    have thread := (thread.imp later.same).imp later'.same
    exact followEdge_together hosts closes later'.like thread accs mode _ collect depth from_ t
  obtain ⟨stack, same, rfl⟩ := thread
  refine .bind (.question alike alike rfl) ?_
  rintro here _ u u' later rfl
  have thread := Configuration.Like.imp ⟨stack, same, rfl⟩ later.same
  have accs := accs.imp later.same
  refine .ite .rfl (fun _ => ?_) fun _ => ?_
  · exact .bind (.pure later.like accs) fun acc acc' v v' later' accs =>
      follows later'.like (thread.imp later'.same) accs here
  · refine .bind (addTo_together later.like accs.configs thread) fun set set' v v' later' sets => ?_
    have busy := accs.busy.imp later'.same
    refine .bind (P := Closure.Like) (.pure later'.like ⟨sets, busy⟩) fun acc acc' w w' later'' accs => ?_
    exact follows later''.like ((thread.imp later'.same).imp later''.same) accs here

/-- Like threads have like closures. -/
theorem close_together (hosts : SameAnswers q.situation.ask ask') (mode : ClosureMode) (fuel : Nat) :
    ClosesTogether (σ := σ) lag older (close q mode fuel) (close (q.asking ask') mode fuel) := by
  induction fuel with
  | zero => exact fun _ _ _ _ _ _ _ _ alike _ _ => .throw alike (.fault .exhausted)
  | succ fuel ih =>
      intro s s' collect depth c c' acc acc' alike thread accs
      rw [Prediction.close, Prediction.close]
      have expands {u u' : Simulation σ τ} (alike : u.Alike lag older u')
          (thread : c.Like (u.Same u') c') {acc acc' : Closure} (accs : Closure.Like (u.Same u') acc acc') :=
        expand_together hosts ih alike thread accs mode collect depth
      have keeps {u u' : Simulation σ τ} (alike : u.Alike lag older u') {d d' : Configuration}
          (thread : d.Like (u.Same u') d') {acc acc' : Closure}
          (accs : Closure.Like (u.Same u') acc acc') :
          Together lag older u u' (do return { acc with configs := ← addTo acc.configs d })
            (do return { acc' with configs := ← addTo acc'.configs d' }) Closure.Like := by
        refine .bind (addTo_together alike accs.configs thread) fun set set' v v' later sets => ?_
        exact .pure later.like ⟨sets, accs.busy.imp later.same⟩
      obtain ⟨stack, same, rfl⟩ := thread
      refine .bind (.question alike alike rfl) ?_
      rintro here _ u u' later rfl
      have same := later.same _ _ same
      have thread : Configuration.Like (u.Same u') c { c with stack } := ⟨stack, same, rfl⟩
      have accs := accs.imp later.same
      refine .ite .rfl (fun _ => expands later.like thread accs) fun _ => ?_
      refine .ite same.eq_zero_iff (fun _ => ?_) fun _ => .get ?_
      · exact .ite .rfl (fun _ => keeps later.like thread accs) fun _ => expands later.like thread accs
      · refine .foldlM (E := StackGraph.Way) later.like
          (fun later _ _ way => ⟨later.same _ _ way.1, way.2⟩) same.ways accs ?_
        rintro v v' later' acc acc' accs ⟨parent, resume⟩ - ⟨parent', resume'⟩ ⟨parents, resumes⟩
        obtain rfl : resume = resume' := resumes
        refine .ite .rfl (fun _ => ?_) fun _ => ?_
        · refine .ite .rfl (fun _ => keeps later'.like ⟨0, .empty, rfl⟩ accs) fun _ => ?_
          exact expands later'.like (thread.imp later'.same) accs
        · exact ih _ _ _ _ _ _ _ _ later'.like ⟨parent', parents, rfl⟩ accs

/-- Predictions start with threads that are alike. -/
theorem startConfigs_together (hosts : SameAnswers q.situation.ask ask') (alike : s.Alike lag older s')
    (fullContext : Bool) {stack stack' : Nat} (same : s.Same s' stack stack') :
    Together lag older s s' (startConfigs q fullContext stack)
      (startConfigs (q.asking ask') fullContext stack') ConfigurationSet.Like := by
  unfold startConfigs
  refine .bind (.question alike alike rfl) ?_
  rintro here _ u u' later rfl
  refine .foldlM_same later.like (.empty fullContext) ?_
  rintro v v' later' set set' sets ⟨t, i⟩ -
  have same := later'.same _ _ (later.same _ _ same)
  refine .bind (close_together hosts _ _ _ _ _ _ _ _ _ _ later'.like ⟨stack', same, rfl⟩ ⟨sets, .nil⟩) ?_
  exact fun acc acc' w w' later'' accs => .pure later''.like accs.configs

end Closure

section Reach

variable {q : Problem τ} {ask' : Question → τ → Bool × τ} {s s' : Simulation σ τ}
  {set set' : ConfigurationSet}

/-- The same threads read a symbol, and the same have finished. -/
theorem moved_together (alike : s.Alike lag older s') (sets : set.Like (s.Same s') set')
    (symbol : Symbol) (fullContext : Bool) :
    Together lag older s s' (moved q set symbol fullContext)
      (moved (q.asking ask') set' symbol fullContext)
      fun R made made' => made.1.Like R made'.1 ∧ Threads.Like R made.2 made'.2 := by
  unfold moved
  refine .foldlM (E := Configuration.Like) alike (fun later _ _ h => h.imp later.same) sets.toList
    ⟨.empty fullContext, .nil⟩ ?_
  rintro t t' later ⟨moved, finished⟩ ⟨moved', finished'⟩ ⟨sets, threads⟩ c - c' ⟨stack, same, rfl⟩
  refine .bind (.question later.like later.like rfl) ?_
  rintro here _ u u' later' rfl
  have sets := sets.imp later'.same
  have threads := threads.imp later'.same
  have same := later'.same _ _ same
  refine .ite .rfl (fun _ => .ite .rfl (fun _ => .pure later'.like ⟨sets, ?_⟩) fun _ =>
    .pure later'.like ⟨sets, threads⟩) fun _ => ?_
  · exact List.rel_append threads (.cons ⟨stack, same, rfl⟩ .nil)
  · refine .bind (P := ConfigurationSet.Like) (.foldlM_same later'.like sets ?_) ?_
    · intro v v' later'' moved moved' sets t _
      refine .ite .rfl (fun _ => ?_) fun _ => .pure later''.like sets
      exact addTo_together later''.like sets ⟨stack, later''.same _ _ same, rfl⟩
    · exact fun moved moved' v v' later'' sets => .pure later''.like ⟨sets, threads.imp later''.same⟩

theorem finishedOnly_together (alike : s.Alike lag older s') (sets : set.Like (s.Same s') set')
    (unclosed : Bool) : Together lag older s s' (finishedOnly q set unclosed)
      (finishedOnly (q.asking ask') set' unclosed) ConfigurationSet.Like := by
  unfold finishedOnly
  refine .bind (.question alike alike (sets.allInRuleStop _)) ?_
  rintro all _ t t' later rfl
  have sets := sets.imp later.same
  refine .ite .rfl (fun _ => .pure later.like sets) fun _ => ?_
  refine .foldlM (E := Configuration.Like) later.like (fun later _ _ h => h.imp later.same)
    sets.toList ?_ ?_
  · rw [sets.fullContext]
    exact .empty _
  rintro u u' later' result result' results c - c' ⟨stack, same, rfl⟩
  refine .bind (.question later'.like later'.like rfl) ?_
  rintro here _ v v' later'' rfl
  have results := results.imp later''.same
  have same := later''.same _ _ same
  refine .ite .rfl (fun _ => addTo_together later''.like results ⟨stack, same, rfl⟩) fun _ => ?_
  refine .ite .rfl (fun _ => ?_) fun _ => .pure later''.like results
  refine .bind (.question later''.like later''.like rfl) ?_
  rintro following _ w w' later₃ rfl
  have results := results.imp later₃.same
  have same := later₃.same _ _ same
  dsimp only [Problem.asking]
  split
  · exact addTo_together later₃.like results ⟨stack, same, rfl⟩
  · exact .pure later₃.like results

/-- A symbol leads from sets that are alike to sets that are alike. -/
theorem reach_together (hosts : SameAnswers q.situation.ask ask') (alike : s.Alike lag older s')
    (sets : set.Like (s.Same s') set') (symbol : Symbol) (fullContext : Bool) :
    Together lag older s s' (reach q set symbol fullContext)
      (reach (q.asking ask') set' symbol fullContext) fun R => Option.Rel (ConfigurationSet.Like R) := by
  unfold reach
  have answers {t t' : Simulation σ τ} (alike : t.Alike lag older t') {reached reached' : ConfigurationSet}
      (sets : reached.Like (t.Same t') reached') :
      Together lag older t t' (pure (if reached.isEmpty then none else some reached))
        (pure (if reached'.isEmpty then none else some reached'))
        fun R => Option.Rel (ConfigurationSet.Like R) := by
    refine .pure alike ?_
    rw [sets.isEmpty]
    split
    · exact .none
    · exact .some sets
  extract_lets n atEnd answer n'
  refine .bind (moved_together alike sets symbol fullContext) ?_
  rintro ⟨moved, finished⟩ ⟨moved', finished'⟩ t t' later ⟨sets, threads⟩
  dsimp -zeta only
  extract_lets settled finish complete settled' finish' complete'
  have finishes {u u' : Simulation σ τ} (later : Step.Later (Simulation.Alike lag older) t t' u u')
      {reached reached' : ConfigurationSet} (sets : reached.Like (u.Same u') reached') :
      Together lag older u u' (finish reached) (finish' reached')
        fun R => Option.Rel (ConfigurationSet.Like R) := by
    refine .bind (.question later.like later.like (sets.anyInRuleStop _)) ?_
    rintro ended _ v v' later' rfl
    have sets := sets.imp later'.same
    refine .ite .rfl (fun _ => .bind (.pure later'.like sets) ?_) fun _ => ?_
    · exact fun reached reached' w w' later'' sets => answers later''.like sets
    · have threads := (threads.imp later.same).imp later'.same
      refine .bind (foldlM_addTo_together later'.like sets threads) ?_
      exact fun reached reached' w w' later'' sets => answers later''.like sets
  have same : settled' = settled := by
    have none : finished'.isEmpty = finished.isEmpty := by
      rw [Bool.eq_iff_iff, List.isEmpty_iff_length_eq_zero, List.isEmpty_iff_length_eq_zero,
        threads.length_eq]
    simp only [settled, settled', sets.size, sets.agreedAlt, none]
  -- The set is completed in the same way whether it had to be closed or not.
  have completes {u u' : Simulation σ τ} (later : Step.Later (Simulation.Alike lag older) t t' u u')
      {reached reached' : ConfigurationSet} (sets : reached.Like (u.Same u') reached') :
      Together lag older u u' (complete reached) (complete' reached')
        fun R => Option.Rel (ConfigurationSet.Like R) := by
    refine .ite .rfl (fun _ => ?_) fun _ => .bind (.pure later.like sets) ?_
    · rw [same]
      refine .bind (finishedOnly_together later.like sets settled) ?_
      exact fun reached reached' v v' later' sets => finishes (later.trans later') sets
    · exact fun reached reached' v v' later' sets => finishes (later.trans later') sets
  refine .ite (by rw [same]) (fun _ => .bind (.pure later.like sets) ?_) fun _ => ?_
  · exact fun reached reached' u u' later' sets => completes later' sets
  · refine .bind (P := Closure.Like) (.foldlM (E := Configuration.Like) later.like
      (fun later _ _ h => h.imp later.same) sets.toList ⟨.empty fullContext, .nil⟩ ?_) ?_
    · exact fun u u' later' acc acc' accs c _ c' thread =>
        close_together hosts _ _ _ _ _ _ _ _ _ _ later'.like thread accs
    · refine fun acc acc' u u' later' accs => .bind (.pure later'.like accs.configs) ?_
      exact fun reached reached' v v' later'' sets => completes (later'.trans later'') sets

end Reach

end Prediction

end AdaptiveLL
