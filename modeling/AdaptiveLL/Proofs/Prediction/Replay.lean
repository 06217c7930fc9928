import AdaptiveLL.Proofs.Prediction.Aside
import AdaptiveLL.Proofs.Prediction.Merge
/-!
Prediction without context can be repeated. What it computes depends on the decision and on
the stacks that are there; at any later time, and whoever asks for it, the same comes out
again. Prediction with the full context shares the steps, but nothing of it is kept, so that
of it only this is shown: it leaves the tables alone, and the stacks that are there stay.
-/
namespace AdaptiveLL

open StackGraph

namespace ConfigurationSet

variable {full : Bool} {g g' : StackGraph} {set : ConfigurationSet} {c : Configuration}
  {s s' : Stacks}

/-- A set of threads whose stacks are nodes of the graph, and about which nothing has been
settled yet. -/
structure Open (full : Bool) (g : StackGraph) (set : ConfigurationSet) : Prop where
  fullContext : set.fullContext = full
  ordered : set.ordered = false
  uniqueAlt : set.uniqueAlt = noAlt
  conflicting : set.conflicting = none
  stored : ∀ c ∈ set.toList, g.Present c.stack

namespace Open

theorem empty (full : Bool) (g : StackGraph) : Open full g { fullContext := full } where
  fullContext := rfl
  ordered := rfl
  uniqueAlt := rfl
  conflicting := rfl
  stored c mem := by simp [toList] at mem

theorem mono (h : set.Open full g) (grown : g.Extends g') : set.Open full g' :=
  { h with stored := fun c mem => (h.stored c mem).mono grown }

theorem existing (h : set.Open full g) (present : g.Present c.stack) (k : Nat) :
    g.Present (set.items[k]?.getD c).stack := by
  cases here : set.items[k]? with
  | none => exact present
  | some old => exact h.stored old (Array.mem_toList_iff.2 (Array.mem_of_getElem? here))

/-- A thread on a stack of the graph may be added. -/
theorem insert (h : set.Open full s.graph) (sound : s.Sound (!full))
    (present : s.graph.Present c.stack) :
    let added := set.insert c s
    s.graph.Extends added.2.graph ∧ added.2.Sound (!full) ∧ added.1.Open full added.2.graph := by
  unfold ConfigurationSet.insert add
  simp only [h.ordered, Bool.false_eq_true, if_false, h.fullContext]
  split
  case h_1 =>
      refine ⟨.refl _, sound, { h with fullContext := rfl, ordered := rfl, stored := ?_ }⟩
      intro c' mem
      rcases Array.mem_push.1 (Array.mem_toList_iff.1 mem) with old | rfl
      · exact h.stored c' (Array.mem_toList_iff.2 old)
      · exact present
  case h_2 k found =>
      have existing := h.existing present k
      have merged := s.merge_merged sound existing present
      refine ⟨merged.grown, merged.sound, { h with fullContext := rfl, ordered := rfl, stored := ?_ }⟩
      intro c' mem
      obtain ⟨i, get⟩ := Array.mem_iff_getElem?.1 (Array.mem_toList_iff.1 mem)
      rw [Array.getElem?_modify] at get
      split at get
      · obtain ⟨old, -, rfl⟩ := Option.map_eq_some_iff.1 get
        exact merged.present
      · have old := h.stored c' (Array.mem_toList_iff.2 (Array.mem_of_getElem? get))
        exact old.mono merged.grown

/-- Adding a thread can be repeated later. -/
theorem insert_again (h : set.Open false s.graph) (sound : s.Sound true)
    (present : s.graph.Present c.stack) (later : (set.insert c s).2.graph.Extends s'.graph)
    (sound' : s'.Sound true) : (set.insert c s').1 = (set.insert c s).1 := by
  unfold ConfigurationSet.insert add at later ⊢
  simp only [h.ordered, Bool.false_eq_true, if_false, h.fullContext] at later ⊢
  cases found : set.items.findIdx? c.sameKey with
  | none => rfl
  | some k =>
      simp only [found] at later ⊢
      have existing := h.existing present k
      have same := s.merge_again sound existing present later sound'
      rw [Bool.not_false, same]

end Open

end ConfigurationSet

/-- The threads of a closure are an open set. -/
abbrev Closure.Open (full : Bool) (g : StackGraph) (acc : Closure) : Prop :=
  acc.configs.Open full g

variable {σ τ σ' τ' : Type}

/-- The tables are what they were, and the stacks that were there are there. Without the full
context the input is not touched. -/
structure Simulation.Grows (full : Bool) (s s' : Simulation σ τ) : Prop where
  tables : s'.tables.tables = s.tables.tables
  graph : s.tables.graph.Extends s'.tables.graph
  sound : s'.tables.arena.Sound (!full)
  input : full = false → s'.input = s.input

namespace Simulation.Grows

variable {full : Bool} {s s' s'' : Simulation σ τ}

theorem refl (sound : s.tables.arena.Sound (!full)) : s.Grows full s :=
  ⟨rfl, .refl _, sound, fun _ => rfl⟩

theorem trans (h : s.Grows full s') (h' : s'.Grows full s'') : s.Grows full s'' where
  tables := h'.tables.trans h.tables
  graph := h.graph.trans h'.graph
  sound := h'.sound
  input exact := (h'.input exact).trans (h.input exact)

end Simulation.Grows

/-- The set as it was before prediction settled on it. -/
def ConfigurationSet.unsettled (set : ConfigurationSet) : ConfigurationSet :=
  { set with uniqueAlt := noAlt, conflicting := none }

/-- The state for a set, as the marks on the set have it. -/
def TableState.judged (configs : ConfigurationSet) : TableState :=
  if configs.uniqueAlt ≠ noAlt then { configs, isAccept := true, prediction := configs.uniqueAlt }
  else
    match configs.conflicting with
    | some alts =>
        { configs, isAccept := true, needsFullContext := true, prediction := alts.head?.getD noAlt }
    | none => { configs }

namespace Prediction

open TableState (judged)

variable {α β : Type} {full : Bool} {g g' : StackGraph} {s : Simulation σ τ} {a : α} {b : β}

/-- Wherever there are the stacks of the graph, the step has this answer. -/
def Repeats (x : Prediction σ τ α) (g : StackGraph) (a : α) : Prop :=
  ∀ s : Simulation σ τ, g.Extends s.tables.graph → s.tables.arena.Sound true →
    ∃ s', x.run s = (.ok a, s') ∧ s.Grows false s'

namespace Repeats

variable {x : Prediction σ τ α} {f : α → Prediction σ τ β}

theorem pure (g : StackGraph) (a : α) : Repeats (Pure.pure a : Prediction σ τ α) g a :=
  fun s _ sound => ⟨s, rfl, .refl sound⟩

theorem mono (h : Repeats x g a) (grown : g.Extends g') : Repeats x g' a :=
  fun s later sound => h s (grown.trans later) sound

theorem bind (first : Repeats x g a) (rest : Repeats (f a) g b) : Repeats (x >>= f) g b := by
  intro s later sound
  obtain ⟨s', run, grows⟩ := first s later sound
  obtain ⟨s'', run', grows'⟩ := rest s' (later.trans grows.graph) grows.sound
  exact ⟨s'', (Step.run_bind_ok run).trans run', grows.trans grows'⟩

end Repeats

/-- A step leaves the tables alone and answers as `P` says; without the full context, the
other step, which may be that of another parser, repeats it. -/
def Runs (full : Bool) (s : Simulation σ τ) (x : Prediction σ τ α) (x' : Prediction σ' τ' α)
    (P : StackGraph → α → Prop) : Prop :=
  Step.Ensures x s
    (fun a s' => s.Grows full s' ∧ P s'.tables.graph a ∧
      (full = false → Repeats x' s'.tables.graph a))
    fun _ s' => s.Grows full s'

namespace Runs

variable {x : Prediction σ τ α} {x' : Prediction σ' τ' α} {f : α → Prediction σ τ β}
  {f' : α → Prediction σ' τ' β} {P P' : StackGraph → α → Prop}
  {R : StackGraph → β → Prop}

theorem pure (sound : s.tables.arena.Sound (!full)) (h : P s.tables.graph a) :
    Runs full s (Pure.pure a) (Pure.pure a : Prediction σ' τ' α) P :=
  ⟨.refl sound, h, fun _ => .pure _ a⟩

theorem throw (sound : s.tables.arena.Sound (!full)) (e : Failure) :
    Runs full s (MonadExcept.throw e) x' P :=
  .refl sound

theorem imp (h : Runs full s x x' P)
    (weaker : ∀ s', s.Grows full s' → ∀ a, P s'.tables.graph a → P' s'.tables.graph a) :
    Runs full s x x' P' :=
  Step.Ensures.imp h (fun a s' ⟨grows, holds, again⟩ => ⟨grows, weaker s' grows a holds, again⟩)
    fun _ _ => id

theorem bind (first : Runs full s x x' P)
    (rest : ∀ a s', s.Grows full s' → P s'.tables.graph a → Runs full s' (f a) (f' a) R) :
    Runs full s (x >>= f) (x' >>= f') R := by
  refine Step.Ensures.bind (Step.Ensures.imp first ?_ fun _ _ => id)
  rintro a s' ⟨grows, holds, again⟩
  refine Step.Ensures.imp (rest a s' grows holds) ?_ fun _ _ => grows.trans
  rintro b s'' ⟨grows', holds', again'⟩
  refine ⟨grows.trans grows', holds', fun exact => ?_⟩
  exact ((again exact).mono grows'.graph).bind (again' exact)

theorem ite {c : Prop} [Decidable c] {y : Prediction σ τ α} {y' : Prediction σ' τ' α}
    (yes : c → Runs full s x x' P) (no : ¬ c → Runs full s y y' P) :
    Runs full s (if c then x else y) (if c then x' else y') P := by
  split
  · exact yes ‹_›
  · exact no ‹_›

theorem ofQuestion {answer : Except Fault α} (sound : s.tables.arena.Sound (!full))
    (h : ∀ a, answer = .ok a → P s.tables.graph a) :
    Runs full s (Step.ofQuestion answer) (Step.ofQuestion answer : Prediction σ' τ' α) P := by
  cases answer with
  | ok a => exact pure sound (h a rfl)
  | error fault => exact throw sound _

/-- A fold, by what one of its steps keeps. -/
theorem foldlM {f : β → α → Prediction σ τ β} {f' : β → α → Prediction σ' τ' β} {xs : List α}
    (sound : s.tables.arena.Sound (!full)) (start : R s.tables.graph b)
    (step : ∀ s', s.Grows full s' → ∀ b, R s'.tables.graph b → ∀ x ∈ xs,
      Runs full s' (f b x) (f' b x) R) :
    Runs full s (xs.foldlM f b) (xs.foldlM f' b) R := by
  induction xs generalizing s b with
  | nil => exact pure sound start
  | cons x xs ih =>
      rw [List.foldlM_cons, List.foldlM_cons]
      refine bind (step s (.refl sound) b start x (.head _)) fun b' s' grows holds => ?_
      refine ih grows.sound holds fun s'' grows' b holds x mem => ?_
      exact step s'' (grows.trans grows') b holds x (.tail _ mem)

/-- A step of the full context that only asks the host or moves the cursor. -/
theorem of_keeps (sound : s.tables.arena.Sound (!full)) (context : full = true) {R : α → Prop}
    (h : Step.Keeps (fun s' => s'.tables = s.tables) x R) :
    Runs full s x x' fun _ a => R a := by
  have inexact : full ≠ false := by simp [context]
  have grows {s' : Simulation σ τ} (same : s'.tables = s.tables) : s.Grows full s' := by
    refine ⟨by rw [same], ?_, same ▸ sound, fun exact => absurd exact inexact⟩
    rw [same]
    exact .refl _
  refine Step.Ensures.imp (h s rfl) ?_ ?_
  · rintro a s' ⟨same, holds⟩
    exact ⟨grows same, holds, fun exact => absurd exact inexact⟩
  · rintro e s' ⟨same, -⟩
    exact grows same

theorem mapM {f : α → Prediction σ τ β} {f' : α → Prediction σ' τ' β} {R : β → Prop}
    {xs : List α} (sound : s.tables.arena.Sound (!full))
    (step : ∀ s', s.Grows full s' → ∀ x ∈ xs, Runs full s' (f x) (f' x) fun _ b => R b) :
    Runs full s (xs.mapM f) (xs.mapM f') fun _ bs => ∀ b ∈ bs, R b := by
  induction xs generalizing s with
  | nil => exact pure sound (by simp)
  | cons x xs ih =>
      rw [List.mapM_cons, List.mapM_cons]
      refine bind (step s (.refl sound) x (.head _)) fun b s' grows holds => ?_
      refine bind (ih grows.sound ?_) fun bs s'' grows' all => pure grows'.sound ?_
      · intro s'' grows' x mem
        exact step s'' (grows.trans grows') x (.tail _ mem)
      · exact List.forall_mem_cons.2 ⟨holds, all⟩

end Runs

/-- A problem of the same decision, with at least as much fuel. -/
structure Akin (q : Problem τ) (q' : Problem τ') : Prop where
  grammar : q'.grammar = q.grammar
  mode : q'.mode = q.mode
  decisionState : q'.decisionState = q.decisionState
  byPrecedence : q'.byPrecedence = q.byPrecedence
  fuel : q.fuel ≤ q'.fuel

theorem Akin.refl (q : Problem τ) : Akin q q :=
  ⟨rfl, rfl, rfl, rfl, Nat.le_refl _⟩

theorem Akin.leavesOperatorRule {q : Problem τ} {q' : Problem τ'} (akin : Akin q q') (rule : Nat) :
    leavesOperatorRule q' rule = leavesOperatorRule q rule := by
  funext t
  unfold Prediction.leavesOperatorRule
  rw [akin.byPrecedence]

section Threads

variable {q : Problem τ} {q' : Problem τ'} {set : ConfigurationSet} {c : Configuration}

theorem addTo_runs (sound : s.tables.arena.Sound (!full)) (h : set.Open full s.tables.graph)
    (present : s.tables.graph.Present c.stack) :
    Runs full s (addTo set c) (addTo set c : Prediction σ' τ' _) (ConfigurationSet.Open full) := by
  obtain ⟨grown, sound', opened⟩ := h.insert sound present
  refine .of_ok rfl ⟨⟨rfl, grown, sound', fun _ => rfl⟩, opened, fun exact => ?_⟩
  subst exact
  intro s' later sound''
  have before := grown.trans later
  obtain ⟨grown', sound', -⟩ := (h.mono before).insert sound'' (present.mono before)
  have same := h.insert_again sound present later sound''
  exact ⟨_, congrArg (fun set => (Except.ok set, _)) same, rfl, grown', sound', fun _ => rfl⟩

theorem foldlM_addTo_runs {threads : List Configuration} (sound : s.tables.arena.Sound (!full))
    (h : set.Open full s.tables.graph) (present : ∀ c ∈ threads, s.tables.graph.Present c.stack) :
    Runs full s (threads.foldlM addTo set) (threads.foldlM addTo set : Prediction σ' τ' _)
      (ConfigurationSet.Open full) := by
  refine .foldlM sound h fun s' grows set h c mem => ?_
  exact addTo_runs grows.sound h ((present c mem).mono grows.graph)

theorem pushFrame_runs {parent resume : Nat} (sound : s.tables.arena.Sound (!full))
    (present : s.tables.graph.Present parent) :
    Runs full s (pushFrame parent resume) (pushFrame parent resume : Prediction σ' τ' _)
      fun g id => g.Present id := by
  have known {g : StackGraph} (present : g.Present parent) :
      ∀ e ∈ [(parent, resume)], g.Present e.1 := by
    intro e mem
    rwa [List.mem_singleton.1 mem]
  obtain ⟨grown, sound', is⟩ := sound.ofEntries (known present)
  refine .of_ok rfl ⟨⟨rfl, grown, sound', fun _ => rfl⟩, is.1, fun exact => ?_⟩
  subst exact
  intro s' later sound''
  obtain ⟨grown', sound', is'⟩ := sound''.ofEntries (known (present.mono (grown.trans later)))
  have same := is'.unique sound'.tidy.distinct ((is.mono later).mono grown')
  exact ⟨_, congrArg (fun id => (Except.ok id, _)) same, rfl, grown', sound', fun _ => rfl⟩

/-- Reading the graph can be repeated as far as the answer is about a node that is there. -/
theorem get_runs {f : List (Nat × Nat) → Prediction σ τ α}
    {f' : List (Nat × Nat) → Prediction σ' τ' α} {R : StackGraph → α → Prop} {id : Nat}
    (present : s.tables.graph.Present id)
    (h : Runs full s (f (s.tables.graph.node id).entries) (f' (s.tables.graph.node id).entries) R) :
    Runs full s (get >>= fun s => f (s.tables.graph.node id).entries)
      (get >>= fun s => f' (s.tables.graph.node id).entries) R := by
  refine Step.Ensures.bind (.of_ok rfl (Step.Ensures.imp h ?_ fun _ _ grows => grows))
  rintro a s' ⟨grows, holds, again⟩
  refine ⟨grows, holds, fun exact s'' later sound => ?_⟩
  have same : s''.tables.graph.node id = s.tables.graph.node id :=
    present.node_eq (grows.graph.trans later)
  have run := again exact s'' later sound
  rw [← same] at run
  exact run

variable [TokenSource σ] [TokenSource σ']

/-- Guards leave the stack alone. -/
theorem crossGuard_runs (collect : Bool) (target : Nat) (guard : Guard)
    (sound : s.tables.arena.Sound (!full)) :
    Runs full s (crossGuard q full collect c target guard)
      (crossGuard q' full collect c target guard : Prediction σ' τ' _)
      fun _ moved => ∀ c' ∈ moved, c'.stack = c.stack := by
  unfold crossGuard
  extract_lets moved
  have here (c' : Configuration) (same : c'.stack = c.stack) :
      ∀ c'' ∈ some c', c''.stack = c.stack := by
    intro c'' mem
    obtain rfl := Option.some.inj mem
    exact same
  refine .ite (fun _ => .pure sound (here _ rfl)) fun _ => ?_
  by_cases context : full = true
  · rw [if_pos context, if_pos context]
    refine .of_keeps sound context ?_
    have aside : Aside fun s' : Simulation σ τ => s'.tables = s.tables := .tables _
    refine .bind index_keeps fun place _ => .bind (aside.seek _) fun _ _ => ?_
    refine .bind (aside.holds guard) fun answer _ => ?_
    refine .bind (aside.seek _) fun _ _ => .pure ?_
    cases answer with
    | true => exact here _ rfl
    | false => simp
  · rw [if_neg context, if_neg context]
    exact .pure sound (here _ rfl)

/-- An edge leads to a stack of the graph, the same on both sides. -/
theorem cross_runs (mode : ClosureMode) (collect inRule : Bool) (t : Transition)
    (sound : s.tables.arena.Sound (!mode.fullContext)) (present : s.tables.graph.Present c.stack) :
    Runs mode.fullContext s (cross q mode collect inRule c t)
      (cross q' mode collect inRule c t : Prediction σ' τ' _) fun g moved => ∀ c' ∈ moved, g.Present c'.stack := by
  have here (c' : Configuration) (same : c'.stack = c.stack) :
      ∀ c'' ∈ some c', s.tables.graph.Present c''.stack := by
    intro c'' mem
    obtain rfl := Option.some.inj mem
    rwa [same]
  have guards (collect : Bool) (target : Nat) (guard : Guard) :
      Runs mode.fullContext s (crossGuard q mode.fullContext collect c target guard)
        (crossGuard q' mode.fullContext collect c target guard : Prediction σ' τ' _)
        fun g moved => ∀ c' ∈ moved, g.Present c'.stack := by
    refine (crossGuard_runs collect target guard sound).imp fun s' grows moved same => ?_
    intro c' mem
    rw [same c' mem]
    exact present.mono grows.graph
  have reads (target : Nat) (t : Transition) :
      Runs mode.fullContext s (pure (if mode.crossEof && t.reads Symbol.eof 0 1
          then some { c with state := target } else none))
        (pure (if mode.crossEof && t.reads Symbol.eof 0 1
          then some { c with state := target } else none) : Prediction σ' τ' _)
        fun g moved => ∀ c' ∈ moved, g.Present c'.stack := by
    refine .pure sound ?_
    split
    · exact here _ rfl
    · simp
  cases t with
  | call target rule precedence follow =>
      refine .bind (pushFrame_runs sound present) fun id s' grows present => ?_
      refine .pure grows.sound fun c' mem => ?_
      obtain rfl := Option.some.inj mem
      exact present
  | precedence => exact guards _ _ _
  | predicate => exact guards _ _ _
  | action => exact .pure sound (here _ rfl)
  | epsilon => exact .pure sound (here _ rfl)
  | atom => exact reads _ _
  | range => exact reads _ _
  | set => exact reads _ _
  | notSet => exact .pure sound (by simp)
  | wildcard => exact .pure sound (by simp)

/-- How a closure goes on from a thread. -/
abbrev Onward (σ τ : Type) :=
  Bool → Int → Configuration → Closure → Prediction σ τ Closure

/-- What a closure does: it adds threads to an open set. -/
def ClosesAlike (full : Bool) (onward : Onward σ τ) (onward' : Onward σ' τ') : Prop :=
  ∀ (s : Simulation σ τ) (collect : Bool) (depth : Int) (c : Configuration) (acc : Closure),
    s.tables.arena.Sound (!full) → s.tables.graph.Present c.stack →
    acc.Open full s.tables.graph →
    Runs full s (onward collect depth c acc) (onward' collect depth c acc)
      (Closure.Open full)

variable {mode : ClosureMode}
  {onward : Onward σ τ} {onward' : Onward σ' τ'} {acc : Closure}

theorem followEdge_runs (akin : Akin q q') (closes : ClosesAlike mode.fullContext onward onward')
    (rule : Nat) (collect : Bool) (depth : Int) (from_ : State) (t : Transition)
    (sound : s.tables.arena.Sound (!mode.fullContext)) (present : s.tables.graph.Present c.stack)
    (h : acc.Open mode.fullContext s.tables.graph) :
    Runs mode.fullContext s (followEdge q mode rule onward collect depth c from_ acc t)
      (followEdge q' mode rule onward' collect depth c from_ acc t)
      (Closure.Open mode.fullContext) := by
  unfold followEdge
  rw [akin.leavesOperatorRule]
  refine .bind (cross_runs mode _ _ t sound present) fun moved s' grows present => ?_
  have h := h.mono grows.graph
  cases moved with
  | none => exact .pure grows.sound h
  | some target =>
      have present : s'.tables.graph.Present target.stack := present target rfl
      refine .ite (fun _ => ?_) fun _ => ?_
      · refine .ite (fun _ => .pure grows.sound h) fun _ => ?_
        refine closes _ _ _ _ _ grows.sound present ?_
        exact { h with }
      · refine .ite (fun _ => closes _ _ _ _ _ grows.sound present h) fun _ => ?_
        exact .ite (fun _ => .pure grows.sound h) fun _ => closes _ _ _ _ _ grows.sound present h

theorem expand_runs (akin : Akin q q') (closes : ClosesAlike mode.fullContext onward onward')
    (collect : Bool) (depth : Int) (sound : s.tables.arena.Sound (!mode.fullContext))
    (present : s.tables.graph.Present c.stack)
    (h : acc.Open mode.fullContext s.tables.graph) :
    Runs mode.fullContext s (expand q mode onward collect depth c acc)
      (expand q' mode onward' collect depth c acc)
      (Closure.Open mode.fullContext) := by
  unfold expand
  rw [akin.grammar, akin.decisionState]
  refine .bind (.ofQuestion (P := fun _ _ => True) sound fun _ _ => trivial) ?_
  intro here s' grows _
  have present := present.mono grows.graph
  have h := h.mono grows.graph
  extract_lets follow follow'
  have follows {s' : Simulation σ τ} (sound : s'.tables.arena.Sound (!mode.fullContext))
      (present : s'.tables.graph.Present c.stack) {acc : Closure}
      (h : acc.Open mode.fullContext s'.tables.graph) :
      Runs mode.fullContext s' (follow acc) (follow' acc)
        (Closure.Open mode.fullContext) := by
    refine .bind (.ofQuestion (P := fun _ _ => True) sound fun _ _ => trivial) ?_
    intro rule s'' grows _
    refine .foldlM grows.sound (h.mono grows.graph) fun s₃ grows' acc h t _ => ?_
    have present := (present.mono grows.graph).mono grows'.graph
    exact followEdge_runs akin closes _ _ _ _ _ grows'.sound present h
  refine .ite (fun _ => .bind (.pure (P := Closure.Open mode.fullContext) grows.sound h) fun acc s'' grows' h => ?_) fun _ => ?_
  · exact follows grows'.sound (present.mono grows'.graph) h
  · refine .bind (addTo_runs grows.sound h present) fun configs s'' grows' h => ?_
    refine .bind (.pure (P := Closure.Open mode.fullContext) grows'.sound h) fun acc s₃ grows'' h => ?_
    exact follows grows''.sound ((present.mono grows'.graph).mono grows''.graph) h

/-- A closure does the same with more fuel. -/
theorem close_closesAlike (akin : Akin q q') (mode : ClosureMode) {fuel fuel' : Nat}
    (le : fuel ≤ fuel') :
    ClosesAlike mode.fullContext (close q mode fuel : Onward σ τ)
      (close q' mode fuel' : Onward σ' τ') := by
  induction fuel generalizing fuel' with
  | zero => exact fun s _ _ _ _ sound _ _ => .throw sound _
  | succ fuel ih =>
      obtain ⟨fuel', rfl⟩ : ∃ k, fuel' = k + 1 := ⟨fuel' - 1, by omega⟩
      have closes := ih (Nat.le_of_succ_le_succ le)
      intro s collect depth c acc sound present h
      rw [Prediction.close, Prediction.close, akin.grammar]
      refine .bind (.ofQuestion (P := fun _ _ => True) sound fun _ _ => trivial) ?_
      intro here s' grows _
      have present := present.mono grows.graph
      have h := h.mono grows.graph
      have expands {s' : Simulation σ τ} (sound : s'.tables.arena.Sound (!mode.fullContext))
          (present : s'.tables.graph.Present c.stack) {acc : Closure}
          (h : acc.Open mode.fullContext s'.tables.graph) :=
        expand_runs akin closes collect depth sound present h
      have keeps {s' : Simulation σ τ} (sound : s'.tables.arena.Sound (!mode.fullContext))
          {c : Configuration} (present : s'.tables.graph.Present c.stack) {acc : Closure}
          (h : acc.Open mode.fullContext s'.tables.graph) :
          Runs mode.fullContext s' (do return { acc with configs := ← addTo acc.configs c })
            (do return { acc with configs := ← addTo acc.configs c } : Prediction σ' τ' Closure)
            (Closure.Open mode.fullContext) := by
        refine .bind (addTo_runs sound h present) fun configs s'' grows h => ?_
        exact .pure grows.sound h
      extract_lets onward onward'
      refine .ite (fun _ => expands grows.sound present h) fun _ => ?_
      refine .ite (fun _ => ?_) fun _ => get_runs present ?_
      · refine .ite (fun _ => ?_) fun _ => expands grows.sound present h
        exact keeps grows.sound present h
      · refine .foldlM grows.sound h fun s'' grows' acc h entry mem => ?_
        have parent := (grows.sound.tidy.entries_present c.stack entry mem).mono grows'.graph
        have present := present.mono grows'.graph
        refine .ite (fun _ => .ite (fun _ => ?_) fun _ => expands grows'.sound present h) fun _ => ?_
        · exact keeps grows'.sound present_zero h
        · exact closes _ _ _ _ _ grows'.sound parent h

/-- The threads of a start can be computed again. -/
theorem startConfigs_runs (akin : Akin q q') (full : Bool) {stack : Nat}
    (sound : s.tables.arena.Sound (!full)) (present : s.tables.graph.Present stack) :
    Runs full s (startConfigs q full stack) (startConfigs q' full stack : Prediction σ' τ' _)
      (ConfigurationSet.Open full) := by
  unfold startConfigs
  rw [akin.grammar, akin.decisionState]
  refine .bind (.ofQuestion (P := fun _ _ => True) sound fun _ _ => trivial) ?_
  intro here s' grows _
  extract_lets mode
  refine .foldlM grows.sound (.empty full _) fun s'' grows' configs h (t, i) _ => ?_
  have present := (present.mono grows.graph).mono grows'.graph
  refine .bind (close_closesAlike akin mode akin.fuel _ _ _ _ _ grows'.sound present h) ?_
  exact fun acc s₃ grows'' h => .pure grows''.sound h

omit [TokenSource σ] [TokenSource σ'] in
/-- Threads that read a symbol do so on both sides. -/
theorem moved_runs (akin : Akin q q') (symbol : Symbol) (sound : s.tables.arena.Sound (!full))
    (stored : ∀ c ∈ set.toList, s.tables.graph.Present c.stack) :
    Runs full s (moved q set symbol full) (moved q' set symbol full : Prediction σ' τ' _)
      fun g (moved, finished) => moved.Open full g ∧ ∀ c ∈ finished, g.Present c.stack := by
  unfold moved
  rw [akin.grammar]
  refine .foldlM sound ⟨.empty full _, by simp⟩ ?_
  rintro s' grows ⟨moved, finished⟩ ⟨opened, ended⟩ c mem
  have present := (stored c mem).mono grows.graph
  refine .bind (.ofQuestion (P := fun _ _ => True) grows.sound fun _ _ => trivial) ?_
  intro here s'' grows' _
  have opened := opened.mono grows'.graph
  have ended : ∀ c ∈ finished, s''.tables.graph.Present c.stack :=
    fun c mem => (ended c mem).mono grows'.graph
  have present := present.mono grows'.graph
  refine .ite (fun _ => .ite (fun _ => .pure grows'.sound ⟨opened, ?_⟩) fun _ =>
    .pure grows'.sound ⟨opened, ended⟩) fun _ => ?_
  · intro c' mem
    rcases List.mem_append.1 mem with mem | mem
    · exact ended c' mem
    · exact List.mem_singleton.1 mem ▸ present
  · refine .bind (P := ConfigurationSet.Open full) (.foldlM grows'.sound opened ?_) ?_
    · intro s₃ grows'' moved opened t _
      refine .ite (fun _ => addTo_runs grows''.sound opened ?_) fun _ => .pure grows''.sound opened
      exact present.mono grows''.graph
    · intro moved s₃ grows'' opened
      exact .pure grows''.sound ⟨opened, fun c mem => (ended c mem).mono grows''.graph⟩

omit [TokenSource σ] [TokenSource σ'] in
/-- Threads that have finished do so on both sides. -/
theorem finishedOnly_runs (akin : Akin q q') (unclosed : Bool)
    (sound : s.tables.arena.Sound (!full)) (h : set.Open full s.tables.graph) :
    Runs full s (finishedOnly q set unclosed) (finishedOnly q' set unclosed : Prediction σ' τ' _)
      (ConfigurationSet.Open full) := by
  unfold finishedOnly
  rw [akin.grammar, h.fullContext]
  refine .bind (.ofQuestion (P := fun _ _ => True) sound fun _ _ => trivial) fun all s' grows _ => ?_
  refine .ite (fun _ => .pure grows.sound (h.mono grows.graph)) fun _ => ?_
  refine .foldlM grows.sound (.empty full _) fun s'' grows' result opened c mem => ?_
  have present := ((h.stored c mem).mono grows.graph).mono grows'.graph
  refine .bind (.ofQuestion (P := fun _ _ => True) grows'.sound fun _ _ => trivial) ?_
  intro here s₃ grows'' _
  have opened := opened.mono grows''.graph
  have present := present.mono grows''.graph
  refine .ite (fun _ => addTo_runs grows''.sound opened present) fun _ => ?_
  refine .ite (fun _ => ?_) fun _ => .pure grows''.sound opened
  refine .bind (.ofQuestion (P := fun _ _ => True) grows''.sound fun _ _ => trivial) ?_
  intro following s₄ grows₃ _
  have opened := opened.mono grows₃.graph
  split
  · exact addTo_runs grows₃.sound opened (present.mono grows₃.graph)
  · exact .pure grows₃.sound opened

/-- What a symbol leads to can be computed again. -/
theorem reach_runs (akin : Akin q q') (symbol : Symbol) (sound : s.tables.arena.Sound (!full))
    (stored : ∀ c ∈ set.toList, s.tables.graph.Present c.stack) :
    Runs full s (reach q set symbol full) (reach q' set symbol full : Prediction σ' τ' _)
      fun g reached => ∀ configs ∈ reached, configs.Open full g := by
  unfold reach
  rw [akin.grammar]
  extract_lets n atEnd answer answer'
  have answers {s' : Simulation σ τ} (sound : s'.tables.arena.Sound (!full))
      {reached : ConfigurationSet} (opened : reached.Open full s'.tables.graph) :
      Runs full s' (answer reached) (answer' reached)
        fun g reached => ∀ configs ∈ reached, configs.Open full g := by
    refine .pure sound fun configs mem => ?_
    split at mem
    · simp at mem
    · exact Option.some.inj mem ▸ opened
  refine .bind (moved_runs akin symbol sound stored) ?_
  rintro ⟨moved, finished⟩ s' grows ⟨opened, ended⟩
  dsimp -zeta only
  extract_lets settled finish complete finish' complete'
  have finishes {s'' : Simulation σ τ} (grows : s'.Grows full s'') {reached : ConfigurationSet}
      (opened : reached.Open full s''.tables.graph) :
      Runs full s'' (finish reached) (finish' reached)
        fun g reached => ∀ configs ∈ reached, configs.Open full g := by
    refine .bind (.ofQuestion (P := fun _ _ => True) grows.sound fun _ _ => trivial) ?_
    intro stopped s₃ grows' _
    have opened := opened.mono grows'.graph
    refine .ite (fun _ => .bind (.pure (P := ConfigurationSet.Open full) grows'.sound opened) ?_) fun _ => ?_
    · exact fun reached s₄ grows'' opened => answers grows''.sound opened
    · refine .bind (foldlM_addTo_runs grows'.sound opened ?_) ?_
      · exact fun c mem => ((ended c mem).mono grows.graph).mono grows'.graph
      · exact fun reached s₄ grows'' opened => answers grows''.sound opened
  have completes {s'' : Simulation σ τ} (grows : s'.Grows full s'') {reached : ConfigurationSet}
      (opened : reached.Open full s''.tables.graph) :
      Runs full s'' (complete reached) (complete' reached)
        fun g reached => ∀ configs ∈ reached, configs.Open full g := by
    refine .ite (fun _ => ?_) fun _ => .bind (.pure (P := ConfigurationSet.Open full) grows.sound opened) ?_
    · refine .bind (finishedOnly_runs akin settled grows.sound opened) ?_
      exact fun reached s₃ grows' opened => finishes (grows.trans grows') opened
    · exact fun reached s₃ grows' opened => finishes (grows.trans grows') opened
  refine .ite (fun _ => .bind (.pure (P := ConfigurationSet.Open full) grows.sound opened) ?_) fun _ => ?_
  · exact fun reached s'' grows' opened => completes grows' opened
  · refine .bind (P := Closure.Open full) (.foldlM grows.sound (.empty full _) ?_) ?_
    · intro s'' grows' acc h c mem
      have present := (opened.stored c mem).mono grows'.graph
      exact close_closesAlike akin _ akin.fuel _ _ _ _ _ grows'.sound present h
    · intro closure s'' grows' h
      refine .bind (.pure (P := ConfigurationSet.Open full) grows'.sound h) fun reached s₃ grows'' opened => ?_
      exact completes (grows'.trans grows'') opened

end Threads

section Choice

variable {q : Problem τ} {q' : Problem τ'} {set : ConfigurationSet}
  (level : q'.situation.precedence = q.situation.precedence)

mutual

/-- Precedence predicates are answered by the precedence alone. -/
theorem evalPrecedence_runs (level : q'.situation.precedence = q.situation.precedence)
    (node node' : Option Nat) (g : Guard) {s : Simulation σ τ}
    (sound : s.tables.arena.Sound (!full)) :
    Runs full s (g.evalPrecedence (evaluator q) node)
      (g.evalPrecedence (evaluator q') node' : Prediction σ' τ' _) fun _ _ => True := by
  match g with
  | .always => exact .pure sound trivial
  | .predicate .. => exact .pure sound trivial
  | .precedence _ =>
      rw [Guard.evalPrecedence, Guard.evalPrecedence, evaluator, evaluator, level]
      refine .bind (.pure (P := fun _ _ => True) sound trivial) fun holds s' grows _ => ?_
      exact .ite (fun _ => .pure grows.sound trivial) fun _ => .pure grows.sound trivial
  | .all gs =>
      rw [Guard.evalPrecedence, Guard.evalPrecedence]
      refine .bind (remainingAll_runs level node node' gs sound) fun remaining s' grows _ => ?_
      match remaining with
      | none => exact .pure grows.sound trivial
      | some _ => exact .ite (fun _ => .pure grows.sound trivial) fun _ => .pure grows.sound trivial
  | .any gs =>
      rw [Guard.evalPrecedence, Guard.evalPrecedence]
      refine .bind (remainingAny_runs level node node' gs sound) fun remaining s' grows _ => ?_
      match remaining with
      | none => exact .pure grows.sound trivial
      | some [] => exact .ite (fun _ => .pure grows.sound trivial) fun _ => .pure grows.sound trivial
      | some (_ :: _) =>
          exact .ite (fun _ => .pure grows.sound trivial) fun _ => .pure grows.sound trivial

theorem remainingAll_runs (level : q'.situation.precedence = q.situation.precedence)
    (node node' : Option Nat) (gs : List Guard) {s : Simulation σ τ}
    (sound : s.tables.arena.Sound (!full)) :
    Runs full s (Guard.remainingAll (evaluator q) node gs)
      (Guard.remainingAll (evaluator q') node' gs : Prediction σ' τ' _) fun _ _ => True := by
  match gs with
  | [] => exact .pure sound trivial
  | g :: rest =>
      rw [Guard.remainingAll, Guard.remainingAll]
      refine .bind (evalPrecedence_runs level node node' g sound) fun remaining s' grows _ => ?_
      match remaining with
      | none => exact .pure grows.sound trivial
      | some _ =>
          refine .bind (remainingAll_runs level node node' rest grows.sound) ?_
          intro others s'' grows' _
          match others with
          | none => exact .pure grows'.sound trivial
          | some _ => exact .pure grows'.sound trivial

theorem remainingAny_runs (level : q'.situation.precedence = q.situation.precedence)
    (node node' : Option Nat) (gs : List Guard) {s : Simulation σ τ}
    (sound : s.tables.arena.Sound (!full)) :
    Runs full s (Guard.remainingAny (evaluator q) node gs)
      (Guard.remainingAny (evaluator q') node' gs : Prediction σ' τ' _) fun _ _ => True := by
  match gs with
  | [] => exact .pure sound trivial
  | g :: rest =>
      rw [Guard.remainingAny, Guard.remainingAny]
      refine .bind (evalPrecedence_runs level node node' g sound) fun remaining s' grows _ => ?_
      split
      · exact .pure grows.sound trivial
      · refine .bind (remainingAny_runs level node node' rest grows.sound) ?_
        intro others s'' grows' _
        match others with
        | none => exact .pure grows'.sound trivial
        | some _ => exact .pure grows'.sound trivial
      · exact remainingAny_runs level node node' rest grows.sound

end

include level

/-- What is left of the threads on operators stays on stacks of the graph. -/
theorem operatorThreads_runs (sound : s.tables.arena.Sound (!full))
    (h : set.Open full s.tables.graph) :
    Runs full s (operatorThreads q set) (operatorThreads q' set : Prediction σ' τ' _)
      fun g threads => ∀ c ∈ threads, g.Present c.stack := by
  refine .bind (.mapM (R := fun found : Option Configuration => ∀ c ∈ found,
    s.tables.graph.Present c.stack) sound fun s' grows c mem => ?_) fun threads s' grows all => ?_
  · refine .bind (evalPrecedence_runs level _ _ _ grows.sound) fun remaining s'' grows' _ => ?_
    refine .pure grows'.sound fun c' found => ?_
    obtain ⟨g, -, rfl⟩ := Option.map_eq_some_iff.1 found
    exact h.stored c (List.mem_of_mem_filter mem)
  · refine .pure grows.sound fun c mem => ?_
    obtain ⟨found, mem, eq⟩ := List.mem_filterMap.1 mem
    exact (all found mem c eq).mono grows.graph

/-- The precedence filter can be applied again, under the same precedence. -/
theorem filterByPrecedence_runs (sound : s.tables.arena.Sound (!full))
    (h : set.Open full s.tables.graph) :
    Runs full s (filterByPrecedence q set) (filterByPrecedence q' set : Prediction σ' τ' _)
      (ConfigurationSet.Open full) := by
  unfold filterByPrecedence
  rw [h.fullContext]
  refine .bind (operatorThreads_runs level sound h) fun operators s' grows present => ?_
  refine foldlM_addTo_runs grows.sound (.empty full _) fun c mem => ?_
  rcases List.mem_append.1 mem with mem | mem
  · exact present c mem
  · exact (h.stored c (List.mem_of_mem_filter mem)).mono grows.graph

end Choice

section Settle

/-- Threads that are put to a set without their guards can be put to it again. -/
theorem foldl_insert_again (cs : List Configuration) {acc : ConfigurationSet} {s : Stacks}
    (h : acc.Open false s.graph) (sound : s.Sound true)
    (present : ∀ c ∈ cs, s.graph.Present c.stack) :
    let bare := fun (acc : ConfigurationSet × Stacks) (c : Configuration) =>
      acc.1.insert { c with guard := .always } acc.2
    let all := cs.foldl bare (acc, s)
    s.graph.Extends all.2.graph ∧ all.2.Sound true ∧
      ∀ s' : Stacks, all.2.graph.Extends s'.graph → s'.Sound true →
        (cs.foldl bare (acc, s')).1 = all.1 ∧
          s'.graph.Extends (cs.foldl bare (acc, s')).2.graph ∧
          (cs.foldl bare (acc, s')).2.Sound true := by
  intro bare all
  induction cs generalizing acc s with
  | nil => exact ⟨.refl _, sound, fun s' _ sound' => ⟨rfl, .refl _, sound'⟩⟩
  | cons c cs ih =>
      obtain ⟨first, others⟩ := List.forall_mem_cons.1 present
      let thread : Configuration := { c with guard := .always }
      have first : s.graph.Present thread.stack := first
      obtain ⟨grown, sound₁, opened⟩ := h.insert sound first
      obtain ⟨grown', sound₂, again⟩ := ih opened sound₁ fun c mem => (others c mem).mono grown
      refine ⟨grown.trans grown', sound₂, fun s' later sound' => ?_⟩
      have same := h.insert_again sound first (grown'.trans later) sound'
      have before := (grown.trans grown').trans later
      obtain ⟨grown'', sound₃, -⟩ := (h.mono before).insert sound' (first.mono before)
      have tail := again (acc.insert thread s').2 (later.trans grown'') sound₃
      have rest : (c :: cs).foldl bare (acc, s') =
          cs.foldl bare ((acc.insert thread s).1, (acc.insert thread s').2) := by
        rw [← same]
        rfl
      rw [rest]
      exact ⟨tail.1, grown''.trans tail.2.1, tail.2.2⟩

variable {mode : PredictionMode} {n : Network} {set : ConfigurationSet} {stop : Bool}

/-- A set without its guards is computed again to the same effect, in any later graph. -/
theorem stripped_again (h : set.Open false g) (tidy : g.Tidy) :
    g.Extends (Conflict.stripped set g).2 ∧ (Conflict.stripped set g).2.Tidy ∧
      ∀ later : StackGraph, (Conflict.stripped set g).2.Extends later → later.Tidy →
        (Conflict.stripped set later).1 = (Conflict.stripped set g).1 ∧
          later.Extends (Conflict.stripped set later).2 ∧ (Conflict.stripped set later).2.Tidy := by
  have fresh {g : StackGraph} (tidy : g.Tidy) : Stacks.Sound true { graph := g } :=
    ⟨tidy, fun _ mem => by cases mem⟩
  obtain ⟨grown, sound, again⟩ := foldl_insert_again set.toList
    (.empty false g) (fresh tidy) h.stored
  unfold Conflict.stripped
  rw [h.fullContext]
  refine ⟨grown, sound.tidy, fun later extends_ tidy' => ?_⟩
  obtain ⟨same, grown', sound'⟩ := again { graph := later } extends_ (fresh tidy')
  exact ⟨same, grown', sound'.tidy⟩

/-- Whether prediction stops on a set can be found out again. -/
theorem stops_again (h : set.Open false g) (tidy : g.Tidy)
    (found : Conflict.stops mode n set g = .ok (stop, g')) :
    g.Extends g' ∧ g'.Tidy ∧ ∀ later : StackGraph, g'.Extends later → later.Tidy →
      ∃ last, Conflict.stops mode n set later = .ok (stop, last) ∧ later.Extends last ∧
        last.Tidy := by
  unfold Conflict.stops at found ⊢
  cases finished : set.allInRuleStop n with
  | error fault =>
      rw [finished] at found
      cases found
  | ok all =>
      rw [finished] at found
      cases all with
      | true =>
          obtain ⟨rfl, rfl⟩ := Prod.mk.inj (Except.ok.inj found)
          exact ⟨.refl _, tidy, fun later _ tidy' => ⟨later, rfl, .refl _, tidy'⟩⟩
      | false =>
          by_cases strips : (mode == .sll && set.hasGuards) = true
          · simp only [strips, if_true] at found ⊢
            obtain ⟨rfl, rfl⟩ := Prod.mk.inj (Except.ok.inj found)
            obtain ⟨grown, tidy, again⟩ := stripped_again h tidy
            refine ⟨grown, tidy, fun later extends_ tidy' => ?_⟩
            obtain ⟨same, grown', tidy'⟩ := again later extends_ tidy'
            exact ⟨_, by rw [same]; rfl, grown', tidy'⟩
          · simp only [strips] at found ⊢
            obtain ⟨rfl, rfl⟩ := Prod.mk.inj (Except.ok.inj found)
            exact ⟨.refl _, tidy, fun later _ tidy' => ⟨later, rfl, .refl _, tidy'⟩⟩

/-- The state for a set whose threads do not agree on an alternative. -/
def undecided (set : ConfigurationSet) (stop : Bool) : TableState :=
  if stop then
    let alts := Conflict.alts set.altSubsets
    { configs := { set with conflicting := some alts }, isAccept := true, needsFullContext := true,
      prediction := alts.head?.getD noAlt }
  else { configs := set }

theorem settle_undecided {q : Problem τ} (disagree : set.agreedAlt = noAlt)
    (found : Conflict.stops q.mode q.grammar.network set s.tables.graph = .ok (stop, g)) :
    (settle q set).run s = (.ok (undecided set stop), { s with
      tables := { s.tables with arena := { s.tables.arena with graph := g } } }) := by
  unfold settle
  rw [if_neg (not_not.2 disagree), Step.run_bind_ok (Step.run_get s), found]
  cases stop <;> rfl

theorem settle_fault {q : Problem τ} (disagree : set.agreedAlt = noAlt) {fault : Fault}
    (found : Conflict.stops q.mode q.grammar.network set s.tables.graph = .error fault) :
    (settle q set).run s = (.error (.fault fault), s) := by
  unfold settle
  rw [if_neg (not_not.2 disagree), Step.run_bind_ok (Step.run_get s), found]
  rfl

/-- Settling on a set only marks it, and the marks say what the state answers. -/
theorem settle_runs {q : Problem τ} {q' : Problem τ'} (akin : Akin q q')
    (sound : s.tables.arena.Sound true) (h : set.Open false s.tables.graph) :
    Runs false s (settle q set) (settle q' set : Prediction σ' τ' _) fun _ d =>
      d.configs.unsettled = set ∧ d = judged d.configs := by
  have unsettled : set.unsettled = set := by
    rw [ConfigurationSet.unsettled, ← h.uniqueAlt, ← h.conflicting]
  by_cases agree : set.agreedAlt = noAlt
  · have marks (stop : Bool) : (undecided set stop).configs.unsettled = set ∧
        undecided set stop = judged (undecided set stop).configs := by
      cases stop with
      | true => exact ⟨unsettled, by simp [undecided, judged, h.uniqueAlt]⟩
      | false => exact ⟨unsettled, by simp [undecided, judged, h.uniqueAlt, h.conflicting]⟩
    cases found : Conflict.stops q.mode q.grammar.network set s.tables.graph with
    | error fault => exact .of_error (settle_fault agree found) (.refl sound)
    | ok answer =>
        obtain ⟨stop, graph⟩ := answer
        obtain ⟨grown, tidy, again⟩ := stops_again h sound.tidy found
        have run := settle_undecided agree found
        refine .of_ok run ⟨⟨rfl, grown, sound.grow grown tidy, fun _ => rfl⟩, marks stop, fun _ => ?_⟩
        intro s' later sound'
        obtain ⟨last, found', grown', tidy'⟩ := again s'.tables.graph later sound'.tidy
        rw [← akin.mode, ← akin.grammar] at found'
        exact ⟨_, settle_undecided agree found', rfl, grown', sound'.grow grown' tidy', fun _ => rfl⟩
  · unfold settle
    rw [if_pos agree, if_pos agree]
    exact .pure sound ⟨unsettled, by simp [judged, agree]⟩

end Settle

end Prediction

end AdaptiveLL
