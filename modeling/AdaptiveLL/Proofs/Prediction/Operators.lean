import AdaptiveLL.Proofs.Prediction.Guard.Remainder
import AdaptiveLL.Proofs.Prediction.KeyedUnion
import AdaptiveLL.Proofs.Prediction.Viable
/-!
The precedence filter of operator loops. It adds the operator threads that survive the current
precedence, and behind them the threads of the other alternatives, without those that stand where
the last operator thread in their state stands. A thread that stands where an earlier one stands is
dropped only if both stand on the same stack (`Prediction.filterByPrecedence_exact`).
-/
namespace AdaptiveLL

namespace Guard

variable {m : Type → Type} [Monad m] [LawfulMonad m] {ev : Evaluator m} {answers : Answers}
  {outer : Option Nat}

section

variable {gs : List Guard}
  (each : ∀ g ∈ gs, g.evalPrecedence ev outer = pure (g.remainder answers outer))

include each

theorem remainingAll_eq : remainingAll ev outer gs = pure (conjunctsLeft answers outer gs) := by
  induction gs with
  | nil => rfl
  | cons g gs ih =>
      obtain ⟨head, tail⟩ := List.forall_mem_cons.1 each
      rw [remainingAll, head, ih tail, conjunctsLeft_cons, pure_bind]
      cases g.remainder answers outer with
      | none => rfl
      | some r =>
          simp only [pure_bind, Option.bind_some]
          cases conjunctsLeft answers outer gs <;> rfl

theorem remainingAny_eq : remainingAny ev outer gs = pure (disjunctsLeft answers outer gs) := by
  induction gs with
  | nil => rfl
  | cons g gs ih =>
      obtain ⟨head, tail⟩ := List.forall_mem_cons.1 each
      rw [remainingAny, head, ih tail, disjunctsLeft_cons, pure_bind]
      cases g.remainder answers outer with
      | none => rfl
      | some r =>
          cases r with
          | always => rfl
          | _ =>
              simp only [pure_bind, reduceCtorEq, if_false]
              cases disjunctsLeft answers outer gs <;> rfl

end

/-- Where levels are answered without a question to anyone, so are guards. -/
theorem evalPrecedence_eq (g : Guard)
    (levels : ∀ level, ev.precedence outer level = pure (answers.precedence outer level)) :
    g.evalPrecedence ev outer = pure (g.remainder answers outer) := by
  induction g using inductionOn with
  | always | predicate => rfl
  | precedence level =>
      have tested : (precedence level).remainder answers outer =
          if (precedence level).holds answers outer then some always else none := rfl
      have same : (answers.precedence outer level : Bool) = (precedence level).holds answers outer := rfl
      rw [evalPrecedence, levels, pure_bind, tested, same]
      split <;> rfl
  | all gs ih =>
      rw [evalPrecedence, remainingAll_eq ih, pure_bind, remainder_all]
      cases conjunctsLeft answers outer gs with
      | none => rfl
      | some rs =>
          simp only [Option.map_some]
          split <;> rfl
  | any gs ih =>
      rw [evalPrecedence, remainingAny_eq ih, pure_bind, remainder_any]
      cases disjunctsLeft answers outer gs with
      | none => rfl
      | some rs =>
          simp only
          split
          · rfl
          · cases rs <;> rfl

end Guard

namespace Configuration

/-- The thread stands in the state and on the stack of one of the threads. -/
def Repeats (c : Configuration) (threads : List Configuration) : Prop :=
  ∃ d ∈ threads, d.state = c.state ∧ d.stack = c.stack

instance (c : Configuration) (threads : List Configuration) : Decidable (c.Repeats threads) :=
  inferInstanceAs (Decidable (∃ d ∈ threads, _))

/-- The last of the threads in a state. -/
def LastIn (d : Configuration) (state : Nat) (threads : List Configuration) : Prop :=
  d.state = state ∧ ∃ before after, threads = before ++ d :: after ∧ ∀ e ∈ after, e.state ≠ state

/-- The thread stands in the state and on the stack of the last of the threads in its state. -/
def RepeatsLast (c : Configuration) (threads : List Configuration) : Prop :=
  ∃ d : Configuration, d.LastIn c.state threads ∧ d.stack = c.stack

theorem LastIn.mem {d : Configuration} {state : Nat} {threads : List Configuration}
    (h : d.LastIn state threads) : d ∈ threads := by
  obtain ⟨-, before, after, rfl, -⟩ := h
  exact List.mem_append_right before (.head after)

theorem RepeatsLast.repeats {c : Configuration} {threads : List Configuration}
    (h : c.RepeatsLast threads) : c.Repeats threads := by
  obtain ⟨d, last, stack⟩ := h
  exact ⟨d, last.mem, last.1, stack⟩

end Configuration

namespace ConfigurationSet

/-- The threads of the first alternative that survive when the levels of their guards are answered,
with what is left of their guards. -/
def survivors (set : ConfigurationSet) (answers : Guard.Answers) (outer : Option Nat) :
    List Configuration :=
  (set.toList.filter (·.alt == 1)).filterMap fun c =>
    (c.guard.remainder answers outer).map fun guard => { c with guard }

/-- The threads of all alternatives but the first one. -/
def others (set : ConfigurationSet) : List Configuration :=
  set.toList.filter (·.alt ≠ 1)

end ConfigurationSet

namespace Prediction

variable {σ τ : Type} {threads : List Configuration} {state stack : Nat} {c : Configuration}

theorem stackAt?_eq_some : stackAt? threads state = some stack ↔
    ∃ d : Configuration, d.LastIn state threads ∧ d.stack = stack := by
  rw [stackAt?, Option.map_eq_some_iff]
  refine exists_congr fun d => and_congr_left fun _ => ?_
  rw [List.find?_eq_some_iff_append, beq_iff_eq, Configuration.LastIn]
  refine and_congr_right fun _ => ⟨?_, ?_⟩
  · rintro ⟨later, earlier, eq, others⟩
    have eq := congrArg List.reverse eq
    rw [List.reverse_reverse, List.reverse_append, List.reverse_cons, List.append_assoc] at eq
    refine ⟨earlier.reverse, later.reverse, eq, fun e mem => ?_⟩
    simpa using others e (List.mem_reverse.1 mem)
  · rintro ⟨before, after, rfl, others⟩
    refine ⟨after.reverse, before.reverse, ?_, fun e mem => ?_⟩
    · rw [List.reverse_append, List.reverse_cons, List.append_assoc]
      rfl
    · simpa using others e (List.mem_reverse.1 mem)

instance (c : Configuration) (threads : List Configuration) : Decidable (c.RepeatsLast threads) :=
  decidable_of_iff _ stackAt?_eq_some

/-- A thread that stands where one of the threads stands, but not where the last one in its state
stands. -/
theorem exists_lastIn (repeats : c.Repeats threads) (other : ¬ c.RepeatsLast threads) :
    ∃ d : Configuration, d.LastIn c.state threads ∧ d.stack ≠ c.stack := by
  obtain ⟨e, mem, here, -⟩ := repeats
  cases found : stackAt? threads c.state with
  | none =>
      have absent : ∀ d ∈ threads, d.state ≠ c.state := by simpa [stackAt?] using found
      exact absurd here (absent e mem)
  | some stack =>
      obtain ⟨d, last, -⟩ := stackAt?_eq_some.1 found
      exact ⟨d, last, fun same => other ⟨d, last, same⟩⟩

/-! ### Runs -/

theorem run_addTo (set : ConfigurationSet) (c : Configuration) (s : Simulation σ τ) :
    (addTo set c).run s = (.ok (set.insert c s.tables.arena).1,
      { s with tables := { s.tables with arena := (set.insert c s.tables.arena).2 } }) := rfl

theorem run_foldlM_addTo (set : ConfigurationSet) (cs : List Configuration) (s : Simulation σ τ) :
    (cs.foldlM addTo set).run s = (.ok (set.addAll cs s.tables.arena).2.1,
      { s with tables := { s.tables with arena := (set.addAll cs s.tables.arena).2.2 } }) := by
  induction cs using List.reverseRecOn with
  | nil => rfl
  | append_singleton cs c ih =>
      rw [List.foldlM_append, Step.run_bind_ok ih, ConfigurationSet.addAll_concat, List.foldlM_cons,
        Step.run_bind_ok (run_addTo _ c _)]
      rfl

/-- The operator threads are found without a question to the host. -/
theorem operatorThreads_eq (q : Problem τ) (set : ConfigurationSet) (s : Simulation σ τ) :
    (operatorThreads q set : Prediction σ τ _) =
      pure (set.survivors (answersIn q s) q.situation.node) := by
  have each (c : Configuration) :
      (c.guard.evalPrecedence (evaluator q) q.situation.node : Prediction σ τ _) =
        pure (c.guard.remainder (answersIn q s) q.situation.node) :=
    Guard.evalPrecedence_eq c.guard fun _ => rfl
  unfold operatorThreads ConfigurationSet.survivors
  simp only [each, pure_bind, List.mapM_pure, List.filterMap_map, Function.id_comp]

/-- The threads of the other alternatives that the filter keeps behind the operator threads. -/
def keptBehind (operators : List Configuration) (set : ConfigurationSet) : List Configuration :=
  set.others.filter fun c => c.suppressed ∨ ¬ c.RepeatsLast operators

/-- The filter adds the surviving operator threads, and then the threads of the other alternatives that
are kept, and does nothing else. What it drops stands where a surviving operator thread stands. Where
such a thread is kept all the same, the last operator thread in its state stands on another stack; so if
the operator threads in a state all stand on one stack, exactly the threads that repeat none of them
are kept, with those that must be kept. -/
theorem filterByPrecedence_exact (q : Problem τ) (set : ConfigurationSet) (s : Simulation σ τ) :
    let operators := set.survivors (answersIn q s) q.situation.node
    let kept := keptBehind operators set
    let made := ConfigurationSet.addAll { fullContext := set.fullContext } (operators ++ kept)
      s.tables.arena
    (filterByPrecedence q set).run s =
        (.ok made.2.1, { s with tables := { s.tables with arena := made.2.2 } }) ∧
      (∀ c ∈ set.others, c ∉ kept → c.suppressed = false ∧ c.Repeats operators) ∧
      (∀ c ∈ kept, c.suppressed = false → c.Repeats operators →
        ∃ d : Configuration, d.LastIn c.state operators ∧ d.stack ≠ c.stack) ∧
      ((∀ c ∈ operators, ∀ d ∈ operators, c.state = d.state → c.stack = d.stack) →
        kept = set.others.filter fun c => c.suppressed ∨ ¬ c.Repeats operators) := by
  intro operators kept made
  have kept_eq : kept = set.toList.filter fun c =>
      c.alt ≠ 1 && (c.suppressed || stackAt? operators c.state != some c.stack) := by
    change (set.toList.filter _).filter _ = _
    rw [List.filter_filter]
    refine List.filter_congr fun c _ => ?_
    have same : stackAt? operators c.state = some c.stack ↔ c.RepeatsLast operators := stackAt?_eq_some
    rw [Bool.eq_iff_iff]
    simp [same, and_comm]
  have iff {c : Configuration} (mem : c ∈ set.others) :
      c ∈ kept ↔ c.suppressed = true ∨ ¬ c.RepeatsLast operators := by
    simp [kept, keptBehind, mem]
  refine ⟨?_, fun c mem dropped => ?_, fun c mem loose repeats => ?_, fun one => ?_⟩
  · rw [filterByPrecedence, operatorThreads_eq q set s, pure_bind, ← kept_eq]
    exact run_foldlM_addTo _ _ s
  · rw [iff mem, not_or, not_not, Bool.not_eq_true] at dropped
    exact ⟨dropped.1, dropped.2.repeats⟩
  · have other := (iff (List.mem_of_mem_filter mem)).1 mem
    rw [loose, Bool.false_eq_true, false_or] at other
    exact exists_lastIn repeats other
  · refine List.filter_congr fun c _ => ?_
    have same : c.Repeats operators ↔ c.RepeatsLast operators := by
      refine ⟨fun repeats => ?_, Configuration.RepeatsLast.repeats⟩
      by_contra other
      obtain ⟨d, last, apart⟩ := exists_lastIn repeats other
      obtain ⟨e, mem, here, stack⟩ := repeats
      exact apart ((one d last.mem e mem (last.1.trans here.symm)).trans stack)
    simp only [same]

/-! ### An operator loop with two suffixes that are predicated -/

/-- The stacks of the two places from which the suffixes call one rule. -/
def suffixStacks : Stacks :=
  ((Stacks.push {} 0 15).2.push 0 21).2

/-- The threads at the loop: one for each suffix, those that leave the loop, and those that come back
to it from the right operand of a suffix. -/
def suffixThreads : ConfigurationSet :=
  (ConfigurationSet.addAll {} [
    { state := 33, alt := 1, stack := 1, guard := .all [.predicate 1 1 false, .precedence 2] },
    { state := 33, alt := 1, stack := 2, guard := .all [.predicate 1 2 false, .precedence 1] },
    { state := 8, alt := 2, outerDepth := 1, suppressed := true },
    { state := 33, alt := 2, stack := 1, guard := .predicate 1 1 false, outerDepth := 2 },
    { state := 33, alt := 2, stack := 2, guard := .predicate 1 2 false, outerDepth := 2 }]
    suffixStacks).2.1

/-- The loop when it is entered with a precedence. -/
def suffixProblem (precedence : Int) : Problem Unit where
  grammar := default
  mode := .ll
  fuel := 0
  decision := 1
  decisionState := 29
  byPrecedence := true
  start := 0
  situation := {
    node := none, invoking := [], precedence, state := 29, ask := fun _ host => (true, host) }

def suffixSimulation : Simulation TokenList Unit where
  input := { source := { tokens := #[] } }
  host := ()
  tables := { tables := #[], arena := suffixStacks }
  stats := #[]

/-- With a precedence that rules out the second suffix, one operator thread is left, and what repeats
it is dropped. -/
theorem filterByPrecedence_exact_suffix :
    let q := suffixProblem 2
    let operators := suffixThreads.survivors (answersIn q suffixSimulation) none
    (∀ c ∈ operators, ∀ d ∈ operators, c.state = d.state → c.stack = d.stack) ∧
      keptBehind operators suffixThreads =
        suffixThreads.others.filter (fun c => c.suppressed ∨ ¬ c.Repeats operators) ∧
      (keptBehind operators suffixThreads).map (fun c => (c.state, c.stack)) = [(8, 0), (33, 2)] := by
  have one : ∀ c ∈ suffixThreads.survivors (answersIn (suffixProblem 2) suffixSimulation) none,
      ∀ d ∈ suffixThreads.survivors (answersIn (suffixProblem 2) suffixSimulation) none,
        c.state = d.state → c.stack = d.stack := by decide +kernel
  exact ⟨one, (filterByPrecedence_exact (suffixProblem 2) suffixThreads suffixSimulation).2.2.2 one,
    by decide +kernel⟩

/-- Where both suffixes survive, the last operator thread hides the first one: the thread that repeats
the first one is kept. -/
theorem filterByPrecedence_suffixes :
    let q := suffixProblem 0
    let operators := suffixThreads.survivors (answersIn q suffixSimulation) none
    let threads := operators ++ suffixThreads.others.filter fun c => c.suppressed ∨ ¬ c.Repeats operators
    ((filterByPrecedence q suffixThreads).run suffixSimulation).1.toOption ≠
      some (ConfigurationSet.addAll {} threads suffixStacks).2.1 := by
  decide +kernel

end Prediction

end AdaptiveLL
