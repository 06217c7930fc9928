import AdaptiveLL.Prediction.Adaptive
import AdaptiveLL.Proofs.Prediction.Alongside
import AdaptiveLL.Proofs.Prediction.Replay
/-!
The same choices by two simulations: among threads that are alike the same alternatives are chosen,
and tables that were filled alike give the same answers and take the same entries.
-/
namespace AdaptiveLL

open Relator (BiUnique)

variable {σ τ : Type} {R R' : Nat → Nat → Prop} {lag : Nat} {older : List Report}

/-- Searches in lists that agree item by item find items that agree. -/
theorem forall₂_find? {α : Type} {S : α → α → Prop} {xs xs' : List α} (each : List.Forall₂ S xs xs')
    (p p' : α → Bool) (agree : ∀ x x', S x x' → p' x' = p x) :
    Option.Rel S (xs.find? p) (xs'.find? p') := by
  induction each with
  | nil => exact .none
  | @cons x x' _ _ head _ ih =>
      rw [List.find?_cons, List.find?_cons, agree x x' head]
      split
      · exact .some head
      · exact ih

namespace PredictionTable

/-! What is done with a table shows no more when it has been cleared. -/

theorem clear_addState (d : TableState) (t : PredictionTable) : (t.addState d).2.clear = t.clear := by
  rw [addState]
  split <;> rfl

/-- A table that is cleared has no edges, whatever was added before. -/
theorem clear_addEdge (d : TableState) (symbol : Symbol) (target : TableTarget) (t : PredictionTable) :
    (t.addEdge d symbol target).clear = t.clear := by
  cases target with
  | dead =>
      simp only [addEdge]
      split <;> rfl
  | state e =>
      simp only [addEdge]
      split
      · split <;> rfl
      · rfl

theorem clear_setStart (d : TableState) (t : PredictionTable) : (t.setStart d).clear = t.clear := by
  rw [setStart]
  split <;> rfl

theorem clear_setPrecedenceStart (level : Int) (d : TableState) (t : PredictionTable) :
    (t.setPrecedenceStart level d).clear = t.clear := by
  rw [setPrecedenceStart]
  split <;> rfl

end PredictionTable

theorem Tables.clear_modifyTable {t : Tables} {k : Nat} {table table' : PredictionTable}
    (found : t.tables[k]? = some table) (same : table'.clear = table.clear) :
    (t.modifyTable k fun _ => table').clear.tables = t.clear.tables := by
  refine Array.ext_getElem? fun i => ?_
  simp only [Tables.clear, Tables.modifyTable, Array.getElem?_map, Array.getElem?_modify]
  split
  case isTrue eq =>
      subst eq
      simp [found, same]
  case isFalse => rfl

/-- The number of tables stays. -/
theorem Simulation.GoesOn.size [TokenSource σ] {s t : Simulation σ τ} (h : GoesOn s t) :
    t.tables.tables.size = s.tables.tables.size := by
  simpa [Tables.clear] using congrArg Array.size h.cleared

namespace PredictionTable.Like

variable {t t' : PredictionTable} {d d' : TableState}

theorem state? (like : t.Like lag R t') (k : Nat) :
    Option.Rel (TableState.Like lag R) t.states[k]? t'.states[k]? := by
  obtain ⟨states, each, rfl⟩ := like
  rw [List.getElem?_toArray, ← Array.getElem?_toList]
  exact forall₂_getElem? each k

/-- A state is still in one table if it is in the other. -/
theorem holds (like : t.Like lag R t') (same : d.Like lag R d') : t'.holds d' = t.holds d := by
  obtain ⟨configs, -, rfl⟩ := same
  have stored := like.state? d.number
  unfold PredictionTable.holds
  dsimp only
  generalize t.states[d.number]? = here, t'.states[d.number]? = here' at stored ⊢
  cases stored with
  | none => rfl
  | some same =>
      obtain ⟨configs, -, rfl⟩ := same
      simp

theorem start? (like : t.Like lag R t') : Option.Rel (TableState.Like lag R) t.start? t'.start? := by
  have states := like.state?
  obtain ⟨_, -, rfl⟩ := like
  rw [PredictionTable.start?, PredictionTable.start?]
  cases t.start with
  | none => exact .none
  | some k => exact states k

theorem precedenceStart? (like : t.Like lag R t') (level : Int) :
    Option.Rel (TableState.Like lag R) (t.precedenceStart? level) (t'.precedenceStart? level) := by
  have states := like.state?
  obtain ⟨_, -, rfl⟩ := like
  rw [PredictionTable.precedenceStart?, PredictionTable.precedenceStart?]
  cases t.precedenceStarts.lookup level with
  | none => exact .none
  | some k => exact states k

/-- Like tables have like edges out of like states. -/
theorem edge? (like : t.Like lag R t') (same : d.Like lag R d') (symbol : Symbol) :
    Option.Rel (TableTarget.Like lag R) (t.edge? d symbol) (t'.edge? d' symbol) := by
  have holds := like.holds same
  have states := like.state?
  obtain ⟨numbered, -, rfl⟩ := like
  obtain ⟨_, -, rfl⟩ := same
  rw [PredictionTable.edge?, PredictionTable.edge?, holds]
  split
  case isFalse => exact .none
  case isTrue =>
      cases t.edges.lookup (d.number, symbol) with
      | none => exact .none
      | some target =>
          cases target with
          | none => exact .some .dead
          | some k =>
              have here := states k
              simp only [List.getElem?_toArray] at here ⊢
              generalize t.states[k]? = found, numbered[k]? = found' at here ⊢
              cases here with
              | some here => exact .some (.state here)
              | none => exact .none

theorem setStart (like : t.Like lag R t') (same : d.Like lag R d') :
    (t.setStart d).Like lag R (t'.setStart d') := by
  have holds := like.holds same
  obtain ⟨states, each, rfl⟩ := like
  obtain ⟨_, -, rfl⟩ := same
  rw [PredictionTable.setStart, PredictionTable.setStart, holds]
  split
  · exact ⟨states, each, rfl⟩
  · exact ⟨states, each, rfl⟩

theorem setPrecedenceStart (like : t.Like lag R t') (same : d.Like lag R d') (level : Int) :
    (t.setPrecedenceStart level d).Like lag R (t'.setPrecedenceStart level d') := by
  have holds := like.holds same
  obtain ⟨states, each, rfl⟩ := like
  obtain ⟨_, -, rfl⟩ := same
  rw [PredictionTable.setPrecedenceStart, PredictionTable.setPrecedenceStart, holds]
  split
  · exact ⟨states, each, rfl⟩
  · exact ⟨states, each, rfl⟩

theorem addEdge (like : t.Like lag R t') (same : d.Like lag R d') (symbol : Symbol)
    {target target' : TableTarget} (targets : target.Like lag R target') :
    (t.addEdge d symbol target).Like lag R (t'.addEdge d' symbol target') := by
  have holds := like.holds same
  have write (entry : Option Nat) :
      PredictionTable.Like lag R
        (if t.holds d then
          { t with edges := ((d.number, symbol), entry) ::
              t.edges.filter (·.1 ≠ (d.number, symbol)) }
        else t)
        (if t'.holds d' then
          { t' with edges := ((d'.number, symbol), entry) ::
              t'.edges.filter (·.1 ≠ (d'.number, symbol)) }
        else t') := by
    rw [holds]
    obtain ⟨states, each, rfl⟩ := like
    obtain ⟨_, -, rfl⟩ := same
    split
    · exact ⟨states, each, rfl⟩
    · exact ⟨states, each, rfl⟩
  cases targets with
  | dead => exact write none
  | @state e e' same' =>
      have holds' := like.holds same'
      simp only [PredictionTable.addEdge, holds']
      split
      · obtain ⟨_, -, rfl⟩ := same'
        exact write (some e.number)
      · exact like

/-- The generations of the states that are added do not matter. -/
theorem addState {k : Nat} (unique : BiUnique R) (like : t.Like lag R t') (same : d.Like k R d') :
    (t.addState d).1.Like lag R (t'.addState d').1 ∧ (t.addState d).2.Like lag R (t'.addState d').2 := by
  obtain ⟨states, each, rfl⟩ := like
  obtain ⟨configs, same, rfl⟩ := same
  have size : states.length = t.states.size := each.length_eq.symm
  have known := forall₂_find? each (fun e => e.configs.same d.configs)
    (fun e => e.configs.same configs) fun e e' same' => by
      obtain ⟨configs', same', rfl⟩ := same'
      exact same'.same unique same
  rw [PredictionTable.addState, PredictionTable.addState, List.find?_toArray, ← Array.find?_toList]
  simp only
  generalize t.states.toList.find? _ = found, states.find? _ = found' at known ⊢
  cases known with
  | some known => exact ⟨known, states, each, rfl⟩
  | none =>
      -- The tables have as many states as each other, so the new ones get the same number.
      have added : TableState.Like lag R { d with number := t.states.size, generation := t.generation }
          { d with configs, number := t.states.size, generation := t.generation + lag } :=
        ⟨configs, same, rfl⟩
      simp only [List.size_toArray, size]
      exact ⟨added, _, by simpa using List.rel_append each (.cons added .nil), by simp⟩

end PredictionTable.Like

namespace TableState.Like

variable {d d' : TableState}

theorem guardsOf {a a' : ConfigurationSet} (like : a.Like R a') (alts : AltSet) (altCount : Nat) :
    Prediction.guardsOf alts a' altCount = Prediction.guardsOf alts a altCount := by
  simp only [Prediction.guardsOf, like.guardOf]

theorem withGuards (like : d.Like lag R d') (altCount : Nat) :
    (Prediction.withGuards altCount d).Like lag R (Prediction.withGuards altCount d') := by
  obtain ⟨configs, same, rfl⟩ := like
  have marks : configs.uniqueAlt = d.configs.uniqueAlt ∧ configs.conflicting = d.configs.conflicting := by
    obtain ⟨_, -, rfl⟩ := same
    exact ⟨rfl, rfl⟩
  simp only [Prediction.withGuards, guardsOf same, marks]
  split
  · exact ⟨configs, same, rfl⟩
  · exact ⟨configs, same, rfl⟩

/-- What is concluded about like states is alike. -/
theorem concluded {τ : Type} (q : Problem τ) (ask' : Question → τ → Bool × τ) (like : d.Like lag R d') :
    (Prediction.concluded q d).Like lag R (Prediction.concluded (q.asking ask') d') := by
  have guarded := like.withGuards
    ((q.grammar.network.states[q.decisionState]?.map State.transitions).getD []).length
  have hasGuards : d'.configs.hasGuards = d.configs.hasGuards := by
    obtain ⟨configs, same, rfl⟩ := like
    exact same.hasGuards
  have isAccept : d'.isAccept = d.isAccept := by
    obtain ⟨configs, same, rfl⟩ := like
    rfl
  rw [Prediction.concluded, Prediction.concluded, hasGuards, isAccept]
  split
  · exact guarded
  · exact like

end TableState.Like

namespace Prediction

variable [TokenSource σ] {q : Problem τ} {ask' : Question → τ → Bool × τ} {s s' : Simulation σ τ}
  {set set' : ConfigurationSet}

section Choice

/-- The same guards leave the same alternatives, where the hosts answer the same. -/
theorem viable_together (hosts : SameAnswers q.situation.ask ask') (alike : s.Alike lag older s')
    (guards : List (Guard × Nat)) :
    Together lag older s s' (viable q guards) (viable (q.asking ask') guards) fun _ => Eq := by
  refine .foldlM_same alike rfl ?_
  rintro t t' later alts _ rfl ⟨g, alt⟩ -
  refine .bind (admits_together hosts later.like g) ?_
  rintro holds _ u u' later' rfl
  exact .pure later'.like rfl

mutual

/-- The precedence of a call is the same in both runs. -/
theorem evalPrecedence_together (node : Option Nat) (g : Guard) {s s' : Simulation σ τ}
    (alike : s.Alike lag older s') :
    Together lag older s s' (g.evalPrecedence (evaluator q) node)
      (g.evalPrecedence (evaluator (q.asking ask')) node) fun _ => Eq := by
  match g with
  | .always => exact .pure alike rfl
  | .predicate .. => exact .pure alike rfl
  | .precedence level =>
      refine .bind (P := fun _ => Eq) (.pure alike rfl) ?_
      rintro holds _ t t' later rfl
      exact .ite .rfl (fun _ => .pure later.like rfl) fun _ => .pure later.like rfl
  | .all gs =>
      refine .bind (remainingAll_together node gs alike) ?_
      rintro remaining _ t t' later rfl
      cases remaining with
      | none => exact .pure later.like rfl
      | some rs => exact .ite .rfl (fun _ => .pure later.like rfl) fun _ => .pure later.like rfl
  | .any gs =>
      refine .bind (remainingAny_together node gs alike) ?_
      rintro remaining _ t t' later rfl
      cases remaining with
      | none => exact .pure later.like rfl
      | some rs =>
          refine .ite .rfl (fun _ => .pure later.like rfl) fun _ => ?_
          cases rs with
          | nil => exact .pure later.like rfl
          | cons => exact .pure later.like rfl

theorem remainingAll_together (node : Option Nat) (gs : List Guard) {s s' : Simulation σ τ}
    (alike : s.Alike lag older s') :
    Together lag older s s' (Guard.remainingAll (evaluator q) node gs)
      (Guard.remainingAll (evaluator (q.asking ask')) node gs) fun _ => Eq := by
  match gs with
  | [] => exact .pure alike rfl
  | g :: rest =>
      refine .bind (evalPrecedence_together node g alike) ?_
      rintro remaining _ t t' later rfl
      cases remaining with
      | none => exact .pure later.like rfl
      | some r =>
          refine .bind (remainingAll_together node rest later.like) ?_
          rintro remaining _ u u' later' rfl
          cases remaining with
          | none => exact .pure later'.like rfl
          | some rs => exact .pure later'.like rfl

theorem remainingAny_together (node : Option Nat) (gs : List Guard) {s s' : Simulation σ τ}
    (alike : s.Alike lag older s') :
    Together lag older s s' (Guard.remainingAny (evaluator q) node gs)
      (Guard.remainingAny (evaluator (q.asking ask')) node gs) fun _ => Eq := by
  match gs with
  | [] => exact .pure alike rfl
  | g :: rest =>
      refine .bind (evalPrecedence_together node g alike) ?_
      rintro remaining _ t t' later rfl
      split
      · exact .pure later.like rfl
      · refine .bind (remainingAny_together node rest later.like) ?_
        rintro remaining _ u u' later' rfl
        cases remaining with
        | none => exact .pure later'.like rfl
        | some rs => exact .pure later'.like rfl
      · exact remainingAny_together node rest later.like

end

/-- Like sets leave like threads on operators. -/
theorem operatorThreads_together (alike : s.Alike lag older s') (sets : set.Like (s.Same s') set') :
    Together lag older s s' (operatorThreads q set) (operatorThreads (q.asking ask') set')
      Threads.Like := by
  have first := sets.toList.filter (·.alt == 1) fun _ _ => rfl
  refine .bind (.mapM (E := Configuration.Like) (P := fun R => Option.Rel (Configuration.Like R)) alike
    (fun later _ _ h => h.imp later.same)
    (fun later _ _ h => optionRel_imp h fun _ _ h => h.imp later.same) first ?_) ?_
  · rintro t t' later c _ ⟨stack, same, rfl⟩
    refine .bind (evalPrecedence_together _ c.guard later.like) ?_
    rintro remaining _ u u' later' rfl
    refine .pure later'.like ?_
    cases remaining with
    | none => exact .none
    | some guard => exact .some ⟨stack, later'.same _ _ same, rfl⟩
  · refine fun threads threads' t t' later each => .pure later.like ?_
    induction each with
    | nil => exact .nil
    | cons head _ ih =>
        cases head with
        | none => exact ih
        | some head => exact .cons head ih

theorem stackAt?_like {cs cs' : List Configuration} (like : Threads.Like R cs cs') (state : Nat) :
    Option.Rel R (stackAt? cs state) (stackAt? cs' state) := by
  have found := forall₂_find? (List.forall₂_reverse_iff.2 like) (·.state == state)
    (·.state == state) fun c c' same => by
      obtain ⟨stack, -, rfl⟩ := same
      rfl
  rw [stackAt?, stackAt?]
  generalize cs.reverse.find? _ = c, cs'.reverse.find? _ = c' at found ⊢
  cases found with
  | none => exact .none
  | some same =>
      obtain ⟨stack, same, rfl⟩ := same
      exact .some same

/-- The filter leaves like sets of like sets. -/
theorem filterByPrecedence_together (alike : s.Alike lag older s') (sets : set.Like (s.Same s') set') :
    Together lag older s s' (filterByPrecedence q set) (filterByPrecedence (q.asking ask') set')
      ConfigurationSet.Like := by
  refine .bind (operatorThreads_together alike sets) fun operators operators' t t' later threads => ?_
  have sets := sets.imp later.same
  have unique := later.like.arena.biUnique
  have others : Threads.Like (t.Same t')
      (set.toList.filter fun c => c.alt ≠ 1 && (c.suppressed || stackAt? operators c.state != some c.stack))
      (set'.toList.filter fun c =>
        c.alt ≠ 1 && (c.suppressed || stackAt? operators' c.state != some c.stack)) := by
    refine List.rel_filter ?_ sets.toList
    rintro c _ ⟨stack, same, rfl⟩
    have here := stackAt?_like threads c.state
    have equal : (stackAt? operators' c.state = some stack) = (stackAt? operators c.state = some c.stack) := by
      generalize stackAt? operators c.state = found, stackAt? operators' c.state = found' at here ⊢
      cases here with
      | none => simp
      | some here => simp [Relator.rel_eq unique here same]
    simp only [bne_iff_ne, Bool.and_eq_true, Bool.or_eq_true, ne_eq, equal]
  refine foldlM_addTo_together later.like ?_ (List.rel_append threads others)
  rw [sets.fullContext]
  exact .empty _

omit [TokenSource σ] in
/-- The alternative that has finished the rule of the decision. -/
theorem finishedAlt_eq (n : Network) {cs cs' : List Configuration}
    (threads : Threads.Like (s.Same s') cs cs') :
    finishedAlt n s'.tables.graph cs' = finishedAlt n s.tables.graph cs := by
  have finished : Threads.Like (s.Same s') (cs.filter (hasFinished n s.tables.graph))
      (cs'.filter (hasFinished n s'.tables.graph)) := by
    refine List.rel_filter ?_ threads
    rintro c _ ⟨stack, same, rfl⟩
    simp only [hasFinished, same.hasEmptyStack]
  rw [finishedAlt, finishedAlt, finished.map_eq _ fun _ _ => rfl]

theorem fallback_together (hosts : SameAnswers q.situation.ask ask') (alike : s.Alike lag older s')
    (sets : set.Like (s.Same s') set') :
    Together lag older s s' (fallback q set) (fallback (q.asking ask') set') fun _ => Eq := by
  let Judged (R : Nat → Nat → Prop) (x x' : Configuration × Bool) : Prop := x.1.Like R x'.1 ∧ x.2 = x'.2
  refine .bind (.mapM (E := Configuration.Like) (P := Judged) alike (fun later _ _ h => h.imp later.same)
    (fun later _ _ h => ⟨h.1.imp later.same, h.2⟩) sets.toList ?_) ?_
  · rintro t t' later c _ ⟨stack, same, rfl⟩
    refine .bind (admits_together hosts later.like c.guard) ?_
    rintro holds _ u u' later' rfl
    exact .pure later'.like ⟨⟨stack, later'.same _ _ same, rfl⟩, rfl⟩
  · intro judged judged' t t' later each
    refine .get (.pure later.like ?_)
    have picks (valid : Bool) : Threads.Like (t.Same t')
        ((judged.filter (·.2 == valid)).map Prod.fst) ((judged'.filter (·.2 == valid)).map Prod.fst) := by
      refine List.rel_map (fun _ _ h => h.1) (List.rel_filter ?_ each)
      rintro ⟨c, holds⟩ ⟨c', _⟩ ⟨-, rfl⟩
      exact .rfl
    simp only [finishedAlt_eq _ (picks _)]
    rfl

end Choice

section Tables

/-- Tables that are alike are used in the same way. -/
theorem onTable_together {α : Type} [Inhabited α] {P : (Nat → Nat → Prop) → α → α → Prop}
    {f f' : PredictionTable → α × PredictionTable} (alike : s.Alike lag older s')
    (missing : s.tables.tables.size ≤ q.decision → P (s.Same s') default default)
    (does : ∀ t t', t.Like lag (s.Same s') t' →
      P (s.Same s') (f t).1 (f' t').1 ∧ (f t).2.Like lag (s.Same s') (f' t').2)
    (clear : ∀ t, (f t).2.clear = t.clear) (clear' : ∀ t, (f' t).2.clear = t.clear) :
    Together lag older s s' (onTable q f) (onTable (q.asking ask') f') P := by
  have here := forall₂_getElem? alike.tables q.decision
  rw [Array.getElem?_toList, Array.getElem?_toList] at here
  unfold onTable
  refine .get ?_
  dsimp only [Problem.asking]
  generalize found : s.tables.tables[q.decision]? = t, found' : s'.tables.tables[q.decision]? = t' at here ⊢
  cases here with
  | none => exact .pure alike (missing (Array.getElem?_eq_none_iff.1 found))
  | @some t t' here =>
      obtain ⟨answer, like⟩ := does t t' here
      refine .of_ok rfl rfl ⟨?_, ?_, ?_⟩ answer
      · exact ⟨.refl _, Tables.clear_modifyTable found (clear t), .refl _, rfl⟩
      · exact ⟨.refl _, Tables.clear_modifyTable found' (clear' t'), .refl _, rfl⟩
      · refine { alike with tables := ?_ }
        simp only [Tables.modifyTable, Array.toList_modify]
        exact forall₂_modify alike.tables (fun _ _ _ => like) _

variable {d d' : TableState}

theorem addState_together {k : Nat} (alike : s.Alike lag older s') (same : d.Like k (s.Same s') d')
    (here : q.decision < s.tables.tables.size) :
    Together lag older s s' (addState q d) (addState (q.asking ask') d') (TableState.Like lag) :=
  onTable_together alike (fun none => absurd here (Nat.not_lt_of_le none))
    (fun _ _ like => like.addState alike.arena.biUnique same) (PredictionTable.clear_addState d)
    (PredictionTable.clear_addState d')

theorem addEdge_together (alike : s.Alike lag older s') (same : d.Like lag (s.Same s') d')
    (symbol : Symbol) {target target' : TableTarget} (targets : target.Like lag (s.Same s') target') :
    Together lag older s s' (addEdge q d symbol target) (addEdge (q.asking ask') d' symbol target')
      fun _ => Eq :=
  onTable_together alike (fun _ => rfl) (fun _ _ like => ⟨rfl, like.addEdge same symbol targets⟩)
    (PredictionTable.clear_addEdge d symbol target) (PredictionTable.clear_addEdge d' symbol target')

theorem count_together (alike : s.Alike lag older s') (f : DecisionStats → DecisionStats) :
    Together lag older s s' (count q f) (count (q.asking ask') f) fun _ => Eq :=
  .of_ok rfl rfl (alike.with_others _ _ _ _) rfl

/-- Sets that are alike are settled in the same way. -/
theorem settle_together (alike : s.Alike lag older s') (sets : set.Like (s.Same s') set') :
    Together lag older s s' (settle q set) (settle (q.asking ask') set') (TableState.Like 0) := by
  by_cases disagree : set.agreedAlt = noAlt
  · have disagree' := sets.agreedAlt.trans disagree
    rcases sets.stops alike.arena q.mode q.grammar.network with
      ⟨fault, found, found'⟩ | ⟨stop, graph, graph', found, found', made⟩
    · exact .of_error (settle_fault disagree found) (settle_fault (q := q.asking ask') disagree' found')
        (.refl alike) (.fault fault)
    · refine .of_ok (settle_undecided disagree found)
        (settle_undecided (q := q.asking ask') disagree' found') (alike.more_stacks made) ?_
      have alts := Conflict.alts_congr fun _ => sets.mem_altSubsets alike.arena.biUnique
      obtain ⟨threads, each, rfl⟩ := sets.imp fun _ _ => made.same
      rw [undecided, undecided, alts]
      split
      · exact ⟨_, ⟨threads, each, rfl⟩, rfl⟩
      · exact ⟨_, ⟨threads, each, rfl⟩, rfl⟩
  · have agreed := sets.agreedAlt
    unfold settle
    rw [if_pos disagree, if_pos (agreed ▸ disagree), agreed]
    obtain ⟨threads, each, rfl⟩ := sets
    exact .pure alike ⟨_, ⟨threads, each, rfl⟩, rfl⟩

/-- Like states have like targets, computed in like tables. -/
theorem computeTarget_together (hosts : SameAnswers q.situation.ask ask') (alike : s.Alike lag older s')
    (here : q.decision < s.tables.tables.size) (same : d.Like lag (s.Same s') d') (symbol : Symbol) :
    Together lag older s s' (computeTarget q d symbol) (computeTarget (q.asking ask') d' symbol)
      (TableTarget.Like lag) := by
  have sets : d.configs.Like (s.Same s') d'.configs := by
    obtain ⟨configs, sets, rfl⟩ := same
    exact sets
  refine .bind (reach_together hosts alike sets symbol false) fun reached reached' t t' later sets => ?_
  have same := same.imp later.same
  cases sets with
  | none =>
      refine .bind (addEdge_together later.like same symbol .dead) ?_
      exact fun _ _ u u' later' _ => .pure later'.like .dead
  | some sets =>
      refine .bind (settle_together later.like sets) fun e e' u u' later' settled => ?_
      have here' : q.decision < u.tables.tables.size := (later.trans later').left.size ▸ here
      refine .bind (addState_together later'.like (settled.concluded q ask') here') ?_
      intro e e' v v' later'' added
      refine .bind (addEdge_together later''.like ((same.imp later'.same).imp later''.same) symbol
        (.state added)) ?_
      exact fun _ _ w w' later₃ _ => .pure later₃.like (.state (added.imp later₃.same))

/-- A target that is stored in one table is computed in the other to the same effect. -/
theorem target_together (hosts : SameAnswers q.situation.ask ask') (alike : s.Alike lag older s')
    (here : q.decision < s.tables.tables.size) (same : d.Like lag (s.Same s') d') (symbol : Symbol) :
    Together lag older s s' (target q d symbol) (target (q.asking ask') d' symbol)
      (TableTarget.Like lag) := by
  have looked : Together lag older s s' (onTable q fun table => (table.edge? d symbol, table))
      (onTable (q.asking ask') fun table => (table.edge? d' symbol, table))
      fun R => Option.Rel (TableTarget.Like lag R) :=
    onTable_together alike (fun _ => .none) (fun _ _ like => ⟨like.edge? same symbol, like⟩)
      (fun _ => rfl) fun _ => rfl
  refine .bind looked fun known known' t t' later targets => ?_
  cases targets with
  | some known => exact .pure later.like known
  | none =>
      exact computeTarget_together hosts later.like (later.left.size ▸ here) (same.imp later.same) symbol

theorem startState_together (hosts : SameAnswers q.situation.ask ask') (alike : s.Alike lag older s')
    (here : q.decision < s.tables.tables.size) :
    Together lag older s s' (startState q) (startState (q.asking ask')) (TableState.Like lag) := by
  let level := q.situation.precedence
  have looked : Together lag older s s'
      (onTable q fun table =>
        (if q.byPrecedence then table.precedenceStart? level else table.start?, table))
      (onTable (q.asking ask') fun table =>
        (if q.byPrecedence then table.precedenceStart? level else table.start?, table))
      fun R => Option.Rel (TableState.Like lag R) := by
    refine onTable_together alike (fun _ => .none) (fun _ _ like => ⟨?_, like⟩) (fun _ => rfl)
      fun _ => rfl
    simp only
    split
    · exact like.precedenceStart? level
    · exact like.start?
  refine .bind looked fun known known' t t' later starts => ?_
  have here := later.left.size ▸ here
  cases starts with
  | some known => exact .pure later.like known
  | none =>
      refine .bind (startConfigs_together hosts later.like false .empty) ?_
      intro set set' u u' later' sets
      have here := later'.left.size ▸ here
      have adds {v v' : Simulation σ τ} (alike : v.Alike lag older v')
          (here : q.decision < v.tables.tables.size) {set set' : ConfigurationSet}
          (sets : set.Like (v.Same v') set') :
          Together lag older v v' (addState q { configs := set })
            (addState (q.asking ask') { configs := set' }) (TableState.Like lag) :=
        addState_together (k := 0) alike ⟨set', sets, rfl⟩ here
      refine .ite .rfl (fun _ => ?_) fun _ => ?_
      · refine .bind (filterByPrecedence_together later'.like sets) fun set set' v v' later'' sets => ?_
        refine .bind (adds later''.like (later''.left.size ▸ here) sets) fun d d' w w' later₃ same => ?_
        refine .bind (onTable_together later₃.like (P := fun _ => Eq) (fun _ => rfl)
          (fun _ _ like => ⟨rfl, like.setPrecedenceStart same level⟩)
          (PredictionTable.clear_setPrecedenceStart level d)
          (PredictionTable.clear_setPrecedenceStart level d')) ?_
        exact fun _ _ x x' later₄ _ => .pure later₄.like (same.imp later₄.same)
      · refine .bind (adds later'.like here sets) fun d d' v v' later'' same => ?_
        refine .bind (onTable_together later''.like (P := fun _ => Eq) (fun _ => rfl)
          (fun _ _ like => ⟨rfl, like.setStart same⟩) (PredictionTable.clear_setStart d)
          (PredictionTable.clear_setStart d')) ?_
        exact fun _ _ w w' later₃ _ => .pure later₃.like (same.imp later₃.same)

end Tables

end Prediction

end AdaptiveLL
