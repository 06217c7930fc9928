import AdaptiveLL.Proofs.Prediction.Refill
/-!
A whole prediction by two simulations. Both stages lead to the same alternative or to the same
error, and whatever is reported on the way is the same, up to the numbers of stacks.
-/
namespace AdaptiveLL

namespace Prediction

variable {σ τ : Type} [TokenSource σ] {lag : Nat} {older : List Report} {q : Problem τ}
  {ask' : Question → τ → Bool × τ} {s s' : Simulation σ τ} {set set' : ConfigurationSet}

section Stages

variable {d d' : TableState}

theorem report_together (alike : s.Alike lag older s') (event : PredictionEvent) (stop : Nat)
    (sets : set.Like (s.Same s') set') :
    Together lag older s s' (report q event stop set) (report (q.asking ask') event stop set')
      fun _ => Eq := by
  refine .bind (onInput_together alike (fun _ _ ahead sound => ahead.textRange sound _ _)
    (fun i => (TokenStream.textRange_passes _ _ i).toLeads) (TokenStream.marks_textRange _ _)
    (TokenStream.started_textRange _ _)) ?_
  rintro text _ t t' later rfl
  refine .bind (.question later.like later.like rfl) ?_
  rintro here _ u u' later' rfl
  have sets := (sets.imp later.same).imp later'.same
  exact .modify (later'.like.report (.prediction ⟨set', sets, rfl⟩)) rfl

theorem reportAmbiguity_together (alike : s.Alike lag older s') (certain : Bool) (alts : AltSet)
    (stop : Nat) (sets : set.Like (s.Same s') set') :
    Together lag older s s' (reportAmbiguity q certain alts stop set)
      (reportAmbiguity (q.asking ask') certain alts stop set') fun _ => Eq :=
  .bind (count_together alike _) fun _ _ _ _ later _ =>
    report_together later.like _ stop (sets.imp later.same)

theorem noViableAlt_together (alike : s.Alike lag older s') (inside : q.start < s.input.tokens.size)
    (sets : set.Like (s.Same s') set') :
    Together lag older s s' (noViableAlt q set) (noViableAlt (q.asking ask') set')
      RecognitionError.Like := by
  have start : s'.input.get? q.start = s.input.get? q.start := alike.input.ahead.tokens_eq inside
  unfold noViableAlt
  refine .get ?_
  dsimp only [Problem.asking]
  rw [start]
  refine .bind (onInput_together alike (fun _ _ ahead sound => ahead.lookahead? sound 1)
    (fun i => (TokenStream.lookahead?_passes 1 i).toLeads) (TokenStream.marks_lookahead? 1)
    (TokenStream.started_lookahead? 1)) ?_
  rintro token _ t t' later rfl
  exact .pure later.like ⟨_, .noViableAlt _ (.some (sets.imp later.same)), rfl⟩

theorem deadEnd_together (hosts : SameAnswers q.situation.ask ask') (alike : s.Alike lag older s')
    (inside : q.start < s.input.tokens.size) (sets : set.Like (s.Same s') set') :
    Together lag older s s' (deadEnd q set) (deadEnd (q.asking ask') set') fun _ => Eq := by
  refine .bind (noViableAlt_together alike inside sets) fun error error' t t' later errors => ?_
  refine .bind (seek_together later.like _) fun _ _ u u' later' _ => ?_
  refine .bind (fallback_together hosts later'.like (sets.imp (later.trans later').same)) ?_
  rintro alt _ v v' later'' rfl
  refine .ite .rfl (fun _ => .pure later''.like rfl) fun _ => .throw later''.like ?_
  exact .recoverable (errors.imp (later'.trans later'').same)

/-- The stage with the full context. -/
theorem predictFully_together (hosts : SameAnswers q.situation.ask ask') (fuel : Nat)
    (alike : s.Alike lag older s') (inside : q.start < s.input.tokens.size)
    (sets : set.Like (s.Same s') set') (symbol : Symbol) :
    Together lag older s s' (predictFully q fuel set symbol)
      (predictFully (q.asking ask') fuel set' symbol) fun _ => Eq := by
  induction fuel generalizing s s' set set' symbol with
  | zero => exact .throw alike (.fault .exhausted)
  | succ fuel ih =>
      rw [predictFully, predictFully]
      refine .bind (count_together alike _) fun _ _ t t' later _ => ?_
      refine .bind (reach_together hosts later.like (sets.imp later.same) symbol true) ?_
      intro reached reached' u u' later' reaches
      have later' := later.trans later'
      have inside' := Nat.lt_of_lt_of_le inside later'.left.input.size_le
      cases reaches with
      | none => exact deadEnd_together hosts later'.like inside' (sets.imp later'.same)
      | @some reached reached' reaches =>
          have agreed := reaches.agreedAlt
          have unique := later'.like.arena.biUnique
          have subsets (alts : AltSet) : alts ∈ reached'.altSubsets ↔ alts ∈ reached.altSubsets :=
            reaches.mem_altSubsets unique
          have marked : ConfigurationSet.Like (u.Same u') { reached with uniqueAlt := reached.agreedAlt }
              { reached' with uniqueAlt := reached.agreedAlt } := by
            obtain ⟨threads, each, rfl⟩ := reaches
            exact ⟨threads, each, rfl⟩
          have settled : Conflict.allConflict reached'.altSubsets = Conflict.allConflict reached.altSubsets := by
            simp only [Conflict.allConflict, Conflict.hasSettled, Conflict.any_congr subsets]
          dsimp only [Problem.asking]
          rw [agreed, settled, Conflict.allEqual_congr subsets, Conflict.viableAlt_congr subsets]
          refine .ite .rfl (fun _ => ?_) fun _ => .ite .rfl (fun _ => ?_) fun _ => ?_
          · refine .bind (count_together later'.like _) fun _ _ v v' later₁ _ => ?_
            refine .bind (index_together later₁.like) ?_
            rintro here _ w w' later₂ rfl
            refine .bind (report_together later₂.like _ here (marked.imp (later₁.trans later₂).same)) ?_
            intro _ _ x x' later₃ _
            exact .pure later₃.like rfl
          · refine .bind (index_together later'.like) ?_
            rintro here _ v v' later₁ rfl
            rw [marked.alts]
            refine .bind (reportAmbiguity_together later₁.like _ _ here (marked.imp later₁.same)) ?_
            exact fun _ _ w w' later₂ _ => .pure later₂.like rfl
          · refine .bind (advance_together later'.like symbol) ?_
            rintro next _ v v' later₁ rfl
            exact ih later₁.like (Nat.lt_of_lt_of_le inside' later₁.left.input.size_le)
              (marked.imp later₁.same) next

/-- Alternatives in conflict are resolved in the same way. -/
theorem resolve_together (hosts : SameAnswers q.situation.ask ask') (alike : s.Alike lag older s')
    (inside : q.start < s.input.tokens.size) (same : d.Like lag (s.Same s') d') :
    Together lag older s s' (resolve q d) (resolve (q.asking ask') d') fun _ => Eq := by
  obtain ⟨configs, sets, rfl⟩ := same
  have conflicting : configs.conflicting = d.configs.conflicting := by
    obtain ⟨_, -, rfl⟩ := sets
    rfl
  unfold resolve
  refine .bind (index_together alike) ?_
  rintro here _ t t' later rfl
  extract_lets resume resume'
  have resumes (conflicting : Option AltSet) {u u' : Simulation σ τ}
      (later : Step.Later (Simulation.Alike lag older) s s' u u') :
      Together lag older u u' (resume conflicting) (resume' conflicting) fun _ => Eq := by
    dsimp only [resume, resume']
    split
    · exact .pure later.like rfl
    · refine .bind (seek_together later.like _) fun _ _ v v' later₁ _ => ?_
      refine .bind (count_together later₁.like _) fun _ _ w w' later₂ _ => .get ?_
      have made := later₂.like.arena.ofReturns
        (q.grammar.network.followStates q.situation.invoking).reverse
      refine .bind (.set (R := fun R _ _ => R _ _) (later₂.like.more_stacks made) made.answer) ?_
      intro _ _ x x' later₃ same
      refine .bind (startConfigs_together hosts later₃.like true same) fun _ _ y y' later₄ starts => ?_
      have since := (((later.trans later₁).trans later₂).trans later₃).trans later₄
      refine .bind (report_together later₄.like _ here (sets.imp since.same)) fun _ _ z z' later₅ _ => ?_
      refine .bind (seek_together later₅.like _) fun _ _ w w' later₆ _ => ?_
      refine .bind (current_together later₆.like) ?_
      rintro symbol _ x x' later₇ rfl
      have later₅ := later₅.trans (later₆.trans later₇)
      have inside := Nat.lt_of_lt_of_le inside (since.trans later₅).left.input.size_le
      exact predictFully_together hosts q.fuel later₇.like inside (starts.imp later₅.same) symbol
  have done (conflicting : Option AltSet) {u u' : Simulation σ τ}
      (later : Step.Later (Simulation.Alike lag older) s s' u u') :
      Together lag older u u' (pure conflicting >>= resume) (pure conflicting >>= resume') fun _ => Eq := by
    refine .bind (P := fun _ => Eq) (.pure later.like rfl) ?_
    rintro alts _ v v' later' rfl
    exact resumes alts (later.trans later')
  dsimp -zeta only
  rw [conflicting]
  split
  · exact done d.configs.conflicting later
  · refine .bind (seek_together later.like _) fun _ _ u u' later' _ => ?_
    refine .bind (viable_together hosts later'.like _) ?_
    rintro alts _ v v' later'' rfl
    exact done (some alts) ((later.trans later').trans later'')

/-- The alternative of an accept state. -/
theorem accept_together (hosts : SameAnswers q.situation.ask ask') (alike : s.Alike lag older s')
    (inside : q.start < s.input.tokens.size) (same : d.Like lag (s.Same s') d') :
    Together lag older s s' (accept q d) (accept (q.asking ask') d') fun _ => Eq := by
  obtain ⟨configs, sets, rfl⟩ := same
  unfold accept
  dsimp only
  cases d.guards with
  | none => exact .pure alike rfl
  | some guards =>
      refine .bind (index_together alike) ?_
      rintro stop _ t t' later rfl
      refine .bind (seek_together later.like _) fun _ _ u u' later' _ => ?_
      refine .bind (viable_together hosts later'.like guards) ?_
      rintro alts _ v v' later'' rfl
      have later := (later.trans later').trans later''
      have sets := sets.imp later.same
      split
      · have inside := Nat.lt_of_lt_of_le inside later.left.input.size_le
        refine .bind (noViableAlt_together later.like inside sets) ?_
        exact fun error error' w w' later₃ errors => .throw later₃.like (.recoverable errors)
      · exact .pure later.like rfl
      · refine .bind (reportAmbiguity_together later.like _ _ _ sets) ?_
        exact fun _ _ w w' later₃ _ => .pure later₃.like rfl

/-- The stage without context. -/
theorem predictLocally_together (hosts : SameAnswers q.situation.ask ask') (fuel : Nat)
    (alike : s.Alike lag older s') (inside : q.start < s.input.tokens.size)
    (here : q.decision < s.tables.tables.size) (same : d.Like lag (s.Same s') d') (symbol : Symbol) :
    Together lag older s s' (predictLocally q fuel d symbol)
      (predictLocally (q.asking ask') fuel d' symbol) fun _ => Eq := by
  induction fuel generalizing s s' d d' symbol with
  | zero => exact .throw alike (.fault .exhausted)
  | succ fuel ih =>
      rw [predictLocally, predictLocally]
      refine .bind (count_together alike _) fun _ _ t t' later _ => ?_
      refine .bind (target_together hosts later.like (later.left.size ▸ here) (same.imp later.same)
        symbol) fun target target' u u' later' targets => ?_
      have later' := later.trans later'
      have inside := Nat.lt_of_lt_of_le inside later'.left.input.size_le
      cases targets with
      | dead =>
          obtain ⟨configs, sets, rfl⟩ := same
          exact deadEnd_together hosts later'.like inside (sets.imp later'.same)
      | @state e e' targets =>
          have marks : e'.needsFullContext = e.needsFullContext ∧ e'.isAccept = e.isAccept := by
            obtain ⟨_, -, rfl⟩ := targets
            exact ⟨rfl, rfl⟩
          refine .ite (by rw [marks.1]; rfl) (fun _ => ?_) fun _ => .ite (by rw [marks.2]) (fun _ => ?_)
            fun _ => ?_
          · exact resolve_together hosts later'.like inside targets
          · exact accept_together hosts later'.like inside targets
          · refine .bind (advance_together later'.like symbol) ?_
            rintro next _ v v' later'' rfl
            have here := (later'.trans later'').left.size ▸ here
            exact ih later''.like (Nat.lt_of_lt_of_le inside later''.left.input.size_le) here
              (targets.imp later''.same) next

theorem predict_together (hosts : SameAnswers q.situation.ask ask') (alike : s.Alike lag older s')
    (inside : q.start < s.input.tokens.size) (here : q.decision < s.tables.tables.size) :
    Together lag older s s' (predict q) (predict (q.asking ask')) fun _ => Eq := by
  refine .bind (startState_together hosts alike here) fun d d' t t' later same => ?_
  refine .bind (current_together later.like) ?_
  rintro symbol _ u u' later' rfl
  have left := (later.trans later').left
  exact predictLocally_together hosts q.fuel later'.like
    (Nat.lt_of_lt_of_le inside left.input.size_le) (left.size ▸ here) (same.imp later'.same) symbol

end Stages

section Whole

variable {grammar : Grammar} {mode : PredictionMode} {fuel decision : Nat} {situation : Situation τ}
  {table : PredictionTable}

/-- The problem that a decision poses. -/
def posed (grammar : Grammar) (mode : PredictionMode) (fuel decision : Nat) (situation : Situation τ)
    (table : PredictionTable) (start : Nat) : Problem τ where
  grammar
  mode
  fuel
  decision
  decisionState := table.startState
  byPrecedence := table.byPrecedence
  start
  situation

/-- How a prediction begins: the place is marked, and merges are forgotten. -/
def begun (decision : Nat) (s : Simulation σ τ) : Simulation σ τ :=
  { s with input := s.input.mark, tables := s.tables.forgetMerges }.modifyStats decision fun i =>
    { i with invocations := i.invocations + 1 }

/-- How a prediction ends: the input is put back. -/
def ended (q : Problem τ) (outcome : Except Failure Nat) (s : Simulation σ τ) : Simulation σ τ :=
  let s := { s with input := (s.input.seek q.start).release }
  match outcome with
  | .ok _ => s
  | .error _ => s.modifyStats q.decision fun i => { i with errors := i.errors + 1 }

theorem run_adaptivePredict (found : s.tables.tables[decision]? = some table) :
    let q := posed grammar mode fuel decision situation table s.input.index
    let made := (predict q).run (begun decision s)
    (adaptivePredict grammar mode fuel decision situation).run s = (made.1, ended q made.1 made.2) := by
  intro q made
  unfold adaptivePredict
  rw [Step.run_bind_ok (Step.run_get s), found]
  simp only
  rw [Step.run_bind_ok (Step.run_set _ _), count, Step.run_bind_ok (Step.run_modify _ _),
    Step.run_bind_ok (Step.run_attempt _ _)]
  have run : (predict q).run (begun decision s) = made := rfl
  dsimp only [q, begun, posed] at run ⊢
  rw [run]
  obtain ⟨outcome, t⟩ := made
  cases outcome <;> rfl

/-- What goes on during a prediction goes on before and after it. -/
theorem ended_goesOn {q : Problem τ} {t : Simulation σ τ} (outcome : Except Failure Nat)
    (h : (begun decision s).GoesOn t) : s.GoesOn (ended q outcome t) := by
  have input : (ended q outcome t).input = (t.input.seek q.start).release := by
    cases outcome <;> rfl
  have tables : (ended q outcome t).tables = t.tables := by
    cases outcome <;> rfl
  refine ⟨tables ▸ h.graph, tables ▸ h.cleared, ?_, ?_⟩
  · rw [input]
    exact (TokenStream.use_leads .mark s.input).trans (h.input.trans
      ((TokenStream.seek_leads q.start t.input).trans (TokenStream.use_leads .release _)))
  · have marks : (t.input.seek q.start).marks = s.input.marks + 1 := by
      rw [TokenStream.marks_seek, h.marks]
      rfl
    rw [input, TokenStream.release, marks]
    rfl

theorem ended_alike {q q' : Problem τ} {t t' : Simulation σ τ} {outcome outcome' : Except Failure Nat}
    (alike : t.Alike lag older t') (start : q'.start = q.start) :
    (ended q outcome t).forgetful.Alike lag older (ended q' outcome' t').forgetful := by
  have back : ({ t with input := (t.input.seek q.start).release } : Simulation σ τ).Alike lag older
      { t' with input := (t'.input.seek q'.start).release } := by
    rw [start]
    exact { alike with input := (alike.input.use (.seek q.start)).use .release }
  have others (stats stats' : Array DecisionStats) :=
    (back.with_others t.host t'.host stats stats').like.forgetful
  cases outcome <;> cases outcome' <;> exact others _ _

/-- The same prediction by two simulations. Merges made before do not matter. -/
theorem adaptivePredict_together {ask' : Question → τ → Bool × τ} (hosts : SameAnswers situation.ask ask')
    (alike : s.forgetful.Alike lag older s'.forgetful) :
    Step.Alongside (fun t t' => t.forgetful.Alike lag older t'.forgetful)
      (fun t t' => t.forgetful.Alike lag older t'.forgetful) s s'
      (adaptivePredict grammar mode fuel decision situation)
      (adaptivePredict grammar mode fuel decision { situation with ask := ask' }) fun _ => Eq := by
  have tables := forall₂_getElem? alike.tables decision
  rw [Array.getElem?_toList, Array.getElem?_toList] at tables
  change Option.Rel _ s.tables.tables[decision]? s'.tables.tables[decision]? at tables
  generalize found : s.tables.tables[decision]? = table, found' : s'.tables.tables[decision]? = table'
    at tables
  cases tables with
  | none =>
      unfold adaptivePredict
      refine .get ?_
      rw [found, found']
      exact .throw alike (.fatal (.network _))
  | @some table table' like =>
      have index : s'.input.index = s.input.index := alike.input.index
      let q := posed grammar mode fuel decision situation table s.input.index
      -- The tables differ in their states and generations, which the problem does not mention.
      have again : posed grammar mode fuel decision { situation with ask := ask' } table'
          s'.input.index = q.asking ask' := by
        obtain ⟨_, -, rfl⟩ := like
        rw [index]
        rfl
      have begins : (begun decision s).Alike lag older (begun decision s') :=
        { alike with input := alike.input.use .mark }
      have here : decision < (begun decision s).tables.tables.size :=
        (Array.getElem?_eq_some_iff.1 found).1
      have run : (adaptivePredict grammar mode fuel decision situation).run s = _ :=
        run_adaptivePredict found
      have run' : (adaptivePredict grammar mode fuel decision { situation with ask := ask' }).run s' = _ :=
        run_adaptivePredict found'
      rw [again] at run'
      change (adaptivePredict grammar mode fuel decision situation).run s
        = (((predict q).run (begun decision s)).1, ended q _ ((predict q).run (begun decision s)).2) at run
      rcases (predict_together (q := q) hosts begins alike.input.inside here).cases with
        ⟨alt, alt', t, t', predicts, predicts', later, answer⟩ |
        ⟨e, e', t, t', predicts, predicts', later, failure⟩
      · rw [predicts] at run
        rw [predicts'] at run'
        exact .of_ok run run' ⟨ended_goesOn _ later.left, ended_goesOn _ later.right,
          ended_alike later.like rfl⟩ answer
      · rw [predicts] at run
        rw [predicts'] at run'
        exact .of_error run run' ⟨ended_goesOn _ later.left, ended_goesOn _ later.right,
          ended_alike later.like rfl⟩ failure

end Whole

end Prediction

end AdaptiveLL
