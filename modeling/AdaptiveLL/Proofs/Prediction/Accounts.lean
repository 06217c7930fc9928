import AdaptiveLL.Proofs.Prediction.Course
import AdaptiveLL.Proofs.Prediction.Discretion
import AdaptiveLL.Proofs.Prediction.Halting
import AdaptiveLL.Proofs.Prediction.Rerun
/-!
What a prediction reports and counts. Each part of a prediction is told what it adds to the reports
and to the counts of its decision (`Tells`). Put together, the counts are the numbers of the
reports (`adaptivePredict_accounts`).
-/
namespace AdaptiveLL

namespace PredictionEvent

def isFullContext : PredictionEvent → Bool
  | fullContext _ => true
  | ambiguity .. | contextSensitivity _ => false

def isAmbiguity : PredictionEvent → Bool
  | ambiguity .. => true
  | fullContext _ | contextSensitivity _ => false

def isContextSensitivity : PredictionEvent → Bool
  | contextSensitivity _ => true
  | fullContext _ | ambiguity .. => false

/-- Whether the event says how a conflict came out. -/
def isVerdict (e : PredictionEvent) : Bool :=
  e.isAmbiguity || e.isContextSensitivity

/-- The event says that the conflict came out for the alternative. -/
def Names (alt : Nat) : PredictionEvent → Prop
  | fullContext _ => False
  | ambiguity _ alts => alt ∈ alts
  | contextSensitivity prediction => prediction = alt

end PredictionEvent

namespace DecisionStats

/-- Counts after some more of each. The decision stays. -/
def plus (i more : DecisionStats) : DecisionStats where
  decision := i.decision
  invocations := i.invocations + more.invocations
  localLookahead := i.localLookahead + more.localLookahead
  fullLookahead := i.fullLookahead + more.fullLookahead
  fallbacks := i.fallbacks + more.fallbacks
  ambiguities := i.ambiguities + more.ambiguities
  contextSensitivities := i.contextSensitivities + more.contextSensitivities
  errors := i.errors + more.errors

/-- Nothing. -/
def zero : DecisionStats where
  decision := 0

@[simp] theorem plus_zero (i : DecisionStats) : i.plus zero = i := rfl

/-- More of each, in two steps or in one. -/
theorem plus_plus (i a b : DecisionStats) : (i.plus a).plus b = i.plus (a.plus b) := by
  simp only [plus, Nat.add_assoc]

end DecisionStats

variable {σ τ : Type} {decision : Nat} {made made' : List PredictionReport}
  {more more' : DecisionStats}

namespace Simulation

/-- From `s` to `s'` these reports about the decision are made, and its counts grow by `more`; nothing
else is reported or counted. -/
structure Recorded (decision : Nat) (made : List PredictionReport) (more : DecisionStats)
    (s s' : Simulation σ τ) : Prop where
  reports : s'.reports.toList = s.reports.toList ++ made.map .prediction
  about : ∀ r ∈ made, r.decision = decision
  stats : s'.stats = s.stats.modify decision (·.plus more)

variable {s s' s'' : Simulation σ τ}

theorem modify_plus_zero (stats : Array DecisionStats) :
    stats.modify decision (·.plus .zero) = stats := by
  refine Array.ext_getElem? fun k => ?_
  rw [Array.getElem?_modify]
  split <;> simp

namespace Recorded

/-- Nothing was added where the record is the same. -/
theorem of_record (same : s'.record = s.record) : Recorded decision [] .zero s s' := by
  obtain ⟨stats, reports⟩ := Prod.mk.inj same
  exact ⟨by simp [reports], by simp, stats.trans (modify_plus_zero _).symm⟩

/-- A report adds itself. -/
theorem report (r : PredictionReport) (about : r.decision = decision) :
    s.Recorded decision [r] .zero (s.report (.prediction r)) :=
  ⟨by simp [Simulation.report], by simpa using about, (modify_plus_zero _).symm⟩

/-- A count adds to the counts of the decision alone. -/
theorem modifyStats (s : Simulation σ τ) (more : DecisionStats) :
    s.Recorded decision [] more (s.modifyStats decision (·.plus more)) :=
  ⟨by simp [Simulation.modifyStats], by simp, rfl⟩

/-- A part that leaves no record may come before. -/
theorem after (h : Recorded decision made more s' s'') (same : s'.record = s.record) :
    Recorded decision made more s s'' := by
  obtain ⟨stats, reports⟩ := Prod.mk.inj same
  exact ⟨reports ▸ h.reports, h.about, stats ▸ h.stats⟩

/-- What two parts add is added one after the other. -/
theorem trans (h : Recorded decision made more s s') (h' : Recorded decision made' more' s' s'') :
    Recorded decision (made ++ made') (more.plus more') s s'' where
  reports := by rw [h'.reports, h.reports, List.map_append, List.append_assoc]
  about r mem := (List.mem_append.1 mem).elim (h.about r) (h'.about r)
  stats := by
    rw [h'.stats, h.stats]
    refine Array.ext_getElem? fun k => ?_
    simp only [Array.getElem?_modify]
    split
    · simp [Function.comp_def, DecisionStats.plus_plus]
    · rfl

end Recorded

end Simulation

namespace Prediction

variable {α β : Type} {q : Problem τ} {s s' : Simulation σ τ}

/-- What a step adds to the reports and to the counts, where it answers and where it fails. -/
def Tells (q : Problem τ) (s : Simulation σ τ) (x : Prediction σ τ α)
    (Done : α → List PredictionReport → DecisionStats → Prop)
    (Failed : Failure → List PredictionReport → DecisionStats → Prop) : Prop :=
  x.Ensures s
    (fun a s' => ∃ made more, s.Recorded q.decision made more s' ∧ Done a made more)
    fun e s' => ∃ made more, s.Recorded q.decision made more s' ∧ Failed e made more

namespace Tells

variable {x : Prediction σ τ α} {f : α → Prediction σ τ β}
  {Done Done' : α → List PredictionReport → DecisionStats → Prop}
  {Failed Failed' : Failure → List PredictionReport → DecisionStats → Prop}
  {Last : β → List PredictionReport → DecisionStats → Prop}

theorem pure {a : α} (done : Done a [] .zero) : Tells q s (Pure.pure a) Done Failed :=
  ⟨[], .zero, .of_record rfl, done⟩

theorem throw {e : Failure} (failed : Failed e [] .zero) :
    Tells q s (MonadExcept.throw e) Done Failed :=
  ⟨[], .zero, .of_record rfl, failed⟩

/-- What is known of a step may be weakened. -/
theorem imp (h : Tells q s x Done Failed) (done : ∀ a made more, Done a made more → Done' a made more)
    (failed : ∀ e made more, Failed e made more → Failed' e made more) : Tells q s x Done' Failed' :=
  Step.Ensures.imp h
    (fun a _ ⟨made, more, recorded, holds⟩ => ⟨made, more, recorded, done a made more holds⟩)
    fun e _ ⟨made, more, recorded, holds⟩ => ⟨made, more, recorded, failed e made more holds⟩

/-- A step and the rest add what the two of them add, whether the step or the rest fails. -/
theorem bind (first : Tells q s x Done Failed)
    (rest : ∀ a made more, Done a made more → ∀ s', Tells q s' (f a)
      (fun b made' more' => Last b (made ++ made') (more.plus more'))
      fun e made' more' => Failed e (made ++ made') (more.plus more')) :
    Tells q s (x >>= f) Last Failed := by
  refine Step.Ensures.bind (Step.Ensures.imp first ?_ fun _ _ => id)
  rintro a s' ⟨made, more, recorded, done⟩
  refine Step.Ensures.imp (rest a made more done s') ?_ ?_
  · rintro b s'' ⟨made', more', recorded', last⟩
    exact ⟨_, _, recorded.trans recorded', last⟩
  · rintro e s'' ⟨made', more', recorded', failed⟩
    exact ⟨_, _, recorded.trans recorded', failed⟩

/-- What comes behind a step that adds nothing. -/
theorem behind (h : Tells q s' x Done Failed) (same : s'.record = s.record) :
    x.Ensures s'
      (fun a t => ∃ made more, s.Recorded q.decision made more t ∧ Done a made more)
      fun e t => ∃ made more, s.Recorded q.decision made more t ∧ Failed e made more :=
  Step.Ensures.imp h
    (fun _ _ ⟨made, more, recorded, done⟩ => ⟨made, more, recorded.after same, done⟩)
    fun _ _ ⟨made, more, recorded, failed⟩ => ⟨made, more, recorded.after same, failed⟩

/-- A tacit step adds nothing. -/
theorem bind_answer {Answer : α → Prop} (tacit : ∀ r, Tacit r x)
    (answers : x.Ensures s (fun a _ => Answer a) fun _ _ => True)
    (fails : ∀ e, (∀ error, e ≠ .recoverable error) → Failed e [] .zero)
    (rest : ∀ a, Answer a → ∀ s', Tells q s' (f a) Last Failed) :
    Tells q s (x >>= f) Last Failed := by
  have silent := (tacit s.record).ensures (s := s) rfl
  refine Step.Ensures.bind ((silent.and answers).imp ?_ ?_)
  · rintro a s' ⟨same, answer⟩
    exact (rest a answer s').behind same
  · rintro e s' ⟨⟨same, fault⟩, -⟩
    exact ⟨[], .zero, .of_record same, fails e fault⟩

/-- A tacit step whose answer does not matter. -/
theorem bind_tacit (tacit : ∀ r, Tacit r x)
    (fails : ∀ e, (∀ error, e ≠ .recoverable error) → Failed e [] .zero)
    (rest : ∀ a s', Tells q s' (f a) Last Failed) : Tells q s (x >>= f) Last Failed := by
  have answers : x.Ensures s (fun _ _ => True) fun _ _ => True := by
    unfold Step.Ensures
    split <;> trivial
  exact bind_answer tacit answers fails fun a _ => rest a

theorem bind_get {f : Simulation σ τ → Prediction σ τ β} (h : Tells q s (f s) Last Failed) :
    Tells q s (MonadState.get >>= f) Last Failed :=
  h

/-- The state may be replaced by one with the same record. -/
theorem bind_set {f : PUnit → Prediction σ τ β} (same : s'.record = s.record)
    (h : Tells q s' (f ⟨⟩) Last Failed) : Tells q s (MonadStateOf.set s' >>= f) Last Failed :=
  Step.Ensures.bind (.of_ok (Step.run_set s s') (h.behind same))

theorem ite {c : Prop} [Decidable c] {y : Prediction σ τ α} (yes : c → Tells q s x Done Failed)
    (no : ¬ c → Tells q s y Done Failed) : Tells q s (if c then x else y) Done Failed :=
  Step.Ensures.ite yes no

end Tells

section Parts

variable {Failed : Failure → List PredictionReport → DecisionStats → Prop}

/-- To count is to add to the counts, and nothing to the reports. -/
theorem count_tells {f : DecisionStats → DecisionStats} (more : DecisionStats)
    (adds : ∀ i, f i = i.plus more) :
    Tells q s (count q f) (fun _ made more' => made = [] ∧ more' = more) Failed := by
  obtain rfl : f = (·.plus more) := funext adds
  exact ⟨[], more, .modifyStats s more, rfl, rfl⟩

/-- What comes behind a count. -/
theorem bind_count {f : DecisionStats → DecisionStats} {rest : Unit → Prediction σ τ β}
    {Last : β → List PredictionReport → DecisionStats → Prop} (more : DecisionStats)
    (adds : ∀ i, f i = i.plus more)
    (tells : ∀ s', Tells q s' (rest ⟨⟩) (fun b made more' => Last b made (more.plus more'))
      fun e made more' => Failed e made (more.plus more')) :
    Tells q s (count q f >>= rest) Last Failed := by
  refine .bind (count_tells more adds) ?_
  rintro _ _ _ ⟨rfl, rfl⟩ s'
  exact tells s'

variable [TokenSource σ]

/-- A report is made or, if its text or its state is missing, is not. -/
theorem report_tells (event : PredictionEvent) (stop : Nat) (configs : ConfigurationSet) :
    Tells q s (report q event stop configs)
      (fun _ made more => more = .zero ∧ ∃ r, made = [r] ∧ r.event = event)
      fun e made more => made = [] ∧ more = .zero ∧ ∀ error, e ≠ .recoverable error := by
  refine .bind_tacit (fun _ => onInput_tacit _) (fun e fault => ⟨rfl, rfl, fault⟩) fun text s₁ => ?_
  refine .bind_tacit (fun _ => .ofQuestion _) (fun e fault => ⟨rfl, rfl, fault⟩) fun state s₂ => ?_
  exact ⟨[_], .zero, .report _ rfl, rfl, _, rfl, rfl⟩

end Parts

/-- Inside of a prediction, neither calls nor errors are counted. -/
structure Inward (more : DecisionStats) : Prop where
  invocations : more.invocations = 0
  errors : more.errors = 0

/-- Each report is counted. -/
structure Tally (made : List PredictionReport) (more : DecisionStats) : Prop extends Inward more where
  fallbacks : more.fallbacks = made.countP (·.event.isFullContext)
  ambiguities : more.ambiguities = made.countP (·.event.isAmbiguity)
  contextSensitivities : more.contextSensitivities = made.countP (·.event.isContextSensitivity)

/-- Parts that count neither calls nor errors count none of them together. -/
theorem Inward.plus (h : Inward more) (h' : Inward more') : Inward (more.plus more') where
  invocations := by simp [DecisionStats.plus, h.invocations, h'.invocations]
  errors := by simp [DecisionStats.plus, h.errors, h'.errors]

theorem Tally.zero : Tally [] .zero := ⟨⟨rfl, rfl⟩, rfl, rfl, rfl⟩

/-- How a report is counted. -/
def counts : PredictionEvent → DecisionStats
  | .fullContext _ => { decision := 0, fallbacks := 1 }
  | .ambiguity .. => { decision := 0, ambiguities := 1 }
  | .contextSensitivity _ => { decision := 0, contextSensitivities := 1 }

/-- One report, counted by its kind. -/
theorem Tally.single {r : PredictionReport} {event : PredictionEvent} (is : r.event = event) :
    Tally [r] (counts event) := by
  subst is
  obtain ⟨_, _, _, _, _, event, _⟩ := r
  cases event <;> exact ⟨⟨rfl, rfl⟩, rfl, rfl, rfl⟩

/-- If the reports of two parts are counted, those of both are. -/
theorem Tally.append (h : Tally made more) (h' : Tally made' more') :
    Tally (made ++ made') (more.plus more') where
  toInward := h.toInward.plus h'.toInward
  fallbacks := by simp [DecisionStats.plus, h.fallbacks, h'.fallbacks]
  ambiguities := by simp [DecisionStats.plus, h.ambiguities, h'.ambiguities]
  contextSensitivities := by
    simp [DecisionStats.plus, h.contextSensitivities, h'.contextSensitivities]

section Courses

variable [TokenSource σ]

/-- What the stage with the full context comes to. -/
def Ends (q : Problem τ) : Course → Prop
  | .deadEnd full _ => full = true
  | .decided configs => configs.isEmpty = false ∧ decides q configs = true
  | .settled _ | .accepted _ => False

/-- Where something is reached, it is not the empty set. -/
theorem reach_nonempty (configs : ConfigurationSet) (symbol : Symbol) (full : Bool) :
    (reach q configs symbol full).Ensures s
      (fun reached _ => ∀ set ∈ reached, set.isEmpty = false) fun _ _ => True := by
  have any : configs.Within fun _ => True :=
    ⟨fun _ _ => trivial, fun _ => trivial, fun _ _ _ _ => trivial⟩
  refine (reach_keeps any symbol full s (.refl s.tables.within_true)).imp ?_ fun _ _ _ => trivial
  exact fun reached _ ⟨_, all⟩ set mem => (all set mem).2

/-- With the full context, nothing is reported on the way. -/
theorem fullCourse_tells (fuel : Nat) (previous : ConfigurationSet) (symbol : Symbol) :
    Tells q s (fullCourse q fuel previous symbol)
      (fun c made more => made = [] ∧ Tally made more ∧ Ends q c)
      fun e made more => made = [] ∧ Tally made more ∧ ∀ error, e ≠ .recoverable error := by
  induction fuel generalizing previous symbol s with
  | zero => exact .throw ⟨rfl, .zero, by simp⟩
  | succ fuel ih =>
      have looked : Tally [] { decision := 0, fullLookahead := 1 } := ⟨⟨rfl, rfl⟩, rfl, rfl, rfl⟩
      refine bind_count { decision := 0, fullLookahead := 1 } (fun _ => rfl) fun s₁ => ?_
      refine .bind_answer (fun _ => reach_tacit _ _ _) (reach_nonempty _ _ _)
        (fun e fault => ⟨rfl, looked, fault⟩) fun reached nonempty s₂ => ?_
      cases reached with
      | none => exact .pure ⟨rfl, looked, rfl⟩
      | some configs =>
          refine .ite (fun stops => .pure ⟨rfl, looked, nonempty configs rfl, stops⟩) fun _ => ?_
          refine .bind_tacit (fun _ => advance_tacit _) (fun e fault => ⟨rfl, looked, fault⟩) ?_
          intro next s₃
          refine (ih _ next).imp ?_ ?_
          · exact fun c made more ⟨nothing, tally, ends⟩ => ⟨nothing, looked.append tally, ends⟩
          · exact fun e made more ⟨nothing, tally, fault⟩ => ⟨nothing, looked.append tally, fault⟩

/-- The full context is asked for in one report, if the mode permits. -/
def FallsBack (q : Problem τ) (made : List PredictionReport) : Prop :=
  q.mode ≠ .sll ∧ ∃ r, made = [r] ∧ r.event.isFullContext = true

/-- What has been reported when the course comes to its end. -/
def Leads (q : Problem τ) (c : Course) (made : List PredictionReport) : Prop :=
  match c with
  | .deadEnd false _ | .settled _ | .accepted _ => made = []
  | .deadEnd true _ | .decided _ => FallsBack q made ∧ Ends q c

/-- What the full context comes to, once it was asked for in one report. -/
theorem Leads.of_ends {c : Course} (fallsBack : FallsBack q made) (ends : Ends q c) :
    Leads q c made := by
  cases c with
  | deadEnd full left =>
      obtain rfl : full = true := ends
      exact ⟨fallsBack, rfl⟩
  | decided configs => exact ⟨fallsBack, ends⟩
  | settled | accepted => exact ends.elim

/-- A course that breaks off has asked for the full context, or has reported nothing. -/
def BreaksOff (q : Problem τ) (e : Failure) (made : List PredictionReport) (more : DecisionStats) :
    Prop :=
  (made = [] ∨ FallsBack q made) ∧ Inward more ∧ ∀ error, e ≠ .recoverable error

/-- Nothing has been reported yet. -/
theorem BreaksOff.silent (inward : Inward more) (e : Failure)
    (fault : ∀ error, e ≠ .recoverable error) : BreaksOff q e [] more :=
  ⟨.inl rfl, inward, fault⟩

/-- Falling back reports that the full context is asked for, and then goes on with it. -/
theorem fallBack_tells (d : TableState) (here : Nat) (conflicting : Option AltSet)
    (mode : q.mode ≠ .sll) :
    Tells q s (fallBack q d here conflicting) (fun c made more => Tally made more ∧ Leads q c made)
      (BreaksOff q) := by
  refine .bind_tacit (fun _ => seek_tacit _) (BreaksOff.silent ⟨rfl, rfl⟩) fun _ s₁ => ?_
  refine bind_count { decision := 0, fallbacks := 1 } (fun _ => rfl) fun s₂ => ?_
  refine .bind_get (.bind_set rfl ?_)
  refine .bind_tacit (fun _ => startConfigs_tacit _ _) (BreaksOff.silent ⟨rfl, rfl⟩) ?_
  intro configs s₃
  refine .bind ((report_tells (.fullContext conflicting) here d.configs).imp (fun _ _ _ => id) ?_) ?_
  · rintro e _ _ ⟨rfl, rfl, fault⟩
    exact BreaksOff.silent ⟨rfl, rfl⟩ _ fault
  rintro _ _ _ ⟨rfl, r, rfl, event⟩ s₄
  have fallsBack : FallsBack q [r] := ⟨mode, r, rfl, by rw [event]; rfl⟩
  have tally : Tally [r] { decision := 0, fallbacks := 1 } := .single event
  have breaks (e : Failure) (fault : ∀ error, e ≠ .recoverable error) :
      BreaksOff q e [r] { decision := 0, fallbacks := 1 } := ⟨.inr fallsBack, ⟨rfl, rfl⟩, fault⟩
  refine .bind_tacit (fun _ => seek_tacit _) (fun e fault => ?_) fun _ s₅ => ?_
  · exact breaks e fault
  refine .bind_tacit (fun _ => onInput_tacit _) (fun e fault => ?_) fun symbol s₆ => ?_
  · exact breaks e fault
  refine (fullCourse_tells q.fuel configs symbol).imp ?_ ?_
  · rintro c _ more ⟨rfl, looked, ends⟩
    exact ⟨tally.append (Tally.zero.append looked), .of_ends fallsBack ends⟩
  · rintro e _ more ⟨rfl, looked, fault⟩
    exact ⟨.inr fallsBack, (tally.append (Tally.zero.append looked)).toInward, fault⟩

/-- On a conflict guards may leave one alternative; if not, the full context is asked for. -/
theorem conflictCourse_tells (d : TableState) (mode : q.mode ≠ .sll) :
    Tells q s (conflictCourse q d) (fun c made more => Tally made more ∧ Leads q c made)
      (BreaksOff q) := by
  have fails : ∀ e, (∀ error, e ≠ .recoverable error) → BreaksOff q e [] .zero := .silent ⟨rfl, rfl⟩
  refine .bind_tacit (fun _ => index_tacit) fails fun here s₁ => ?_
  cases d.guards with
  | none => exact fallBack_tells d here _ mode
  | some guards =>
      refine .bind_tacit (fun _ => seek_tacit _) fails fun _ s₂ => ?_
      refine .bind_tacit (fun _ => viable_tacit guards) fails fun alts s₃ => ?_
      match alts with
      | [alt] => exact .pure ⟨.zero, rfl⟩
      | [] | _ :: _ :: _ => exact fallBack_tells d here _ mode

/-- Lookahead that was counted before does not matter to how a course breaks off. -/
theorem BreaksOff.after {e : Failure} (h : BreaksOff q e made more') (inward : Inward more) :
    BreaksOff q e made (more.plus more') :=
  ⟨h.1, inward.plus h.2.1, h.2.2⟩

/-- Without context nothing is reported before a conflict. -/
theorem localCourse_tells (fuel : Nat) (previous : TableState) (symbol : Symbol) :
    Tells q s (localCourse q fuel previous symbol)
      (fun c made more => Tally made more ∧ Leads q c made) (BreaksOff q) := by
  induction fuel generalizing previous symbol s with
  | zero => exact .throw (BreaksOff.silent ⟨rfl, rfl⟩ _ (by simp))
  | succ fuel ih =>
      let looking : DecisionStats := { decision := 0, localLookahead := 1 }
      have looked : Tally [] looking := ⟨⟨rfl, rfl⟩, rfl, rfl, rfl⟩
      refine bind_count looking (fun _ => rfl) fun s₁ => ?_
      refine .bind_tacit (fun _ => target_tacit _ _) (BreaksOff.silent ⟨rfl, rfl⟩) ?_
      intro target s₂
      have later {x : Prediction σ τ Course} {s : Simulation σ τ}
          (tells : Tells q s x (fun c made more => Tally made more ∧ Leads q c made) (BreaksOff q)) :
          Tells q s x
            (fun c made more => Tally made (looking.plus more) ∧ Leads q c made)
            fun e made more => BreaksOff q e made (looking.plus more) :=
        tells.imp (fun c made more ⟨tally, leads⟩ => ⟨looked.append tally, leads⟩)
          fun e made more breaks => breaks.after looked.toInward
      cases target with
      | dead => exact .pure ⟨looked, rfl⟩
      | state d =>
          refine .ite (fun falls => later (conflictCourse_tells d ?_)) fun _ => ?_
          · intro sll
            simp [sll] at falls
          refine .ite (fun _ => .pure ⟨looked, rfl⟩) fun _ => ?_
          refine .bind_tacit (fun _ => advance_tacit _) (BreaksOff.silent ⟨rfl, rfl⟩) ?_
          exact fun next s₃ => later (ih d next)

/-- A course reports what it leads to. -/
theorem course_tells :
    Tells q s (course q) (fun c made more => Tally made more ∧ Leads q c made) (BreaksOff q) := by
  refine .bind_tacit (fun _ => startState_tacit) (BreaksOff.silent ⟨rfl, rfl⟩) fun d s₁ => ?_
  refine .bind_tacit (fun _ => onInput_tacit _) (BreaksOff.silent ⟨rfl, rfl⟩) ?_
  exact fun symbol s₂ => localCourse_tells _ d symbol

end Courses

section Conclusions

variable [TokenSource σ]

/-- What has been reported since the end of the course, where the prediction answers with an
alternative. -/
def Finishes (c : Course) (alt : Nat) (made : List PredictionReport) : Prop :=
  match c with
  | .deadEnd .. | .settled _ => made = []
  | .accepted _ => made = [] ∨ ∃ r, made = [r] ∧ r.event.isAmbiguity = true ∧ r.event.Names alt
  | .decided _ => ∃ r, made = [r] ∧ r.event.Names alt

/-- What fails at the end, but not on the input, may have counted what it did not come to report. -/
def Broken (e : Failure) (made : List PredictionReport) (more : DecisionStats) : Prop :=
  made = [] ∧ Inward more ∧ ∀ error, e ≠ .recoverable error

/-- What fails at the end reports nothing. If it fails on the input, it counts nothing. -/
def Fails (e : Failure) (made : List PredictionReport) (more : DecisionStats) : Prop :=
  made = [] ∧ Inward more ∧ ∀ error, e = .recoverable error → Tally made more

/-- What fails, but not on the input, need not count what it reports. -/
theorem Broken.fails {e : Failure} (h : Broken e made more) : Fails e made more :=
  ⟨h.1, h.2.1, fun error eq => absurd eq (h.2.2 error)⟩

theorem Broken.silent (inward : Inward more) (e : Failure)
    (fault : ∀ error, e ≠ .recoverable error) : Broken e [] more :=
  ⟨rfl, inward, fault⟩

theorem Fails.silent (inward : Inward more) (e : Failure)
    (fault : ∀ error, e ≠ .recoverable error) : Fails e [] more :=
  (Broken.silent inward e fault).fails

/-- A dead end is not reported. -/
theorem deadEnd_tells (left : ConfigurationSet) :
    Tells q s (deadEnd q left) (fun _ made more => Tally made more ∧ made = []) Fails := by
  refine .bind_tacit (fun _ => noViableAlt_tacit _) (Fails.silent ⟨rfl, rfl⟩) ?_
  intro error s₁
  refine .bind_tacit (fun _ => seek_tacit _) (Fails.silent ⟨rfl, rfl⟩) fun _ s₂ => ?_
  refine .bind_tacit (fun _ => fallback_tacit _) (Fails.silent ⟨rfl, rfl⟩) fun alt s₃ => ?_
  exact .ite (fun _ => .pure ⟨.zero, rfl⟩) fun _ => .throw ⟨rfl, ⟨rfl, rfl⟩, fun _ _ => .zero⟩

/-- An ambiguity is counted, and then reported. -/
theorem reportAmbiguity_tells (exact : Bool) (alts : AltSet) (stop : Nat)
    (configs : ConfigurationSet) :
    Tells q s (reportAmbiguity q exact alts stop configs)
      (fun _ made more => Tally made more ∧ ∃ r, made = [r] ∧ r.event = .ambiguity exact alts)
      Broken := by
  refine bind_count { decision := 0, ambiguities := 1 } (fun _ => rfl) fun s₁ => ?_
  refine (report_tells _ _ _).imp ?_ ?_
  · rintro _ _ _ ⟨rfl, r, rfl, event⟩
    exact ⟨.single event, r, rfl, event⟩
  · rintro e _ _ ⟨rfl, rfl, fault⟩
    exact ⟨rfl, ⟨rfl, rfl⟩, fault⟩

/-- Guards that leave several alternatives are reported as an ambiguity, and the first is taken. -/
theorem accept_tells (d : TableState) :
    Tells q s (accept q d) (fun alt made more => Tally made more ∧ Finishes (.accepted d) alt made)
      Fails := by
  unfold accept
  cases d.guards with
  | none => exact .pure ⟨.zero, .inl rfl⟩
  | some guards =>
      refine .bind_tacit (fun _ => index_tacit) (Fails.silent ⟨rfl, rfl⟩) fun stop s₁ => ?_
      refine .bind_tacit (fun _ => seek_tacit _) (Fails.silent ⟨rfl, rfl⟩) fun _ s₂ => ?_
      refine .bind_tacit (fun _ => viable_tacit guards) (Fails.silent ⟨rfl, rfl⟩) ?_
      intro alts s₃
      match alts with
      | [] =>
          refine .bind_tacit (fun _ => noViableAlt_tacit _) (Fails.silent ⟨rfl, rfl⟩) ?_
          exact fun error s₄ => .throw ⟨rfl, ⟨rfl, rfl⟩, fun _ _ => .zero⟩
      | [alt] => exact .pure ⟨.zero, .inl rfl⟩
      | alt :: next :: others =>
          refine .bind ((reportAmbiguity_tells false _ stop d.configs).imp (fun _ _ _ => id)
            fun _ _ _ => Broken.fails) ?_
          rintro _ _ more ⟨tally, r, rfl, event⟩ s₄
          refine .pure ⟨tally.append .zero, .inr ⟨r, rfl, by rw [event]; rfl, ?_⟩⟩
          rw [event]
          exact List.mem_cons_self

/-- A viable alternative is one of the threads. -/
theorem viableAlt_mem {set : ConfigurationSet} (nonempty : set.isEmpty = false)
    (settled : Conflict.allEqual set.altSubsets = true ∨ Conflict.viableAlt set.altSubsets ≠ noAlt) :
    Conflict.viableAlt set.altSubsets ∈ set.alts := by
  -- Only the threads count here, and not what has been settled about them.
  let bare : ConfigurationSet := { set with uniqueAlt := noAlt, conflicting := none }
  have within : bare.Within (· ∈ set.alts) :=
    ⟨fun c mem => AltSet.mem_ofList.2 (List.mem_map_of_mem mem), fun settled => absurd rfl settled,
      by simp [bare]⟩
  obtain ⟨some, subsets⟩ := ConfigurationSet.altSubsets_spec within nonempty
  rcases settled with equal | viable
  · exact Conflict.viableAlt_of_allEqual some subsets equal
  · exact Conflict.viableAlt_of_ne (fun alts mem => (subsets alts mem).2) viable

/-- With the full context, what comes out is reported. -/
theorem conclude_decided {configs : ConfigurationSet} (ends : Ends q (.decided configs)) :
    Tells q s (conclude q (.decided configs))
      (fun alt made more => Tally made more ∧ Finishes (.decided configs) alt made) Broken := by
  obtain ⟨nonempty, stops⟩ := ends
  refine .ite (fun agree => ?_) fun disagree => ?_
  · refine bind_count { decision := 0, contextSensitivities := 1 } (fun _ => rfl) fun s₁ => ?_
    refine .bind_tacit (fun _ => index_tacit) (Broken.silent ⟨rfl, rfl⟩) fun stop s₂ => ?_
    refine .bind ((report_tells (.contextSensitivity configs.uniqueAlt) stop configs).imp
      (fun _ _ _ => id) ?_) ?_
    · rintro e _ _ ⟨rfl, rfl, fault⟩
      exact ⟨rfl, ⟨rfl, rfl⟩, fault⟩
    · rintro _ _ _ ⟨rfl, r, rfl, event⟩ s₃
      refine .pure ⟨.single event, r, rfl, ?_⟩
      rw [event]
      rfl
  · refine .bind_tacit (fun _ => index_tacit) (Broken.silent ⟨rfl, rfl⟩) fun stop s₁ => ?_
    refine .bind (reportAmbiguity_tells _ _ _ _) ?_
    rintro _ _ more ⟨tally, r, rfl, event⟩ s₂
    refine .pure ⟨tally.append .zero, r, rfl, ?_⟩
    rw [event]
    refine viableAlt_mem nonempty ?_
    have unsettled : configs.uniqueAlt = noAlt := Decidable.not_not.1 disagree
    simp only [decides, certain, unsettled, bne_self_eq_false, Bool.false_or, Bool.or_eq_true,
      Bool.and_eq_true, bne_iff_ne] at stops
    exact stops.imp And.right And.right

/-- What is reported at the end of a course, by the kind of the course. -/
theorem conclude_tells (c : Course) (ends : ∀ configs, c = .decided configs → Ends q c) :
    Tells q s (conclude q c) (fun alt made more => Tally made more ∧ Finishes c alt made)
      fun e made more => Fails e made more ∧
        ∀ configs, c = .decided configs → ∀ error, e ≠ .recoverable error := by
  have fails (c : Course) (other : ∀ configs, c ≠ .decided configs)
      (tells : Tells q s (conclude q c) (fun alt made more => Tally made more ∧ Finishes c alt made)
        Fails) : Tells q s (conclude q c) (fun alt made more => Tally made more ∧ Finishes c alt made)
      fun e made more => Fails e made more ∧
        ∀ configs, c = .decided configs → ∀ error, e ≠ .recoverable error :=
    tells.imp (fun _ _ _ => id) fun e made more fails =>
      ⟨fails, fun configs eq => absurd eq (other configs)⟩
  cases c with
  | deadEnd full left => exact fails _ (by simp) (deadEnd_tells left)
  | settled alt => exact fails _ (by simp) (.pure ⟨.zero, rfl⟩)
  | accepted d => exact fails _ (by simp) (accept_tells d)
  | decided configs =>
      exact (conclude_decided (ends configs rfl)).imp (fun _ _ _ => id) fun e made more broken =>
        ⟨broken.fails, fun _ _ => broken.2.2⟩

end Conclusions

section Whole

variable [TokenSource σ]

/-- With the full context, the prediction runs into a dead end. -/
def RunsDry (q : Problem τ) (s : Simulation σ τ) : Prop :=
  ∃ left t, (course q).run s = (.ok (.deadEnd true left), t)

/-- A fault breaks the prediction off. -/
def Faults (outcome : Except Failure Nat) : Prop :=
  ∃ fault, outcome = .error (.fault fault)

/-- What a prediction reports, where `dry` says that it runs into a dead end with the full context. -/
structure Events (mode : PredictionMode) (dry : Prop) (outcome : Except Failure Nat)
    (made : List PredictionReport) : Prop where
  fullContext : made.countP (·.event.isFullContext) ≤ 1
  verdict : made.countP (·.event.isVerdict) ≤ 1
  withoutContext : mode = .sll → ∀ r ∈ made, r.event.isAmbiguity = true
  /-- Who asks for the full context and runs into no dead end says what came out. -/
  decided : ¬ Faults outcome → ¬ dry → ∀ r ∈ made, r.event.isFullContext = true →
    ∃ alt verdict, outcome = .ok alt ∧ made = [r, verdict] ∧ verdict.event.Names alt
  undecided : dry → ∀ r ∈ made, r.event.isFullContext = true

/-- What names an alternative is a verdict. -/
theorem isVerdict_of_names {event : PredictionEvent} {alt : Nat} (names : event.Names alt) :
    event.isVerdict = true ∧ event.isFullContext = false := by
  cases event with
  | fullContext => exact names.elim
  | ambiguity | contextSensitivity => exact ⟨rfl, rfl⟩

/-- To ask for the full context is no verdict. -/
theorem not_isVerdict_of_isFullContext {event : PredictionEvent} (full : event.isFullContext = true) :
    event.isVerdict = false ∧ event.isAmbiguity = false := by
  cases event with
  | fullContext => exact ⟨rfl, rfl⟩
  | ambiguity | contextSensitivity => cases full

namespace Events

variable {mode : PredictionMode} {dry : Prop} {outcome : Except Failure Nat} {r r' : PredictionReport}

/-- Nothing is reported. -/
theorem nil (calm : ¬ dry) : Events mode dry outcome [] where
  fullContext := by simp
  verdict := by simp
  withoutContext := by simp
  decided := by simp
  undecided yes := absurd yes calm

/-- Guards leave several alternatives. -/
theorem ambiguous (calm : ¬ dry) (ambiguity : r.event.isAmbiguity = true) :
    Events mode dry outcome [r] where
  fullContext := List.countP_le_length
  verdict := List.countP_le_length
  withoutContext _ := by simpa using ambiguity
  decided _ _ := by
    intro other mem full
    obtain rfl := List.mem_singleton.1 mem
    exact absurd ambiguity (by simp [(not_isVerdict_of_isFullContext full).2])
  undecided yes := absurd yes calm

/-- The full context is asked for, and nothing comes out. -/
theorem asked (context : mode ≠ .sll) (full : r.event.isFullContext = true)
    (ends : Faults outcome ∨ dry) : Events mode dry outcome [r] where
  fullContext := List.countP_le_length
  verdict := List.countP_le_length
  withoutContext sll := absurd sll context
  decided sound calm := (ends.elim sound calm).elim
  undecided _ := by simpa using full

/-- The full context is asked for, and something comes out. -/
theorem answered {alt : Nat} (context : mode ≠ .sll) (calm : ¬ dry)
    (full : r.event.isFullContext = true) (names : r'.event.Names alt) :
    Events mode dry (.ok alt) [r, r'] := by
  have first := (not_isVerdict_of_isFullContext full).1
  obtain ⟨verdict, other⟩ := isVerdict_of_names names
  refine ⟨?_, ?_, fun sll => absurd sll context, fun _ _ => ?_, fun yes => absurd yes calm⟩
  · simp [full, other]
  · simp [first, verdict]
  · intro r₁ mem full'
    rcases List.mem_pair.1 mem with rfl | rfl
    · exact ⟨alt, r', rfl, rfl, names⟩
    · exact absurd full' (by simp [other])

end Events

/-- What has been reported on the course of a prediction and at its end. -/
theorem Leads.events {c : Course} {alt : Nat} (leads : Leads q c made)
    (finishes : Finishes c alt made') :
    Events q.mode (∃ left, c = .deadEnd true left) (.ok alt) (made ++ made') := by
  cases c with
  | deadEnd full left =>
      obtain rfl : made' = [] := finishes
      cases full with
      | false =>
          obtain rfl : made = [] := leads
          exact .nil (by simp)
      | true =>
          obtain ⟨⟨context, r, rfl, full⟩, -⟩ := leads
          exact .asked context full (.inr ⟨left, rfl⟩)
  | settled found =>
      obtain rfl : made = [] := leads
      obtain rfl : made' = [] := finishes
      exact .nil (by simp)
  | accepted d =>
      obtain rfl : made = [] := leads
      rcases finishes with rfl | ⟨r, rfl, ambiguity, -⟩
      · exact .nil (by simp)
      · exact .ambiguous (by simp) ambiguity
  | decided configs =>
      obtain ⟨⟨context, r, rfl, full⟩, -⟩ := leads
      obtain ⟨r', rfl, names⟩ := finishes
      exact .answered context (by simp) full names

/-- What has been reported where the end of the course fails. -/
theorem Leads.events_of_error {c : Course} {e : Failure} (leads : Leads q c made)
    (breaks : ∀ configs, c = .decided configs → ∃ fault, e = .fault fault) :
    Events q.mode (∃ left, c = .deadEnd true left) (.error e) made := by
  cases c with
  | deadEnd full left =>
      cases full with
      | false =>
          obtain rfl : made = [] := leads
          exact .nil (by simp)
      | true =>
          obtain ⟨⟨context, r, rfl, full⟩, -⟩ := leads
          exact .asked context full (.inr ⟨left, rfl⟩)
  | settled | accepted =>
      obtain rfl : made = [] := leads
      exact .nil (by simp)
  | decided configs =>
      obtain ⟨⟨context, r, rfl, full⟩, -⟩ := leads
      obtain ⟨fault, rfl⟩ := breaks configs rfl
      exact .asked context full (.inl ⟨fault, rfl⟩)

/-- An error that is neither recoverable nor fatal is a fault. -/
theorem fault_of_not {e : Failure} (recoverable : ∀ error, e ≠ .recoverable error)
    (harmless : ¬ e.IsFatal) : ∃ fault, e = .fault fault := by
  cases e with
  | recoverable error => exact absurd rfl (recoverable error)
  | fatal error => exact absurd trivial harmless
  | fault fault => exact ⟨fault, rfl⟩

/-- What a prediction reports on its course is followed by what it reports at the end. -/
theorem predict_events {outcome : Except Failure Nat} {t : Simulation σ τ}
    (run : (predict q).run s = (outcome, t)) (harmless : ∀ e, outcome = .error e → ¬ e.IsFatal) :
    ∃ made more, s.Recorded q.decision made more t ∧ Inward more ∧
      Events q.mode (RunsDry q s) outcome made ∧ (¬ Faults outcome → Tally made more) := by
  obtain ⟨result, s₁, ran⟩ : ∃ result s₁, (course q).run s = (result, s₁) := ⟨_, _, rfl⟩
  rw [predict_eq] at run
  cases result with
  | error e =>
      obtain ⟨rfl, rfl⟩ := Prod.mk.inj ((Step.run_bind_error ran).symm.trans run)
      obtain ⟨made, more, recorded, reported, inward, error⟩ := course_tells.error ran
      obtain ⟨fault, rfl⟩ := fault_of_not error (harmless e rfl)
      have faults : Faults (.error (.fault fault)) := ⟨fault, rfl⟩
      have calm : ¬ RunsDry q s := by
        rintro ⟨left, t, dry⟩
        rw [ran] at dry
        cases dry
      refine ⟨made, more, recorded, inward, ?_, fun sound => absurd faults sound⟩
      rcases reported with rfl | ⟨context, r, rfl, full⟩
      · exact .nil calm
      · exact .asked context full (.inl faults)
  | ok c =>
      rw [Step.run_bind_ok ran] at run
      obtain ⟨made, more, recorded, tally, leads⟩ := course_tells.ok ran
      have same : RunsDry q s = ∃ left, c = .deadEnd true left := by
        refine propext ⟨?_, ?_⟩
        · rintro ⟨left, t, dry⟩
          obtain ⟨eq, -⟩ := Prod.mk.inj (ran.symm.trans dry)
          exact ⟨left, Except.ok.inj eq⟩
        · rintro ⟨left, rfl⟩
          exact ⟨left, s₁, ran⟩
      have ends (configs : ConfigurationSet) (eq : c = .decided configs) : Ends q c := by
        subst eq
        exact leads.2
      rw [same]
      cases outcome with
      | ok alt =>
          obtain ⟨made', more', recorded', tally', finishes⟩ := (conclude_tells c ends).ok run
          have tally := tally.append tally'
          exact ⟨_, _, recorded.trans recorded', tally.toInward, leads.events finishes, fun _ => tally⟩
      | error e =>
          obtain ⟨_, more', recorded', ⟨rfl, inward, counted⟩, breaks⟩ :=
            (conclude_tells c ends).error run
          refine ⟨_, _, recorded.trans recorded', tally.toInward.plus inward, ?_, fun sound => ?_⟩
          · rw [List.append_nil]
            refine leads.events_of_error fun configs eq => ?_
            exact fault_of_not (breaks configs eq) (harmless e rfl)
          · cases e with
            | recoverable error => exact tally.append (counted error rfl)
            | fatal error => exact absurd trivial (harmless _ rfl)
            | fault fault => exact absurd ⟨fault, rfl⟩ sound

variable {grammar : Grammar} {mode : PredictionMode} {fuel decision : Nat} {situation : Situation τ}
  {table : PredictionTable} {outcome : Except Failure Nat}

/-- A prediction does not fail fatally. -/
theorem predict_harmless {t : Simulation σ τ}
    (known : s.tables.starts[q.decision]? = some q.decisionState)
    (run : (predict q).run s = (outcome, t)) (e : Failure) (failed : outcome = .error e) :
    ¬ e.IsFatal := by
  subst failed
  have keeps := predict_keeps (P := fun _ _ => True) (q := q) known (fun _ _ _ _ _ => trivial) s
    (.refl s.tables.within_true)
  exact (keeps.error run).2

omit [TokenSource σ] in
/-- At the beginning the call is counted. -/
theorem begun_recorded (decision : Nat) (s : Simulation σ τ) :
    s.Recorded decision [] { decision := 0, invocations := 1 } (begun decision s) :=
  .after (.modifyStats { s with input := s.input.mark, tables := s.tables.forgetMerges } _) rfl

/-- At the end an error is counted if there is one. -/
theorem ended_recorded (outcome : Except Failure Nat) (s : Simulation σ τ) :
    s.Recorded q.decision [] { decision := 0, errors := if outcome.isOk then 0 else 1 }
      (ended q outcome s) := by
  cases outcome with
  | ok alt => exact .of_record rfl
  | error e =>
      exact .after (.modifyStats { s with input := (s.input.seek q.start).release } _) rfl

/-- A prediction asks for the full context at most once and says at most once what came out of a
conflict. Unless a fault breaks it off, the counts of its decision grow by the numbers of the reports; the
calls grow by one, and the errors by one exactly if it fails. -/
theorem adaptivePredict_accounts
    (run : (adaptivePredict grammar mode fuel decision situation).run s = (outcome, s')) :
    match s.tables.tables[decision]? with
    | none => outcome = .error (.fatal (.network (.invalidDecision decision))) ∧ s' = s
    | some table => ∃ made more, s.Recorded decision made more s' ∧
        more.invocations = 1 ∧ more.errors = (if outcome.isOk then 0 else 1) ∧
        (¬ Faults outcome →
          more.fallbacks = made.countP (·.event.isFullContext) ∧
          more.ambiguities = made.countP (·.event.isAmbiguity) ∧
          more.contextSensitivities = made.countP (·.event.isContextSensitivity)) ∧
        Events mode
          (RunsDry (posed grammar mode fuel decision situation table s.input.index) (begun decision s))
          outcome made := by
  cases known : s.tables.tables[decision]? with
  | none =>
      unfold adaptivePredict at run
      rw [Step.run_bind_ok (Step.run_get s), known] at run
      obtain ⟨rfl, rfl⟩ := Prod.mk.inj run
      exact ⟨rfl, rfl⟩
  | some table =>
      let q := posed grammar mode fuel decision situation table s.input.index
      obtain ⟨result, t, ran⟩ : ∃ result t, (predict q).run (begun decision s) = (result, t) :=
        ⟨_, _, rfl⟩
      have whole : (adaptivePredict grammar mode fuel decision situation).run s = _ :=
        run_adaptivePredict known
      rw [show (predict (posed _ _ _ _ _ _ _)).run _ = _ from ran, run] at whole
      obtain ⟨rfl, rfl⟩ := Prod.mk.inj whole
      have starts : (begun decision s).tables.starts[q.decision]? = some q.decisionState := by
        change (Tables.starts s.tables)[decision]? = _
        rw [Tables.starts, Array.getElem?_map, known]
        rfl
      obtain ⟨made, more, recorded, inward, events, tally⟩ :=
        predict_events ran (predict_harmless starts ran)
      have recorded := ((begun_recorded decision s).trans recorded).trans
        (ended_recorded (q := q) outcome t)
      rw [List.nil_append, List.append_nil] at recorded
      refine ⟨made, _, recorded, ?_, ?_, fun sound => ?_, events⟩
      · simp [DecisionStats.plus, inward.invocations]
      · simp [DecisionStats.plus, inward.errors]
      · obtain ⟨-, fallbacks, ambiguities, contextSensitivities⟩ := tally sound
        simp [DecisionStats.plus, fallbacks, ambiguities, contextSensitivities]

/-- Two alternatives that match the same: the full context is asked for, and the ambiguity is found. -/
theorem adaptivePredict_accounts_ambiguous :
    ∃ n, Network.assemble .parser (forked 5 .basic) = .ok n ∧
      let g : Grammar := { network := n, names := {} }
      let s := beforeToken n
      ∃ outcome s' table made more, (adaptivePredict g .ll 20 0 uncalled).run s = (outcome, s') ∧
        s.tables.tables[0]? = some table ∧ outcome.toOption = some 1 ∧
        made.map PredictionReport.event = [.fullContext (some [1, 2]), .ambiguity false [1, 2]] ∧
        s.Recorded 0 made more s' ∧ more.fallbacks = 1 ∧ more.ambiguities = 1 ∧
        Events .ll (RunsDry (posed g .ll 20 0 uncalled table s.input.index) (begun 0 s)) outcome made := by
  have known : (Network.assemble .parser (forked 5 .basic)).toOption.any (fun n =>
      let (outcome, s') := (adaptivePredict { network := n, names := {} } .ll 20 0 uncalled).run
        (beforeToken n)
      (beforeToken n).tables.tables[0]?.isSome && decide (outcome.toOption = some 1) &&
        decide ((s'.reports.toList.filterMap Report.prediction?).map PredictionReport.event =
          [.fullContext (some [1, 2]), .ambiguity false [1, 2]])) = true := by
    decide +kernel
  cases built : Network.assemble .parser (forked 5 .basic) with
  | error e => simp [built, Except.toOption] at known
  | ok n =>
      obtain ⟨outcome, s', run⟩ : ∃ outcome s',
          (adaptivePredict { network := n, names := {} } .ll 20 0 uncalled).run (beforeToken n) =
            (outcome, s') := ⟨_, _, rfl⟩
      rw [built] at known
      change Option.any _ (some n) = true at known
      simp only [Option.any_some, run, Bool.and_eq_true, decide_eq_true_eq, Option.isSome_iff_exists] at known
      obtain ⟨⟨⟨table, found⟩, answer⟩, events⟩ := known
      have accounts := adaptivePredict_accounts run
      rw [found] at accounts
      obtain ⟨made, more, recorded, -, -, counted, accounts⟩ := accounts
      have told : s'.reports.toList.filterMap Report.prediction? = made := by
        rw [recorded.reports, List.filterMap_append, List.filterMap_map]
        exact List.filterMap_some
      rw [told] at events
      have sound : ¬ Faults outcome := by
        rintro ⟨fault, rfl⟩
        cases answer
      obtain ⟨fallbacks, ambiguities, -⟩ := counted sound
      have counts (flag : PredictionEvent → Bool) : made.countP (fun r => flag r.event) =
          [.fullContext (some [1, 2]), .ambiguity false [1, 2]].countP flag := by
        rw [← events, List.countP_map]
        rfl
      exact ⟨n, rfl, outcome, s', table, made, more, run, found, answer, events, recorded,
        fallbacks.trans (counts _), ambiguities.trans (counts _), accounts⟩

end Whole

end Prediction

end AdaptiveLL
