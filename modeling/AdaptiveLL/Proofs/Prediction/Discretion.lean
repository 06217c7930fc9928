import AdaptiveLL.Prediction.Adaptive
import AdaptiveLL.Proofs.Step.Invariant
/-!
Predictions are discreet. Between what it counts and what it reports, a prediction reads on, closes
threads, looks at its tables and asks the host. Nobody hears of that, and none of it fails on the
input. All in all, predictions tell of no mistake, and where they fail on the input, their error says
all that a report of it needs: reporting is left to the parser.
-/
namespace AdaptiveLL

variable {σ τ : Type}

/-- What has been counted, and what has been reported. -/
def Simulation.record (s : Simulation σ τ) : Array DecisionStats × Array Report :=
  (s.stats, s.reports)

namespace Prediction

/-- The step counts nothing, reports nothing and makes no recognition error. -/
abbrev Tacit {α : Type} (r : Array DecisionStats × Array Report) (x : Prediction σ τ α) : Prop :=
  Step.Upholds (fun s => s.record = r) (fun _ => False) x

variable {r : Array DecisionStats × Array Report} {q : Problem τ}

section Guards

theorem addTo_tacit (set : ConfigurationSet) (c : Configuration) :
    Tacit r (addTo set c : Prediction σ τ _) :=
  .bind .get fun _ => .bind (.modify fun _ inv => inv) fun _ => .pure _

theorem pushFrame_tacit (parent resume : Nat) :
    Tacit r (pushFrame parent resume : Prediction σ τ Nat) :=
  .bind .get fun _ => .bind (.modify fun _ inv => inv) fun _ => .pure _

theorem ask_tacit (node : Option NodeId) (rule index : Nat) :
    Tacit r (ask q node rule index : Prediction σ τ Bool) :=
  .bind_get fun _ inv => .bind (.set inv) fun _ => .pure _

mutual

theorem eval_tacit (node : Option Nat) (g : Guard) :
    Tacit r (g.eval (evaluator q) node : Prediction σ τ Bool) :=
  match g with
  | .always => .pure _
  | .predicate rule index _ => ask_tacit _ rule index
  | .precedence _ => .pure _
  | .all gs => evalAll_tacit node gs
  | .any gs => evalAny_tacit node gs

theorem evalAll_tacit (node : Option Nat) (gs : List Guard) :
    Tacit r (Guard.evalAll (evaluator q) node gs : Prediction σ τ Bool) :=
  match gs with
  | [] => .pure _
  | g :: rest => .bind (eval_tacit node g) fun _ => .ite (evalAll_tacit node rest) (.pure _)

theorem evalAny_tacit (node : Option Nat) (gs : List Guard) :
    Tacit r (Guard.evalAny (evaluator q) node gs : Prediction σ τ Bool) :=
  match gs with
  | [] => .pure _
  | g :: rest => .bind (eval_tacit node g) fun _ => .ite (.pure _) (evalAny_tacit node rest)

end

mutual

theorem evalPrecedence_tacit (node : Option Nat) (g : Guard) :
    Tacit r (g.evalPrecedence (evaluator q) node : Prediction σ τ _) := by
  match g with
  | .always => exact .pure _
  | .predicate .. => exact .pure _
  | .precedence _ => exact .bind (.pure _) fun _ => .ite (.pure _) (.pure _)
  | .all gs =>
      rw [Guard.evalPrecedence]
      refine .bind (remainingAll_tacit node gs) fun remaining => ?_
      match remaining with
      | none => exact .pure _
      | some _ => exact .ite (.pure _) (.pure _)
  | .any gs =>
      rw [Guard.evalPrecedence]
      refine .bind (remainingAny_tacit node gs) fun remaining => ?_
      match remaining with
      | none => exact .pure _
      | some [] => exact .ite (.pure _) (.pure _)
      | some (_ :: _) => exact .ite (.pure _) (.pure _)

theorem remainingAll_tacit (node : Option Nat) (gs : List Guard) :
    Tacit r (Guard.remainingAll (evaluator q) node gs : Prediction σ τ _) := by
  match gs with
  | [] => exact .pure _
  | g :: rest =>
      rw [Guard.remainingAll]
      refine .bind (evalPrecedence_tacit node g) fun remaining => ?_
      match remaining with
      | none => exact .pure _
      | some _ =>
          refine .bind (remainingAll_tacit node rest) fun others => ?_
          match others with
          | none => exact .pure _
          | some _ => exact .pure _

theorem remainingAny_tacit (node : Option Nat) (gs : List Guard) :
    Tacit r (Guard.remainingAny (evaluator q) node gs : Prediction σ τ _) := by
  match gs with
  | [] => exact .pure _
  | g :: rest =>
      rw [Guard.remainingAny]
      refine .bind (evalPrecedence_tacit node g) fun remaining => ?_
      split
      · exact .pure _
      · refine .bind (remainingAny_tacit node rest) fun others => ?_
        match others with
        | none => exact .pure _
        | some _ => exact .pure _
      · exact remainingAny_tacit node rest

end

theorem admits_tacit (g : Guard) :
    Tacit r (admits q g : Prediction σ τ Bool) :=
  .ite (.pure _) (eval_tacit _ g)

theorem viable_tacit (guards : List (Guard × Nat)) :
    Tacit r (viable q guards : Prediction σ τ AltSet) := by
  refine .foldlM (fun alts g => ?_) guards []
  exact .bind (admits_tacit g.1) fun _ => .pure _

theorem fallback_tacit (configs : ConfigurationSet) :
    Tacit r (fallback q configs : Prediction σ τ Nat) := by
  refine .bind (.mapM (fun c => ?_) _) fun judged => ?_
  · exact .bind (admits_tacit c.guard) fun _ => .pure _
  · exact .bind .get fun _ => .pure _

theorem filterByPrecedence_tacit (configs : ConfigurationSet) :
    Tacit r (filterByPrecedence q configs : Prediction σ τ _) := by
  refine .bind ?_ fun operators => .foldlM (fun set c => addTo_tacit set c) _ _
  refine .bind (.mapM (fun c => ?_) _) fun _ => .pure _
  exact .bind (evalPrecedence_tacit _ c.guard) fun _ => .pure _

end Guards

section Tables

theorem onTable_tacit {α : Type} [Inhabited α] (f : PredictionTable → α × PredictionTable) :
    Tacit r (onTable q f : Prediction σ τ α) := by
  refine .bind_get fun s inv => ?_
  split
  · exact .pure _
  · exact .bind (.set inv) fun _ => .pure _

theorem addState_tacit (d : TableState) :
    Tacit r (addState q d : Prediction σ τ TableState) :=
  onTable_tacit _

theorem addEdge_tacit (source : TableState) (symbol : Symbol) (target : TableTarget) :
    Tacit r (addEdge q source symbol target : Prediction σ τ Unit) :=
  onTable_tacit _
theorem settle_tacit (configs : ConfigurationSet) :
    Tacit r (settle q configs : Prediction σ τ TableState) := by
  refine .ite (.pure _) (.bind_get fun s inv => .bind (.ofQuestion _) fun _ => ?_)
  exact .bind (.set inv) fun _ => .ite (.pure _) (.pure _)

end Tables

section Threads

theorem onInput_tacit {α : Type} (f : TokenStream σ → α × TokenStream σ) :
    Tacit r (onInput f : Prediction σ τ α) :=
  .bind_get fun _ inv => .bind (.set inv) fun _ => .pure _

theorem index_tacit : Tacit r (index : Prediction σ τ Nat) :=
  .bind .get fun _ => .pure _

variable [TokenSource σ]

theorem seek_tacit (place : Nat) : Tacit r (seek place : Prediction σ τ Unit) :=
  onInput_tacit _

theorem advance_tacit (symbol : Symbol) :
    Tacit r (advance symbol : Prediction σ τ Symbol) :=
  .ite (.pure _) (.bind (onInput_tacit _) fun _ => onInput_tacit _)

theorem crossGuard_tacit (full collect : Bool) (c : Configuration) (target : Nat) (g : Guard) :
    Tacit r (crossGuard q full collect c target g : Prediction σ τ _) := by
  refine .ite (.pure _) (.ite ?_ (.pure _))
  refine .bind index_tacit fun here => .bind (seek_tacit _) fun _ => ?_
  exact .bind (eval_tacit _ g) fun _ => .bind (seek_tacit here) fun _ => .pure _

theorem cross_tacit (mode : ClosureMode) (collect inRule : Bool) (c : Configuration)
    (t : Transition) : Tacit r (cross q mode collect inRule c t : Prediction σ τ _) := by
  cases t with
  | call => exact .bind (pushFrame_tacit _ _) fun _ => .pure _
  | precedence | predicate => exact crossGuard_tacit _ _ _ _ _
  | action | epsilon | atom | range | set | notSet | wildcard => exact .pure _

/-- What a closure does with the threads that it comes to is tacit. -/
def Quiet (r : Array DecisionStats × Array Report)
    (onward : Bool → Int → Configuration → Closure → Prediction σ τ Closure) : Prop :=
  ∀ collect depth c acc, Tacit r (onward collect depth c acc)

variable {onward : Bool → Int → Configuration → Closure → Prediction σ τ Closure}

theorem followEdge_tacit (quiet : Quiet r onward) (mode : ClosureMode) (rule : Nat)
    (collect : Bool) (depth : Int) (c : Configuration) (s : State) (acc : Closure)
    (t : Transition) : Tacit r (followEdge q mode rule onward collect depth c s acc t) := by
  refine .bind (cross_tacit _ _ _ _ _) fun moved => ?_
  cases moved with
  | none => exact .pure _
  | some target =>
      refine .ite (.ite (.pure _) (quiet _ _ _ _)) ?_
      exact .ite (quiet _ _ _ _) (.ite (.pure _) (quiet _ _ _ _))

theorem expand_tacit (quiet : Quiet r onward) (mode : ClosureMode) (collect : Bool)
    (depth : Int) (c : Configuration) (acc : Closure) :
    Tacit r (expand q mode onward collect depth c acc) := by
  refine .bind (.ofQuestion _) fun s => ?_
  extract_lets follow
  have follows (acc : Closure) : Tacit r (follow acc) :=
    .bind (.ofQuestion _) fun _ => .foldlM (fun _ _ => followEdge_tacit quiet _ _ _ _ _ _ _ _) _ _
  exact .ite (.bind (.pure _) follows) (.bind (addTo_tacit _ _) fun _ => .bind (.pure _) follows)

/-- A closure is tacit, to any depth. -/
theorem close_quiet (mode : ClosureMode) (fuel : Nat) :
    Quiet r (close q mode fuel : _ → _ → _ → _ → Prediction σ τ Closure) := by
  induction fuel with
  | zero => exact fun _ _ _ _ => .throw (by simp)
  | succ fuel ih =>
      intro collect depth c acc
      rw [Prediction.close]
      refine .bind (.ofQuestion _) fun s => ?_
      have expands (c : Configuration) (acc : Closure) := expand_tacit (q := q) ih mode collect depth c acc
      have adds (acc : Closure) (c : Configuration) : Tacit r (do
          return { acc with configs := ← addTo acc.configs c } : Prediction σ τ Closure) :=
        .bind (addTo_tacit _ _) fun _ => .pure _
      refine .ite (expands _ _) (.ite (.ite (adds _ _) (expands _ _)) ?_)
      refine .bind .get fun _ => .foldlM (fun acc entry => ?_) _ _
      exact .ite (.ite (adds _ _) (expands _ _)) (ih _ _ _ _)

theorem startConfigs_tacit (fullContext : Bool) (stack : Nat) :
    Tacit r (startConfigs q fullContext stack : Prediction σ τ _) :=
  .bind (.ofQuestion _) fun _ =>
    .foldlM (fun _ _ => .bind (close_quiet _ _ _ _ _ _) fun _ => .pure _) _ _

omit [TokenSource σ] in
theorem moved_tacit (configs : ConfigurationSet) (symbol : Symbol) (fullContext : Bool) :
    Tacit r (moved q configs symbol fullContext : Prediction σ τ _) := by
  refine .foldlM (fun (moved, finished) c => .bind (.ofQuestion _) fun s => ?_) _ _
  refine .ite (.ite (.pure _) (.pure _)) (.bind (.foldlM (fun moved t => ?_) _ _) fun _ => .pure _)
  exact .ite (addTo_tacit _ _) (.pure _)

omit [TokenSource σ] in
theorem finishedOnly_tacit (configs : ConfigurationSet) (unclosed : Bool) :
    Tacit r (finishedOnly q configs unclosed : Prediction σ τ _) := by
  refine .bind (.ofQuestion _) fun all => .ite (.pure _) (.foldlM (fun result c => ?_) _ _)
  refine .bind (.ofQuestion _) fun s => .ite (addTo_tacit _ _) (.ite ?_ (.pure _))
  refine .bind (.ofQuestion _) fun following => ?_
  split
  · exact addTo_tacit _ _
  · exact .pure _

theorem reach_tacit (configs : ConfigurationSet) (symbol : Symbol) (fullContext : Bool) :
    Tacit r (reach q configs symbol fullContext : Prediction σ τ _) := by
  refine .bind (moved_tacit _ _ _) fun (moved, finished) => ?_
  dsimp -zeta only
  extract_lets settled answer finish complete
  have finishes (reached : ConfigurationSet) : Tacit r (finish reached) := by
    refine .bind (.ofQuestion _) fun ended => .ite (.bind (.pure _) fun _ => .pure _) ?_
    exact .bind (.foldlM (fun _ _ => addTo_tacit _ _) _ _) fun _ => .pure _
  have completes (reached : ConfigurationSet) : Tacit r (complete reached) :=
    .ite (.bind (finishedOnly_tacit _ _) finishes) (.bind (.pure _) finishes)
  refine .ite (.bind (.pure _) completes) (.bind ?_ fun closure => .bind (.pure _) completes)
  exact .foldlM (fun _ _ => close_quiet _ _ _ _ _ _) _ _

theorem noViableAlt_tacit (configs : ConfigurationSet) :
    Tacit r (noViableAlt q configs : Prediction σ τ RecognitionError) :=
  .bind .get fun _ => .bind (onInput_tacit _) fun _ => .pure _

theorem computeTarget_tacit (source : TableState) (symbol : Symbol) :
    Tacit r (computeTarget q source symbol : Prediction σ τ TableTarget) := by
  refine .bind (reach_tacit _ _ _) fun reached => ?_
  cases reached with
  | none => exact .bind (addEdge_tacit _ _ _) fun _ => .pure _
  | some configs =>
      refine .bind (settle_tacit _) fun _ => .bind (addState_tacit _) fun _ => ?_
      exact .bind (addEdge_tacit _ _ _) fun _ => .pure _

theorem target_tacit (source : TableState) (symbol : Symbol) :
    Tacit r (target q source symbol : Prediction σ τ TableTarget) := by
  refine .bind (onTable_tacit _) fun known => ?_
  cases known with
  | some known => exact .pure _
  | none => exact computeTarget_tacit _ _

theorem startState_tacit : Tacit r (startState q : Prediction σ τ TableState) := by
  refine .bind (onTable_tacit _) fun known => ?_
  cases known with
  | some known => exact .pure _
  | none =>
      refine .bind (startConfigs_tacit _ _) fun configs => .ite ?_ ?_
      · refine .bind (filterByPrecedence_tacit _) fun _ => .bind (addState_tacit _) fun _ => ?_
        exact .bind (onTable_tacit _) fun _ => .pure _
      · exact .bind (addState_tacit _) fun _ => .bind (onTable_tacit _) fun _ => .pure _

end Threads

end Prediction

/-- An error can be reported without asking the network: a mismatch names what was expected. -/
def RecognitionError.Explained (e : RecognitionError) : Prop :=
  e.kind = .inputMismatch → e.expected.isSome = true

/-- The mistakes that have been told of. -/
def Simulation.mistakes (s : Simulation σ τ) : List Mistake :=
  s.reports.toList.filterMap Report.mistake?

/-- These are the mistakes that have been told of. -/
def Simulation.HasTold (told : List Mistake) (s : Simulation σ τ) : Prop :=
  s.mistakes = told

/-- Events of predictions are no mistakes. -/
theorem Simulation.HasTold.prediction {told : List Mistake} {s : Simulation σ τ}
    (h : s.HasTold told) (r : PredictionReport) : (s.report (.prediction r)).HasTold told := by
  rw [HasTold, mistakes, report, Array.toList_push, List.filterMap_append]
  exact (List.append_nil _).trans h

namespace Prediction

open Simulation (HasTold)
open RecognitionError (Explained)

/-- The step tells of no mistake, and its errors are explained. -/
abbrev Discreet {α : Type} (told : List Mistake) (x : Prediction σ τ α) : Prop :=
  Step.Upholds (HasTold told) Explained x

variable {told : List Mistake} {q : Problem τ}

/-- What nobody hears of tells of no mistake. -/
theorem discreet_of_tacit {α : Type} {x : Prediction σ τ α} (tacit : ∀ r, Tacit r x) :
    Discreet told x := by
  intro s inv
  obtain ⟨same, silent⟩ := tacit s.record s rfl
  have reports : (x.run s).2.reports = s.reports := congrArg Prod.snd same
  refine ⟨?_, fun e failed => (silent e failed).elim⟩
  rw [HasTold, Simulation.mistakes, reports]
  exact inv

theorem bind_tacit {α β : Type} {x : Prediction σ τ α} {f : α → Prediction σ τ β}
    (tacit : ∀ r, Tacit r x) (rest : ∀ a, Discreet told (f a)) : Discreet told (x >>= f) :=
  .bind (discreet_of_tacit tacit) rest

theorem count_discreet (f : DecisionStats → DecisionStats) :
    Discreet told (count q f : Prediction σ τ Unit) :=
  .modify fun _ inv => inv

section Stages

variable [TokenSource σ]

theorem report_discreet (event : PredictionEvent) (stop : Nat) (configs : ConfigurationSet) :
    Discreet told (report q event stop configs : Prediction σ τ Unit) :=
  bind_tacit (fun _ => onInput_tacit _) fun _ => .bind (.ofQuestion _) fun _ =>
    .modify fun _ inv => inv.prediction _

theorem reportAmbiguity_discreet (exact : Bool) (alts : AltSet) (stop : Nat)
    (configs : ConfigurationSet) :
    Discreet told (reportAmbiguity q exact alts stop configs : Prediction σ τ Unit) :=
  .bind (count_discreet _) fun _ => report_discreet _ _ _

/-- That no alternative is viable needs no more explanation. -/
theorem noViableAlt_discreet {α : Type} {f : RecognitionError → Prediction σ τ α}
    (configs : ConfigurationSet) (rest : ∀ e : RecognitionError, e.Explained → Discreet told (f e)) :
    Discreet told (noViableAlt q configs >>= f) := by
  rw [noViableAlt, bind_assoc]
  refine .bind .get fun s => ?_
  rw [bind_assoc]
  exact bind_tacit (fun _ => onInput_tacit _) fun token => rest _ (by simp [Explained])

theorem deadEnd_discreet (configs : ConfigurationSet) :
    Discreet told (deadEnd q configs : Prediction σ τ Nat) := by
  refine noViableAlt_discreet configs fun error explained => ?_
  refine bind_tacit (fun _ => seek_tacit _) fun _ => bind_tacit (fun _ => fallback_tacit _) fun alt => ?_
  exact .ite (.pure _) (.throw fun e eq => Failure.recoverable.inj eq ▸ explained)

/-- What comes out with the full context is no mistake. -/
theorem predictFully_discreet (fuel : Nat) (previous : ConfigurationSet) (symbol : Symbol) :
    Discreet told (predictFully q fuel previous symbol : Prediction σ τ Nat) := by
  induction fuel generalizing previous symbol with
  | zero => exact .throw (by simp)
  | succ fuel ih =>
      refine .bind (count_discreet _) fun _ => bind_tacit (fun _ => reach_tacit _ _ _) fun reached => ?_
      cases reached with
      | none => exact deadEnd_discreet _
      | some configs =>
          refine .ite ?_ (.ite ?_ (bind_tacit (fun _ => advance_tacit _) fun _ => ih _ _))
          · refine .bind (count_discreet _) fun _ => bind_tacit (fun _ => index_tacit) fun _ => ?_
            exact .bind (report_discreet _ _ _) fun _ => .pure _
          · refine bind_tacit (fun _ => index_tacit) fun _ => ?_
            exact .bind (reportAmbiguity_discreet _ _ _ _) fun _ => .pure _

/-- A conflict is no mistake. -/
theorem resolve_discreet (d : TableState) :
    Discreet told (resolve q d : Prediction σ τ Nat) := by
  unfold resolve
  refine bind_tacit (fun _ => index_tacit) fun here => ?_
  extract_lets resolved
  have resolves (conflicting : Option AltSet) : Discreet told (resolved conflicting) := by
    simp only [resolved]
    split
    · exact .pure _
    · refine bind_tacit (fun _ => seek_tacit _) fun _ => .bind (count_discreet _) fun _ => ?_
      refine .bind_get fun s inv => .bind (.set inv) fun _ => ?_
      refine bind_tacit (fun _ => startConfigs_tacit _ _) fun _ => ?_
      refine .bind (report_discreet _ _ _) fun _ => bind_tacit (fun _ => seek_tacit _) fun _ => ?_
      exact bind_tacit (fun _ => onInput_tacit _) fun _ => predictFully_discreet _ _ _
  cases d.guards with
  | none => exact .bind (.pure _) resolves
  | some guards =>
      refine bind_tacit (fun _ => seek_tacit _) fun _ => ?_
      refine bind_tacit (fun _ => viable_tacit guards) fun alts => ?_
      exact .bind (.pure _) resolves

theorem accept_discreet (d : TableState) : Discreet told (accept q d : Prediction σ τ Nat) := by
  unfold accept
  cases d.guards with
  | none => exact .pure _
  | some guards =>
      refine bind_tacit (fun _ => index_tacit) fun _ => bind_tacit (fun _ => seek_tacit _) fun _ => ?_
      refine bind_tacit (fun _ => viable_tacit guards) fun alts => ?_
      match alts with
      | [] =>
          exact noViableAlt_discreet _ fun e explained =>
            .throw fun e' eq => Failure.recoverable.inj eq ▸ explained
      | [alt] => exact .pure _
      | alt :: _ :: _ => exact .bind (reportAmbiguity_discreet _ _ _ _) fun _ => .pure _

theorem predictLocally_discreet (fuel : Nat) (previous : TableState) (symbol : Symbol) :
    Discreet told (predictLocally q fuel previous symbol : Prediction σ τ Nat) := by
  induction fuel generalizing previous symbol with
  | zero => exact .throw (by simp)
  | succ fuel ih =>
      refine .bind (count_discreet _) fun _ => bind_tacit (fun _ => target_tacit _ _) fun target => ?_
      cases target with
      | dead => exact deadEnd_discreet _
      | state d =>
          exact .ite (resolve_discreet d) (.ite (accept_discreet d)
            (bind_tacit (fun _ => advance_tacit _) fun _ => ih _ _))

/-- A prediction tells of no mistake, and its errors are explained. -/
theorem adaptivePredict_discreet (grammar : Grammar) (mode : PredictionMode) (fuel decision : Nat)
    (situation : Situation τ) :
    Discreet told (adaptivePredict grammar mode fuel decision situation : Prediction σ τ Nat) := by
  refine .bind_get fun s inv => ?_
  split
  · exact .throw (by simp)
  · refine .bind (.set inv) fun _ => .bind (count_discreet _) fun _ => ?_
    have predicts (q : Problem τ) : Discreet told (predict q : Prediction σ τ Nat) :=
      bind_tacit (fun _ => startState_tacit) fun _ => bind_tacit (fun _ => onInput_tacit _) fun _ =>
        predictLocally_discreet _ _ _
    refine .bind_attempt (predicts _) fun outcome explained => ?_
    refine bind_tacit (fun _ => seek_tacit _) fun _ => .bind (.modify fun _ inv => inv) fun _ => ?_
    extract_lets passOn
    have passesOn (x : PUnit) : Discreet told (passOn x) := .ofOutcome explained
    split
    · exact .bind (count_discreet _) passesOn
    · exact passesOn ⟨⟩

end Stages

end Prediction

end AdaptiveLL