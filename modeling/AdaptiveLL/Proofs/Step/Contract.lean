import AdaptiveLL.Proofs.Step
/-!
Contracts of steps: what holds of the answer and of the state behind it, and what holds where
the step fails. A step keeps an invariant if it holds of the state behind every outcome.
-/
namespace AdaptiveLL

namespace Failure

/-- The failures that end a parse with an answer. -/
def IsFatal : Failure → Prop
  | fatal _ => True
  | recoverable _ | fault _ => False

/-- The failures that stand for a question about something that is not there. -/
def IsStray : Failure → Prop
  | fault f => f ≠ .exhausted
  | recoverable _ | fatal _ => False

end Failure

namespace Step

variable {σ α β : Type} {x : Step σ α} {s s' : σ}

/-- What holds of the outcome of a step. -/
def Ensures (x : Step σ α) (s : σ) (Done : α → σ → Prop) (Failed : Failure → σ → Prop) : Prop :=
  match x.run s with
  | (.ok a, s') => Done a s'
  | (.error e, s') => Failed e s'

namespace Ensures

variable {Done Done' : α → σ → Prop} {Failed Failed' : Failure → σ → Prop}

theorem of_ok {a : α} {t : σ} (run : x.run s = (.ok a, t)) (h : Done a t) :
    Ensures x s Done Failed := by
  rw [Ensures, run]
  exact h

theorem of_error {e : Failure} (run : x.run s = (.error e, s')) (h : Failed e s') :
    Ensures x s Done Failed := by
  rw [Ensures, run]
  exact h

theorem ok {a : α} (h : Ensures x s Done Failed) (run : x.run s = (.ok a, s')) : Done a s' := by
  rwa [Ensures, run] at h

/-- A step that cannot fail has an answer. -/
theorem exists_ok (h : Ensures x s Done fun _ _ => False) :
    ∃ a s', x.run s = (.ok a, s') ∧ Done a s' := by
  obtain ⟨outcome, s', run⟩ : ∃ outcome s', x.run s = (outcome, s') := ⟨_, _, rfl⟩
  rw [Ensures, run] at h
  cases outcome with
  | ok a => exact ⟨a, s', run, h⟩
  | error => exact h.elim

theorem error {e : Failure} (h : Ensures x s Done Failed) (run : x.run s = (.error e, s')) :
    Failed e s' := by
  rwa [Ensures, run] at h

theorem imp (h : Ensures x s Done Failed) (done : ∀ a s', Done a s' → Done' a s')
    (failed : ∀ e s', Failed e s' → Failed' e s') : Ensures x s Done' Failed' := by
  unfold Ensures at h ⊢
  split at h
  · exact done _ _ h
  · exact failed _ _ h

theorem bind {f : α → Step σ β} {Done : β → σ → Prop}
    (h : Ensures x s (fun a s' => Ensures (f a) s' Done Failed) Failed) :
    Ensures (x >>= f) s Done Failed := by
  unfold Ensures at h
  split at h <;> rename_i eq
  · rwa [Ensures, run_bind_ok eq]
  · exact of_error (run_bind_error eq) h

theorem and {Done' : α → σ → Prop} {Failed' : Failure → σ → Prop} (h : Ensures x s Done Failed)
    (h' : Ensures x s Done' Failed') : Ensures x s (fun a s' => Done a s' ∧ Done' a s')
      fun e s' => Failed e s' ∧ Failed' e s' := by
  obtain ⟨outcome, s', run⟩ : ∃ outcome s', x.run s = (outcome, s') := ⟨_, _, rfl⟩
  cases outcome with
  | ok a => exact .of_ok run ⟨h.ok run, h'.ok run⟩
  | error e => exact .of_error run ⟨h.error run, h'.error run⟩

theorem ite {c : Prop} [Decidable c] {y : Step σ α} (yes : c → Ensures x s Done Failed)
    (no : ¬ c → Ensures y s Done Failed) : Ensures (if c then x else y) s Done Failed := by
  split
  · exact yes ‹_›
  · exact no ‹_›

/-- What each step of a fold keeps holds after the fold. -/
theorem foldlM {f : β → α → Step σ β} {P : β → σ → Prop} {as : List α}
    (step : ∀ a ∈ as, ∀ b s, P b s → Ensures (f b a) s P Failed) {b : β} (start : P b s) :
    Ensures (as.foldlM f b) s P Failed := by
  induction as generalizing b s with
  | nil => exact of_ok rfl start
  | cons a as ih =>
      rw [List.foldlM_cons]
      refine bind ((step a (.head _) b s start).imp ?_ fun _ _ => id)
      exact fun b s kept => ih (fun a mem => step a (.tail _ mem)) kept

/-- What holds of the state behind every outcome. -/
theorem state {P : σ → Prop} (h : Ensures x s (fun _ s' => P s') fun _ s' => P s') :
    P (x.run s).2 := by
  unfold Ensures at h
  split at h <;> rename_i eq <;> rwa [eq]

/-- What holds when the answer is put in another form holds of that form of the answer. -/
theorem of_map {f : α → β} {Done : β → σ → Prop}
    (h : Ensures (do return f (← x)) s Done Failed) :
    Ensures x s (fun a s' => Done (f a) s') Failed := by
  obtain ⟨outcome, s', run⟩ : ∃ outcome s', x.run s = (outcome, s') := ⟨_, _, rfl⟩
  cases outcome with
  | error e => exact .of_error run (h.error (run_bind_error run))
  | ok a => exact .of_ok run (h.ok (run_bind_ok run))

end Ensures

/-- A step keeps an invariant, answers as `Answer` says, and fails only as `Mild` allows. -/
def Observes (Mild : Failure → Prop) (Inv : σ → Prop) (x : Step σ α) (Answer : α → Prop) : Prop :=
  ∀ s, Inv s → Ensures x s (fun a s' => Inv s' ∧ Answer a) fun e s' => Inv s' ∧ Mild e

namespace Observes

variable {Mild : Failure → Prop} {Inv : σ → Prop} {Answer Answer' : α → Prop} {R : β → Prop}

theorem pure {a : α} {R : α → Prop} (h : R a) : Observes Mild Inv (Pure.pure a) R :=
  fun _ inv => ⟨inv, h⟩

theorem get : Observes Mild Inv (MonadState.get : Step σ σ) Inv :=
  fun _ inv => ⟨inv, inv⟩

theorem set {s : σ} (h : Inv s) :
    Observes Mild Inv (MonadStateOf.set s : Step σ PUnit) fun _ => True :=
  fun _ _ => ⟨h, trivial⟩

theorem modify {f : σ → σ} (h : ∀ s, Inv s → Inv (f s)) :
    Observes Mild Inv (modify f : Step σ PUnit) fun _ => True :=
  fun s inv => ⟨h s inv, trivial⟩

theorem throw {e : Failure} (h : Mild e) : Observes Mild Inv (throw e : Step σ α) Answer :=
  fun _ inv => ⟨inv, h⟩

theorem throw_bind {e : Failure} {f : α → Step σ β} (h : Mild e) :
    Observes Mild Inv ((MonadExcept.throw e : Step σ α) >>= f) R :=
  fun _ inv => ⟨inv, h⟩

theorem bind {f : α → Step σ β} (first : Observes Mild Inv x Answer)
    (rest : ∀ a, Answer a → Observes Mild Inv (f a) R) : Observes Mild Inv (x >>= f) R :=
  fun s inv => .bind <| (first s inv).imp (fun a s' ⟨inv, holds⟩ => rest a holds s' inv)
    fun _ _ => id

theorem pure_bind {a : α} {f : α → Step σ β} (h : Observes Mild Inv (f a) R) :
    Observes Mild Inv (Pure.pure a >>= f) R :=
  h

theorem imp (h : Observes Mild Inv x Answer) (answer : ∀ a, Answer a → Answer' a) :
    Observes Mild Inv x Answer' :=
  fun s inv => (h s inv).imp (fun a _ => And.imp_right (answer a)) fun _ _ => id

theorem ite {c : Prop} [Decidable c] {y : Step σ α} (yes : c → Observes Mild Inv x Answer)
    (no : ¬ c → Observes Mild Inv y Answer) : Observes Mild Inv (if c then x else y) Answer := by
  split
  · exact yes ‹_›
  · exact no ‹_›

theorem ofQuestion {answer : Except Fault α} {R : α → Prop}
    (mild : ∀ f, answer = .error f → Mild (.fault f)) (h : ∀ a, answer = .ok a → R a) :
    Observes Mild Inv (Step.ofQuestion answer) R := by
  cases answer with
  | ok a => exact pure (h a rfl)
  | error fault => exact throw (mild fault rfl)

/-- A question whose answer does not matter. -/
theorem asks {answer : Except Fault α} (mild : ∀ f, answer = .error f → Mild (.fault f)) :
    Observes Mild Inv (Step.ofQuestion answer) fun _ => True :=
  ofQuestion mild fun _ _ => trivial

/-- A question that has an answer. -/
theorem ofAnswer {answer : Except Fault α} (h : ∃ a, answer = .ok a ∧ Answer a) :
    Observes Mild Inv (Step.ofQuestion answer) Answer := by
  obtain ⟨a, rfl, holds⟩ := h
  exact pure holds

theorem required {error : NetworkError} {answer : Option α} (mild : Mild (.fatal (.network error))) :
    Observes Mild Inv (Step.required error answer) fun a => answer = some a := by
  cases answer with
  | some a => exact pure rfl
  | none => exact throw mild

theorem foldlM {f : β → α → Step σ β} {xs : List α} {b : β} (start : R b)
    (step : ∀ b, R b → ∀ x ∈ xs, Observes Mild Inv (f b x) R) :
    Observes Mild Inv (xs.foldlM f b) R := by
  induction xs generalizing b with
  | nil => exact pure start
  | cons x xs ih =>
      rw [List.foldlM_cons]
      exact bind (step b start x (.head _)) fun b holds =>
        ih holds fun b holds x mem => step b holds x (.tail _ mem)

theorem mapM {f : α → Step σ β} {xs : List α} (step : ∀ x ∈ xs, Observes Mild Inv (f x) R) :
    Observes Mild Inv (xs.mapM f) fun ys => ∀ y ∈ ys, R y := by
  induction xs with
  | nil => exact pure (by simp)
  | cons x xs ih =>
      rw [List.mapM_cons]
      refine bind (step x (.head _)) fun y holds => ?_
      refine bind (ih fun x mem => step x (.tail _ mem)) fun ys all => pure ?_
      exact List.forall_mem_cons.2 ⟨holds, all⟩

theorem forM {f : α → Step σ PUnit} {xs : List α}
    (step : ∀ x ∈ xs, Observes Mild Inv (f x) fun _ => True) :
    Observes Mild Inv (xs.forM f) fun _ => True := by
  induction xs with
  | nil => exact pure trivial
  | cons x xs ih =>
      exact bind (step x (.head _)) fun _ _ => ih fun x mem => step x (.tail _ mem)

/-- The failures of a step whose outcome is looked at are still mild when it is passed on. -/
theorem bind_attempt {f : Except Failure α → Step σ β} (tried : Observes Mild Inv x Answer)
    (rest : ∀ outcome, (∀ e, outcome = .error e → Mild e) → Observes Mild Inv (f outcome) R) :
    Observes Mild Inv (x.attempt >>= f) R := by
  intro s inv
  obtain ⟨outcome, s', run⟩ : ∃ outcome s', x.run s = (outcome, s') := ⟨_, _, rfl⟩
  have ran : x.attempt.run s = (.ok outcome, s') := by rw [run_attempt, run]
  refine .bind (.of_ok ran ?_)
  cases outcome with
  | ok a => exact rest _ (by simp) s' ((tried s inv).ok run).1
  | error e =>
      obtain ⟨inv', mild⟩ := (tried s inv).error run
      exact rest _ (fun e' eq => Except.error.inj eq ▸ mild) s' inv'

theorem ofOutcome {outcome : Except Failure α} (mild : ∀ e, outcome = .error e → Mild e) :
    Observes Mild Inv (Step.ofOutcome outcome) fun _ => True := by
  cases outcome with
  | ok a => exact pure trivial
  | error e => exact throw (mild e rfl)

end Observes

/-- A step keeps an invariant, answers as `Answer` says, and fails without an answer of its
own. -/
abbrev Keeps (Inv : σ → Prop) (x : Step σ α) (Answer : α → Prop) : Prop :=
  Observes (fun e => ¬ e.IsFatal) Inv x Answer

/-- A step keeps an invariant, answers as `Answer` says, and asks for nothing that is not
there. -/
abbrev Finds (Inv : σ → Prop) (x : Step σ α) (Answer : α → Prop) : Prop :=
  Observes (fun e => ¬ e.IsStray) Inv x Answer

end Step

end AdaptiveLL
