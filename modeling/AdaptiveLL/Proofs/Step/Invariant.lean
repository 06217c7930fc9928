import AdaptiveLL.Proofs.Step.Contract
/-!
Invariants of steps: what holds of the state behind every outcome, a failure of any kind included,
if it held before. Besides the invariant, a step may uphold what is permitted of its recognition
errors.
-/
namespace AdaptiveLL.Step

variable {σ α β : Type} {Inv : σ → Prop} {x : Step σ α}

def Preserves (Inv : σ → Prop) (x : Step σ α) : Prop :=
  ∀ s, Inv s → Inv (x.run s).2

namespace Preserves

theorem ensures {s : σ} (h : Preserves Inv x) (inv : Inv s) :
    x.Ensures s (fun _ s' => Inv s') fun _ s' => Inv s' := by
  have inv' := h s inv
  unfold Ensures
  split <;> rename_i run <;> rwa [run] at inv'

theorem pure (a : α) : Preserves Inv (Pure.pure a) :=
  fun _ inv => inv

theorem throw (e : Failure) : Preserves Inv (throw e : Step σ α) :=
  fun _ inv => inv

theorem get : Preserves Inv (MonadState.get : Step σ σ) :=
  fun _ inv => inv

theorem modify {f : σ → σ} (h : ∀ s, Inv s → Inv (f s)) : Preserves Inv (modify f : Step σ PUnit) :=
  h

theorem bind_run {f : α → Step σ β} {s : σ} (first : Inv (x.run s).2)
    (rest : ∀ a, Preserves Inv (f a)) : Inv ((x >>= f).run s).2 := by
  rw [run_bind]
  split <;> rename_i run <;> rw [run] at first
  · exact rest _ _ first
  · exact first

theorem bind {f : α → Step σ β} (first : Preserves Inv x) (rest : ∀ a, Preserves Inv (f a)) :
    Preserves Inv (x >>= f) :=
  fun s inv => bind_run (first s inv) rest

/-- What is done with a state that has just been looked up may depend on its being current. -/
theorem bind_get {f : σ → Step σ α} (h : ∀ s, Inv s → Inv ((f s).run s).2) :
    Preserves Inv (MonadState.get >>= f) :=
  h

theorem ite {c : Prop} [Decidable c] {y : Step σ α} (yes : Preserves Inv x)
    (no : Preserves Inv y) : Preserves Inv (if c then x else y) := by
  split
  · exact yes
  · exact no

theorem ofQuestion (answer : Except Fault α) : Preserves Inv (Step.ofQuestion answer) := by
  cases answer with
  | ok a => exact pure a
  | error fault => exact throw _

theorem required (error : NetworkError) (answer : Option α) :
    Preserves Inv (Step.required error answer) := by
  cases answer with
  | some a => exact pure a
  | none => exact throw _

theorem attempt (h : Preserves Inv x) : Preserves Inv x.attempt :=
  h

theorem ofOutcome (outcome : Except Failure α) : Preserves Inv (Step.ofOutcome outcome) := by
  cases outcome with
  | ok a => exact pure a
  | error e => exact throw e

theorem foldlM {f : β → α → Step σ β} (step : ∀ b a, Preserves Inv (f b a)) (as : List α) (b : β) :
    Preserves Inv (as.foldlM f b) := by
  induction as generalizing b with
  | nil => exact pure b
  | cons a as ih =>
      rw [List.foldlM_cons]
      exact bind (step b a) ih

theorem forM {f : α → Step σ PUnit} (step : ∀ a, Preserves Inv (f a)) (as : List α) :
    Preserves Inv (as.forM f) := by
  induction as with
  | nil => exact pure _
  | cons a as ih => exact bind (step a) fun _ => ih

end Preserves

/-- The step keeps an invariant, and its recognition errors are permitted. -/
def Upholds (Inv : σ → Prop) (Permitted : RecognitionError → Prop) (x : Step σ α) : Prop :=
  ∀ s, Inv s → Inv (x.run s).2 ∧ ∀ e, (x.run s).1 = .error (.recoverable e) → Permitted e

namespace Upholds

variable {Permitted : RecognitionError → Prop}

theorem ensures {s : σ} (h : Upholds Inv Permitted x) (inv : Inv s) :
    x.Ensures s (fun _ s' => Inv s') fun e s' =>
      Inv s' ∧ ∀ error, e = .recoverable error → Permitted error := by
  obtain ⟨inv', permitted⟩ := h s inv
  unfold Ensures
  split <;> rename_i run <;> rw [run] at inv' permitted
  · exact inv'
  · exact ⟨inv', fun error eq => permitted error (congrArg _ eq)⟩

theorem pure (a : α) : Upholds Inv Permitted (Pure.pure a) :=
  fun _ inv => ⟨inv, by simp⟩

theorem throw {e : Failure} (permitted : ∀ error, e = .recoverable error → Permitted error) :
    Upholds Inv Permitted (throw e : Step σ α) :=
  fun _ inv => ⟨inv, fun error eq => permitted error (Except.error.inj eq)⟩

theorem get : Upholds Inv Permitted (MonadState.get : Step σ σ) :=
  fun _ inv => ⟨inv, by simp⟩

theorem set {s : σ} (inv : Inv s) : Upholds Inv Permitted (MonadStateOf.set s : Step σ PUnit) :=
  fun _ _ => ⟨inv, by simp⟩

theorem modify {f : σ → σ} (h : ∀ s, Inv s → Inv (f s)) :
    Upholds Inv Permitted (modify f : Step σ PUnit) :=
  fun s inv => ⟨h s inv, by simp⟩

theorem bind {f : α → Step σ β} (first : Upholds Inv Permitted x)
    (rest : ∀ a, Upholds Inv Permitted (f a)) : Upholds Inv Permitted (x >>= f) := by
  intro s inv
  have here := first s inv
  rw [run_bind]
  split <;> rename_i run <;> rw [run] at here
  · exact rest _ _ here.1
  · exact ⟨here.1, fun e eq => here.2 e (congrArg _ (Except.error.inj eq))⟩

/-- What is done with a state that has just been looked up may depend on the invariant. -/
theorem bind_get {f : σ → Step σ α} (h : ∀ s, Inv s → Upholds Inv Permitted (f s)) :
    Upholds Inv Permitted (MonadState.get >>= f) :=
  fun s inv => h s inv s inv

theorem ite {c : Prop} [Decidable c] {y : Step σ α} (yes : Upholds Inv Permitted x)
    (no : Upholds Inv Permitted y) : Upholds Inv Permitted (if c then x else y) := by
  split
  · exact yes
  · exact no

theorem ofQuestion (answer : Except Fault α) : Upholds Inv Permitted (Step.ofQuestion answer) := by
  cases answer with
  | ok a => exact pure a
  | error fault => exact throw (by simp)

theorem required (error : NetworkError) (answer : Option α) :
    Upholds Inv Permitted (Step.required error answer) := by
  cases answer with
  | some a => exact pure a
  | none => exact throw (by simp)

theorem foldlM {f : β → α → Step σ β} (step : ∀ b a, Upholds Inv Permitted (f b a)) (as : List α)
    (b : β) : Upholds Inv Permitted (as.foldlM f b) := by
  induction as generalizing b with
  | nil => exact pure b
  | cons a as ih =>
      rw [List.foldlM_cons]
      exact bind (step b a) ih

theorem mapM {f : α → Step σ β} (step : ∀ a, Upholds Inv Permitted (f a)) (as : List α) :
    Upholds Inv Permitted (as.mapM f) := by
  induction as with
  | nil => exact pure []
  | cons a as ih =>
      rw [List.mapM_cons]
      exact bind (step a) fun _ => bind ih fun _ => pure _

theorem forM {f : β → Step σ PUnit} (step : ∀ a, Upholds Inv Permitted (f a)) (as : List β) :
    Upholds Inv Permitted (as.forM f) := by
  induction as with
  | nil => exact pure _
  | cons a as ih => exact bind (step a) fun _ => ih

/-- The errors of a step whose outcome is looked at are still permitted when it is passed on. -/
theorem bind_attempt {f : Except Failure α → Step σ β} (tried : Upholds Inv Permitted x)
    (rest : ∀ outcome, (∀ e, outcome = .error (.recoverable e) → Permitted e) →
      Upholds Inv Permitted (f outcome)) : Upholds Inv Permitted (x.attempt >>= f) := by
  intro s inv
  rw [run_bind, run_attempt]
  exact rest _ (tried s inv).2 _ (tried s inv).1

theorem ofOutcome {outcome : Except Failure α}
    (permitted : ∀ e, outcome = .error (.recoverable e) → Permitted e) :
    Upholds Inv Permitted (Step.ofOutcome outcome) := by
  cases outcome with
  | ok a => exact pure a
  | error failure => exact throw fun e eq => permitted e (congrArg _ eq)

end Upholds

end AdaptiveLL.Step
