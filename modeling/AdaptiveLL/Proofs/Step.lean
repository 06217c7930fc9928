import AdaptiveLL.Recognition.Error
import Mathlib.Data.List.Forall2
/-!
Reasoning about steps. A step is a function from a state to an outcome and a state; it agrees
with a computation in `Option` if both yield related results, and if the step faults where the
computation has no result.
-/
namespace AdaptiveLL.Step

variable {σ α β γ δ ε : Type} {x : Step σ α} {s s' : σ} {a : α}

@[simp] theorem run_pure (a : α) (s : σ) : (pure a : Step σ α).run s = (.ok a, s) := rfl

@[simp] theorem run_throw (e : Failure) (s : σ) : (throw e : Step σ α).run s = (.error e, s) := rfl

@[simp] theorem run_get (s : σ) : (get : Step σ σ).run s = (.ok s, s) := rfl

@[simp] theorem run_set (s s' : σ) : (set s' : Step σ PUnit).run s = (.ok ⟨⟩, s') := rfl

@[simp] theorem run_modify (f : σ → σ) (s : σ) :
    (modify f : Step σ PUnit).run s = (.ok ⟨⟩, f s) := rfl

theorem run_bind (x : Step σ α) (f : α → Step σ β) (s : σ) :
    (x >>= f).run s = match x.run s with
      | (.ok a, s') => (f a).run s'
      | (.error e, s') => (.error e, s') := by
  simp only [bind, ExceptT.bind, ExceptT.mk, ExceptT.run, StateT.bind, ExceptT.bindCont]
  rcases x s with ⟨_ | _, _⟩ <;> rfl

theorem run_bind_ok {f : α → Step σ β} (h : x.run s = (.ok a, s')) :
    (x >>= f).run s = (f a).run s' := by
  rw [run_bind, h]

theorem run_bind_error {e : Failure} {f : α → Step σ β} (h : x.run s = (.error e, s')) :
    (x >>= f).run s = (.error e, s') := by
  rw [run_bind, h]

@[simp] theorem run_attempt (x : Step σ α) (s : σ) :
    (attempt x).run s = (.ok (x.run s).1, (x.run s).2) := rfl

@[simp] theorem run_ofOutcome (outcome : Except Failure α) (s : σ) :
    (ofOutcome outcome : Step σ α).run s = (outcome, s) := by
  cases outcome <;> rfl

/-- The step yields what `After` says of the result. Where there is none, it faults in a state
of which `Failed` holds. -/
def Agrees (x : Step σ α) (s : σ) (result : Option β) (After : β → α → σ → Prop)
    (Failed : σ → Prop) : Prop :=
  match result with
  | some b => ∃ a s', x.run s = (.ok a, s') ∧ After b a s'
  | none => ∃ fault s', x.run s = (.error (.fault fault), s') ∧ Failed s'

namespace Agrees

variable {result : Option β} {After : β → α → σ → Prop} {Failed : σ → Prop}

theorem pure {b : β} (h : After b a s) :
    Agrees (Pure.pure a : Step σ α) s (some b) After Failed :=
  ⟨a, s, rfl, h⟩

theorem throw {fault : Fault} (h : Failed s) :
    Agrees (throw (.fault fault) : Step σ α) s none After Failed :=
  ⟨fault, s, rfl, h⟩

theorem imp {After' : β → α → σ → Prop} {Failed' : σ → Prop}
    (h : Agrees x s result After Failed) (after : ∀ b a s', After b a s' → After' b a s')
    (failed : ∀ s', Failed s' → Failed' s') : Agrees x s result After' Failed' := by
  cases result with
  | some b =>
      obtain ⟨a, s', run, holds⟩ := h
      exact ⟨a, s', run, after b a s' holds⟩
  | none =>
      obtain ⟨fault, s', run, holds⟩ := h
      exact ⟨fault, s', run, failed s' holds⟩

/-- The result may be put in another form. -/
theorem map {After' : δ → α → σ → Prop} {Failed' : σ → Prop} (form : β → δ)
    (h : Agrees x s result After Failed)
    (after : ∀ b a s', After b a s' → After' (form b) a s')
    (failed : ∀ s', Failed s' → Failed' s') :
    Agrees x s (result.bind fun b => some (form b)) After' Failed' := by
  cases result with
  | some b =>
      obtain ⟨a, s', run, holds⟩ := h
      exact ⟨a, s', run, after b a s' holds⟩
  | none =>
      obtain ⟨fault, s', run, holds⟩ := h
      exact ⟨fault, s', run, failed s' holds⟩

/-- Only what the step does from the state counts. -/
theorem of_run_eq {y : Step σ α} (same : x.run s = y.run s')
    (h : Agrees y s' result After Failed) : Agrees x s result After Failed := by
  unfold Agrees at h ⊢
  rwa [same]

theorem bind {f : α → Step σ γ} {g : β → Option δ} {After' : δ → γ → σ → Prop}
    (first : Agrees x s result After Failed)
    (rest : ∀ b a s', After b a s' → Agrees (f a) s' (g b) After' Failed) :
    Agrees (x >>= f) s (result.bind g) After' Failed := by
  cases result with
  | some b =>
      obtain ⟨a, s', run, holds⟩ := first
      exact of_run_eq (run_bind_ok run) (rest b a s' holds)
  | none =>
      obtain ⟨fault, s', run, holds⟩ := first
      exact ⟨fault, s', run_bind_error run, holds⟩

/-- A first part that certainly succeeds has no counterpart in the computation. -/
theorem bind_ok {f : α → Step σ γ} {result : Option δ} {After' : δ → γ → σ → Prop}
    (first : x.run s = (.ok a, s')) (rest : Agrees (f a) s' result After' Failed) :
    Agrees (x >>= f) s result After' Failed :=
  of_run_eq (run_bind_ok first) rest

variable (After) in
/-- Two folds agree if each step of theirs does. -/
theorem foldlM {R : γ → δ → Prop} {f : α → γ → Step σ α} {g : β → δ → Option β}
    {cs : List γ} {ds : List δ} (related : List.Forall₂ R cs ds)
    (step : ∀ c d, R c d → ∀ b a s, After b a s → Agrees (f a c) s (g b d) After Failed)
    {b : β} (start : After b a s) :
    Agrees (cs.foldlM f a) s (ds.foldlM g b) After Failed := by
  induction related generalizing a b s with
  | nil => exact pure start
  | cons head _ ih =>
      rw [List.foldlM_cons, List.foldlM_cons]
      exact bind (step _ _ head b a s start) fun b a s' holds => ih holds

/-- Two folds over one list agree if their steps do at its members. -/
theorem foldlM_mem {f : α → γ → Step σ α} {g : β → γ → Option β} (cs : List γ)
    (step : ∀ c ∈ cs, ∀ b a s, After b a s → Agrees (f a c) s (g b c) After Failed) {b : β}
    (start : After b a s) : Agrees (cs.foldlM f a) s (cs.foldlM g b) After Failed := by
  refine foldlM After (R := fun c d => c = d ∧ c ∈ cs) ?_ ?_ start
  · exact List.forall₂_same.2 fun c mem => ⟨rfl, mem⟩
  · rintro c _ ⟨rfl, mem⟩
    exact step c mem

end Agrees

end AdaptiveLL.Step
