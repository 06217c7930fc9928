import AdaptiveLL.Proofs.Recognition.Likeness
import AdaptiveLL.Proofs.Step.Contract
/-!
Two runs side by side. The states of the two runs may number their stacks differently; the runs end
alike if both answer, or both fail, with answers or failures that are the same up to these numbers.
What was the same before a step is the same after it, since stacks are never forgotten.
-/
namespace AdaptiveLL.Step

/-- States that refer to stacks by number. -/
class Numbered (σ : Type) where
  /-- What every step of a run keeps, among others the stacks that are there. -/
  Onward : σ → σ → Prop
  /-- Which stacks of the two states are the same. -/
  Same : σ → σ → Nat → Nat → Prop
  refl (s : σ) : Onward s s
  trans {s t u : σ} : Onward s t → Onward t u → Onward s u
  mono {s s' t t' : σ} {a a' : Nat} : Onward s t → Onward s' t' → Same s s' a a' → Same t t' a a'

open Numbered (Onward Same)

variable {σ α β γ : Type} [Numbered σ]

/-- Two runs have come from `s` and `s'` to `t` and `t'`, which `L` relates. -/
structure Later (L : σ → σ → Prop) (s s' t t' : σ) : Prop where
  left : Onward s t
  right : Onward s' t'
  like : L t t'

namespace Later

variable {L L' : σ → σ → Prop} {s s' t t' u u' : σ} {a a' : Nat}

theorem refl (like : L s s') : Later L s s' s s' :=
  ⟨Numbered.refl s, Numbered.refl s', like⟩

theorem trans (h : Later L s s' t t') (h' : Later L' t t' u u') : Later L' s s' u u' :=
  ⟨Numbered.trans h.left h'.left, Numbered.trans h.right h'.right, h'.like⟩

theorem imp (h : Later L s s' t t') (weaker : L t t' → L' t t') : Later L' s s' t t' :=
  ⟨h.left, h.right, weaker h.like⟩

theorem same (h : Later L s s' t t') (a a' : Nat) (same : Same s s' a a') : Same t t' a a' :=
  Numbered.mono h.left h.right same

end Later

/-- Two runs end alike: where they answer, `L` relates the states and `P` the answers; where they
fail, `F` relates the states. -/
def Alongside (L F : σ → σ → Prop) (s s' : σ) (x x' : Step σ α)
    (P : (Nat → Nat → Prop) → α → α → Prop) : Prop :=
  match x.run s, x'.run s' with
  | (.ok a, t), (.ok a', t') => Later L s s' t t' ∧ P (Same t t') a a'
  | (.error e, t), (.error e', t') => Later F s s' t t' ∧ e.Like (Same t t') e'
  | _, _ => False

namespace Alongside

variable {L L' F F' : σ → σ → Prop} {s s' t t' : σ} {x x' y y' : Step σ α}
  {P P' : (Nat → Nat → Prop) → α → α → Prop} {Q : (Nat → Nat → Prop) → β → β → Prop}

theorem of_ok {a a' : α} (run : x.run s = (.ok a, t)) (run' : x'.run s' = (.ok a', t'))
    (later : Later L s s' t t') (answer : P (Same t t') a a') : Alongside L F s s' x x' P := by
  rw [Alongside, run, run']
  exact ⟨later, answer⟩

theorem of_error {e e' : Failure} (run : x.run s = (.error e, t)) (run' : x'.run s' = (.error e', t'))
    (later : Later F s s' t t') (failure : e.Like (Same t t') e') :
    Alongside L F s s' x x' P := by
  rw [Alongside, run, run']
  exact ⟨later, failure⟩

theorem cases (h : Alongside L F s s' x x' P) :
    (∃ a a' t t', x.run s = (.ok a, t) ∧ x'.run s' = (.ok a', t') ∧ Later L s s' t t' ∧
      P (Same t t') a a') ∨
    ∃ e e' t t', x.run s = (.error e, t) ∧ x'.run s' = (.error e', t') ∧ Later F s s' t t' ∧
      e.Like (Same t t') e' := by
  unfold Alongside at h
  split at h <;> rename_i run run'
  · exact .inl ⟨_, _, _, _, run, run', h⟩
  · exact .inr ⟨_, _, _, _, run, run', h⟩
  · exact h.elim

theorem imp (h : Alongside L F s s' x x' P)
    (weaker : ∀ t t' a a', Later L s s' t t' → P (Same t t') a a' → L' t t' ∧ P' (Same t t') a a')
    (fails : ∀ t t', Later F s s' t t' → F' t t') : Alongside L' F' s s' x x' P' := by
  rcases h.cases with
    ⟨a, a', t, t', run, run', later, answer⟩ | ⟨e, e', t, t', run, run', later, failure⟩
  · obtain ⟨like, answer⟩ := weaker t t' a a' later answer
    exact of_ok run run' (later.imp fun _ => like) answer
  · exact of_error run run' (later.imp fun _ => fails t t' later) failure

theorem pure {a a' : α} (like : L s s') (answer : P (Same s s') a a') :
    Alongside L F s s' (Pure.pure a) (Pure.pure a') P :=
  of_ok rfl rfl (.refl like) answer

theorem throw {e e' : Failure} (like : F s s') (failure : e.Like (Same s s') e') :
    Alongside L F s s' (MonadExcept.throw e) (MonadExcept.throw e') P :=
  of_error rfl rfl (.refl like) failure

theorem bind {f f' : α → Step σ β} (first : Alongside L F s s' x x' P)
    (rest : ∀ a a' t t', Later L s s' t t' → P (Same t t') a a' →
      Alongside L' F t t' (f a) (f' a') Q) : Alongside L' F s s' (x >>= f) (x' >>= f') Q := by
  rcases first.cases with
    ⟨a, a', t, t', run, run', later, answer⟩ | ⟨e, e', t, t', run, run', later, failure⟩
  · rcases (rest a a' t t' later answer).cases with
      ⟨b, b', u, u', done, done', later', answer'⟩ | ⟨e, e', u, u', done, done', later', failure'⟩
    · exact of_ok ((run_bind_ok run).trans done) ((run_bind_ok run').trans done')
        (later.trans later') answer'
    · exact of_error ((run_bind_ok run).trans done) ((run_bind_ok run').trans done')
        (later.trans later') failure'
  · exact of_error (run_bind_error run) (run_bind_error run') later failure

/-- A look at the states. -/
theorem get {f f' : σ → Step σ α} (rest : Alongside L F s s' (f s) (f' s') P) :
    Alongside L F s s' (MonadState.get >>= f) (MonadState.get >>= f') P := by
  rw [Alongside, run_bind_ok (run_get s), run_bind_ok (run_get s')]
  exact rest

theorem modify {f f' : σ → σ} {R : (Nat → Nat → Prop) → PUnit → PUnit → Prop}
    (later : Later L s s' (f s) (f' s')) (answer : R (Same (f s) (f' s')) ⟨⟩ ⟨⟩) :
    Alongside L F s s' (modify f) (modify f') R :=
  of_ok (run_modify f s) (run_modify f' s') later answer

theorem set {R : (Nat → Nat → Prop) → PUnit → PUnit → Prop} (later : Later L s s' t t')
    (answer : R (Same t t') ⟨⟩ ⟨⟩) :
    Alongside L F s s' (MonadStateOf.set t) (MonadStateOf.set t') R :=
  of_ok (run_set s t) (run_set s' t') later answer

theorem ite {c c' : Prop} [Decidable c] [Decidable c'] (same : c ↔ c')
    (yes : c → Alongside L F s s' x x' P) (no : ¬ c → Alongside L F s s' y y' P) :
    Alongside L F s s' (if c then x else y) (if c' then x' else y') P := by
  by_cases h : c
  · rw [if_pos h, if_pos (same.1 h)]
    exact yes h
  · rw [if_neg h, if_neg fun h' => h (same.2 h')]
    exact no h

/-- The same question about the network. -/
theorem question {answer answer' : Except Fault α} (like : L s s') (fails : F s s')
    (same : answer' = answer) :
    Alongside L F s s' (Step.ofQuestion answer) (Step.ofQuestion answer') fun _ => Eq := by
  subst same
  cases answer' with
  | ok a => exact pure like rfl
  | error fault => exact throw fails (.fault fault)

theorem required {answer answer' : Option α} (error : NetworkError) (like : L s s') (fails : F s s')
    (same : answer' = answer) :
    Alongside L F s s' (Step.required error answer) (Step.required error answer') fun _ => Eq := by
  subst same
  cases answer' with
  | some a => exact pure like rfl
  | none => exact throw fails (.fatal (.network error))

/-- Two folds over lists whose members are related one by one. -/
theorem foldlM {E : (Nat → Nat → Prop) → γ → γ → Prop} {f f' : α → γ → Step σ α} {cs cs' : List γ}
    {a a' : α} (like : L s s') (mono : ∀ {t t' u u' : σ}, Later L t t' u u' → ∀ c c',
      E (Same t t') c c' → E (Same u u') c c')
    (each : List.Forall₂ (E (Same s s')) cs cs') (start : P (Same s s') a a')
    (step : ∀ t t', Later L s s' t t' → ∀ a a', P (Same t t') a a' →
      ∀ c ∈ cs, ∀ c', E (Same t t') c c' → Alongside L F t t' (f a c) (f' a' c') P) :
    Alongside L F s s' (cs.foldlM f a) (cs'.foldlM f' a') P := by
  induction cs generalizing cs' s s' a a' with
  | nil =>
      obtain rfl := List.forall₂_nil_left_iff.1 each
      exact pure like start
  | cons c cs ih =>
      obtain ⟨c', cs', head, rest, rfl⟩ := List.forall₂_cons_left_iff.1 each
      rw [List.foldlM_cons, List.foldlM_cons]
      refine bind (step s s' (.refl like) a a' start c (.head _) c' head)
        fun b b' t t' later answer => ?_
      refine ih later.like (rest.imp fun _ _ => mono later _ _) answer ?_
      exact fun u u' later' a a' answer c mem =>
        step u u' (later.trans later') a a' answer c (.tail _ mem)

/-- Two folds over one list. -/
theorem foldlM_same {f f' : α → γ → Step σ α} {cs : List γ} {a a' : α} (like : L s s')
    (start : P (Same s s') a a')
    (step : ∀ t t', Later L s s' t t' → ∀ a a', P (Same t t') a a' → ∀ c ∈ cs,
      Alongside L F t t' (f a c) (f' a' c) P) :
    Alongside L F s s' (cs.foldlM f a) (cs.foldlM f' a') P := by
  refine foldlM (E := fun _ => Eq) like (fun _ _ _ => id) (List.forall₂_same.2 fun _ _ => rfl) start ?_
  rintro t t' later a a' answer c mem _ rfl
  exact step t t' later a a' answer c mem

theorem forM {cs : List γ} {f f' : γ → Step σ PUnit} (like : L s s')
    (step : ∀ t t', Later L s s' t t' → ∀ c ∈ cs, Alongside L F t t' (f c) (f' c) fun _ => Eq) :
    Alongside L F s s' (cs.forM f) (cs.forM f') fun _ => Eq := by
  induction cs generalizing s s' with
  | nil => exact pure like rfl
  | cons c cs ih =>
      change Alongside L F s s' (f c >>= fun _ => cs.forM f) (f' c >>= fun _ => cs.forM f') _
      refine bind (step s s' (.refl like) c (.head _)) fun _ _ t t' later _ => ?_
      exact ih later.like fun u u' later' c mem => step u u' (later.trans later') c (.tail _ mem)

theorem mapM {E : (Nat → Nat → Prop) → γ → γ → Prop} {f f' : γ → Step σ α} {cs cs' : List γ}
    (like : L s s') (mono : ∀ {t t' u u' : σ}, Later L t t' u u' → ∀ c c',
      E (Same t t') c c' → E (Same u u') c c')
    (mono' : ∀ {t t' u u' : σ}, Later L t t' u u' → ∀ a a', P (Same t t') a a' → P (Same u u') a a')
    (each : List.Forall₂ (E (Same s s')) cs cs')
    (step : ∀ t t', Later L s s' t t' → ∀ c c', E (Same t t') c c' →
      Alongside L F t t' (f c) (f' c') P) :
    Alongside L F s s' (cs.mapM f) (cs'.mapM f') fun R => List.Forall₂ (P R) := by
  induction cs generalizing cs' s s' with
  | nil =>
      obtain rfl := List.forall₂_nil_left_iff.1 each
      exact pure like .nil
  | cons c cs ih =>
      obtain ⟨c', cs', head, rest, rfl⟩ := List.forall₂_cons_left_iff.1 each
      rw [List.mapM_cons, List.mapM_cons]
      refine bind (step s s' (.refl like) c c' head) fun a a' t t' later answer => ?_
      refine bind (ih later.like (rest.imp fun _ _ => mono later _ _) fun u u' later' =>
        step u u' (later.trans later')) fun as as' u u' later' answers => ?_
      exact pure later'.like (.cons (mono' later' _ _ answer) answers)

/-- What is done with either outcome of a step. -/
theorem attempt {f f' : Except Failure α → Step σ β} (first : Alongside L L s s' x x' P)
    (rest : ∀ o o' t t', Later L s s' t t' → Outcome.Like (Same t t') (P (Same t t')) o o' →
      Alongside L' F t t' (f o) (f' o') Q) :
    Alongside L' F s s' (x.attempt >>= f) (x'.attempt >>= f') Q := by
  have attempted : Alongside L F s s' x.attempt x'.attempt fun R => Outcome.Like R (P R) := by
    rcases first.cases with ⟨a, a', t, t', run, run', later, answer⟩ |
      ⟨e, e', t, t', run, run', later, failure⟩
    · refine of_ok (a := .ok a) (t := t) ?_ ?_ later (.ok answer)
      · rw [run_attempt, run]
      · rw [run_attempt, run']
    · refine of_ok (a := .error e) (t := t) ?_ ?_ later (.error failure)
      · rw [run_attempt, run]
      · rw [run_attempt, run']
  exact bind attempted rest

end Alongside

end AdaptiveLL.Step
