import AdaptiveLL.Prediction.Guard
import Mathlib.Data.Bool.Basic
import Mathlib.Data.Int.Order.Basic
import Mathlib.Data.List.Nodup
import Mathlib.Order.Nat
/-!
The order of guards. It is total and tells different guards apart, however deeply they are nested;
so an ascending list of guards is determined by its members (`Guard.Ascending.ext`), and guards that
are inserted one after the other make one list in whatever order they come.
-/
namespace AdaptiveLL.Guard

variable {a b c g : Guard} {gs gs' gs'' : List Guard}

/-- Induction on guards: what holds of a connective follows from what holds of its operands. -/
@[elab_as_elim]
theorem inductionOn {P : Guard → Prop} (g : Guard) (always : P always)
    (predicate : ∀ rule index contextual, P (predicate rule index contextual))
    (precedence : ∀ level, P (precedence level)) (all : ∀ gs, (∀ g ∈ gs, P g) → P (all gs))
    (any : ∀ gs, (∀ g ∈ gs, P g) → P (any gs)) : P g :=
  Guard.rec (motive_1 := P) (motive_2 := fun gs => ∀ g ∈ gs, P g) always predicate precedence
    all any (fun _ mem => absurd mem List.not_mem_nil)
    (fun _ _ head tail => List.forall_mem_cons.2 ⟨head, tail⟩) g

/-! ### Comparison -/

theorem cmpList_cons (a b : Guard) (gs gs' : List Guard) :
    cmpList (a :: gs) (b :: gs') = (cmp a b).then (cmpList gs gs') := rfl

theorem cmp_predicate (rule index rule' index' : Nat) (contextual contextual' : Bool) :
    cmp (.predicate rule index contextual) (.predicate rule' index' contextual') =
      (compare rule rule').then ((compare index index').then (compare contextual contextual')) := rfl

theorem cmpList_eq (same : ∀ a ∈ gs, ∀ {b}, cmp a b = .eq → a = b) (h : cmpList gs gs' = .eq) :
    gs = gs' := by
  induction gs generalizing gs' with
  | nil => cases gs' with
    | nil => rfl
    | cons => cases h
  | cons a gs ih =>
      cases gs' with
      | nil => cases h
      | cons b gs' =>
          obtain ⟨head, tail⟩ := List.forall_mem_cons.1 same
          rw [cmpList_cons, Ordering.then_eq_eq] at h
          rw [head h.1, ih tail h.2]

/-- Guards that compare as equal are equal. -/
theorem eq_of_cmp (h : cmp a b = .eq) : a = b := by
  induction a using inductionOn generalizing b with
  | always =>
      cases b with
      | always => rfl
      | predicate | precedence | all | any => cases h
  | predicate =>
      cases b with
      | predicate => simpa [cmp_predicate, Ordering.then_eq_eq, compare_eq_iff_eq] using h
      | always | precedence | all | any => cases h
  | precedence =>
      cases b with
      | precedence => rw [show _ = _ from Std.compare_eq_iff_eq.1 h]
      | always | predicate | all | any => cases h
  | all gs ih =>
      cases b with
      | all gs' => rw [cmpList_eq ih h]
      | always | predicate | precedence | any => cases h
  | any gs ih =>
      cases b with
      | any gs' => rw [cmpList_eq ih h]
      | always | predicate | precedence | all => cases h

theorem cmpList_swap (swap : ∀ a ∈ gs, ∀ b, cmp b a = (cmp a b).swap) :
    cmpList gs' gs = (cmpList gs gs').swap := by
  induction gs generalizing gs' with
  | nil => cases gs' <;> rfl
  | cons a gs ih =>
      cases gs' with
      | nil => rfl
      | cons b gs' =>
          obtain ⟨head, tail⟩ := List.forall_mem_cons.1 swap
          rw [cmpList_cons, cmpList_cons, head, ih tail, Ordering.swap_then]

theorem cmp_swap (a b : Guard) : cmp b a = (cmp a b).swap := by
  induction a using inductionOn generalizing b with
  | always => cases b <;> rfl
  | predicate r i c =>
      cases b with
      | predicate r' i' c' =>
          simp only [cmp_predicate, Ordering.swap_then]
          rw [Std.OrientedOrd.eq_swap (a := r'), Std.OrientedOrd.eq_swap (a := i'),
            Std.OrientedOrd.eq_swap (a := c')]
      | always | precedence | all | any => rfl
  | precedence l =>
      cases b with
      | precedence l' => exact Std.OrientedOrd.eq_swap
      | always | predicate | all | any => rfl
  | all gs ih =>
      cases b with
      | all gs' => exact cmpList_swap ih
      | always | predicate | precedence | any => rfl
  | any gs ih =>
      cases b with
      | any gs' => exact cmpList_swap ih
      | always | predicate | precedence | all => rfl

theorem cmpList_lt_trans (trans : ∀ a ∈ gs, ∀ {b c}, cmp a b = .lt → cmp b c = .lt → cmp a c = .lt)
    (first : cmpList gs gs' = .lt) (second : cmpList gs' gs'' = .lt) : cmpList gs gs'' = .lt := by
  induction gs generalizing gs' gs'' with
  | nil =>
      cases gs'' with
      | nil => cases gs' <;> cases second
      | cons => rfl
  | cons a gs ih =>
      cases gs' with
      | nil => cases first
      | cons b gs' =>
          cases gs'' with
          | nil => cases second
          | cons c gs'' =>
              obtain ⟨head, tail⟩ := List.forall_mem_cons.1 trans
              rw [cmpList_cons, Ordering.then_eq_lt] at *
              rcases first with first | ⟨same, first⟩
              · rcases second with second | ⟨same', -⟩
                · exact .inl (head first second)
                · exact .inl (eq_of_cmp same' ▸ first)
              · rw [eq_of_cmp same]
                exact second.imp id fun ⟨same', second⟩ => ⟨same', ih tail first second⟩

theorem cmp_predicate_lt {rule index rule' index' : Nat} {contextual contextual' : Bool} :
    cmp (.predicate rule index contextual) (.predicate rule' index' contextual') = .lt ↔
      rule < rule' ∨ rule = rule' ∧
        (index < index' ∨ index = index' ∧ contextual.toNat < contextual'.toNat) := by
  simp only [cmp_predicate, Ordering.then_eq_lt, compare_lt_iff_lt, compare_eq_iff_eq, Bool.lt_iff]
  cases contextual <;> cases contextual' <;> simp

theorem cmp_precedence_lt {level level' : Int} :
    cmp (.precedence level) (.precedence level') = .lt ↔ level < level' :=
  compare_lt_iff_lt

theorem cmp_lt_trans (first : cmp a b = .lt) (second : cmp b c = .lt) : cmp a c = .lt := by
  induction a using inductionOn generalizing b c with
  | always =>
      cases b with
      | always => cases first
      | predicate | precedence | all | any => cases c <;> first | rfl | exact nomatch second
  | predicate =>
      cases b with
      | predicate =>
          cases c with
          | predicate =>
              rw [cmp_predicate_lt] at *
              omega
          | precedence | all | any => rfl
          | always => cases second
      | precedence | all | any => cases c <;> first | rfl | cases second
      | always => cases first
  | precedence =>
      cases b with
      | precedence =>
          cases c with
          | precedence =>
              rw [cmp_precedence_lt] at *
              omega
          | all | any => rfl
          | always | predicate => cases second
      | all | any => cases c <;> first | rfl | cases second
      | always | predicate => cases first
  | all gs ih =>
      cases b with
      | all gs' =>
          cases c with
          | all gs'' => exact cmpList_lt_trans ih first second
          | any => rfl
          | always | predicate | precedence => cases second
      | any => cases c <;> first | rfl | cases second
      | always | predicate | precedence => cases first
  | any gs ih =>
      cases b with
      | any gs' =>
          cases c with
          | any gs'' => exact cmpList_lt_trans ih first second
          | always | predicate | precedence | all => cases second
      | always | predicate | precedence | all => cases first

/-! ### Ascending guards -/

/-- In the order of guards, and without duplicates. -/
abbrev Ascending (gs : List Guard) : Prop :=
  gs.Pairwise fun a b => cmp a b = .lt

theorem cmp_self (g : Guard) : cmp g g = .eq := by
  have swapped := cmp_swap g g
  cases h : cmp g g <;> rw [h] at swapped <;> first | rfl | cases swapped

theorem Ascending.nodup (h : Ascending gs) : gs.Nodup := by
  refine h.imp fun {a b} less same => ?_
  rw [same, cmp_self] at less
  cases less

/-- The members determine an ascending list. -/
theorem Ascending.ext (h : Ascending gs) (h' : Ascending gs') (same : ∀ g, g ∈ gs ↔ g ∈ gs') :
    gs = gs' := by
  have perm := (List.perm_ext_iff_of_nodup h.nodup h'.nodup).2 same
  refine perm.eq_of_pairwise (fun a b _ _ less greater => ?_) h h'
  rw [cmp_swap, less] at greater
  cases greater

@[simp] theorem mem_insert : a ∈ insert g gs ↔ a = g ∨ a ∈ gs := by
  induction gs with
  | nil => simp [insert]
  | cons b gs ih =>
      rw [insert]
      split
      case h_1 => exact List.mem_cons
      case h_2 same =>
          rw [eq_of_cmp same, List.mem_cons, ← or_assoc, or_self]
      case h_3 => rw [List.mem_cons, ih, List.mem_cons, or_left_comm]

theorem Ascending.insert (h : Ascending gs) : Ascending (insert g gs) := by
  induction gs with
  | nil => exact List.pairwise_singleton _ _
  | cons b gs ih =>
      obtain ⟨before, rest⟩ := List.pairwise_cons.1 h
      rw [Guard.insert]
      split
      case h_1 less =>
          refine List.pairwise_cons.2 ⟨List.forall_mem_cons.2 ⟨less, fun c mem => ?_⟩, h⟩
          exact cmp_lt_trans less (before c mem)
      case h_2 => exact h
      case h_3 greater =>
          refine List.pairwise_cons.2 ⟨fun c mem => ?_, ih rest⟩
          rcases mem_insert.1 mem with rfl | mem
          · rw [cmp_swap, greater]
            rfl
          · exact before c mem

end AdaptiveLL.Guard
