import AdaptiveLL.Proofs.Prediction.Guard.Operands
/-!
What guards mean. A guard has the truth value of the expression that it is, of the atoms that occur in
it. Putting two guards together makes their conjunction or disjunction: where levels are tested
against a threshold, the one level that is kept answers for all of them, and where there are no levels
nothing is lost at all.
-/
namespace AdaptiveLL.Guard

variable {a b g : Guard} {gs : List Guard} {k : Connective}

/-! ### Atoms -/

mutual

/-- The predicates and levels that occur in a guard, at any depth. -/
def atoms : Guard → List Guard
  | always => []
  | predicate rule index contextual => [predicate rule index contextual]
  | precedence level => [precedence level]
  | all gs => atomsOf gs
  | any gs => atomsOf gs

def atomsOf : List Guard → List Guard
  | [] => []
  | g :: rest => g.atoms ++ atomsOf rest

end

theorem atomsOf_eq (gs : List Guard) : atomsOf gs = gs.flatMap atoms := by
  induction gs with
  | nil => rfl
  | cons g gs ih => rw [atomsOf, ih, List.flatMap_cons]

/-- No level of precedence occurs in the guard. -/
def Free (g : Guard) : Prop :=
  ∀ a ∈ g.atoms, a.isPrecedence = false

namespace Connective

@[simp] theorem atoms_make (k : Connective) (gs : List Guard) : (k.make gs).atoms = gs.flatMap atoms := by
  cases k <;> exact atomsOf_eq gs

@[simp] theorem atoms_collapse (k : Connective) (gs : List Guard) :
    (collapse k.make gs).atoms = gs.flatMap atoms := by
  match gs with
  | [] | _ :: _ :: _ => exact k.atoms_make _
  | [g] => simp [collapse]

/-- A guard is an operand itself, or is made of operands. -/
theorem parts_eq (k : Connective) (g : Guard) : k.parts g = [g] ∨ g = k.make (k.parts g) := by
  cases k <;> cases g <;> first | exact .inl rfl | exact .inr rfl

theorem atoms_parts (k : Connective) (g : Guard) : (k.parts g).flatMap atoms = g.atoms := by
  rcases k.parts_eq g with alone | made
  · simp [alone]
  · conv_rhs => rw [made, atoms_make]

theorem mem_atoms_join (h : g ∈ (k.join a b).atoms) : g ∈ a.atoms ∨ g ∈ b.atoms := by
  rw [join, atoms_collapse, List.mem_flatMap] at h
  obtain ⟨p, mem, inside⟩ := h
  rw [← k.atoms_parts a, ← k.atoms_parts b, List.mem_flatMap, List.mem_flatMap]
  exact (List.mem_append.1 (mem_of_mem_operands mem)).imp (⟨p, ·, inside⟩) (⟨p, ·, inside⟩)

end Connective

theorem mem_atoms_and (h : g ∈ (a.and b).atoms) : g ∈ a.atoms ∨ g ∈ b.atoms := by
  revert h
  exact and_cases (P := fun c => g ∈ c.atoms → _) (fun _ => .inr) (fun _ => .inl)
    fun _ _ => Connective.mem_atoms_join

theorem mem_atoms_or (h : g ∈ (a.or b).atoms) : g ∈ a.atoms ∨ g ∈ b.atoms := by
  revert h
  exact or_cases (P := fun c => g ∈ c.atoms → _) (fun _ => nofun) fun _ _ => Connective.mem_atoms_join

theorem mem_atoms (h : a ∈ g.atoms) :
    (∃ rule index contextual, a = predicate rule index contextual) ∨ ∃ level, a = precedence level := by
  induction g using Connective.inductionOn with
  | always => cases h
  | predicate rule index contextual => exact .inl ⟨rule, index, contextual, List.mem_singleton.1 h⟩
  | precedence level => exact .inr ⟨level, List.mem_singleton.1 h⟩
  | make k gs ih =>
      rw [k.atoms_make, List.mem_flatMap] at h
      obtain ⟨g, mem, inside⟩ := h
      exact ih g mem inside

theorem Free.and (ha : a.Free) (hb : b.Free) : (a.and b).Free :=
  fun p mem => (mem_atoms_and mem).elim (ha p) (hb p)

theorem Free.or (ha : a.Free) (hb : b.Free) : (a.or b).Free :=
  fun p mem => (mem_atoms_or mem).elim (ha p) (hb p)

/-! ### Truth values -/

/-- Answers that depend on the questions alone. -/
abbrev Answers := Evaluator Id

variable {answers answers' : Answers} {outer outer' : Option Nat}

/-- Whether the guard is true under the answers. -/
def holds (answers : Answers) (outer : Option Nat) (g : Guard) : Bool :=
  g.eval answers outer

@[simp] theorem holds_always : always.holds answers outer = true := rfl

@[simp] theorem holds_precedence (level : Int) :
    (precedence level).holds answers outer = answers.precedence outer level := rfl

theorem evalAll_eq (answers : Answers) (outer : Option Nat) (gs : List Guard) :
    evalAll answers outer gs = gs.all (·.holds answers outer) := by
  induction gs with
  | nil => rfl
  | cons g gs ih =>
      rw [evalAll, ih, List.all_cons, holds]
      cases g.eval answers outer <;> rfl

theorem evalAny_eq (answers : Answers) (outer : Option Nat) (gs : List Guard) :
    evalAny answers outer gs = gs.any (·.holds answers outer) := by
  induction gs with
  | nil => rfl
  | cons g gs ih =>
      rw [evalAny, ih, List.any_cons, holds]
      cases g.eval answers outer <;> rfl

@[simp] theorem holds_all (gs : List Guard) :
    (all gs).holds answers outer = gs.all (·.holds answers outer) :=
  evalAll_eq answers outer gs

@[simp] theorem holds_any (gs : List Guard) :
    (any gs).holds answers outer = gs.any (·.holds answers outer) :=
  evalAny_eq answers outer gs

namespace Connective

variable {p q : Guard → Bool}

/-- The truth value of the connective, of those of its operands. -/
def test : Connective → List Guard → (Guard → Bool) → Bool
  | conjunction => List.all
  | disjunction => List.any

theorem test_singleton (k : Connective) (g : Guard) (p : Guard → Bool) : k.test [g] p = p g := by
  cases k <;> simp [test]

theorem test_congr (k : Connective) (same : ∀ g ∈ gs, p g = q g) : k.test gs p = k.test gs q := by
  induction gs with
  | nil => cases k <;> rfl
  | cons g gs ih =>
      obtain ⟨head, tail⟩ := List.forall_mem_cons.1 same
      have rest := ih tail
      cases k <;> simp only [test, List.all_cons, List.any_cons] at rest ⊢ <;> rw [head, rest]

theorem holds_make (k : Connective) (gs : List Guard) :
    (k.make gs).holds answers outer = k.test gs (·.holds answers outer) := by
  cases k with
  | conjunction => exact holds_all gs
  | disjunction => exact holds_any gs

theorem holds_collapse (k : Connective) (gs : List Guard) :
    (collapse k.make gs).holds answers outer = k.test gs (·.holds answers outer) := by
  match gs with
  | [] | _ :: _ :: _ => exact k.holds_make _
  | [g] => rw [test_singleton, collapse]

theorem test_parts (k : Connective) (g : Guard) :
    k.test (k.parts g) (·.holds answers outer) = g.holds answers outer := by
  rcases k.parts_eq g with alone | made
  · rw [alone, test_singleton]
  · conv_rhs => rw [made, holds_make]

end Connective

/-- Only the answers to the atoms of a guard matter. -/
theorem holds_congr (same : ∀ a ∈ g.atoms, a.holds answers outer = a.holds answers' outer') :
    g.holds answers outer = g.holds answers' outer' := by
  induction g using Connective.inductionOn with
  | always => rfl
  | predicate | precedence => exact same _ (.head _)
  | make k gs ih =>
      rw [k.holds_make, k.holds_make]
      refine k.test_congr fun g mem => ih g mem fun a inside => same a ?_
      rw [k.atoms_make]
      exact List.mem_flatMap.2 ⟨g, mem, inside⟩

/-- A guard in which nothing is asked has one truth value. -/
theorem holds_of_bare (bare : g.atoms = []) : g.holds answers outer = g.holds answers' outer' :=
  holds_congr fun a mem => by simp [bare] at mem

/-! ### Levels -/

/-- Levels are tested against a threshold. -/
def Answers.Threshold (answers : Answers) (outer : Option Nat) : Prop :=
  ∃ current, ∀ level, answers.precedence outer level = decide (current ≤ level)

/-- A level that is high enough stays so if it is raised. -/
theorem Answers.Threshold.raise (threshold : answers.Threshold outer) {l l' : Int} (le : l ≤ l')
    (h : answers.precedence outer l = true) : answers.precedence outer l' = true := by
  obtain ⟨current, test⟩ := threshold
  rw [test, decide_eq_true_iff] at h ⊢
  exact le_trans h le

namespace Connective

/-- The level that is kept answers for all levels. -/
theorem test_operands (k : Connective) (threshold : answers.Threshold outer) (gs : List Guard) :
    k.test (k.operands gs) (·.holds answers outer) = k.test gs (·.holds answers outer) := by
  have kept {g : Guard} (mem : g ∈ gs) (other : ∀ l, g ≠ precedence l) : g ∈ k.operands gs :=
    mem_operands.2 ⟨mem, fun l same => absurd same (other l)⟩
  rw [Bool.eq_iff_iff]
  cases k with
  | conjunction =>
      simp only [test, List.all_eq_true]
      refine ⟨fun h g mem => ?_, fun h g mem => h g (mem_of_mem_operands mem)⟩
      by_cases level : ∃ l, g = precedence l
      · obtain ⟨l', rfl⟩ := level
        obtain ⟨l, inside, le⟩ := exists_level (k := conjunction) mem
        exact threshold.raise le (h _ inside)
      · exact h g (kept mem fun l same => level ⟨l, same⟩)
  | disjunction =>
      simp only [test, List.any_eq_true]
      refine ⟨fun ⟨g, mem, h⟩ => ⟨g, mem_of_mem_operands mem, h⟩, fun ⟨g, mem, h⟩ => ?_⟩
      by_cases level : ∃ l, g = precedence l
      · obtain ⟨l', rfl⟩ := level
        obtain ⟨l, inside, le⟩ := exists_level (k := disjunction) mem
        exact ⟨_, inside, threshold.raise le h⟩
      · exact ⟨g, kept mem fun l same => level ⟨l, same⟩, h⟩

theorem holds_join (k : Connective) (threshold : answers.Threshold outer) (a b : Guard) :
    (k.join a b).holds answers outer = k.test [a, b] (·.holds answers outer) := by
  rw [join, holds_collapse, k.test_operands threshold]
  have parted (g : Guard) : k.test (k.parts g) (·.holds answers outer) = g.holds answers outer := k.test_parts g
  have left := parted a
  have right := parted b
  cases k <;> simp_all [test]

end Connective

/-- Conjunction. -/
theorem holds_and (threshold : answers.Threshold outer) (a b : Guard) :
    (a.and b).holds answers outer = (a.holds answers outer && b.holds answers outer) := by
  refine and_cases (P := fun c => c.holds answers outer = _) (fun ha => ?_) (fun hb => ?_) fun _ _ => ?_
  · rw [ha, holds_always, Bool.true_and]
  · rw [hb, holds_always, Bool.and_true]
  · simp [Connective.holds_join _ threshold, Connective.test]

/-- Disjunction. -/
theorem holds_or (threshold : answers.Threshold outer) (a b : Guard) :
    (a.or b).holds answers outer = (a.holds answers outer || b.holds answers outer) := by
  refine or_cases (P := fun c => c.holds answers outer = _) (fun certain => ?_) fun _ _ => ?_
  · rcases certain with rfl | rfl <;> simp
  · simp [Connective.holds_join _ threshold, Connective.test]

theorem holds_foldl_or (threshold : answers.Threshold outer) (g : Guard) (gs : List Guard) :
    (gs.foldl Guard.or g).holds answers outer = (g :: gs).any (·.holds answers outer) := by
  induction gs generalizing g with
  | nil => simp
  | cons b gs ih =>
      rw [List.foldl_cons, ih]
      simp only [List.any_cons, holds_or threshold, Bool.or_assoc]

/-- Where no level occurs, it does not matter how levels are tested. -/
theorem Free.holds_eq (free : g.Free) (answers : Answers) (precedence : Option Nat → Int → Bool) :
    g.holds { answers with precedence } outer = g.holds answers outer := by
  refine holds_congr fun a mem => ?_
  rcases mem_atoms mem with ⟨rule, index, contextual, rfl⟩ | ⟨level, rfl⟩
  · rfl
  · cases free _ mem

/-- The same predicates, and levels that are tested against zero. -/
def Answers.tested (answers : Answers) : Answers :=
  { answers with precedence := fun _ level => decide (0 ≤ level) }

theorem Answers.threshold_tested (answers : Answers) (outer : Option Nat) :
    answers.tested.Threshold outer :=
  ⟨0, fun _ => rfl⟩

theorem Free.holds_and (ha : a.Free) (hb : b.Free) :
    (a.and b).holds answers outer = (a.holds answers outer && b.holds answers outer) := by
  have tested := Guard.holds_and (answers.threshold_tested outer) a b
  rwa [Answers.tested, (ha.and hb).holds_eq, ha.holds_eq, hb.holds_eq] at tested

theorem Free.holds_or (ha : a.Free) (hb : b.Free) :
    (a.or b).holds answers outer = (a.holds answers outer || b.holds answers outer) := by
  have tested := Guard.holds_or (answers.threshold_tested outer) a b
  rwa [Answers.tested, (ha.or hb).holds_eq, ha.holds_eq, hb.holds_eq] at tested

/-! ### Certainty -/

/-- Nothing is asked in the guard, and it is true. -/
structure Certain (g : Guard) : Prop where
  bare : g.atoms = []
  sure : ∀ (answers : Answers) (outer : Option Nat), g.holds answers outer = true

theorem certain_always : Certain always :=
  ⟨rfl, fun _ _ => rfl⟩

namespace Connective

/-- If nothing is asked in guards that have been put together, nothing was asked in either. -/
theorem bare_of_join {k : Connective} (bare : (k.join a b).atoms = []) : a.atoms = [] ∧ b.atoms = [] := by
  rw [join, atoms_collapse, List.flatMap_eq_nil_iff] at bare
  have parts (p : Guard) (mem : p ∈ k.parts a ++ k.parts b) : p.atoms = [] := by
    by_cases level : ∃ l, p = precedence l
    · obtain ⟨l, rfl⟩ := level
      obtain ⟨l', kept, -⟩ := exists_level (k := k) mem
      cases bare _ kept
    · exact bare p (mem_operands.2 ⟨mem, fun l same => absurd ⟨l, same⟩ level⟩)
  rw [← k.atoms_parts a, ← k.atoms_parts b, List.flatMap_eq_nil_iff, List.flatMap_eq_nil_iff]
  exact ⟨fun p mem => parts p (List.mem_append_left _ mem), fun p mem => parts p (List.mem_append_right _ mem)⟩

end Connective

/-- A disjunction is certain only if one of the two guards is. -/
theorem Certain.or (h : (a.or b).Certain) : a.Certain ∨ b.Certain := by
  revert h
  refine or_cases (P := fun c => c.Certain → _) (fun certain _ => ?_) fun ua ub h => ?_
  · rcases certain with rfl | rfl
    · exact .inl certain_always
    · exact .inr certain_always
  · obtain ⟨bareA, bareB⟩ := Connective.bare_of_join h.bare
    let answers : Answers := ⟨fun _ _ _ => false, fun _ level => decide (0 ≤ level)⟩
    have either : a.holds answers none = true ∨ b.holds answers none = true := by
      rw [← Bool.or_eq_true, ← holds_or ⟨0, fun _ => rfl⟩, or_eq_join ua ub]
      exact h.sure answers none
    refine either.imp (fun holds => ⟨bareA, fun _ _ => ?_⟩) fun holds => ⟨bareB, fun _ _ => ?_⟩
    · exact (holds_of_bare bareA).trans holds
    · exact (holds_of_bare bareB).trans holds

theorem Certain.foldl_or (h : (gs.foldl Guard.or g).Certain) : ∃ p ∈ g :: gs, p.Certain := by
  induction gs generalizing g with
  | nil => exact ⟨g, .head _, h⟩
  | cons b gs ih =>
      obtain ⟨p, mem, certain⟩ := ih h
      rcases List.mem_cons.1 mem with rfl | mem
      · rcases certain.or with certain | certain
        · exact ⟨g, .head _, certain⟩
        · exact ⟨b, .tail _ (.head _), certain⟩
      · exact ⟨p, .tail _ (.tail _ mem), certain⟩

end AdaptiveLL.Guard
