import AdaptiveLL.Proofs.Prediction.Guard.Meaning
/-!
What is left of a guard when its levels have been answered. Nothing is left of a guard that is certainly
false; otherwise it is a guard without levels that means the same, and of which nothing more can be
answered (`Guard.remainder_exact`).
-/
namespace AdaptiveLL.Guard

variable {a b g r : Guard} {gs rs : List Guard} {answers : Answers} {outer : Option Nat}

/-- Guards without levels, in which no disjunction has an operand that is certain. -/
inductive Settled : Guard → Prop
  | always : Settled always
  | predicate (rule index : Nat) (contextual : Bool) : Settled (predicate rule index contextual)
  | all {gs : List Guard} (operands : ∀ g ∈ gs, Settled g) : Settled (all gs)
  | any {gs : List Guard} (operands : ∀ g ∈ gs, Settled g) (uncertain : ∀ g ∈ gs, g ≠ .always) :
      Settled (any gs)

namespace Settled

/-- A settled guard does not depend on the level of precedence. -/
theorem free (h : Settled g) : g.Free := by
  have operands (k : Connective) {gs : List Guard} (ih : ∀ g ∈ gs, g.Free) : (k.make gs).Free := by
    intro a mem
    rw [k.atoms_make, List.mem_flatMap] at mem
    obtain ⟨g, mem, inside⟩ := mem
    exact ih g mem a inside
  induction h with
  | always => exact fun _ mem => nomatch mem
  | predicate => simp [Free, atoms, isPrecedence]
  | all _ ih => exact operands .conjunction ih
  | any _ _ ih => exact operands .disjunction ih

/-- What a settled guard is taken apart into is settled. -/
theorem parts (h : Settled g) (uncertain : g ≠ .always) (k : Connective) :
    ∀ p ∈ k.parts g, Settled p ∧ (k = .disjunction → p ≠ .always) := by
  intro p mem
  rcases k.parts_eq g with alone | made
  · rw [alone, List.mem_singleton] at mem
    rw [mem]
    exact ⟨h, fun _ => uncertain⟩
  · cases k with
    | conjunction =>
        cases h with
        | all operands => exact ⟨operands p mem, nofun⟩
        | always | predicate | any => cases made
    | disjunction =>
        cases h with
        | any operands others => exact ⟨operands p mem, fun _ => others p mem⟩
        | always | predicate | all => cases made

/-- Settled operands make a settled connective. -/
theorem collapse {k : Connective} (h : ∀ p ∈ gs, Settled p ∧ (k = .disjunction → p ≠ .always)) :
    Settled (collapse k.make gs) ∧ (k = .disjunction → Guard.collapse k.make gs ≠ .always) := by
  have make (h : ∀ p ∈ gs, Settled p ∧ (k = .disjunction → p ≠ .always)) :
      Settled (k.make gs) ∧ (k = .disjunction → k.make gs ≠ .always) := by
    cases k with
    | conjunction => exact ⟨.all fun p mem => (h p mem).1, nofun⟩
    | disjunction => exact ⟨.any (fun p mem => (h p mem).1) fun p mem => (h p mem).2 rfl, nofun⟩
  match gs with
  | [] | _ :: _ :: _ => exact make h
  | [p] => exact h p (.head _)

theorem join (ha : Settled a) (hb : Settled b) (ua : a ≠ .always) (ub : b ≠ .always) (k : Connective) :
    Settled (k.join a b) ∧ (k = .disjunction → k.join a b ≠ .always) :=
  collapse fun p mem => (List.mem_append.1 (Connective.mem_of_mem_operands mem)).elim
    (ha.parts ua k p) (hb.parts ub k p)

theorem and (ha : Settled a) (hb : Settled b) : Settled (a.and b) :=
  and_cases (fun _ => hb) (fun _ => ha) fun ua ub => (ha.join hb ua ub .conjunction).1

theorem or (ha : Settled a) (hb : Settled b) (ua : a ≠ .always) (ub : b ≠ .always) :
    Settled (a.or b) ∧ a.or b ≠ .always := by
  obtain ⟨settled, uncertain⟩ := ha.join hb ua ub .disjunction
  rw [or_eq_join ua ub]
  exact ⟨settled, uncertain rfl⟩

/-- The conjunction of settled guards. -/
theorem foldl_and (h : ∀ p ∈ gs, Settled p) (ha : Settled a) :
    Settled (gs.foldl Guard.and a) ∧ ∀ (answers : Answers) (outer : Option Nat),
      (gs.foldl Guard.and a).holds answers outer =
        (a.holds answers outer && gs.all (·.holds answers outer)) := by
  induction gs generalizing a with
  | nil => exact ⟨ha, by simp⟩
  | cons b gs ih =>
      obtain ⟨hb, rest⟩ := List.forall_mem_cons.1 h
      obtain ⟨settled, meaning⟩ := ih rest (ha.and hb)
      refine ⟨settled, fun answers outer => ?_⟩
      rw [List.foldl_cons, meaning, ha.free.holds_and hb.free, List.all_cons, Bool.and_assoc]

/-- The disjunction of settled guards that are uncertain. -/
theorem foldl_or (h : ∀ p ∈ gs, Settled p ∧ p ≠ .always) (ha : Settled a) (ua : a ≠ .always) :
    Settled (gs.foldl Guard.or a) ∧ ∀ (answers : Answers) (outer : Option Nat),
      (gs.foldl Guard.or a).holds answers outer =
        (a.holds answers outer || gs.any (·.holds answers outer)) := by
  induction gs generalizing a with
  | nil => exact ⟨ha, by simp⟩
  | cons b gs ih =>
      obtain ⟨⟨hb, ub⟩, rest⟩ := List.forall_mem_cons.1 h
      obtain ⟨joined, uncertain⟩ := ha.or hb ua ub
      obtain ⟨settled, meaning⟩ := ih rest joined uncertain
      refine ⟨settled, fun answers outer => ?_⟩
      rw [List.foldl_cons, meaning, ha.free.holds_or hb.free, List.any_cons, Bool.or_assoc]

end Settled

/-! ### Remainders -/

/-- What is left of the guard, unless it is certainly false. -/
def remainder (answers : Answers) (outer : Option Nat) (g : Guard) : Option Guard :=
  g.evalPrecedence answers outer

/-- What is left of conjuncts. -/
def conjunctsLeft (answers : Answers) (outer : Option Nat) (gs : List Guard) : Option (List Guard) :=
  remainingAll answers outer gs

/-- What is left of disjuncts. -/
def disjunctsLeft (answers : Answers) (outer : Option Nat) (gs : List Guard) : Option (List Guard) :=
  remainingAny answers outer gs

theorem conjunctsLeft_cons (g : Guard) (gs : List Guard) : conjunctsLeft answers outer (g :: gs) =
    (g.remainder answers outer).bind fun r => (conjunctsLeft answers outer gs).map (r :: ·) := by
  rw [conjunctsLeft, remainingAll, remainder, conjunctsLeft]
  generalize g.evalPrecedence answers outer = first
  generalize remainingAll answers outer gs = rest
  cases first with
  | none => rfl
  | some r => cases rest <;> rfl

theorem disjunctsLeft_cons (g : Guard) (gs : List Guard) : disjunctsLeft answers outer (g :: gs) =
    match g.remainder answers outer with
    | none => disjunctsLeft answers outer gs
    | some r => if r = always then none else (disjunctsLeft answers outer gs).map (r :: ·) := by
  rw [disjunctsLeft, remainingAny, remainder, disjunctsLeft]
  generalize g.evalPrecedence answers outer = first
  generalize remainingAny answers outer gs = rest
  cases first with
  | none => rfl
  | some r => cases r <;> cases rest <;> rfl

/-- What is left of a conjunction is what is left of its operands, without those that hold always.
-/
theorem remainder_all (gs : List Guard) : (all gs).remainder answers outer =
    (conjunctsLeft answers outer gs).map fun rs =>
      if rs = gs then all gs else (rs.filter (!·.isAlways)).foldl Guard.and always := by
  rw [remainder, evalPrecedence, conjunctsLeft]
  generalize remainingAll answers outer gs = left
  cases left with
  | none => rfl
  | some rs =>
      show (if rs = gs then some (all gs) else some _) = some (if rs = gs then all gs else _)
      split <;> rfl

/-- What is left of a disjunction is what is left of those of its operands that may still hold. -/
theorem remainder_any (gs : List Guard) : (any gs).remainder answers outer =
    match disjunctsLeft answers outer gs with
    | none => some always
    | some rs => if rs = gs then some (any gs) else
        match rs with
        | [] => none
        | first :: rest => some (rest.foldl Guard.or first) := by
  rw [remainder, evalPrecedence]
  rfl

/-- Conjuncts of which nothing more can be answered are all left. -/
theorem conjunctsLeft_self (each : ∀ g ∈ gs, g.remainder answers outer = some g) :
    conjunctsLeft answers outer gs = some gs := by
  induction gs with
  | nil => rfl
  | cons g gs ih =>
      obtain ⟨head, tail⟩ := List.forall_mem_cons.1 each
      rw [conjunctsLeft_cons, head, ih tail]
      rfl

/-- So are disjuncts, if none of them is certain. -/
theorem disjunctsLeft_self (each : ∀ g ∈ gs, g.remainder answers outer = some g)
    (uncertain : ∀ g ∈ gs, g ≠ always) : disjunctsLeft answers outer gs = some gs := by
  induction gs with
  | nil => rfl
  | cons g gs ih =>
      obtain ⟨head, tail⟩ := List.forall_mem_cons.1 each
      obtain ⟨first, others⟩ := List.forall_mem_cons.1 uncertain
      rw [disjunctsLeft_cons, head, ih tail others]
      simp only [if_neg first, Option.map_some]

/-- Nothing more can be answered of a settled guard. -/
theorem Settled.remainder_eq (h : Settled g) : g.remainder answers outer = some g := by
  induction h with
  | always | predicate => rfl
  | all _ ih => rw [remainder_all, conjunctsLeft_self ih, Option.map_some, if_pos rfl]
  | any _ uncertain ih =>
      rw [remainder_any, disjunctsLeft_self ih uncertain]
      simp only [if_pos]

/-- What the levels decide of a guard: it is false whatever the predicates are, or it means the same as
a settled guard. -/
def LeavesOf (answers : Answers) (outer : Option Nat) (g : Guard) : Option Guard → Prop
  | none => ∀ predicate, g.holds { answers with predicate } outer = false
  | some r => Settled r ∧
      ∀ predicate, r.holds { answers with predicate } outer = g.holds { answers with predicate } outer

/-- Operands that are left hold together exactly if all operands do. -/
theorem conjunctsLeft_spec (each : ∀ g ∈ gs, LeavesOf answers outer g (g.remainder answers outer)) :
    match conjunctsLeft answers outer gs with
    | none => ∀ predicate, gs.all (·.holds { answers with predicate } outer) = false
    | some rs => (∀ r ∈ rs, Settled r) ∧ ∀ predicate,
        rs.all (·.holds { answers with predicate } outer) =
          gs.all (·.holds { answers with predicate } outer) := by
  induction gs with
  | nil => exact ⟨by simp, fun _ => rfl⟩
  | cons g gs ih =>
      obtain ⟨head, tail⟩ := List.forall_mem_cons.1 each
      have rest := ih tail
      rw [conjunctsLeft_cons]
      cases first : g.remainder answers outer with
      | none =>
          rw [first] at head
          intro predicate
          rw [List.all_cons, head predicate, Bool.false_and]
      | some r =>
          rw [first] at head
          obtain ⟨settled, same⟩ := head
          cases others : conjunctsLeft answers outer gs with
          | none =>
              rw [others] at rest
              intro predicate
              rw [List.all_cons, rest predicate, Bool.and_false]
          | some rs =>
              rw [others] at rest
              refine ⟨List.forall_mem_cons.2 ⟨settled, rest.1⟩, fun predicate => ?_⟩
              rw [List.all_cons, List.all_cons, same predicate, rest.2 predicate]

/-- One of the operands that are left holds exactly if one of all operands does. -/
theorem disjunctsLeft_spec (each : ∀ g ∈ gs, LeavesOf answers outer g (g.remainder answers outer)) :
    match disjunctsLeft answers outer gs with
    | none => ∀ predicate, gs.any (·.holds { answers with predicate } outer) = true
    | some rs => (∀ r ∈ rs, Settled r ∧ r ≠ always) ∧ ∀ predicate,
        rs.any (·.holds { answers with predicate } outer) =
          gs.any (·.holds { answers with predicate } outer) := by
  induction gs with
  | nil => exact ⟨by simp, fun _ => rfl⟩
  | cons g gs ih =>
      obtain ⟨head, tail⟩ := List.forall_mem_cons.1 each
      have rest := ih tail
      rw [disjunctsLeft_cons]
      cases first : g.remainder answers outer with
      | none =>
          rw [first] at head
          have fewer (predicate : Option Nat → Nat → Nat → Id Bool) :
              (g :: gs).any (·.holds { answers with predicate } outer) =
                gs.any (·.holds { answers with predicate } outer) := by
            rw [List.any_cons, head predicate, Bool.false_or]
          cases others : disjunctsLeft answers outer gs with
          | none =>
              rw [others] at rest
              exact fun predicate => (fewer predicate).trans (rest predicate)
          | some rs =>
              rw [others] at rest
              exact ⟨rest.1, fun predicate => (rest.2 predicate).trans (fewer predicate).symm⟩
      | some r =>
          rw [first] at head
          obtain ⟨settled, same⟩ := head
          by_cases certain : r = always
          · simp only [if_pos certain]
            intro predicate
            rw [List.any_cons, ← same predicate, certain, holds_always, Bool.true_or]
          · simp only [if_neg certain]
            cases others : disjunctsLeft answers outer gs with
            | none =>
                rw [others] at rest
                intro predicate
                rw [List.any_cons, rest predicate, Bool.or_true]
            | some rs =>
                rw [others] at rest
                refine ⟨List.forall_mem_cons.2 ⟨⟨settled, certain⟩, rest.1⟩, fun predicate => ?_⟩
                rw [List.any_cons, List.any_cons, same predicate, rest.2 predicate]

/-- Guards that hold always need not be asked. -/
theorem all_filter_uncertain (gs : List Guard) : (gs.filter (!·.isAlways)).all (·.holds answers outer) =
    gs.all (·.holds answers outer) := by
  induction gs with
  | nil => rfl
  | cons g gs ih =>
      rw [List.all_cons, ← ih, List.filter_cons]
      split
      case isTrue => rw [List.all_cons]
      case isFalse certain =>
          rw [Bool.not_eq_true', Bool.not_eq_false, isAlways_iff] at certain
          rw [certain, holds_always, Bool.true_and]

/-- What is left has the value of the guard, for every answer to its predicates. -/
theorem remainder_leaves (answers : Answers) (outer : Option Nat) (g : Guard) :
    LeavesOf answers outer g (g.remainder answers outer) := by
  induction g using inductionOn with
  | always => exact ⟨.always, fun _ => rfl⟩
  | predicate rule index contextual => exact ⟨.predicate rule index contextual, fun _ => rfl⟩
  | precedence level =>
      have tested : (precedence level).remainder answers outer =
          if (precedence level).holds answers outer then some always else none := rfl
      rw [tested]
      split
      case isTrue high => exact ⟨.always, fun _ => high.symm⟩
      case isFalse low => exact fun _ => eq_false_of_ne_true low
  | all gs ih =>
      have spec := conjunctsLeft_spec ih
      rw [remainder_all]
      cases left : conjunctsLeft answers outer gs with
      | none =>
          rw [left] at spec
          intro predicate
          rw [holds_all]
          exact spec predicate
      | some rs =>
          rw [left] at spec
          obtain ⟨settled, same⟩ := spec
          rw [Option.map_some]
          split
          case isTrue unchanged =>
              rw [unchanged] at settled
              exact ⟨.all settled, fun _ => rfl⟩
          case isFalse =>
              have fewer (r : Guard) (mem : r ∈ rs.filter (!·.isAlways)) : Settled r :=
                settled r (List.mem_of_mem_filter mem)
              obtain ⟨done, meaning⟩ := Settled.foldl_and fewer .always
              refine ⟨done, fun predicate => ?_⟩
              rw [meaning, holds_always, Bool.true_and, all_filter_uncertain, same, holds_all]
  | any gs ih =>
      have spec := disjunctsLeft_spec ih
      rw [remainder_any]
      cases left : disjunctsLeft answers outer gs with
      | none =>
          rw [left] at spec
          refine ⟨.always, fun predicate => ?_⟩
          rw [holds_any, holds_always, spec predicate]
      | some rs =>
          rw [left] at spec
          obtain ⟨settled, same⟩ := spec
          simp only
          split
          case isTrue unchanged =>
              rw [unchanged] at settled
              exact ⟨.any (fun g mem => (settled g mem).1) fun g mem => (settled g mem).2, fun _ => rfl⟩
          case isFalse =>
              cases rs with
              | nil =>
                  intro predicate
                  rw [holds_any, ← same predicate, List.any_nil]
              | cons first rest =>
                  obtain ⟨⟨head, uncertain⟩, tail⟩ := List.forall_mem_cons.1 settled
                  obtain ⟨done, meaning⟩ := Settled.foldl_or tail head uncertain
                  refine ⟨done, fun predicate => ?_⟩
                  rw [meaning, holds_any, ← same predicate, List.any_cons]

/-- A guard of which nothing is left is false whatever the predicates are. What is left of any other
guard holds no level at any depth, means the same whatever the predicates are, and is left as it is
when levels are answered once more. -/
theorem remainder_exact (answers : Answers) (outer : Option Nat) (g : Guard) :
    match g.remainder answers outer with
    | none => ∀ predicate, g.holds { answers with predicate } outer = false
    | some r => (∀ a ∈ r.atoms, a.isPrecedence = false) ∧
        (∀ predicate, r.holds { answers with predicate } outer =
          g.holds { answers with predicate } outer) ∧
        r.remainder answers outer = some r := by
  have leaves := remainder_leaves answers outer g
  cases left : g.remainder answers outer with
  | none =>
      rw [left] at leaves
      exact leaves
  | some r =>
      rw [left] at leaves
      obtain ⟨settled, same⟩ := leaves
      exact ⟨settled.free, same, settled.remainder_eq⟩

end AdaptiveLL.Guard
