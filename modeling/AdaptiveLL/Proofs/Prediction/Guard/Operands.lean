import AdaptiveLL.Proofs.Prediction.Guard.Order
import Mathlib.Data.Set.Finite.Lattice
import Mathlib.Data.Set.Finite.List
import Mathlib.Order.MinMax
/-!
The operands of connectives. They are the guards that were put together, in order, without
duplicates, and with the one level of precedence that decides among the levels
(`Guard.Connective.mem_operands`). The order and the groups in which they came do not matter, so only
finitely many guards come of the edges of a network (`Guard.finite_conjunctions`).
-/
namespace AdaptiveLL.Guard

variable {a g : Guard} {gs gs' as bs acc : List Guard} {l l' : Int}

theorem isAlways_iff : g.isAlways = true ↔ g = always :=
  beq_iff_eq

/-- The two ways to put guards together. -/
inductive Connective where
  | conjunction
  | disjunction

namespace Connective

variable (k : Connective)

def make : Connective → List Guard → Guard
  | conjunction => all
  | disjunction => any

/-- What holds of a guard under any connective holds of every guard. -/
@[elab_as_elim]
theorem inductionOn {P : Guard → Prop} (g : Guard) (always : P always)
    (predicate : ∀ rule index contextual, P (predicate rule index contextual))
    (precedence : ∀ level, P (precedence level))
    (make : ∀ (k : Connective) (gs : List Guard), (∀ g ∈ gs, P g) → P (k.make gs)) : P g :=
  Guard.inductionOn g always predicate precedence (make conjunction) (make disjunction)

/-- The guards that a guard consists of, as operands of the connective. -/
def parts : Connective → Guard → List Guard
  | conjunction => conjuncts
  | disjunction => disjuncts

/-- Of two levels, the one that decides. -/
def pick : Connective → Int → Int → Int
  | conjunction => min
  | disjunction => max

/-- The first level decides where the second one is there too. -/
def Decides : Connective → Int → Int → Prop
  | conjunction, l, l' => l ≤ l'
  | disjunction, l, l' => l' ≤ l

/-- What becomes of the operands that are put together. -/
def operands (gs : List Guard) : List Guard :=
  Guard.operands k.pick gs

/-- Two guards under the connective, neither of which is certain. -/
def join (a b : Guard) : Guard :=
  collapse k.make (k.operands (k.parts a ++ k.parts b))

@[simp] theorem parts_make (gs : List Guard) : k.parts (k.make gs) = gs := by
  cases k <;> rfl

theorem pick_eq (l l' : Int) : k.pick l l' = l ∨ k.pick l l' = l' := by
  cases k with
  | conjunction => exact min_choice l l'
  | disjunction => exact max_choice l l'

theorem pick_decides (l l' : Int) : k.Decides (k.pick l l') l ∧ k.Decides (k.pick l l') l' := by
  cases k with
  | conjunction => exact ⟨min_le_left l l', min_le_right l l'⟩
  | disjunction => exact ⟨le_max_left l l', le_max_right l l'⟩

variable {k}

theorem Decides.refl (l : Int) : k.Decides l l := by
  cases k <;> exact le_refl l

theorem Decides.trans {l'' : Int} (h : k.Decides l l') (h' : k.Decides l' l'') : k.Decides l l'' := by
  cases k with
  | conjunction => exact le_trans h h'
  | disjunction => exact le_trans h' h

theorem Decides.antisymm (h : k.Decides l l') (h' : k.Decides l' l) : l = l' := by
  cases k with
  | conjunction => exact le_antisymm h h'
  | disjunction => exact le_antisymm h' h

/-- The level that is picked from several decides among all of them. -/
theorem foldl_pick (l : Int) (ls : List Int) :
    ls.foldl k.pick l ∈ l :: ls ∧ ∀ l' ∈ l :: ls, k.Decides (ls.foldl k.pick l) l' := by
  induction ls generalizing l with
  | nil => exact ⟨.head _, by simpa using .refl l⟩
  | cons l' ls ih =>
      obtain ⟨mem, decides⟩ := ih (k.pick l l')
      obtain ⟨first, rest⟩ := List.forall_mem_cons.1 decides
      have picked := k.pick_decides l l'
      refine ⟨?_, ?_⟩
      · rcases List.mem_cons.1 mem with same | mem
        · rw [List.foldl_cons, same]
          rcases k.pick_eq l l' with eq | eq <;> rw [eq] <;> simp
        · exact .tail _ (.tail _ mem)
      · exact List.forall_mem_cons.2 ⟨first.trans picked.1, List.forall_mem_cons.2
          ⟨first.trans picked.2, rest⟩⟩

end Connective

theorem mem_foldl_insert :
    a ∈ gs.foldl (fun acc g => insert g acc) acc ↔ a ∈ acc ∨ a ∈ gs := by
  induction gs generalizing acc with
  | nil => simp
  | cons g gs ih =>
      rw [List.foldl_cons, ih, mem_insert, List.mem_cons, or_assoc]
      exact or_left_comm

theorem Ascending.foldl_insert (h : Ascending acc) :
    Ascending (gs.foldl (fun acc g => Guard.insert g acc) acc) := by
  induction gs generalizing acc with
  | nil => exact h
  | cons g gs ih => exact ih h.insert

theorem mem_levels : l ∈ gs.filterMap level? ↔ precedence l ∈ gs := by
  rw [List.mem_filterMap]
  constructor
  · rintro ⟨g, mem, is⟩
    cases g with
    | precedence =>
        obtain rfl := Option.some.inj is
        exact mem
    | always | predicate | all | any => cases is
  · exact fun mem => ⟨_, mem, rfl⟩

theorem isPrecedence_eq_false : a.isPrecedence = false ↔ ∀ l, a ≠ precedence l := by
  cases a <;> simp [isPrecedence]

namespace Connective

variable {k : Connective}

theorem ascending_operands (k : Connective) (gs : List Guard) : Ascending (k.operands gs) := by
  have sorted : Ascending (gs.foldl (fun acc g => Guard.insert g acc) []) := Ascending.foldl_insert .nil
  unfold operands Guard.operands
  simp only
  split
  · exact sorted.filter _
  · exact Ascending.insert (sorted.filter _)

/-- The guards that were put together are there, but of the levels only the one that decides. -/
theorem mem_operands : a ∈ k.operands gs ↔
    a ∈ gs ∧ ∀ l, a = precedence l → ∀ l', precedence l' ∈ gs → k.Decides l l' := by
  have members (a : Guard) : a ∈ gs.foldl (fun acc g => Guard.insert g acc) [] ↔ a ∈ gs := by
    rw [mem_foldl_insert]
    simp
  unfold operands Guard.operands
  simp only
  split
  case h_1 none =>
    have missing (l : Int) : precedence l ∉ gs := by
      rw [← members, ← mem_levels, none]
      exact List.not_mem_nil
    rw [List.mem_filter, members, Bool.not_eq_true', isPrecedence_eq_false]
    refine and_congr_right fun mem => ⟨fun other l same => absurd same (other l), fun _ l same => ?_⟩
    exact missing l (same ▸ mem)
  case h_2 l ls levels =>
    obtain ⟨mem, decides⟩ := foldl_pick (k := k) l ls
    have known (l' : Int) : l' ∈ l :: ls ↔ precedence l' ∈ gs := by
      rw [← levels, mem_levels, members]
    rw [mem_insert, List.mem_filter, members, Bool.not_eq_true', isPrecedence_eq_false]
    constructor
    · rintro (rfl | ⟨mem, other⟩)
      · refine ⟨(known _).1 mem, fun l' same l'' inside => ?_⟩
        rw [← Guard.precedence.inj same]
        exact decides l'' ((known _).2 inside)
      · exact ⟨mem, fun l same => absurd same (other l)⟩
    · rintro ⟨inside, best⟩
      by_cases level : ∃ l', a = precedence l'
      · obtain ⟨l', rfl⟩ := level
        refine .inl (congrArg precedence ?_)
        exact (best l' rfl _ ((known _).1 mem)).antisymm (decides l' ((known _).2 inside))
      · exact .inr ⟨inside, fun l same => level ⟨l, same⟩⟩

theorem mem_of_mem_operands (h : a ∈ k.operands gs) : a ∈ gs :=
  (mem_operands.1 h).1

/-- Among the levels that were there, one has been kept that decides. -/
theorem exists_level (h : precedence l' ∈ gs) : ∃ l, precedence l ∈ k.operands gs ∧ k.Decides l l' := by
  cases levels : gs.filterMap level? with
  | nil => simp [← mem_levels, levels] at h
  | cons l ls =>
      obtain ⟨mem, decides⟩ := foldl_pick (k := k) l ls
      rw [← levels] at mem decides
      refine ⟨_, mem_operands.2 ⟨mem_levels.1 mem, fun l'' same l' inside => ?_⟩, decides l' (mem_levels.2 h)⟩
      rw [← Guard.precedence.inj same]
      exact decides l' (mem_levels.2 inside)

theorem operands_ne_nil (some : gs ≠ []) : k.operands gs ≠ [] := by
  obtain ⟨g, mem⟩ := List.exists_mem_of_ne_nil gs some
  by_cases level : ∃ l, g = precedence l
  · obtain ⟨l, rfl⟩ := level
    obtain ⟨l', mem', -⟩ := exists_level (k := k) mem
    exact List.ne_nil_of_mem mem'
  · exact List.ne_nil_of_mem (mem_operands.2 ⟨mem, fun l same => absurd ⟨l, same⟩ level⟩)

/-- What the operands are depends on the guards alone. -/
theorem operands_congr (same : ∀ g, g ∈ gs ↔ g ∈ gs') : k.operands gs = k.operands gs' := by
  refine (ascending_operands k gs).ext (ascending_operands k gs') fun g => ?_
  simp only [mem_operands, same]

/-- Some of the guards may have been put together before. -/
theorem operands_append_operands : k.operands (k.operands as ++ bs) = k.operands (as ++ bs) := by
  refine (ascending_operands k _).ext (ascending_operands k _) fun g => ?_
  rw [mem_operands, mem_operands]
  have fewer {g : Guard} (mem : g ∈ k.operands as ++ bs) : g ∈ as ++ bs := by
    rw [List.mem_append] at mem ⊢
    exact mem.imp_left mem_of_mem_operands
  constructor
  · rintro ⟨mem, best⟩
    refine ⟨fewer mem, fun l same l' inside => ?_⟩
    rcases List.mem_append.1 inside with inside | inside
    · obtain ⟨l'', kept, decides⟩ := exists_level (k := k) inside
      exact (best l same l'' (List.mem_append_left _ kept)).trans decides
    · exact best l same l' (List.mem_append_right _ inside)
  · rintro ⟨mem, best⟩
    refine ⟨?_, fun l same l' inside => best l same l' (fewer inside)⟩
    rw [List.mem_append] at mem ⊢
    refine mem.imp_left fun mem => mem_operands.2 ⟨mem, fun l same l' inside => ?_⟩
    exact best l same l' (List.mem_append_left _ inside)

theorem operands_operands : k.operands (k.operands gs) = k.operands gs := by
  have alone : k.operands (k.operands gs ++ []) = k.operands (gs ++ []) := operands_append_operands
  rwa [List.append_nil, List.append_nil] at alone

/-- A guard alone. -/
theorem operands_singleton (k : Connective) (g : Guard) : k.operands [g] = [g] := by
  refine (ascending_operands k _).ext (List.pairwise_singleton _ _) fun a => ?_
  rw [mem_operands, List.mem_singleton]
  refine and_iff_left_of_imp fun same l level l' inside => ?_
  rw [List.mem_singleton, ← same, level] at inside
  exact Guard.precedence.inj inside ▸ .refl _

end Connective

/-! ### Conjunctions and disjunctions of two guards -/

variable {b : Guard}

@[simp] theorem always_and (g : Guard) : always.and g = g := rfl

@[simp] theorem always_or (g : Guard) : always.or g = always := rfl

@[simp] theorem or_always (g : Guard) : g.or always = always := by
  rw [Guard.or, if_pos]
  exact Bool.or_eq_true_iff.2 (.inr rfl)

@[simp] theorem and_always (g : Guard) : g.and always = g := by
  by_cases certain : g = always
  · rw [certain, always_and]
  · rw [Guard.and, if_neg (mt isAlways_iff.1 certain), if_pos (isAlways_iff.2 rfl)]

theorem and_eq_join (ha : a ≠ always) (hb : b ≠ always) : a.and b = Connective.conjunction.join a b := by
  rw [Guard.and, if_neg (mt isAlways_iff.1 ha), if_neg (mt isAlways_iff.1 hb)]
  rfl

theorem or_eq_join (ha : a ≠ always) (hb : b ≠ always) : a.or b = Connective.disjunction.join a b := by
  have uncertain : ¬ (a.isAlways || b.isAlways) = true := by
    rw [Bool.or_eq_true, isAlways_iff, isAlways_iff]
    exact not_or_intro ha hb
  rw [Guard.or, if_neg uncertain]
  rfl

/-- A conjunction is one of the two guards if the other one is certain. -/
theorem and_cases {P : Guard → Prop} (left : a = always → P b) (right : b = always → P a)
    (both : a ≠ always → b ≠ always → P (Connective.conjunction.join a b)) : P (a.and b) := by
  by_cases ha : a = always
  · rw [ha, always_and]
    exact left ha
  by_cases hb : b = always
  · rw [hb, and_always]
    exact right hb
  rw [and_eq_join ha hb]
  exact both ha hb

/-- A disjunction is certain if one of the two guards is. -/
theorem or_cases {P : Guard → Prop} (certain : a = always ∨ b = always → P always)
    (both : a ≠ always → b ≠ always → P (Connective.disjunction.join a b)) : P (a.or b) := by
  by_cases ha : a = always
  · rw [ha, always_or]
    exact certain (.inl ha)
  by_cases hb : b = always
  · rw [hb, or_always]
    exact certain (.inr hb)
  rw [or_eq_join ha hb]
  exact both ha hb

/-! ### Conjunctions of the guards of edges -/

section Conjunctions

variable {atoms : List Guard}

/-- The guard of an edge: one predicate or one level of precedence. -/
def IsAtom : Guard → Prop
  | predicate .. | precedence _ => True
  | always | all _ | any _ => False

/-- Some of the atoms, in ascending order. -/
structure Ascends (atoms gs : List Guard) : Prop where
  atoms : ∀ a ∈ gs, a ∈ atoms
  ascending : Ascending gs

/-- The operands of a conjunction are among the atoms that were put together. -/
theorem ascends_operands (members : ∀ a ∈ gs, a ∈ atoms) : Ascends atoms (operands min gs) where
  atoms a mem := members a (Connective.mem_of_mem_operands (k := .conjunction) mem)
  ascending := Connective.ascending_operands .conjunction gs

theorem finite_ascends (atoms : List Guard) : { gs | Ascends atoms gs }.Finite := by
  have finite := (List.finite_length_le { a // a ∈ atoms } atoms.length).image (List.map Subtype.val)
  refine finite.subset fun gs h => ?_
  have short : gs.length ≤ atoms.length := h.ascending.nodup.length_le_of_subset h.atoms
  refine ⟨gs.attachWith _ h.atoms, by simpa using short, ?_⟩
  simp

/-- No guard, or a conjunction of some of the atoms. -/
def IsConjunction (atoms : List Guard) (g : Guard) : Prop :=
  g = .always ∨ ∃ gs, Ascends atoms gs ∧ g = collapse .all gs

theorem conjuncts_collapse (pure : ∀ a ∈ gs, a.IsAtom) : (collapse .all gs).conjuncts = gs := by
  match gs with
  | [] | _ :: _ :: _ => rfl
  | [a] =>
      have atom := pure a (.head _)
      cases a <;> first | rfl | contradiction

/-- One more guard is put to those that were crossed before. -/
theorem IsConjunction.and (pure : ∀ a ∈ atoms, a.IsAtom) (h : IsConjunction atoms g) (mem : a ∈ atoms) :
    IsConjunction atoms (g.and a) := by
  have alone : Ascends atoms [a] := ⟨by simpa using mem, List.pairwise_singleton _ _⟩
  have guarded : ¬ a.isAlways = true := by
    rw [isAlways_iff]
    rintro rfl
    exact pure _ mem
  rw [Guard.and, if_neg guarded]
  split
  case isTrue => exact .inr ⟨[a], alone, rfl⟩
  case isFalse some =>
      rcases h with rfl | ⟨gs, ascends, rfl⟩
      · exact absurd rfl some
      · refine .inr ⟨_, ascends_operands ?_, rfl⟩
        rw [conjuncts_collapse fun b within => pure b (ascends.atoms b within)]
        have single : a.conjuncts = [a] := by
          have atom := pure a mem
          cases a <;> first | rfl | contradiction
        rw [single]
        exact List.forall_mem_append.2 ⟨ascends.atoms, alone.atoms⟩

/-- Finitely many guards come of finitely many atoms. -/
theorem finite_conjunctions (atoms : List Guard) : { g | IsConjunction atoms g }.Finite := by
  refine ((finite_ascends atoms).image (collapse .all)).insert .always |>.subset ?_
  rintro g (rfl | ⟨gs, ascends, rfl⟩)
  · exact .inl rfl
  · exact .inr ⟨gs, ascends, rfl⟩

end Conjunctions

end AdaptiveLL.Guard
