import AdaptiveLL.Proofs.Prediction.Guard.Meaning
/-!
The algebra of guards. Guards that are put together from predicates and levels are in a normal form
(`Guard.Canonical`), in which the operands of a connective determine it. So conjunction and disjunction
are commutative, associative and idempotent on them, up to equality and not only up to what they mean
(`Guard.connective_laws`).
-/
namespace AdaptiveLL.Guard

variable {a b c g : Guard} {gs as bs : List Guard} {k : Connective}

/-- Guards that come of predicates and levels by conjunction and disjunction alone. -/
inductive Composed : Guard → Prop
  | always : Composed always
  | predicate (rule index : Nat) (contextual : Bool) : Composed (predicate rule index contextual)
  | precedence (level : Int) : Composed (precedence level)
  | and {a b : Guard} (left : Composed a) (right : Composed b) : Composed (a.and b)
  | or {a b : Guard} (left : Composed a) (right : Composed b) : Composed (a.or b)

/-- Guards all of whose connectives have two operands or more, in order and with one level at most,
none of which is certain or could be taken apart in its turn. -/
inductive Canonical : Guard → Prop
  | always : Canonical always
  | predicate (rule index : Nat) (contextual : Bool) : Canonical (predicate rule index contextual)
  | precedence (level : Int) : Canonical (precedence level)
  | make (k : Connective) {gs : List Guard} (several : 2 ≤ gs.length) (settled : k.operands gs = gs)
      (proper : ∀ g ∈ gs, g ≠ .always ∧ k.parts g = [g]) (canonical : ∀ g ∈ gs, Canonical g) :
      Canonical (k.make gs)

namespace Connective

theorem operands_append_comm : k.operands (as ++ bs) = k.operands (bs ++ as) :=
  operands_congr fun g => by rw [List.mem_append, List.mem_append, or_comm]

theorem collapse_make (several : 2 ≤ gs.length) : collapse k.make gs = k.make gs := by
  match gs with
  | [] => rfl
  | [_] => exact absurd several (by simp)
  | _ :: _ :: _ => rfl

theorem parts_collapse (lone : ∀ p ∈ gs, k.parts p = [p]) : k.parts (collapse k.make gs) = gs := by
  match gs with
  | [] | _ :: _ :: _ => exact k.parts_make _
  | [p] => exact lone p (.head _)

/-- The operands that the guard is taken apart into determine it. -/
structure Flat (k : Connective) (g : Guard) : Prop where
  settled : k.operands (k.parts g) = k.parts g
  made : collapse k.make (k.parts g) = g
  lone : ∀ p ∈ k.parts g, k.parts p = [p]

theorem Flat.of_lone (alone : k.parts g = [g]) : Flat k g where
  settled := by rw [alone, operands_singleton]
  made := by rw [alone, collapse]
  lone p mem := by
    rw [alone, List.mem_singleton] at mem
    rw [mem, alone]

/-- Guards under a connective are taken apart into the operands of both. -/
theorem parts_join (ha : Flat k a) (hb : Flat k b) :
    k.parts (k.join a b) = k.operands (k.parts a ++ k.parts b) :=
  parts_collapse fun p mem => (List.mem_append.1 (mem_of_mem_operands mem)).elim (ha.lone p) (hb.lone p)

theorem join_comm (k : Connective) (a b : Guard) : k.join a b = k.join b a := by
  rw [join, join, operands_append_comm]

theorem join_self (ha : Flat k a) : k.join a a = a := by
  have same : k.operands (k.parts a ++ k.parts a) = k.operands (k.parts a) :=
    operands_congr fun g => by rw [List.mem_append, or_self]
  rw [join, same, ha.settled, ha.made]

theorem join_assoc (ha : Flat k a) (hb : Flat k b) (hc : Flat k c) :
    k.join (k.join a b) c = k.join a (k.join b c) := by
  have same : k.operands (k.parts (k.join a b) ++ k.parts c) =
      k.operands (k.parts a ++ k.parts (k.join b c)) :=
    calc k.operands (k.parts (k.join a b) ++ k.parts c)
      _ = k.operands (k.parts a ++ (k.parts b ++ k.parts c)) := by
        rw [parts_join ha hb, operands_append_operands, List.append_assoc]
      _ = k.operands (k.operands (k.parts b ++ k.parts c) ++ k.parts a) := by
        rw [operands_append_operands, operands_append_comm]
      _ = k.operands (k.parts a ++ k.parts (k.join b c)) := by
        rw [operands_append_comm, parts_join hb hc]
  rw [join, same]
  rfl

end Connective

namespace Canonical

/-- Seen as operands of a connective, a guard is one operand or is made of several. -/
theorem alone_or_made (h : Canonical g) (k : Connective) : k.parts g = [g] ∨
    ∃ gs, g = k.make gs ∧ 2 ≤ gs.length ∧ k.operands gs = gs ∧
      ∀ p ∈ gs, Canonical p ∧ p ≠ .always ∧ k.parts p = [p] := by
  cases h with
  | always | predicate | precedence =>
      left
      cases k <;> rfl
  | @make k' gs several settled proper canonical =>
      by_cases same : k = k'
      · subst same
        exact .inr ⟨gs, rfl, several, settled, fun p mem => ⟨canonical p mem, proper p mem⟩⟩
      · left
        cases k <;> cases k' <;> first | rfl | exact absurd rfl same

/-- Either connective takes a guard apart into operands that determine it. -/
theorem flat (h : Canonical g) (k : Connective) : k.Flat g := by
  rcases h.alone_or_made k with alone | ⟨gs, rfl, several, settled, operands⟩
  · exact .of_lone alone
  · have parts := k.parts_make gs
    refine ⟨by rwa [parts], by rw [parts, Connective.collapse_make several], ?_⟩
    rw [parts]
    exact fun p mem => (operands p mem).2.2

/-- What an uncertain guard is taken apart into is canonical and uncertain. -/
theorem parts (h : Canonical g) (uncertain : g ≠ .always) (k : Connective) :
    k.parts g ≠ [] ∧ ∀ p ∈ k.parts g, Canonical p ∧ p ≠ .always ∧ k.parts p = [p] := by
  rcases h.alone_or_made k with alone | ⟨gs, rfl, several, -, operands⟩
  · rw [alone]
    exact ⟨List.cons_ne_nil _ _, by simpa using ⟨h, uncertain, alone⟩⟩
  · rw [k.parts_make]
    refine ⟨?_, operands⟩
    rintro rfl
    exact absurd several (by simp)

/-- Putting uncertain guards together makes a canonical one, which is not certain either. -/
theorem join (ha : Canonical a) (hb : Canonical b) (ua : a ≠ .always) (ub : b ≠ .always) (k : Connective) :
    Canonical (k.join a b) ∧ k.join a b ≠ .always := by
  obtain ⟨some, partsA⟩ := ha.parts ua k
  have partsB := (hb.parts ub k).2
  have members (p : Guard) (mem : p ∈ k.operands (k.parts a ++ k.parts b)) :=
    (List.mem_append.1 (Connective.mem_of_mem_operands mem)).elim (partsA p) (partsB p)
  have nonempty := Connective.operands_ne_nil (k := k) (List.append_ne_nil_of_left_ne_nil some (k.parts b))
  have settled : k.operands (k.operands (k.parts a ++ k.parts b)) = k.operands (k.parts a ++ k.parts b) :=
    Connective.operands_operands
  rw [Connective.join]
  generalize k.operands (k.parts a ++ k.parts b) = gs at *
  rcases gs with _ | ⟨p, _ | ⟨p', rest⟩⟩
  case nil => exact absurd rfl nonempty
  case cons.nil => exact ⟨(members p (.head _)).1, (members p (.head _)).2.1⟩
  case cons.cons =>
      refine ⟨.make k (by simp) settled (fun p mem => (members p mem).2) fun p mem => (members p mem).1, ?_⟩
      cases k <;> exact Guard.noConfusion

theorem and (ha : Canonical a) (hb : Canonical b) : Canonical (a.and b) :=
  and_cases (fun _ => hb) (fun _ => ha) fun ua ub => (ha.join hb ua ub .conjunction).1

theorem or (ha : Canonical a) (hb : Canonical b) : Canonical (a.or b) :=
  or_cases (fun _ => .always) fun ua ub => (ha.join hb ua ub .disjunction).1

end Canonical

theorem Composed.canonical (h : Composed g) : Canonical g := by
  induction h with
  | always => exact .always
  | predicate rule index contextual => exact .predicate rule index contextual
  | precedence level => exact .precedence level
  | and _ _ left right => exact left.and right
  | or _ _ left right => exact left.or right

/-- A guard in normal form in which nothing is asked is the trivial one. -/
theorem Canonical.eq_always (h : Canonical g) (bare : g.atoms = []) : g = Guard.always := by
  induction h with
  | always => rfl
  | predicate | precedence => cases bare
  | @make k gs several _ proper _ ih =>
      obtain ⟨p, mem⟩ := List.exists_mem_of_length_pos (Nat.lt_of_lt_of_le Nat.two_pos several)
      rw [k.atoms_make, List.flatMap_eq_nil_iff] at bare
      exact absurd (ih p mem (bare p mem)) (proper p mem).1

theorem Composed.eq_always (h : Composed g) (certain : g.Certain) : g = Guard.always :=
  h.canonical.eq_always certain.bare

/-! ### Laws -/

protected theorem and_comm (a b : Guard) : a.and b = b.and a := by
  refine and_cases (fun ha => ?_) (fun hb => ?_) fun ha hb => ?_
  · rw [ha, and_always]
  · rw [hb, always_and]
  · rw [and_eq_join hb ha, Connective.join_comm]

protected theorem or_comm (a b : Guard) : a.or b = b.or a := by
  refine or_cases (fun certain => ?_) fun ha hb => ?_
  · rcases certain with rfl | rfl <;> simp
  · rw [or_eq_join hb ha, Connective.join_comm]

theorem Canonical.and_self (h : Canonical a) : a.and a = a :=
  and_cases (P := (· = a)) (fun _ => rfl) (fun _ => rfl) fun _ _ => Connective.join_self (h.flat _)

theorem Canonical.or_self (h : Canonical a) : a.or a = a :=
  or_cases (P := (· = a)) (fun certain => (certain.elim id id).symm) fun _ _ => Connective.join_self (h.flat _)

theorem Canonical.and_assoc (ha : Canonical a) (hb : Canonical b) (hc : Canonical c) :
    (a.and b).and c = a.and (b.and c) := by
  by_cases ua : a = .always
  · rw [ua, always_and, always_and]
  by_cases ub : b = .always
  · rw [ub, and_always, always_and]
  by_cases uc : c = .always
  · rw [uc, and_always, and_always]
  rw [and_eq_join ua ub, and_eq_join ub uc, and_eq_join (ha.join hb ua ub _).2 uc,
    and_eq_join ua (hb.join hc ub uc _).2, Connective.join_assoc (ha.flat _) (hb.flat _) (hc.flat _)]

theorem Canonical.or_assoc (ha : Canonical a) (hb : Canonical b) (hc : Canonical c) :
    (a.or b).or c = a.or (b.or c) := by
  by_cases ua : a = .always
  · rw [ua, always_or, always_or, always_or]
  by_cases ub : b = .always
  · rw [ub, or_always, always_or, or_always]
  by_cases uc : c = .always
  · rw [uc, or_always, or_always, or_always]
  rw [or_eq_join ua ub, or_eq_join ub uc, or_eq_join (ha.join hb ua ub _).2 uc,
    or_eq_join ua (hb.join hc ub uc _).2, Connective.join_assoc (ha.flat _) (hb.flat _) (hc.flat _)]

/-- The connectives mean what they are called, whatever guards they are applied to, and obey the laws
of a semilattice each on guards that they have made themselves. -/
theorem connective_laws :
    (∀ (a b : Guard) (answers : Answers) (outer : Option Nat), answers.Threshold outer →
      (a.and b).holds answers outer = (a.holds answers outer && b.holds answers outer) ∧
      (a.or b).holds answers outer = (a.holds answers outer || b.holds answers outer)) ∧
    ∀ a b c : Guard, Composed a → Composed b → Composed c →
      (a.and b = b.and a ∧ (a.and b).and c = a.and (b.and c) ∧ a.and a = a) ∧
      (a.or b = b.or a ∧ (a.or b).or c = a.or (b.or c) ∧ a.or a = a) ∧
      (always.and a = a ∧ a.and always = a) ∧ always.or a = always ∧ a.or always = always := by
  refine ⟨fun a b answers outer threshold => ⟨holds_and threshold a b, holds_or threshold a b⟩, ?_⟩
  intro a b c ha hb hc
  have ha := ha.canonical
  have hb := hb.canonical
  have hc := hc.canonical
  exact ⟨⟨Guard.and_comm a b, ha.and_assoc hb hc, ha.and_self⟩, ⟨Guard.or_comm a b, ha.or_assoc hb hc, ha.or_self⟩,
    ⟨always_and a, and_always a⟩, always_or a, or_always a⟩

/-- Levels of which the lowest or highest decides, in guards of any form and in guards in normal form. -/
theorem connective_laws_levels :
    let answers : Answers := ⟨fun _ _ index => index == 0, fun _ level => decide (2 ≤ level)⟩
    let a := any [all [precedence 3, predicate 0 1 false], precedence 1]
    let b := all [precedence 2, any []]
    let c := (predicate 0 0 false).or (precedence 1)
    (answers.Threshold none ∧
      (a.and b).holds answers none = (a.holds answers none && b.holds answers none) ∧
      (a.or b).holds answers none = (a.holds answers none || b.holds answers none)) ∧
    Composed c ∧ c.or (precedence 5) = any [predicate 0 0 false, precedence 5] ∧
      c.or (precedence 5) = (precedence 5).or c := by
  intro answers a b c
  have threshold : answers.Threshold none := ⟨2, fun _ => rfl⟩
  have composed : Composed c := .or (.predicate 0 0 false) (.precedence 1)
  have laws := connective_laws.2 c (precedence 5) always composed (.precedence 5) .always
  exact ⟨⟨threshold, connective_laws.1 a b answers none threshold⟩, composed, by decide, laws.2.1.1⟩

end AdaptiveLL.Guard
