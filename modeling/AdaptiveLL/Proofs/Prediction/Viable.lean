import AdaptiveLL.Prediction.Adaptive
import AdaptiveLL.Proofs.Prediction.Alternatives
import AdaptiveLL.Proofs.Prediction.Guard.Algebra
import AdaptiveLL.Proofs.Step.Contract
/-!
The choice among guarded alternatives. Where prediction stops, an alternative is guarded by the
disjunction of the guards of its threads. So the alternatives that are viable are those with a thread
whose guard holds, and where there is nothing to be asked, every alternative has a thread that would
not have been asked for either (`Prediction.withGuards_chooses`).
-/
namespace AdaptiveLL

namespace AltSet

variable {alt : Nat} {alts : AltSet}

/-- The greatest alternative comes last. -/
theorem insert_last (h : ∀ a ∈ alts, a < alt) : alts.insert alt = alts ++ [alt] := by
  induction alts with
  | nil => rfl
  | cons a rest ih =>
      obtain ⟨first, rest⟩ := List.forall_mem_cons.1 h
      rw [insert, if_neg (Nat.lt_asymm first), if_neg (Nat.ne_of_gt first), ih rest, List.cons_append]

theorem ascending_insert (h : alts.Pairwise (· < ·)) : (alts.insert alt).Pairwise (· < ·) := by
  induction alts with
  | nil => exact List.pairwise_singleton _ _
  | cons a rest ih =>
      obtain ⟨first, ascending⟩ := List.pairwise_cons.1 h
      rw [insert]
      split
      case isTrue lt =>
          refine List.pairwise_cons.2 ⟨fun b mem => ?_, h⟩
          rcases List.mem_cons.1 mem with rfl | mem
          · exact lt
          · exact Nat.lt_trans lt (first b mem)
      case isFalse ge =>
          split
          case isTrue => exact h
          case isFalse ne =>
              refine List.pairwise_cons.2 ⟨fun b mem => ?_, ih ascending⟩
              rcases mem_insert.1 mem with rfl | mem
              · omega
              · exact first b mem

theorem ascending_ofList (alts : List Nat) : (ofList alts).Pairwise (· < ·) := by
  suffices ∀ acc : AltSet, acc.Pairwise (· < ·) →
      (alts.foldl (fun acc a => insert a acc) acc).Pairwise (· < ·) from this [] .nil
  induction alts with
  | nil => exact fun _ h => h
  | cons a rest ih => exact fun _ h => ih _ (ascending_insert h)

end AltSet

/-- The alternatives among which an accept state chooses. -/
def TableState.accepted (d : TableState) : AltSet :=
  if d.configs.uniqueAlt ≠ noAlt then [d.configs.uniqueAlt] else d.configs.conflicting.getD []

namespace TableState

variable {d : TableState}

theorem accepted_of_unique (unique : d.configs.uniqueAlt ≠ noAlt) : d.accepted = [d.configs.uniqueAlt] :=
  if_pos unique

theorem accepted_of_conflict {alts : AltSet} (none : d.configs.uniqueAlt = noAlt)
    (conflict : d.configs.conflicting = some alts) : d.accepted = alts := by
  rw [accepted, if_neg (not_not.2 none), conflict, Option.getD_some]

/-- There is something to choose from, and it is the alternatives of threads of the state. -/
structure Accepting (d : TableState) : Prop where
  nonempty : d.accepted ≠ []
  ascending : d.accepted.Pairwise (· < ·)
  positive : ∀ alt ∈ d.accepted, alt ≠ noAlt
  thread : ∀ alt ∈ d.accepted, ∃ c ∈ d.configs.toList, c.alt = alt

end TableState

/-- Answers of the host do not depend on what it was asked before. -/
def Situation.Stateless {τ : Type} (c : Situation τ) : Prop :=
  ∀ question host host', (c.ask question host).1 = (c.ask question host').1

namespace Prediction

open Step (Keeps)

variable {σ τ α β : Type} {q : Problem τ} {s : Simulation σ τ}

/-- Wherever prediction stops, it has alternatives to choose from. -/
theorem settle_accepting {configs : ConfigurationSet} (some : configs.isEmpty = false)
    (unmarked : configs.uniqueAlt = noAlt) (positive : ∀ c ∈ configs.toList, c.alt ≠ noAlt) :
    Keeps (fun _ => True) (settle q configs : Prediction σ τ TableState)
      fun d => d.isAccept = true → d.Accepting := by
  let P (alt : Nat) : Prop := alt ≠ noAlt ∧ ∃ c ∈ configs.toList, c.alt = alt
  have within (conflicting : Option AltSet) (h : ∀ alts ∈ conflicting, ∀ a ∈ alts, P a) :
      ({ configs with conflicting } : ConfigurationSet).Within P :=
    ⟨fun c mem => ⟨positive c mem, c, mem, rfl⟩, fun marked => absurd unmarked marked, h⟩
  have fresh := within none (fun _ none => by simp at none)
  unfold settle
  refine .ite (fun agree => .pure fun _ => ?_) fun _ => .bind .get fun s _ => ?_
  · obtain ⟨positive, thread⟩ : P configs.agreedAlt := fresh.agreed agree
    constructor <;> rw [TableState.accepted_of_unique agree]
    · exact List.cons_ne_nil _ _
    · exact List.pairwise_singleton _ _
    · exact List.forall_mem_singleton.2 positive
    · exact List.forall_mem_singleton.2 thread
  refine .bind (.asks fun _ _ => id) fun (stop, graph) _ => ?_
  refine .bind (.set trivial) fun _ _ => .ite (fun _ => .pure fun _ => ?_) fun _ => .pure nofun
  obtain ⟨groups, all⟩ := ConfigurationSet.altSubsets_spec fresh some
  obtain ⟨nonempty, all⟩ := Conflict.alts_spec groups all
  constructor <;> rw [TableState.accepted_of_conflict unmarked rfl]
  · exact nonempty
  · exact AltSet.ascending_ofList _
  · exact fun alt mem => (all alt mem).1
  · exact fun alt mem => (all alt mem).2

/-! ### Guards of alternatives -/

section Guards

variable {configs : ConfigurationSet} {alt : Nat} {answers : Guard.Answers} {outer : Option Nat}

/-- The guard of an alternative is the disjunction of those of its threads. -/
theorem guardOf_eq (thread : ∃ c ∈ configs.toList, c.alt = alt) : ∃ first rest,
    (configs.toList.filter (·.alt == alt)).map Configuration.guard = first :: rest ∧
      guardOf configs alt = rest.foldl Guard.or first := by
  have some : (configs.toList.filter (·.alt == alt)).map Configuration.guard ≠ [] := by
    obtain ⟨c, mem, same⟩ := thread
    exact List.ne_nil_of_mem (List.mem_map_of_mem (List.mem_filter.2 ⟨mem, beq_iff_eq.2 same⟩))
  obtain ⟨first, rest, eq⟩ := List.exists_cons_of_ne_nil some
  exact ⟨first, rest, eq, by rw [guardOf, eq]⟩

theorem holds_guardOf (threshold : answers.Threshold outer) (thread : ∃ c ∈ configs.toList, c.alt = alt) :
    (guardOf configs alt).holds answers outer =
      configs.toList.any fun c => c.alt == alt && c.guard.holds answers outer := by
  obtain ⟨first, rest, eq, guard⟩ := guardOf_eq thread
  rw [guard, Guard.holds_foldl_or threshold, ← eq, List.any_map, List.any_filter]
  rfl

theorem certain_guardOf (thread : ∃ c ∈ configs.toList, c.alt = alt) (certain : guardOf configs alt = .always) :
    ∃ c ∈ configs.toList, c.alt = alt ∧ c.guard.Certain := by
  obtain ⟨first, rest, eq, guard⟩ := guardOf_eq thread
  rw [guard] at certain
  obtain ⟨g, mem, sure⟩ := Guard.Certain.foldl_or (certain ▸ Guard.certain_always)
  rw [← eq] at mem
  obtain ⟨c, listed, rfl⟩ := List.mem_map.1 mem
  rw [List.mem_filter, beq_iff_eq] at listed
  exact ⟨c, listed.1, listed.2, sure⟩

end Guards

/-! ### Asking -/

/-- The step answers `a` and changes nothing but the host, whatever the host has been asked. -/
def Replies (s : Simulation σ τ) (x : Prediction σ τ α) (a : α) : Prop :=
  ∀ host, ∃ host', x.run { s with host } = (.ok a, { s with host := host' })

namespace Replies

theorem pure (a : α) : Replies s (Pure.pure a) a :=
  fun host => ⟨host, rfl⟩

theorem bind {x : Prediction σ τ α} {f : α → Prediction σ τ β} {a : α} {b : β} (first : Replies s x a)
    (rest : Replies s (f a) b) : Replies s (x >>= f) b := by
  intro host
  obtain ⟨host', run⟩ := first host
  obtain ⟨host'', run'⟩ := rest host'
  exact ⟨host'', (Step.run_bind_ok run).trans run'⟩

end Replies

/-- What a host answers at the place of the input where the simulation stands, and what the
precedence answers. -/
def answersIn (q : Problem τ) (s : Simulation σ τ) : Guard.Answers where
  predicate node rule index := (q.situation.ask { position := s.input.index, node, rule, index } s.host).1
  precedence _ level := decide (q.situation.precedence ≤ level)

theorem threshold_answersIn (q : Problem τ) (s : Simulation σ τ) (outer : Option Nat) :
    (answersIn q s).Threshold outer :=
  ⟨q.situation.precedence, fun _ => rfl⟩

section Asking

variable (stateless : q.situation.Stateless)

include stateless

theorem ask_replies (node : Option NodeId) (rule index : Nat) :
    Replies s (ask q node rule index) ((answersIn q s).predicate node rule index) := by
  intro host
  let question : Question := { position := s.input.index, node, rule, index }
  refine ⟨(q.situation.ask question host).2, ?_⟩
  have same : (answersIn q s).predicate node rule index = (q.situation.ask question host).1 :=
    stateless question s.host host
  rw [same]
  rfl

/-- A host that is stateless gives guards the truth values that they have. -/
theorem eval_replies (outer : Option Nat) (g : Guard) :
    Replies s (g.eval (evaluator q) outer) (g.holds (answersIn q s) outer) := by
  induction g using Guard.inductionOn with
  | always => exact .pure true
  | predicate rule index contextual => exact ask_replies stateless _ rule index
  | precedence level => exact .pure _
  | all gs ih =>
      rw [Guard.eval, Guard.holds_all]
      induction gs with
      | nil => exact .pure true
      | cons g gs rest =>
          obtain ⟨head, tail⟩ := List.forall_mem_cons.1 ih
          rw [Guard.evalAll, List.all_cons]
          refine .bind head ?_
          cases g.holds (answersIn q s) outer with
          | true => exact rest tail
          | false => exact .pure false
  | any gs ih =>
      rw [Guard.eval, Guard.holds_any]
      induction gs with
      | nil => exact .pure false
      | cons g gs rest =>
          obtain ⟨head, tail⟩ := List.forall_mem_cons.1 ih
          rw [Guard.evalAny, List.any_cons]
          refine .bind head ?_
          cases g.holds (answersIn q s) outer with
          | true => exact .pure true
          | false => exact rest tail

theorem admits_replies (g : Guard) :
    Replies s (admits q g) (g.holds (answersIn q s) q.situation.node) := by
  unfold admits
  split
  case isTrue certain =>
      rw [Guard.isAlways_iff.1 certain]
      exact .pure true
  case isFalse => exact eval_replies stateless _ g

/-- The alternatives whose guards are true, in the order in which they are listed. -/
theorem viable_replies {guards : List (Guard × Nat)} (ascending : (guards.map Prod.snd).Pairwise (· < ·)) :
    Replies s (viable q guards)
      ((guards.filter fun g => g.1.holds (answersIn q s) q.situation.node).map Prod.snd) := by
  -- The alternatives come in ascending order, so each one goes to the end of those before it.
  suffices ∀ acc : AltSet, (acc ++ guards.map Prod.snd).Pairwise (· < ·) →
      Replies s (guards.foldlM
        (fun alts g => do return if ← admits q g.1 then AltSet.insert g.2 alts else alts) acc)
        (acc ++ (guards.filter fun g => g.1.holds (answersIn q s) q.situation.node).map Prod.snd) from
    this [] ascending
  clear ascending
  induction guards with
  | nil => exact fun acc _ => (List.append_nil acc).symm ▸ .pure acc
  | cons g guards ih =>
      intro acc ascending
      have last : ∀ a ∈ acc, a < g.2 := fun a mem =>
        (List.pairwise_append.1 ascending).2.2 a mem g.2 (.head _)
      rw [List.foldlM_cons, List.filter_cons]
      refine .bind (.bind (admits_replies stateless g.1) (.pure _)) ?_
      split
      case isTrue =>
          have later := ih (acc ++ [g.2])
          rw [List.append_assoc, List.append_assoc] at later
          rw [AltSet.insert_last last]
          exact later ascending
      case isFalse =>
          refine ih _ (ascending.sublist ?_)
          exact (List.sublist_cons_self _ _).append_left acc

end Asking

/-! ### Choosing -/

section Choosing

variable {d : TableState} {n : Nat}

/-- What becomes of an accept state depends on whether its alternatives are guarded. -/
theorem withGuards_cases (accepting : d.Accepting) (within : ∀ alt ∈ d.accepted, alt ≤ n) :
    let guards := d.accepted.map fun alt => (guardOf d.configs alt, alt)
    if ∀ alt ∈ d.accepted, guardOf d.configs alt = .always then
      withGuards n d = { d with prediction := d.accepted.head accepting.nonempty }
    else withGuards n d = { d with guards := some guards, prediction := noAlt } := by
  have all : d.accepted.filter (fun alt => decide (1 ≤ alt) && decide (alt ≤ n)) = d.accepted := by
    refine List.filter_eq_self.2 fun alt mem => ?_
    rw [Bool.and_eq_true, decide_eq_true_iff, decide_eq_true_iff]
    exact ⟨Nat.one_le_iff_ne_zero.2 (accepting.positive alt mem), within alt mem⟩
  have found : guardsOf d.accepted d.configs n =
      if ∀ alt ∈ d.accepted, guardOf d.configs alt = .always then none
      else some (d.accepted.map fun alt => (guardOf d.configs alt, alt)) := by
    unfold guardsOf
    simp only [all, List.all_map, List.all_eq_true, Function.comp_apply, Guard.isAlways_iff]
  have unfolded : withGuards n d = (guardsOf d.accepted d.configs n).elim
      { d with prediction := d.accepted.head?.getD noAlt }
      fun guards => { d with guards := some guards, prediction := noAlt } := by
    rw [withGuards, ← TableState.accepted]
    cases guardsOf d.accepted d.configs n <;> rfl
  intro guards
  split
  case isTrue certain =>
      rw [unfolded, found, if_pos certain, Option.elim_none, List.head?_eq_some_head accepting.nonempty,
        Option.getD_some]
  case isFalse guarded => rw [unfolded, found, if_neg guarded, Option.elim_some]

/-- If no alternative is guarded, each has a thread in which nothing is asked, and the least one is
predicted. Otherwise the guards that are kept choose the alternatives with a thread whose guard
is true. -/
theorem withGuards_chooses (accepting : d.Accepting) (within : ∀ alt ∈ d.accepted, alt ≤ n)
    (stateless : q.situation.Stateless) (s : Simulation σ τ) :
    ((withGuards n d).guards = d.guards ∧
      (∀ alt ∈ d.accepted, guardOf d.configs alt = .always ∧ ∃ c ∈ d.configs.toList, c.alt = alt ∧
        c.guard.Certain ∧ (c.guard.Composed → c.guard = .always)) ∧
      (withGuards n d).prediction ∈ d.accepted ∧
      ∀ alt ∈ d.accepted, (withGuards n d).prediction ≤ alt) ∨
    ∃ guards, (withGuards n d).guards = some guards ∧ ∃ host,
      (viable q guards).run s = (.ok (d.accepted.filter fun alt => d.configs.toList.any fun c =>
        c.alt == alt && c.guard.holds (answersIn q s) q.situation.node), { s with host }) := by
  have cases := withGuards_cases accepting within
  simp only at cases
  split at cases
  case isTrue certain =>
      left
      rw [cases]
      refine ⟨rfl, fun alt mem => ⟨certain alt mem, ?_⟩, List.head_mem accepting.nonempty, fun alt mem => ?_⟩
      · obtain ⟨c, mem, same, sure⟩ := certain_guardOf (accepting.thread alt mem) (certain alt mem)
        exact ⟨c, mem, same, sure, fun composed => composed.eq_always sure⟩
      · have ascending := accepting.ascending
        obtain ⟨first, rest, eq⟩ := List.exists_cons_of_ne_nil accepting.nonempty
        simp only [eq, List.head_cons] at ascending mem ⊢
        rcases List.mem_cons.1 mem with rfl | mem
        · exact Nat.le_refl _
        · exact Nat.le_of_lt ((List.pairwise_cons.1 ascending).1 alt mem)
  case isFalse =>
      right
      rw [cases]
      refine ⟨_, rfl, ?_⟩
      have sorted : ((d.accepted.map fun alt => (guardOf d.configs alt, alt)).map Prod.snd).Pairwise (· < ·) := by
        rw [List.map_map]
        exact (List.map_id' d.accepted).symm ▸ accepting.ascending
      obtain ⟨host, run⟩ := viable_replies (s := s) stateless sorted s.host
      refine ⟨host, run.trans ?_⟩
      rw [List.filter_map, List.map_map]
      congr 2
      refine (List.map_id' _).trans (List.filter_congr fun alt mem => ?_)
      exact holds_guardOf (threshold_answersIn q s _) (accepting.thread alt mem)

/-- Two alternatives in conflict, of which the second one has a thread whose guard is true. -/
def guardedConflict : TableState where
  configs := {
    items := #[
      { state := 1, alt := 1, guard := .precedence 3 },
      { state := 2, alt := 2, guard := (Guard.predicate 0 0 false).and (.precedence 7) },
      { state := 3, alt := 1, guard := .predicate 0 1 true },
      { state := 4, alt := 2, guard := .any [.predicate 0 1 false, .all []] }]
    conflicting := some [1, 2]
    hasGuards := true }
  isAccept := true

/-- A problem at precedence 5, with a host that denies everything. -/
def deniedProblem : Problem Unit where
  grammar := default
  mode := .ll
  fuel := 0
  decision := 0
  decisionState := 0
  byPrecedence := false
  start := 0
  situation := {
    node := none, invoking := [], precedence := 5, state := 0, ask := fun _ host => (false, host) }

theorem withGuards_chooses_guardedConflict :
    guardedConflict.Accepting ∧ (∀ alt ∈ guardedConflict.accepted, alt ≤ 2) ∧
      deniedProblem.situation.Stateless ∧
      ∀ s : Simulation TokenList Unit, ∃ guards, (withGuards 2 guardedConflict).guards = some guards ∧
        ∃ host, (viable deniedProblem guards).run s = (.ok [2], { s with host }) := by
  have accepting : guardedConflict.Accepting :=
    ⟨by decide, by decide, by decide, by decide⟩
  have within : ∀ alt ∈ guardedConflict.accepted, alt ≤ 2 := by decide
  have stateless : deniedProblem.situation.Stateless := fun _ _ _ => rfl
  refine ⟨accepting, within, stateless, fun s => ?_⟩
  rcases withGuards_chooses accepting within stateless s with ⟨unguarded, -⟩ | ⟨guards, kept, host, run⟩
  · exact absurd unguarded (by decide)
  · exact ⟨guards, kept, host, run⟩

end Choosing

end Prediction

end AdaptiveLL
