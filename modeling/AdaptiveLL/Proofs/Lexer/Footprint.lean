import AdaptiveLL.Lexer.Scanner
import AdaptiveLL.Proofs.Prediction.StackGraph
import AdaptiveLL.Proofs.Step.Invariant
/-!
What a match leaves alone. While threads are followed, stacks are pushed, the host is asked, and
what is found out is written down in the table of the mode. Nothing else is touched; in particular
the tables of the other modes stay as they are.
-/
namespace AdaptiveLL

namespace Tables

variable {t t' t'' : Tables} {mode other : Nat}

/-- No table has changed but that of one mode, and the stacks that were there are there. -/
structure ChangesAt (mode : Nat) (t t' : Tables) : Prop where
  grown : t.graph.Extends t'.graph
  size : t'.tables.size = t.tables.size
  others : ∀ {other : Nat}, other ≠ mode → t'.tables[other]? = t.tables[other]?

theorem ChangesAt.refl (mode : Nat) (t : Tables) : t.ChangesAt mode t :=
  ⟨.refl _, rfl, fun _ => rfl⟩

theorem ChangesAt.trans (h : t.ChangesAt mode t') (h' : t'.ChangesAt mode t'') :
    t.ChangesAt mode t'' :=
  ⟨h.grown.trans h'.grown, h'.size.trans h.size,
    fun apart => (h'.others apart).trans (h.others apart)⟩

theorem changesAt_modifyTable (mode : Nat) (t : Tables) (f : PredictionTable → PredictionTable) :
    t.ChangesAt mode (t.modifyTable mode f) where
  grown := .refl _
  size := by simp [modifyTable]
  others apart := by rw [modifyTable, Array.getElem?_modify, if_neg (Ne.symm apart)]

end Tables

namespace Scanner

variable {τ : Type} {mode : Nat}

/-- The property has nothing to do with new stacks, with the host, or with the table of the mode. -/
structure Ignores (mode : Nat) (P : Scanner τ → Prop) : Prop where
  graph : ∀ {s : Scanner τ} {graph : StackGraph}, P s → s.tables.graph.Extends graph →
    P { s with tables := { s.tables with arena := { s.tables.arena with graph } } }
  host : ∀ {s : Scanner τ} {host : τ}, P s → P { s with host }
  table : ∀ {s : Scanner τ} {f : PredictionTable → PredictionTable}, P s →
    P { s with tables := s.tables.modifyTable mode f }

/-- Since its tables were `t`, only that of the mode has changed. -/
def Since (t : Tables) (mode : Nat) (s : Scanner τ) : Prop :=
  t.ChangesAt mode s.tables

theorem ignores_since (t : Tables) (mode : Nat) : Ignores mode (Since (τ := τ) t mode) where
  graph h grown := ⟨h.grown.trans grown, h.size, h.others⟩
  host h := h
  table h := h.trans (Tables.changesAt_modifyTable mode _ _)

end Scanner

namespace Scan

open Scanner (Ignores Since)

variable {τ : Type} {u : LexerSetup τ} {n : Network} {mode : ClosureMode} {P : Scanner τ → Prop}

theorem move_preserves (c : Configuration) (q : Nat) : (move n c q).Preserves P :=
  .bind (.ofQuestion _) fun _ => .pure _

section Ignores

variable {k : Nat} (ignores : Ignores k P)
include ignores

theorem ask_preserves (speculative : Bool) (rule index : Nat) :
    (ask u speculative rule index).Preserves P :=
  fun _ inv => ignores.host inv

theorem cross_preserves (c : Configuration) (t : Transition) : (cross u mode c t).Preserves P := by
  cases t with
  | call target rule precedence follow =>
      refine .bind_get fun s inv => Step.Preserves.bind_run (x := set _) ?_ fun _ =>
        .bind (move_preserves c target) fun _ => .pure _
      exact ignores.graph inv (StackGraph.extends_push s.tables.graph c.stack follow)
  | precedence => exact .pure _
  | predicate target =>
      exact .bind (ask_preserves ignores _ _ _) fun _ =>
        .ite (.bind (move_preserves c target) fun _ => .pure _) (.pure _)
  | action target =>
      refine .bind (move_preserves c target) fun moved => .bind (fun _ inv => inv) fun inside => ?_
      split <;> exact .pure _
  | epsilon target => exact .bind (move_preserves c target) fun _ => .pure _
  | atom target | range target | set target =>
      exact .ite (.bind (move_preserves c target) fun _ => .pure _) (.pure _)
  | notSet | wildcard => exact .pure _

theorem close_preserves (fuel : Nat) (c : Configuration) (accepted : Bool)
    (configs : ConfigurationSet) : (close u mode fuel c accepted configs).Preserves P := by
  induction fuel generalizing c accepted configs with
  | zero => exact .throw _
  | succ fuel ih =>
      unfold close
      refine .bind (.ofQuestion _) fun s => .ite ?_ ?_
      · exact .ite (.pure _) (.bind .get fun here => .foldlM (fun _ _ =>
          .bind (move_preserves c _) fun _ => ih _ _ _) _ _)
      · refine .foldlM (fun _ t => .bind (cross_preserves ignores c t) fun target => ?_) _ _
        cases target with
        | none => exact .pure _
        | some target => exact ih _ _ _

theorem startConfigs_preserves (state : Nat) : (startConfigs u state).Preserves P :=
  .bind (.ofQuestion _) fun _ =>
    .foldlM (fun _ _ => .bind (close_preserves ignores _ _ _ _) fun _ => .pure _) _ _

theorem advanceThread_preserves (symbol : Symbol) (c : Configuration) (accepted : Bool)
    (ts : List Transition) (configs : ConfigurationSet) :
    (advanceThread u symbol c accepted ts configs).Preserves P := by
  induction ts generalizing configs with
  | nil => exact .pure _
  | cons t ts ih =>
      unfold advanceThread
      refine .ite (ih configs) ?_
      exact .bind .get fun _ => .bind (move_preserves c _) fun _ =>
        .bind (close_preserves ignores _ _ _ _) fun _ => .ite (.pure _) (ih _)

theorem reach_preserves (configs : ConfigurationSet) (symbol : Symbol) :
    (reach u configs symbol).Preserves P :=
  .bind (.foldlM (fun _ _ => .ite (.pure _) (.bind (.ofQuestion _) fun _ =>
    .bind (advanceThread_preserves ignores _ _ _ _ _) fun _ => .pure _)) _ _) fun _ => .pure _

theorem onTable_preserves {α : Type} [Inhabited α] (f : PredictionTable → α × PredictionTable) :
    (onTable k f).Preserves P := by
  refine .bind_get fun s inv => ?_
  split
  · exact inv
  · exact ignores.table inv

theorem enter_preserves (configs : ConfigurationSet) : (enter u k configs).Preserves P :=
  .bind (onTable_preserves ignores _) fun _ => .pure _

theorem computeTarget_preserves (source : TableState) (symbol : Symbol) :
    (computeTarget u k source symbol).Preserves P := by
  refine .bind (reach_preserves ignores _ _) fun configs => .ite ?_ ?_
  · exact .ite (.bind (onTable_preserves ignores _) fun _ => .pure _) (.pure _)
  · exact .bind (enter_preserves ignores configs) fun _ =>
      .ite (.bind (onTable_preserves ignores _) fun _ => .pure _) (.pure _)

theorem target_preserves (source : TableState) (symbol : Symbol) :
    (target u k source symbol).Preserves P := by
  refine .bind (onTable_preserves ignores _) fun known => ?_
  cases known with
  | some known => exact .pure _
  | none => exact computeTarget_preserves ignores source symbol

theorem startState_preserves : (startState u k).Preserves P := by
  refine .bind (onTable_preserves ignores _) fun known => ?_
  cases known with
  | some known => exact .pure _
  | none =>
      exact .bind (onTable_preserves ignores _) fun _ =>
        .bind (startConfigs_preserves ignores _) fun _ => .bind (enter_preserves ignores _) fun _ =>
          .ite (.bind (onTable_preserves ignores _) fun _ => .pure _) (.pure _)

end Ignores

/-! ### Other modes -/

section Since

variable {k : Nat} {t : Tables}

theorem acceptance_since (state : TableState) (last : Option Acceptance) :
    (acceptance state last : Scan τ _).Preserves (Since t k) :=
  .ite (.pure _) (.bind .get fun _ => .pure _)

theorem conclude_since (source : TableState) (symbol : Symbol) (last : Option Acceptance) :
    (conclude source symbol last : Scan τ Match).Preserves (Since t k) := by
  refine .bind_get fun s inv => ?_
  cases last with
  | some a => exact Step.Preserves.bind_run (x := set _) inv fun _ => .pure _
  | none => exact Step.Preserves.ite (.pure _) (.throw _) s inv

theorem readOn_since (fuel : Nat) (source : TableState) (last : Option Acceptance) :
    (readOn u k fuel source last).Preserves (Since t k) := by
  induction fuel generalizing source last with
  | zero => exact .throw _
  | succ fuel ih =>
      refine .bind .get fun here =>
        .bind (target_preserves (Scanner.ignores_since t k) source _) fun next => ?_
      cases next with
      | dead => exact conclude_since source _ last
      | state next =>
          refine .ite (.ite ?_ (ih next last)) ?_
          · exact .bind (acceptance_since next last) fun _ => conclude_since source _ _
          · refine .bind (.modify fun s inv => ?_) fun _ =>
              .bind (acceptance_since next last) fun _ => ih next _
            unfold Scanner.consume
            split <;> exact inv

/-- A match changes the table of its mode only. -/
theorem matchToken_changesAt (u : LexerSetup τ) (k : Nat) (s : Scanner τ) :
    s.tables.ChangesAt k ((matchToken u k).run s).2.tables := by
  have matching : (matchToken u k).Preserves (Since s.tables k) := by
    have reads : (do
        let start ← startState u k
        readOn u k u.fuel start (← acceptance start none) : Scan τ Match).Preserves
          (Since s.tables k) :=
      .bind (startState_preserves (Scanner.ignores_since s.tables k)) fun start =>
        .bind (acceptance_since start none) fun last => readOn_since _ start last
    refine .bind (.modify fun _ inv => ⟨inv.grown, inv.size, inv.others⟩) fun _ => ?_
    refine .bind .get fun here => ?_
    refine .bind (.attempt (.ite reads (.throw _))) fun outcome => ?_
    exact .bind (.modify fun _ inv => inv) fun _ => .ofOutcome outcome
  exact matching s (.refl k s.tables)

end Since

end Scan

end AdaptiveLL
