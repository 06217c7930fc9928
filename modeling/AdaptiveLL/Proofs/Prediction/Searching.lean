import AdaptiveLL.Proofs.Prediction.Decisive
/-!
What is kept in the course of a prediction: the tables are decisive, and only so many tokens have been
counted. Nothing of the input is passed until a table knows where the next symbol leads.
-/
namespace AdaptiveLL

open StackGraph

variable {σ τ : Type}

/-- The tokens counted from one state to another, for each decision: if `known`, at most `near` without
context, and if `full`, at most `far` with the full context. -/
def Simulation.Counts (known full : Prop) (near far : Nat) (s s' : Simulation σ τ) : Prop :=
  ∀ (k : Nat) (i' : DecisionStats), s'.stats[k]? = some i' → ∃ i, s.stats[k]? = some i ∧
    (known → i'.localLookahead ≤ i.localLookahead + near) ∧
    (full → i'.fullLookahead ≤ i.fullLookahead + far)

namespace Simulation.Counts

variable {known full : Prop} {near near' far far' : Nat} {s s' : Simulation σ τ}

theorem refl (s : Simulation σ τ) : s.Counts known full 0 0 s :=
  fun _ i' here => ⟨i', here, fun _ => Nat.le_refl _, fun _ => Nat.le_refl _⟩

theorem imp (h : s.Counts known full near far s') (near_le : known → near ≤ near')
    (far_le : full → far ≤ far') : s.Counts known full near' far' s' := by
  intro k i' here
  obtain ⟨i, here', locally, fully⟩ := h k i' here
  exact ⟨i, here', fun yes => (locally yes).trans (Nat.add_le_add_left (near_le yes) _),
    fun yes => (fully yes).trans (Nat.add_le_add_left (far_le yes) _)⟩

/-- Some more have been counted. -/
theorem modifyStats (h : s.Counts known full near far s') (decision : Nat)
    {f : DecisionStats → DecisionStats} {a b : Nat}
    (more : ∀ i, (f i).localLookahead = i.localLookahead + a ∧
      (f i).fullLookahead = i.fullLookahead + b) :
    s.Counts known full (near + a) (far + b) (s'.modifyStats decision f) := by
  intro k i' here
  simp only [Simulation.modifyStats, Array.getElem?_modify] at here
  split at here
  case isTrue =>
      obtain ⟨j, found, rfl⟩ := Option.map_eq_some_iff.1 here
      obtain ⟨i, here', locally, fully⟩ := h k j found
      obtain ⟨moreLocally, moreFully⟩ := more j
      refine ⟨i, here', fun yes => ?_, fun yes => ?_⟩
      · have := locally yes
        omega
      · have := fully yes
        omega
  case isFalse =>
      obtain ⟨i, here', locally, fully⟩ := h k i' here
      refine ⟨i, here', fun yes => ?_, fun yes => ?_⟩
      · exact (locally yes).trans (by omega)
      · exact (fully yes).trans (by omega)

end Simulation.Counts

namespace Prediction

variable [TokenSource σ]

/-- In the course of a prediction that started in `s₀`: the tables are decisive, and this many tokens
have been counted. -/
structure Searching (q : Problem τ) (known full : Prop) (near far : Nat) (s₀ s : Simulation σ τ) :
    Prop where
  led : s₀.input.Leads s.input
  keeps : s.tables.arena.Keeps Among
  own : q.decision < s.tables.tables.size
  tables : ∀ t ∈ s.tables.tables, t.Decisive q.grammar.network s.tables.graph
  counted : s₀.Counts known full near far s

namespace Searching

variable {q : Problem τ} {known full : Prop} {near near' far far' : Nat} {s₀ s s' : Simulation σ τ}

theorem decisive (h : Searching q known full near far s₀ s) :
    s.tables.Decisive q.grammar.network :=
  ⟨h.keeps.tidy, h.tables⟩

theorem imp (h : Searching q known full near far s₀ s) (near_le : known → near ≤ near')
    (far_le : full → far ≤ far') : Searching q known full near' far' s₀ s :=
  { h with counted := h.counted.imp near_le far_le }

theorem abides (h : Searching q known full near far s₀ s) (abides : s.Abides s') :
    Searching q known full near far s₀ s' where
  led := h.led.trans abides.led
  keeps := abides.keeps
  own := abides.tables ▸ h.own
  tables t mem := (h.tables t (abides.tables ▸ mem)).mono h.keeps.tidy abides.grown
  counted := by
    rw [Simulation.Counts, abides.stats]
    exact h.counted

/-- What is done beside does not matter. -/
theorem aside : Aside (Searching q known full near far s₀) where
  input _ _ leads h := { h with led := h.led.trans leads }
  host _ _ h := { h with }
  reports _ _ h := { h with }
  counts _ decision _ same h := { h with counted := h.counted.modifyStats (a := 0) (b := 0) decision same }

end Searching

/-- The step keeps what `Inv` says and passes nothing of the input. -/
def Seeking {α : Type} (Inv : Simulation σ τ → Prop) (s : Simulation σ τ) (x : Prediction σ τ α)
    (P : Simulation σ τ → α → Prop) : Prop :=
  Step.Ensures x s
    (fun a s' => Inv s' ∧ s.tables.graph.Extends s'.tables.graph ∧ s.input.Passes s'.input [] ∧ P s' a)
    fun _ s' => Inv s'

namespace Seeking

variable {α β : Type} {Inv : Simulation σ τ → Prop} {s : Simulation σ τ} {x : Prediction σ τ α} {a : α}
  {f : α → Prediction σ τ β} {P P' : Simulation σ τ → α → Prop} {R : Simulation σ τ → β → Prop}

theorem pure (inv : Inv s) (h : P s a) : Seeking Inv s (Pure.pure a) P :=
  ⟨inv, .refl _, .refl _, h⟩

theorem bind (first : Seeking Inv s x P)
    (rest : ∀ a s', Inv s' → s.tables.graph.Extends s'.tables.graph → P s' a →
      Seeking Inv s' (f a) R) : Seeking Inv s (x >>= f) R := by
  refine Step.Ensures.bind (Step.Ensures.imp first ?_ fun _ _ => id)
  rintro a s' ⟨inv, grown, passes, holds⟩
  refine Step.Ensures.imp (rest a s' inv grown holds) ?_ fun _ _ => id
  rintro b s'' ⟨inv', grown', passes', holds'⟩
  exact ⟨inv', grown.trans grown', passes.trans passes', holds'⟩

end Seeking

section Tables

variable {α : Type} {q : Problem τ} {known full : Prop} {near far : Nat} {s₀ s : Simulation σ τ}
  {d source : TableState} {x : Symbol}

theorem Lingering.seeking {y : Prediction σ τ α} {P : StackGraph → α → Prop} (h : Lingering s y P)
    (inv : Searching q known full near far s₀ s) :
    Seeking (Searching q known full near far s₀) s y fun s' a => P s'.tables.graph a :=
  Step.Ensures.imp h
    (fun _ _ ⟨lingers, holds⟩ => ⟨inv.abides lingers.toAbides, lingers.grown, lingers.input, holds⟩)
    fun _ _ => inv.abides

/-- Changing the table of the decision. -/
theorem onTable_seeking [Inhabited α] {f : PredictionTable → α × PredictionTable}
    {P : Simulation σ τ → α → Prop} (inv : Searching q known full near far s₀ s)
    (change : ∀ table, s.tables.tables[q.decision]? = some table →
      table.Decisive q.grammar.network s.tables.graph →
        (f table).2.Decisive q.grammar.network s.tables.graph ∧
          ∀ s', s'.tables.tables[q.decision]? = some (f table).2 →
            s'.tables.graph = s.tables.graph → P s' (f table).1) :
    Seeking (Searching q known full near far s₀) s (onTable q f) P := by
  obtain ⟨table, here⟩ : ∃ table, s.tables.tables[q.decision]? = some table :=
    ⟨_, Array.getElem?_eq_getElem inv.own⟩
  obtain ⟨decisive, holds⟩ := change table here (inv.tables _ (Array.mem_of_getElem? here))
  have now : (s.tables.tables.modify q.decision fun _ => (f table).2)[q.decision]? = some (f table).2 := by
    simp [Array.getElem?_modify, here]
  refine .of_ok (onTable_run here) ⟨{ inv with own := ?_, tables := ?_ }, .refl _, .refl _, ?_⟩
  · simpa [Tables.modifyTable] using inv.own
  · intro t mem
    obtain ⟨i, found⟩ := Array.mem_iff_getElem?.1 mem
    by_cases own : i = q.decision
    · rw [own] at found
      exact Option.some.inj (now.symm.trans found) ▸ decisive
    · rw [Tables.modifyTable, Array.getElem?_modify, if_neg fun same => own same.symm] at found
      exact inv.tables t (Array.mem_of_getElem? found)
  · exact holds _ now rfl

/-- The state may be entered, which is then in the table. -/
theorem addState_seeking (inv : Searching q known full near far s₀ s)
    (settled : d.Settled q.grammar.network s.tables.graph) :
    Seeking (Searching q known full near far s₀) s (addState q d) fun s' e =>
      s'.Has q e ∧ e.Settled q.grammar.network s'.tables.graph ∧ e.isAccept = d.isAccept := by
  refine onTable_seeking inv fun table here decisive => ?_
  obtain ⟨decisive, held, settled, accept⟩ := decisive.addState settled
  exact ⟨decisive, fun s' now graph => ⟨⟨_, now, held⟩, graph ▸ settled, accept⟩⟩

/-- The states that a table leads to. -/
abbrev Arrives (q : Problem τ) (x : Symbol) (s : Simulation σ τ) (target : TableTarget) : Prop :=
  ∀ d, target = .state d →
    d.Settled q.grammar.network s.tables.graph ∧ (x = Symbol.eof → d.isAccept = true)

theorem computeTarget_seeking (inv : Searching q known full near far s₀ s)
    (settled : source.Settled q.grammar.network s.tables.graph) :
    Seeking (Searching q known full near far s₀) s (computeTarget q source x) (Arrives q x) := by
  have confines : Confines q.grammar.network False q := ⟨rfl, False.elim, False.elim⟩
  refine .bind ((reach_reached confines False.elim inv.keeps settled.rooted False.elim x).seeking inv) ?_
  intro reached s₁ inv₁ _ all
  cases reached with
  | none =>
      refine .bind (onTable_seeking (P := fun _ _ => True) inv₁ fun table _ decisive =>
        ⟨decisive.addEdge_dead _ _, fun _ _ _ => trivial⟩) fun _ s₂ inv₂ _ _ => .pure inv₂ ?_
      exact fun d eq => by cases eq
  | some configs =>
      refine .bind ((settle_settled rfl inv₁.keeps (all configs rfl)).seeking inv₁) ?_
      rintro d s₂ inv₂ - ⟨settled, stops⟩
      have concluded := settled.of_eq (configs_concluded q d) (isAccept_concluded q d)
      refine .bind (addState_seeking inv₂ concluded) ?_
      rintro e s₃ inv₃ - ⟨⟨table, here, held⟩, settled, accept⟩
      rw [isAccept_concluded] at accept
      have stops : x = Symbol.eof → e.isAccept = true := fun eof => accept.trans (stops eof)
      refine .bind (onTable_seeking (P := fun s' _ =>
        e.Settled q.grammar.network s'.tables.graph) inv₃ fun table' here' decisive => ?_)
        fun _ s₄ inv₄ _ settled => .pure inv₄ fun d' eq => ?_
      · obtain rfl := Option.some.inj (here.symm.trans here')
        exact ⟨decisive.addEdge _ held stops, fun _ _ graph => graph ▸ settled⟩
      · obtain rfl := TableTarget.state.inj eq
        exact ⟨settled, stops⟩

theorem target_seeking (inv : Searching q known full near far s₀ s)
    (settled : source.Settled q.grammar.network s.tables.graph) :
    Seeking (Searching q known full near far s₀) s (target q source x) (Arrives q x) := by
  refine .bind (onTable_seeking (P := fun s' target =>
    source.Settled q.grammar.network s'.tables.graph ∧ ∀ known ∈ target, Arrives q x s' known) inv
    fun table _ decisive => ⟨decisive, fun s' _ graph => ?_⟩) ?_
  · refine ⟨graph ▸ settled, fun known mem d eq => ?_⟩
    subst eq
    exact graph ▸ decisive.edge mem
  · rintro target s₁ inv₁ - ⟨settled, leads⟩
    cases target with
    | some known => exact .pure inv₁ (leads known rfl)
    | none => exact computeTarget_seeking inv₁ settled

theorem filterByPrecedence_lingering {n : Network} {configs : ConfigurationSet}
    (keeps : s.tables.arena.Keeps Among) (h : configs.Kept n False 0 s.tables.graph) :
    Lingering s (filterByPrecedence q configs) (ConfigurationSet.Kept n False 0) := by
  have unchanged : Step.Keeps (fun s' : Simulation σ τ => s' = s) (operatorThreads q configs) fun threads =>
      ∀ c ∈ threads, ∃ c' ∈ configs.toList, ∃ guard, c = { c' with guard } :=
    operatorThreads_keeps configs
  refine .bind (P := fun _ threads => ∀ c ∈ threads, ∃ c' ∈ configs.toList, ∃ guard, c = { c' with guard })
    ((unchanged s rfl).imp ?_ ?_) fun operators s₁ lingers all => ?_
  · rintro threads _ ⟨rfl, all⟩
    exact ⟨.refl keeps, all⟩
  · rintro e _ ⟨rfl, -⟩
    exact .refl keeps
  · refine .foldlM lingers.keeps (.empty n False 0 _ _) fun s₂ later set kept c mem => ?_
    refine addTo_kept later.keeps kept (.mono ?_ keeps.tidy (lingers.trans later).grown) False.elim
    rcases List.mem_append.1 mem with mem | mem
    · obtain ⟨c', inside, guard, rfl⟩ := all c mem
      exact (h.rooted c' inside).goOn rfl rfl False.elim
    · exact h.rooted c (List.mem_of_mem_filter mem)

theorem startState_seeking (inv : Searching q known full near far s₀ s) :
    Seeking (Searching q known full near far s₀) s (startState q) fun s' d =>
      d.Settled q.grammar.network s'.tables.graph := by
  refine .bind (onTable_seeking (P := fun s' found =>
    ∀ d ∈ found, d.Settled q.grammar.network s'.tables.graph) inv
    fun table _ decisive => ⟨decisive, fun s' _ graph d mem => ?_⟩) fun found s₁ inv₁ _ all => ?_
  · rw [graph]
    simp only at mem
    split at mem
    · obtain ⟨k, -, here⟩ := Option.bind_eq_some_iff.1 mem
      exact decisive.settled d (Array.mem_of_getElem? here)
    · obtain ⟨k, -, here⟩ := Option.bind_eq_some_iff.1 mem
      exact decisive.settled d (Array.mem_of_getElem? here)
  cases found with
  | some d => exact .pure inv₁ (all d rfl)
  | none =>
      have confines : Confines q.grammar.network False q := ⟨rfl, False.elim, False.elim⟩
      have starts : Lingering s₁ (startConfigs q false 0)
          (ConfigurationSet.Kept q.grammar.network False 0) :=
        startConfigs_kept confines False.elim inv₁.keeps fun _ _ t _ alt chosen =>
          ⟨chosen, present_zero, False.elim⟩
      have enters {s : Simulation σ τ} {configs : ConfigurationSet}
          {link : TableState → PredictionTable → PredictionTable}
          (linked : ∀ {g t} d, t.Decisive q.grammar.network g → (link d t).Decisive q.grammar.network g)
          (inv : Searching q known full near far s₀ s)
          (kept : configs.Kept q.grammar.network False 0 s.tables.graph) :
          Seeking (Searching q known full near far s₀) s
            (do
              let d ← addState q { configs }
              onTable q fun table => ((), link d table)
              return d)
            fun s' d => d.Settled q.grammar.network s'.tables.graph := by
        refine .bind (addState_seeking inv (.of_kept kept)) ?_
        rintro d s₁ inv₁ - ⟨-, settled, -⟩
        refine .bind (onTable_seeking (P := fun s' _ => d.Settled q.grammar.network s'.tables.graph)
          inv₁ fun table _ decisive => ⟨linked d decisive, fun s' _ graph => graph ▸ settled⟩) ?_
        exact fun _ s₂ inv₂ _ settled => .pure inv₂ settled
      refine .bind (starts.seeking inv₁) fun configs s₂ inv₂ _ kept => ?_
      cases q.byPrecedence with
      | true =>
          refine .bind ((filterByPrecedence_lingering inv₂.keeps kept).seeking inv₂) ?_
          exact fun configs s₃ inv₃ _ kept => enters (fun d h => h.setPrecedenceStart _ d) inv₃ kept
      | false => exact enters (fun d h => h.setStart d) inv₂ kept

end Tables

end Prediction

end AdaptiveLL
